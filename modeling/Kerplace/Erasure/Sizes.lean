/-
# `Kerplace.Erasure.Sizes` — the size a sharded put records

Whatever the drives answer, the only object metadata a put writes is that of the object,
with one size, which is also the size in its answer.
-/
import Kerplace.Erasure.Copies

namespace Kerplace

open Prog

/-- The object metadata an operation writes, if it does, has this size. -/
def DriveOp.Sizes (size : Nat) : DriveOp Doc → Prop
  | .write _ (.doc (.xl m)) => m.size = size
  | _ => True

/-- The contract of calls that write object metadata with one size only. -/
def sizeContract (n size : Nat) : Contract (StoreOp n Doc) StoreOp.Ans where
  may
    | .drive _ o => o.Sizes size
    | _ => True
  gives _ _ := True

namespace ErasureStore

variable {n size : Nat} {S : ErasureStore n} {bucket key : Str}

section

theorem sized_each {α : Type} {p : Fin n → DriveProg Doc α}
    (hp : ∀ d, Meets ((sizeContract n size).slot d) (p d) fun _ => True) :
    MeetsE (sizeContract n size) (eachDrive p) fun _ => True :=
  (meetsE_eachDrive (Q := fun _ _ => True) hp).mono fun _ _ => trivial

theorem sized_any {α : Type} {p : Fin n → DriveProg Doc (Option α)}
    (hp : ∀ d, Meets ((sizeContract n size).slot d) (p d) fun _ => True) :
    MeetsE (sizeContract n size) (anyDrive p) fun _ => True :=
  (meetsE_anyDrive (Q := fun _ => True) fun d =>
    (hp d).mono fun _ _ _ _ => trivial).mono fun _ _ => trivial

theorem sized_outcome {α : Type} {p : EStore n α}
    (hp : MeetsE (sizeContract n size) p fun _ => True) :
    MeetsE (sizeContract n size) (outcome p) fun _ => True :=
  (meetsE_outcome hp).mono fun _ _ => trivial

theorem sized_op {d : Fin n} {o : DriveOp Doc} (ho : o.Sizes size) :
    Meets ((sizeContract n size).slot d) (Prog.op o) fun _ => True := ⟨ho, fun _ _ => trivial⟩

theorem sized_readDoc {d : Fin n} (rel : UnixPath) :
    Meets ((sizeContract n size).slot d) (Drive.readDoc rel) fun _ => True :=
  ⟨trivial, fun _ _ => trivial⟩

/-! ## Reading -/

theorem sized_readXl : MeetsE (sizeContract n size) (readXl bucket key) fun _ => True := by
  refine MeetsE.then (sized_any fun _ => Meets.then (sized_readDoc _) fun _ => trivial)
    fun hit => ?_
  split
  · exact meetsE_pure.2 trivial
  · exact meetsE_throw

theorem sized_metaStatAny (rel : UnixPath) :
    MeetsE (sizeContract n size) (metaStatAny rel) fun _ => True :=
  MeetsE.then (sized_any fun _ => sized_op trivial) fun _ => meetsE_pure.2 trivial

theorem sized_readHistory :
    MeetsE (sizeContract n size) (readHistory bucket key) fun _ => True :=
  MeetsE.then (sized_each fun _ => Meets.then (sized_readDoc _) fun _ => trivial) fun _ =>
    meetsE_pure.2 trivial

theorem sized_vmode : MeetsE (sizeContract n size) (vmode bucket) fun _ => True :=
  MeetsE.then (MeetsE.then
    (sized_each fun _ => Meets.then (sized_readDoc _) fun _ => trivial) fun _ =>
      meetsE_pure.2 trivial) fun _ => meetsE_pure.2 trivial

/-! ## Version bookkeeping -/

theorem sized_metaWriteAll {rel : UnixPath} {doc : Doc}
    (hdoc : (DriveOp.write rel (.doc doc)).Sizes size) :
    MeetsE (sizeContract n size) (metaWriteAll rel doc) fun _ => True := by
  refine MeetsE.then (sized_each fun d => ?_) fun ok => ?_
  · split
    · exact Meets.then (sized_op trivial) fun _ => sized_op hdoc
    · exact sized_op hdoc
  · split
    · exact meetsE_throw
    · exact meetsE_pure.2 trivial

theorem sized_writeHistory (h : VHistory) :
    MeetsE (sizeContract n size) (writeHistory bucket key h) fun _ => True :=
  sized_metaWriteAll trivial

theorem sized_seedLegacyHistory :
    MeetsE (sizeContract n size) (seedLegacyHistory bucket key) fun _ => True := by
  refine (sized_metaStatAny _).then fun has => ?_
  split
  · exact meetsE_pure.2 trivial
  · refine (sized_outcome sized_readXl).then fun r => ?_
    split
    · exact sized_writeHistory _
    · exact meetsE_pure.2 trivial

theorem sized_demoteCurrent (vid : Str) :
    MeetsE (sizeContract n size) (demoteCurrent bucket key vid) fun _ => True :=
  MeetsE.then (sized_each fun _ => Meets.then (sized_op trivial) fun _ =>
    Meets.then (sized_op trivial) fun _ => sized_op trivial) fun _ => meetsE_pure.2 trivial

theorem sized_discardCurrent :
    MeetsE (sizeContract n size) (discardCurrent bucket key) fun _ => True :=
  MeetsE.then (sized_each fun _ => Meets.then (sized_op trivial) fun _ => sized_op trivial)
    fun _ => meetsE_pure.2 trivial

theorem sized_removeArchive (vid : Str) :
    MeetsE (sizeContract n size) (removeArchive bucket key vid) fun _ => True :=
  MeetsE.then (sized_each fun _ => sized_op trivial) fun _ => meetsE_pure.2 trivial

theorem sized_purgeNull (mode : VMode) (hist : VHistory) :
    MeetsE (sizeContract n size) (purgeNull bucket key mode hist) fun _ => True := by
  unfold purgeNull
  dsimp only
  split
  · exact meetsE_pure.2 trivial
  · split
    · exact meetsE_pure.2 trivial
    · split
      · exact sized_discardCurrent.then fun _ => meetsE_pure.2 trivial
      · split
        · exact (sized_removeArchive _).then fun _ => meetsE_pure.2 trivial
        · exact meetsE_pure.2 trivial

theorem sized_makeRoom (mode : VMode) (hist : VHistory) :
    MeetsE (sizeContract n size) (makeRoom bucket key mode hist) fun _ => True := by
  refine (sized_purgeNull mode hist).then fun r => ?_
  obtain ⟨hist, occupied⟩ := r
  dsimp only
  split
  · exact (sized_demoteCurrent _).then fun _ => meetsE_pure.2 trivial
  · exact meetsE_pure.2 trivial

theorem sized_beginVersionedWrite (env : CallEnv) (mode : VMode) :
    MeetsE (sizeContract n size) (beginVersionedWrite env bucket key mode) fun _ => True :=
  sized_seedLegacyHistory.then fun _ => sized_readHistory.then fun hist =>
    (sized_makeRoom mode hist).then fun _ => meetsE_pure.2 trivial

/-! ## The write -/

theorem sized_writeBlocks (tmpRel : UnixPath) (blocks : List Bytes) :
    ∀ ok sums, MeetsE (sizeContract n size) (S.writeBlocks tmpRel blocks ok sums) fun _ =>
      True := by
  induction blocks with
  | nil => exact fun _ _ => meetsE_pure.2 trivial
  | cons block blocks ih =>
      intro ok sums
      rw [writeBlocks]
      split
      · exact meetsE_throw
      · refine MeetsE.then (sized_each fun d => ?_) fun ok' => ih ok' _
        split
        · exact sized_op trivial
        · trivial

theorem sized_publishShards (ok : Fin n → Bool) {xl : XlMeta} (hxl : xl.size = size)
    (audit : VersionAudit) :
    MeetsE (sizeContract n size) (S.publishShards bucket key ok xl audit) fun om =>
      om.size = size := by
  refine MeetsE.then (sized_each fun d => ?_) fun ok => MeetsE.then (sized_each fun d => ?_)
    fun ok => MeetsE.then (sized_each fun d => ?_) fun ok => ?_
  · split
    · exact sized_op trivial
    · trivial
  · split
    · exact sized_op trivial
    · trivial
  · split
    · exact sized_op hxl
    · trivial
  · split
    · exact MeetsE.then (sized_each fun _ => sized_op trivial) fun _ => meetsE_throw
    · exact meetsE_pure.2 hxl

/-- A write of encrypted bytes records the size computed from their length. -/
theorem sized_writeSharded (hblock : 0 < S.blockSize) (env : CallEnv) (bucket key : Str)
    {src : Body} (hsrc : src.err = false) (contentType : Str) (userMetadata : UserMeta) :
    MeetsE (sizeContract n (plaintextLen src.data.length S.crypto.headerLen))
      (S.writeSharded env bucket key src contentType userMetadata true none) fun om =>
      om.size = plaintextLen src.data.length S.crypto.headerLen := by
  have hbs : bodyBlocks S.blockSize src = ((bodyBlocks S.blockSize src).1, false) :=
    Prod.ext rfl (bodyBlocks_clean hblock hsrc)
  have hflat := (bodyBlocks_whole hblock hbs).2
  refine MeetsE.then (sized_each fun d => ?_) fun ok => ?_
  · refine Meets.then (sized_op trivial) fun ok => ?_
    split
    · exact sized_op trivial
    · trivial
  · rw [hbs]
    refine (sized_writeBlocks _ _ _ _).then fun r => ?_
    obtain ⟨ok, checksums⟩ := r
    refine sized_publishShards ok ?_ _
    show plaintextLen (bodyBlocks S.blockSize src).1.flatten.length _ = _
    rw [hflat]

/-- Whatever the drives answer, a put of encrypted bytes records the size computed from
their length. -/
theorem sized_putObject (hblock : 0 < S.blockSize) (env : CallEnv) (bucket key : Str)
    {body src : Body} (contentType : Str) (userMetadata : UserMeta) {encrypt : Bool}
    (henc : S.shouldEncrypt encrypt = true)
    (hsrc : S.crypto.encryptingReader env body = some src) :
    MeetsE (sizeContract n (plaintextLen src.data.length S.crypto.headerLen))
      (S.putObject env bucket key body contentType userMetadata encrypt) fun om =>
      om.size = plaintextLen src.data.length S.crypto.headerLen := by
  have hclean : src.err = false := by
    unfold Crypto.encryptingReader at hsrc
    split at hsrc
    · cases hsrc
    · cases hsrc
      rfl
  refine MeetsE.then ?_ fun _ => ?_
  · refine MeetsE.then (sized_any fun _ => Meets.then (sized_op trivial) fun _ => trivial)
      fun hit => ?_
    split
    · exact meetsE_pure.2 trivial
    · exact meetsE_throw
  refine MeetsE.then (meetsE_ofExcept.2 fun _ _ => trivial) fun _ => ?_
  refine meetsE_withLock trivial trivial ?_
  rw [henc]
  dsimp only
  unfold writeSource
  rw [if_pos rfl, hsrc]
  refine MeetsE.bind (R := fun s => s = src) (meetsE_pure.2 rfl) ?_
  rintro _ rfl
  refine sized_vmode.then fun mode => ?_
  split
  · exact sized_writeSharded hblock env bucket key hclean contentType userMetadata
  · refine (sized_beginVersionedWrite env mode).then fun r => ?_
    refine (sized_writeSharded hblock env bucket key hclean contentType userMetadata).bind
      fun om hom => ?_
    exact (sized_writeHistory _).then fun _ => meetsE_pure.2 hom

end

end ErasureStore

end Kerplace
