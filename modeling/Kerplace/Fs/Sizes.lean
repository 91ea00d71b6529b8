/-
# `Kerplace.Fs.Sizes` — the size a filesystem put records

The same for the filesystem store, and what the two say of puts that ask one key provider.
-/
import Kerplace.Crypto.Minting
import Kerplace.Erasure.Sizes
import Kerplace.Fs.Copies

namespace Kerplace

open Prog

namespace FsStore

/-- The object metadata an operation writes, if it does, has this size. -/
def Sizes (size : Nat) : DriveOp FsDoc → Prop
  | .write _ (.doc (.stored m)) => m.size = size
  | _ => True

/-- The contract of calls that write object metadata with one size only. -/
def sizeContract (size : Nat) : Contract (DriveOp FsDoc) DriveOp.Ans where
  may := Sizes size
  gives _ _ := True

variable {size : Nat} {S : FsStore} {bucket key : Str}

section

theorem sized_op {o : DriveOp FsDoc} (ho : Sizes size o) :
    Meets (sizeContract size) (Prog.op o) fun _ => True := ⟨ho, fun _ _ => trivial⟩

theorem sized_disk {α : Type} {p : DriveProg FsDoc α}
    (hp : Meets (sizeContract size) p fun _ => True) :
    MeetsE (sizeContract size) (onDisk p) fun _ => True := meetsE_lift.2 hp

theorem sized_orFail {e : S3Error} {p : DriveProg FsDoc Bool}
    (hp : Meets (sizeContract size) p fun _ => True) :
    MeetsE (sizeContract size) (orFail e p) fun _ => True := by
  refine (sized_disk hp).then fun ok => ?_
  split
  · exact meetsE_pure.2 trivial
  · exact meetsE_throw

theorem sized_mkParent (p : UnixPath) :
    Meets (sizeContract size) (mkParent p) fun _ => True := by
  unfold mkParent
  split
  · exact sized_op trivial
  · trivial

theorem sized_writeDoc {mkdirErr writeErr : S3Error} {p : UnixPath} {doc : FsDoc}
    (hdoc : Sizes size (.write p (.doc doc))) :
    MeetsE (sizeContract size) (writeDoc mkdirErr writeErr p doc) fun _ => True :=
  (sized_orFail (sized_mkParent p)).then fun _ => sized_orFail (sized_op hdoc)

theorem sized_readDoc (rel : UnixPath) :
    MeetsE (sizeContract size) (onDisk (Drive.readDoc rel)) fun _ => True :=
  sized_disk ⟨trivial, fun _ _ => trivial⟩

/-! ## Reading -/

theorem sized_headBucket : MeetsE (sizeContract size) (headBucket bucket) fun _ => True :=
  sized_orFail (Meets.then (sized_op trivial) fun _ => trivial)

theorem sized_versioningMode :
    MeetsE (sizeContract size) (versioningMode bucket) fun _ => True :=
  (sized_readDoc _).then fun _ => meetsE_pure.2 trivial

theorem sized_readStored :
    MeetsE (sizeContract size) (S.readStored bucket key) fun _ => True := by
  refine MeetsE.then (sized_disk (sized_op trivial)) fun payload => ?_
  split
  · exact meetsE_throw
  · refine (sized_readDoc _).then fun doc => ?_
    split
    · exact meetsE_pure.2 trivial
    · exact meetsE_pure.2 trivial

theorem sized_readHistory :
    MeetsE (sizeContract size) (readHistory bucket key) fun _ => True :=
  (sized_readDoc _).then fun _ => meetsE_pure.2 trivial

/-! ## Version bookkeeping -/

theorem sized_writeHistory (h : VersionHistory) :
    MeetsE (sizeContract size) (writeHistory bucket key h) fun _ => True :=
  sized_writeDoc trivial

theorem sized_seedLegacyHistory :
    MeetsE (sizeContract size) (S.seedLegacyHistory bucket key) fun _ => True := by
  refine MeetsE.then (sized_disk (Meets.then (sized_op trivial) fun _ => trivial)) fun has => ?_
  split
  · exact meetsE_pure.2 trivial
  · refine MeetsE.then (meetsE_lift.2 (Meets.mono sized_readStored fun _ _ => trivial))
      fun r => ?_
    split
    · exact sized_writeHistory _
    · exact meetsE_pure.2 trivial

theorem sized_demoteCanonical (vid : Str) :
    MeetsE (sizeContract size) (demoteCanonical bucket key vid) fun _ => True :=
  (sized_orFail (sized_mkParent _)).then fun _ =>
    MeetsE.then (sized_orFail (sized_op trivial)) fun _ =>
      MeetsE.then (sized_disk (sized_op trivial)) fun _ => meetsE_pure.2 trivial

theorem sized_discardCanonical :
    MeetsE (sizeContract size) (discardCanonical bucket key) fun _ => True :=
  MeetsE.then (sized_disk (sized_op trivial)) fun _ =>
    MeetsE.then (sized_disk (sized_op trivial)) fun _ => meetsE_pure.2 trivial

theorem sized_removeArchive (vid : Str) :
    MeetsE (sizeContract size) (removeArchive bucket key vid) fun _ => True :=
  MeetsE.then (sized_disk (sized_op trivial)) fun _ =>
    MeetsE.then (sized_disk (sized_op trivial)) fun _ => meetsE_pure.2 trivial

theorem sized_purgeNull (mode : VMode) (hist : VersionHistory) :
    MeetsE (sizeContract size) (purgeNull bucket key mode hist) fun _ => True := by
  unfold purgeNull
  dsimp only
  split
  · exact meetsE_pure.2 trivial
  · split
    · exact meetsE_pure.2 trivial
    · split
      · exact sized_discardCanonical.then fun _ => meetsE_pure.2 trivial
      · split
        · exact (sized_removeArchive _).then fun _ => meetsE_pure.2 trivial
        · exact meetsE_pure.2 trivial

theorem sized_makeRoom (mode : VMode) (hist : VersionHistory) :
    MeetsE (sizeContract size) (makeRoom bucket key mode hist) fun _ => True := by
  refine (sized_purgeNull mode hist).then fun r => ?_
  obtain ⟨hist, occupied⟩ := r
  dsimp only
  split
  · exact (sized_demoteCanonical _).then fun _ => meetsE_pure.2 trivial
  · exact meetsE_pure.2 trivial

theorem sized_beginWrite (env : CallEnv) (mode : VMode) :
    MeetsE (sizeContract size) (S.beginWrite env bucket key mode) fun _ => True := by
  unfold beginWrite
  split
  · exact meetsE_pure.2 trivial
  · refine MeetsE.then (MeetsE.then sized_seedLegacyHistory fun _ =>
      sized_readHistory.then fun hist => (sized_makeRoom mode hist).then fun _ =>
        meetsE_pure.2 trivial) fun r => meetsE_pure.2 trivial

theorem sized_finishWrite (pending : Option (Str × VersionHistory)) (etag : Str) (len : Nat)
    (lastModified : Int) :
    MeetsE (sizeContract size) (finishWrite bucket key pending etag len lastModified) fun _ =>
      True := by
  unfold finishWrite
  split
  · exact sized_writeHistory _
  · exact meetsE_pure.2 trivial

/-! ## The write -/

theorem sized_streamToTemp (env : CallEnv) (tmp : UnixPath) (body : Body) (needMd5 : Bool) :
    MeetsE (sizeContract size) (S.streamToTemp env tmp body needMd5) fun r =>
      r.2 = body.data.length :=
  MeetsE.then (sized_orFail (sized_op trivial)) fun _ =>
    MeetsE.then (sized_orFail (sized_op trivial)) fun _ =>
      MeetsE.then (sized_orFail trivial) fun _ =>
        MeetsE.then (sized_orFail (sized_op trivial)) fun _ => meetsE_pure.2 rfl

theorem sized_install (env : CallEnv) (tmp : UnixPath) (etag : Str) (contentType : Str)
    (userMetadata : UserMeta) (encrypted : Bool) :
    MeetsE (sizeContract size) (S.install env bucket key tmp etag size contentType userMetadata
      encrypted (pure ())) fun om => om.size = size :=
  sized_versioningMode.then fun mode => (sized_beginWrite env mode).then fun _ =>
    MeetsE.then ((sized_orFail (sized_mkParent _)).then fun _ =>
      sized_orFail (sized_op trivial)) fun _ =>
      MeetsE.then (sized_writeDoc rfl) fun _ => MeetsE.then (sized_disk trivial) fun _ =>
        (sized_finishWrite _ _ _ _).then fun _ => meetsE_pure.2 rfl

/-- Whatever the drive answers, a put of encrypted bytes records the size computed from
their length. -/
theorem sized_putObject (env : FsEnv) (bucket key : Str) {body src : Body} (contentType : Str)
    (userMetadata : UserMeta) {encrypt : Bool} (henc : S.shouldEncrypt encrypt = true)
    (hsrc : S.crypto.encryptingReader env.toCallEnv body = some src) :
    MeetsE (sizeContract (plaintextLen src.data.length S.crypto.headerLen))
      (S.putObject env bucket key body contentType userMetadata encrypt) fun om =>
      om.size = plaintextLen src.data.length S.crypto.headerLen := by
  refine sized_headBucket.then fun _ => ?_
  refine MeetsE.then (meetsE_ofExcept.2 fun _ _ => trivial) fun _ => ?_
  rw [henc]
  dsimp only
  unfold writeSource
  rw [if_pos rfl, hsrc]
  refine MeetsE.bind (R := fun s => s = src) (meetsE_pure.2 rfl) ?_
  rintro _ rfl
  refine (sized_streamToTemp _ _ _ _).bind fun r hr => ?_
  obtain ⟨etag, stored⟩ := r
  obtain rfl : stored = _ := hr
  exact sized_install _ _ _ _ _ _

end

end FsStore

/-! ## Puts that ask one provider -/

/-- Whatever the drives answer, put `i` records this size on the sharded store. -/
def ErasureStore.RecordsSize {n : Nat} (S : ErasureStore n) (K : Minting) (i : Nat)
    (put : EncryptedPut) (size : Nat) : Prop :=
  ∀ bucket key contentType userMetadata encrypt, S.shouldEncrypt encrypt = true →
    MeetsE (sizeContract n size) (({ S with crypto := K.seenBy S.crypto i } :
      ErasureStore n).putObject put.env bucket key put.body contentType userMetadata encrypt)
      fun om => om.size = size

/-- Whatever the drive answers, put `i` records this size on the filesystem store. -/
def FsStore.RecordsSize (F : FsStore) (K : Minting) (i : Nat) (put : EncryptedPut)
    (size : Nat) : Prop :=
  ∀ (env : FsEnv) bucket key contentType userMetadata encrypt, env.toCallEnv = put.env →
    F.shouldEncrypt encrypt = true →
    MeetsE (FsStore.sizeContract size) (({ F with crypto := K.seenBy F.crypto i } :
      FsStore).putObject env bucket key put.body contentType userMetadata encrypt)
      fun om => om.size = size

/-- In every run of encrypted puts that ask one provider, each put records the size computed
from its container and the length it asked for, and these sizes are the lengths of the
plaintexts just when each survives the length that was then the provider's. -/
theorem recorded_sizes_iff {n : Nat} (S : ErasureStore n) (F : FsStore)
    (hblock : 0 < S.blockSize)
    (hS : ∀ k m p, (S.crypto.sealWith k m p).length = p.length + TAG_LEN)
    (hF : ∀ k m p, (F.crypto.sealWith k m p).length = p.length + TAG_LEN)
    (put : Nat → EncryptedPut) (len : Nat) (calls : List ProviderCall) :
    (∀ i size, (mintingMachine.final (.start len) calls).recordedSize S.crypto i (put i) =
      some size → S.RecordsSize (mintingMachine.final (.start len) calls) i (put i) size) ∧
    (∀ i size, (mintingMachine.final (.start len) calls).recordedSize F.crypto i (put i) =
      some size → F.RecordsSize (mintingMachine.final (.start len) calls) i (put i) size) ∧
    ((mintingMachine.final (.start len) calls).SizesRight S.crypto put ↔
      ∀ v ∈ mintingMachine.visits (.start len) calls, Minting.Survives put v) ∧
    ((mintingMachine.final (.start len) calls).SizesRight F.crypto put ↔
      ∀ v ∈ mintingMachine.visits (.start len) calls, Minting.Survives put v) := by
  refine ⟨fun i size h => ?_, fun i size h => ?_, Minting.sizes_right_iff hS put len calls,
    Minting.sizes_right_iff hF put len calls⟩
  · obtain ⟨src, hsrc, rfl⟩ := Minting.exists_of_recordedSize h
    exact fun bucket key contentType userMetadata encrypt henc =>
      ErasureStore.sized_putObject (S := { S with
        crypto := (mintingMachine.final (.start len) calls).seenBy S.crypto i }) hblock _ bucket
        key contentType userMetadata henc hsrc
  · obtain ⟨src, hsrc, rfl⟩ := Minting.exists_of_recordedSize h
    rintro env bucket key contentType userMetadata encrypt henv henc
    exact FsStore.sized_putObject (S := { F with
      crypto := (mintingMachine.final (.start len) calls).seenBy F.crypto i }) env bucket key
      contentType userMetadata henc (henv ▸ hsrc)

/-- A put of one byte. -/
def oneByte : EncryptedPut := ⟨callAt 'a' 1 isHexLower_a, .ofBytes [7]⟩

/-- A key of 94 bytes is minted, then, after a rotation, one of 95, and then both puts ask
for the length. -/
def rotation : List ProviderCall :=
  [.newWrappedDek 0 (some ([1], ⟨2, List.replicate 94 0⟩)),
    .newWrappedDek 1 (some ([2], ⟨2, List.replicate 95 0⟩)), .wrappedDekLen 0, .wrappedDekLen 1]

theorem recorded_sizes_rotation :
    (∀ i size, (mintingMachine.final (.start 0) rotation).recordedSize
      ErasureStore.trio.crypto i oneByte = some size → ErasureStore.trio.RecordsSize
        (mintingMachine.final (.start 0) rotation) i oneByte size) ∧
    (∀ i size, (mintingMachine.final (.start 0) rotation).recordedSize
      FsStore.plainStore.crypto i oneByte = some size → FsStore.plainStore.RecordsSize
        (mintingMachine.final (.start 0) rotation) i oneByte size) ∧
    ((mintingMachine.final (.start 0) rotation).SizesRight ErasureStore.trio.crypto
        (fun _ => oneByte) ↔
      ∀ v ∈ mintingMachine.visits (.start 0) rotation, Minting.Survives (fun _ => oneByte) v) ∧
    ((mintingMachine.final (.start 0) rotation).SizesRight FsStore.plainStore.crypto
        (fun _ => oneByte) ↔
      ∀ v ∈ mintingMachine.visits (.start 0) rotation,
        Minting.Survives (fun _ => oneByte) v) :=
  recorded_sizes_iff ErasureStore.trio FsStore.plainStore (by decide)
    Crypto.tagged_lawful.seal_length Crypto.tagged_lawful.seal_length (fun _ => oneByte) 0 rotation

/-- The put under way across the rotation records no bytes. -/
theorem recorded_sizes_wrong :
    ¬ (mintingMachine.final (.start 0) rotation).SizesRight ErasureStore.trio.crypto
        (fun _ => oneByte) ∧
    ¬ (mintingMachine.final (.start 0) rotation).SizesRight FsStore.plainStore.crypto
        (fun _ => oneByte) := by
  have hsize : (mintingMachine.final (.start 0) rotation).recordedSize Crypto.tagged 0 oneByte =
      some 0 := by decide +kernel
  exact ⟨fun h => absurd (h 0 0 hsize) (by decide), fun h => absurd (h 0 0 hsize) (by decide)⟩

end Kerplace
