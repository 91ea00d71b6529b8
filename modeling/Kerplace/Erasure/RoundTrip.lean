/-
# `Kerplace.Erasure.RoundTrip` — what is laid out is read back

Nothing is assumed here about the drives a sharded write meets: whatever stood
in its way, the drives it still counts at the end hold the shard file and the
metadata.  From there any damage that leaves, of each block, enough of their
shards is undone by the reader, which knows the metadata alone.
-/
import Kerplace.Erasure.Read
import Kerplace.Erasure.Replicated

namespace Kerplace

open FileTree

namespace ErasureStore

variable {n : Nat} {S : ErasureStore n} {site : Site n} {s s' : Cluster n Doc}
  {bucket key : Str} {d : Fin n}

/-! ## One drive -/

theorem onTree_done {p : DriveProg Doc Bool} {t : Tree Doc} {r : Option (Tree Doc)}
    (hexec : p.exec (LocalDrive.step (site.root d)) t = LocalDrive.attempt t r)
    (hdown : (p.exec (LocalDrive.stepIf (site.root d) false) t).1 = false)
    (h : (site.onTree d p t).1 = true) : ∃ t', r = some t' ∧ (site.onTree d p t).2 = t' := by
  cases hd : site.up d with
  | false =>
      rw [Site.onTree, hd, hdown] at h
      cases h
  | true =>
      rw [Site.onTree_up hd, hexec] at h ⊢
      obtain ⟨t', ht⟩ := Option.isSome_iff_exists.1 h
      exact ⟨t', ht, by rw [LocalDrive.attempt_some ht]⟩

theorem onTree_bind {α β : Type} (p : DriveProg Doc α) (f : α → DriveProg Doc β)
    (t : Tree Doc) :
    site.onTree d (p >>= f) t = site.onTree d (f (site.onTree d p t).1) (site.onTree d p t).2 :=
  Prog.exec_bind p f t

theorem onTree_if {c : Bool} {p : DriveProg Doc Bool} {t : Tree Doc}
    (h : (site.onTree d (if c then p else pure false) t).1 = true) :
    c = true ∧ (site.onTree d p t).1 = true ∧
      site.onTree d (if c then p else pure false) t = site.onTree d p t := by
  cases c with
  | false => cases h
  | true => exact ⟨rfl, h, rfl⟩

theorem onTree_shutdown (rel : UnixPath) (t : Tree Doc) :
    (site.onTree d (Drive.shutdown rel) t).2 = t := by
  cases hd : site.up d with
  | false => exact Site.onTree_down_snd hd _ t
  | true => rw [Site.onTree_up hd, LocalDrive.exec_shutdown]

theorem resolve_file {f : Str} (hf : UnixPath.Atom f) :
    ((rObject bucket key).joinStr f).resolve (site.root d) = site.objDir bucket key d ++ [f] :=
  Site.resolve_objFile hf

theorem file?_of_write {t t' : Tree Doc} {p : List Str} {c : Content Doc}
    (h : t.write p c = some t') : t'.file? p = some c := by
  rw [file?_eq_some, look_write h, if_pos rfl]

theorem file?_write_of_ne {t t' : Tree Doc} {p q : List Str} {c : Content Doc}
    (h : t.write p c = some t') (hne : q ≠ p) : t'.file? q = t.file? q :=
  file?_congr (by rw [look_write h, if_neg hne])

/-- A drive that was prepared has an empty temporary file. -/
theorem onTree_prepared {t : Tree Doc}
    (h : (site.onTree d (do
      if ← Drive.createDirAll (rObject bucket key) then
        Drive.create ((rObject bucket key).joinStr PART_TMP)
      else pure false) t).1 = true) :
    (site.onTree d (do
      if ← Drive.createDirAll (rObject bucket key) then
        Drive.create ((rObject bucket key).joinStr PART_TMP)
      else pure false) t).2.file? (site.objDir bucket key d ++ [PART_TMP]) =
      some (.raw []) := by
  rw [onTree_bind] at h ⊢
  obtain ⟨-, hcreated, hsame⟩ := onTree_if h
  obtain ⟨t', ht, heq⟩ := onTree_done rfl rfl hcreated
  rw [hsame, heq]
  rw [resolve_file atom_partTmp] at ht
  exact file?_of_write ht

theorem onTree_appended {t : Tree Doc} {acc data : Bytes}
    (hfile : t.file? (site.objDir bucket key d ++ [PART_TMP]) = some (.raw acc))
    (h : (site.onTree d (Drive.append ((rObject bucket key).joinStr PART_TMP) data) t).1 =
      true) :
    (site.onTree d (Drive.append ((rObject bucket key).joinStr PART_TMP) data) t).2.file?
      (site.objDir bucket key d ++ [PART_TMP]) = some (.raw (acc ++ data)) := by
  obtain ⟨t', ht, heq⟩ := onTree_done rfl rfl h
  rw [resolve_file atom_partTmp, update, hfile] at ht
  rw [heq]
  exact file?_of_write ht

theorem onTree_renamed {t : Tree Doc} {part : Bytes}
    (hfile : t.file? (site.objDir bucket key d ++ [PART_TMP]) = some (.raw part))
    (h : (site.onTree d (Drive.rename ((rObject bucket key).joinStr PART_TMP)
      ((rObject bucket key).joinStr PART)) t).1 = true) :
    (site.onTree d (Drive.rename ((rObject bucket key).joinStr PART_TMP)
      ((rObject bucket key).joinStr PART)) t).2.file?
      (site.objDir bucket key d ++ [PART]) = some (.raw part) := by
  obtain ⟨t', ht, heq⟩ := onTree_done rfl rfl h
  rw [resolve_file atom_partTmp, resolve_file atom_part] at ht
  have hne : site.objDir bucket key d ++ [PART_TMP] ≠ site.objDir bucket key d ++ [PART] := by
    simp only [ne_eq, List.append_cancel_left_eq]
    decide
  rw [heq, file?_eq_some, look_rename hne ht, if_pos (List.prefix_refl _), List.drop_length,
    List.append_nil]
  exact file?_eq_some.1 hfile

/-- A drive the metadata was written to has it, beside its shard file. -/
theorem onTree_described {t : Tree Doc} {part : Bytes} {xl : XlMeta}
    (hfile : t.file? (site.objDir bucket key d ++ [PART]) = some (.raw part))
    (h : (site.onTree d (Drive.write ((rObject bucket key).joinStr XL_META) (.doc (.xl xl)))
      t).1 = true) :
    let t' := (site.onTree d (Drive.write ((rObject bucket key).joinStr XL_META)
      (.doc (.xl xl))) t).2
    t'.file? (site.objDir bucket key d ++ [PART]) = some (.raw part) ∧
      t'.file? (site.objDir bucket key d ++ [XL_META]) = some (.doc (.xl xl)) := by
  intro t'
  obtain ⟨t₁, ht, heq⟩ := onTree_done rfl rfl h
  have hne : site.objDir bucket key d ++ [PART] ≠ site.objDir bucket key d ++ [XL_META] := by
    simp only [ne_eq, List.append_cancel_left_eq]
    decide
  rw [resolve_file atom_xlMeta] at ht
  rw [show t' = t₁ from heq]
  exact ⟨(file?_write_of_ne ht hne).trans hfile, file?_of_write ht⟩

/-! ## All drives -/

/-- The block loop, on whatever drives it is still writing to. -/
theorem run_writeBlocks_ok (hS : S.codec.Lawful) :
    ∀ (blocks : List Bytes) (s : Cluster n Doc) (ok : Fin n → Bool) (acc : Fin n → Bytes)
      (sums : Fin n → List Str),
      (∀ d, ok d = true → (s d).file? (site.objDir bucket key d ++ [PART_TMP]) =
        some (.raw (acc d))) →
      ∃ ok' s', site.run (S.writeBlocks ((rObject bucket key).joinStr PART_TMP) blocks ok
          sums) s = (.ok (ok', fun d => sums d ++ S.sumsOf d blocks), s') ∧
        ∀ d, ok' d = true → (s' d).file? (site.objDir bucket key d ++ [PART_TMP]) =
          some (.raw (acc d ++ S.partOf d blocks)) := by
  intro blocks
  induction blocks with
  | nil =>
      intro s ok acc sums h
      refine ⟨ok, s, ?_, fun d hd => ?_⟩
      · simp [writeBlocks, sumsOf]
      · rw [h d hd]
        simp [partOf]
  | cons block blocks ih =>
      intro s ok acc sums h
      have hstep : ∀ d, (site.onTree d (if ok d then
            Drive.append ((rObject bucket key).joinStr PART_TMP)
              ((S.shards block).getD d.val []) else pure false) (s d)).1 = true →
          (site.onTree d (if ok d then
            Drive.append ((rObject bucket key).joinStr PART_TMP)
              ((S.shards block).getD d.val []) else pure false) (s d)).2.file?
            (site.objDir bucket key d ++ [PART_TMP]) =
            some (.raw (acc d ++ S.shard d block)) := by
        intro d hd
        obtain ⟨hok, happ, hsame⟩ := onTree_if hd
        rw [hsame]
        exact onTree_appended (h d hok) happ
      obtain ⟨ok', s', hrun, hfile⟩ := ih _ _ (fun d => acc d ++ S.shard d block)
        (fun d => sums d ++ [S.checksum (S.shard d block)]) hstep
      refine ⟨ok', s', ?_, fun d hd => ?_⟩
      · rw [writeBlocks, encodeBlock_shards hS]
        simp only [Site.run_bind, Site.run_eachDrive, Prog.andThen_ok]
        refine hrun.trans ?_
        simp [sumsOf, shard]
      · rw [hfile d hd, partOf_cons, List.append_assoc]

/-- A sharded write that returned an object has its shard file and its metadata on
more than `K` drives. -/
structure Laid (S : ErasureStore n) (site : Site n) (bucket key : Str) (blocks : List Bytes)
    (xl : XlMeta) (took : Fin n → Bool) (s : Cluster n Doc) : Prop where
  quorum : S.codec.data < tally took
  part : ∀ d, took d = true →
    (s d).file? (site.objDir bucket key d ++ [PART]) = some (.raw (S.partOf d blocks))
  xl : ∀ d, took d = true →
    (s d).file? (site.objDir bucket key d ++ [XL_META]) = some (.doc (.xl xl))

/-- Publishing, on whatever drives have the whole temporary file. -/
theorem run_publishShards_ok {part : Fin n → Bytes} {ok : Fin n → Bool} {xl : XlMeta}
    {audit : VersionAudit} {m : ObjectMeta}
    (hfile : ∀ d, ok d = true →
      (s d).file? (site.objDir bucket key d ++ [PART_TMP]) = some (.raw (part d)))
    (hrun : site.run (S.publishShards bucket key ok xl audit) s = (.ok m, s')) :
    ∃ took, S.codec.data < tally took ∧ ∀ d, took d = true →
      (s' d).file? (site.objDir bucket key d ++ [PART]) = some (.raw (part d)) ∧
        (s' d).file? (site.objDir bucket key d ++ [XL_META]) = some (.doc (.xl xl)) := by
  unfold publishShards at hrun
  simp only [Site.run_bind, Site.run_eachDrive, Prog.andThen_ok] at hrun
  split at hrun
  · simp only [Site.run_bind, Site.run_eachDrive, Prog.andThen_ok, Site.run_throw] at hrun
    cases hrun
  · rename_i hq
    cases hrun
    refine ⟨_, Nat.lt_of_succ_le (Nat.not_lt.1 hq), fun d hd => ?_⟩
    obtain ⟨hrenamed, hwrote, hsame₃⟩ := onTree_if hd
    obtain ⟨hshut, hmoved, hsame₂⟩ := onTree_if hrenamed
    obtain ⟨hok, -, hsame₁⟩ := onTree_if hshut
    beta_reduce
    rw [hsame₃]
    refine onTree_described ?_ hwrote
    rw [hsame₂]
    refine onTree_renamed ?_ hmoved
    rw [hsame₁, onTree_shutdown]
    exact hfile d hok

/-- Whatever drives a sharded write met, one that returned an object laid it out. -/
theorem run_writeSharded_ok (hS : S.codec.Lawful) {env : CallEnv} {src : Body}
    {contentType : Str} {userMetadata : UserMeta} {encrypted : Bool}
    {etagOverride : Option Str} {m : ObjectMeta}
    (hrun : site.run (S.writeSharded env bucket key src contentType userMetadata encrypted
      etagOverride) s = (.ok m, s')) :
    (bodyBlocks S.blockSize src).2 = false ∧ ∃ took,
      Laid S site bucket key (bodyBlocks S.blockSize src).1
        (S.xlFor env (bodyBlocks S.blockSize src).1 contentType userMetadata encrypted
          etagOverride) took s' := by
  unfold writeSharded at hrun
  simp only [Site.run_bind, Site.run_eachDrive, Prog.andThen_ok] at hrun
  have hprep : ∀ d, (site.onTree d (do
        if ← Drive.createDirAll (rObject bucket key) then
          Drive.create ((rObject bucket key).joinStr PART_TMP)
        else pure false) (s d)).1 = true →
      (site.onTree d (do
        if ← Drive.createDirAll (rObject bucket key) then
          Drive.create ((rObject bucket key).joinStr PART_TMP)
        else pure false) (s d)).2.file? (site.objDir bucket key d ++ [PART_TMP]) =
        some (.raw []) := fun d hd => onTree_prepared hd
  obtain ⟨ok', s₂, hblocks, hfile⟩ := run_writeBlocks_ok hS (bodyBlocks S.blockSize src).1 _ _
    (fun _ => []) (fun _ => []) hprep
  rw [hblocks] at hrun
  simp only [List.nil_append, Prog.andThen_ok] at hrun hfile
  cases hbroken : (bodyBlocks S.blockSize src).2 with
  | true =>
      rw [hbroken] at hrun
      cases hrun
  | false =>
      rw [hbroken] at hrun
      obtain ⟨took, hquorum, hboth⟩ := run_publishShards_ok hfile hrun
      exact ⟨rfl, took, hquorum, fun d hd => (hboth d hd).1, fun d hd => (hboth d hd).2⟩

/-! ## Reading it back -/

/-- Where the layout says block `i`'s shard is, the shard file has it. -/
theorem sliceAt_partOf (hS : S.codec.Lawful) {blocks : List Bytes} {i : Nat} {b : Bytes}
    (hb : blocks[i]? = some b) (d : Fin n) :
    sliceAt (S.partOf d blocks) (S.offsetOf blocks i) (S.codec.shardLen b.length) =
      some (S.shard d b) := by
  have hslice : ((S.partOf d blocks).drop (S.offsetOf blocks i)).take
      (S.codec.shardLen b.length) = S.shard d b := by
    have hget : (blocks.map (S.shard d))[i]? = some (S.shard d b) := by
      rw [List.getElem?_map, hb, Option.map_some]
    have hoff : ((blocks.map (S.shard d)).take i).map List.length =
        (blocks.take i).map fun b => S.codec.shardLen b.length := by
      rw [← List.map_take, List.map_map]
      exact List.map_congr_left fun c _ => length_shard hS d c
    have htake := take_drop_flatten hget
    rw [hoff, length_shard hS] at htake
    exact htake
  have hlen := congrArg List.length hslice
  rw [List.length_take, List.length_drop, length_shard hS] at hlen
  have hpos := S.codec.shardLen_pos b.length
  rw [sliceAt, if_pos (by omega), hslice]

/-- Of block `i`, drive `d` can be reached and has what the writer left there. -/
def Intact (S : ErasureStore n) (site : Site n) (written s : Cluster n Doc) (rel : UnixPath)
    (blocks : List Bytes) (i : Nat) (d : Fin n) : Prop :=
  site.up d = true ∧
    shardAt (s d) ((rel.joinStr PART).resolve (site.root d)) (S.offsetOf blocks i)
      (S.codec.shardLen (blocks.getD i []).length) =
    shardAt (written d) ((rel.joinStr PART).resolve (site.root d)) (S.offsetOf blocks i)
      (S.codec.shardLen (blocks.getD i []).length)

instance (S : ErasureStore n) (site : Site n) (written s : Cluster n Doc) (rel : UnixPath)
    (blocks : List Bytes) (i : Nat) (d : Fin n) :
    Decidable (Intact S site written s rel blocks i d) := inferInstanceAs (Decidable (_ ∧ _))

/-- At least `K` of the drives that took the write still have each block's shard. -/
def EnoughLeft (S : ErasureStore n) (site : Site n) (took : Fin n → Bool)
    (written s : Cluster n Doc) (rel : UnixPath) (blocks : List Bytes) : Prop :=
  ∀ i, i < blocks.length → S.codec.data ≤ (List.finRange n).countP fun d =>
    took d && decide (Intact S site written s rel blocks i d)

theorem Laid.holdsShard (hS : S.codec.Lawful) {blocks : List Bytes} {xl : XlMeta}
    {took : Fin n → Bool} {written : Cluster n Doc}
    (h : Laid S site bucket key blocks xl took written) {up : Fin n → Bool} {i : Nat}
    (hi : i < blocks.length) (htook : took d = true)
    (hleft : Intact S ⟨site.root, up⟩ written s (rObject bucket key) blocks i d) :
    HoldsShard S ⟨site.root, up⟩ s (rObject bucket key) blocks i d := by
  refine ⟨hleft.1, hleft.2.trans ?_⟩
  have hgetD : blocks.getD i [] = blocks[i] := by
    simp [List.getD_eq_getElem?_getD, hi]
  have hpart : (written d).file?
      (((rObject bucket key).joinStr PART).resolve (site.root d)) =
      some (.raw (S.partOf d blocks)) := by
    rw [resolve_file atom_part]
    exact h.part d htook
  rw [shardAt, hpart, hgetD]
  exact sliceAt_partOf hS (List.getElem?_eq_getElem hi) d

theorem Laid.holders (hS : S.codec.Lawful) {blocks : List Bytes} {xl : XlMeta}
    {took : Fin n → Bool} {written : Cluster n Doc}
    (h : Laid S site bucket key blocks xl took written) {up : Fin n → Bool}
    (hleft : EnoughLeft S ⟨site.root, up⟩ took written s (rObject bucket key) blocks)
    {i : Nat} (hi : i < blocks.length) :
    S.codec.data ≤ holders S ⟨site.root, up⟩ s (rObject bucket key) blocks i := by
  refine (hleft i hi).trans (List.countP_mono_left fun d _ hd => ?_)
  rw [Bool.and_eq_true, decide_eq_true_eq] at hd
  exact decide_eq_true (h.holdsShard hS hi hd.1 hd.2)

/-- The blocks a payload is cut into. -/
def blocksOf (S : ErasureStore n) (payload : Bytes) : List Bytes :=
  (bodyBlocks S.blockSize (.ofBytes payload)).1

end ErasureStore

end Kerplace
