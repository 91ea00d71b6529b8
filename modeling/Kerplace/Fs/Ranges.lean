/-
# `Kerplace.Fs.Ranges` — range reads against full reads

The sharded store streams the whole object and discards what comes before the range; the
filesystem store seeks, and of a container it opens only the chunks the range touches.
Both compute the range from the recorded size.
-/
import Kerplace.Crypto.Ranges
import Kerplace.Fs.Sizes

namespace Kerplace

open Prog FileTree

/-- `get_object_range`, the body read to its end. -/
def ErasureStore.getObjectRange {n : Nat} (S : ErasureStore n) (bucket key : Str) (start : Nat)
    (end? : Option Nat) : EStore n (ObjectMeta × Nat × Bytes) := do
  let (m, body) ← S.getObject bucket key
  let r := byteRange m.size start end?
  let rest := body.drop r.start
  if rest.length < r.len then throw (.internal "range read")
  else pure (m, r.len, rest.take r.len)

namespace FsStore

variable {S : FsStore} {root : List Str} {bucket key : Str} {t : Tree FsDoc}
  {m : StoredMeta} {raw plain : Bytes}

/-- `get_object_range`, the body read to its end. -/
def getObjectRange (S : FsStore) (bucket key : Str) (start : Nat) (end? : Option Nat) :
    FStore (ObjectMeta × Nat × Bytes) := do
  let m ← S.readStored bucket key
  let r := byteRange m.size start end?
  match ← onDisk (Drive.read (objectPath bucket key)) with
  | none => throw .noSuchKey
  | some c =>
      let raw := c.bytes?.getD []
      if m.encrypted then
        match ← onDisk (Drive.read (objectPath bucket key)) with
        | none => throw (.internal "metadata")
        | some file => do
            let body ← MonadExcept.ofExcept (S.crypto.readRange raw (S.fileLen file) r)
            pure (storedToMeta key m, r.len, body)
      else pure (storedToMeta key m, r.len, (raw.drop r.start).take r.len)

theorem result_getObjectRange (hm : storedIn S root bucket key t = .ok m)
    (hraw : t.file? ((objectPath bucket key).resolve root) = some (.raw raw)) (start : Nat)
    (end? : Option Nat) :
    result root (S.getObjectRange bucket key start end?) t =
      let r := byteRange m.size start end?
      ((if m.encrypted then S.crypto.readRange raw raw.length r
        else .ok ((raw.drop r.start).take r.len)).map fun body =>
          (storedToMeta key m, r.len, body)) := by
  unfold result getObjectRange
  rw [runE_bind, run_readStored, hm, andThen_ok]
  dsimp only
  rw [runE_bind, run_onDisk, LocalDrive.exec_read, andThen_ok, hraw]
  dsimp only
  cases m.encrypted with
  | false => rfl
  | true =>
      simp only [if_true]
      rw [runE_bind, run_onDisk, LocalDrive.exec_read, andThen_ok, hraw]
      dsimp only [Content.bytes?, Option.getD_some, fileLen]
      cases S.crypto.readRange raw raw.length (byteRange m.size start end?) <;> rfl

/-- The payload of a stored object, as a write leaves it: the plaintext or a container of
it. -/
def Holds (S : FsStore) (encrypted : Bool) (raw plain : Bytes) : Prop :=
  if encrypted then S.crypto.Contains raw plain else raw = plain

end FsStore

/-- Range reads agree with a full read: a range that starts in the body is answered with
its slice, and with the length of that. -/
def RangesAgree (full : Except S3Error (ObjectMeta × Bytes))
    (range : Nat → Option Nat → Except S3Error (ObjectMeta × Nat × Bytes)) : Prop :=
  ∀ m plain, full = .ok (m, plain) → ∀ start < plain.length, ∀ end? : Option Nat,
    (∀ e, end? = some e → start ≤ e) →
    range start end? = .ok (m, (sliceOf plain start end?).length, sliceOf plain start end?)

/-- It is enough that the range computed from a size is read, and the size the body's. -/
theorem rangesAgree_iff {m : ObjectMeta} {plain : Bytes}
    {range : Nat → Option Nat → Except S3Error (ObjectMeta × Nat × Bytes)}
    (hlen : ∀ start end? m' len body, range start end? = .ok (m', len, body) →
      len = (byteRange m.size start end?).len)
    (hread : m.size = plain.length → ∀ start last len, ∀ end?, start ≤ last →
      last < plain.length → len = last - start + 1 →
      byteRange plain.length start end? = ⟨start, last, len⟩ →
      range start end? = .ok (m, len, (plain.drop start).take len)) :
    RangesAgree (.ok (m, plain)) range ↔ plain = [] ∨ m.size = plain.length := by
  constructor
  · intro h
    by_cases hnil : plain = []
    · exact .inl hnil
    · have hwhole := h m plain rfl 0 (List.length_pos_iff.2 hnil) none (fun e he => nomatch he)
      have hsize := hlen 0 none _ _ _ hwhole
      rw [byteRange_whole] at hsize
      exact .inr hsize.symm
  · rintro h m' plain' heq start hstart end? hend
    cases heq
    have hsize : m.size = plain.length := h.resolve_left fun hnil => by simp [hnil] at hstart
    obtain ⟨last, hle, hlast, hrange, hslice⟩ := byteRange_inside hstart hend
    rw [hread hsize start last _ end? hle hlast rfl hrange, hslice]
    have hslen : (sliceOf plain start end?).length = last - start + 1 := by
      rw [← hslice, List.length_take, List.length_drop]
      omega
    rw [hslen]

theorem ErasureStore.run_getObjectRange {n : Nat} {S : ErasureStore n} {site : Site n}
    {s : Cluster n Doc} {bucket key : Str} {m : ObjectMeta} {plain : Bytes}
    (hget : (site.run (S.getObject bucket key) s).1 = .ok (m, plain)) (start : Nat)
    (end? : Option Nat) :
    (site.run (S.getObjectRange bucket key start end?) s).1 =
      let r := byteRange m.size start end?
      if (plain.drop r.start).length < r.len then .error (.internal "range read")
      else .ok (m, r.len, (plain.drop r.start).take r.len) := by
  obtain ⟨s', hs'⟩ : ∃ s', site.run (S.getObject bucket key) s = (.ok (m, plain), s') :=
    ⟨_, Prod.ext hget rfl⟩
  rw [getObjectRange, Site.run_bind, hs', andThen_ok]
  dsimp only
  split <;> rfl

/-- The sharded store's range reads of an object agree with its full read exactly when the
object is empty or its recorded size is the length of its body. -/
theorem ErasureStore.rangesAgree_iff {n : Nat} {S : ErasureStore n} {site : Site n}
    {s : Cluster n Doc} {bucket key : Str} {m : ObjectMeta} {plain : Bytes}
    (hget : (site.run (S.getObject bucket key) s).1 = .ok (m, plain)) :
    RangesAgree (site.run (S.getObject bucket key) s).1
        (fun start end? => (site.run (S.getObjectRange bucket key start end?) s).1) ↔
      plain = [] ∨ m.size = plain.length := by
  have hrun := ErasureStore.run_getObjectRange hget
  rw [hget]
  refine Kerplace.rangesAgree_iff (fun start end? m' len body h => ?_)
    fun hsize start last len end? hle hlast hlen hrange => ?_
  · rw [hrun] at h
    dsimp only at h
    split at h
    · cases h
    · cases h
      rfl
  · rw [hrun, hsize, hrange]
    dsimp only
    rw [if_neg (by rw [List.length_drop]; omega)]

/-- The same of the filesystem store, for a payload as a write leaves it. -/
theorem FsStore.rangesAgree_iff {S : FsStore}
    (hopen : ∀ k n p, S.crypto.openWith k n (S.crypto.sealWith k n p) = some p)
    (hseal : ∀ k n p, (S.crypto.sealWith k n p).length = p.length + TAG_LEN)
    {root : List Str} {bucket key : Str} {t : Tree FsDoc} {m : StoredMeta}
    {raw plain : Bytes} (hm : storedIn S root bucket key t = .ok m)
    (hraw : t.file? ((objectPath bucket key).resolve root) = some (.raw raw))
    (hholds : S.Holds m.encrypted raw plain) :
    result root (S.getObject bucket key) t = .ok (storedToMeta key m, plain) ∧
    (RangesAgree (result root (S.getObject bucket key) t)
        (fun start end? => result root (S.getObjectRange bucket key start end?) t) ↔
      plain = [] ∨ m.size = plain.length) := by
  have hplain : S.plainBytes m.encrypted raw = some plain := by
    unfold Holds at hholds
    unfold plainBytes
    split at hholds
    · rename_i henc
      rw [if_pos henc]
      exact hholds.decrypting hopen hseal
    · rename_i henc
      rw [if_neg henc, hholds]
  have hget : result root (S.getObject bucket key) t = .ok (storedToMeta key m, plain) := by
    rw [result_getObject, hm]
    dsimp only [Except.bind]
    rw [hraw]
    dsimp only [Content.bytes?, Option.getD_some]
    rw [hplain]
  refine ⟨hget, ?_⟩
  rw [hget]
  refine Kerplace.rangesAgree_iff (m := storedToMeta key m)
    (fun start end? m' len body h => ?_)
    fun hsize start last len end? hle hlast hlen hrange => ?_
  · rw [result_getObjectRange hm hraw] at h
    dsimp only at h
    generalize (if m.encrypted = true then _ else _ : Except S3Error Bytes) = r at h
    cases r with
    | error e => cases h
    | ok b =>
        cases h
        rfl
  · have hsize' : m.size = plain.length := hsize
    rw [result_getObjectRange hm hraw, hsize', hrange]
    dsimp only
    unfold Holds at hholds
    subst hlen
    split at hholds
    · rename_i henc
      rw [if_pos henc, hholds.readRange hopen hseal hle hlast]
      rfl
    · rename_i henc
      rw [if_neg henc, hholds]
      rfl

/-- On both stores the range reads of an object that can be read agree with its full read
exactly when it is empty or its recorded size is the length of its body: on the sharded store
whatever the drives hold, on the filesystem store when the payload is as a write leaves it. -/
theorem range_reads_agree_iff {n : Nat} (S : ErasureStore n) (F : FsStore)
    (hopen : ∀ k n p, F.crypto.openWith k n (F.crypto.sealWith k n p) = some p)
    (hseal : ∀ k n p, (F.crypto.sealWith k n p).length = p.length + TAG_LEN)
    (bucket key : Str) :
    (∀ (site : Site n) (s : Cluster n Doc) (m : ObjectMeta) (plain : Bytes),
      (site.run (S.getObject bucket key) s).1 = .ok (m, plain) →
      (RangesAgree (site.run (S.getObject bucket key) s).1
          (fun start end? => (site.run (S.getObjectRange bucket key start end?) s).1) ↔
        plain = [] ∨ m.size = plain.length)) ∧
    ∀ (root : List Str) (t : Tree FsDoc) (m : StoredMeta) (raw plain : Bytes),
      FsStore.storedIn F root bucket key t = .ok m →
      t.file? ((FsStore.objectPath bucket key).resolve root) = some (.raw raw) →
      F.Holds m.encrypted raw plain →
      FsStore.result root (F.getObject bucket key) t =
        .ok (FsStore.storedToMeta key m, plain) ∧
      (RangesAgree (FsStore.result root (F.getObject bucket key) t)
          (fun start end? => FsStore.result root (F.getObjectRange bucket key start end?) t) ↔
        plain = [] ∨ m.size = plain.length) :=
  ⟨fun _ _ _ _ hget => ErasureStore.rangesAgree_iff hget,
    fun _ _ _ _ _ hm hraw hholds => FsStore.rangesAgree_iff hopen hseal hm hraw hholds⟩

theorem range_reads_agree_stored :
    RangesAgree ((Site.mk topRoot fun _ => true).run (ErasureStore.trio.getObject "docs".toList
        "key".toList) fiveStored).1
      (fun start end? => ((Site.mk topRoot fun _ => true).run (ErasureStore.trio.getObjectRange
        "docs".toList "key".toList start end?) fiveStored).1) ∧
    RangesAgree (FsStore.result [] (FsStore.plainStore.getObject "docs".toList "key".toList)
        twoStored)
      (fun start end? => FsStore.result [] (FsStore.plainStore.getObjectRange "docs".toList
        "key".toList start end?) twoStored) := by
  obtain ⟨hstore, hfs⟩ := range_reads_agree_iff ErasureStore.trio FsStore.plainStore
    Crypto.tagged_lawful.open_seal Crypto.tagged_lawful.seal_length "docs".toList "key".toList
  constructor
  · have hread : ((Site.mk topRoot fun _ => true).run (ErasureStore.trio.getObject "docs".toList
        "key".toList) fiveStored).1.toOption.map (fun r => (r.1.size, r.2)) =
        some (5, [1, 2, 3, 4, 5]) := by decide +kernel
    cases hget : ((Site.mk topRoot fun _ => true).run (ErasureStore.trio.getObject
        "docs".toList "key".toList) fiveStored).1 with
    | error e =>
        rw [hget] at hread
        cases hread
    | ok r =>
        obtain ⟨m, plain⟩ := r
        have hagree := hstore ⟨topRoot, fun _ => true⟩ fiveStored m plain hget
        rw [hget] at hread hagree
        obtain ⟨hsize, rfl⟩ := Prod.mk.inj (Option.some.inj hread)
        exact hagree.2 (.inr hsize)
  · have hstored : (FsStore.storedIn FsStore.plainStore [] "docs".toList "key".toList
        twoStored).toOption.map (fun m => (m.size, m.encrypted)) = some (2, true) := by
      decide +kernel
    cases hm : FsStore.storedIn FsStore.plainStore [] "docs".toList "key".toList twoStored with
    | error e =>
        rw [hm] at hstored
        cases hstored
    | ok m =>
        rw [hm] at hstored
        obtain ⟨hsize, henc⟩ := Prod.mk.inj (Option.some.inj hstored)
        refine (hfs [] twoStored m (Crypto.header ⟨1, []⟩ (List.replicate 8 0) ++
          Crypto.tagged.sealWith [] (chunkNonce (List.replicate 8 0) 0) [1, 2]) [1, 2] hm
          (by decide +kernel) ?_).2.2 (.inr hsize)
        rw [FsStore.Holds, if_pos henc]
        exact ⟨[], ⟨1, []⟩, List.replicate 8 0, rfl, by decide, rfl, by decide +kernel⟩

/-! ## Across a rotation -/

/-- A put across a key rotation: a key of 94 bytes is minted for it, and when it asks for the
length of a key, that is 95. -/
def acrossRotation : Crypto :=
  (mintingMachine.final (.start 0) rotation).seenBy Crypto.tagged 0

/-- The stores as that put meets them. -/
def ErasureStore.rotating : ErasureStore 3 := { ErasureStore.trio with crypto := acrossRotation }

def FsStore.rotating : FsStore := { FsStore.plainStore with crypto := acrossRotation }

/-- Two bytes put across a rotation. -/
def rotatedStored : Cluster 3 Doc :=
  ((Site.mk topRoot fun _ => true).run (ErasureStore.rotating.putObject (callAt 'a' 1 isHexLower_a)
    "docs".toList "key".toList (.ofBytes [1, 2]) [] [] true) (withBucket "docs".toList)).2

def rotatedTree : Tree FsDoc :=
  FsStore.reached FsStore.rotating [] .empty [.createBucket "docs".toList,
    .put (FsStore.fsCallAt 'a' 1 isHexLower_a) "docs".toList "key".toList (.ofBytes [1, 2]) [] []
      true]

/-- Reads that do not agree: the full one gives a body, the open range from its first byte
another. -/
theorem not_rangesAgree {full : Except S3Error (ObjectMeta × Bytes)}
    {range : Nat → Option Nat → Except S3Error (ObjectMeta × Nat × Bytes)} {plain : Bytes}
    {part : Nat × Bytes} (hread : full.toOption.map Prod.snd = some plain)
    (hrange : (range 0 none).toOption.map Prod.snd = some part) (hnil : plain ≠ [])
    (hne : part ≠ (plain.length, plain)) : ¬ RangesAgree full range := by
  intro h
  cases hfull : full with
  | error e =>
      rw [hfull] at hread
      cases hread
  | ok r =>
      obtain ⟨m, body⟩ := r
      rw [hfull] at hread
      obtain rfl : body = plain := Option.some.inj hread
      rw [h m body hfull 0 (List.length_pos_iff.2 hnil) none fun e he => nomatch he] at hrange
      exact hne (Option.some.inj hrange).symm

/-- Each full read gives two bytes, and the open range from the first byte only one. -/
theorem range_reads_disagree :
    ¬ RangesAgree ((Site.mk topRoot fun _ => true).run (ErasureStore.rotating.getObject
        "docs".toList "key".toList) rotatedStored).1
      (fun start end? => ((Site.mk topRoot fun _ => true).run
        (ErasureStore.rotating.getObjectRange "docs".toList "key".toList start end?)
        rotatedStored).1) ∧
    ¬ RangesAgree (FsStore.result [] (FsStore.rotating.getObject "docs".toList "key".toList)
        rotatedTree)
      (fun start end? => FsStore.result [] (FsStore.rotating.getObjectRange "docs".toList
        "key".toList start end?) rotatedTree) := by
  constructor
  · have hread : ((Site.mk topRoot fun _ => true).run (ErasureStore.rotating.getObject
        "docs".toList "key".toList) rotatedStored).1.toOption.map Prod.snd = some [1, 2] := by
      decide +kernel
    have hrange : ((Site.mk topRoot fun _ => true).run (ErasureStore.rotating.getObjectRange
        "docs".toList "key".toList 0 none) rotatedStored).1.toOption.map Prod.snd =
        some (1, [1]) := by decide +kernel
    exact not_rangesAgree hread hrange (by decide) (by decide)
  · have hread : (FsStore.result [] (FsStore.rotating.getObject "docs".toList "key".toList)
        rotatedTree).toOption.map Prod.snd = some [1, 2] := by decide +kernel
    have hrange : (FsStore.result [] (FsStore.rotating.getObjectRange "docs".toList
        "key".toList 0 none) rotatedTree).toOption.map Prod.snd = some (1, [1]) := by
      decide +kernel
    exact not_rangesAgree hread hrange (by decide) (by decide)

end Kerplace
