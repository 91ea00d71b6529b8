/-
# `Kerplace.Erasure.Read` — what a read finds on the drives

Reads change nothing, so their specification is a value: the metadata of the
first reachable drive that has a copy, and the blocks up to the first one of
which fewer than `K` reachable drives hold the recorded shard.
-/
import Kerplace.Erasure.Write
import Mathlib.Data.List.FinRange
import Mathlib.Data.List.TakeWhile

namespace Kerplace

open FileTree

namespace ErasureStore

variable {n : Nat} {S : ErasureStore n} {site : Site n} {s : Cluster n Doc}

/-! ## Metadata -/

/-- The first reachable drive with a value. -/
def firstUp {α : Type} (site : Site n) (f : Fin n → Option α) : Option α :=
  (List.finRange n).findSome? fun d => if site.up d then f d else none

/-- The document of type `α` a drive has at a path. -/
def docAt {α : Type} (decode : Doc → Option α) (t : Tree Doc) (p : List Str) : Option α :=
  ((t.file? p).bind Content.doc?).bind decode

theorem docAt_congr {α : Type} (decode : Doc → Option α) {t t' : Tree Doc} {q : List Str}
    (h : t'.look q = t.look q) : docAt decode t' q = docAt decode t q := by
  rw [docAt, docAt, file?_congr h]

theorem onTree_readDoc {α : Type} (decode : Doc → Option α) (rel : UnixPath) (d : Fin n)
    (t : Tree Doc) :
    site.onTree d (do
      let doc ← Drive.readDoc rel
      pure (doc.bind decode)) t =
      (if site.up d then docAt decode t (rel.resolve (site.root d)) else none, t) := by
  cases hd : site.up d with
  | false =>
      rw [Site.onTree, hd]
      rfl
  | true =>
      rw [Site.onTree_up hd, Prog.exec_bind, LocalDrive.exec_readDoc]
      rfl

theorem run_readXlV (bucket key : Str) (vid : Option Str) :
    site.run (readXlV bucket key vid) s =
      (match firstUp site fun d => docAt Doc.xl? (s d)
          (((rObjV bucket key vid).joinStr XL_META).resolve (site.root d)) with
        | some m => .ok m
        | none => .error .noSuchKey, s) := by
  unfold readXlV
  rw [Site.run_bind, Site.run_anyDrive fun d t => by rw [onTree_readDoc]]
  simp only [onTree_readDoc, Prog.andThen_ok, firstUp]
  generalize ((List.finRange n).findSome? fun d => _) = hit
  cases hit <;> rfl

/-- The statuses, histories or other documents a loop over all drives finds. -/
def docsUp {α : Type} (site : Site n) (decode : Doc → Option α) (rel : UnixPath)
    (s : Cluster n Doc) : List (Option α) :=
  List.ofFn fun d =>
    if site.up d then docAt decode (s d) (rel.resolve (site.root d)) else none

/-- Whether some reachable drive has something at a path. -/
def existsUp (site : Site n) (rel : UnixPath) (s : Cluster n Doc) : Bool :=
  (List.finRange n).any fun d =>
    site.up d && ((s d).look (rel.resolve (site.root d))).isSome

/-- Whether some reachable drive has the bucket's directory. -/
def bucketUp (site : Site n) (bucket : Str) (s : Cluster n Doc) : Bool :=
  (List.finRange n).any fun d =>
    site.up d && (s d).isDir ((rBucket bucket).resolve (site.root d))

/-- The most protective status among those found. -/
def bestStatus (found : List (Option Str)) : Str :=
  found.foldl (fun best s? =>
    match s? with
    | some s => if statusRank s > statusRank best then s else best
    | none => best) []

/-- The mode a status stands for. -/
def modeOfStatus (status : Str) : VMode :=
  if status = "Enabled".toList then .enabled
  else if status = "Suspended".toList then .suspended
  else .off

/-- A bucket's effective mode as the reachable drives have it. -/
def modeOf (site : Site n) (bucket : Str) (s : Cluster n Doc) : VMode :=
  modeOfStatus (bestStatus
    (docsUp site Doc.status? (rBucketCfg bucket VERSIONING) s))

/-- A key's history as the reachable drives have it. -/
def historyOf (site : Site n) (bucket key : Str) (s : Cluster n Doc) : VHistory :=
  (bestHistory (docsUp site Doc.history? (rHistory bucket key) s)).getD ⟨[], 0⟩

theorem onTree_stat (rel : UnixPath) (d : Fin n) (t : Tree Doc) :
    site.onTree d (Drive.stat rel) t =
      (if site.up d then (t.look (rel.resolve (site.root d))).map DriveStat.of else none,
        t) := by
  cases hd : site.up d with
  | false =>
      rw [Site.onTree, hd]
      rfl
  | true =>
      rw [Site.onTree_up hd, LocalDrive.exec_stat]
      rfl

theorem isSome_findSome?_any {α β : Type} (f : α → Option β) (l : List α) :
    (l.findSome? f).isSome = l.any fun a => (f a).isSome := by
  induction l with
  | nil => rfl
  | cons a l ih =>
      rw [List.findSome?_cons, List.any_cons]
      cases f a with
      | none => simpa using ih
      | some b => simp

theorem run_metaStatAny (rel : UnixPath) :
    site.run (metaStatAny rel) s = (.ok (existsUp site rel s), s) := by
  unfold metaStatAny
  rw [Site.run_bind, Site.run_anyDrive fun d t => by rw [onTree_stat]]
  simp only [onTree_stat, Prog.andThen_ok, Site.run_pure, isSome_findSome?_any, existsUp]
  congr 4
  funext d
  cases site.up d <;> simp

theorem run_headBucket (bucket : Str) :
    site.run (headBucket bucket) s =
      (if bucketUp site bucket s then .ok () else .error .noSuchBucket, s) := by
  have hstat : ∀ d t, site.onTree d (do
      let st ← Drive.stat (J := Doc) (rBucket bucket)
      pure (st.filter DriveStat.isDir)) t =
      (if site.up d && t.isDir ((rBucket bucket).resolve (site.root d)) then some ⟨true⟩
        else none, t) := by
    intro d t
    have h : site.onTree d (Drive.stat (rBucket bucket)) t = _ :=
      onTree_stat (rBucket bucket) d t
    rw [Site.onTree] at h ⊢
    rw [Prog.exec_bind, h]
    cases site.up d with
    | false => rfl
    | true =>
        simp only [if_true, Bool.true_and, isDir]
        cases t.look ((rBucket bucket).resolve (site.root d)) with
        | none => rfl
        | some n => cases n <;> rfl
  unfold headBucket
  rw [Site.run_bind, Site.run_anyDrive fun d t => by rw [hstat]]
  simp only [hstat, Prog.andThen_ok, isSome_findSome?_any]
  have hany : ((List.finRange n).any fun d =>
      (if site.up d && (s d).isDir ((rBucket bucket).resolve (site.root d)) then
        some (⟨true⟩ : DriveStat) else none).isSome) = bucketUp site bucket s := by
    unfold bucketUp
    congr 1
    funext d
    cases site.up d && (s d).isDir ((rBucket bucket).resolve (site.root d)) <;> rfl
  rw [hany]
  cases bucketUp site bucket s <;> rfl

theorem run_vmode (bucket : Str) :
    site.run (vmode bucket) s = (.ok (modeOf site bucket s), s) := by
  unfold vmode getBucketVersioning
  simp only [Site.run_bind, Site.run_eachDrive, onTree_readDoc, Prog.andThen_ok,
    Site.run_pure]
  rfl

theorem run_readHistory (bucket key : Str) :
    site.run (readHistory bucket key) s = (.ok (historyOf site bucket key s), s) := by
  unfold readHistory
  simp only [Site.run_bind, Site.run_eachDrive, onTree_readDoc, Prog.andThen_ok,
    Site.run_pure]
  rfl

theorem run_hasHistory (bucket key : Str) :
    site.run (hasHistory bucket key) s =
      (.ok (existsUp site (rHistory bucket key) s), s) :=
  run_metaStatAny _

/-! ## Shards -/

/-- Where the shard of block `i` starts in a shard file. -/
def offsetOf (S : ErasureStore n) (blocks : List Bytes) (i : Nat) : Nat :=
  ((blocks.take i).map fun b => S.codec.shardLen b.length).sum

/-- What a positioned read of a shard file gives. -/
def shardAt (t : Tree Doc) (p : List Str) (offset len : Nat) : Option Bytes :=
  ((t.file? p).bind Content.bytes?).bind fun b => sliceAt b offset len

/-- Drive `d` can be reached and its shard file below `rel` has, where block
`i`'s shard belongs, that shard. -/
def HoldsShard (S : ErasureStore n) (site : Site n) (s : Cluster n Doc) (rel : UnixPath)
    (blocks : List Bytes) (i : Nat) (d : Fin n) : Prop :=
  site.up d = true ∧
    shardAt (s d) ((rel.joinStr PART).resolve (site.root d)) (S.offsetOf blocks i)
      (S.codec.shardLen (blocks.getD i []).length) = some (S.shard d (blocks.getD i []))

instance (S : ErasureStore n) (site : Site n) (s : Cluster n Doc) (rel : UnixPath)
    (blocks : List Bytes) (i : Nat) (d : Fin n) :
    Decidable (HoldsShard S site s rel blocks i d) := inferInstanceAs (Decidable (_ ∧ _))

/-- How many reachable drives hold block `i`'s shard. -/
def holders (S : ErasureStore n) (site : Site n) (s : Cluster n Doc) (rel : UnixPath)
    (blocks : List Bytes) (i : Nat) : Nat :=
  (List.finRange n).countP fun d => decide (HoldsShard S site s rel blocks i d)

theorem length_shards (hS : S.codec.Lawful) (b : Bytes) : (S.shards b).length = n := by
  obtain ⟨ss, hss, hlen, -⟩ := Codec.encodeBlock_ok hS b
  rw [shards, hss, ← S.total_eq]
  exact hlen

theorem getElem?_shards (hS : S.codec.Lawful) (b : Bytes) (d : Fin n) :
    (S.shards b)[d.val]? = some (S.shard d b) := by
  have hd : d.val < (S.shards b).length := (length_shards hS b).symm ▸ d.isLt
  simp [shard, List.getD_eq_getElem?_getD, hd]

theorem length_shard (hS : S.codec.Lawful) (d : Fin n) (b : Bytes) :
    (S.shard d b).length = S.codec.shardLen b.length := by
  obtain ⟨ss, hss, -, hlen⟩ := Codec.encodeBlock_ok hS b
  have hmem := List.mem_of_getElem? (getElem?_shards hS b d)
  rw [shards, hss] at hmem
  exact hlen _ hmem

theorem getElem?_sums {blocks : List Bytes} {i : Nat} {b : Bytes}
    (hb : blocks[i]? = some b) (d : Fin n) :
    ((List.ofFn fun e => S.sumsOf e blocks)[d.val]?).bind (fun sums => sums[i]?) =
      some (S.checksum (S.shard d b)) := by
  have : (List.ofFn fun e => S.sumsOf e blocks)[d.val]? = some (S.sumsOf d blocks) := by
    simp
  rw [this]
  simp [sumsOf, hb]

theorem holdsShard_iff {rel : UnixPath} {blocks : List Bytes} {i : Nat} {b : Bytes}
    (hb : blocks[i]? = some b) (d : Fin n) :
    HoldsShard S site s rel blocks i d ↔ site.up d = true ∧
      shardAt (s d) ((rel.joinStr PART).resolve (site.root d)) (S.offsetOf blocks i)
        (S.codec.shardLen b.length) = some (S.shard d b) := by
  have hgetD : blocks.getD i [] = b := by
    simp [List.getD_eq_getElem?_getD, hb]
  rw [HoldsShard, hgetD]

/-- No other bytes a reachable drive has where a shard belongs have that shard's
checksum. -/
def Unmistaken (S : ErasureStore n) (site : Site n) (s : Cluster n Doc) (rel : UnixPath)
    (blocks : List Bytes) : Prop :=
  ∀ (i : Nat) (b : Bytes) (d : Fin n) (x : Bytes), blocks[i]? = some b →
    site.up d = true →
    shardAt (s d) ((rel.joinStr PART).resolve (site.root d)) (S.offsetOf blocks i)
      (S.codec.shardLen b.length) = some x →
    S.checksum x = S.checksum (S.shard d b) → x = S.shard d b

theorem unmistaken_of_injective (hsum : Function.Injective S.checksum) (site : Site n)
    (s : Cluster n Doc) (rel : UnixPath) (blocks : List Bytes) :
    Unmistaken S site s rel blocks := fun _ _ _ _ _ _ _ h => hsum h

/-- A shard is read exactly when it is the recorded one. -/
theorem onTree_readShard {rel : UnixPath} {blocks : List Bytes} {i : Nat} {b : Bytes}
    (hsum : Unmistaken S site s rel blocks) (hb : blocks[i]? = some b) (d : Fin n) :
    site.onTree d (S.readShard (rel.joinStr PART) (List.ofFn fun e => S.sumsOf e blocks) i
        (S.offsetOf blocks i) (S.codec.shardLen b.length) d) (s d) =
      (if HoldsShard S site s rel blocks i d then some (S.shard d b) else none, s d) := by
  have hiff : HoldsShard S site s rel blocks i d ↔ _ := holdsShard_iff hb d
  cases hd : site.up d with
  | false =>
      rw [Site.onTree, hd, if_neg fun h => by simp [hd] at hiff; exact hiff h]
      rfl
  | true =>
      rw [Site.onTree_up hd]
      change ((shardAt (s d) _ _ _).filter _, s d) = _
      congr 1
      rw [hd, eq_self, true_and] at hiff
      have hsum := hsum i b d
      generalize shardAt (s d) _ _ _ = r at hiff hsum ⊢
      cases r with
      | none =>
          rw [if_neg fun h => by cases hiff.1 h]
          rfl
      | some x =>
          have hx : S.checksum (S.shard d b) = S.checksum x ↔ x = S.shard d b :=
            ⟨fun h => hsum x hb hd rfl h.symm, fun h => by rw [h]⟩
          rw [Option.some.injEq] at hiff
          simp only [Option.filter, getElem?_sums hb, Option.some.injEq, hx]
          by_cases h : x = S.shard d b <;> simp [h, hiff]

/-- The slots reconstruction sees for a block agree with its shards, and as
many are filled as drives hold the shard. -/
theorem slots_agree (hS : S.codec.Lawful) (site : Site n) (s : Cluster n Doc)
    (rel : UnixPath) (blocks : List Bytes) (i : Nat) (b : Bytes) :
    let slots := List.ofFn fun d : Fin n =>
      if HoldsShard S site s rel blocks i d then some (S.shard d b) else none
    ShardCode.Agrees slots (S.shards b) ∧
      slots.countP Option.isSome = holders S site s rel blocks i := by
  refine ⟨⟨by rw [List.length_ofFn, length_shards hS], ?_⟩, ?_⟩
  · intro j x hj
    rw [List.getElem?_ofFn] at hj
    split at hj
    · rename_i hjn
      simp only [Option.some.injEq, Option.ite_none_right_eq_some] at hj
      rw [← hj.2]
      exact getElem?_shards hS b ⟨j, hjn⟩
    · cases hj
  · rw [holders, List.ofFn_eq_map, List.countP_map]
    congr 1
    funext d
    simp only [Function.comp_apply]
    split <;> simp_all

/-- Of `m` blocks from block `i` on, those before the first that too few reachable drives
hold. -/
def rebuilt (S : ErasureStore n) (site : Site n) (s : Cluster n Doc) (rel : UnixPath)
    (blocks : List Bytes) (i m : Nat) : Nat :=
  ((List.range' i m).takeWhile fun j =>
    decide (S.codec.data ≤ holders S site s rel blocks j)).length

section

variable {site : Site n} {s : Cluster n Doc} {rel : UnixPath} {blocks : List Bytes}

theorem rebuilt_le (i m : Nat) : S.rebuilt site s rel blocks i m ≤ m := by
  have := (List.takeWhile_prefix (l := List.range' i m) fun j =>
    decide (S.codec.data ≤ holders S site s rel blocks j)).length_le
  rwa [List.length_range'] at this

theorem rebuilt_eq_iff (i m : Nat) : S.rebuilt site s rel blocks i m = m ↔
    ∀ j, i ≤ j → j < i + m → S.codec.data ≤ holders S site s rel blocks j := by
  have hpre := List.takeWhile_prefix (l := List.range' i m) fun j =>
    decide (S.codec.data ≤ holders S site s rel blocks j)
  have hall : (List.range' i m).takeWhile (fun j =>
      decide (S.codec.data ≤ holders S site s rel blocks j)) = List.range' i m ↔
      S.rebuilt site s rel blocks i m = m := by
    refine ⟨fun h => by rw [rebuilt, h, List.length_range'], fun h => hpre.eq_of_length ?_⟩
    rw [List.length_range']
    exact h
  rw [← hall, List.takeWhile_eq_self_iff]
  simp only [List.mem_range'_1, decide_eq_true_eq, and_imp]

theorem rebuilt_succ (i m : Nat) : S.rebuilt site s rel blocks i (m + 1) =
    if S.codec.data ≤ holders S site s rel blocks i then
      S.rebuilt site s rel blocks (i + 1) m + 1 else 0 := by
  unfold rebuilt
  rw [List.range'_succ, List.takeWhile_cons]
  simp only [decide_eq_true_eq]
  split <;> rfl

end

/-- Reading on from a block ends where one cannot be rebuilt. -/
theorem run_reconstructFrom (hS : S.codec.Lawful) {site : Site n} {s : Cluster n Doc}
    {rel : UnixPath} {blocks : List Bytes} (hsum : Unmistaken S site s rel blocks) :
    ∀ (rest : List Bytes) (i : Nat), blocks.drop i = rest →
      site.run (S.reconstructFrom (rel.joinStr PART) S.codec
        (List.ofFn fun e => S.sumsOf e blocks) i (S.offsetOf blocks i)
        (rest.map List.length)) s =
        (.ok (rest.take (S.rebuilt site s rel blocks i rest.length)).flatten, s) := by
  intro rest
  induction rest with
  | nil => exact fun _ _ => rfl
  | cons b rest ih =>
      intro i hi
      have hb : blocks[i]? = some b := by
        rw [← Nat.add_zero i, ← List.getElem?_drop, hi]
        rfl
      have hrest : blocks.drop (i + 1) = rest := by
        rw [← List.drop_drop, hi]
        rfl
      have hoff : S.offsetOf blocks i + S.codec.shardLen b.length =
          S.offsetOf blocks (i + 1) := by
        rw [offsetOf, offsetOf, List.take_add_one, hb]
        simp
      obtain ⟨hag, hcount⟩ := slots_agree hS site s rel blocks i b
      rw [List.map_cons, reconstructFrom, List.length_cons, rebuilt_succ]
      simp only [Site.run_bind, Site.run_eachDrive, onTree_readShard hsum hb,
        Prog.andThen_ok]
      by_cases hk : S.codec.data ≤ holders S site s rel blocks i
      · rw [if_pos hk, Codec.reconstructBlock_encodeBlock hS (encodeBlock_shards hS b) hag
          (by rw [hcount]; exact hk)]
        simp only [Site.run_bind, hoff, ih (i + 1) hrest, Prog.andThen_ok, Site.run_pure,
          List.take_succ_cons, List.flatten_cons]
      · rw [if_neg hk]
        rw [← hcount, Nat.not_le] at hk
        obtain ⟨e, he⟩ := Codec.reconstructBlock_few (n := b.length) hk
        rw [he]
        rfl

/-! ## A body cut into blocks -/

theorem bodyBlocks_whole {bs : Nat} (hbs : 0 < bs) {src : Body} {blocks : List Bytes}
    (h : bodyBlocks bs src = (blocks, false)) :
    src.err = false ∧ blocks.flatten = src.data := by
  rw [bodyBlocks, if_neg (by omega)] at h
  split at h
  · cases h
  · rename_i herr
    refine ⟨by simpa using herr, ?_⟩
    rw [← (Prod.mk.inj h).1]
    split
    · rename_i hd
      rw [hd]
      rfl
    · exact flatten_chunks hbs _

theorem bodyBlocks_zero (src : Body) : bodyBlocks 0 src = ([[]], false) := rfl

/-- The lengths a reader computes are those of the blocks written. -/
theorem blockLens_bodyBlocks {bs : Nat} {src : Body} {blocks : List Bytes}
    (h : bodyBlocks bs src = (blocks, false)) :
    blockLens blocks.flatten.length bs = blocks.map List.length := by
  by_cases hbs : bs = 0
  · subst hbs
    rw [bodyBlocks_zero] at h
    cases h
    rfl
  have hpos : 0 < bs := Nat.pos_of_ne_zero hbs
  obtain ⟨-, hflat⟩ := bodyBlocks_whole hpos h
  rw [bodyBlocks, if_neg hbs] at h
  split at h
  · cases h
  have hblocks := (Prod.mk.inj h).1
  rw [hflat]
  by_cases hd : src.data = []
  · rw [if_pos hd] at hblocks
    rw [← hblocks, hd]
    rfl
  · rw [if_neg hd] at hblocks
    subst hblocks
    have hlen := List.length_pos_iff.2 hd
    rw [map_length_chunks hpos, blockLens]
    simp only [if_neg hlen.ne']

theorem ne_nil_of_mem_bodyBlocks {bs : Nat} {src : Body} {blocks : List Bytes}
    (h : bodyBlocks bs src = (blocks, false)) (hne : blocks.flatten ≠ []) {b : Bytes}
    (hb : b ∈ blocks) : b ≠ [] := by
  by_cases hbs : bs = 0
  · subst hbs
    rw [bodyBlocks_zero] at h
    cases h
    exact absurd rfl hne
  have hpos : 0 < bs := Nat.pos_of_ne_zero hbs
  have hflat := (bodyBlocks_whole hpos h).2
  rw [bodyBlocks, if_neg hbs] at h
  split at h
  · cases h
  have hblocks := (Prod.mk.inj h).1
  rw [if_neg (hflat ▸ hne)] at hblocks
  rw [← hblocks] at hb
  exact List.length_pos_iff.1 (mem_chunks_length hpos hb).1

theorem length_flatten_take_lt {blocks : List Bytes} (h : ∀ b ∈ blocks, b ≠ []) {k : Nat}
    (hk : k < blocks.length) : (blocks.take k).flatten.length < blocks.flatten.length := by
  have hsplit : blocks.flatten = (blocks.take k).flatten ++ (blocks.drop k).flatten := by
    rw [← List.flatten_append, List.take_append_drop]
  have hmem : blocks[k] ∈ blocks.drop k := by
    rw [List.drop_eq_getElem_cons hk]
    exact List.mem_cons_self
  have hpos : 0 < (blocks.drop k).flatten.length := by
    refine List.length_pos_iff.2 fun h0 => ?_
    exact h _ (List.getElem_mem hk) (List.flatten_eq_nil_iff.1 h0 _ hmem)
  rw [hsplit, List.length_append]
  omega

/-- The stream of an object written as `blocks`. -/
theorem run_streamingBody_rebuilt (hS : S.codec.Lawful) {src : Body} {blocks : List Bytes}
    (hsrc : bodyBlocks S.blockSize src = (blocks, false)) (env : CallEnv)
    (contentType : Str) (userMetadata : UserMeta) (encrypted : Bool)
    (etagOverride : Option Str) {bucket key : Str} {vid : Option Str}
    (hsum : Unmistaken S site s (rObjV bucket key vid) blocks) :
    site.run (S.streamingBody bucket key vid
      (S.xlFor env blocks contentType userMetadata encrypted etagOverride)) s =
      (.ok (blocks.take (S.rebuilt site s (rObjV bucket key vid) blocks 0
        blocks.length)).flatten, s) := by
  unfold streamingBody
  have hnew : Codec.new S.codec.rs
      (S.xlFor env blocks contentType userMetadata encrypted etagOverride).data
      (S.xlFor env blocks contentType userMetadata encrypted etagOverride).parity =
      .ok S.codec := Codec.new_self S.codec
  have hlens : blockLens
      (S.xlFor env blocks contentType userMetadata encrypted etagOverride).storedSize
      (S.xlFor env blocks contentType userMetadata encrypted etagOverride).blockSize =
      blocks.map List.length := blockLens_bodyBlocks hsrc
  rw [hnew, hlens]
  exact run_reconstructFrom hS hsum blocks 0 rfl

theorem run_streamingBody (hS : S.codec.Lawful) {src : Body} {blocks : List Bytes}
    (hsrc : bodyBlocks S.blockSize src = (blocks, false)) (env : CallEnv)
    (contentType : Str) (userMetadata : UserMeta) (encrypted : Bool)
    (etagOverride : Option Str) {bucket key : Str} {vid : Option Str}
    (hsum : Unmistaken S site s (rObjV bucket key vid) blocks) :
    ∃ k, k ≤ blocks.length ∧
      site.run (S.streamingBody bucket key vid
        (S.xlFor env blocks contentType userMetadata encrypted etagOverride)) s =
        (.ok (blocks.take k).flatten, s) ∧
      (k = blocks.length ↔ ∀ i, i < blocks.length →
        S.codec.data ≤ holders S site s (rObjV bucket key vid) blocks i) :=
  ⟨_, rebuilt_le 0 _, run_streamingBody_rebuilt hS hsrc env contentType userMetadata
    encrypted etagOverride hsum, by simpa using rebuilt_eq_iff 0 blocks.length⟩

end ErasureStore

end Kerplace
