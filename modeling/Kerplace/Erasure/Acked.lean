/-
# `Kerplace.Erasure.Acked` — what reads after a history of puts give

What a read gives after a history of puts is a question about the ledger: the
put acknowledged last is read back exactly when it is `StillThere` among the
drives that can be reached.  It need not be: metadata is taken from the first
reachable drive that has any, so one that missed the put answers for it with
the copy of an older one.
-/
import Kerplace.Erasure.Ledger
import Kerplace.Erasure.Replicated

namespace Kerplace

open FileTree ErasureStore

namespace ErasureStore

variable {n : Nat} (S : ErasureStore n)

/-- A read gives back the put `c` that returned `m`: its metadata record, and
through `get_object` and `head_object` its bytes, size and ETag. -/
structure ReadsBack (site : Site n) (bucket key : Str) (c : PutCall n) (m : ObjectMeta)
    (s : Cluster n Doc) : Prop where
  record : (site.run (readXl bucket key) s).1 = .ok (S.putXl c)
  get : (site.run (S.getObject bucket key) s).1 = .ok (m, c.body.data)
  head : (site.run (headObject bucket key) s).1 = .ok m
  size : m.size = c.body.data.length

end ErasureStore

namespace Ledger

variable {n : Nat} (S : ErasureStore n)

/-- Drive `d` holds a copy with the shard that block `i` of put `c` has there. -/
def Holds (l : Ledger n) (c : PutCall n) (i : Nat) (d : Fin n) : Prop :=
  ((l.copy d).bind fun c' => sliceAt (S.partOf d (S.putBlocks c').1)
    (S.offsetOf (S.putBlocks c).1 i)
    (S.codec.shardLen ((S.putBlocks c).1.getD i []).length)) =
  some (S.shard d ((S.putBlocks c).1.getD i []))

instance (l : Ledger n) (c : PutCall n) (i : Nat) (d : Fin n) :
    Decidable (l.Holds S c i d) := inferInstanceAs (Decidable (_ = _))

/-- Put `c` can be read back from the drives `up`: it stored its whole body, the
first of the drives with a copy has its metadata, and of each of its blocks the
drives hold enough shards. -/
structure StillThere (l : Ledger n) (up : Fin n → Bool) (c : PutCall n) : Prop where
  stored : ∀ src, S.putSource c = some src → 0 < S.blockSize ∨ src.data = []
  whole : S.shouldEncrypt c.encrypt = true → Crypto.sealable c.body = c.body.data
  newest : (((List.finRange n).findSome? fun d => if up d then l.copy d else none).map
    S.putXl) = some (S.putXl c)
  shards : (S.putBlocks c).1.flatten ≠ [] → ∀ i, i < (S.putBlocks c).1.length →
    S.codec.data ≤ (List.finRange n).countP fun d => up d && decide (l.Holds S c i d)

instance (l : Ledger n) (up : Fin n → Bool) (c : PutCall n) :
    Decidable (l.StillThere S up c) :=
  decidable_of_iff ((∀ src ∈ S.putSource c, 0 < S.blockSize ∨ src.data = []) ∧
    (S.shouldEncrypt c.encrypt = true → Crypto.sealable c.body = c.body.data) ∧
    (((List.finRange n).findSome? fun d => if up d then l.copy d else none).map
      S.putXl) = some (S.putXl c) ∧
    ((S.putBlocks c).1.flatten ≠ [] → ∀ i, i < (S.putBlocks c).1.length →
      S.codec.data ≤ (List.finRange n).countP fun d => up d && decide (l.Holds S c i d)))
    ⟨fun ⟨h₁, h₂, h₃, h₄⟩ => ⟨h₁, h₂, h₃, h₄⟩, fun ⟨h₁, h₂, h₃, h₄⟩ => ⟨h₁, h₂, h₃, h₄⟩⟩

end Ledger

/-! ## The payload -/

namespace ErasureStore

variable {n : Nat} {S : ErasureStore n} {site : Site n} {s : Cluster n Doc}

/-- The first `k` blocks of a body are all of it. -/
theorem flatten_take_eq_iff {bs : Nat} {src : Body} {blocks : List Bytes}
    (h : bodyBlocks bs src = (blocks, false)) {k : Nat} (hk : k ≤ blocks.length) :
    (blocks.take k).flatten = src.data ↔
      (0 < bs ∨ src.data = []) ∧ (blocks.flatten ≠ [] → k = blocks.length) := by
  by_cases hbs : bs = 0
  · subst hbs
    rw [bodyBlocks_zero] at h
    cases h
    have hnil : (([[]] : List Bytes).take k).flatten = [] := by cases k <;> simp
    rw [hnil]
    simp [eq_comm]
  · have hpos := Nat.pos_of_ne_zero hbs
    obtain ⟨-, hflat⟩ := bodyBlocks_whole hpos h
    rw [← hflat]
    constructor
    · intro heq
      refine ⟨.inl hpos, fun hne => ?_⟩
      by_contra hlt
      have := length_flatten_take_lt (fun b hb => ne_nil_of_mem_bodyBlocks h hne hb)
        (show k < blocks.length by omega)
      rw [heq] at this
      omega
    · rintro ⟨-, hfull⟩
      by_cases hne : blocks.flatten = []
      · rw [hne, List.flatten_eq_nil_iff]
        exact fun b hb => List.flatten_eq_nil_iff.1 hne b (List.mem_of_mem_take hb)
      · rw [hfull hne, List.take_length]

/-- The first blocks of a container open to what was to be sealed exactly when
they are the whole container and the body reached the cipher whole. -/
theorem decrypting_take_eq_iff (hcr : S.crypto.Lawful) {env : CallEnv} {body src : Body}
    {bs : Nat} {blocks : List Bytes} (hsrc : S.crypto.encryptingReader env body = some src)
    (h : bodyBlocks bs src = (blocks, false)) {k : Nat} (hk : k ≤ blocks.length) :
    S.crypto.decryptingReader (blocks.take k).flatten = some body.data ↔
      (0 < bs ∨ src.data = []) ∧ Crypto.sealable body = body.data ∧
        (blocks.flatten ≠ [] → k = blocks.length) := by
  have hle : (Crypto.sealable body).length ≤ body.data.length := by
    unfold Crypto.sealable
    split
    · exact List.length_take_le' _ _
    · exact le_refl _
  have hopen := Crypto.decrypting_encrypting hcr hsrc
  constructor
  · intro hdec
    have hfull : (blocks.take k).flatten = src.data := by
      by_cases hbs : bs = 0
      · subst hbs
        rw [bodyBlocks_zero] at h
        cases h
        have hnil : (([[]] : List Bytes).take k).flatten = [] := by cases k <;> simp
        rw [hnil] at hdec
        cases hdec
      · obtain ⟨-, hflat⟩ := bodyBlocks_whole (Nat.pos_of_ne_zero hbs) h
        have hcut : (blocks.take k).flatten ++ (blocks.drop k).flatten = src.data := by
          rw [← List.flatten_append, List.take_append_drop, hflat]
        by_cases hrest : (blocks.drop k).flatten = []
        · rw [← hcut, hrest, List.append_nil]
        · have := Crypto.decrypting_cut hcr hsrc hcut hrest hdec
          omega
    rw [hfull, hopen, Option.some.injEq] at hdec
    obtain ⟨h1, h2⟩ := (flatten_take_eq_iff h hk).1 hfull
    exact ⟨h1, hdec, h2⟩
  · rintro ⟨h1, h2, h3⟩
    rw [(flatten_take_eq_iff h hk).2 ⟨h1, h3⟩, hopen, h2]

/-- A body stored whole is recorded with its own size. -/
theorem size_xlFor (hcr : S.crypto.Lawful) {env : CallEnv} {body src : Body}
    {encrypted : Bool} (hsrc : S.sourceOf env body encrypted = some src)
    {blocks : List Bytes} (hblocks : bodyBlocks S.blockSize src = (blocks, false))
    (hstored : 0 < S.blockSize ∨ src.data = [])
    (hwhole : encrypted = true → Crypto.sealable body = body.data) (contentType : Str)
    (userMetadata : UserMeta) (etagOverride : Option Str) :
    (S.xlFor env blocks contentType userMetadata encrypted etagOverride).size =
      body.data.length := by
  have hflat : blocks.flatten = src.data := by
    have := (flatten_take_eq_iff hblocks (le_refl blocks.length)).2 ⟨hstored, fun _ => rfl⟩
    rwa [List.take_length] at this
  have hsize : (S.xlFor env blocks contentType userMetadata encrypted etagOverride).size =
      if encrypted then plaintextLen blocks.flatten.length S.crypto.headerLen
      else blocks.flatten.length := rfl
  rw [hsize, hflat]
  cases encrypted with
  | false =>
      cases hsrc
      rfl
  | true => exact (Crypto.plaintextLen_encrypting hcr hsrc).trans (by rw [hwhole rfl])

/-- The payload of a write is read back exactly when all of it was stored and is
still held. -/
theorem run_readBody_eq_iff (hS : S.codec.Lawful) (hcr : S.crypto.Lawful) {env : CallEnv}
    {body src : Body} {encrypted : Bool} (hsrc : S.sourceOf env body encrypted = some src)
    {blocks : List Bytes} (hblocks : bodyBlocks S.blockSize src = (blocks, false))
    (contentType : Str) (userMetadata : UserMeta) (etagOverride : Option Str)
    {bucket key : Str} {vid : Option Str}
    (hsum : Unmistaken S site s (rObjV bucket key vid) blocks) :
    (site.run (S.readBody bucket key vid
      (S.xlFor env blocks contentType userMetadata encrypted etagOverride)) s).1 =
      .ok body.data ↔
    (0 < S.blockSize ∨ src.data = []) ∧
      (encrypted = true → Crypto.sealable body = body.data) ∧
      (blocks.flatten ≠ [] → ∀ i, i < blocks.length →
        S.codec.data ≤ holders S site s (rObjV bucket key vid) blocks i) := by
  obtain ⟨k, hk, hrun, hiff⟩ := run_streamingBody (s := s) hS hblocks env contentType
    userMetadata encrypted etagOverride hsum
  have henc : (S.xlFor env blocks contentType userMetadata encrypted
    etagOverride).encrypted = encrypted := rfl
  rw [readBody, Site.run_bind, hrun, Prog.andThen_ok, henc, ← hiff]
  cases encrypted with
  | false =>
      cases hsrc
      simp only [Bool.false_eq_true, if_false, Site.run_pure, Except.ok.injEq,
        false_implies, true_and]
      exact flatten_take_eq_iff hblocks hk
  | true =>
      simp only [if_true, forall_true_left]
      rw [← decrypting_take_eq_iff hcr hsrc hblocks hk]
      cases S.crypto.decryptingReader (blocks.take k).flatten <;> simp

end ErasureStore

/-! ## Reading against the ledger -/

section

variable {n : Nat} {S : ErasureStore n} {root : Fin n → List Str} {bucket key : Str}
  {l : Ledger n} {s : Cluster n Doc}

/-- Metadata is that of the first reachable drive with a copy. -/
theorem Tracks.run_readXl (h : Tracks S root bucket key l s) (up : Fin n → Bool) :
    (Site.mk root up).run (readXl bucket key) s =
      (match (((List.finRange n).findSome? fun d => if up d then l.copy d else none).map
          S.putXl) with
        | some m => .ok m
        | none => .error .noSuchKey, s) := by
  have hdoc : ∀ d, docAt Doc.xl? (s d)
      (((rObjV bucket key none).joinStr XL_META).resolve (root d)) =
      (l.copy d).map S.putXl := by
    intro d
    have hpath : ((rObjV bucket key none).joinStr XL_META).resolve (root d) =
      (rObject bucket key).resolve (root d) ++ [XL_META] :=
      UnixPath.resolve_joinStr_atom atom_xlMeta _
    rw [hpath, docAt, file?, (h d).xl]
    cases l.copy d <;> rfl
  have hfirst : (firstUp ⟨root, up⟩ fun d => (l.copy d).map S.putXl) =
      ((List.finRange n).findSome? fun d => if up d then l.copy d else none).map
        S.putXl := by
    rw [firstUp, List.map_findSome?]
    congr 1
    funext d
    simp only [Function.comp_apply]
    split <;> rfl
  have hread : (Site.mk root up).run (readXlV bucket key none) s = _ :=
    run_readXlV bucket key none
  simp only [hdoc, hfirst] at hread
  exact hread

theorem Tracks.holders (h : Tracks S root bucket key l s) (up : Fin n → Bool)
    (c : PutCall n) (i : Nat) :
    ErasureStore.holders S ⟨root, up⟩ s (rObjV bucket key none) (S.putBlocks c).1 i =
      (List.finRange n).countP fun d => up d && decide (l.Holds S c i d) := by
  rw [ErasureStore.holders]
  congr 1
  funext d
  have hpath : ((rObjV bucket key none).joinStr PART).resolve (root d) =
    (rObject bucket key).resolve (root d) ++ [PART] :=
    UnixPath.resolve_joinStr_atom atom_part _
  have hshard : HoldsShard S ⟨root, up⟩ s (rObjV bucket key none) (S.putBlocks c).1 i d ↔
      up d = true ∧ l.Holds S c i d := by
    rw [HoldsShard, Ledger.Holds, hpath, shardAt, file?, (h d).part]
    cases l.copy d <;> rfl
  simp only [hshard, Bool.decide_and, Bool.decide_eq_true]

/-- With the drives as a ledger says, a put is read back exactly when it is still
there. -/
theorem Tracks.readsBack_iff (hS : S.codec.Lawful) (hsum : Function.Injective S.checksum)
    (hcr : S.crypto.Lawful) (h : Tracks S root bucket key l s) (up : Fin n → Bool)
    {c : PutCall n} (hended : (S.putBlocks c).2 = false) :
    S.ReadsBack ⟨root, up⟩ bucket key c (metaToObject key (S.putXl c)) s ↔
      l.StillThere S up c := by
  obtain ⟨src, hsrc⟩ : ∃ src, S.putSource c = some src := by
    rw [putBlocks] at hended
    cases hsrc : S.putSource c with
    | none => simp [hsrc] at hended
    | some src => exact ⟨src, rfl⟩
  have hblocks : bodyBlocks S.blockSize src = ((S.putBlocks c).1, false) := by
    rw [← hended, putBlocks, hsrc]
  have hsums : Unmistaken S ⟨root, up⟩ s (rObjV bucket key none) (S.putBlocks c).1 :=
    unmistaken_of_injective hsum _ _ _ _
  have hbody := run_readBody_eq_iff hS hcr hsrc hblocks c.contentType c.userMetadata none
    hsums
  simp only [h.holders] at hbody
  change ((Site.mk root up).run (S.readBody bucket key none (S.putXl c)) s).1 = _ ↔ _
    at hbody
  have hxl := h.run_readXl up
  constructor
  · rintro ⟨hrec, hget, -, -⟩
    have hnewest : ((List.finRange n).findSome? fun d =>
        if up d then l.copy d else none).map S.putXl = some (S.putXl c) := by
      rw [hxl] at hrec
      split at hrec
      · rename_i heq
        rw [heq, Except.ok.inj hrec]
      · cases hrec
    rw [hnewest] at hxl
    simp only at hxl
    rw [getObject, Site.run_bind, hxl, Prog.andThen_ok, Site.run_bind] at hget
    have hdata : ((Site.mk root up).run (S.readBody bucket key none (S.putXl c)) s).1 =
        .ok c.body.data := by
      generalize (Site.mk root up).run (S.readBody bucket key none (S.putXl c)) s = r
        at hget ⊢
      obtain ⟨r, s'⟩ := r
      cases r with
      | error e => cases hget
      | ok b =>
          simp only [Prog.andThen_ok, Site.run_pure, Except.ok.injEq, Prod.mk.injEq,
            true_and] at hget
          rw [hget]
    obtain ⟨hstored, hwhole, hshards⟩ := hbody.1 hdata
    refine ⟨fun src' hsrc' => ?_, hwhole, hnewest, hshards⟩
    rw [hsrc] at hsrc'
    cases hsrc'
    exact hstored
  · rintro ⟨hstored, hwhole, hnewest, hshards⟩
    have hdata := hbody.2 ⟨hstored src hsrc, hwhole, hshards⟩
    rw [hnewest] at hxl
    simp only at hxl
    refine ⟨by rw [hxl], ?_, ?_, ?_⟩
    · rw [getObject, Site.run_bind, hxl, Prog.andThen_ok, Site.run_bind]
      generalize (Site.mk root up).run (S.readBody bucket key none (S.putXl c)) s = r
        at hdata ⊢
      obtain ⟨r, s'⟩ := r
      cases hdata
      rfl
    · rw [headObject, Site.run_bind, hxl]
      rfl
    · exact size_xlFor hcr hsrc hblocks (hstored src hsrc) hwhole c.contentType
        c.userMetadata none

end

/-! ## After a history -/

section

variable {n : Nat} {S : ErasureStore n} {root : Fin n → List Str} {bucket key : Str}

/-- After every history of puts on a key of an unversioned bucket, and whichever
drives a read can reach, the put acknowledged last is read back exactly when
the drives that can be reached still have it. -/
theorem ErasureStore.acked_readsBack_iff (hS : S.codec.Lawful)
    (hsum : Function.Injective S.checksum) (hcr : S.crypto.Lawful)
    (hb : validateBucketName bucket = .ok ()) {s₀ s : Cluster n Doc}
    (hvac : ∀ d, Vacant (s₀ d) ((rObject bucket key).resolve (root d)))
    (hoff : ∀ d, docAt Doc.status? (s₀ d)
      ((rBucketCfg bucket VERSIONING).resolve (root d)) = none)
    (calls : List (PutCall n)) {c : PutCall n} {m : ObjectMeta}
    (hrun : S.runPuts root bucket key calls (s₀, none) = (s, some (c, m)))
    (up : Fin n → Bool) :
    S.ReadsBack ⟨root, up⟩ bucket key c m s ↔
      ((Ledger.fresh fun d => (s₀ d).isDir ((rBucket bucket).resolve (root d))).afterAll
        S calls).StillThere S up c := by
  by_cases hk : validateKey key = .ok ()
  · have hfollows := Follows.runPuts hS hb hk calls
      (⟨Tracks.fresh hvac hoff, rfl, fun _ h => by cases h⟩ :
        Follows S root bucket key _ (s₀, none))
    rw [hrun] at hfollows
    obtain ⟨htracks, hacked, hended⟩ := hfollows
    obtain ⟨c', hc', hm⟩ := Option.map_eq_some_iff.1 hacked.symm
    cases hm
    exact htracks.readsBack_iff hS hsum hcr up (hended _ hc')
  · rw [runPuts_invalid hk] at hrun
    cases hrun

end

/-- A put of `data` on three drives. -/
def trioPut (up : Fin 3 → Bool) (data : Bytes) (env : CallEnv) : PutCall 3 :=
  ⟨up, env, .ofBytes data, [], [], false⟩

/-- Two puts of a key, the second while drive 0 cannot be reached. -/
def laggingPuts : List (PutCall 3) :=
  [trioPut (fun _ => true) [1, 2, 3, 4, 5] (callAt 'a' 1 isHexLower_a),
    trioPut (fun d => d ≠ 0) [7, 8] (callAt 'b' 2 isHexLower_b)]

/-- The history of these puts, from a cluster with just the bucket. -/
def laggingState : PutState 3 :=
  ErasureStore.trio.runPuts topRoot "docs".toList "key".toList laggingPuts
    (withBucket "docs".toList, none)

/-- With drive 0 out of reach, the second put is read back. -/
theorem acked_readsBack_without_lagging :
    ErasureStore.trio.ReadsBack ⟨topRoot, fun d => d ≠ 0⟩ "docs".toList "key".toList
      (trioPut (fun d => d ≠ 0) [7, 8] (callAt 'b' 2 rfl))
      (metaToObject "key".toList (ErasureStore.trio.putXl
        (trioPut (fun d => d ≠ 0) [7, 8] (callAt 'b' 2 rfl)))) laggingState.1 :=
  (ErasureStore.acked_readsBack_iff ErasureStore.trio_lawful spell_injective
    Crypto.tagged_lawful (by decide +kernel) (by decide +kernel) (by decide +kernel)
    laggingPuts (Prod.ext rfl (by decide +kernel)) fun d => d ≠ 0).2 (by decide +kernel)

/-- With every drive back, the two that hold the second put's copy are outvoted by
drive 0, which missed it: the older bytes are read. -/
theorem acked_stale :
    laggingState.2 = some (trioPut (fun d => d ≠ 0) [7, 8] (callAt 'b' 2 rfl),
      metaToObject "key".toList (ErasureStore.trio.putXl
        (trioPut (fun d => d ≠ 0) [7, 8] (callAt 'b' 2 rfl)))) ∧
    ErasureStore.trio.codec.data ≤
      tally (fun d : Fin 3 => (trioPut (fun d => d ≠ 0) [7, 8] (callAt 'b' 2 rfl)).up d &&
        true) ∧
    ((Site.mk topRoot fun _ => true).run (ErasureStore.trio.getObject "docs".toList
      "key".toList) laggingState.1).1.toOption.map Prod.snd = some [1, 2, 3, 4, 5] ∧
    ¬ ErasureStore.trio.ReadsBack ⟨topRoot, fun _ => true⟩ "docs".toList "key".toList
      (trioPut (fun d => d ≠ 0) [7, 8] (callAt 'b' 2 rfl))
      (metaToObject "key".toList (ErasureStore.trio.putXl
        (trioPut (fun d => d ≠ 0) [7, 8] (callAt 'b' 2 rfl)))) laggingState.1 :=
  ⟨by decide +kernel, by decide +kernel, by decide +kernel,
    fun h => absurd h.get (by decide +kernel)⟩

end Kerplace
