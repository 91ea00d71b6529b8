/-
# `Kerplace.Erasure.Ledger` — what a history of puts leaves on the drives

A history of puts on one key of an unversioned bucket, each with its own set
of reachable drives, is followed by a ledger: which put each drive holds a copy
of, and which was acknowledged last.  The ledger is computed from the calls
alone (`Ledger.after`), and the drives follow it (`Follows.runPuts`).
-/
import Kerplace.Erasure.Put
import Kerplace.Erasure.Places
import Mathlib.Data.Fintype.Basic

namespace Kerplace

open FileTree ErasureStore

/-- A put on some key: the drives it can reach, and its arguments. -/
structure PutCall (n : Nat) where
  up : Fin n → Bool
  env : CallEnv
  body : Body
  contentType : Str
  userMetadata : UserMeta
  encrypt : Bool
  deriving DecidableEq

namespace ErasureStore

variable {n : Nat} (S : ErasureStore n)

/-- What a put shards, if it gets that far. -/
def putSource (c : PutCall n) : Option Body :=
  S.sourceOf c.env c.body (S.shouldEncrypt c.encrypt)

/-- The blocks a put stores, and whether its body broke off. -/
def putBlocks (c : PutCall n) : List Bytes × Bool :=
  match S.putSource c with
  | some src => bodyBlocks S.blockSize src
  | none => ([], true)

/-- The metadata a put records. -/
def putXl (c : PutCall n) : XlMeta :=
  S.xlFor c.env (S.putBlocks c).1 c.contentType c.userMetadata (S.shouldEncrypt c.encrypt)
    none

/-- A history's state: the cluster, and the last acknowledged put with what it
returned. -/
abbrev PutState (n : Nat) := Cluster n Doc × Option (PutCall n × ObjectMeta)

/-- Run one put of a history. -/
def runPut (root : Fin n → List Str) (bucket key : Str) (st : PutState n) (c : PutCall n) :
    PutState n :=
  match (Site.mk root c.up).run
    (S.putObject c.env bucket key c.body c.contentType c.userMetadata c.encrypt) st.1 with
  | (.ok m, s) => (s, some (c, m))
  | (.error _, s) => (s, st.2)

/-- Run a history of puts. -/
def runPuts (root : Fin n → List Str) (bucket key : Str) (calls : List (PutCall n))
    (st : PutState n) : PutState n :=
  calls.foldl (S.runPut root bucket key) st

end ErasureStore

/-! ## The ledger -/

/-- Which drives have the bucket, which put each drive holds a copy of, and the
put acknowledged last. -/
structure Ledger (n : Nat) where
  bucket : Fin n → Bool
  copy : Fin n → Option (PutCall n)
  acked : Option (PutCall n)

namespace Ledger

variable {n : Nat} (S : ErasureStore n)

/-- Nothing written yet. -/
def fresh (bucket : Fin n → Bool) : Ledger n := ⟨bucket, fun _ => none, none⟩

/-- Whether a put gets as far as its drives: some reachable one has the bucket,
and a data key could be minted. -/
def admits (l : Ledger n) (c : PutCall n) : Bool :=
  ((List.finRange n).any fun d => c.up d && l.bucket d) && (S.putSource c).isSome

/-- What a put on a valid key makes of the ledger.  One whose body breaks off
only makes directories; one below the write quorum also destroys what the
drives it reached held; any other leaves them its copy. -/
def after (l : Ledger n) (c : PutCall n) : Ledger n :=
  if l.admits S c then
    let bucket d := l.bucket d || c.up d
    if (S.putBlocks c).2 then { l with bucket := bucket }
    else if tally c.up < S.codec.data + 1 then
      { l with bucket := bucket, copy := fun d => if c.up d then none else l.copy d }
    else ⟨bucket, fun d => if c.up d then some c else l.copy d, some c⟩
  else l

/-- The ledger of a history. -/
def afterAll (l : Ledger n) (calls : List (PutCall n)) : Ledger n :=
  calls.foldl (after S) l

end Ledger

/-! ## The drives follow the ledger -/

/-- Nothing stands where an object's directory and files would go. -/
structure Vacant (t : Tree Doc) (dir : List Str) : Prop where
  path : ∀ q, q <+: dir → t.file? q = none
  tmp : t.look (dir ++ [PART_TMP]) = none
  part : t.look (dir ++ [PART]) = none
  xl : t.look (dir ++ [XL_META]) = none

instance (t : Tree Doc) (dir : List Str) : Decidable (Vacant t dir) :=
  decidable_of_iff ((∀ q ∈ dir.inits, t.file? q = none) ∧
    t.look (dir ++ [PART_TMP]) = none ∧ t.look (dir ++ [PART]) = none ∧
    t.look (dir ++ [XL_META]) = none)
    ⟨fun ⟨h₁, h₂, h₃, h₄⟩ => ⟨fun q hq => h₁ q ((List.mem_inits q dir).2 hq), h₂, h₃, h₄⟩,
      fun h => ⟨fun q hq => h.path q ((List.mem_inits q dir).1 hq), h.tmp, h.part, h.xl⟩⟩

/-- Drive `d` has the bucket or not, holds the given put's copy or none, and has no
versioning status for the bucket. -/
structure DriveTracks {n : Nat} (S : ErasureStore n) (root : List Str)
    (bucket key : Str) (d : Fin n) (has : Bool) (copy : Option (PutCall n))
    (t : Tree Doc) : Prop where
  there : t.isDir ((rBucket bucket).resolve root) = has
  path : ∀ q, q <+: (rObject bucket key).resolve root → t.file? q = none
  tmp : t.look ((rObject bucket key).resolve root ++ [PART_TMP]) ≠ some .dir
  xl : t.look ((rObject bucket key).resolve root ++ [XL_META]) =
    copy.map fun c => .file (.doc (.xl (S.putXl c)))
  part : t.look ((rObject bucket key).resolve root ++ [PART]) =
    copy.map fun c => .file (.raw (S.partOf d (S.putBlocks c).1))
  status : docAt Doc.status? t ((rBucketCfg bucket VERSIONING).resolve root) = none

/-- The drives are as the ledger says. -/
def Tracks {n : Nat} (S : ErasureStore n) (root : Fin n → List Str) (bucket key : Str)
    (l : Ledger n) (s : Cluster n Doc) : Prop :=
  ∀ d, DriveTracks S (root d) bucket key d (l.bucket d) (l.copy d) (s d)

section

variable {n : Nat} {S : ErasureStore n} {bucket key : Str}

namespace DriveTracks

variable {root : List Str} {d : Fin n} {has : Bool} {copy : Option (PutCall n)}
  {t t' : Tree Doc}

theorem open_ (h : DriveTracks S root bucket key d has copy t) :
    Open t ((rObject bucket key).resolve root) where
  path := h.path
  tmp := h.tmp
  part := by rw [h.part]; cases copy <;> simp
  xl := by rw [h.xl]; cases copy <;> simp

end DriveTracks

namespace Tracks

variable {root : Fin n → List Str} {l : Ledger n} {s : Cluster n Doc}

theorem fresh (hvac : ∀ d, Vacant (s d) ((rObject bucket key).resolve (root d)))
    (hoff : ∀ d, docAt Doc.status? (s d)
      ((rBucketCfg bucket VERSIONING).resolve (root d)) = none) :
    Tracks S root bucket key
      (.fresh fun d => (s d).isDir ((rBucket bucket).resolve (root d))) s := fun d =>
  ⟨rfl, (hvac d).path, by simp [(hvac d).tmp], (hvac d).xl, (hvac d).part, hoff d⟩

theorem bucketUp (h : Tracks S root bucket key l s) (up : Fin n → Bool) :
    ErasureStore.bucketUp ⟨root, up⟩ bucket s =
      (List.finRange n).any fun d => up d && l.bucket d := by
  simp only [ErasureStore.bucketUp, (h _).there]

theorem modeOf (h : Tracks S root bucket key l s) (up : Fin n → Bool) :
    ErasureStore.modeOf ⟨root, up⟩ bucket s = .off := by
  have hdocs : docsUp ⟨root, up⟩ Doc.status?
      (rBucketCfg bucket VERSIONING) s = List.replicate n none := by
    rw [docsUp, ← List.ofFn_const]
    congr 1
    funext d
    simp only [(h d).status, ite_self]
  have hbest : ∀ m, bestStatus (List.replicate m none) = [] := fun m => by
    induction m with
    | zero => rfl
    | succ m ih => rw [List.replicate_succ, bestStatus, List.foldl_cons]; exact ih
  rw [ErasureStore.modeOf, hdocs, hbest]
  rfl

end Tracks

end

/-! ## What a put does to one drive -/

section

variable {n : Nat} {S : ErasureStore n} {bucket key : Str} {root : List Str} {d : Fin n}
  {has : Bool} {copy : Option (PutCall n)} {t t' : Tree Doc}

theorem objDir_apart_versioning (hb : validateBucketName bucket = .ok ())
    (hk : validateKey key = .ok ()) :
    Apart ((rObject bucket key).resolve root)
      ((rBucketCfg bucket VERSIONING).resolve root) :=
  let site : Site 1 := ⟨fun _ => root, fun _ => true⟩
  show Apart (site.objDir bucket key 0) _ from
    site.objDir_apart_cfg (validateBucketName_atom hb) (ne_sysDir hb)
      (validateKey_plain hk) (validateBucketName_atom hb) atom_versioning

theorem rBucket_above (hb : validateBucketName bucket = .ok ())
    (hk : validateKey key = .ok ()) :
    (rBucket bucket).resolve root <+: (rObject bucket key).resolve root ∧
      (rBucket bucket).resolve root ≠ (rObject bucket key).resolve root := by
  have hatom := validateBucketName_atom hb
  rw [resolve_rBucket hatom, resolve_rObject hatom (validateKey_plain hk)]
  refine ⟨?_, fun h => ?_⟩
  · rw [List.prefix_append_right_inj]
    exact ⟨UnixPath.compsOf key, rfl⟩
  · rw [List.append_cancel_left_eq] at h
    exact validateKey_comps hk (List.cons.inj h).2.symm

theorem isDir_of_look {q : List Str} (h : t.look q = some .dir) : t.isDir q = true :=
  isDir_iff.2 h

theorem file?_of_dir {q : List Str} (h : t.look q = some .dir) : t.file? q = none := by
  rw [file?, h]

theorem DriveTracks.staged (hb : validateBucketName bucket = .ok ())
    (hk : validateKey key = .ok ()) (h : DriveTracks S root bucket key d has copy t)
    {tmp : Bytes} (hst : Staged t t' ((rObject bucket key).resolve root) tmp) :
    DriveTracks S root bucket key d true copy t' where
  there := isDir_of_look (hst.path (rBucket_above hb hk).1)
  path _ hq := file?_of_dir (hst.path hq)
  tmp := by rw [hst, if_neg not_snoc_prefix, if_pos rfl]; simp
  xl := by
    rw [hst, if_neg not_snoc_prefix, if_neg (by simp only [List.append_cancel_left_eq]; decide),
      h.xl]
  part := by
    rw [hst, if_neg not_snoc_prefix, if_neg (by simp only [List.append_cancel_left_eq]; decide),
      h.part]
  status := (docAt_congr _ (hst.frame (objDir_apart_versioning hb hk))).trans h.status

theorem DriveTracks.wiped (hb : validateBucketName bucket = .ok ())
    (hk : validateKey key = .ok ()) (h : DriveTracks S root bucket key d has copy t)
    (hw : Wiped t t' ((rObject bucket key).resolve root)) :
    DriveTracks S root bucket key d true none t' where
  there := isDir_of_look (hw.path (rBucket_above hb hk).1 (rBucket_above hb hk).2)
  path q hq := by
    by_cases hne : q = (rObject bucket key).resolve root
    · rw [file?, hw, if_pos (hne ▸ List.prefix_refl _)]
    · exact file?_of_dir (hw.path hq hne)
  tmp := by rw [hw, if_pos (List.prefix_append _ _)]; simp
  xl := by rw [hw, if_pos (List.prefix_append _ _)]; rfl
  part := by rw [hw, if_pos (List.prefix_append _ _)]; rfl
  status := (docAt_congr _ (hw.frame (objDir_apart_versioning hb hk))).trans h.status

/-- A write that went through leaves its own copy. -/
theorem DriveTracks.published (hb : validateBucketName bucket = .ok ())
    (hk : validateKey key = .ok ()) (h : DriveTracks S root bucket key d has copy t)
    {c : PutCall n} (hp : Published t t' ((rObject bucket key).resolve root)
      (S.partOf d (S.putBlocks c).1) (S.putXl c)) :
    DriveTracks S root bucket key d true (some c) t' where
  there := isDir_of_look (hp.path (rBucket_above hb hk).1)
  path _ hq := file?_of_dir (hp.path hq)
  tmp := by
    rw [hp, if_neg not_snoc_prefix, if_neg (by simp only [List.append_cancel_left_eq]; decide),
      if_neg (by simp only [List.append_cancel_left_eq]; decide), if_pos rfl]
    simp
  xl := by
    rw [hp, if_neg not_snoc_prefix, if_neg (by simp only [List.append_cancel_left_eq]; decide),
      if_pos rfl]
    rfl
  part := by rw [hp, if_neg not_snoc_prefix, if_pos rfl]; rfl
  status := (docAt_congr _ (hp.frame (objDir_apart_versioning hb hk))).trans h.status

end

/-! ## Histories -/

section

variable {n : Nat} {S : ErasureStore n} {root : Fin n → List Str} {bucket key : Str}
  {l : Ledger n} {st : PutState n}

/-- A history's state is as its ledger says, and only a put whose body ended has
been acknowledged. -/
structure Follows (S : ErasureStore n) (root : Fin n → List Str) (bucket key : Str)
    (l : Ledger n) (st : PutState n) : Prop where
  tracks : Tracks S root bucket key l st.1
  acked : st.2 = l.acked.map fun c => (c, metaToObject key (S.putXl c))
  ended : ∀ c, l.acked = some c → (S.putBlocks c).2 = false

theorem Tracks.of_write {c : PutCall n} {s s' : Cluster n Doc}
    {copy : Fin n → Option (PutCall n)} {acked : Option (PutCall n)}
    (h : Tracks S root bucket key l s)
    (hdown : ∀ d, c.up d = false → s' d = s d ∧ copy d = l.copy d)
    (hup : ∀ d, c.up d = true → DriveTracks S (root d) bucket key d true (copy d) (s' d)) :
    Tracks S root bucket key ⟨fun d => l.bucket d || c.up d, copy, acked⟩ s' := by
  intro d
  cases hd : c.up d with
  | true => simpa only [hd, Bool.or_true] using hup d hd
  | false =>
      obtain ⟨hs, hcopy⟩ := hdown d hd
      simpa only [hs, hcopy, hd, Bool.or_false] using h d

/-- One put: the drives keep following the ledger. -/
theorem Follows.runPut (hS : S.codec.Lawful) (hb : validateBucketName bucket = .ok ())
    (hk : validateKey key = .ok ()) (h : Follows S root bucket key l st) (c : PutCall n) :
    Follows S root bucket key (l.after S c) (S.runPut root bucket key st c) := by
  obtain ⟨htracks, hacked, hended⟩ := h
  have hatom := validateBucketName_atom hb
  have hplain := validateKey_plain hk
  have hadmits : l.admits S c =
      (ErasureStore.bucketUp ⟨root, c.up⟩ bucket st.1 && (S.putSource c).isSome) := by
    rw [htracks.bucketUp]
    rfl
  unfold ErasureStore.runPut Ledger.after
  rw [run_putObject, hk, htracks.modeOf, hadmits]
  cases hup : ErasureStore.bucketUp ⟨root, c.up⟩ bucket st.1 with
  | false => exact ⟨htracks, hacked, hended⟩
  | true =>
  cases hsrc : S.putSource c with
  | none =>
      rw [putSource] at hsrc
      simp only [hsrc]
      exact ⟨htracks, hacked, hended⟩
  | some src =>
  have hblocks : S.putBlocks c = bodyBlocks S.blockSize src := by rw [putBlocks, hsrc]
  have hopen : ∀ d, (Site.mk root c.up).up d = true →
      Open (st.1 d) ((Site.mk root c.up).objDir bucket key d) :=
    fun d _ => (htracks d).open_
  have hends := run_writeSharded hS hopen
    (fun d => Site.objDir_ne_nil hatom hplain) c.env src c.contentType c.userMetadata
    (S.shouldEncrypt c.encrypt) none
  rw [← hblocks] at hends
  change WriteEnds _ _ _ _ _ (S.putXl c) _ _ at hends
  rw [putSource] at hsrc
  simp only [hsrc, Bool.true_eq_false, if_false, if_true, Option.isSome_some, Bool.and_self]
  generalize Site.run _ (S.writeSharded _ _ _ _ _ _ _ _) _ = r at hends ⊢
  cases hbroken : (S.putBlocks c).2 with
  | true =>
      obtain ⟨herr, hst⟩ := hends.broken hbroken
      obtain ⟨r, s'⟩ := r
      cases herr
      refine ⟨?_, hacked, hended⟩
      exact htracks.of_write (fun d hd => ⟨hends.down d hd, rfl⟩)
        fun d hd => (htracks d).staged hb hk (hst d hd)
  | false =>
  simp only [Bool.false_eq_true, if_false]
  by_cases hq : tally c.up < S.codec.data + 1
  · obtain ⟨herr, hw⟩ := hends.short hbroken hq
    obtain ⟨r, s'⟩ := r
    cases herr
    rw [if_pos hq]
    refine ⟨?_, hacked, hended⟩
    refine htracks.of_write (fun d hd => ⟨hends.down d hd, ?_⟩) fun d hd => ?_
    · simp only [hd, Bool.false_eq_true, if_false]
    · simp only [hd, if_true]
      exact (htracks d).wiped hb hk (hw d hd)
  · obtain ⟨hok, hp⟩ := hends.done hbroken (Nat.not_lt.1 hq)
    obtain ⟨r, s'⟩ := r
    cases hok
    rw [if_neg hq]
    refine ⟨?_, rfl, fun c' hc' => ?_⟩
    · refine htracks.of_write (fun d hd => ⟨hends.down d hd, ?_⟩) fun d hd => ?_
      · simp only [hd, Bool.false_eq_true, if_false]
      · simp only [hd, if_true]
        exact (htracks d).published hb hk (hp d hd)
    · cases hc'
      exact hbroken

theorem Follows.runPuts (hS : S.codec.Lawful) (hb : validateBucketName bucket = .ok ())
    (hk : validateKey key = .ok ()) (calls : List (PutCall n))
    (h : Follows S root bucket key l st) :
    Follows S root bucket key (l.afterAll S calls) (S.runPuts root bucket key calls st) := by
  induction calls generalizing l st with
  | nil => exact h
  | cons c calls ih => exact ih (h.runPut hS hb hk c)

/-- A key that is not valid is never written. -/
theorem runPuts_invalid (hk : validateKey key ≠ .ok ()) (calls : List (PutCall n))
    (st : PutState n) : S.runPuts root bucket key calls st = st := by
  induction calls generalizing st with
  | nil => rfl
  | cons c calls ih =>
      have hstep : S.runPut root bucket key st c = st := by
        unfold ErasureStore.runPut
        rw [run_putObject]
        cases ErasureStore.bucketUp ⟨root, c.up⟩ bucket st.1 with
        | false => rfl
        | true =>
            cases hval : validateKey key with
            | ok u => exact absurd hval hk
            | error e => rfl
      rw [ErasureStore.runPuts, List.foldl_cons, hstep]
      exact ih st

end

end Kerplace
