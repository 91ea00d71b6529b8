/-
# `Kerplace.Handlers.ForceDelete` — draining a bucket before it is deleted

The console's forced delete lists a bucket, deletes what the page shows, and lists again
until a page is empty.  What the deletions answer is thrown away, and nothing bounds the
rounds: a page that stays listed is gone over for ever.

No deletion puts a key on the listing, whatever the drives do under it, and one that they
carry out takes its key off.  So without versioning the loop ends once as many deletions are
carried out as the listing has keys, and fewer need not do.  Under versioning a deletion takes
its key off only where the history knows of the current copy: any other is listed for ever.
-/
import Mathlib.Data.Nat.Count
import Kerplace.Handlers.LifecycleStores

namespace Kerplace

open FileTree Prog ErasureStore UnixPath

/-! ## The loop -/

/-- A deletion: what it is given, and how the drives behave under it. -/
structure DeletionCall (n : Nat) where
  env : CallEnv
  drives : (o : StoreOp n Doc) → Cluster n Doc → o.Ans × Cluster n Doc

/-- What a deletion leaves; its result is thrown away. -/
def DeletionCall.run {n : Nat} (c : DeletionCall n) (bucket key : Str) (s : Cluster n Doc) :
    Cluster n Doc :=
  (Prog.runE c.drives (deleteObject c.env bucket key) s).2

/-- A deletion that is carried out. -/
theorem DeletionCall.run_carried {n : Nat} {site : Site n} {c : DeletionCall n}
    (h : c.drives = site.step) (bucket key : Str) (s : Cluster n Doc) :
    c.run bucket key s = (site.run (deleteObject c.env bucket key) s).2 := by
  rw [DeletionCall.run, h]
  rfl

/-! ## Disks that became read-only -/

/-- Whether an operation only looks. -/
def DriveOp.looksOnly : DriveOp Doc → Bool
  | .online | .read _ | .readAt _ _ _ | .stat _ | .readDir _ | .walk _ => true
  | _ => false

/-- Disks that became read-only: they show what is on them, and refuse every change. -/
def readOnly {n : Nat} (root : Fin n → List Str) :
    (o : StoreOp n Doc) → Cluster n Doc → o.Ans × Cluster n Doc
  | .drive d o, s =>
      (if o.looksOnly then (LocalDrive.step (root d) o (s d)).1 else o.failed, s)
  | .lock _, s => ((), s)
  | .unlock _, s => ((), s)

theorem misbehaves_readOnly {n : Nat} (root : Fin n → List Str) :
    Misbehaves root (readOnly root) where
  drive d o s := by
    refine ⟨_, s d, by rw [Function.update_eq_self]; rfl, ?_, .inr fun _ => .inl rfl⟩
    split
    · exact .inl rfl
    · exact .inr rfl
  lock _ _ := rfl
  unlock _ _ := rfl

theorem readOnly_keeps {n : Nat} (root : Fin n → List Str) {α : Type}
    (p : Prog (StoreOp n Doc) StoreOp.Ans α) (s : Cluster n Doc) :
    (Prog.exec (readOnly root) p s).2 = s := by
  induction p generalizing s with
  | ret a => rfl
  | call o k ih =>
      have hsame : (readOnly root o s).2 = s := by cases o <;> rfl
      show (Prog.exec (readOnly root) (k (readOnly root o s).1) (readOnly root o s).2).2 = s
      rw [hsame, ih]

namespace ForceDelete

variable {n : Nat} (site : Site n) (calls : Nat → DeletionCall n) (bucket : Str)

/-- The deletions of a page, the first of them the `i`-th of the loop. -/
def drainPage : Nat → List Str → Cluster n Doc → Cluster n Doc
  | _, [], s => s
  | i, key :: keys, s => drainPage (i + 1) keys ((calls i).run bucket key s)

/-- One round: nothing where the loop is left, on an empty page or an error. -/
def drainRound : Nat × Cluster n Doc → Option (Nat × Cluster n Doc)
  | (i, s) =>
      match site.run (listObjectsV2 bucket [] none none none 1000) s with
      | (.ok listing, s') =>
          if listing.objects = [] then none
          else some (i + listing.objects.length,
            drainPage calls bucket i (listing.objects.map ObjectMeta.key) s')
      | (.error _, _) => none

/-- The state before each round, if the loop comes to it: how many deletions there were, and
what is on the drives. -/
def before (s : Cluster n Doc) : Nat → Option (Nat × Cluster n Doc)
  | 0 => some (0, s)
  | r + 1 => (before s r).bind (drainRound site calls bucket)

/-- The loop ends. -/
def Finishes (s : Cluster n Doc) : Prop := ∃ r, before site calls bucket s r = none

/-- The loop ends whatever the drives do under its deletions, as long as those of `done` are
carried out: the drives that the listing reaches do there what they are asked, and the others
stay out of reach. -/
def FinishesWith (done : Nat → Prop) (s : Cluster n Doc) : Prop :=
  ∀ calls : Nat → DeletionCall n, (∀ i, Misbehaves site.root (calls i).drives) →
    (∀ i, done i → (calls i).drives = site.step) → Finishes site calls bucket s

/-! ## What a page shows -/

section

variable {site : Site n} {calls : Nat → DeletionCall n} {bucket : Str} {s s' : Cluster n Doc}

theorem run_listedObjects_readable (keys : List Str) :
    site.run (listedObjects keys bucket) s =
      (.ok (keys.filterMap fun k =>
        (site.run (readXl bucket k) s).1.toOption.map (metaToObject k)), s) := by
  induction keys with
  | nil => rfl
  | cons k keys ih =>
      obtain ⟨r, hread⟩ : ∃ r, site.run (readXl bucket k) s = (r, s) :=
        ⟨_, run_readXlV bucket k none⟩
      rw [listedObjects, Site.run_bind, Site.run_outcome, hread, andThen_ok, Site.run_bind, ih,
        andThen_ok, List.filterMap_cons, hread]
      cases r <;> rfl

/-- The first page of a bucket's keys. -/
def pageOf (site : Site n) (bucket : Str) (s : Cluster n Doc) : Page :=
  pageKeys [] none none none 1000 (((keysUp site bucket s).filter fun k =>
    ([] : Str).isPrefixOf k).insertionSort (· ≤ ·)) ⟨[], [], 0, false, none⟩

theorem pageOf_subset {k : Str} (hk : k ∈ (pageOf site bucket s).chosen) :
    k ∈ keysUp site bucket s :=
  List.mem_of_mem_filter ((List.mem_insertionSort _).1 (chosen_subset hk))

/-- The objects of the first page. -/
def shownOf (site : Site n) (bucket : Str) (s : Cluster n Doc) : List ObjectMeta :=
  (pageOf site bucket s).chosen.filterMap fun k =>
    (site.run (readXl bucket k) s).1.toOption.map (metaToObject k)

theorem run_page (hbucket : bucketUp site bucket s = true) :
    ∃ listing, site.run (listObjectsV2 bucket [] none none none 1000) s = (.ok listing, s) ∧
      listing.objects = shownOf site bucket s := by
  refine ⟨⟨shownOf site bucket s, (pageOf site bucket s).common,
    (pageOf site bucket s).truncated, (pageOf site bucket s).next⟩, ?_, rfl⟩
  rw [listObjectsV2, Site.run_bind, run_headBucket, hbucket, if_pos rfl, andThen_ok,
    Site.run_bind, run_entries, andThen_ok]
  dsimp only
  rw [Site.run_bind]
  show andThen (site.run (listedObjects (pageOf site bucket s).chosen bucket) s) _ = _
  rw [run_listedObjects_readable]
  rfl

theorem run_page_missing (hbucket : bucketUp site bucket s = false) :
    site.run (listObjectsV2 bucket [] none none none 1000) s = (.error .noSuchBucket, s) := by
  rw [listObjectsV2, Site.run_bind, run_headBucket, hbucket, if_neg (by simp)]
  rfl

/-- A round that is not the last one. -/
theorem drainRound_eq_some {i : Nat} {y : Nat × Cluster n Doc} :
    drainRound site calls bucket (i, s) = some y ↔
      bucketUp site bucket s = true ∧ shownOf site bucket s ≠ [] ∧
        y = (i + (shownOf site bucket s).length,
          drainPage calls bucket i ((shownOf site bucket s).map ObjectMeta.key) s) := by
  cases hbucket : bucketUp site bucket s with
  | false =>
      rw [drainRound, run_page_missing hbucket]
      exact ⟨fun h => (by cases h), fun h => (by cases h.1)⟩
  | true =>
      obtain ⟨listing, hrun, hshown⟩ := run_page hbucket
      rw [drainRound, hrun]
      dsimp only
      rw [hshown]
      by_cases hempty : shownOf site bucket s = []
      · rw [if_pos hempty]
        exact ⟨fun h => (by cases h), fun h => absurd hempty h.2.1⟩
      · rw [if_neg hempty, Option.some.injEq]
        exact ⟨fun h => ⟨rfl, hempty, h.symm⟩, fun h => h.2.2.symm⟩

/-! ### The keys that are shown -/

/-- The keys of the first page's objects. -/
def shownKeys (site : Site n) (bucket : Str) (s : Cluster n Doc) : List Str :=
  (shownOf site bucket s).map ObjectMeta.key

theorem shownKeys_sublist :
    (shownKeys site bucket s).Sublist (pageOf site bucket s).chosen := by
  unfold shownKeys shownOf
  induction (pageOf site bucket s).chosen with
  | nil => exact .slnil
  | cons k ks ih =>
      rw [List.filterMap_cons]
      cases (site.run (readXl bucket k) s).1.toOption with
      | none => exact ih.cons k
      | some m => exact ih.cons_cons k

theorem shownKeys_subset : shownKeys site bucket s ⊆ keysUp site bucket s :=
  fun _ hk => pageOf_subset (shownKeys_sublist.subset hk)

variable (site bucket s) in
/-- What the first page takes of the keys, in their order. -/
theorem chosen_part : ∃ rest, ((keysUp site bucket s).filter fun k =>
      ([] : Str).isPrefixOf k).insertionSort (· ≤ ·) = (pageOf site bucket s).chosen ++ rest ∧
    (rest ≠ [] → 1000 ≤ (pageOf site bucket s).chosen.length) := by
  obtain ⟨part, rest, hsplit, hpage⟩ := isPage_first [] none 1000
    (((keysUp site bucket s).filter fun k => ([] : Str).isPrefixOf k).insertionSort (· ≤ ·))
  have hchosen : (pageOf site bucket s).chosen = part := by
    rw [pageOf, hpage.chosen, plainKeys]
    exact List.filter_eq_self.2 fun _ _ => rfl
  have hcommon : (pageOf site bucket s).common = [] := by
    rw [pageOf, hpage.common]
    exact List.eq_nil_iff_forall_not_mem.2 fun c hc => by
      obtain ⟨k, -, hroll⟩ := mem_prefixesOf.1 hc
      cases hroll
  have hfull := hpage.full
  rw [show pageKeys [] none none none 1000 _ _ = pageOf site bucket s from rfl, hcommon] at hfull
  exact ⟨rest, hchosen ▸ hsplit, hfull⟩

theorem shownKeys_nodup (hatoms : AtomsStored site bucket s) :
    (shownKeys site bucket s).Nodup := by
  obtain ⟨rest, hsplit, -⟩ := chosen_part site bucket s
  have hsorted : (((keysUp site bucket s).filter fun k =>
      ([] : Str).isPrefixOf k).insertionSort (· ≤ ·)).Nodup :=
    (List.perm_insertionSort _ _).nodup_iff.2 ((keysUp_nodup_of_atoms hatoms).filter _)
  rw [hsplit] at hsorted
  exact shownKeys_sublist.nodup hsorted.of_append_left

/-- A page of readable keys is empty only if there are none. -/
theorem shownOf_ne (hread : AllReadable site bucket s) (hne : keysUp site bucket s ≠ []) :
    shownOf site bucket s ≠ [] := by
  obtain ⟨rest, hsplit, hfull⟩ := chosen_part site bucket s
  obtain ⟨k, hk⟩ := List.exists_mem_of_ne_nil _ hne
  have hlisted : k ∈ (pageOf site bucket s).chosen ++ rest := by
    rw [← hsplit, List.mem_insertionSort]
    exact List.mem_filter.2 ⟨hk, rfl⟩
  have hchosen : (pageOf site bucket s).chosen ≠ [] := by
    intro hnil
    have hrest : rest ≠ [] := fun h0 => by
      rw [hnil, h0] at hlisted
      cases hlisted
    have hlong := hfull hrest
    rw [hnil] at hlong
    cases hlong
  obtain ⟨k', hk'⟩ := List.exists_mem_of_ne_nil _ hchosen
  obtain ⟨m, hm⟩ := hread k' (pageOf_subset hk')
  exact List.ne_nil_of_mem (List.mem_filterMap.2 ⟨k', hk', by rw [hm]; rfl⟩)

theorem length_shownKeys : (shownKeys site bucket s).length = (shownOf site bucket s).length :=
  List.length_map _

theorem length_shownOf_le (hatoms : AtomsStored site bucket s) :
    (shownOf site bucket s).length ≤ (keysUp site bucket s).length :=
  length_shownKeys ▸ ((shownKeys_nodup hatoms).subperm shownKeys_subset).length_le

theorem shownKey_of_mem (hatoms : AtomsStored site bucket s) {k : Str}
    (hk : k ∈ shownKeys site bucket s) : ShownKey k :=
  ((mem_keysUp hatoms).1 (shownKeys_subset hk)).1

/-! ## Without versioning -/

/-- Every document has its shape, every name is a file name, and no drive that the listing
reaches says that versioning is on. -/
structure Off (site : Site n) (bucket : Str) (s : Cluster n Doc) : Prop where
  docs : ProperCluster s
  atoms : AtomsStored site bucket s
  mode : modeOf site bucket s = .off

theorem bucketUp_of_stored {d : Fin n} (hup : site.up d = true) {names : List Str}
    (hne : names ≠ []) (hstored : (storedAt site.root bucket s d names).isSome = true) :
    bucketUp site bucket s = true := by
  obtain ⟨c, hc⟩ := Option.isSome_iff_exists.1 hstored
  rw [bucketUp, List.any_eq_true]
  refine ⟨d, List.mem_finRange d, ?_⟩
  rw [hup, Bool.true_and]
  exact isDir_iff.2 (look_ancestor hne (file?_eq_some.1 hc))

/-- Versioning stays off where drives lose what they say of it. -/
theorem modeOf_off_of_loses (hmode : modeOf site bucket s = .off)
    (h : ∀ d, Loses ((rBucketCfg bucket VERSIONING).resolve (site.root d)) (s d) (s' d)) :
    modeOf site bucket s' = .off := by
  rw [modeOf_eq_off] at hmode ⊢
  intro d st hup hdoc
  refine hmode d st hup ?_
  rcases h d with hsame | hgone
  · rwa [docAt, hsame] at hdoc
  · rw [docAt, hgone] at hdoc
    cases hdoc

section

variable (hb : validateBucketName bucket = .ok ())
  (hcalls : ∀ i, Misbehaves site.root (calls i).drives)
include hb hcalls

/-- No deletion puts a key on the listing, and one that is carried out takes its own off. -/
theorem Off.run (h : Off site bucket s) (i : Nat) {key : Str} (hkey : ShownKey key) :
    Off site bucket ((calls i).run bucket key s) ∧
      keysUp site bucket ((calls i).run bucket key s) ⊆ keysUp site bucket s ∧
      ((calls i).drives = site.step → key ∉ keysUp site bucket ((calls i).run bucket key s)) := by
  have hatom := validateBucketName_atom hb
  obtain ⟨hdocs, hsheds⟩ := deleteObject_sheds hatom hkey.descends (hcalls i) (calls i).env h.docs
  have hmode : modeOf site bucket ((calls i).run bucket key s) = .off :=
    modeOf_off_of_loses h.mode (deleteObject_loses (hcalls i) _ h.docs fun d =>
      (objectRegion_spares hatom hkey.descends (site.objDir_apart_cfg hatom (ne_sysDir hb)
        hkey.descends hatom atom_versioning)).file)
  refine ⟨⟨hdocs, h.atoms.sheds hsheds, hmode⟩, keysUp_sheds h.atoms hsheds, fun hdone hin => ?_⟩
  obtain ⟨-, d, hup, hstored⟩ := (mem_keysUp (h.atoms.sheds hsheds)).1 hin
  have hrun := DeletionCall.run_carried hdone bucket key s
  cases hbucket : bucketUp site bucket s with
  | true =>
      have hgone : storedAt site.root bucket ((calls i).run bucket key s) d (metaNames key) =
          none := by
        rw [hrun, storedAt_metaNames hatom hkey.descends,
          file?_deleteObject_off hatom hkey.descends hbucket h.mode]
        exact if_pos ⟨hup, (below_objDir hatom hkey hkey (by decide) d).2 (List.prefix_refl _)⟩
      exact absurd hgone (Option.isSome_iff_ne_none.1 hstored)
  | false =>
      have hsame : (site.run (deleteObject (calls i).env bucket key) s).2 = s := by
        rw [deleteObject, Site.run_bind, run_headBucket, hbucket, if_neg Bool.false_ne_true]
        rfl
      have hthere : (storedAt site.root bucket ((calls i).run bucket key s) d
          (metaNames key)).isSome = true := hstored
      rw [hrun, hsame] at hthere
      rw [bucketUp_of_stored hup (by simp [metaNames]) hthere] at hbucket
      cases hbucket

variable {done : Nat → Prop} [DecidablePred done]
  (hdone : ∀ i, done i → (calls i).drives = site.step)
include hdone

/-- Of the keys of a page, those whose deletions are carried out are not on the next. -/
theorem Off.drainPage (keys : List Str) :
    ∀ (i : Nat) (s : Cluster n Doc), Off site bucket s → (∀ k ∈ keys, ShownKey k) →
      Off site bucket (drainPage calls bucket i keys s) ∧
        keysUp site bucket (ForceDelete.drainPage calls bucket i keys s) ⊆
          keysUp site bucket s ∧
        ∃ gone : List Str, gone.Sublist keys ∧
          gone.length + Nat.count done i = Nat.count done (i + keys.length) ∧
          ∀ k ∈ gone, k ∉ keysUp site bucket (ForceDelete.drainPage calls bucket i keys s) := by
  induction keys with
  | nil =>
      exact fun i s h _ => ⟨h, fun _ hk => hk, [], .slnil, Nat.zero_add _, fun _ hk => nomatch hk⟩
  | cons key keys ih =>
      intro i s h hkeys
      obtain ⟨hrun, hsub, hgone⟩ := h.run hb hcalls i (hkeys key List.mem_cons_self)
      obtain ⟨hrest, hsub', gone, hpage, hcount, hout⟩ :=
        ih (i + 1) _ hrun fun k hk => hkeys k (List.mem_cons_of_mem _ hk)
      have hlen : i + (key :: keys).length = i + 1 + keys.length := by
        rw [List.length_cons]
        omega
      refine ⟨hrest, fun k hk => hsub (hsub' hk), ?_⟩
      rw [hlen, ← hcount, Nat.count_succ]
      by_cases hi : done i
      · refine ⟨key :: gone, hpage.cons_cons key, ?_, fun k hk => ?_⟩
        · rw [if_pos hi, List.length_cons]
          omega
        · rcases List.mem_cons.1 hk with rfl | hk
          · exact fun hin => hgone (hdone i hi) (hsub' hin)
          · exact hout k hk
      · exact ⟨gone, hpage.cons key, by rw [if_neg hi, Nat.add_zero], hout⟩

/-- Before each round, as many keys are off the listing as deletions were carried out. -/
theorem Off.before {K : Nat} (h : Off site bucket s) (hK : (keysUp site bucket s).length = K) :
    ∀ (r : Nat) (x : Nat × Cluster n Doc), before site calls bucket s r = some x →
      Off site bucket x.2 ∧ r ≤ x.1 ∧
        (keysUp site bucket x.2).length + Nat.count done x.1 ≤ K := by
  intro r
  induction r with
  | zero =>
      intro x hx
      obtain rfl := Option.some.inj hx
      exact ⟨h, le_refl _, by rw [Nat.count_zero]; exact hK.le⟩
  | succ r ih =>
      intro y hy
      obtain ⟨⟨i, x⟩, hx, hround⟩ := Option.bind_eq_some_iff.1 hy
      obtain ⟨hoff, hle, hleft⟩ := ih _ hx
      obtain ⟨-, hshown, rfl⟩ := drainRound_eq_some.1 hround
      obtain ⟨hoff', hsub, gone, hpage, hcount, hout⟩ := hoff.drainPage hb hcalls hdone
        (shownKeys site bucket x) i x fun k hk => shownKey_of_mem hoff.atoms hk
      have hpos := List.length_pos_of_ne_nil hshown
      rw [length_shownKeys] at hcount
      refine ⟨hoff', by dsimp only at hle ⊢; omega, ?_⟩
      -- the keys that went and those that are left are different keys of the round's start
      have hnodup : (gone ++ keysUp site bucket
          (ForceDelete.drainPage calls bucket i (shownKeys site bucket x) x)).Nodup :=
        List.nodup_append.2 ⟨hpage.nodup (shownKeys_nodup hoff.atoms),
          keysUp_nodup_of_atoms hoff'.atoms, fun k hk k' hk' heq => hout k hk (heq ▸ hk')⟩
      have hfit := (hnodup.subperm (List.append_subset.2
        ⟨fun k hk => shownKeys_subset (hpage.subset hk), hsub⟩)).length_le
      rw [List.length_append] at hfit
      show (keysUp site bucket (ForceDelete.drainPage calls bucket i (shownKeys site bucket x)
        x)).length + Nat.count done (i + (shownOf site bucket x).length) ≤ K
      dsimp only at hleft
      omega

/-- The loop ends once as many deletions are carried out as the listing has keys. -/
theorem Off.finishes (h : Off site bucket s)
    {m : Nat} (hm : (keysUp site bucket s).length ≤ Nat.count done m) :
    Finishes site calls bucket s := by
  by_contra hnever
  have hgoes : ∀ r, ∃ x, ForceDelete.before site calls bucket s r = some x := fun r =>
    Option.ne_none_iff_exists'.1 fun hnone => hnever ⟨r, hnone⟩
  obtain ⟨⟨i, x⟩, hx⟩ := hgoes m
  obtain ⟨-, hle, hleft⟩ := h.before hb hcalls hdone rfl m _ hx
  have hempty : keysUp site bucket x = [] := by
    have hmono := Nat.count_monotone done hle
    exact List.eq_nil_of_length_eq_zero (by dsimp only at hleft hmono; omega)
  obtain ⟨y, hy⟩ := hgoes (m + 1)
  obtain ⟨z, hz, hround⟩ := Option.bind_eq_some_iff.1 hy
  obtain rfl := Option.some.inj (hx.symm.trans hz)
  obtain ⟨-, hshown, -⟩ := drainRound_eq_some.1 hround
  have hkeys : shownKeys site bucket x = [] :=
    List.eq_nil_of_subset_nil (hempty ▸ shownKeys_subset)
  exact hshown (List.map_eq_nil_iff.1 hkeys)

end

/-! ## Where a deletion takes one key -/

/-- In the states of `I` a listing shows every key, and a deletion that is carried out takes its
own key off it and no other. -/
structure TakesOne (site : Site n) (bucket : Str) (I : Cluster n Doc → Prop) : Prop where
  there : ∀ {s}, I s → bucketUp site bucket s = true
  readable : ∀ {s}, I s → AllReadable site bucket s
  atoms : ∀ {s}, I s → AtomsStored site bucket s
  delete : ∀ {s k}, I s → k ∈ keysUp site bucket s → ∀ env,
    I (site.run (deleteObject env bucket k) s).2 ∧
      ∀ k', k' ∈ keysUp site bucket (site.run (deleteObject env bucket k) s).2 ↔
        k' ∈ keysUp site bucket s ∧ k' ≠ k

/-- No key lies below another. -/
def Level (keys : List Str) : Prop :=
  ∀ k ∈ keys, ∀ k' ∈ keys, compsOf k <+: compsOf k' → k = k'

instance (keys : List Str) : Decidable (Level keys) :=
  inferInstanceAs (Decidable (∀ _ ∈ keys, ∀ _ ∈ keys, _ → _))

theorem takesOne_off (hb : validateBucketName bucket = .ok ()) :
    TakesOne site bucket fun s => Unversioned site bucket s ∧ Level (keysUp site bucket s) where
  there h := h.1.there
  readable h := h.1.readable
  atoms h := h.1.atoms
  delete := by
    rintro s k ⟨hu, hlevel⟩ hk env
    obtain ⟨hu', hshrunk⟩ :=
      (expiryStore_serves_off hb fun _ _ => env).delete hu hu hk (.inl hk)
    have hmem : ∀ k', k' ∈ keysUp site bucket (site.run (deleteObject env bucket k) s).2 ↔
        k' ∈ keysUp site bucket s ∧ k' ≠ k := fun k' =>
      (hshrunk.mem k').trans (and_congr_right fun hk' => not_congr
        ⟨fun hpre => (hlevel k hk k' hk' hpre).symm, fun heq => heq ▸ List.prefix_refl _⟩)
    exact ⟨⟨hu', fun a ha b hb' => hlevel a ((hmem a).1 ha).1 b ((hmem b).1 hb').1⟩, hmem⟩

theorem takesOne_versioned {S : ErasureStore n} (hb : validateBucketName bucket = .ok ()) :
    TakesOne site bucket (Versioned S site bucket) where
  there h := h.there
  readable h := h.readable
  atoms h := h.atoms
  delete := by
    intro s k hv hk env
    obtain ⟨hv', hshrunk⟩ :=
      (expiryStore_serves_versioned hb fun _ _ => env).delete hv hv hk (.inl hk)
    exact ⟨hv', fun k' => (hshrunk.mem k').trans (and_congr_right fun _ => ne_comm)⟩

section

variable {I : Cluster n Doc → Prop} (hI : TakesOne site bucket I) (done : Nat → Prop)
  [DecidablePred done]
include hI

omit [DecidablePred done] in
theorem TakesOne.length_delete (hs : I s) {k : Str} (hk : k ∈ keysUp site bucket s)
    (env : CallEnv) :
    (keysUp site bucket (site.run (deleteObject env bucket k) s).2).length + 1 =
      (keysUp site bucket s).length := by
  obtain ⟨hs', hmem⟩ := hI.delete hs hk env
  have hgone : k ∉ keysUp site bucket (site.run (deleteObject env bucket k) s).2 := fun hin =>
    ((hmem k).1 hin).2 rfl
  have hperm : (k :: keysUp site bucket (site.run (deleteObject env bucket k) s).2).Perm
      (keysUp site bucket s) := by
    refine (List.perm_ext_iff_of_nodup
      (List.nodup_cons.2 ⟨hgone, keysUp_nodup_of_atoms (hI.atoms hs')⟩)
      (keysUp_nodup_of_atoms (hI.atoms hs))).2 fun k' => ?_
    rw [List.mem_cons, hmem]
    constructor
    · rintro (rfl | hk')
      · exact hk
      · exact hk'.1
    · exact fun hk' => (em (k' = k)).imp_right fun hne => ⟨hk', hne⟩
  exact hperm.length_eq

/-- A page whose deletions are carried out or do nothing. -/
theorem TakesOne.drainPage (keys : List Str) :
    ∀ (i : Nat) (s : Cluster n Doc), I s → keys.Nodup → keys ⊆ keysUp site bucket s →
      (∀ j, i ≤ j → j < i + keys.length → (done j → (calls j).drives = site.step) ∧
        (¬ done j → ∀ key u, (calls j).run bucket key u = u)) →
      I (drainPage calls bucket i keys s) ∧
        (keysUp site bucket (ForceDelete.drainPage calls bucket i keys s)).length +
            Nat.count done (i + keys.length) =
          (keysUp site bucket s).length + Nat.count done i := by
  induction keys with
  | nil => exact fun i s hs _ _ _ => ⟨hs, rfl⟩
  | cons key keys ih =>
      intro i s hs hnodup hsub hdoes
      obtain ⟨hnew, hnodup⟩ := List.nodup_cons.1 hnodup
      have hkey : key ∈ keysUp site bucket s := hsub List.mem_cons_self
      have hkeys : keys ⊆ keysUp site bucket s := fun k hk => hsub (List.mem_cons_of_mem _ hk)
      have hlen : i + (key :: keys).length = i + 1 + keys.length := by
        rw [List.length_cons]
        omega
      obtain ⟨hcarried, hidle⟩ := hdoes i (le_refl i) (by omega)
      have hrest : ∀ j, i + 1 ≤ j → j < i + 1 + keys.length →
          (done j → (calls j).drives = site.step) ∧
            (¬ done j → ∀ key u, (calls j).run bucket key u = u) := fun j hj hj' =>
        hdoes j (by omega) (by omega)
      rw [hlen]
      by_cases hi : done i
      · obtain ⟨hs', hmem⟩ := hI.delete hs hkey (calls i).env
        rw [← DeletionCall.run_carried (hcarried hi)] at hs' hmem
        obtain ⟨hend, hcount⟩ := ih (i + 1) _ hs' hnodup
          (fun k hk => (hmem k).2 ⟨hkeys hk, fun heq => hnew (heq ▸ hk)⟩) hrest
        have hless := hI.length_delete hs hkey (calls i).env
        rw [← DeletionCall.run_carried (hcarried hi)] at hless
        rw [Nat.count_succ, if_pos hi] at hcount
        exact ⟨hend, by rw [ForceDelete.drainPage]; omega⟩
      · have hrun := hidle hi key s
        obtain ⟨hend, hcount⟩ := ih (i + 1) s hs hnodup hkeys hrest
        rw [Nat.count_succ, if_neg hi, Nat.add_zero] at hcount
        rw [ForceDelete.drainPage, hrun]
        exact ⟨hend, hcount⟩

/-- A round of such deletions. -/
theorem TakesOne.drainRound {i : Nat} (hs : I s)
    (hdoes : ∀ j, i ≤ j → j < i + (shownOf site bucket s).length →
      (done j → (calls j).drives = site.step) ∧
        (¬ done j → ∀ key u, (calls j).run bucket key u = u))
    {y : Nat × Cluster n Doc} (hround : drainRound site calls bucket (i, s) = some y) :
    I y.2 ∧ (keysUp site bucket y.2).length + Nat.count done y.1 =
      (keysUp site bucket s).length + Nat.count done i := by
  obtain ⟨-, -, rfl⟩ := drainRound_eq_some.1 hround
  have hpage := hI.drainPage done (shownKeys site bucket s) i s hs
    (shownKeys_nodup (hI.atoms hs)) shownKeys_subset (by rw [length_shownKeys]; exact hdoes)
  rw [length_shownKeys] at hpage
  exact hpage

omit [DecidablePred done] in
/-- The loop ends where as many deletions as the listing has keys are carried out from the
start on. -/
theorem TakesOne.finishes (hs : I s)
    (hfirst : ∀ j < (keysUp site bucket s).length, (calls j).drives = site.step) :
    Finishes site calls bucket s := by
  have hbefore : ∀ r x, before site calls bucket s r = some x → I x.2 ∧ r ≤ x.1 ∧
      (keysUp site bucket x.2).length + x.1 = (keysUp site bucket s).length := by
    intro r
    induction r with
    | zero =>
        intro x hx
        obtain rfl := Option.some.inj hx
        exact ⟨hs, le_refl _, rfl⟩
    | succ r ih =>
        intro y hy
        obtain ⟨⟨i, x⟩, hx, hround⟩ := Option.bind_eq_some_iff.1 hy
        obtain ⟨hx', hle, hleft⟩ := ih _ hx
        obtain ⟨-, hshown, hy'⟩ := drainRound_eq_some.1 hround
        have hfit : (shownOf site bucket x).length ≤ (keysUp site bucket x).length :=
          length_shownOf_le (hI.atoms hx')
        have hpos := List.length_pos_of_ne_nil hshown
        obtain ⟨hy'', hcount⟩ := hI.drainRound (fun _ => True) hx'
          (fun j _ hj => ⟨fun _ => hfirst j (by dsimp only at hleft hj; omega),
            fun hno => absurd trivial hno⟩) hround
        rw [Nat.count_true, Nat.count_true] at hcount
        refine ⟨hy'', ?_, by rw [hcount]; exact hleft⟩
        rw [hy']
        dsimp only at hle ⊢
        omega
  by_contra hnever
  obtain ⟨x, hx⟩ := Option.ne_none_iff_exists'.1 fun hnone =>
    hnever ⟨(keysUp site bucket s).length + 1, hnone⟩
  obtain ⟨-, hle, hleft⟩ := hbefore _ x hx
  omega

variable {done} in
/-- With fewer, the loop goes on for ever where the drives refuse the others. -/
theorem TakesOne.count_of_finishes (hs : I s) (hfin : FinishesWith site bucket done s) :
    ∃ m, (keysUp site bucket s).length ≤ Nat.count done m := by
  by_contra hfew
  push Not at hfew
  let calls : Nat → DeletionCall n := fun i =>
    ⟨callAt 'a' 0 isHexLower_a, if done i then site.step else readOnly site.root⟩
  have hcarried : ∀ i, done i → (calls i).drives = site.step := fun i hi => if_pos hi
  have hidle : ∀ i, ¬ done i → ∀ key u, (calls i).run bucket key u = u := fun i hi key u => by
    have hdrives : (calls i).drives = readOnly site.root := if_neg hi
    rw [DeletionCall.run, hdrives]
    exact readOnly_keeps _ _ _
  have hmis : ∀ i, Misbehaves site.root (calls i).drives := fun i => by
    by_cases hi : done i
    · rw [hcarried i hi]
      exact Site.misbehaves site
    · rw [show (calls i).drives = readOnly site.root from if_neg hi]
      exact misbehaves_readOnly _
  have hfor : ∀ r, ∃ x, before site calls bucket s r = some x ∧ I x.2 ∧
      (keysUp site bucket x.2).length + Nat.count done x.1 = (keysUp site bucket s).length := by
    intro r
    induction r with
    | zero => exact ⟨(0, s), rfl, hs, by rw [Nat.count_zero]; rfl⟩
    | succ r ih =>
        obtain ⟨⟨i, x⟩, hx, hx', hleft⟩ := ih
        have hne : keysUp site bucket x ≠ [] := fun hnil => by
          have hlt := hfew i
          dsimp only at hleft
          rw [hnil, List.length_nil, Nat.zero_add] at hleft
          omega
        have hround : ForceDelete.drainRound site calls bucket (i, x) = some _ :=
          drainRound_eq_some.2 ⟨hI.there hx', shownOf_ne (hI.readable hx') hne, rfl⟩
        obtain ⟨hy, hcount⟩ := hI.drainRound done hx' (fun j _ _ => ⟨hcarried j, hidle j⟩) hround
        refine ⟨_, ?_, hy, hcount.trans hleft⟩
        rw [before, hx]
        exact hround
  obtain ⟨r, hend⟩ := hfin calls hmis hcarried
  obtain ⟨x, hx, -⟩ := hfor r
  rw [hend] at hx
  cases hx

end

end

/-! ## Under versioning -/

section

variable {site calls bucket} {S : ErasureStore n} {s : Cluster n Doc}

/-- A key whose history does not know of its current copy stays listed through a page. -/
theorem drainPage_stuck (hb : validateBucketName bucket = .ok ())
    (hdone : ∀ i, (calls i).drives = site.step) {k : Str} (keys : List Str) :
    ∀ (i : Nat) (s : Cluster n Doc), Archived S site bucket s → keys.Nodup →
      keys ⊆ keysUp site bucket s → k ∈ keysUp site bucket s ∧ ¬ CurrentKnown site bucket s k →
      Archived S site bucket (drainPage calls bucket i keys s) ∧
        k ∈ keysUp site bucket (drainPage calls bucket i keys s) ∧
          ¬ CurrentKnown site bucket (drainPage calls bucket i keys s) k := by
  induction keys with
  | nil => exact fun i s h _ _ hstuck => ⟨h, hstuck⟩
  | cons key keys ih =>
      intro i s h hnodup hsub hstuck
      obtain ⟨hnew, hnodup⟩ := List.nodup_cons.1 hnodup
      have hkey : key ∈ keysUp site bucket s := hsub List.mem_cons_self
      rw [drainPage, DeletionCall.run_carried (hdone i)]
      refine ih (i + 1) _ (h.delete hb hkey _).1 hnodup (fun k' hk' => ?_)
        (h.stuck hb hkey hstuck.1 hstuck.2 _)
      exact (h.listed hb hkey _ k').2 ⟨hsub (List.mem_cons_of_mem _ hk'),
        fun heq => absurd (heq ▸ hk') hnew⟩

/-- Where a key's history does not know of the current copy that is listed, the loop goes on for
ever on drives that do all they are asked. -/
theorem known_of_finishes (hb : validateBucketName bucket = .ok ())
    (h : Archived S site bucket s) {done : Nat → Prop}
    (hfin : FinishesWith site bucket done s) :
    ∀ k ∈ keysUp site bucket s, CurrentKnown site bucket s k := by
  intro k hk
  by_contra hno
  let calls : Nat → DeletionCall n := fun _ => ⟨callAt 'a' 0 isHexLower_a, site.step⟩
  have hdone : ∀ i, (calls i).drives = site.step := fun _ => rfl
  have hfor : ∀ r, ∃ x, before site calls bucket s r = some x ∧ Archived S site bucket x.2 ∧
      k ∈ keysUp site bucket x.2 ∧ ¬ CurrentKnown site bucket x.2 k := by
    intro r
    induction r with
    | zero => exact ⟨(0, s), rfl, h, hk, hno⟩
    | succ r ih =>
        obtain ⟨⟨i, x⟩, hx, hx', hstuck⟩ := ih
        have hshown := shownOf_ne (hx'.readable (validateBucketName_atom hb))
          (List.ne_nil_of_mem hstuck.1)
        have hpage := drainPage_stuck hb hdone (shownKeys site bucket x) i x hx'
          (shownKeys_nodup hx'.atoms) shownKeys_subset hstuck
        refine ⟨(i + (shownOf site bucket x).length,
          drainPage calls bucket i (shownKeys site bucket x) x), ?_, hpage⟩
        rw [before, hx]
        exact drainRound_eq_some.2 ⟨hx'.there, hshown, rfl⟩
  obtain ⟨r, hend⟩ := hfin calls (fun _ => Site.misbehaves site) fun _ _ => rfl
  obtain ⟨x, hx, -⟩ := hfor r
  rw [hend] at hx
  cases hx

end

/-- Where no deletion changes anything and something is listed, the loop never ends. -/
theorem never_finishes {site : Site n} {calls : Nat → DeletionCall n} {bucket : Str}
    {s : Cluster n Doc} (hkeep : ∀ i key, (calls i).run bucket key s = s)
    (hbucket : bucketUp site bucket s = true) (hshown : shownOf site bucket s ≠ []) :
    ¬ Finishes site calls bucket s := by
  have hpage : ∀ (keys : List Str) i, drainPage calls bucket i keys s = s := by
    intro keys
    induction keys with
    | nil => exact fun _ => rfl
    | cons key keys ih => exact fun i => by rw [drainPage, hkeep, ih]
  have hfor : ∀ r, ∃ i, before site calls bucket s r = some (i, s) := by
    intro r
    induction r with
    | zero => exact ⟨0, rfl⟩
    | succ r ih =>
        obtain ⟨i, hi⟩ := ih
        refine ⟨i + (shownOf site bucket s).length, ?_⟩
        rw [before, hi]
        exact drainRound_eq_some.2 ⟨hbucket, hshown, by rw [hpage]⟩
  rintro ⟨r, hr⟩
  obtain ⟨i, hi⟩ := hfor r
  rw [hi] at hr
  cases hr

end ForceDelete

open ForceDelete

/-- A forced delete's loop over a bucket without versioning ends once as many of its deletions
as the listing has keys are carried out, whatever the drives do under the others; where no key
lies below another, fewer are not enough for that.  Under versioning, where the first ones are
carried out, as many as there are keys, it ends exactly if each history knows of its key's
current copy; and there, too, fewer are not enough. -/
theorem forceDelete_finishes_iff {n : Nat} (S : ErasureStore n) {site : Site n} {bucket : Str}
    (hb : validateBucketName bucket = .ok ()) {s : Cluster n Doc} (hs : ProperCluster s)
    (hnames : ∀ d, AtomNames (s d)) (done : Nat → Prop) [DecidablePred done] :
    (modeOf site bucket s = .off →
      ∀ m, (keysUp site bucket s).length ≤ Nat.count done m → FinishesWith site bucket done s) ∧
    (Unversioned site bucket s → Level (keysUp site bucket s) →
      (FinishesWith site bucket done s ↔
        ∃ m, (keysUp site bucket s).length ≤ Nat.count done m)) ∧
    (Archived S site bucket s →
      ((∀ i < (keysUp site bucket s).length, done i) →
        (FinishesWith site bucket done s ↔
          ∀ k ∈ keysUp site bucket s, CurrentKnown site bucket s k)) ∧
      (FinishesWith site bucket done s →
        ∃ m, (keysUp site bucket s).length ≤ Nat.count done m)) := by
  have hatom := validateBucketName_atom hb
  have hoff : modeOf site bucket s = .off → ∀ m, (keysUp site bucket s).length ≤
      Nat.count done m → FinishesWith site bucket done s := fun hmode m hm calls hcalls hdone =>
    Off.finishes hb hcalls hdone ⟨hs, atomsStored hnames, hmode⟩ hm
  refine ⟨hoff, fun hu hlevel => ⟨(takesOne_off hb).count_of_finishes ⟨hu, hlevel⟩,
    fun ⟨m, hm⟩ => hoff hu.mode m hm⟩, fun ha => ⟨fun hfirst => ⟨fun hfin => ?_, fun hknown => ?_⟩,
      fun hfin => ?_⟩⟩
  · exact known_of_finishes hb ha hfin
  · exact fun calls _ hdone => (takesOne_versioned hb).finishes (ha.versioned hatom hknown)
      fun j hj => hdone j (hfirst j hj)
  · exact (takesOne_versioned hb).count_of_finishes
      (ha.versioned hatom (known_of_finishes hb ha hfin)) hfin

/-! ## Three drives -/

/-- Three drives with an object in an unversioned bucket. -/
def lonelyObject : Cluster 3 Doc :=
  (trioUp.run (ErasureStore.trio.putObject (callAt 'a' 1 isHexLower_a) "docs".toList "key".toList
    (.ofBytes [1, 2, 3]) [] [] false) (withBucket "docs".toList)).2

/-- A versioned object whose deletion one drive missed. -/
def missedMarker : Cluster 3 Doc :=
  ((keyMachine ErasureStore.trio topRoot "docs".toList "a".toList).step oneDayVersioned
    ⟨fun d => decide (d.val < 2), .delete (callAt 'b' 2 isHexLower_b)⟩).2

theorem archived_missedMarker :
    Archived ErasureStore.trio trioUp "docs".toList missedMarker := by
  have hkeys : keysUp trioUp "docs".toList missedMarker = ["a".toList] := by decide +kernel
  have hkept : Kept ErasureStore.trio topRoot "docs".toList "a".toList oneDayVersioned := by
    obtain ⟨K, hk, hK, -⟩ := versioned_oneDay.kept "a".toList (by decide +kernel)
    exact ⟨K, hk, hK⟩
  have hproper : ProperCluster missedMarker :=
    Site.run_proper (KeyCall.meetsE _) (fun _ h => h) (fun _ h => h) versioned_oneDay.docs
  refine ⟨hproper, atomsStored (by decide +kernel), by decide +kernel, by decide +kernel,
    fun k hk => ?_⟩
  rw [hkeys, List.mem_singleton] at hk
  subst hk
  exact hkept.step ErasureStore.trio_lawful (by decide) _

/-- Where every third deletion is carried out, two objects are drained; where only the first is,
they need not be.  A versioned object is drained by the first deletion, but not where a drive
that missed an earlier one has come back. -/
theorem forceDelete_finishes_trio :
    FinishesWith trioUp "docs".toList (fun i => i % 3 = 0) (twoDays "a".toList "b".toList) ∧
      ¬ FinishesWith trioUp "docs".toList (fun i => i = 0) (twoDays "a".toList "b".toList) ∧
      FinishesWith trioUp "docs".toList (fun i => i = 0) oneDayVersioned ∧
      ¬ FinishesWith trioUp "docs".toList (fun _ => True) missedMarker := by
  have hb : validateBucketName "docs".toList = .ok () := by decide
  have hatoms : ∀ d, AtomNames (twoDays "a".toList "b".toList d) := by decide +kernel
  have htwo : (keysUp trioUp "docs".toList (twoDays "a".toList "b".toList)).length = 2 := by
    decide +kernel
  have hone : (keysUp trioUp "docs".toList oneDayVersioned).length = 1 := by decide +kernel
  have hu : Unversioned trioUp "docs".toList (twoDays "a".toList "b".toList) :=
    unversioned_twoDays hatoms (by decide +kernel) (by decide +kernel) (by decide +kernel)
  have hthird := (forceDelete_finishes_iff ErasureStore.trio hb
    (properCluster_twoDays _ _) hatoms fun i => i % 3 = 0).1 hu.mode 4 (by rw [htwo]; decide)
  have hfirst := (forceDelete_finishes_iff ErasureStore.trio hb
    (properCluster_twoDays _ _) hatoms fun i => i = 0).2.1 hu (by decide +kernel)
  have hversioned := (forceDelete_finishes_iff ErasureStore.trio hb versioned_oneDay.docs
    (by decide +kernel) fun i => i = 0).2.2 versioned_oneDay.archived
  have hmissed := (forceDelete_finishes_iff ErasureStore.trio hb archived_missedMarker.docs
    (by decide +kernel) fun _ => True).2.2 archived_missedMarker
  refine ⟨hthird, fun hfin => ?_, (hversioned.1 fun i hi => by omega).2 (by decide +kernel),
    fun hfin => ?_⟩
  · obtain ⟨m, hm⟩ := hfirst.1 hfin
    rw [htwo] at hm
    cases m with
    | zero => exact absurd hm (by simp)
    | succ m => simp [Nat.count_succ'] at hm
  · have hknown := (hmissed.1 fun _ _ => trivial).1 hfin "a".toList (by decide +kernel)
    exact absurd hknown (by decide +kernel)

/-- On read-only disks every deletion reports success, and the loop never ends. -/
theorem forceDelete_never_ends :
    Misbehaves trioUp.root (readOnly topRoot) ∧
    (Prog.runE (readOnly topRoot) (deleteObject (callAt 'b' 2 rfl) "docs".toList "key".toList)
      lonelyObject).1.isOk = true ∧
    ¬ Finishes trioUp (fun _ => ⟨callAt 'b' 2 rfl, readOnly topRoot⟩) "docs".toList
      lonelyObject :=
  ⟨misbehaves_readOnly _, by decide +kernel,
    never_finishes (fun _ _ => readOnly_keeps _ _ _) (by decide +kernel) (by decide +kernel)⟩

end Kerplace
