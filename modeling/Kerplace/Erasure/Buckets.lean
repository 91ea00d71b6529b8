/-
# `Kerplace.Erasure.Buckets` — when an erasure store removes a bucket

Whether a bucket is empty is asked of a listing of one object: the first key some
reachable drive has a current `kp.meta` of, and then only if that can be read.  Removing
the bucket takes all there is below its directory.
-/
import Kerplace.Erasure.KeyRuns
import Kerplace.Erasure.Deletes

namespace Kerplace

open FileTree Prog

namespace ErasureStore

variable {n : Nat} {site : Site n} {bucket : Str} {s : Cluster n Doc}

/-- What the reachable drives' walks of a bucket find. -/
def entriesUp (site : Site n) (bucket : Str) (s : Cluster n Doc) : List (List Str × Bool) :=
  ((List.ofFn fun d => if site.up d then
      some ((s d).walk ((rBucket bucket).resolve (site.root d))) else none).flatMap
    fun e => e.getD []).foldl (fun out e => if e ∈ out then out else out ++ [e]) []

/-- The first key a listing comes to. -/
def firstKey (site : Site n) (bucket : Str) (s : Cluster n Doc) : Option Str :=
  (((entriesUp site bucket s).filterMap currentKey).insertionSort (· ≤ ·)).head?

/-- The first key of the bucket has metadata that can be read. -/
def FirstReadable (site : Site n) (bucket : Str) (s : Cluster n Doc) : Prop :=
  ∃ key m, firstKey site bucket s = some key ∧
    site.run (readXl bucket key) s = (.ok m, s)

/-- No drive has a file below the bucket's directory: no object, no archived version, no
history, listed or not. -/
def Emptied (site : Site n) (bucket : Str) (s : Cluster n Doc) : Prop :=
  ∀ d q, (rBucket bucket).resolve (site.root d) <+: q → (s d).file? q = none

theorem run_entries : site.run (walkUnion bucket) s = (.ok (entriesUp site bucket s), s) := by
  have hwalk : ∀ d t, site.onTree d (Drive.walk (J := Doc) (rBucket bucket)) t =
      (if site.up d then some (t.walk ((rBucket bucket).resolve (site.root d))) else none,
        t) := by
    intro d t
    cases hup : site.up d with
    | false =>
        rw [Site.onTree, hup]
        rfl
    | true =>
        rw [Site.onTree_up hup, LocalDrive.exec_walk]
        rfl
  unfold walkUnion
  rw [Site.run_bind, Site.run_eachDrive]
  simp only [hwalk, andThen_ok, Site.run_pure]
  rfl

theorem pageKeys_one (keys : List Str) :
    (pageKeys [] none none none 1 keys ⟨[], [], 0, false, none⟩).chosen = keys.take 1 := by
  cases keys with
  | nil => rfl
  | cons key keys =>
      show (pageKeys [] none none none 1 keys ⟨[], [key], 1, false, none⟩).chosen = [key]
      cases keys with
      | nil => rfl
      | cons key' keys => rfl

/-- A listing of one object. -/
theorem run_listOne (hbucket : bucketUp site bucket s = true) :
    ∃ listing, site.run (listObjectsV2 bucket [] none none none 1) s = (.ok listing, s) ∧
      (listing.objects.isEmpty = false ↔ FirstReadable site bucket s) := by
  have hfilter : ((entriesUp site bucket s).filterMap currentKey).filter
      (fun k => List.isPrefixOf [] k) = (entriesUp site bucket s).filterMap currentKey :=
    List.filter_eq_self.2 fun _ _ => rfl
  unfold FirstReadable firstKey
  rw [listObjectsV2, Site.run_bind, run_headBucket, hbucket, if_pos rfl, andThen_ok,
    Site.run_bind, run_entries, andThen_ok]
  dsimp only
  rw [hfilter, Site.run_bind, pageKeys_one]
  cases ((entriesUp site bucket s).filterMap currentKey).insertionSort (· ≤ ·) with
  | nil =>
      refine ⟨_, rfl, ?_⟩
      simp
  | cons key keys =>
      obtain ⟨r, hread⟩ : ∃ r, site.run (readXl bucket key) s = (r, s) :=
        ⟨_, run_readXlV bucket key none⟩
      rw [List.take_succ_cons, List.take_zero, listedObjects, Site.run_bind, Site.run_outcome,
        hread, andThen_ok]
      cases r with
      | error e =>
          refine ⟨_, rfl, ?_⟩
          simp [hread]
      | ok m =>
          refine ⟨_, rfl, ?_⟩
          simp [hread]

/-- What removing a bucket's directory and configuration does. -/
def removeBucket (bucket : Str) : EStore n Unit := do
  let _ ← eachDrive fun _ => do
    let _ ← Drive.removeDirAll (rBucket bucket)
    Drive.removeDirAll (rCfgDir bucket)

theorem run_removeBucket : ∃ s', site.run (removeBucket bucket) s = (.ok (), s') := by
  unfold removeBucket
  rw [Site.run_bind, Site.run_eachDrive, andThen_ok]
  exact ⟨_, rfl⟩

theorem run_deleteBucket_found (hfound : existsUp site (rBucket bucket) s = true) :
    site.run (deleteBucket bucket) s =
      andThen (site.run (listObjectsV2 bucket [] none none none 1) s) fun listing s' =>
        if listing.objects.isEmpty then site.run (removeBucket bucket) s'
        else (.error .bucketNotEmpty, s') := by
  rw [deleteBucket, Site.run_bind, run_metaStatAny, andThen_ok, hfound]
  refine (Site.run_bind (listObjectsV2 bucket [] none none none 1) _ s).trans ?_
  congr 1
  funext listing s'
  cases listing.objects.isEmpty with
  | true => rfl
  | false => rfl

/-- `delete_bucket` removes a bucket that some reachable drive has and whose first key
cannot be read; in any other case it fails, and changes nothing. -/
theorem run_deleteBucket :
    ((site.run (deleteBucket bucket) s).1 = .ok () ↔
        bucketUp site bucket s = true ∧ ¬ FirstReadable site bucket s) ∧
      ((site.run (deleteBucket bucket) s).1 ≠ .ok () →
        (site.run (deleteBucket bucket) s).2 = s) := by
  cases hbucket : bucketUp site bucket s with
  | false =>
      have hfail : ∃ e, site.run (deleteBucket bucket) s = (.error e, s) := by
        cases hfound : existsUp site (rBucket bucket) s with
        | false =>
            refine ⟨.noSuchBucket, ?_⟩
            rw [deleteBucket, Site.run_bind, run_metaStatAny, andThen_ok, hfound]
            rfl
        | true =>
            refine ⟨.noSuchBucket, ?_⟩
            rw [run_deleteBucket_found hfound, listObjectsV2, Site.run_bind, run_headBucket,
              hbucket]
            rfl
      obtain ⟨e, he⟩ := hfail
      rw [he]
      exact ⟨⟨fun h => (by cases h), fun h => (by cases h.1)⟩, fun _ => rfl⟩
  | true =>
      have hfound : existsUp site (rBucket bucket) s = true := by
        obtain ⟨d, hd, hup⟩ := List.any_eq_true.1 hbucket
        rw [Bool.and_eq_true, isDir_iff] at hup
        exact List.any_eq_true.2 ⟨d, hd, by simp [hup.1, hup.2]⟩
      obtain ⟨listing, hlist, hempty⟩ := run_listOne hbucket
      obtain ⟨s', hremove⟩ := run_removeBucket (s := s)
      rw [run_deleteBucket_found hfound, hlist, andThen_ok]
      cases hl : listing.objects.isEmpty with
      | true =>
          rw [if_pos rfl, hremove]
          refine ⟨⟨fun _ => ⟨rfl, fun hfirst => ?_⟩, fun _ => rfl⟩, fun h => absurd rfl h⟩
          rw [hempty.2 hfirst] at hl
          cases hl
      | false =>
          rw [if_neg (by simp)]
          exact ⟨⟨fun h => (by cases h), fun h => absurd (hempty.1 hl) h.2⟩, fun _ => rfl⟩

/-- Deleting the bucket destroys nothing, and changes nothing if it fails. -/
def DeletesSafely (site : Site n) (bucket : Str) (s : Cluster n Doc) : Prop :=
  ((site.run (deleteBucket bucket) s).1 = .ok () → Emptied site bucket s) ∧
    ((site.run (deleteBucket bucket) s).1 ≠ .ok () → (site.run (deleteBucket bucket) s).2 = s)

theorem deletesSafely_iff :
    DeletesSafely site bucket s ↔
      (bucketUp site bucket s = false ∨ FirstReadable site bucket s ∨ Emptied site bucket s) := by
  obtain ⟨hok, herr⟩ := run_deleteBucket (s := s)
  unfold DeletesSafely
  rw [hok]
  constructor
  · rintro ⟨hsafe, -⟩
    by_cases hbucket : bucketUp site bucket s = true
    · by_cases hfirst : FirstReadable site bucket s
      · exact .inr (.inl hfirst)
      · exact .inr (.inr (hsafe ⟨hbucket, hfirst⟩))
    · exact .inl (Bool.eq_false_iff.2 hbucket)
  · intro h
    refine ⟨fun ⟨hbucket, hfirst⟩ => ?_, herr⟩
    rcases h with h | h | h
    · rw [h] at hbucket
      cases hbucket
    · exact absurd h hfirst
    · exact h

end ErasureStore

end Kerplace
