/-
# `Kerplace.Fs.Buckets` — when a filesystem store removes a bucket

A bucket is taken for empty when its payload directory holds no file.  Then the trees of
its metadata, uploads, configuration and archived versions go with it.
-/
import Kerplace.Fs.Isolation
import Kerplace.Erasure.Buckets

namespace Kerplace

open FileTree Prog UnixPath

namespace FsStore

variable {root : List Str} {bucket : Str} {t : Tree FsDoc}

/-- Some file stands below the bucket's directory. -/
def Occupied (root : List Str) (bucket : Str) (t : Tree FsDoc) : Prop :=
  ∃ s, (t.file? ((bucketPath bucket).resolve root ++ s)).isSome = true

/-- The version tree of a bucket has no file: no archived version and no history. -/
def Unarchived (root : List Str) (bucket : Str) (t : Tree FsDoc) : Prop :=
  ∀ s, t.file? ((versionsRoot.joinStr bucket).resolve root ++ s) = none

/-- Deleting the bucket destroys no payload, archived version or history, and changes
nothing if it fails. -/
def DeletesSafely (root : List Str) (bucket : Str) (t : Tree FsDoc) : Prop :=
  (result root (deleteBucket bucket) t = .ok () →
      ¬ Occupied root bucket t ∧ Unarchived root bucket t) ∧
    (result root (deleteBucket bucket) t ≠ .ok () → after root (deleteBucket bucket) t = t)

theorem run_removeTrees (dirs : List UnixPath) :
    ∀ t : Tree FsDoc, ∃ t', runE (LocalDrive.step root) (removeTrees dirs) t = (.ok (), t') := by
  induction dirs with
  | nil => exact fun t => ⟨t, rfl⟩
  | cons dir dirs ih =>
      intro t
      rw [removeTrees, runE_bind, run_onDisk, andThen_ok]
      exact ih _

theorem run_orFail (e : S3Error) (p : DriveProg FsDoc Bool) (t : Tree FsDoc) :
    runE (LocalDrive.step root) (orFail e p) t =
      (if (p.exec (LocalDrive.step root) t).1 then .ok () else .error e,
        (p.exec (LocalDrive.step root) t).2) := by
  rw [orFail, runE_bind, run_onDisk, andThen_ok]
  cases (p.exec (LocalDrive.step root) t).1 <;> rfl

theorem any_walk_iff {p : List Str} (hp : t.look p = some .dir) :
    ((t.walk p).any Prod.snd = true) ↔ ∃ s, (t.file? (p ++ s)).isSome = true := by
  rw [List.any_eq_true]
  constructor
  · rintro ⟨⟨s, f⟩, hmem, hf⟩
    obtain ⟨-, n, -, hn⟩ := mem_walk.1 hmem
    exact ⟨s, hn ▸ hf⟩
  · rintro ⟨s, hs⟩
    obtain ⟨c, hc⟩ := Option.isSome_iff_exists.1 hs
    refine ⟨(s, true), mem_walk.2 ⟨fun h0 => ?_, .file c, file?_eq_some.1 hc, hs.symm⟩, rfl⟩
    rw [h0, List.append_nil, file?_eq_some, hp] at hc
    cases hc

/-- `delete_bucket` where the bucket is a directory. -/
theorem run_deleteBucket_dir (hlook : t.look ((bucketPath bucket).resolve root) = some .dir) :
    runE (LocalDrive.step root) (deleteBucket bucket) t =
      if (t.walk ((bucketPath bucket).resolve root)).any Prod.snd then
        (.error .bucketNotEmpty, t)
      else
        andThen (runE (LocalDrive.step root) (orFail (.internal "remove bucket")
          (Drive.removeDirAll (bucketPath bucket))) t) fun _ t' =>
            runE (LocalDrive.step root) (removeTrees [metaRoot.joinStr bucket,
              multipartRoot.joinStr bucket, bucketCfgDir bucket,
              versionsRoot.joinStr bucket]) t' := by
  rw [deleteBucket, runE_bind, run_onDisk, andThen_ok, LocalDrive.exec_stat, hlook]
  refine (runE_bind (onDisk (Drive.walk (bucketPath bucket))) _ t).trans ?_
  rw [run_onDisk, andThen_ok, LocalDrive.exec_walk]
  show runE (LocalDrive.step root) (if (t.walk ((bucketPath bucket).resolve root)).any Prod.snd
    then throw S3Error.bucketNotEmpty else _) t = _
  cases (t.walk ((bucketPath bucket).resolve root)).any Prod.snd with
  | true => rfl
  | false => exact runE_bind _ _ t

/-- `delete_bucket` removes a bucket whose directory holds no file; in any other case it
fails, and changes nothing. -/
theorem run_deleteBucket (hb : validateBucketName bucket = .ok ()) :
    (result root (deleteBucket bucket) t = .ok () ↔
        t.look ((bucketPath bucket).resolve root) = some .dir ∧ ¬ Occupied root bucket t) ∧
      (result root (deleteBucket bucket) t ≠ .ok () →
        after root (deleteBucket bucket) t = t) := by
  have hpath := resolve_bucketPath (validateBucketName_atom hb) root
  unfold result after Occupied
  cases hlook : t.look ((bucketPath bucket).resolve root) with
  | none =>
      rw [deleteBucket, runE_bind, run_onDisk, andThen_ok, LocalDrive.exec_stat, hlook]
      exact ⟨⟨fun h => (by cases h), fun h => (by cases h.1)⟩, fun _ => rfl⟩
  | some n =>
      cases n with
      | file c =>
          rw [deleteBucket, runE_bind, run_onDisk, andThen_ok, LocalDrive.exec_stat, hlook]
          exact ⟨⟨fun h => (by cases h), fun h => (by cases h.1)⟩, fun _ => rfl⟩
      | dir =>
          rw [run_deleteBucket_dir hlook, ← any_walk_iff hlook]
          cases (t.walk ((bucketPath bucket).resolve root)).any Prod.snd with
          | true => exact ⟨⟨fun h => (by cases h), fun h => absurd rfl h.2⟩, fun _ => rfl⟩
          | false =>
              have hne : (bucketPath bucket).resolve root ≠ [] := by rw [hpath]; simp
              have hremove : (t.removeDirAll ((bucketPath bucket).resolve root)).isSome =
                  true := by
                rw [removeDirAll, if_pos ⟨hne, isDir_iff.2 hlook⟩]
                rfl
              obtain ⟨t₁, ht₁⟩ := Option.isSome_iff_exists.1 hremove
              obtain ⟨t₂, ht₂⟩ := run_removeTrees [metaRoot.joinStr bucket,
                multipartRoot.joinStr bucket, bucketCfgDir bucket, versionsRoot.joinStr bucket] t₁
              rw [if_neg (by simp), run_orFail, LocalDrive.exec_removeDirAll,
                LocalDrive.attempt_some ht₁, if_pos rfl, andThen_ok, ht₂]
              exact ⟨⟨fun _ => ⟨rfl, by simp⟩, fun _ => rfl⟩, fun h => absurd rfl h⟩

theorem deletesSafely_iff (hb : validateBucketName bucket = .ok ()) :
    DeletesSafely root bucket t ↔
      (t.isDir ((bucketPath bucket).resolve root) = false ∨ Occupied root bucket t ∨
        Unarchived root bucket t) := by
  obtain ⟨hok, herr⟩ := run_deleteBucket (t := t) hb
  unfold DeletesSafely
  rw [hok, isDir_eq_false]
  constructor
  · rintro ⟨hsafe, -⟩
    by_cases hdir : t.look ((bucketPath bucket).resolve root) = some .dir
    · by_cases hfull : Occupied root bucket t
      · exact .inr (.inl hfull)
      · exact .inr (.inr (hsafe ⟨hdir, hfull⟩).2)
    · exact .inl hdir
  · intro h
    refine ⟨fun ⟨hdir, hempty⟩ => ⟨hempty, ?_⟩, herr⟩
    rcases h with h | h | h
    · exact absurd hdir h
    · exact absurd h hempty
    · exact h

end FsStore

/-- On the erasure store, whatever its drives hold and whichever can be reached, and on the
filesystem store, whatever its tree holds. -/
theorem bucket_deletion_safe_iff (bucket : Str) (hb : validateBucketName bucket = .ok ()) :
    (∀ (n : Nat) (site : Site n) (s : Cluster n Doc),
      ErasureStore.DeletesSafely site bucket s ↔
        (ErasureStore.bucketUp site bucket s = false ∨
          ErasureStore.FirstReadable site bucket s ∨ ErasureStore.Emptied site bucket s)) ∧
    ∀ (root : List Str) (t : Tree FsDoc), FsStore.DeletesSafely root bucket t ↔
      (t.isDir ((FsStore.bucketPath bucket).resolve root) = false ∨
        FsStore.Occupied root bucket t ∨ FsStore.Unarchived root bucket t) :=
  ⟨fun _ _ _ => ErasureStore.deletesSafely_iff, fun _ _ => FsStore.deletesSafely_iff hb⟩

theorem bucket_deletion_safe_docs :
    (∀ (n : Nat) (site : Site n) (s : Cluster n Doc),
      ErasureStore.DeletesSafely site "docs".toList s ↔
        (ErasureStore.bucketUp site "docs".toList s = false ∨
          ErasureStore.FirstReadable site "docs".toList s ∨
          ErasureStore.Emptied site "docs".toList s)) ∧
    ∀ (root : List Str) (t : Tree FsDoc), FsStore.DeletesSafely root "docs".toList t ↔
      (t.isDir ((FsStore.bucketPath "docs".toList).resolve root) = false ∨
        FsStore.Occupied root "docs".toList t ∨ FsStore.Unarchived root "docs".toList t) :=
  bucket_deletion_safe_iff "docs".toList (by decide)

/-- A version is written and a delete marker put over it. -/
def markedDrives : Cluster 3 Doc :=
  ((Site.mk topRoot fun _ => true).run (do
    ErasureStore.setBucketVersioning "docs".toList "Enabled".toList
    let _ ← ErasureStore.trio.putObject (callAt 'a' 1 isHexLower_a) "docs".toList "key".toList
      (.ofBytes [1, 2]) [] [] false
    let _ ← ErasureStore.deleteObject (callAt 'b' 2 isHexLower_b) "docs".toList "key".toList)
    (withBucket "docs".toList)).2

def markedTree : Tree FsDoc :=
  FsStore.reached FsStore.plainStore [] .empty [.createBucket "docs".toList,
    .setBucketVersioning "docs".toList "Enabled".toList,
    .put (FsStore.fsCallAt 'a' 1 isHexLower_a) "docs".toList "key".toList (.ofBytes [1, 2]) [] []
      false,
    .delete (callAt 'b' 2 isHexLower_b) "docs".toList "key".toList]

/-- The version can be read, and the bucket is deleted, on either store. -/
theorem marked_bucket_deleted :
    (((Site.mk topRoot fun _ => true).run (ErasureStore.trio.getObjectVersion "docs".toList
        "key".toList (callAt 'a' 1 rfl).freshId.text) markedDrives).1.map Prod.snd =
          .ok [1, 2] ∧
      ¬ ErasureStore.DeletesSafely (Site.mk topRoot fun _ => true) "docs".toList
        markedDrives) ∧
    ((FsStore.result [] (FsStore.plainStore.getObjectVersion (callAt 'c' 3 rfl) "docs".toList
        "key".toList (callAt 'a' 1 rfl).freshId.text) markedTree).map Prod.snd = .ok [1, 2] ∧
      ¬ FsStore.DeletesSafely [] "docs".toList markedTree) := by
  refine ⟨⟨by decide +kernel, fun h => ?_⟩, by decide +kernel, fun h => ?_⟩
  · have hnone := h.1 (by decide +kernel) 0
      ((rHistory "docs".toList "key".toList).resolve []) (by decide +kernel)
    exact absurd hnone (by decide +kernel)
  · have hnone := (h.1 (by decide +kernel)).2 ["key".toList, HISTORY]
    exact absurd hnone (by decide +kernel)

end Kerplace
