/-
# `Kerplace.Fs.Listing` — object and version listings of the filesystem store

A listing walks the bucket's directory and pages over the sorted keys, as the sharded
store's does; a key that is a directory marker is told by the marker's name.  The version
listing also walks the archive, and is the one that takes and gives markers.
-/
import Kerplace.Erasure.Paging
import Kerplace.Fs.Copies
import Kerplace.Storage.VersionPaging

namespace Kerplace

open FileTree Prog UnixPath

/-- The rows after the one with the version id marker, if the rows are those of the key
marker. -/
def rowsAfter (marker : Option Str) (rows : List ObjectVersion) : List ObjectVersion :=
  match marker with
  | none => rows
  | some vid => (rows.dropWhile fun r => r.versionId ≠ vid).drop 1

namespace FsStore

variable (S : FsStore)

/-- The objects of chosen keys: all their metadata has to be there. -/
def loadAll (bucket : Str) : List Str → FStore (List ObjectMeta)
  | [] => pure []
  | key :: keys => do
      let m ← S.headObject bucket key
      let rest ← loadAll bucket keys
      pure (m :: rest)

/-- `list_objects_v2`. -/
def listObjectsV2 (bucket pre : Str) (delimiter token startAfter : Option Str)
    (maxKeys : Nat) : FStore Listing := do
  headBucket bucket
  let entries ← onDisk (Drive.walk (bucketPath bucket))
  let keys := ((entries.getD []).filterMap keyOfEntry).filter fun k => pre.isPrefixOf k
  let pg := pageKeys pre delimiter token startAfter maxKeys
    (keys.insertionSort (· ≤ ·)) ⟨[], [], 0, false, none⟩
  let objects ← S.loadAll bucket pg.chosen
  pure ⟨objects, pg.common, pg.truncated, pg.next⟩

/-- The key of a history file below the bucket's archive. -/
def archiveKey (e : List Str × Bool) : Option Str :=
  if e.2 && e.1.getLast? = some HISTORY then some (joinSlash e.1.dropLast) else none

/-- The listing row of a history entry at position `i`. -/
def entryRow (key : Str) (i : Nat) (v : VersionEntry) : ObjectVersion :=
  ⟨key, v.versionId, i == 0, stampOf v.lastModified, v.etag, v.size, v.deleteMarker, none⟩

/-- The listing row of a current object without a history. -/
def currentRow (key : Str) (m : ObjectMeta) : ObjectVersion :=
  ⟨key, NULL, true, m.lastModified, m.etag, m.size, false, none⟩

/-- The rows of one key. -/
def keyRows (bucket key : Str) (versioned : Bool) : FStore (List ObjectVersion) := do
  if versioned then
    let hist ← readHistory bucket key
    pure (hist.versions.mapIdx (entryRow key))
  else
    let m ← S.headObject bucket key
    pure [currentRow key m]

/-- The key loop of `list_object_versions`, with whether it has `started`. -/
def pageVersions (bucket pre : Str) (delimiter keyMarker versionIdMarker : Option Str)
    (maxKeys : Nat) (versioned : List Str) :
    List Str → Bool → VersionPage → FStore VersionPage
  | [], _, acc => pure acc
  | key :: keys, started, acc =>
      if !started && decide (keyMarker = some key) && versionIdMarker.isNone then
        pageVersions bucket pre delimiter keyMarker versionIdMarker maxKeys versioned keys true
          acc
      else if !(started || decide (keyMarker.getD [] < key)) then
        pageVersions bucket pre delimiter keyMarker versionIdMarker maxKeys versioned keys false
          acc
      else
        match rollUp pre delimiter key with
        | some cp =>
            if cp ∈ acc.commonPrefixes then
              pageVersions bucket pre delimiter keyMarker versionIdMarker maxKeys versioned keys
                true acc
            else if acc.versions.length + acc.commonPrefixes.length ≥ maxKeys then
              pure { acc with isTruncated := true, nextKeyMarker := some key }
            else
              pageVersions bucket pre delimiter keyMarker versionIdMarker maxKeys versioned keys
                true { acc with commonPrefixes := insertKey cp acc.commonPrefixes }
        | none => do
            let all ← S.keyRows bucket key (decide (key ∈ versioned))
            let rows := if keyMarker = some key then rowsAfter versionIdMarker all else all
            let room := maxKeys - (acc.versions.length + acc.commonPrefixes.length)
            let acc' := { acc with versions := acc.versions ++ rows.take room }
            match rows[room]? with
            | some ev =>
                pure ⟨{ acc'.toVersionListing with isTruncated := true }, some ev.key,
                  some ev.versionId⟩
            | none =>
                pageVersions bucket pre delimiter keyMarker versionIdMarker maxKeys versioned
                  keys true acc'

/-- `list_object_versions`. -/
def listObjectVersions (bucket pre : Str) (delimiter keyMarker versionIdMarker : Option Str)
    (maxKeys : Nat) : FStore VersionPage := do
  headBucket bucket
  let archived ← onDisk (Drive.walk (versionsRoot.joinStr bucket))
  let found ← onDisk (Drive.walk (bucketPath bucket))
  let versioned := keySet ((archived.getD []).filterMap archiveKey)
  let canonical := (found.getD []).filterMap keyOfEntry
  let all := keySet ((versioned.filter fun k => pre.isPrefixOf k) ++
    canonical.filter fun k => pre.isPrefixOf k && decide (k ∉ versioned))
  S.pageVersions bucket pre delimiter keyMarker versionIdMarker maxKeys versioned all
    keyMarker.isNone .start

/-! ## Object listings -/

section

variable {root : List Str} {t : Tree FsDoc} {bucket : Str} {S}

/-- The keys a listing of a bucket finds. -/
def keysIn (root : List Str) (bucket : Str) (t : Tree FsDoc) : List Str :=
  (t.walk ((bucketPath bucket).resolve root)).filterMap keyOfEntry

theorem walk_nodup {J : Type} (t : Tree J) (p : List Str) : (t.walk p).Nodup := by
  unfold FileTree.walk
  refine nodup_filterMap (Std.ExtTreeMap.distinct_keys_toList.imp ?_) ?_
  · rintro e e' hne rfl
    exact hne Std.ReflCmp.compare_self
  · rintro ⟨q, x⟩ hq ⟨q', x'⟩ hq' b hb hb'
    simp only [Option.ite_none_right_eq_some, Option.some.injEq, Bool.and_eq_true,
      List.isPrefixOf_iff_prefix] at hb hb'
    obtain ⟨⟨⟨r, rfl⟩, -⟩, rfl⟩ := hb
    obtain ⟨⟨⟨r', rfl⟩, -⟩, heq⟩ := hb'
    simp only [List.drop_left, Prod.mk.injEq] at heq
    obtain ⟨rfl, -⟩ := heq
    rw [Std.ExtTreeMap.mem_toList_iff_getElem?_eq_some] at hq hq'
    rw [Option.some.inj (hq.symm.trans hq')]

theorem intercalate_snoc_nil {comps : List Str} (h : comps ≠ []) :
    joinSlash (comps ++ [[]]) = joinSlash comps ++ ['/'] := by
  unfold joinSlash
  induction comps with
  | nil => exact absurd rfl h
  | cons a comps ih =>
      by_cases hc : comps = []
      · subst hc
        simp [List.intercalate_cons_cons]
      · rw [List.cons_append, List.intercalate_cons_of_ne_nil (by simp),
          List.intercalate_cons_of_ne_nil hc, ih hc]
        simp only [List.append_assoc]

/-- The entry a key was read off. -/
theorem keyOfEntry_eq_some {e : List Str × Bool} (he : NamedEntry e) {k : Str}
    (h : keyOfEntry e = some k) : e = (if (k.splitOn '/').getLast? = some [] then
      (k.splitOn '/').dropLast ++ [DIR_MARKER] else k.splitOn '/', true) := by
  obtain ⟨comps, f⟩ := e
  unfold keyOfEntry at h
  split at h
  · rename_i hf
    have hf : f = true := hf
    subst hf
    split at h
    · rename_i hlast
      split at h
      · cases h
      · rename_i hdir
        obtain rfl := Option.some.inj h
        have hjoin : joinSlash comps.dropLast ++ ['/'] = joinSlash (comps.dropLast ++ [[]]) :=
          (intercalate_snoc_nil hdir).symm
        have hsplit : (joinSlash (comps.dropLast ++ [[]])).splitOn '/' =
            comps.dropLast ++ [[]] := by
          refine splitOn_joinSlash (by simp) fun c hc => ?_
          rcases List.mem_append.1 hc with hc | hc
          · exact (he.2 c (List.mem_of_mem_dropLast hc)).2
          · rw [List.mem_singleton.1 hc]
            exact List.not_mem_nil
        rw [hjoin, hsplit, List.getLast?_concat, if_pos rfl,
          List.dropLast_concat, List.dropLast_append_getLast? _ hlast]
    · obtain rfl := Option.some.inj h
      have hsplit : (joinSlash comps).splitOn '/' = comps :=
        splitOn_joinSlash he.1 fun c hc => (he.2 c hc).2
      rw [hsplit, if_neg fun hlast => (he.2 [] (List.mem_of_getLast? hlast)).1 rfl]
  · cases h

theorem keysIn_nodup (ht : Named t) : (keysIn root bucket t).Nodup := by
  refine nodup_filterMap (walk_nodup t _) fun e he e' he' k hk hk' => ?_
  rw [keyOfEntry_eq_some (namedEntry_of_walk ht he) hk,
    keyOfEntry_eq_some (namedEntry_of_walk ht he') hk']

/-- All metadata of the bucket's keys can be read. -/
def AllReadable (S : FsStore) (root : List Str) (bucket : Str) (t : Tree FsDoc) : Prop :=
  ∀ k ∈ keysIn root bucket t, ∃ m, storedIn S root bucket k t = .ok m

theorem run_headObject (key : Str) :
    runE (LocalDrive.step root) (S.headObject bucket key) t =
      ((storedIn S root bucket key t).map (storedToMeta key), t) := by
  rw [headObject, runE_bind, run_readStored]
  cases storedIn S root bucket key t <;> rfl

theorem run_loadAll {obj : Str → ObjectMeta} :
    ∀ ks : List Str, (∀ k ∈ ks, ∃ m, storedIn S root bucket k t = .ok m ∧
        obj k = storedToMeta k m) →
      runE (LocalDrive.step root) (S.loadAll bucket ks) t = (.ok (ks.map obj), t) := by
  intro ks
  induction ks with
  | nil => exact fun _ => rfl
  | cons k ks ih =>
      intro h
      obtain ⟨m, hm, hobj⟩ := h k List.mem_cons_self
      have hrest := ih fun k' hk' => h k' (List.mem_cons_of_mem _ hk')
      rw [loadAll, runE_bind, run_headObject, hm, Except.map, andThen_ok, runE_bind, hrest,
        andThen_ok, List.map_cons, hobj]
      rfl

/-- A listing of a bucket that is there: a page of the keys found. -/
theorem run_listObjectsV2 (hbucket : t.isDir ((bucketPath bucket).resolve root) = true)
    {obj : Str → ObjectMeta} (hobj : ∀ k ∈ keysIn root bucket t,
      ∃ m, storedIn S root bucket k t = .ok m ∧ obj k = storedToMeta k m)
    (pre : Str) (delimiter token startAfter : Option Str) (maxKeys : Nat) :
    runE (LocalDrive.step root) (S.listObjectsV2 bucket pre delimiter token startAfter maxKeys)
      t = (.ok ((pageKeys pre delimiter token startAfter maxKeys
        (((keysIn root bucket t).filter fun k => pre.isPrefixOf k).insertionSort (· ≤ ·))
        ⟨[], [], 0, false, none⟩).listing obj), t) := by
  have hchosen : ∀ k ∈ (pageKeys pre delimiter token startAfter maxKeys
      (((keysIn root bucket t).filter fun k => pre.isPrefixOf k).insertionSort (· ≤ ·))
      ⟨[], [], 0, false, none⟩).chosen, k ∈ keysIn root bucket t := by
    intro k hk
    exact List.mem_of_mem_filter ((List.mem_insertionSort _).1 (chosen_subset hk))
  rw [listObjectsV2, runE_bind, run_headBucket, hbucket, if_pos rfl, andThen_ok,
    runE_bind, run_onDisk, andThen_ok, LocalDrive.exec_walk]
  dsimp only [Option.getD_some]
  rw [runE_bind]
  show andThen (runE (LocalDrive.step root) (S.loadAll bucket (pageKeys pre delimiter token
    startAfter maxKeys
    (((keysIn root bucket t).filter fun k => pre.isPrefixOf k).insertionSort (· ≤ ·))
    ⟨[], [], 0, false, none⟩).chosen) t) _ = _
  rw [run_loadAll _ fun k hk => hobj k (hchosen k hk)]
  rfl

theorem exists_objects (hread : AllReadable S root bucket t) :
    ∃ obj : Str → ObjectMeta, (∀ k, (obj k).key = k) ∧
      ∀ k ∈ keysIn root bucket t, ∃ m, storedIn S root bucket k t = .ok m ∧
        obj k = storedToMeta k m := by
  classical
  refine ⟨fun k =>
    if h : ∃ m, storedIn S root bucket k t = .ok m then storedToMeta k h.choose
    else ⟨k, 0, [], 0, [], [], false, none, none⟩, fun k => ?_, fun k hk => ?_⟩
  · dsimp only
    split <;> rfl
  · exact ⟨(hread k hk).choose, (hread k hk).choose_spec, dif_pos (hread k hk)⟩

end

end FsStore

/-- On either store, a bucket that is there and whose keys' metadata can all be read is
listed in pages: followed to the end they hold every wanted key once, as an object or under
its common prefix, and together they are the listing that does not break off. -/
theorem listings_exact {n : Nat} (site : Site n) (s : Cluster n Doc) (S : FsStore)
    (root : List Str) (t : Tree FsDoc) (bucket pre : Str) (delimiter startAfter : Option Str)
    (maxKeys : Nat) (hmax : 1 ≤ maxKeys)
    (hs : ∀ d, Named (s d)) (hup : ErasureStore.bucketUp site bucket s = true)
    (hread : ErasureStore.AllReadable site bucket s)
    (ht : Named t) (hdir : t.isDir ((FsStore.bucketPath bucket).resolve root) = true)
    (hreadt : FsStore.AllReadable S root bucket t) :
    (∃ pages whole, ExactListing (ErasureStore.keysUp site bucket s) pre delimiter startAfter
      maxKeys (fun token m => (site.run
        (ErasureStore.listObjectsV2 bucket pre delimiter token startAfter m) s).1)
      pages whole) ∧
    ∃ pages whole, ExactListing (FsStore.keysIn root bucket t) pre delimiter startAfter
      maxKeys (fun token m => FsStore.result root
        (S.listObjectsV2 bucket pre delimiter token startAfter m) t) pages whole := by
  constructor
  · obtain ⟨obj, hkey, hobj⟩ := ErasureStore.exists_objects hread
    refine exactListing (ErasureStore.keysUp_nodup hs) hmax hkey fun token m => ?_
    rw [ErasureStore.run_listObjectsV2 hup hobj]
  · obtain ⟨obj, hkey, hobj⟩ := FsStore.exists_objects hreadt
    refine exactListing (FsStore.keysIn_nodup ht) hmax hkey fun token m => ?_
    rw [FsStore.result, FsStore.run_listObjectsV2 hdir hobj]

/-- Three objects, two of them under one common prefix. -/
def listedDrives : Cluster 3 Doc :=
  ((Site.mk topRoot fun _ => true).run (do
    let _ ← ErasureStore.trio.putObject (callAt 'a' 1 isHexLower_a) "docs".toList "a/1".toList
      (.ofBytes [1]) [] [] false
    let _ ← ErasureStore.trio.putObject (callAt 'b' 2 isHexLower_b) "docs".toList "a/2".toList
      (.ofBytes [2]) [] [] false
    let _ ← ErasureStore.trio.putObject (callAt 'c' 3 isHexLower_c) "docs".toList "b".toList
      (.ofBytes [3]) [] [] false)
    (withBucket "docs".toList)).2

def listedTree : Tree FsDoc :=
  FsStore.reached FsStore.plainStore [] .empty [.createBucket "docs".toList,
    .put (FsStore.fsCallAt 'a' 1 isHexLower_a) "docs".toList "a/1".toList (.ofBytes [1]) [] []
      false,
    .put (FsStore.fsCallAt 'b' 2 isHexLower_b) "docs".toList "a/2".toList (.ofBytes [2]) [] []
      false,
    .put (FsStore.fsCallAt 'c' 3 isHexLower_c) "docs".toList "b".toList (.ofBytes [3]) [] [] false]

theorem exists_ok_of_isErr {α : Type} {r : Except S3Error α} (h : isErr r = false) :
    ∃ a, r = .ok a := by
  cases r with
  | ok a => exact ⟨a, rfl⟩
  | error e => cases h

instance {J : Type} (t : Tree J) : Decidable (Named t) :=
  decidable_of_iff (∀ p ∈ t.nodes.keys, ∀ c ∈ p, c ≠ [] ∧ '/' ∉ c)
    (forall_congr' fun _ => imp_congr_left Std.ExtTreeMap.mem_keys)

/-- They are listed in pages of one. -/
theorem listings_exact_listed :
    (∃ pages whole, ExactListing (ErasureStore.keysUp (Site.mk topRoot fun _ => true)
      "docs".toList listedDrives) [] (some "/".toList) none 1
      (fun token m => ((Site.mk topRoot fun _ => true).run
        (ErasureStore.listObjectsV2 "docs".toList [] (some "/".toList) token none m)
        listedDrives).1) pages whole) ∧
    ∃ pages whole, ExactListing (FsStore.keysIn [] "docs".toList listedTree) []
      (some "/".toList) none 1 (fun token m => FsStore.result []
        (FsStore.plainStore.listObjectsV2 "docs".toList [] (some "/".toList) token none m)
        listedTree) pages whole := by
  refine listings_exact (Site.mk topRoot fun _ => true) listedDrives FsStore.plainStore []
    listedTree "docs".toList [] (some "/".toList) none 1 le_rfl (by decide +kernel)
    (by decide +kernel) ?_ (by decide +kernel) (by decide +kernel) ?_
  · have hok : ∀ k ∈ ErasureStore.keysUp (Site.mk topRoot fun _ => true) "docs".toList
        listedDrives, isErr ((Site.mk topRoot fun _ => true).run
          (ErasureStore.readXl "docs".toList k) listedDrives).1 = false := by
      decide +kernel
    intro k hk
    obtain ⟨m, hm⟩ := exists_ok_of_isErr (hok k hk)
    exact ⟨m, Prod.ext hm (by rw [ErasureStore.readXl, ErasureStore.run_readXlV])⟩
  · have hok : ∀ k ∈ FsStore.keysIn [] "docs".toList listedTree,
        isErr (FsStore.storedIn FsStore.plainStore [] "docs".toList k listedTree) = false := by
      decide +kernel
    exact fun k hk => exists_ok_of_isErr (hok k hk)

end Kerplace
