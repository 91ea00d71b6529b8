/-
# `Kerplace.Fs.Versions` — the version listings of both stores in pages

On the filesystem store the markers of a truncated page name what it does not hold, and
the next page passes over the key they name.  The sharded store neither gives nor takes
markers.
-/
import Kerplace.Fs.Listing

namespace Kerplace

open FileTree Prog UnixPath

namespace ErasureStore

variable {n : Nat} {site : Site n} {s : Cluster n Doc} {bucket : Str}

/-- The keys with a history. -/
def versionedUp (site : Site n) (bucket : Str) (s : Cluster n Doc) : List Str :=
  keySet ((entriesUp site bucket s).filterMap historyKey)

/-- The keys a version listing is about. -/
def versionKeysUp (site : Site n) (bucket pre : Str) (s : Cluster n Doc) : List Str :=
  keySet (((versionedUp site bucket s).filter fun k => pre.isPrefixOf k) ++
    (keySet (keysUp site bucket s)).filter fun k =>
      pre.isPrefixOf k && decide (k ∉ versionedUp site bucket s))

/-- The rows of a key. -/
def rowsUp (site : Site n) (bucket : Str) (s : Cluster n Doc) (versioned : List Str)
    (key : Str) : List ObjectVersion :=
  if key ∈ versioned then (historyOf site bucket key s).versions.mapIdx (entryRow key)
  else
    match (site.run (readXl bucket key) s).1 with
    | .ok m => [currentRow key m]
    | .error _ => []

theorem pre_of_mem_versionKeysUp {pre k : Str} (hk : k ∈ versionKeysUp site bucket pre s) :
    pre <+: k := by
  rw [versionKeysUp, mem_keySet, List.mem_append, List.mem_filter, List.mem_filter,
    Bool.and_eq_true, List.isPrefixOf_iff_prefix] at hk
  exact hk.elim And.right fun h => h.2.1

theorem run_keyRows (versioned : List Str) (key : Str) :
    site.run (keyRows bucket key (decide (key ∈ versioned))) s =
      (.ok (rowsUp site bucket s versioned key), s) := by
  unfold keyRows rowsUp
  by_cases hkey : key ∈ versioned
  · rw [if_pos hkey, if_pos (decide_eq_true hkey), Site.run_bind, run_readHistory]
    rfl
  · rw [if_neg hkey, if_neg (by simpa using hkey), Site.run_bind, Site.run_outcome, readXl,
      run_readXlV]
    cases firstUp site fun d => docAt Doc.xl? (s d)
      (((rObjV bucket key none).joinStr XL_META).resolve (site.root d)) <;> rfl

/-- The key loop is the one over rows at hand, without its markers. -/
theorem run_pageVersions (pre : Str) (delimiter : Option Str) (maxKeys : Nat)
    (versioned : List Str) :
    ∀ (keys : List Str) (acc : VersionPage),
      site.run (pageVersions bucket pre delimiter maxKeys versioned keys acc.toVersionListing) s =
        (.ok (pageItems pre delimiter maxKeys (rowsUp site bucket s versioned) keys
          acc).toVersionListing, s) := by
  intro keys
  induction keys with
  | nil => exact fun acc => rfl
  | cons key keys ih =>
      intro acc
      cases hroll : rollUp pre delimiter key with
      | some cp =>
          simp only [pageVersions, pageItems, hroll]
          split
          · exact ih acc
          · split
            · rfl
            · exact ih { acc with commonPrefixes := insertKey cp acc.commonPrefixes }
      | none =>
          simp only [pageVersions, pageItems, hroll]
          rw [Site.run_bind, run_keyRows, andThen_ok]
          cases hrow : (rowsUp site bucket s versioned key)[maxKeys -
              (acc.versions.length + acc.commonPrefixes.length)]? with
          | some ev =>
              have hlt := (List.getElem?_eq_some_iff.1 hrow).1
              simp only [if_pos hlt]
              rfl
          | none =>
              have hle := List.getElem?_eq_none_iff.1 hrow
              simp only [if_neg (not_lt.2 hle)]
              exact ih { acc with versions := acc.versions ++
                (rowsUp site bucket s versioned key).take (maxKeys -
                  (acc.versions.length + acc.commonPrefixes.length)) }

/-- The version listing, with the markers it does not give. -/
def listVersions (site : Site n) (bucket pre : Str) (delimiter : Option Str) (maxKeys : Nat)
    (s : Cluster n Doc) : Option Str × Option Str → Except S3Error VersionPage := fun _ =>
  (site.run (listObjectVersions bucket pre delimiter maxKeys) s).1.map fun l => ⟨l, none, none⟩

theorem listVersions_eq (hup : bucketUp site bucket s = true) (pre : Str)
    (delimiter : Option Str) (maxKeys : Nat) (markers : Option Str × Option Str) :
    listVersions site bucket pre delimiter maxKeys s markers =
      .ok ⟨(pageItems pre delimiter maxKeys (rowsUp site bucket s (versionedUp site bucket s))
        (versionKeysUp site bucket pre s) .start).toVersionListing, none, none⟩ := by
  unfold listVersions
  rw [listObjectVersions, Site.run_bind, run_headBucket, hup, if_pos rfl, andThen_ok,
    Site.run_bind, run_entries, andThen_ok]
  show Except.map _ (site.run (pageVersions bucket pre delimiter maxKeys
    (versionedUp site bucket s) (versionKeysUp site bucket pre s)
    VersionPage.start.toVersionListing) s).1 = _
  rw [run_pageVersions pre delimiter maxKeys (versionedUp site bucket s)
    (versionKeysUp site bucket pre s) .start]
  rfl

end ErasureStore

namespace FsStore

variable {S : FsStore} {root : List Str} {t : Tree FsDoc} {bucket : Str}

/-- The keys with a history. -/
def versionedIn (root : List Str) (bucket : Str) (t : Tree FsDoc) : List Str :=
  keySet ((t.walk ((versionsRoot.joinStr bucket).resolve root)).filterMap archiveKey)

/-- The keys a version listing is about. -/
def versionKeysIn (root : List Str) (bucket pre : Str) (t : Tree FsDoc) : List Str :=
  keySet (((versionedIn root bucket t).filter fun k => pre.isPrefixOf k) ++
    (keysIn root bucket t).filter fun k =>
      pre.isPrefixOf k && decide (k ∉ versionedIn root bucket t))

/-- The rows of a key. -/
def rowsAt (S : FsStore) (root : List Str) (bucket : Str) (t : Tree FsDoc)
    (versioned : List Str) (key : Str) : List ObjectVersion :=
  if key ∈ versioned then (historyIn root bucket key t).versions.mapIdx (entryRow key)
  else
    match storedIn S root bucket key t with
    | .ok m => [currentRow key (storedToMeta key m)]
    | .error _ => []

theorem pre_of_mem_versionKeysIn {pre k : Str} (hk : k ∈ versionKeysIn root bucket pre t) :
    pre <+: k := by
  rw [versionKeysIn, mem_keySet, List.mem_append, List.mem_filter, List.mem_filter,
    Bool.and_eq_true, List.isPrefixOf_iff_prefix] at hk
  exact hk.elim And.right fun h => h.2.1

/-- The metadata of the keys without a history can be read. -/
def CurrentReadable (S : FsStore) (root : List Str) (bucket : Str) (t : Tree FsDoc) : Prop :=
  ∀ k ∈ keysIn root bucket t, k ∉ versionedIn root bucket t →
    ∃ m, storedIn S root bucket k t = .ok m

theorem run_keyRows {versioned : List Str} {key : Str}
    (hread : key ∉ versioned → ∃ m, storedIn S root bucket key t = .ok m) :
    runE (LocalDrive.step root) (S.keyRows bucket key (decide (key ∈ versioned))) t =
      (.ok (rowsAt S root bucket t versioned key), t) := by
  unfold keyRows rowsAt
  by_cases hkey : key ∈ versioned
  · rw [if_pos hkey, if_pos (decide_eq_true hkey), runE_bind, run_readHistory]
    rfl
  · obtain ⟨m, hm⟩ := hread hkey
    rw [if_neg hkey, if_neg (by simpa using hkey), runE_bind, run_headObject, hm]
    rfl

theorem key_of_mem_rowsAt {versioned : List Str} {key : Str} {r : ObjectVersion}
    (h : r ∈ rowsAt S root bucket t versioned key) : r.key = key := by
  unfold rowsAt at h
  split at h
  · obtain ⟨i, hi, rfl⟩ := List.mem_mapIdx.1 h
    rfl
  · split at h
    · rw [List.mem_singleton.1 h]
      rfl
    · cases h

/-- Past the key marker the key loop is the one over rows at hand. -/
theorem run_pageVersions (pre : Str) (delimiter keyMarker versionIdMarker : Option Str)
    (maxKeys : Nat) (versioned : List Str) :
    ∀ keys : List Str, (∀ k ∈ keys, keyMarker ≠ some k ∧
        (k ∉ versioned → ∃ m, storedIn S root bucket k t = .ok m)) →
      ∀ acc : VersionPage,
      runE (LocalDrive.step root) (S.pageVersions bucket pre delimiter keyMarker
        versionIdMarker maxKeys versioned keys true acc) t =
        (.ok (pageItems pre delimiter maxKeys (rowsAt S root bucket t versioned) keys acc), t) := by
  intro keys
  induction keys with
  | nil => exact fun _ acc => rfl
  | cons key keys ih =>
      intro h acc
      obtain ⟨hmarker, hread⟩ := h key List.mem_cons_self
      have ih := ih fun k hk => h k (List.mem_cons_of_mem _ hk)
      rw [pageVersions.eq_2]
      simp only [Bool.not_true, Bool.false_and, Bool.false_eq_true, if_false, Bool.true_or]
      cases hroll : rollUp pre delimiter key with
      | some cp =>
          simp only [pageItems, hroll]
          split
          · exact ih acc
          · split
            · rfl
            · exact ih { acc with commonPrefixes := insertKey cp acc.commonPrefixes }
      | none =>
          simp only [pageItems, hroll, if_neg hmarker]
          rw [runE_bind, run_keyRows hread, andThen_ok]
          cases hrow : (rowsAt S root bucket t versioned key)[maxKeys -
              (acc.versions.length + acc.commonPrefixes.length)]? with
          | some ev =>
              have hkey : ev.key = key := key_of_mem_rowsAt (List.mem_of_getElem? hrow)
              dsimp only
              rw [hkey]
              rfl
          | none => exact ih _

/-- Up to the key marker it passes keys over. -/
theorem run_pageVersions_marker (pre : Str) (delimiter versionIdMarker : Option Str) {a : Str}
    (maxKeys : Nat) (versioned : List Str) (acc : VersionPage) :
    ∀ keys : List Str, keys.Pairwise (· < ·) →
      (∀ k ∈ keys, k ∉ versioned → ∃ m, storedIn S root bucket k t = .ok m) →
      runE (LocalDrive.step root) (S.pageVersions bucket pre delimiter (some a)
        versionIdMarker maxKeys versioned keys false acc) t =
        (.ok (pageItems pre delimiter maxKeys (rowsAt S root bucket t versioned)
          (fromMarker (some a) keys) acc), t) := by
  intro keys
  induction keys with
  | nil => exact fun _ _ => rfl
  | cons key keys ih =>
      intro hsorted hread
      obtain ⟨hkey, hkeys⟩ := List.pairwise_cons.1 hsorted
      have ih := ih hkeys fun k hk => hread k (List.mem_cons_of_mem _ hk)
      -- the keys after one that is not before the marker
      have hall : a ≤ key → fromMarker (some a) keys = keys := by
        intro hle
        refine List.filter_eq_self.2 fun k hk => ?_
        rcases le_iff_lt_or_eq.1 hle with hlt | rfl
        · simpa using List.lt_trans hlt (hkey k hk)
        · simpa using hkey k hk
      have hrun : ∀ ks : List Str, (∀ k ∈ ks, a < k) → (∀ k ∈ ks, k ∈ key :: keys) →
          runE (LocalDrive.step root) (S.pageVersions bucket pre delimiter (some a)
            versionIdMarker maxKeys versioned ks true acc) t =
            (.ok (pageItems pre delimiter maxKeys (rowsAt S root bucket t versioned) ks acc),
              t) := by
        intro ks hlt hmem
        refine run_pageVersions pre delimiter (some a) versionIdMarker maxKeys versioned ks
          (fun k hk => ⟨fun heq => ?_, hread k (hmem k hk)⟩) acc
        obtain rfl := Option.some.inj heq
        exact List.lt_irrefl _ (hlt _ hk)
      by_cases heq : a = key
      · subst heq
        have hfrom : fromMarker (some a) (a :: keys) = keys := by
          rw [fromMarker, List.filter_cons_of_neg (by simp)]
          exact hall (le_refl _)
        rw [hfrom, pageVersions.eq_2]
        cases versionIdMarker with
        | none =>
            rw [if_pos (by simp)]
            exact hrun keys hkey fun k hk => List.mem_cons_of_mem _ hk
        | some vid =>
            rw [if_neg (by simp), if_pos (by simp), ih, hall (le_refl _)]
      · by_cases hlt : a < key
        · have hfrom : fromMarker (some a) (key :: keys) = key :: keys := by
            rw [fromMarker, List.filter_cons_of_pos (by simpa using hlt)]
            exact congrArg _ (hall (le_of_lt hlt))
          rw [hfrom, ← hrun (key :: keys) ?_ fun k hk => hk]
          · rw [pageVersions.eq_2, pageVersions.eq_2]
            simp [heq, hlt]
          · intro k hk
            rcases List.mem_cons.1 hk with rfl | hk
            · exact hlt
            · exact List.lt_trans hlt (hkey k hk)
        · have hfrom : fromMarker (some a) (key :: keys) = fromMarker (some a) keys :=
            List.filter_cons_of_neg (by simpa using hlt)
          rw [hfrom, ← ih, pageVersions.eq_2]
          simp [heq, hlt]

/-- The version listing, as a function of the markers. -/
def listVersions (S : FsStore) (root : List Str) (bucket pre : Str) (delimiter : Option Str)
    (maxKeys : Nat) (t : Tree FsDoc) (markers : Option Str × Option Str) :
    Except S3Error VersionPage :=
  result root (S.listObjectVersions bucket pre delimiter markers.1 markers.2 maxKeys) t

theorem listVersions_eq (hdir : t.isDir ((bucketPath bucket).resolve root) = true)
    (hread : CurrentReadable S root bucket t) (pre : Str) (delimiter : Option Str)
    (maxKeys : Nat) (markers : Option Str × Option Str) :
    listVersions S root bucket pre delimiter maxKeys t markers =
      .ok (pageItems pre delimiter maxKeys
        (rowsAt S root bucket t (versionedIn root bucket t))
        (fromMarker markers.1 (versionKeysIn root bucket pre t)) .start) := by
  obtain ⟨keyMarker, versionIdMarker⟩ := markers
  have hkeys : ∀ k ∈ versionKeysIn root bucket pre t, k ∉ versionedIn root bucket t →
      ∃ m, storedIn S root bucket k t = .ok m := by
    intro k hk hno
    rw [versionKeysIn, mem_keySet, List.mem_append] at hk
    rcases hk with hk | hk
    · exact absurd (List.mem_of_mem_filter hk) hno
    · exact hread k (List.mem_of_mem_filter hk) hno
  unfold listVersions result
  rw [listObjectVersions, runE_bind, run_headBucket, hdir, if_pos rfl, andThen_ok,
    runE_bind, run_onDisk, andThen_ok, LocalDrive.exec_walk, runE_bind, run_onDisk, andThen_ok,
    LocalDrive.exec_walk]
  show (runE (LocalDrive.step root) (S.pageVersions bucket pre delimiter keyMarker
    versionIdMarker maxKeys (versionedIn root bucket t) (versionKeysIn root bucket pre t)
    keyMarker.isNone .start) t).1 = _
  cases keyMarker with
  | none =>
      have hfrom : fromMarker none (versionKeysIn root bucket pre t) =
          versionKeysIn root bucket pre t := List.filter_eq_self.2 fun _ _ => rfl
      rw [hfrom, Option.isNone_none, run_pageVersions pre delimiter none versionIdMarker maxKeys
        (versionedIn root bucket t) _ (fun k hk => ⟨nofun, hkeys k hk⟩)]
  | some a =>
      rw [Option.isNone_some, run_pageVersions_marker pre delimiter versionIdMarker maxKeys
        (versionedIn root bucket t) .start (versionKeysIn root bucket pre t)
        (keySet_sorted _) hkeys]

end FsStore

section

variable {n : Nat} (site : Site n) (s : Cluster n Doc) (S : FsStore) (root : List Str)
  (t : Tree FsDoc) (bucket pre : Str) (delimiter : Option Str) (maxKeys : Nat)

/-- Following the version listing of the sharded store reports everything once. -/
def ErasureStore.VersionsExact : Prop :=
  ∃ pages, ExactVersions
    ((plainKeys pre delimiter (ErasureStore.versionKeysUp site bucket pre s)).flatMap
      (ErasureStore.rowsUp site bucket s (ErasureStore.versionedUp site bucket s)))
    (prefixesOf pre delimiter (ErasureStore.versionKeysUp site bucket pre s))
    (ErasureStore.listVersions site bucket pre delimiter maxKeys s) pages

/-- Following the version listing of the filesystem store reports everything once. -/
def FsStore.VersionsExact : Prop :=
  ∃ pages, ExactVersions
    ((plainKeys pre delimiter (FsStore.versionKeysIn root bucket pre t)).flatMap
      (FsStore.rowsAt S root bucket t (FsStore.versionedIn root bucket t)))
    (prefixesOf pre delimiter (FsStore.versionKeysIn root bucket pre t))
    (FsStore.listVersions S root bucket pre delimiter maxKeys t) pages

end

end Kerplace
