/-
# `Kerplace.Fs.Places` — where the filesystem store's files lie

The path helpers resolved against the root, for a bucket name and a key that the
validators accept: payloads below the bucket, metadata, sidecars, archives and histories
each in their tree of the system directory, and temporary files in a tree of their own.
-/
import Kerplace.Fs.Calls
import Kerplace.Erasure.Places

namespace Kerplace

namespace UnixPath

theorem exists_last_slash {s : Str} (h : '/' ∈ s) :
    ∃ a b, s = a ++ '/' :: b ∧ '/' ∉ b := by
  induction s with
  | nil => exact absurd h List.not_mem_nil
  | cons c s ih =>
      by_cases hs : '/' ∈ s
      · obtain ⟨a, b, rfl, hb⟩ := ih hs
        exact ⟨c :: a, b, rfl, hb⟩
      · have hc : '/' = c := (List.mem_cons.1 h).resolve_right hs
        exact ⟨[], s, by rw [← hc, List.nil_append], hs⟩

theorem splitOn_suffix {suf : Str} (hsuf : '/' ∉ suf) (s : Str) :
    ∃ init last, s.splitOn '/' = init ++ [last] ∧
      (s ++ suf).splitOn '/' = init ++ [last ++ suf] := by
  by_cases hs : '/' ∈ s
  · obtain ⟨a, b, rfl, hb⟩ := exists_last_slash hs
    refine ⟨a.splitOn '/', b, ?_, ?_⟩
    · rw [List.splitOn_append_cons_self, List.splitOn_eq_singleton hb]
    · have hboth : '/' ∉ b ++ suf := fun h => (List.mem_append.1 h).elim hb hsuf
      rw [List.append_assoc, List.cons_append, List.splitOn_append_cons_self,
        List.splitOn_eq_singleton hboth]
  · have hboth : '/' ∉ s ++ suf := fun h => (List.mem_append.1 h).elim hs hsuf
    exact ⟨[], s, List.splitOn_eq_singleton hs, List.splitOn_eq_singleton hboth⟩

/-- A key with a suffix descends like the key. -/
theorem Descends.suffix {s suf : Str} (hs : Descends s) (hne : s ≠ []) (hsuf : '/' ∉ suf)
    (hlen : 2 < suf.length) : Descends (s ++ suf) := by
  obtain ⟨habs, hcomps⟩ := hs
  refine ⟨?_, fun hmem => ?_⟩
  · obtain ⟨c, s, rfl⟩ := List.exists_cons_of_ne_nil hne
    exact habs
  · obtain ⟨init, last, hold, hnew⟩ := splitOn_suffix hsuf s
    obtain ⟨-, -, hmem⟩ := mem_compsOf hmem
    rw [hnew, List.mem_append, List.mem_singleton] at hmem
    rcases hmem with hinit | hlast
    · refine hcomps (List.mem_filter.2 ⟨?_, by decide⟩)
      rw [hold]
      exact List.mem_append_left _ hinit
    · have := congrArg List.length hlast
      rw [List.length_append, List.length_cons, List.length_singleton] at this
      omega

end UnixPath

open UnixPath

namespace FsStore

variable {bucket key : Str}

/-- A key without its closing separator descends like the key. -/
theorem descends_stripSlash {dir : Str} (hk : validateKey key = .ok ())
    (h : stripSlash key = some dir) : Descends dir := by
  unfold stripSlash at h
  split at h
  · rename_i hlast
    cases h
    obtain ⟨hne, hhead, -, hseg⟩ := validateKey_ok.1 hk
    have hkey : key = key.dropLast ++ ['/'] := by
      have := List.dropLast_append_getLast hne
      rw [List.getLast?_eq_some_getLast hne] at hlast
      rw [Option.some.inj hlast] at this
      exact this.symm
    refine ⟨decide_eq_false fun h0 => hhead ?_, fun hmem => ?_⟩
    · rw [hkey, List.head?_append, h0]
      rfl
    · obtain ⟨-, -, hmem⟩ := mem_compsOf hmem
      refine (hseg _ ?_).1 rfl
      rw [hkey, List.splitOn_append_cons_self]
      exact List.mem_append_left _ hmem
  · cases h

theorem atom_dirMarker : Atom DIR_MARKER := by decide

theorem atom_properId {vid suf : Str} (hv : ProperId vid) (hsuf : '/' ∉ suf)
    (hlen : 2 < suf.length) : Atom (vid ++ suf) := by
  have hslash : '/' ∉ vid := by
    rcases hv with rfl | ⟨u, rfl⟩
    · decide
    · exact u.atom.1
  refine ⟨fun h => (List.mem_append.1 h).elim hslash hsuf, ?_, ?_, ?_⟩ <;>
    · intro h0
      have := congrArg List.length h0
      simp only [List.length_append, List.length_cons, List.length_nil] at this
      omega

/-- Where the trees of the store begin. -/
def treeOf (bucket : Str) : FileKind → List Str
  | .payload => [bucket]
  | .metadata => [SYS_DIR, META, bucket]
  | .sidecar _ => [SYS_DIR, META, bucket]
  | .history => [SYS_DIR, VERSIONS, bucket]
  | .archivedData _ => [SYS_DIR, VERSIONS, bucket]
  | .archivedMeta _ => [SYS_DIR, VERSIONS, bucket]

/-- The components of a file of a key below its tree. -/
def compsBelow (key : Str) : FileKind → List Str
  | .payload =>
      match stripSlash key with
      | some dir => compsOf dir ++ [DIR_MARKER]
      | none => compsOf key
  | .metadata =>
      match stripSlash key with
      | some dir => compsOf dir ++ [DIR_MARKER ++ JSON]
      | none => compsOf (key ++ JSON)
  | .sidecar suffix => compsOf (key ++ '.' :: suffix)
  | .history => compsOf key ++ [HISTORY]
  | .archivedData vid => compsOf key ++ [vid ++ DATA]
  | .archivedMeta vid => compsOf key ++ [vid ++ JSON]

theorem resolve_metaRoot (hb : Atom bucket) (root : List Str) :
    (metaRoot.joinStr bucket).resolve root = root ++ [SYS_DIR, META, bucket] := by
  rw [metaRoot, resolve_joinStr_atom hb, resolve_joinStr_atom (by decide),
    resolve_ofStr atom_sysDir.descends, atom_sysDir.compsOf]
  simp

theorem resolve_versionDir (hb : Atom bucket) (hk : Descends key) (root : List Str) :
    (versionDir bucket key).resolve root =
      root ++ [SYS_DIR, VERSIONS, bucket] ++ compsOf key := by
  rw [versionDir, versionsRoot, resolve_joinStr hk, resolve_joinStr_atom hb,
    resolve_joinStr_atom (by decide), resolve_ofStr atom_sysDir.descends, atom_sysDir.compsOf]
  simp

theorem resolve_bucketPath (hb : Atom bucket) (root : List Str) :
    (bucketPath bucket).resolve root = root ++ [bucket] := by
  rw [bucketPath, resolve_ofStr hb.descends, hb.compsOf]

/-- Every file of a key, below the root. -/
theorem resolve_keyPath (hb : Atom bucket) (hk : validateKey key = .ok ()) {k : FileKind}
    (hkind : k.Proper) (root : List Str) :
    (keyPath bucket key k).resolve root = root ++ treeOf bucket k ++ compsBelow key k := by
  have hdesc : Descends key := validateKey_plain hk
  have hne : key ≠ [] := (validateKey_ok.1 hk).1
  cases k with
  | payload =>
      show (objectPath bucket key).resolve root = _
      unfold objectPath compsBelow
      cases hstrip : stripSlash key with
      | some dir =>
          rw [resolve_joinStr_atom atom_dirMarker,
            resolve_joinStr (descends_stripSlash hk hstrip), resolve_bucketPath hb]
          simp [treeOf]
      | none =>
          rw [resolve_joinStr hdesc, resolve_bucketPath hb]
          rfl
  | metadata =>
      show (metaPath bucket key).resolve root = _
      unfold metaPath compsBelow
      cases hstrip : stripSlash key with
      | some dir =>
          rw [resolve_joinStr_atom (by decide),
            resolve_joinStr (descends_stripSlash hk hstrip), resolve_metaRoot hb]
          simp [treeOf]
      | none =>
          rw [resolve_joinStr (hdesc.suffix hne (by decide) (by decide)), resolve_metaRoot hb]
          rfl
  | sidecar suffix =>
      have hsuf : '/' ∉ '.' :: suffix ∧ 2 < ('.' :: suffix).length := by
        have : suffix ∈ SIDECARS := hkind
        simp only [SIDECARS, List.mem_cons, List.not_mem_nil, or_false] at this
        rcases this with rfl | rfl | rfl <;> decide
      show (objectSidecar bucket key suffix).resolve root = _
      rw [objectSidecar, resolve_joinStr (hdesc.suffix hne hsuf.1 hsuf.2), resolve_metaRoot hb]
      rfl
  | history =>
      show (historyPath bucket key).resolve root = _
      rw [historyPath, resolve_joinStr_atom (by decide), resolve_versionDir hb hdesc]
      simp [treeOf, compsBelow]
  | archivedData vid =>
      show (versionDataPath bucket key vid).resolve root = _
      rw [versionDataPath, resolve_joinStr_atom (atom_properId hkind (by decide) (by decide)),
        resolve_versionDir hb hdesc]
      simp [treeOf, compsBelow]
  | archivedMeta vid =>
      show (versionMetaPath bucket key vid).resolve root = _
      rw [versionMetaPath, resolve_joinStr_atom (atom_properId hkind (by decide) (by decide)),
        resolve_versionDir hb hdesc]
      simp [treeOf, compsBelow]

theorem plain_joinStr {p : UnixPath} {s : Str} (hp : p.Plain) (hs : Descends s) :
    (p.joinStr s).Plain := Plain.join hp hs

/-- The paths of a key's files never climb. -/
theorem keyPath_plain (hb : Atom bucket) (hk : validateKey key = .ok ()) {k : FileKind}
    (hkind : k.Proper) : (keyPath bucket key k).Plain := by
  have hdesc : Descends key := validateKey_plain hk
  have hne : key ≠ [] := (validateKey_ok.1 hk).1
  have hmeta : (metaRoot.joinStr bucket).Plain := plain_joinStr (by decide) hb.descends
  have hversions : (versionDir bucket key).Plain :=
    plain_joinStr (plain_joinStr (by decide) hb.descends) hdesc
  cases k with
  | payload =>
      show (objectPath bucket key).Plain
      unfold objectPath
      cases hstrip : stripSlash key with
      | some dir =>
          exact plain_joinStr (plain_joinStr hb.plain (descends_stripSlash hk hstrip))
            atom_dirMarker.descends
      | none => exact plain_joinStr hb.plain hdesc
  | metadata =>
      show (metaPath bucket key).Plain
      unfold metaPath
      cases hstrip : stripSlash key with
      | some dir =>
          exact plain_joinStr (plain_joinStr hmeta (descends_stripSlash hk hstrip))
            (show Atom (DIR_MARKER ++ JSON) by decide).descends
      | none => exact plain_joinStr hmeta (hdesc.suffix hne (by decide) (by decide))
  | sidecar suffix =>
      have hsuf : '/' ∉ '.' :: suffix ∧ 2 < ('.' :: suffix).length := by
        have : suffix ∈ SIDECARS := hkind
        simp only [SIDECARS, List.mem_cons, List.not_mem_nil, or_false] at this
        rcases this with rfl | rfl | rfl <;> decide
      exact plain_joinStr hmeta (hdesc.suffix hne hsuf.1 hsuf.2)
  | history => exact plain_joinStr hversions (show Atom HISTORY by decide).descends
  | archivedData vid =>
      exact plain_joinStr hversions (atom_properId hkind (by decide) (by decide)).descends
  | archivedMeta vid =>
      exact plain_joinStr hversions (atom_properId hkind (by decide) (by decide)).descends

theorem resolve_tmpFile (id : Uuid) (root : List Str) :
    (tmpFile id).resolve root = root ++ [SYS_DIR, TMP, id.text] := by
  rw [tmpFile, tmpDir, resolve_joinStr_atom id.atom, resolve_joinStr_atom (by decide),
    resolve_ofStr atom_sysDir.descends, atom_sysDir.compsOf]
  simp

theorem tmpFile_apart (hb : validateBucketName bucket = .ok ())
    (hk : validateKey key = .ok ()) {k : FileKind} (hkind : k.Proper) (id : Uuid)
    (root : List Str) :
    ¬ (tmpFile id).resolve root <+: (keyPath bucket key k).resolve root := by
  rw [resolve_tmpFile, resolve_keyPath (validateBucketName_atom hb) hk hkind, List.append_assoc,
    List.prefix_append_right_inj]
  have hsys : SYS_DIR ≠ bucket := fun h => ne_sysDir hb h.symm
  have hmeta : TMP ≠ META := by decide
  have hversions : TMP ≠ VERSIONS := by decide
  cases k <;> simp [treeOf, hsys, hmeta, hversions]

end FsStore

end Kerplace
