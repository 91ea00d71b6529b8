/-
# `Kerplace.Erasure.Paging` — the sharded store's listings in pages

The directories with metadata that the drives' walks find are distinct as keys: file names
are not empty and have no slash in them, so a joined path can be taken apart again.
-/
import Kerplace.Erasure.Buckets
import Kerplace.Storage.Paging

namespace Kerplace

open FileTree Prog UnixPath

/-- The names in a tree are file names. -/
def Named {J : Type} (t : Tree J) : Prop := ∀ p ∈ t.nodes, ∀ c ∈ p, c ≠ [] ∧ '/' ∉ c

/-- The components of a walk's entry are file names. -/
def NamedEntry (e : List Str × Bool) : Prop := e.1 ≠ [] ∧ ∀ c ∈ e.1, c ≠ [] ∧ '/' ∉ c

theorem namedEntry_of_walk {J : Type} {t : Tree J} (ht : Named t) {p : List Str}
    {e : List Str × Bool} (he : e ∈ t.walk p) : NamedEntry e := by
  obtain ⟨s, f⟩ := e
  obtain ⟨hs, n, hlook, -⟩ := mem_walk.1 he
  refine ⟨hs, fun c hc => ?_⟩
  rw [look_of_ne (by simp [hs])] at hlook
  refine ht (p ++ s) ?_ c (List.mem_append_right _ hc)
  exact Std.ExtTreeMap.mem_iff_isSome_getElem?.2 (by rw [hlook]; rfl)

theorem splitOn_joinSlash {comps : List Str} (hne : comps ≠ []) (h : ∀ c ∈ comps, '/' ∉ c) :
    (joinSlash comps).splitOn '/' = comps :=
  List.splitOn_intercalate '/' h hne

theorem nodup_filterMap {α β : Type} {f : α → Option β} {l : List α} (hl : l.Nodup)
    (hf : ∀ a ∈ l, ∀ a' ∈ l, ∀ b, f a = some b → f a' = some b → a = a') :
    (l.filterMap f).Nodup := by
  refine List.Pairwise.filterMap f (R := fun a a' => a ≠ a' ∧ a ∈ l ∧ a' ∈ l) ?_ ?_
  · rintro a a' ⟨hne, ha, ha'⟩ b hb b' hb' rfl
    exact hne (hf a ha a' ha' b hb hb')
  · exact List.Pairwise.imp_of_mem (fun ha ha' hne => ⟨hne, ha, ha'⟩) hl

namespace ErasureStore

variable {n : Nat} {site : Site n} {s : Cluster n Doc} {bucket : Str}

/-- The keys a listing of a bucket finds. -/
def keysUp (site : Site n) (bucket : Str) (s : Cluster n Doc) : List Str :=
  (entriesUp site bucket s).filterMap currentKey

theorem nodup_foldl_insert {α : Type} [∀ (e : α) (out : List α), Decidable (e ∈ out)]
    (es : List α) :
    ∀ out : List α, out.Nodup →
      (es.foldl (fun out e => if e ∈ out then out else out ++ [e]) out).Nodup := by
  induction es with
  | nil => exact fun out h => h
  | cons e es ih =>
      intro out h
      refine ih _ ?_
      dsimp only
      split
      · exact h
      · rename_i he
        refine List.nodup_append.2 ⟨h, List.nodup_singleton e, fun a ha b hb => ?_⟩
        rw [List.mem_singleton] at hb
        rintro rfl
        exact he (hb ▸ ha)

theorem mem_foldl_insert {α : Type} [∀ (e : α) (out : List α), Decidable (e ∈ out)]
    {x : α} (es : List α) :
    ∀ out : List α, x ∈ es.foldl (fun out e => if e ∈ out then out else out ++ [e]) out →
      x ∈ out ∨ x ∈ es := by
  induction es with
  | nil => exact fun out h => .inl h
  | cons e es ih =>
      intro out h
      rcases ih _ h with h | h
      · dsimp only at h
        split at h
        · exact .inl h
        · rcases List.mem_append.1 h with h | h
          · exact .inl h
          · exact .inr (List.mem_cons.2 (.inl (List.mem_singleton.1 h)))
      · exact .inr (List.mem_cons_of_mem _ h)

theorem entriesUp_nodup : (entriesUp site bucket s).Nodup :=
  nodup_foldl_insert _ [] List.nodup_nil

theorem namedEntry_of_entriesUp (hs : ∀ d, Named (s d)) {e : List Str × Bool}
    (he : e ∈ entriesUp site bucket s) : NamedEntry e := by
  have hmem := (mem_foldl_insert _ [] he).resolve_left List.not_mem_nil
  obtain ⟨found, hfound, he⟩ := List.mem_flatMap.1 hmem
  obtain ⟨d, rfl⟩ := List.mem_ofFn.1 hfound
  split at he
  · exact namedEntry_of_walk (hs d) he
  · cases he

/-- The entry a key was read off. -/
theorem currentKey_eq_some {e : List Str × Bool} (he : NamedEntry e) {k : Str}
    (h : currentKey e = some k) : e = (k.splitOn '/' ++ [XL_META], true) := by
  obtain ⟨comps, f⟩ := e
  unfold currentKey at h
  split at h
  · rename_i hcond
    simp only [Bool.and_eq_true, decide_eq_true_eq] at hcond
    dsimp only at h
    split at h
    · cases h
    · rename_i hdir
      obtain rfl := Option.some.inj h
      have hne : comps.dropLast ≠ [] := fun h0 => hdir (by simp [h0])
      rw [splitOn_joinSlash hne fun c hc => (he.2 c (List.mem_of_mem_dropLast hc)).2]
      have hlast : comps.dropLast ++ [XL_META] = comps :=
        List.dropLast_append_getLast? _ hcond.2
      rw [hlast, hcond.1]
  · cases h

theorem keysUp_nodup (hs : ∀ d, Named (s d)) : (keysUp site bucket s).Nodup := by
  refine nodup_filterMap entriesUp_nodup fun e he e' he' k hk hk' => ?_
  rw [currentKey_eq_some (namedEntry_of_entriesUp hs he) hk,
    currentKey_eq_some (namedEntry_of_entriesUp hs he') hk']

/-- All metadata of the bucket's keys can be read. -/
def AllReadable (site : Site n) (bucket : Str) (s : Cluster n Doc) : Prop :=
  ∀ k ∈ keysUp site bucket s, ∃ m, site.run (readXl bucket k) s = (.ok m, s)

theorem run_listedObjects {obj : Str → ObjectMeta} :
    ∀ ks : List Str, (∀ k ∈ ks, ∃ m, site.run (readXl bucket k) s = (.ok m, s) ∧
        obj k = metaToObject k m) →
      site.run (listedObjects ks bucket) s = (.ok (ks.map obj), s) := by
  intro ks
  induction ks with
  | nil => exact fun _ => rfl
  | cons k ks ih =>
      intro h
      obtain ⟨m, hm, hobj⟩ := h k List.mem_cons_self
      have hrest := ih fun k' hk' => h k' (List.mem_cons_of_mem _ hk')
      rw [listedObjects, Site.run_bind, Site.run_outcome, hm, andThen_ok, Site.run_bind, hrest,
        andThen_ok, List.map_cons, hobj]
      rfl

/-- A listing of a bucket that is there: a page of the keys found. -/
theorem run_listObjectsV2 (hbucket : bucketUp site bucket s = true) {obj : Str → ObjectMeta}
    (hobj : ∀ k ∈ keysUp site bucket s, ∃ m, site.run (readXl bucket k) s = (.ok m, s) ∧
      obj k = metaToObject k m) (pre : Str) (delimiter token startAfter : Option Str)
    (maxKeys : Nat) :
    site.run (listObjectsV2 bucket pre delimiter token startAfter maxKeys) s =
      (.ok ((pageKeys pre delimiter token startAfter maxKeys
        (((keysUp site bucket s).filter fun k => pre.isPrefixOf k).insertionSort (· ≤ ·))
        ⟨[], [], 0, false, none⟩).listing obj), s) := by
  have hchosen : ∀ k ∈ (pageKeys pre delimiter token startAfter maxKeys
      (((keysUp site bucket s).filter fun k => pre.isPrefixOf k).insertionSort (· ≤ ·))
      ⟨[], [], 0, false, none⟩).chosen, k ∈ keysUp site bucket s := by
    intro k hk
    have hk := chosen_subset hk
    exact List.mem_of_mem_filter ((List.mem_insertionSort _).1 hk)
  rw [listObjectsV2, Site.run_bind, run_headBucket, hbucket, if_pos rfl, andThen_ok,
    Site.run_bind, run_entries, andThen_ok]
  dsimp only
  rw [Site.run_bind]
  show andThen (site.run (listedObjects (pageKeys pre delimiter token startAfter maxKeys
    (((keysUp site bucket s).filter fun k => pre.isPrefixOf k).insertionSort (· ≤ ·))
    ⟨[], [], 0, false, none⟩).chosen bucket) s) _ = _
  rw [run_listedObjects _ fun k hk => hobj k (hchosen k hk)]
  rfl

theorem exists_objects (hread : AllReadable site bucket s) :
    ∃ obj : Str → ObjectMeta, (∀ k, (obj k).key = k) ∧
      ∀ k ∈ keysUp site bucket s, ∃ m, site.run (readXl bucket k) s = (.ok m, s) ∧
        obj k = metaToObject k m := by
  classical
  refine ⟨fun k =>
    if h : ∃ m, site.run (readXl bucket k) s = (.ok m, s) then metaToObject k h.choose
    else ⟨k, 0, [], 0, [], [], false, none, none⟩, fun k => ?_, fun k hk => ?_⟩
  · dsimp only
    split <;> rfl
  · exact ⟨(hread k hk).choose, (hread k hk).choose_spec, dif_pos (hread k hk)⟩

end ErasureStore

end Kerplace
