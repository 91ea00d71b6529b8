/-
# `Kerplace.Lib.FileTree` — a file system as a finite map of nodes

A tree maps the absolute paths that exist, other than the root, to a
directory or to a file with its content.  The structure carries the one fact
every file system keeps: the parent of whatever exists is a directory.  The
operations are the usual system calls, each `none` when the call fails; a
call that fails leaves the tree as it was.

Symbolic links, permissions and disk space are not modelled.  Names and
contents are arbitrary.
-/
import Mathlib.Tactic.Linarith
import Mathlib.Data.List.Infix

namespace Kerplace

/-- What stands at a path: a directory, or a file with its content. -/
inductive Node (C : Type) where
  | dir
  | file (c : C)
  deriving DecidableEq

section

variable {N C : Type} [Ord N] [Std.TransOrd N] [Std.LawfulEqOrd N]

/-- A finite tree of directories and files below an ever-present root. -/
structure FileTree (N C : Type) [Ord N] [Std.TransOrd N] [Std.LawfulEqOrd N] where
  nodes : Std.ExtTreeMap (List N) (Node C)
  parents : ∀ p x, p ++ [x] ∈ nodes → p = [] ∨ nodes[p]? = some .dir

namespace FileTree

/-- What stands at `p`; the root is always a directory. -/
def look (t : FileTree N C) (p : List N) : Option (Node C) :=
  if p = [] then some .dir else t.nodes[p]?

/-- The content of the file at `p`. -/
def file? (t : FileTree N C) (p : List N) : Option C :=
  match t.look p with
  | some (.file c) => some c
  | _ => none

/-- Whether a directory stands at `p`. -/
def isDir (t : FileTree N C) (p : List N) : Bool :=
  match t.look p with
  | some .dir => true
  | _ => false

/-- The tree in which nothing but the root exists. -/
def empty : FileTree N C := ⟨∅, by simp⟩

@[simp] theorem look_nil (t : FileTree N C) : t.look [] = some .dir := rfl

theorem look_of_ne {t : FileTree N C} {p : List N} (hp : p ≠ []) :
    t.look p = t.nodes[p]? := if_neg hp

@[simp] theorem look_empty (p : List N) (hp : p ≠ []) :
    (empty : FileTree N C).look p = none := by
  simp [look_of_ne hp, empty]

theorem file?_eq_some {t : FileTree N C} {p : List N} {c : C} :
    t.file? p = some c ↔ t.look p = some (.file c) := by
  unfold file?
  split <;> simp_all

theorem isDir_iff {t : FileTree N C} {p : List N} :
    t.isDir p = true ↔ t.look p = some .dir := by
  unfold isDir
  split <;> simp_all

theorem isDir_eq_false {t : FileTree N C} {p : List N} :
    t.isDir p = false ↔ t.look p ≠ some .dir := by
  rw [Bool.eq_false_iff, ne_eq, ne_eq, isDir_iff]

theorem ne_nil_of_file? {t : FileTree N C} {p : List N} (h : (t.file? p).isSome) :
    p ≠ [] := by
  rintro rfl
  simp [file?] at h

theorem file?_congr {t u : FileTree N C} {p q : List N}
    (h : t.look p = u.look q) : t.file? p = u.file? q := by
  simp only [file?, h]

theorem isDir_congr {t u : FileTree N C} {p q : List N}
    (h : t.look p = u.look q) : t.isDir p = u.isDir q := by
  simp only [isDir, h]

theorem look_parent {t : FileTree N C} {p : List N} {x : N} {n : Node C}
    (h : t.look (p ++ [x]) = some n) : t.look p = some .dir := by
  rw [look_of_ne (by simp)] at h
  rcases t.parents p x (Std.ExtTreeMap.mem_iff_isSome_getElem?.2 (by simp [h])) with
    rfl | hdir
  · rfl
  · by_cases hp : p = []
    · rw [hp, look_nil]
    · rw [look_of_ne hp, hdir]

theorem look_ancestor {t : FileTree N C} {p : List N} :
    ∀ {s : List N} {n : Node C}, s ≠ [] → t.look (p ++ s) = some n →
      t.look p = some .dir := by
  intro s
  induction s using List.reverseRecOn with
  | nil => exact fun h => absurd rfl h
  | append_singleton s x ih =>
      intro n _ h
      rw [← List.append_assoc] at h
      have hdir := look_parent h
      by_cases hs : s = []
      · simpa [hs] using hdir
      · exact ih hs hdir

theorem look_below {t : FileTree N C} {p s : List N} (hp : t.look p ≠ some .dir)
    (hs : s ≠ []) : t.look (p ++ s) = none := by
  cases h : t.look (p ++ s) with
  | none => rfl
  | some n => exact absurd (look_ancestor hs h) hp

theorem look_below_none {t : FileTree N C} {p : List N} (s : List N)
    (hp : t.look p = none) : t.look (p ++ s) = none := by
  by_cases hs : s = []
  · simpa [hs] using hp
  · exact look_below (by simp [hp]) hs

/-! ## Changing one node -/

/-- Put node `n` at `p`, where the parent is a directory and nothing that has
anything below it is replaced by a file. -/
def put (t : FileTree N C) (p : List N) (n : Node C)
    (hp : ∀ q x, p = q ++ [x] → t.look q = some .dir)
    (hn : n = .dir ∨ t.look p ≠ some .dir) : FileTree N C where
  nodes := t.nodes.insert p n
  parents := by
    intro q x h
    by_cases hq : q = []
    · exact .inl hq
    refine .inr ?_
    have hlook : t.look q = some .dir := by
      rcases Std.ExtTreeMap.mem_insert.1 h with heq | hmem
      · exact hp q x (Std.LawfulEqCmp.eq_of_compare heq)
      · rcases t.parents q x hmem with rfl | hdir
        · rfl
        · rw [look_of_ne hq, hdir]
    rw [Std.ExtTreeMap.getElem?_insert]
    split
    · rename_i heq
      obtain rfl : p = q := Std.LawfulEqCmp.eq_of_compare heq
      rcases hn with rfl | hn
      · rfl
      · exact absurd hlook hn
    · rwa [look_of_ne hq] at hlook

theorem look_put {t : FileTree N C} {p : List N} {n : Node C} {hp hn}
    (hne : p ≠ []) [DecidableEq N] (q : List N) :
    (t.put p n hp hn).look q = if q = p then some n else t.look q := by
  by_cases hq : q = []
  · subst hq
    simp [hne.symm]
  · rw [look_of_ne hq, look_of_ne hq]
    simp only [put, Std.ExtTreeMap.getElem?_insert, Std.LawfulEqCmp.compare_eq_iff_eq,
      @eq_comm _ p q]

/-- Keep the nodes `keep` accepts, a set closed under taking parents. -/
def restrict (t : FileTree N C) (keep : List N → Bool)
    (hk : ∀ q x, keep (q ++ [x]) = true → keep q = true) : FileTree N C where
  nodes := t.nodes.filter fun q _ => keep q
  parents := by
    intro q x h
    rw [Std.ExtTreeMap.mem_iff_isSome_getElem?, Std.ExtTreeMap.getElem?_filter'] at h
    obtain ⟨n, hn⟩ := Option.isSome_iff_exists.1 h
    rw [Option.filter_eq_some_iff] at hn
    rcases t.parents q x (Std.ExtTreeMap.mem_iff_isSome_getElem?.2 (by simp [hn.1]))
      with rfl | hdir
    · exact .inl rfl
    · refine .inr ?_
      rw [Std.ExtTreeMap.getElem?_filter', hdir, Option.filter_eq_some_iff]
      exact ⟨rfl, hk q x hn.2⟩

theorem look_restrict {t : FileTree N C} {keep : List N → Bool} {hk} (q : List N)
    (hq : q ≠ []) :
    (t.restrict keep hk).look q = if keep q then t.look q else none := by
  rw [look_of_ne hq, look_of_ne hq]
  simp only [restrict, Std.ExtTreeMap.getElem?_filter']
  cases t.nodes[q]? <;> cases keep q <;> simp [Option.filter]

/-! ## Removing -/

section Ops

variable [DecidableEq N]

/-- Take away whatever stands at `p` or below it. -/
def cut (t : FileTree N C) (p : List N) : FileTree N C :=
  t.restrict (fun q => !p.isPrefixOf q) fun q x h => by
    simp only [Bool.not_eq_true', Bool.eq_false_iff, ne_eq, List.isPrefixOf_iff_prefix]
      at h ⊢
    exact fun hpq => h (hpq.trans (List.prefix_append q [x]))

theorem look_cut {t : FileTree N C} {p : List N} (hp : p ≠ []) (q : List N) :
    (t.cut p).look q = if p <+: q then none else t.look q := by
  by_cases hq : q = []
  · subst hq
    simp [hp]
  · rw [cut, look_restrict q hq]
    by_cases h : p <+: q
    · simp [h]
    · simp [h, List.isPrefixOf_iff_prefix]

/-- Remove the file at `p`. -/
def removeFile (t : FileTree N C) (p : List N) : Option (FileTree N C) :=
  if (t.file? p).isSome then some (t.cut p) else none

/-- Whether nothing stands below `p`. -/
def childless (t : FileTree N C) (p : List N) : Bool :=
  t.nodes.toList.all fun e => decide (e.1 = p) || !p.isPrefixOf e.1

/-- Remove the directory at `p`, which must be empty. -/
def removeDir (t : FileTree N C) (p : List N) : Option (FileTree N C) :=
  if p ≠ [] ∧ t.isDir p = true ∧ t.childless p = true then some (t.cut p) else none

/-- Remove the directory at `p` with everything in it. -/
def removeDirAll (t : FileTree N C) (p : List N) : Option (FileTree N C) :=
  if p ≠ [] ∧ t.isDir p = true then some (t.cut p) else none

theorem childless_iff {t : FileTree N C} {p : List N} (hp : p ≠ []) :
    t.childless p = true ↔ ∀ s, s ≠ [] → t.look (p ++ s) = none := by
  simp only [childless, List.all_eq_true, Prod.forall,
    Std.ExtTreeMap.mem_toList_iff_getElem?_eq_some, Bool.or_eq_true, decide_eq_true_eq,
    Bool.not_eq_true', Bool.eq_false_iff, ne_eq, List.isPrefixOf_iff_prefix]
  constructor
  · intro h s hs
    cases hl : t.look (p ++ s) with
    | none => rfl
    | some n =>
        rw [look_of_ne (by simp [hp])] at hl
        rcases h _ _ hl with heq | hnot
        · exact absurd (List.append_right_eq_self.1 heq) hs
        · exact absurd (List.prefix_append p s) hnot
  · intro h q n hq
    by_contra hcon
    rw [not_or, not_not] at hcon
    obtain ⟨hne, s, rfl⟩ := hcon
    have := h s (fun hs => hne (by simp [hs]))
    rw [look_of_ne (by simp [hp]), hq] at this
    cases this

theorem look_cut_leaf {t : FileTree N C} {p : List N} (hp : p ≠ [])
    (hleaf : ∀ s, s ≠ [] → t.look (p ++ s) = none) (q : List N) :
    (t.cut p).look q = if q = p then none else t.look q := by
  rw [look_cut hp]
  by_cases hq : q = p
  · simp [hq]
  · rw [if_neg hq]
    split
    · rename_i hpre
      obtain ⟨s, rfl⟩ := hpre
      exact (hleaf s fun hs => hq (by simp [hs])).symm
    · rfl

theorem look_removeFile {t t' : FileTree N C} {p : List N}
    (h : t.removeFile p = some t') (q : List N) :
    t'.look q = if q = p then none else t.look q := by
  unfold removeFile at h
  split at h
  · rename_i hf
    cases h
    obtain ⟨c, hc⟩ := Option.isSome_iff_exists.1 hf
    refine look_cut_leaf (ne_nil_of_file? hf) (fun s hs => look_below ?_ hs) q
    rw [file?_eq_some.1 hc]
    simp
  · cases h

theorem look_removeDir {t t' : FileTree N C} {p : List N}
    (h : t.removeDir p = some t') (q : List N) :
    t'.look q = if q = p then none else t.look q := by
  unfold removeDir at h
  split at h
  · rename_i hg
    cases h
    exact look_cut_leaf hg.1 ((childless_iff hg.1).1 hg.2.2) q
  · cases h

theorem removeDir_dir {t t' : FileTree N C} {p : List N} (h : t.removeDir p = some t') :
    t.look p = some .dir := by
  unfold removeDir at h
  split at h
  · rename_i hg
    exact isDir_iff.1 hg.2.1
  · cases h

theorem file?_removeDir {t t' : FileTree N C} {p : List N}
    (h : t.removeDir p = some t') (q : List N) : t'.file? q = t.file? q := by
  have hd := removeDir_dir h
  simp only [file?, look_removeDir h]
  by_cases hq : q = p
  · simp [hq, hd]
  · simp [hq]

theorem look_removeDirAll {t t' : FileTree N C} {p : List N}
    (h : t.removeDirAll p = some t') (q : List N) :
    t'.look q = if p <+: q then none else t.look q := by
  unfold removeDirAll at h
  split at h
  · rename_i hg
    cases h
    exact look_cut hg.1 q
  · cases h

theorem file?_removeDirAll {t t' : FileTree N C} {p : List N}
    (h : t.removeDirAll p = some t') {q : List N} (hq : t.file? q = none) :
    t'.file? q = none := by
  by_cases hp : p <+: q
  · rw [file?, look_removeDirAll h, if_pos hp]
  · rw [file?_congr ((look_removeDirAll h q).trans (if_neg hp)), hq]

/-! ## Creating -/

/-- Write a file: its directory must exist and must not be one itself. -/
def write (t : FileTree N C) (p : List N) (c : C) : Option (FileTree N C) :=
  if h : p ≠ [] ∧ t.isDir p.dropLast = true ∧ t.isDir p = false then
    some (t.put p (.file c)
      (fun q x hq => by
        subst hq
        simpa [isDir_iff] using h.2.1)
      (.inr (isDir_eq_false.1 h.2.2)))
  else none

theorem look_write {t t' : FileTree N C} {p : List N} {c : C}
    (h : t.write p c = some t') (q : List N) :
    t'.look q = if q = p then some (.file c) else t.look q := by
  unfold write at h
  split at h
  · rename_i hg
    cases h
    exact look_put hg.1 q
  · cases h

omit [DecidableEq N] in
theorem write_isSome {t : FileTree N C} {p : List N} {x : N} {c : C} :
    (t.write (p ++ [x]) c).isSome = true ↔
      t.look p = some .dir ∧ t.look (p ++ [x]) ≠ some .dir := by
  unfold write
  split
  · rename_i hg
    simp only [Option.isSome_some, true_iff]
    exact ⟨isDir_iff.1 (by simpa using hg.2.1), isDir_eq_false.1 hg.2.2⟩
  · rename_i hg
    simp only [Option.isSome_none, Bool.false_eq_true, false_iff]
    rintro ⟨hp, hx⟩
    exact hg ⟨by simp, by simpa [isDir_iff] using hp, isDir_eq_false.2 hx⟩

/-- The nodes with every path of `ps` not yet there made a directory. -/
def mkdirs (m : Std.ExtTreeMap (List N) (Node C)) (ps : List (List N)) :
    Std.ExtTreeMap (List N) (Node C) :=
  ps.foldl (fun m q => m.insertIfNew q .dir) m

theorem getElem?_mkdirs (ps : List (List N)) :
    ∀ (m : Std.ExtTreeMap (List N) (Node C)) (q : List N),
      (mkdirs m ps)[q]? = (m[q]?).or (if q ∈ ps then some .dir else none) := by
  induction ps with
  | nil => intro m q; simp [mkdirs]
  | cons p ps ih =>
      intro m q
      have hstep : mkdirs m (p :: ps) = mkdirs (m.insertIfNew p .dir) ps := rfl
      rw [hstep, ih, Std.ExtTreeMap.getElem?_insertIfNew]
      by_cases hpq : p = q
      · subst hpq
        by_cases hm : p ∈ m <;> simp [hm]
      · simp [Std.LawfulEqCmp.compare_eq_iff_eq, hpq, Ne.symm hpq]

/-- Create a directory and its missing parents; fails on a file in the way. -/
def createDirAll (t : FileTree N C) (p : List N) : Option (FileTree N C) :=
  if h : (p.inits.all fun q => (t.file? q).isNone) = true then
    some
      { nodes := mkdirs t.nodes p.inits
        parents := by
          intro q x hmem
          by_cases hq : q = []
          · exact .inl hq
          refine .inr ?_
          rw [Std.ExtTreeMap.mem_iff_isSome_getElem?, getElem?_mkdirs] at hmem
          rw [getElem?_mkdirs]
          simp only [List.all_eq_true, List.mem_inits, Option.isNone_iff_eq_none] at h
          by_cases hpre : q <+: p
          · have hf := h q hpre
            rw [file?, look_of_ne hq] at hf
            cases hn : t.nodes[q]? with
            | none => simp [hpre]
            | some n =>
                cases n with
                | dir => rfl
                | file c => simp [hn] at hf
          · have hnot : ¬ q ++ [x] <+: p := fun hx =>
              hpre ((List.prefix_append q [x]).trans hx)
            simp only [List.mem_inits, hnot, if_false, Option.or_none] at hmem
            rcases t.parents q x (Std.ExtTreeMap.mem_iff_isSome_getElem?.2 hmem)
              with rfl | hdir
            · exact absurd rfl hq
            · rw [hdir]
              rfl }
  else none

theorem createDirAll_isSome {t : FileTree N C} {p : List N} :
    (t.createDirAll p).isSome = true ↔ ∀ q, q <+: p → t.file? q = none := by
  unfold createDirAll
  split <;> rename_i hg <;>
    simpa only [List.all_eq_true, List.mem_inits, Option.isNone_iff_eq_none,
      Option.isSome_some, Option.isSome_none, true_iff, Bool.false_eq_true, false_iff]
      using hg

theorem look_createDirAll {t t' : FileTree N C} {p : List N}
    (h : t.createDirAll p = some t') (q : List N) :
    t'.look q = if q <+: p then some .dir else t.look q := by
  have hfree := createDirAll_isSome.1 (Option.isSome_of_eq_some h)
  by_cases hq : q = []
  · subst hq
    simp
  unfold createDirAll at h
  split at h
  · cases h
    rw [look_of_ne hq, look_of_ne hq]
    simp only [getElem?_mkdirs, List.mem_inits]
    by_cases hpre : q <+: p
    · have hf := hfree q hpre
      rw [file?, look_of_ne hq] at hf
      cases hn : t.nodes[q]? with
      | none => simp [hpre]
      | some n =>
          cases n with
          | dir => simp [hpre]
          | file c => simp [hn] at hf
    · simp [hpre]
  · cases h

theorem file?_createDirAll {t t' : FileTree N C} {p : List N}
    (h : t.createDirAll p = some t') (q : List N) : t'.file? q = t.file? q := by
  simp only [file?, look_createDirAll h]
  by_cases hq : q <+: p
  · have hnone := createDirAll_isSome.1 (Option.isSome_of_eq_some h) q hq
    rw [file?] at hnone
    rw [if_pos hq]
    exact hnone.symm
  · rw [if_neg hq]

/-- Rewrite the content of the file at `p`, where `f` may refuse. -/
def update (t : FileTree N C) (p : List N) (f : C → Option C) :
    Option (FileTree N C) :=
  (t.file? p).bind f |>.bind fun c => t.write p c

omit [DecidableEq N] in
theorem write_of_file? {t : FileTree N C} {p : List N} {c : C} (c' : C)
    (h : t.file? p = some c) : ∃ t', t.write p c' = some t' := by
  have hp : p ≠ [] := ne_nil_of_file? (Option.isSome_of_eq_some h)
  obtain ⟨q, x, rfl⟩ : ∃ q x, p = q ++ [x] :=
    ⟨p.dropLast, p.getLast hp, (List.dropLast_append_getLast hp).symm⟩
  have hl := file?_eq_some.1 h
  exact Option.isSome_iff_exists.1 (write_isSome.2 ⟨look_parent hl, by simp [hl]⟩)

/-! ## Renaming -/

/-- The nodes with the subtree at `src` standing at `dst` instead. -/
def graft (t : FileTree N C) (src dst : List N) :
    Std.ExtTreeMap (List N) (Node C) :=
  (t.nodes.filter fun q _ => !src.isPrefixOf q && !dst.isPrefixOf q).insertMany
    (t.nodes.toList.filterMap fun e =>
      if src.isPrefixOf e.1 then some (dst ++ e.1.drop src.length, e.2) else none)

theorem mem_grafted {t : FileTree N C} {src dst : List N} {e : List N × Node C} :
    e ∈ (t.nodes.toList.filterMap fun e =>
      if src.isPrefixOf e.1 then some (dst ++ e.1.drop src.length, e.2) else none) ↔
      ∃ s, e.1 = dst ++ s ∧ t.nodes[src ++ s]? = some e.2 := by
  simp only [List.mem_filterMap, Prod.exists,
    Std.ExtTreeMap.mem_toList_iff_getElem?_eq_some, Option.ite_none_right_eq_some,
    Option.some.injEq, List.isPrefixOf_iff_prefix]
  constructor
  · rintro ⟨q, n, hq, ⟨s, rfl⟩, rfl⟩
    exact ⟨s, by simp, hq⟩
  · rintro ⟨s, he, hs⟩
    exact ⟨src ++ s, e.2, hs, List.prefix_append src s, by simp [← he]⟩

theorem getElem?_graft (t : FileTree N C) (src dst s : List N) :
    (t.graft src dst)[dst ++ s]? = t.nodes[src ++ s]? := by
  cases hs : t.nodes[src ++ s]? with
  | some n =>
      refine Std.ExtTreeMap.getElem?_insertMany_list_of_mem
        (Std.LawfulEqCmp.compare_eq_iff_eq.2 rfl) ?_ (mem_grafted.2 ⟨s, rfl, hs⟩)
      refine List.Pairwise.filterMap _ ?_ Std.ExtTreeMap.distinct_keys_toList
      intro a b hab a' ha b' hb
      simp only [Option.ite_none_right_eq_some, Option.some.injEq,
        List.isPrefixOf_iff_prefix] at ha hb
      obtain ⟨⟨sa, hsa⟩, rfl⟩ := ha
      obtain ⟨⟨sb, hsb⟩, rfl⟩ := hb
      simp only [Std.LawfulEqCmp.compare_eq_iff_eq] at hab ⊢
      intro heq
      refine hab ?_
      rw [← hsa, ← hsb] at heq ⊢
      simpa using heq
  | none =>
      rw [graft, Std.ExtTreeMap.getElem?_insertMany_list_of_contains_eq_false,
        Std.ExtTreeMap.getElem?_filter']
      · have : (!src.isPrefixOf (dst ++ s) && !dst.isPrefixOf (dst ++ s)) = false := by
          simp [List.isPrefixOf_iff_prefix]
        cases t.nodes[dst ++ s]? <;> simp [Option.filter, this]
      · rw [Bool.eq_false_iff, ne_eq, List.contains_iff_mem, List.mem_map]
        rintro ⟨e, he, heq⟩
        obtain ⟨s', hs', hn⟩ := mem_grafted.1 he
        rw [hs', List.append_cancel_left_eq] at heq
        rw [heq, hs] at hn
        cases hn

theorem getElem?_graft_of_not (t : FileTree N C) {src dst q : List N}
    (hd : ¬ dst <+: q) :
    (t.graft src dst)[q]? = if src <+: q then none else t.nodes[q]? := by
  rw [graft, Std.ExtTreeMap.getElem?_insertMany_list_of_contains_eq_false,
    Std.ExtTreeMap.getElem?_filter']
  · by_cases hs : src <+: q
    · rw [if_pos hs]
      cases t.nodes[q]? <;> simp [Option.filter, List.isPrefixOf_iff_prefix.2 hs]
    · rw [if_neg hs]
      have : (!src.isPrefixOf q && !dst.isPrefixOf q) = true := by
        simp [Bool.eq_false_iff, hs, hd]
      cases t.nodes[q]? <;> simp [Option.filter, this]
  · rw [Bool.eq_false_iff, ne_eq, List.contains_iff_mem, List.mem_map]
    rintro ⟨e, he, rfl⟩
    obtain ⟨s, hs, -⟩ := mem_grafted.1 he
    exact hd (hs ▸ List.prefix_append dst s)

/-- Whether what stands at `src` may take the place of what stands at `dst`: a
file that of anything but a directory, a directory that of an empty one. -/
def replaces (t : FileTree N C) (src dst : List N) : Bool :=
  match t.look src, t.look dst with
  | none, _ => false
  | some (.file _), some .dir => false
  | some (.file _), _ => true
  | some .dir, none => true
  | some .dir, some (.file _) => false
  | some .dir, some .dir => t.childless dst

/-- Move what stands at `src` to `dst`, replacing a file by a file or an empty
directory by a directory.  A path renamed to itself stays. -/
def rename (t : FileTree N C) (src dst : List N) : Option (FileTree N C) :=
  if src = dst then (t.look src).map fun _ => t
  else if h : dst ≠ [] ∧ ¬ src <+: dst ∧ t.isDir dst.dropLast = true ∧
      t.replaces src dst = true then
    some
      { nodes := t.graft src dst
        parents := by
          intro q x hmem
          obtain ⟨hdst, hsub, hpar, -⟩ := h
          by_cases hq : q = []
          · exact .inl hq
          refine .inr ?_
          rw [Std.ExtTreeMap.mem_iff_isSome_getElem?] at hmem
          by_cases hd : dst <+: q
          · obtain ⟨s, rfl⟩ := hd
            rw [List.append_assoc, getElem?_graft, ← List.append_assoc] at hmem
            have hsrc : src ≠ [] := fun h0 => hsub (h0 ▸ List.nil_prefix)
            obtain ⟨n, hn⟩ := Option.isSome_iff_exists.1 hmem
            rw [← look_of_ne (by simp)] at hn
            rw [getElem?_graft, ← look_of_ne (by simp [hsrc])]
            exact look_parent hn
          · by_cases hx : dst <+: q ++ [x]
            · have hdq : dst = q ++ [x] := by
                rcases List.prefix_concat_iff.1 hx with h1 | h1
                · exact h1
                · exact absurd h1 hd
              have hsq : ¬ src <+: q := fun hs =>
                hsub (hdq ▸ hs.trans (List.prefix_append q [x]))
              rw [getElem?_graft_of_not t hd, if_neg hsq, ← look_of_ne hq]
              simpa [hdq, isDir_iff] using hpar
            · rw [getElem?_graft_of_not t hx] at hmem
              by_cases hsx : src <+: q ++ [x]
              · simp [hsx] at hmem
              · have hsq : ¬ src <+: q := fun hs =>
                  hsx (hs.trans (List.prefix_append q [x]))
                rw [if_neg hsx] at hmem
                rw [getElem?_graft_of_not t hd, if_neg hsq]
                rcases t.parents q x (Std.ExtTreeMap.mem_iff_isSome_getElem?.2 hmem)
                  with rfl | hdir
                · exact absurd rfl hq
                · exact hdir }
  else none

theorem rename_isSome {t : FileTree N C} {src dst : List N} (hne : src ≠ dst) :
    (t.rename src dst).isSome = true ↔ dst ≠ [] ∧ ¬ src <+: dst ∧
      t.isDir dst.dropLast = true ∧ t.replaces src dst = true := by
  unfold rename
  rw [if_neg hne]
  split <;> simp_all

/-- Renaming to another path moves the subtree and touches nothing else. -/
theorem look_rename {t t' : FileTree N C} {src dst : List N} (hne : src ≠ dst)
    (h : t.rename src dst = some t') (q : List N) :
    t'.look q =
      if dst <+: q then t.look (src ++ q.drop dst.length)
      else if src <+: q then none else t.look q := by
  unfold rename at h
  rw [if_neg hne] at h
  split at h
  · rename_i hg
    cases h
    obtain ⟨hdst, hsub, -, -⟩ := hg
    have hsrc : src ≠ [] := fun h0 => hsub (h0 ▸ List.nil_prefix)
    by_cases hq : q = []
    · subst hq
      simp [hdst, hsrc]
    rw [look_of_ne hq]
    by_cases hd : dst <+: q
    · obtain ⟨s, rfl⟩ := hd
      rw [if_pos (List.prefix_append dst s), List.drop_left,
        look_of_ne (by simp [hsrc])]
      exact getElem?_graft t src dst s
    · rw [if_neg hd, look_of_ne hq]
      exact getElem?_graft_of_not t hd
  · cases h

/-- A file can be moved onto anything but a directory, into a directory. -/
theorem rename_file_isSome {t : FileTree N C} {src dst : List N} {x : N} {c : C}
    (hsrc : t.file? src = some c) (hdir : t.look dst = some .dir)
    (hdst : t.look (dst ++ [x]) ≠ some .dir) :
    (t.rename src (dst ++ [x])).isSome = true := by
  have hl := file?_eq_some.1 hsrc
  unfold rename
  split
  · simp [hl]
  · rename_i hne
    have hsub : ¬ src <+: dst ++ [x] := by
      intro hp
      rcases List.prefix_concat_iff.1 hp with h1 | ⟨s, hs⟩
      · exact hne h1
      · rw [← hs] at hdir
        by_cases h0 : s = []
        · simp [h0, hl] at hdir
        · simp [look_below (t := t) (p := src) (by simp [hl]) h0] at hdir
    rw [dif_pos]
    · rfl
    · refine ⟨by simp, hsub, by simpa [isDir_iff] using hdir, ?_⟩
      unfold replaces
      split <;> simp_all

/-- Moving a file changes the two paths alone. -/
theorem rename_file {t : FileTree N C} {src dst : List N} {x : N} {c : C}
    (hsrc : t.file? src = some c) (hdir : t.look dst = some .dir)
    (hdst : t.look (dst ++ [x]) ≠ some .dir) (hne : src ≠ dst ++ [x]) :
    ∃ t', t.rename src (dst ++ [x]) = some t' ∧ ∀ q, t'.look q =
      if q = dst ++ [x] then some (.file c) else if q = src then none else t.look q := by
  have hl := file?_eq_some.1 hsrc
  obtain ⟨t', h⟩ := Option.isSome_iff_exists.1 (rename_file_isSome hsrc hdir hdst)
  refine ⟨t', h, fun q => ?_⟩
  rw [look_rename hne h]
  by_cases hq : q = dst ++ [x]
  · subst hq
    simp [hl]
  rw [if_neg hq]
  have hlow : ∀ {p s : List N}, t.look p ≠ some .dir → p ++ s ≠ p →
      t.look (p ++ s) = none := fun hp hs => look_below hp fun h0 => hs (by simp [h0])
  have hfile : t.look src ≠ some .dir := by simp [hl]
  by_cases hd : dst ++ [x] <+: q
  · obtain ⟨s, rfl⟩ := hd
    have hs : s ≠ [] := fun h0 => hq (by simp [h0])
    have hother : dst ++ [x] ++ s ≠ src := by
      rintro rfl
      rw [look_below hdst hs] at hl
      cases hl
    rw [if_pos (List.prefix_append _ _), List.drop_left, look_below hfile hs,
      if_neg hother, hlow hdst hq]
  rw [if_neg hd]
  by_cases ht : src <+: q
  · obtain ⟨s, rfl⟩ := ht
    rw [if_pos (List.prefix_append _ _)]
    by_cases hs : src ++ s = src
    · rw [if_pos hs]
    · rw [if_neg hs, hlow hfile hs]
  · rw [if_neg ht, if_neg fun (h0 : q = src) => ht (h0 ▸ List.prefix_refl _)]

theorem rename_src {t t' : FileTree N C} {src dst : List N}
    (h : t.rename src dst = some t') : t.look src ≠ none := by
  intro hn
  unfold rename at h
  split at h
  · simp [hn] at h
  · simp [replaces, hn] at h

theorem rename_self {t t' : FileTree N C} {p : List N} (h : t.rename p p = some t') :
    t' = t := by
  unfold rename at h
  rw [if_pos rfl] at h
  obtain ⟨-, -, rfl⟩ := Option.map_eq_some_iff.1 h
  rfl

/-! ## Listing -/

/-- The names directly below the directory at `p`, each with whether it is a
directory. -/
def children (t : FileTree N C) (p : List N) : Option (List (N × Bool)) :=
  if t.isDir p = true then
    some (t.nodes.toList.filterMap fun e =>
      match e.1.getLast? with
      | some x => if e.1.dropLast = p then some (x, t.isDir e.1) else none
      | none => none)
  else none

/-- Everything below `p`, as paths relative to it, each with whether it is a
file. -/
def walk (t : FileTree N C) (p : List N) : List (List N × Bool) :=
  t.nodes.toList.filterMap fun e =>
    if p.isPrefixOf e.1 && decide (e.1 ≠ p) then
      some (e.1.drop p.length, (t.file? e.1).isSome)
    else none

theorem mem_walk {t : FileTree N C} {p s : List N} {f : Bool} :
    (s, f) ∈ t.walk p ↔
      s ≠ [] ∧ ∃ n, t.look (p ++ s) = some n ∧ f = (t.file? (p ++ s)).isSome := by
  simp only [walk, List.mem_filterMap, Prod.exists,
    Std.ExtTreeMap.mem_toList_iff_getElem?_eq_some, Option.ite_none_right_eq_some,
    Option.some.injEq, Prod.mk.injEq, Bool.and_eq_true, List.isPrefixOf_iff_prefix,
    decide_eq_true_eq]
  constructor
  · rintro ⟨q, n, hq, ⟨⟨s', rfl⟩, hne⟩, rfl, rfl⟩
    rw [List.drop_left]
    have hs : s' ≠ [] := fun h => hne (by simp [h])
    exact ⟨hs, n, by rw [look_of_ne (by simp [hs]), hq], rfl⟩
  · rintro ⟨hs, n, hn, rfl⟩
    rw [look_of_ne (by simp [hs])] at hn
    exact ⟨p ++ s, n, hn, ⟨List.prefix_append p s, by simp [hs]⟩, by simp, rfl⟩

end Ops

end FileTree

end

end Kerplace
