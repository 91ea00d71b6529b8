/-
# `Kerplace.Erasure.Listed` — the keys of a listing and the files they are read off

A listing takes its keys off the current metadata files that the reachable drives' walks
find, and what a key is listed as depends on the files under its names alone.
-/
import Kerplace.Erasure.Faults
import Kerplace.Erasure.Paging

namespace Kerplace

open FileTree Prog UnixPath

/-- The name of every file and directory is one a file system can have. -/
def AtomNames {J : Type} (t : Tree J) : Prop := ∀ p ∈ t.nodes, ∀ c ∈ p, Atom c

instance {J : Type} (t : Tree J) : Decidable (AtomNames t) :=
  decidable_of_iff (∀ p ∈ t.nodes.keys, ∀ c ∈ p, Atom c)
    (forall_congr' fun _ => imp_congr_left Std.ExtTreeMap.mem_keys)

namespace ErasureStore

variable {n : Nat} {site : Site n} {bucket : Str} {s s' : Cluster n Doc}

theorem mem_insert_fold {α : Type} [∀ (e : α) (out : List α), Decidable (e ∈ out)] {x : α}
    (es : List α) : ∀ out : List α, x ∈ out ∨ x ∈ es →
      x ∈ es.foldl (fun out e => if e ∈ out then out else out ++ [e]) out := by
  induction es with
  | nil => exact fun out h => h.resolve_right List.not_mem_nil
  | cons e es ih =>
      intro out h
      refine ih _ ?_
      dsimp only
      by_cases he : e ∈ out
      · rw [if_pos he]
        rcases h with h | h
        · exact .inl h
        · rcases List.mem_cons.1 h with rfl | h
          · exact .inl he
          · exact .inr h
      · rw [if_neg he]
        rcases h with h | h
        · exact .inl (List.mem_append_left _ h)
        · rcases List.mem_cons.1 h with rfl | h
          · exact .inl (List.mem_append_right _ List.mem_cons_self)
          · exact .inr h

theorem mem_walk_file {names : List Str} (hnames : CurrentNames names) {d : Fin n} :
    (names, true) ∈ (s d).walk ((rBucket bucket).resolve (site.root d)) ↔
      (storedAt site.root bucket s d names).isSome = true := by
  have hne : names ≠ [] := fun h0 => hnames.spec.2.2 (by rw [h0]; rfl)
  rw [mem_walk]
  constructor
  · rintro ⟨-, c, -, hfile⟩
    exact hfile.symm
  · intro hfile
    obtain ⟨c, hc⟩ := Option.isSome_iff_exists.1 hfile
    exact ⟨hne, _, file?_eq_some.1 hc, hfile.symm⟩

/-- A walk of the reachable drives finds a current metadata file where it is on one. -/
theorem mem_entriesUp {names : List Str} (hnames : CurrentNames names) :
    (names, true) ∈ entriesUp site bucket s ↔
      ∃ d, site.up d = true ∧ (storedAt site.root bucket s d names).isSome = true := by
  constructor
  · intro he
    have hmem := (mem_foldl_insert _ [] he).resolve_left List.not_mem_nil
    obtain ⟨found, hfound, he⟩ := List.mem_flatMap.1 hmem
    obtain ⟨d, rfl⟩ := List.mem_ofFn.1 hfound
    cases hup : site.up d with
    | false =>
        rw [hup, if_neg (by simp)] at he
        cases he
    | true =>
        rw [hup, if_pos rfl] at he
        exact ⟨d, hup, (mem_walk_file hnames).1 he⟩
  · rintro ⟨d, hup, hstored⟩
    refine mem_insert_fold _ [] (.inr (List.mem_flatMap.2 ⟨_, List.mem_ofFn.2 ⟨d, rfl⟩, ?_⟩))
    rw [if_pos hup]
    exact (mem_walk_file hnames).2 hstored

/-- Names joined to a key lead down along them. -/
theorem joinSlash_descends {names : List Str} (hne : names ≠ [])
    (hatoms : ∀ c ∈ names, Atom c) :
    Descends (joinSlash names) ∧ compsOf (joinSlash names) = names := by
  have hcomps : compsOf (joinSlash names) = names := by
    rw [compsOf, splitOn_joinSlash hne fun c hc => (hatoms c hc).1]
    refine List.filter_eq_self.2 fun c hc => ?_
    simp [(hatoms c hc).2.1, (hatoms c hc).2.2.1]
  refine ⟨⟨?_, ?_⟩, hcomps⟩
  · obtain ⟨c, rest, rfl⟩ := List.exists_cons_of_ne_nil hne
    have hc := hatoms c List.mem_cons_self
    obtain ⟨x, cs, rfl⟩ := List.exists_cons_of_ne_nil hc.2.1
    have hx : x ≠ '/' := fun h0 => hc.1 (by simp [h0])
    have hhead : (joinSlash ((x :: cs) :: rest)).head? = some x := by
      cases rest <;> simp [joinSlash, List.intercalate]
    rw [ofStr, hhead]
    simp [hx]
  · show ['.', '.'] ∉ compsOf (joinSlash names)
    rw [hcomps]
    exact fun hdots => (hatoms _ hdots).2.2.2 rfl

theorem entry_current {e : List Str × Bool} (he : (currentKey e).isSome = true) :
    e = (e.1, true) ∧ CurrentNames e.1 := by
  obtain ⟨names, f⟩ := e
  have hfile : f = true := by
    unfold currentKey at he
    split at he
    · rename_i hcond
      exact (Bool.and_eq_true _ _ ▸ hcond).1
    · cases he
  subst hfile
  exact ⟨rfl, he⟩

theorem key_of_mem {k : Str} (hk : k ∈ keysUp site bucket s) :
    ∃ d names, site.up d = true ∧ CurrentNames names ∧
      (storedAt site.root bucket s d names).isSome = true ∧ currentKey (names, true) = some k := by
  obtain ⟨e, he, hkey⟩ := List.mem_filterMap.1 hk
  obtain ⟨heq, hnames⟩ := entry_current (e := e) (Option.isSome_iff_exists.2 ⟨k, hkey⟩)
  rw [heq] at he hkey
  obtain ⟨d, hup, hstored⟩ := (mem_entriesUp hnames).1 he
  exact ⟨d, e.1, hup, hnames, hstored, hkey⟩

theorem currentKey_names {names : List Str} {k : Str} (hkey : currentKey (names, true) = some k) :
    names = names.dropLast ++ [XL_META] ∧ k = joinSlash names.dropLast := by
  have hnames : CurrentNames names := by rw [CurrentNames, hkey]; rfl
  refine ⟨(List.dropLast_append_getLast? _ hnames.spec.1).symm, ?_⟩
  unfold currentKey at hkey
  split at hkey
  · dsimp only at hkey
    split at hkey
    · cases hkey
    · exact (Option.some.inj hkey).symm
  · cases hkey

/-- The names of the metadata that is stored are file names. -/
def AtomsStored (site : Site n) (bucket : Str) (s : Cluster n Doc) : Prop :=
  ∀ d names, CurrentNames names → (storedAt site.root bucket s d names).isSome = true →
    ∀ c ∈ names, Atom c

theorem atomsStored (hatoms : ∀ d, AtomNames (s d)) : AtomsStored site bucket s := by
  intro d names hnames hstored x hx
  have hne : names ≠ [] := fun h0 => hnames.spec.2.2 (by rw [h0]; rfl)
  obtain ⟨c, hc⟩ := Option.isSome_iff_exists.1 hstored
  have hl := file?_eq_some.1 hc
  rw [look_of_ne (by simp [hne])] at hl
  exact hatoms d _ (Std.ExtTreeMap.mem_iff_isSome_getElem?.2 (by rw [hl]; rfl)) x
    (List.mem_append_right _ hx)

theorem AtomsStored.sheds (hatoms : AtomsStored site bucket s)
    (h : Sheds site.root bucket s s') : AtomsStored site bucket s' := by
  intro d names hnames hstored
  refine hatoms d names hnames ?_
  rcases h d names hnames with hsame | hgone
  · rwa [hsame] at hstored
  · rw [hgone] at hstored
    cases hstored

variable (site) in
/-- What is read of a key is what stands under its names. -/
theorem readXl_eq (hb : Atom bucket) {names : List Str} (hnames : CurrentNames names)
    (hatoms : ∀ c ∈ names, Atom c) {k : Str} (hkey : currentKey (names, true) = some k)
    (u : Cluster n Doc) :
    (site.run (readXl bucket k) u).1 =
      match firstUp site fun d =>
        ((storedAt site.root bucket u d names).bind Content.doc?).bind Doc.xl? with
      | some m => .ok m
      | none => .error .noSuchKey := by
  obtain ⟨hsplit, rfl⟩ := currentKey_names hkey
  obtain ⟨hdesc, hcomps⟩ := joinSlash_descends hnames.spec.2.2 fun c hc =>
    hatoms c (List.mem_of_mem_dropLast hc)
  have hpath : ∀ r, ((rObjV bucket (joinSlash names.dropLast) none).joinStr XL_META).resolve r =
      (rBucket bucket).resolve r ++ names := by
    intro r
    rw [resolve_joinStr_atom (by decide), rObjV, resolve_rObject hb hdesc, hcomps,
      resolve_rBucket hb, List.append_assoc, List.append_assoc, List.cons_append,
      List.singleton_append, ← hsplit]
  rw [readXl, run_readXlV]
  simp only [hpath]
  rfl

/-! ## Keys as listings show them -/

/-- A key as a listing shows it: the names of its directory joined, none of them that of the
archive. -/
structure ShownKey (k : Str) : Prop where
  ne : compsOf k ≠ []
  atoms : ∀ c ∈ compsOf k, Atom c
  live : VDIR ∉ compsOf k
  join : joinSlash (compsOf k) = k

/-- The names of a key's current metadata. -/
def metaNames (k : Str) : List Str := compsOf k ++ [XL_META]

theorem shownKey_of_names {names : List Str} {k : Str} (hkey : currentKey (names, true) = some k)
    (hatoms : ∀ c ∈ names, Atom c) : ShownKey k ∧ names = metaNames k := by
  have hnames : CurrentNames names := by rw [CurrentNames, hkey]; rfl
  obtain ⟨hsplit, rfl⟩ := currentKey_names hkey
  obtain ⟨-, hcomps⟩ := joinSlash_descends hnames.spec.2.2 fun c hc =>
    hatoms c (List.mem_of_mem_dropLast hc)
  refine ⟨⟨?_, ?_, ?_, ?_⟩, ?_⟩
  · rw [hcomps]
    exact hnames.spec.2.2
  · rw [hcomps]
    exact fun c hc => hatoms c (List.mem_of_mem_dropLast hc)
  · rw [hcomps]
    exact fun hv => hnames.spec.2.1 (List.mem_of_mem_dropLast hv)
  · rw [hcomps]
  · rw [metaNames, hcomps]
    exact hsplit

namespace ShownKey

variable {k k' : Str}

theorem descends (h : ShownKey k) : Descends k := by
  have hboth := (joinSlash_descends h.ne h.atoms).1
  rwa [h.join] at hboth

theorem currentKey (h : ShownKey k) : ErasureStore.currentKey (metaNames k, true) = some k := by
  have hlast : (metaNames k).getLast? = some XL_META := List.getLast?_concat
  have hdir : (metaNames k).dropLast = compsOf k := List.dropLast_concat
  unfold ErasureStore.currentKey
  rw [if_pos (by simp [hlast])]
  dsimp only
  rw [hdir, h.join]
  simp [h.live, h.ne]

theorem currentNames (h : ShownKey k) : CurrentNames (metaNames k) := by
  rw [CurrentNames, h.currentKey]
  rfl

theorem inj (h : ShownKey k) (h' : ShownKey k') (hcomps : compsOf k = compsOf k') : k = k' := by
  rw [← h.join, ← h'.join, hcomps]

end ShownKey

theorem mem_keysUp (hatoms : AtomsStored site bucket s) {k : Str} :
    k ∈ keysUp site bucket s ↔ ShownKey k ∧ ∃ d, site.up d = true ∧
      (storedAt site.root bucket s d (metaNames k)).isSome = true := by
  constructor
  · intro hk
    obtain ⟨d, names, hup, hnames, hstored, hkey⟩ := key_of_mem hk
    obtain ⟨hshown, rfl⟩ := shownKey_of_names hkey (hatoms d names hnames hstored)
    exact ⟨hshown, d, hup, hstored⟩
  · rintro ⟨hshown, d, hup, hstored⟩
    exact List.mem_filterMap.2 ⟨_, (mem_entriesUp hshown.currentNames).2 ⟨d, hup, hstored⟩,
      hshown.currentKey⟩

theorem keysUp_nodup_of_atoms (hatoms : AtomsStored site bucket s) :
    (keysUp site bucket s).Nodup := by
  have hentry : ∀ e ∈ entriesUp site bucket s, ∀ k, currentKey e = some k →
      e = (metaNames k, true) := by
    intro e he k hkey
    obtain ⟨heq, hnames⟩ := entry_current (e := e) (Option.isSome_iff_exists.2 ⟨k, hkey⟩)
    rw [heq] at he hkey
    obtain ⟨d, hup, hstored⟩ := (mem_entriesUp hnames).1 he
    rw [heq, ← (shownKey_of_names hkey (hatoms d e.1 hnames hstored)).2]
  refine nodup_filterMap entriesUp_nodup fun e he e' he' k hk hk' => ?_
  rw [hentry e he k hk, hentry e' he' k hk']

theorem resolve_sidecar (hb : Atom bucket) {k : Str} (hk : Descends k) {f : Str} (hf : Atom f)
    (root : List Str) :
    (rObjSidecar bucket k f).resolve root = root ++ bucket :: (compsOf k ++ [f]) := by
  rw [rObjSidecar, resolve_joinStr_atom hf, resolve_rObject hb hk, List.append_assoc,
    List.cons_append]

theorem storedAt_metaNames (hb : Atom bucket) {k : Str} (hk : Descends k) (d : Fin n) :
    storedAt site.root bucket s d (metaNames k) =
      (s d).file? ((rObjSidecar bucket k XL_META).resolve (site.root d)) := by
  rw [storedAt, resolve_sidecar hb hk (by decide), resolve_rBucket hb, metaNames,
    List.append_assoc, List.singleton_append]

end ErasureStore

end Kerplace
