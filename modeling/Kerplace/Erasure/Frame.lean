/-
# `Kerplace.Erasure.Frame` — what a call leaves alone

From contracts to clusters: a call that keeps to a region leaves on every
drive what the region spares, keeps every history proper, and gives the same
result on two clusters that agree on everything it can reach.
-/
import Kerplace.Erasure.Calls
import Kerplace.Erasure.Places

namespace Kerplace

open FileTree Prog

/-- Every history on every drive is proper. -/
def ProperCluster {n : Nat} (s : Cluster n Doc) : Prop := ∀ d, DocsIn ProperDoc (s d)

namespace Site

variable {n : Nat} {site : Site n} {R : Region Doc} {locks : Str → Prop} {α : Type}
  {p : EStore n α} {Q : α → Prop}

/-- To honour a region's contract is to honour it operation by operation on the
drives that can be reached. -/
theorem honours {I : Cluster n Doc → Prop}
    (hop : ∀ d o s, o.Within R → I s →
      o.Finds R (LocalDrive.step (site.root d) o (s d)).1 ∧
      I (Function.update s d (LocalDrive.step (site.root d) o (s d)).2)) :
    Honours site.step (storeContract n R locks) I := by
  intro o ho s hs
  cases o with
  | lock m => exact ⟨trivial, hs⟩
  | unlock m => exact ⟨trivial, hs⟩
  | drive d o =>
      have hstep : site.step (.drive d o) s =
          ((LocalDrive.stepIf (site.root d) (site.up d) o (s d)).1,
            Function.update s d (LocalDrive.stepIf (site.root d) (site.up d) o (s d)).2) :=
        rfl
      rw [hstep]
      cases hup : site.up d with
      | true => exact hop d o s ho hs
      | false =>
          rw [LocalDrive.stepIf_false, Function.update_eq_self]
          refine ⟨?_, hs⟩
          cases o with
          | read p => exact fun j hj => nomatch hj
          | _ => trivial

theorem update_forall {P : Fin n → Tree Doc → Prop} {s : Cluster n Doc} (hs : ∀ d, P d (s d))
    {d : Fin n} {t : Tree Doc} (ht : P d t) : ∀ e, P e (Function.update s d t e) := by
  intro e
  by_cases he : e = d
  · subst he
    rwa [Function.update_self]
  · rw [Function.update_of_ne he]
    exact hs e

theorem run_proper (hp : MeetsE (storeContract n R locks) p Q)
    (hstores : ∀ j, R.stores j → ProperDoc j) (hfinds : ∀ j, ProperDoc j → R.finds j)
    {s : Cluster n Doc} (hs : ProperCluster s) : ProperCluster (site.run p s).2 := by
  have hon : Honours site.step (storeContract n R locks) ProperCluster :=
    honours fun d o s ho hs => ⟨LocalDrive.step_finds hfinds o (hs d),
      update_forall hs (LocalDrive.step_docs hstores ho (hs d))⟩
  exact (MeetsE.run hon hp hs).2

/-- A call leaves on every drive what its region spares. -/
theorem run_frame (hp : MeetsE (storeContract n R locks) p Q)
    (hstores : ∀ j, R.stores j → ProperDoc j) (hfinds : ∀ j, ProperDoc j → R.finds j)
    {s : Cluster n Doc} (hs : ProperCluster s) (d : Fin n) (q : List Str)
    (hq : R.Spares (site.root d) q) : ((site.run p s).2 d).look q = (s d).look q := by
  have hon : Honours site.step (storeContract n R locks) fun s' =>
      ProperCluster s' ∧ (s' d).look q = (s d).look q := by
    refine honours fun e o s' ho hs' => ⟨?_, ?_, ?_⟩
    · exact LocalDrive.step_finds hfinds o (hs'.1 e)
    · exact update_forall hs'.1 (LocalDrive.step_docs hstores ho (hs'.1 e))
    · by_cases he : d = e
      · subst he
        rw [Function.update_self, LocalDrive.step_frame ho hq]
        exact hs'.2
      · rw [Function.update_of_ne he]
        exact hs'.2
  exact (MeetsE.run hon hp ⟨hs, rfl⟩).2.2

/-- A call leaves the files its region does not change. -/
theorem run_file? (hp : MeetsE (storeContract n R locks) p Q)
    (hstores : ∀ j, R.stores j → ProperDoc j) (hfinds : ∀ j, ProperDoc j → R.finds j)
    {s : Cluster n Doc} (hs : ProperCluster s) (d : Fin n) (q : List Str)
    (hq : R.SparesFile (site.root d) q) : ((site.run p s).2 d).file? q = (s d).file? q := by
  have hon : Honours site.step (storeContract n R locks) fun s' =>
      ProperCluster s' ∧ (s' d).file? q = (s d).file? q := by
    refine honours fun e o s' ho hs' => ⟨?_, ?_, ?_⟩
    · exact LocalDrive.step_finds hfinds o (hs'.1 e)
    · exact update_forall hs'.1 (LocalDrive.step_docs hstores ho (hs'.1 e))
    · by_cases he : d = e
      · subst he
        rw [Function.update_self, LocalDrive.step_file? ho hq]
        exact hs'.2
      · rw [Function.update_of_ne he]
        exact hs'.2
  exact (MeetsE.run hon hp ⟨hs, rfl⟩).2.2

/-- A file the region does not write stays as it was, or goes with a directory. -/
theorem run_file?_or_gone (hp : MeetsE (storeContract n R locks) p Q)
    (hstores : ∀ j, R.stores j → ProperDoc j) (hfinds : ∀ j, ProperDoc j → R.finds j)
    {s : Cluster n Doc} (hs : ProperCluster s) (d : Fin n) {q : List Str}
    (hq : ∀ p, R.writes p → ¬ p.resolve (site.root d) <+: q) :
    ((site.run p s).2 d).file? q = (s d).file? q ∨ ((site.run p s).2 d).file? q = none := by
  have hon : Honours site.step (storeContract n R locks) fun s' =>
      ProperCluster s' ∧ ((s' d).file? q = (s d).file? q ∨ (s' d).file? q = none) := by
    refine honours fun e o s' ho hs' => ⟨?_, ?_, ?_⟩
    · exact LocalDrive.step_finds hfinds o (hs'.1 e)
    · exact update_forall hs'.1 (LocalDrive.step_docs hstores ho (hs'.1 e))
    · by_cases he : d = e
      · subst he
        rw [Function.update_self]
        rcases LocalDrive.step_file?_or_gone ho hq (s' d) with hsame | hgone
        · rw [hsame]
          exact hs'.2
        · exact .inr hgone
      · rw [Function.update_of_ne he]
        exact hs'.2
  exact (MeetsE.run hon hp ⟨hs, .inl rfl⟩).2.2

theorem run_readOnly (hp : MeetsE (storeContract n R locks) p Q) (hR : R.ReadOnly)
    (hfinds : ∀ j, R.finds j) (s : Cluster n Doc) : (site.run p s).2 = s := by
  have hon : Honours site.step (storeContract n R locks) (· = s) := by
    refine honours fun d o s' ho hs' => ⟨?_, ?_⟩
    · cases o with
      | read q => exact fun j _ => hfinds j
      | _ => trivial
    · rw [LocalDrive.step_readOnly hR ho, Function.update_eq_self, hs']
  exact (MeetsE.run hon hp rfl).2

theorem modeOf_spared {bucket : Str} (hp : MeetsE (storeContract n R locks) p Q)
    (hstores : ∀ j, R.stores j → ProperDoc j) (hfinds : ∀ j, ProperDoc j → R.finds j)
    {s : Cluster n Doc} (hs : ProperCluster s)
    (hspares : ∀ d, R.Spares (site.root d)
      ((rBucketCfg bucket VERSIONING).resolve (site.root d))) :
    ErasureStore.modeOf site bucket (site.run p s).2 = ErasureStore.modeOf site bucket s := by
  have hdoc : ∀ d, ErasureStore.docAt Doc.status? ((site.run p s).2 d)
      ((rBucketCfg bucket VERSIONING).resolve (site.root d)) =
      ErasureStore.docAt Doc.status? (s d)
        ((rBucketCfg bucket VERSIONING).resolve (site.root d)) := fun d =>
    ErasureStore.docAt_congr _ (run_frame hp hstores hfinds hs d _ (hspares d))
  simp only [ErasureStore.modeOf, ErasureStore.docsUp, hdoc]

end Site

/-! ## Where an object's paths lie -/

theorem ProperId.atom {v : Str} (h : ProperId v) : UnixPath.Atom v := by
  rcases h with rfl | ⟨u, rfl⟩
  · decide
  · exact u.atom

theorem atom_objectFile {f : Str} (hf : f ∈ OBJECT_FILES) : UnixPath.Atom f := by
  revert f
  decide

section

variable {bucket key : Str} {p : UnixPath}

/-- An object's files lie below its directory. -/
theorem ObjectPath.resolve (h : ObjectPath bucket key p) (root : List Str) :
    ∃ x rest, p.resolve root = (rObject bucket key).resolve root ++ x :: rest := by
  cases h with
  | file hf => exact ⟨_, [], UnixPath.resolve_joinStr_atom (atom_objectFile hf) root⟩
  | history =>
      refine ⟨VDIR, [HISTORY], ?_⟩
      rw [rHistory, UnixPath.resolve_joinStr_atom (by decide),
        UnixPath.resolve_joinStr_atom (by decide), List.append_assoc]
      rfl
  | archived hv hf =>
      rename_i v f
      refine ⟨VDIR, [v, f], ?_⟩
      have hatom : UnixPath.Atom f := by
        simp only [List.mem_cons, List.not_mem_nil, or_false] at hf
        rcases hf with rfl | rfl <;> decide
      rw [rObjV, UnixPath.resolve_joinStr_atom hatom,
        UnixPath.resolve_joinStr_atom hv.atom, UnixPath.resolve_joinStr_atom (by decide),
        List.append_assoc, List.append_assoc]
      rfl

theorem ObjectDir.resolve (h : ObjectDir bucket key p) (root : List Str) :
    ∃ rest, p.resolve root = (rObject bucket key).resolve root ++ rest := by
  cases h with
  | dir => exact ⟨[], (List.append_nil _).symm⟩
  | versions => exact ⟨_, UnixPath.resolve_joinStr_atom (by decide) root⟩
  | archive hv =>
      rename_i v
      refine ⟨[VDIR, v], ?_⟩
      rw [rObjV, UnixPath.resolve_joinStr_atom hv.atom,
        UnixPath.resolve_joinStr_atom (by decide), List.append_assoc]
      rfl

theorem PrunePath.resolve (hb : UnixPath.Atom bucket) (hk : UnixPath.Descends key)
    (h : PrunePath bucket key p) (root : List Str) :
    p.resolve root <+: (rObject bucket key).resolve root := by
  obtain ⟨-, -, habs, hup⟩ := h
  have hplain : (rObject bucket key).Plain :=
    UnixPath.Plain.join hb.plain hk
  have hp : p.Plain :=
    ⟨habs.trans hplain.1, fun hmem => hplain.2
      (List.mem_of_mem_dropLast (hup.subset hmem))⟩
  rw [hp.resolve, hplain.resolve, List.prefix_append_right_inj]
  exact hup.trans (List.dropLast_prefix _)

theorem objectRegion_changes (h : (objectRegion bucket key).Changes p) (root : List Str) :
    (rObject bucket key).resolve root <+: p.resolve root := by
  rcases h with h | h
  · obtain ⟨x, rest, h⟩ := ObjectPath.resolve h root
    exact h ▸ List.prefix_append _ _
  · obtain ⟨rest, h⟩ := ObjectDir.resolve h root
    exact h ▸ List.prefix_append _ _

theorem objectRegion_spares (hb : UnixPath.Atom bucket) (hk : UnixPath.Descends key)
    {root q : List Str} (hq : Apart ((rObject bucket key).resolve root) q) :
    (objectRegion bucket key).Spares root q := by
  refine ⟨fun p hp => ?_, fun p hp h0 => hq.2 (h0 ▸ hp.resolve hb hk root)⟩
  obtain ⟨rest, hrest⟩ := objectRegion_changes hp root
  rw [← hrest]
  exact hq.below rest

end

end Kerplace
