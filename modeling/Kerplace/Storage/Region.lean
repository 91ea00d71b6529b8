/-
# `Kerplace.Storage.Region` — which part of a drive a program works on

A region says which paths a program may read, which directories it may list,
which files it may write or remove, which directories it may make or remove
with all they hold, which it may prune when they are empty, what it may store,
and what it counts on finding.  An operation within a region leaves everything
apart from its paths as it was (`step_frame`), and adds no document it does
not store itself (`step_docs`).
-/
import Kerplace.Storage.Drive

namespace Kerplace

open FileTree

/-! ## Apart -/

/-- Neither path is an ancestor of the other. -/
def Apart (p q : List Str) : Prop := ¬ p <+: q ∧ ¬ q <+: p

theorem Apart.symm {p q : List Str} (h : Apart p q) : Apart q p := ⟨h.2, h.1⟩

theorem apart_of_ne {dir p q : List Str} {x y : Str} (h : x ≠ y) :
    Apart (dir ++ x :: p) (dir ++ y :: q) := by
  constructor <;> rw [List.prefix_append_right_inj] <;> intro hp
  · exact h (List.cons_prefix_cons.1 hp).1
  · exact h (List.cons_prefix_cons.1 hp).1.symm

theorem Apart.below {p q : List Str} (h : Apart p q) (s : List Str) : Apart (p ++ s) q := by
  refine ⟨fun hp => h.1 ((List.prefix_append p s).trans hp), fun hq => ?_⟩
  rcases List.prefix_or_prefix_of_prefix hq (List.prefix_append p s) with h' | h'
  · exact h.2 h'
  · exact h.1 h'

/-! ## Regions -/

/-- What a program may do on a drive. -/
structure Region (J : Type) where
  reads : UnixPath → Prop
  lists : UnixPath → Prop
  writes : UnixPath → Prop
  trees : UnixPath → Prop
  prunes : UnixPath → Prop
  stores : J → Prop
  finds : J → Prop

variable {J : Type}

/-- An operation stays in a region. -/
def DriveOp.Within (R : Region J) : DriveOp J → Prop
  | .online => R.reads ⟨false, []⟩
  | .read p => R.reads p
  | .readAt p _ _ => R.reads p
  | .stat p => R.reads p
  | .readDir p => R.lists p
  | .walk p => R.lists p
  | .write p c => R.writes p ∧ ∀ j, c = .doc j → R.stores j
  | .create p => R.writes p
  | .append p _ => R.writes p
  | .shutdown p => R.writes p
  | .rename src dst => R.writes src ∧ R.writes dst
  | .removeFile p => R.writes p
  | .removeDir p => R.prunes p ∨ R.trees p
  | .removeDirAll p => R.trees p
  | .createDirAll p => R.trees p

/-- An answer holds only documents that a region counts on finding. -/
def DriveOp.Finds (R : Region J) : (o : DriveOp J) → o.Ans → Prop
  | .read _, a => ∀ j, a = some (.doc j) → R.finds j
  | _, _ => True

/-- A region that allows more and counts on less. -/
structure Region.Le (R R' : Region J) : Prop where
  reads : ∀ p, R.reads p → R'.reads p
  lists : ∀ p, R.lists p → R'.lists p
  writes : ∀ p, R.writes p → R'.writes p
  trees : ∀ p, R.trees p → R'.trees p
  prunes : ∀ p, R.prunes p → R'.prunes p
  stores : ∀ j, R.stores j → R'.stores j
  finds : ∀ j, R'.finds j → R.finds j

theorem DriveOp.Within.mono {R R' : Region J} (h : R.Le R') {o : DriveOp J}
    (ho : o.Within R) : o.Within R' := by
  cases o with
  | online => exact h.reads _ ho
  | read p => exact h.reads p ho
  | readAt p off len => exact h.reads p ho
  | stat p => exact h.reads p ho
  | readDir p => exact h.lists p ho
  | walk p => exact h.lists p ho
  | write p c => exact ⟨h.writes p ho.1, fun j hj => h.stores j (ho.2 j hj)⟩
  | create p => exact h.writes p ho
  | append p data => exact h.writes p ho
  | shutdown p => exact h.writes p ho
  | rename src dst => exact ⟨h.writes src ho.1, h.writes dst ho.2⟩
  | removeFile p => exact h.writes p ho
  | removeDir p => exact ho.imp (h.prunes p) (h.trees p)
  | removeDirAll p => exact h.trees p ho
  | createDirAll p => exact h.trees p ho

theorem DriveOp.Finds.mono {R R' : Region J} (h : R.Le R') {o : DriveOp J} {a : o.Ans}
    (ha : o.Finds R' a) : o.Finds R a := by
  cases o with
  | read p => exact fun j hj => h.finds j (ha j hj)
  | _ => trivial

/-- A region that writes nothing. -/
structure Region.ReadOnly (R : Region J) : Prop where
  writes : ∀ p, ¬ R.writes p
  trees : ∀ p, ¬ R.trees p
  prunes : ∀ p, ¬ R.prunes p

/-- The paths at or below which an operation may change files. -/
def DriveOp.Alters (p : UnixPath) : DriveOp J → Prop
  | .create p' => p = p'
  | .append p' _ => p = p'
  | .rename src dst => p = src ∨ p = dst
  | .removeFile p' => p = p'
  | .removeDirAll p' => p = p'
  | _ => False

namespace Region

/-- The paths a region changes. -/
def Changes (R : Region J) (p : UnixPath) : Prop := R.writes p ∨ R.trees p

/-- Nothing the region changes or prunes meets `q`. -/
def Spares (R : Region J) (root q : List Str) : Prop :=
  (∀ p, R.Changes p → Apart (p.resolve root) q) ∧ ∀ p, R.prunes p → p.resolve root ≠ q

/-- Nothing the region changes is `q` or above it. -/
def SparesFile (R : Region J) (root q : List Str) : Prop :=
  ∀ p, R.Changes p → ¬ p.resolve root <+: q

theorem Spares.file {R : Region J} {root q : List Str} (h : R.Spares root q) :
    R.SparesFile root q := fun p hp => (h.1 p hp).1

end Region

namespace LocalDrive

variable {R : Region J} {root q : List Str} {o : DriveOp J}

/-- What an operation may have made of the node at `q`: nothing, a change at or
below a path it writes, an empty directory removed, or a directory made. -/
inductive Effect (root q : List Str) (o : DriveOp J) (t t' : Tree J) : Prop where
  | kept (h : t'.look q = t.look q)
  | removed (p : UnixPath) (hp : o.Alters p) (hq : p.resolve root <+: q)
      (h : t'.look q = none)
  | stored (p : UnixPath) (c : Content J) (ho : o = .write p c) (hq : p.resolve root <+: q)
      (h : t'.look q = some (.file c))
  | filled (p : UnixPath) (b : Bytes) (hp : o.Alters p) (hq : p.resolve root <+: q)
      (h : t'.look q = some (.file (.raw b)))
  | moved (p : UnixPath) (q' : List Str) (hp : o.Alters p) (hq : p.resolve root <+: q)
      (h : t'.look q = t.look q')
  | pruned (p : UnixPath) (ho : o = .removeDir p) (hq : p.resolve root = q)
      (hdir : t.look q = some .dir) (h : t'.look q = none)
  | made (p : UnixPath) (ho : o = .createDirAll p) (hq : q <+: p.resolve root)
      (hfile : t.file? q = none) (h : t'.look q = some .dir)

theorem attempt_snd {P : Tree J → Prop} {t : Tree J} {r : Option (Tree J)} (hold : P t)
    (hnew : ∀ t', r = some t' → P t') : P (attempt t r).2 := by
  cases r with
  | none => exact hold
  | some t' => exact hnew t' rfl

theorem step_effect (root q : List Str) (o : DriveOp J) (t : Tree J) :
    Effect root q o t (step root o t).2 := by
  cases o with
  | online => exact .kept rfl
  | read p => exact .kept rfl
  | readAt p off len => exact .kept rfl
  | stat p => exact .kept rfl
  | readDir p => exact .kept rfl
  | walk p => exact .kept rfl
  | shutdown p => exact .kept rfl
  | write p c =>
      refine attempt_snd (.kept rfl) fun t' h => ?_
      have hl := look_write h q
      split at hl
      · rename_i hq
        exact .stored p c rfl (hq ▸ List.prefix_refl _) hl
      · exact .kept hl
  | create p =>
      refine attempt_snd (.kept rfl) fun t' h => ?_
      have hl := look_write h q
      split at hl
      · rename_i hq
        exact .filled p [] rfl (hq ▸ List.prefix_refl _) hl
      · exact .kept hl
  | append p data =>
      refine attempt_snd (.kept rfl) fun t' h => ?_
      simp only [update, Option.bind_eq_some_iff, Option.map_eq_some_iff] at h
      obtain ⟨c', ⟨c, -, b, -, rfl⟩, hw⟩ := h
      have hl := look_write hw q
      split at hl
      · rename_i hq
        exact .filled p _ rfl (hq ▸ List.prefix_refl _) hl
      · exact .kept hl
  | rename src dst =>
      refine attempt_snd (.kept rfl) fun t' h => ?_
      by_cases hne : src.resolve root = dst.resolve root
      · rw [hne] at h
        exact .kept (by rw [rename_self h])
      · have hl := look_rename hne h q
        split at hl
        · rename_i hq
          exact .moved dst _ (.inr rfl) hq hl
        · split at hl
          · rename_i hq
            exact .removed src (.inl rfl) hq hl
          · exact .kept hl
  | removeFile p =>
      refine attempt_snd (.kept rfl) fun t' h => ?_
      have hl := look_removeFile h q
      split at hl
      · rename_i hq
        exact .removed p rfl (hq ▸ List.prefix_refl _) hl
      · exact .kept hl
  | removeDir p =>
      refine attempt_snd (.kept rfl) fun t' h => ?_
      have hl := look_removeDir h q
      split at hl
      · rename_i hq
        exact .pruned p rfl hq.symm (hq ▸ removeDir_dir h) hl
      · exact .kept hl
  | removeDirAll p =>
      refine attempt_snd (.kept rfl) fun t' h => ?_
      have hl := look_removeDirAll h q
      split at hl
      · rename_i hq
        exact .removed p rfl hq hl
      · exact .kept hl
  | createDirAll p =>
      refine attempt_snd (.kept rfl) fun t' h => ?_
      have hl := look_createDirAll h q
      split at hl
      · rename_i hq
        exact .made p rfl hq (createDirAll_isSome.1 (Option.isSome_of_eq_some h) q hq) hl
      · exact .kept hl

theorem step_readOnly (hR : R.ReadOnly) (ho : o.Within R) (t : Tree J) :
    (step root o t).2 = t := by
  cases o with
  | write p c => exact absurd ho.1 (hR.writes p)
  | create p => exact absurd ho (hR.writes p)
  | append p data => exact absurd ho (hR.writes p)
  | rename src dst => exact absurd ho.1 (hR.writes src)
  | removeFile p => exact absurd ho (hR.writes p)
  | removeDir p => exact (ho.elim (hR.prunes p) (hR.trees p)).elim
  | removeDirAll p => exact absurd ho (hR.trees p)
  | createDirAll p => exact absurd ho (hR.trees p)
  | _ => rfl

theorem alters_changes (ho : o.Within R) {p : UnixPath} (hp : o.Alters p) :
    R.Changes p := by
  cases o with
  | rename src dst => exact .inl (hp.elim (fun h => h ▸ ho.1) fun h => h ▸ ho.2)
  | create p' => exact .inl (hp ▸ ho)
  | append p' data => exact .inl (hp ▸ ho)
  | removeFile p' => exact .inl (hp ▸ ho)
  | removeDirAll p' => exact .inr (hp ▸ ho)
  | _ => exact hp.elim

/-- An operation leaves what its region spares. -/
theorem step_frame (ho : o.Within R) (hq : R.Spares root q) (t : Tree J) :
    (step root o t).2.look q = t.look q := by
  cases step_effect root q o t with
  | kept h => exact h
  | removed p hp hpq h => exact absurd hpq (hq.1 p (alters_changes ho hp)).1
  | stored p c hw hpq h =>
      subst hw
      exact absurd hpq (hq.1 p (.inl ho.1)).1
  | filled p b hp hpq h => exact absurd hpq (hq.1 p (alters_changes ho hp)).1
  | moved p q' hp hpq h => exact absurd hpq (hq.1 p (alters_changes ho hp)).1
  | pruned p hr hpq hdir h =>
      subst hr
      rcases ho with ho | ho
      · exact absurd hpq (hq.2 p ho)
      · exact absurd (hpq ▸ List.prefix_refl _) (hq.1 p (.inr ho)).1
  | made p hm hpq hfile h =>
      subst hm
      exact absurd hpq (hq.1 p (.inr ho)).2

theorem step_file? (ho : o.Within R) (hq : R.SparesFile root q) (t : Tree J) :
    (step root o t).2.file? q = t.file? q := by
  cases step_effect root q o t with
  | kept h => exact file?_congr h
  | removed p hp hpq h => exact absurd hpq (hq p (alters_changes ho hp))
  | stored p c hw hpq h =>
      subst hw
      exact absurd hpq (hq p (.inl ho.1))
  | filled p b hp hpq h => exact absurd hpq (hq p (alters_changes ho hp))
  | moved p q' hp hpq h => exact absurd hpq (hq p (alters_changes ho hp))
  | pruned p hr hpq hdir h => simp only [file?, h, hdir]
  | made p hm hpq hfile h =>
      rw [hfile, file?, h]

/-- A file that the region does not write stays as it was, or goes with a directory. -/
theorem step_file?_or_gone (ho : o.Within R) (hq : ∀ p, R.writes p → ¬ p.resolve root <+: q)
    (t : Tree J) :
    (step root o t).2.file? q = t.file? q ∨ (step root o t).2.file? q = none := by
  let R' : Region J := { R with trees := fun _ => False }
  have hspares : R'.SparesFile root q := fun p hp => hp.elim (hq p) False.elim
  let Gives : Tree J → Prop := fun u => u.file? q = t.file? q ∨ u.file? q = none
  cases o with
  | removeDirAll p =>
      refine attempt_snd (P := Gives) (.inl rfl) fun t' h => ?_
      by_cases hpq : p.resolve root <+: q
      · exact .inr (by rw [file?, look_removeDirAll h, if_pos hpq])
      · exact .inl (file?_congr ((look_removeDirAll h q).trans (if_neg hpq)))
  | removeDir p =>
      refine attempt_snd (P := Gives) (.inl rfl) fun t' h => ?_
      exact .inl (file?_removeDir h q)
  | createDirAll p =>
      refine attempt_snd (P := Gives) (.inl rfl) fun t' h => ?_
      exact .inl (file?_createDirAll h q)
  | write p c => exact .inl (step_file? (R := R') (o := .write p c) ho hspares t)
  | create p => exact .inl (step_file? (R := R') (o := .create p) ho hspares t)
  | append p data => exact .inl (step_file? (R := R') (o := .append p data) ho hspares t)
  | rename src dst => exact .inl (step_file? (R := R') (o := .rename src dst) ho hspares t)
  | removeFile p => exact .inl (step_file? (R := R') (o := .removeFile p) ho hspares t)
  | _ => exact .inl rfl

end LocalDrive

/-! ## Documents -/

/-- Every document on the drive is one of `D`. -/
def DocsIn (D : J → Prop) (t : Tree J) : Prop :=
  ∀ q j, t.look q = some (.file (.doc j)) → D j

theorem LocalDrive.step_finds {R : Region J} {root : List Str} {D : J → Prop}
    (hD : ∀ j, D j → R.finds j) (o : DriveOp J) {t : Tree J} (ht : DocsIn D t) :
    o.Finds R (step root o t).1 := by
  cases o with
  | read p => exact fun j hj => hD j (ht _ j (file?_eq_some.1 hj))
  | _ => trivial

theorem LocalDrive.step_docs {R : Region J} {root : List Str} {o : DriveOp J}
    {D : J → Prop} (hD : ∀ j, R.stores j → D j) (ho : o.Within R) {t : Tree J}
    (ht : DocsIn D t) : DocsIn D (step root o t).2 := by
  intro q j hj
  cases step_effect root q o t with
  | kept h => exact ht q j (h ▸ hj)
  | removed p hp hpq h => simp [h] at hj
  | stored p c hw hpq h =>
      subst hw
      rw [h] at hj
      exact hD j (ho.2 j (Node.file.inj (Option.some.inj hj)))
  | filled p b hp hpq h => simp [h] at hj
  | moved p q' hp hpq h => exact ht q' j (h ▸ hj)
  | pruned p hr hpq hdir h => simp [h] at hj
  | made p hm hpq hfile h => simp [h] at hj

/-! ## Files alone -/

/-- An operation changes no file but those of `W`, makes no directory but those of such
files, and stores no document but those of `D`.  Removing empty directories is free. -/
def DriveOp.Writes (W : UnixPath → Prop) (D : J → Prop) : DriveOp J → Prop
  | .write p c => W p ∧ ∀ j, c = .doc j → D j
  | .create p => W p
  | .append p _ => W p
  | .removeFile p => W p
  | .removeDirAll p => W p
  | .rename src dst => W src ∧ W dst
  | .createDirAll p => ∃ p', W p' ∧ p'.parent = some p
  | _ => True

/-- An answer holds only documents of `D`. -/
def DriveOp.Holds (D : J → Prop) : (o : DriveOp J) → o.Ans → Prop
  | .read _, a => ∀ j, a = some (.doc j) → D j
  | _, _ => True

/-- The contract of programs that change the files of `W` alone. -/
def treeContract (W : UnixPath → Prop) (D : J → Prop) :
    Prog.Contract (DriveOp J) DriveOp.Ans where
  may := DriveOp.Writes W D
  gives := DriveOp.Holds D

namespace LocalDrive

variable {W : UnixPath → Prop} {D : J → Prop} {root q : List Str} {o : DriveOp J}

theorem alters_writes (ho : o.Writes W D) {p : UnixPath} (hp : o.Alters p) : W p := by
  cases o with
  | rename src dst => exact hp.elim (fun h => h ▸ ho.1) fun h => h ▸ ho.2
  | create p' => exact hp ▸ ho
  | append p' data => exact hp ▸ ho
  | removeFile p' => exact hp ▸ ho
  | removeDirAll p' => exact hp ▸ ho
  | _ => exact hp.elim

theorem step_writes (ho : o.Writes W D) {q : List Str}
    (hq : ∀ p, W p → ¬ p.resolve root <+: q) (t : Tree J) :
    (step root o t).2.file? q = t.file? q := by
  cases step_effect root q o t with
  | kept h => exact file?_congr h
  | removed p hp hpq h => exact absurd hpq (hq p (alters_writes ho hp))
  | stored p c hw hpq h =>
      subst hw
      exact absurd hpq (hq p ho.1)
  | filled p b hp hpq h => exact absurd hpq (hq p (alters_writes ho hp))
  | moved p q' hp hpq h => exact absurd hpq (hq p (alters_writes ho hp))
  | pruned p hr hpq hdir h => simp only [file?, h, hdir]
  | made p hm hpq hfile h =>
      rw [hfile, file?, h]

/-- Documents stay those of `D`. -/
theorem step_writes_docs (ho : o.Writes W D) {t : Tree J} (ht : DocsIn D t) :
    o.Holds D (step root o t).1 ∧ DocsIn D (step root o t).2 := by
  constructor
  · cases o with
    | read p => exact fun j hj => ht _ j (file?_eq_some.1 hj)
    | _ => trivial
  · intro q j hj
    cases step_effect root q o t with
    | kept h => exact ht q j (h ▸ hj)
    | removed p hp hpq h => simp [h] at hj
    | stored p c hw hpq h =>
        subst hw
        rw [h] at hj
        exact ho.2 j (Node.file.inj (Option.some.inj hj))
    | filled p b hp hpq h => simp [h] at hj
    | moved p q' hp hpq h => exact ht q' j (h ▸ hj)
    | pruned p hr hpq hdir h => simp [h] at hj
    | made p hm hpq hfile h => simp [h] at hj

/-- A node that no path of `W` is, or is above, and that no directory of such a path is, or is
below, stays, but for an empty directory that goes. -/
theorem step_writes_look (ho : o.Writes W D) {q : List Str}
    (hq : ∀ p, W p → ¬ p.resolve root <+: q)
    (hdir : ∀ p p', W p' → p'.parent = some p → ¬ q <+: p.resolve root) (t : Tree J) :
    (step root o t).2.look q = t.look q ∨ (step root o t).2.look q = none := by
  cases step_effect root q o t with
  | kept h => exact .inl h
  | removed p hp hpq h => exact .inr h
  | stored p c hw hpq h =>
      subst hw
      exact absurd hpq (hq p ho.1)
  | filled p b hp hpq h => exact absurd hpq (hq p (alters_writes ho hp))
  | moved p q' hp hpq h => exact absurd hpq (hq p (alters_writes ho hp))
  | pruned p hr hpq hd h => exact .inr h
  | made p hm hpq hfile h =>
      subst hm
      obtain ⟨p', hp', hparent⟩ := ho
      exact absurd hpq (hdir p p' hp' hparent)

theorem step_writes_none (ho : o.Writes W D) {q : List Str}
    (hq : ∀ p, W p → ¬ p.resolve root <+: q)
    (hdir : ∀ p p', W p' → p'.parent = some p → ¬ q <+: p.resolve root) {t : Tree J}
    (ht : t.look q = none) : (step root o t).2.look q = none :=
  (step_writes_look ho hq hdir t).elim (fun h => h.trans ht) id

theorem run_writes {ε α : Type} {p : ExceptT ε (Prog (DriveOp J) DriveOp.Ans) α}
    {Q : α → Prop} (hp : Prog.MeetsE (treeContract W D) p Q) {t : Tree J} (ht : DocsIn D t) :
    DocsIn D (Prog.runE (step root) p t).2 ∧
      ∀ q, (∀ p, W p → ¬ p.resolve root <+: q) →
        (Prog.runE (step root) p t).2.file? q = t.file? q := by
  have hon : Prog.Honours (step root) (treeContract W D) fun u => DocsIn D u ∧
      ∀ q, (∀ p, W p → ¬ p.resolve root <+: q) → u.file? q = t.file? q := by
    rintro o ho u ⟨hu, hfiles⟩
    obtain ⟨hans, hdocs⟩ := step_writes_docs ho hu
    exact ⟨hans, hdocs, fun q hq => (step_writes ho hq u).trans (hfiles q hq)⟩
  exact (Prog.MeetsE.run hon hp ⟨ht, fun _ _ => rfl⟩).2

theorem run_writes_none {ε α : Type} {p : ExceptT ε (Prog (DriveOp J) DriveOp.Ans) α}
    {Q : α → Prop} (hp : Prog.MeetsE (treeContract W D) p Q) {t : Tree J} (ht : DocsIn D t)
    {q : List Str} (hq : ∀ p, W p → ¬ p.resolve root <+: q)
    (hdir : ∀ p p', W p' → p'.parent = some p → ¬ q <+: p.resolve root)
    (hnone : t.look q = none) : (Prog.runE (step root) p t).2.look q = none := by
  have hon : Prog.Honours (step root) (treeContract W D) fun u =>
      DocsIn D u ∧ u.look q = none := by
    rintro o ho u ⟨hu, hlook⟩
    obtain ⟨hans, hdocs⟩ := step_writes_docs ho hu
    exact ⟨hans, hdocs, step_writes_none ho hq hdir hlook⟩
  exact (Prog.MeetsE.run hon hp ⟨ht, hnone⟩).2.2

theorem run_writes_not_dir {ε α : Type} {p : ExceptT ε (Prog (DriveOp J) DriveOp.Ans) α}
    {Q : α → Prop} (hp : Prog.MeetsE (treeContract W D) p Q) {t : Tree J} (ht : DocsIn D t)
    {q : List Str} (hq : ∀ p, W p → ¬ p.resolve root <+: q)
    (hdir : ∀ p p', W p' → p'.parent = some p → ¬ q <+: p.resolve root)
    (hnot : t.look q ≠ some .dir) : (Prog.runE (step root) p t).2.look q ≠ some .dir := by
  have hon : Prog.Honours (step root) (treeContract W D) fun u =>
      DocsIn D u ∧ u.look q ≠ some .dir := by
    rintro o ho u ⟨hu, hlook⟩
    obtain ⟨hans, hdocs⟩ := step_writes_docs ho hu
    refine ⟨hans, hdocs, fun h => ?_⟩
    rcases step_writes_look ho hq hdir u with hsame | hgone
    · exact hlook (hsame.symm.trans h)
    · rw [hgone] at h
      cases h
  exact (Prog.MeetsE.run hon hp ⟨ht, hnot⟩).2.2

/-! ## A directory that stays -/

/-- The contract of programs that change the files of `W` alone and prune other directories
than `q`. -/
def keepingContract (W : UnixPath → Prop) (D : J → Prop) (root q : List Str) :
    Prog.Contract (DriveOp J) DriveOp.Ans where
  may o := o.Writes W D ∧ ∀ p, o = .removeDir p → p.resolve root ≠ q
  gives := DriveOp.Holds D

theorem step_keeps (ho : (keepingContract W D root q).may o)
    (hq : ∀ p, W p → ¬ p.resolve root <+: q) {t : Tree J} (ht : t.look q = some .dir) :
    (step root o t).2.look q = some .dir := by
  obtain ⟨hw, hprune⟩ := ho
  cases step_effect root q o t with
  | kept h => exact h.trans ht
  | removed p hp hpq h => exact absurd hpq (hq p (alters_writes hw hp))
  | stored p c ho hpq h =>
      subst ho
      exact absurd hpq (hq p hw.1)
  | filled p b hp hpq h => exact absurd hpq (hq p (alters_writes hw hp))
  | moved p q' hp hpq h => exact absurd hpq (hq p (alters_writes hw hp))
  | pruned p hr hpq hdir h => exact absurd hpq (hprune p hr)
  | made p hm hpq hfile h => exact h

theorem run_keeps {ε α : Type} {p : ExceptT ε (Prog (DriveOp J) DriveOp.Ans) α} {Q : α → Prop}
    (hp : Prog.MeetsE (keepingContract W D root q) p Q)
    (hq : ∀ p, W p → ¬ p.resolve root <+: q) {t : Tree J} (ht : DocsIn D t)
    (hdir : t.look q = some .dir) : (Prog.runE (step root) p t).2.look q = some .dir := by
  have hon : Prog.Honours (step root) (keepingContract W D root q) fun u =>
      DocsIn D u ∧ u.look q = some .dir := by
    rintro o ho u ⟨hu, hlook⟩
    obtain ⟨hans, hdocs⟩ := step_writes_docs ho.1 hu
    exact ⟨hans, hdocs, step_keeps ho hq hlook⟩
  exact (Prog.MeetsE.run hon hp ⟨ht, hdir⟩).2.2

end LocalDrive

end Kerplace
