/-
# `Kerplace.Lib.Machine` — runs of a machine and what a run records

A machine takes calls one at a time, answers each and moves to its next
state.  A run records every call with the state it met and the answer it got.
An invariant here may speak of the record as well as of the state: that is
how a statement about what was promised earlier in the run becomes one that a
single step has to keep.
-/
import Mathlib.Data.List.Basic
import Mathlib.Data.List.Induction

namespace Kerplace

/-- A deterministic machine: states, calls and answers are arbitrary. -/
structure Machine (σ ι ω : Type) where
  step : σ → ι → ω × σ

/-- One step of a run: the state the call met, the call and its answer. -/
structure Visit (σ ι ω : Type) where
  before : σ
  call : ι
  answer : ω

namespace Machine

variable {σ ι ω : Type} (M : Machine σ ι ω)

/-- The state a list of calls ends in. -/
def final : σ → List ι → σ
  | s, [] => s
  | s, c :: cs => final (M.step s c).2 cs

/-- The visit a call makes. -/
def visit (s : σ) (c : ι) : Visit σ ι ω := ⟨s, c, (M.step s c).1⟩

/-- The record of a run. -/
def visits : σ → List ι → List (Visit σ ι ω)
  | _, [] => []
  | s, c :: cs => M.visit s c :: visits (M.step s c).2 cs

@[simp] theorem final_nil (s : σ) : M.final s [] = s := rfl

@[simp] theorem visits_nil (s : σ) : M.visits s [] = [] := rfl

theorem final_cons (s : σ) (c : ι) (cs : List ι) :
    M.final s (c :: cs) = M.final (M.step s c).2 cs := rfl

theorem visits_cons (s : σ) (c : ι) (cs : List ι) :
    M.visits s (c :: cs) = M.visit s c :: M.visits (M.step s c).2 cs := rfl

theorem final_append (cs ds : List ι) :
    ∀ s, M.final s (cs ++ ds) = M.final (M.final s cs) ds := by
  induction cs with
  | nil => exact fun s => rfl
  | cons c cs ih => exact fun s => ih _

theorem visits_append (cs ds : List ι) :
    ∀ s, M.visits s (cs ++ ds) = M.visits s cs ++ M.visits (M.final s cs) ds := by
  induction cs with
  | nil => exact fun s => rfl
  | cons c cs ih =>
      intro s
      rw [List.cons_append, visits_cons, ih, visits_cons, List.cons_append, final_cons]

theorem visits_snoc (s : σ) (cs : List ι) (c : ι) :
    M.visits s (cs ++ [c]) = M.visits s cs ++ [M.visit (M.final s cs) c] :=
  M.visits_append cs [c] s

theorem final_snoc (s : σ) (cs : List ι) (c : ι) :
    M.final s (cs ++ [c]) = (M.step (M.final s cs) c).2 :=
  M.final_append cs [c] s

variable {M}

theorem call_mem {cs : List ι} : ∀ {s : σ} {v : Visit σ ι ω}, v ∈ M.visits s cs → v.call ∈ cs := by
  induction cs with
  | nil => exact fun h => absurd h List.not_mem_nil
  | cons c cs ih =>
      intro s v h
      rcases List.mem_cons.1 h with rfl | h
      · exact List.mem_cons_self
      · exact List.mem_cons_of_mem _ (ih h)

theorem invariant {P : List (Visit σ ι ω) → σ → Prop} {Good : Visit σ ι ω → Prop} {s : σ}
    (h0 : P [] s)
    (hstep : ∀ (vs : List (Visit σ ι ω)) (t : σ) (c : ι), P vs t → Good (M.visit t c) →
      P (vs ++ [M.visit t c]) (M.step t c).2)
    (cs : List ι) (hgood : ∀ v ∈ M.visits s cs, Good v) :
    P (M.visits s cs) (M.final s cs) := by
  induction cs using List.reverseRecOn with
  | nil => exact h0
  | append_singleton cs c ih =>
      rw [visits_snoc] at hgood ⊢
      rw [final_snoc]
      refine hstep _ _ _ (ih fun v hv => hgood v (List.mem_append_left _ hv)) ?_
      exact hgood _ (List.mem_append_right _ (List.mem_singleton_self _))

/-- Where a record is cut, the calls are cut. -/
theorem visits_split {s : σ} {cs : List ι} {pre post : List (Visit σ ι ω)}
    {v : Visit σ ι ω} (h : M.visits s cs = pre ++ v :: post) :
    ∃ before c after, cs = before ++ c :: after ∧ M.visits s before = pre ∧
      v = M.visit (M.final s before) c := by
  induction pre generalizing s cs with
  | nil =>
      cases cs with
      | nil => cases h
      | cons c cs => exact ⟨[], c, cs, rfl, rfl, (List.cons.inj h).1.symm⟩
  | cons u pre ih =>
      cases cs with
      | nil => cases h
      | cons c cs =>
          obtain ⟨hu, hrest⟩ := List.cons.inj h
          obtain ⟨before, d, after, hcs, hpre, hv⟩ := ih hrest
          refine ⟨c :: before, d, after, by rw [hcs, List.cons_append], ?_, hv⟩
          rw [visits_cons, hu, hpre]

/-- What a step keeps, when what is known of a step refers to the record before it, holds
wherever the record is cut. -/
theorem invariant_cut {P : List (Visit σ ι ω) → σ → Prop}
    {Good : List (Visit σ ι ω) → Visit σ ι ω → Prop} {s : σ} (h0 : P [] s)
    (hstep : ∀ (vs : List (Visit σ ι ω)) (t : σ) (c : ι), P vs t → Good vs (M.visit t c) →
      P (vs ++ [M.visit t c]) (M.step t c).2)
    {cs : List ι} (hgood : ∀ pre v post, M.visits s cs = pre ++ v :: post → Good pre v) :
    ∀ pre v post, M.visits s cs = pre ++ v :: post →
      ∃ t c, v = M.visit t c ∧ P pre t ∧ Good pre v := by
  have hprefix : ∀ before after, cs = before ++ after →
      P (M.visits s before) (M.final s before) := by
    intro before
    induction before using List.reverseRecOn with
    | nil => exact fun _ _ => h0
    | append_singleton before c ih =>
        intro after hcs
        rw [List.append_assoc, List.singleton_append] at hcs
        rw [visits_snoc, final_snoc]
        refine hstep _ _ _ (ih _ hcs)
          (hgood _ _ (M.visits (M.step (M.final s before) c).2 after) ?_)
        rw [hcs, visits_append, visits_cons]
  intro pre v post h
  obtain ⟨before, c, after, hcs, rfl, rfl⟩ := visits_split h
  exact ⟨_, c, rfl, hprefix before _ hcs, hgood _ _ post h⟩

theorem forall_cut {α : Type} {P : List α → α → Prop} {l : List α}
    (h : ∀ i : Fin l.length, P (l.take i) (l.get i)) :
    ∀ pre v post, l = pre ++ v :: post → P pre v := by
  rintro pre v post rfl
  have hi : pre.length < (pre ++ v :: post).length := by simp
  simpa using h ⟨pre.length, hi⟩

theorem split_of_sublist {vs : List (Visit σ ι ω)} {v : Visit σ ι ω}
    (us : List (Visit σ ι ω)) (h : (us ++ [v]).Sublist vs) :
    ∃ pre post, vs = pre ++ v :: post ∧ us.Sublist pre := by
  obtain ⟨l₁, l₂, rfl, h₁, h₂⟩ := List.append_sublist_iff.1 h
  obtain ⟨mid, post, rfl⟩ := List.append_of_mem (List.singleton_sublist.1 h₂)
  exact ⟨l₁ ++ mid, post, by rw [List.append_assoc],
    h₁.trans (List.sublist_append_left _ _)⟩

theorem sublist_snoc {vs : List (Visit σ ι ω)} {v w : Visit σ ι ω}
    {us : List (Visit σ ι ω)} (h : (us ++ [w]).Sublist (vs ++ [v])) :
    (us ++ [w]).Sublist vs ∨ (w = v ∧ us.Sublist vs) := by
  obtain ⟨l₁, l₂, hsplit, h₁, h₂⟩ := List.sublist_append_iff.1 h
  rcases List.sublist_singleton.1 h₂ with rfl | rfl
  · rw [List.append_nil] at hsplit
    exact .inl (hsplit ▸ h₁)
  · obtain ⟨rfl, hw⟩ := List.append_inj' hsplit rfl
    exact .inr ⟨List.singleton_inj.1 hw, h₁⟩

end Machine

end Kerplace
