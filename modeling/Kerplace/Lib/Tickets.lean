/-
# `Kerplace.Lib.Tickets` — machines that hand out tickets

Some calls of a machine hand out an id for a target, others present an id for a target, and
some of those use the id up.  The record of a run says which target an id stands for at each
point; a machine honours its tickets if a call that presents an id for anything else is
refused and leaves the state alone.
-/
import Kerplace.Lib.Machine
import Mathlib.Logic.Function.Basic

namespace Kerplace

/-- What a call has to do with tickets. -/
inductive Deed (I T : Type) where
  | issue (t : T)
  | present (id : I) (t : T) (uses : Bool)
  | other

/-- How a machine's calls and answers are about tickets. -/
structure Desk (ι ω I T : Type) where
  deed : ι → Deed I T
  handed : ω → Option I
  accepts : ω → Bool

namespace Desk

variable {σ ι ω I T : Type} [DecidableEq I] (D : Desk ι ω I T)

/-- What the ids stand for after a call and its answer. -/
def next (held : I → Option T) (c : ι) (a : ω) : I → Option T :=
  match D.deed c with
  | .issue t =>
      match D.handed a with
      | some id => Function.update held id (some t)
      | none => held
  | .present id _ uses =>
      if uses && D.accepts a then Function.update held id none else held
  | .other => held

/-- What the ids stand for after a record. -/
def held (vs : List (Visit σ ι ω)) : I → Option T :=
  vs.foldl (fun held v => D.next held v.call v.answer) fun _ => none

@[simp] theorem held_nil : D.held ([] : List (Visit σ ι ω)) = fun _ => none := rfl

@[simp] theorem held_snoc (vs : List (Visit σ ι ω)) (v : Visit σ ι ω) :
    D.held (vs ++ [v]) = D.next (D.held vs) v.call v.answer := by
  rw [held, List.foldl_append]
  rfl

variable {D} {held : I → Option T} {c : ι} {a : ω}

theorem next_issue {t : T} {id : I} (hc : D.deed c = .issue t) (ha : D.handed a = some id) :
    D.next held c a = Function.update held id (some t) := by
  simp only [next, hc, ha]

theorem next_other (hc : D.deed c = .other) : D.next held c a = held := by
  simp only [next, hc]

/-- A visit that presents an id for a target is honoured: the id stands for that target, or
the call is refused as `refusal` says and changes nothing. -/
def Honoured (D : Desk ι ω I T) (M : Machine σ ι ω) (refusal : ω) (vs : List (Visit σ ι ω))
    (v : Visit σ ι ω) : Prop :=
  ∀ id t uses, D.deed v.call = .present id t uses →
    D.held vs id = some t ∨ (v.answer = refusal ∧ (M.step v.before v.call).2 = v.before)

/-- A machine with an invariant on what the ids stand for and the state honours its tickets. -/
theorem honoured {M : Machine σ ι ω} {refusal : ω} {Inv : (I → Option T) → σ → Prop}
    {Good : (I → Option T) → ι → Prop} {s : σ} {cs : List ι} (h0 : Inv (fun _ => none) s)
    (hstep : ∀ held t c, Inv held t → Good held c →
      Inv (D.next held c (M.step t c).1) (M.step t c).2)
    (hpresent : ∀ held t c, Inv held t → Good held c → ∀ id target uses,
      D.deed c = .present id target uses →
      held id = some target ∨ ((M.step t c).1 = refusal ∧ (M.step t c).2 = t))
    (hgood : ∀ pre v post, M.visits s cs = pre ++ v :: post → Good (D.held pre) v.call) :
    ∀ pre v post, M.visits s cs = pre ++ v :: post → D.Honoured M refusal pre v := by
  intro pre v post hv id target uses hdeed
  obtain ⟨t, c, rfl, hinv, hc⟩ := Machine.invariant_cut (P := fun vs t => Inv (D.held vs) t)
    h0
    (fun vs t c hinv hc => by
      rw [held_snoc]
      exact hstep _ t c hinv hc) hgood pre v post hv
  exact hpresent _ t c hinv hc id target uses hdeed

end Desk

end Kerplace
