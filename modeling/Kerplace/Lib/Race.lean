/-
# `Kerplace.Lib.Race` — two programs at once over one state

Two programs take turns, one call at a time, on a state they share; a schedule
says whose turn it is.  Every interleaving of their calls is a run of this
machine, and neither program sees more of the other than what it finds in the
state.
-/
import Kerplace.Lib.Prog
import Kerplace.Lib.Machine

namespace Kerplace

namespace Prog

variable {Op : Type} {Ans : Op → Type} {α β σ : Type}

/-- One call of a program; one that has returned makes none. -/
def tick (h : (o : Op) → σ → Ans o × σ) : Prog Op Ans α → σ → Prog Op Ans α × σ
  | .ret a, s => (.ret a, s)
  | .call o k, s => (k (h o s).1, (h o s).2)

/-- Two programs on their way, and the state they share. -/
structure Race (Op : Type) (Ans : Op → Type) (α β σ : Type) where
  left : Prog Op Ans α
  right : Prog Op Ans β
  state : σ

/-- Whose turn it is: `true` is the left program's. -/
def raceMachine (h : (o : Op) → σ → Ans o × σ) : Machine (Race Op Ans α β σ) Bool Unit :=
  ⟨fun x turn =>
    ((), if turn then
        ⟨(tick h x.left x.state).1, x.right, (tick h x.left x.state).2⟩
      else ⟨x.left, (tick h x.right x.state).1, (tick h x.right x.state).2⟩)⟩

/-- What a program has returned, if it has. -/
def returned : Prog Op Ans α → Option α
  | .ret a => some a
  | .call _ _ => none

theorem returned_eq_some {p : Prog Op Ans α} {a : α} : returned p = some a ↔ p = .ret a := by
  cases p with
  | ret b => simp [returned]
  | call o k => simp [returned]

/-- Both programs have returned. -/
def Race.Over (x : Race Op Ans α β σ) (a : α) (b : β) : Prop :=
  returned x.left = some a ∧ returned x.right = some b

instance [DecidableEq α] [DecidableEq β] (x : Race Op Ans α β σ) (a : α) (b : β) :
    Decidable (x.Over a b) := inferInstanceAs (Decidable (_ ∧ _))

section

variable {h : (o : Op) → σ → Ans o × σ}

theorem exec_tick (p : Prog Op Ans α) (s : σ) :
    exec h (tick h p s).1 (tick h p s).2 = exec h p s := by
  cases p with
  | ret a => rfl
  | call o k => rfl

end

end Prog

end Kerplace
