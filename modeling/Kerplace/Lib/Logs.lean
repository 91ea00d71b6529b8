/-
# `Kerplace.Lib.Logs` — programs and the log of their calls

A run of a program has a log: the calls it made, each with its answer, in order.  What is to
hold of the log and the result together, whatever is answered, is asked of the leaves of the
tree (`Logs`), and holds of every run under every handler.
-/
import Kerplace.Lib.Prog

namespace Kerplace

namespace Prog

variable {Op : Type} {Ans : Op → Type} {α β : Type}

/-- A call with its answer. -/
abbrev Entry (Ans : Op → Type) : Type := (o : Op) × Ans o

/-- Whatever is answered, the log behind what has `past` and the result are in `Q`. -/
def Logs (Q : List (Entry Ans) → α → Prop) : List (Entry Ans) → Prog Op Ans α → Prop
  | past, .ret a => Q past a
  | past, .call o k => ∀ a, Logs Q (past ++ [⟨o, a⟩]) (k a)

section

variable {Q R : List (Entry Ans) → α → Prop} {past : List (Entry Ans)}

@[simp] theorem logs_ret {a : α} : Logs Q past (.ret a : Prog Op Ans α) ↔ Q past a := Iff.rfl

@[simp] theorem logs_op {o : Op} {Q : List (Entry Ans) → Ans o → Prop} :
    Logs Q past (op o) ↔ ∀ a, Q (past ++ [⟨o, a⟩]) a := Iff.rfl

@[simp] theorem logs_bind {p : Prog Op Ans α} {f : α → Prog Op Ans β}
    {Q : List (Entry Ans) → β → Prop} :
    Logs Q past (p >>= f) ↔ Logs (fun past' a => Logs Q past' (f a)) past p := by
  induction p generalizing past with
  | ret a => rfl
  | call o k ih =>
      rw [call_bind]
      simp only [Logs, ih]

theorem Logs.mono {p : Prog Op Ans α} (hp : Logs Q past p) (h : ∀ past' a, Q past' a → R past' a) :
    Logs R past p := by
  induction p generalizing past with
  | ret a => exact h past a hp
  | call o k ih => exact fun a => ih a (hp a)

end

section

variable {σ : Type}

/-- The log of a run. -/
def log (h : (o : Op) → σ → Ans o × σ) : Prog Op Ans α → σ → List (Entry Ans)
  | .ret _, _ => []
  | .call o k, s => ⟨o, (h o s).1⟩ :: log h (k (h o s).1) (h o s).2

variable {h : (o : Op) → σ → Ans o × σ}

theorem Logs.exec {Q : List (Entry Ans) → α → Prop} {past : List (Entry Ans)}
    {p : Prog Op Ans α} (hp : Logs Q past p) (s : σ) :
    Q (past ++ log h p s) (Prog.exec h p s).1 := by
  induction p generalizing past s with
  | ret a =>
      rw [log, List.append_nil]
      exact hp
  | call o k ih =>
      have hrun := ih (h o s).1 (hp (h o s).1) (h o s).2
      rw [List.append_assoc] at hrun
      exact hrun

theorem Meets.log {C : Contract Op Ans} (hgives : ∀ o s, C.gives o (h o s).1)
    {p : Prog Op Ans α} {Q : α → Prop} (hp : Meets C p Q) (s : σ) :
    ∀ e ∈ log h p s, C.may e.1 := by
  induction p generalizing s with
  | ret a => exact fun e he => absurd he List.not_mem_nil
  | call o k ih =>
      intro e he
      rcases List.mem_cons.1 he with rfl | he
      · exact hp.1
      · exact ih _ (hp.2 _ (hgives o _)) _ e he

theorem exec_state {p : Prog Op Ans α} {s : σ}
    (hstay : ∀ e ∈ log h p s, ∀ s', (h e.1 s').2 = s') : (Prog.exec h p s).2 = s := by
  induction p generalizing s with
  | ret a => rfl
  | call o k ih =>
      have hfirst : (h o s).2 = s := hstay _ List.mem_cons_self s
      have hrest := ih (h o s).1 (s := (h o s).2) fun e he =>
        hstay e (List.mem_cons_of_mem _ he)
      exact hrest.trans hfirst

end

end Prog

end Kerplace
