/-
# `Kerplace.Lib.Twins` — two programs with the same calls

Two programs may differ in their text and yet, from a given state, make the same calls, go
through the same states and come to the same result.  Such a relation is put together along
the programs: where one binds, so does the other, and what follows has to agree on the one
result that is passed on.

Machines are compared in the same way: where each step of a run is the other machine's step
too, the run is its run.
-/
import Kerplace.Lib.Machine
import Kerplace.Lib.Prog

namespace Kerplace

namespace Prog

variable {Op : Type} {Ans : Op → Type} {σ ε α β : Type}

/-- The states a program goes through, one for each call. -/
def states (h : (o : Op) → σ → Ans o × σ) : Prog Op Ans α → σ → List σ
  | .ret _, _ => []
  | .call o k, s => (h o s).2 :: states h (k (h o s).1) (h o s).2

variable {h : (o : Op) → σ → Ans o × σ}

theorem states_bind (p : Prog Op Ans α) (f : α → Prog Op Ans β) (s : σ) :
    states h (p >>= f) s =
      states h p s ++ states h (f (p.exec h s).1) (p.exec h s).2 := by
  induction p generalizing s with
  | ret a => rfl
  | call o k ih => exact congrArg _ (ih _ _)

/-- From `s` the programs go through the same states to the same result. -/
structure Twin (h : (o : Op) → σ → Ans o × σ) (p p' : Prog Op Ans α) (s : σ) : Prop where
  exec : p.exec h s = p'.exec h s
  states : p.states h s = p'.states h s

theorem Twin.refl (p : Prog Op Ans α) (s : σ) : Twin h p p s := ⟨rfl, rfl⟩

theorem Twin.bind {p p' : Prog Op Ans α} {f f' : α → Prog Op Ans β} {s : σ}
    (hp : Twin h p p' s) (hf : Twin h (f (p.exec h s).1) (f' (p.exec h s).1) (p.exec h s).2) :
    Twin h (p >>= f) (p' >>= f') s := by
  constructor
  · rw [exec_bind, exec_bind, ← hp.exec, hf.exec]
  · rw [states_bind, states_bind, ← hp.exec, hp.states, hf.states]

/-- The same for programs that may fail. -/
def TwinE (h : (o : Op) → σ → Ans o × σ) (p p' : ExceptT ε (Prog Op Ans) α) (s : σ) : Prop :=
  Twin h p.run p'.run s

theorem TwinE.refl (p : ExceptT ε (Prog Op Ans) α) (s : σ) : TwinE h p p s := Twin.refl _ s

theorem TwinE.of_eq {p p' : ExceptT ε (Prog Op Ans) α} (heq : p = p') (s : σ) :
    TwinE h p p' s := heq ▸ TwinE.refl p s

theorem TwinE.bind {p p' : ExceptT ε (Prog Op Ans) α}
    {f f' : α → ExceptT ε (Prog Op Ans) β} {s : σ} (hp : TwinE h p p' s)
    (hf : ∀ a, (runE h p s).1 = .ok a → TwinE h (f a) (f' a) (runE h p s).2) :
    TwinE h (p >>= f) (p' >>= f') s := by
  refine (Twin.bind hp ?_ : Twin h (p.run >>= ExceptT.bindCont f)
    (p'.run >>= ExceptT.bindCont f') s)
  show Twin h (ExceptT.bindCont f (runE h p s).1) (ExceptT.bindCont f' (runE h p s).1)
    (runE h p s).2
  cases hr : (runE h p s).1 with
  | error e => exact Twin.refl _ _
  | ok a => exact hf a hr

theorem TwinE.lift {p p' : Prog Op Ans α} {s : σ} (hp : Twin h p p' s) :
    TwinE h (ExceptT.lift p : ExceptT ε (Prog Op Ans) α) (ExceptT.lift p') s := by
  show Twin h (Except.ok <$> p : Prog Op Ans (Except ε α)) (Except.ok <$> p') s
  rw [map_eq_pure_bind, map_eq_pure_bind]
  exact hp.bind (.refl _ _)

theorem TwinE.throw_bind (e : ε) (f f' : α → ExceptT ε (Prog Op Ans) β) (s : σ) :
    TwinE h (throw e >>= f) (throw e >>= f') s := Twin.refl _ s

theorem runE_bind_of_ok {p : ExceptT ε (Prog Op Ans) α} {f : α → ExceptT ε (Prog Op Ans) β}
    {s : σ} {a : α} (hp : (runE h p s).1 = .ok a) :
    runE h (p >>= f) s = runE h (f a) (runE h p s).2 := by
  rw [runE_bind]
  cases hr : runE h p s with
  | mk r s' =>
      rw [hr] at hp
      cases hp
      rfl

end Prog

namespace Machine

variable {σ ι κ ω : Type}

/-- The machine that takes its calls from inputs. -/
def reading (M : Machine σ ι ω) (f : κ → ι) : Machine σ κ ω := ⟨fun s x => M.step s (f x)⟩

theorem run_congr {M M' : Machine σ ι ω} {cs : List ι} :
    ∀ {s : σ}, (∀ v ∈ M.visits s cs, M'.step v.before v.call = M.step v.before v.call) →
      M'.visits s cs = M.visits s cs ∧ M'.final s cs = M.final s cs := by
  induction cs with
  | nil => exact fun _ => ⟨rfl, rfl⟩
  | cons c cs ih =>
      intro s h
      have hstep : M'.step s c = M.step s c := h (M.visit s c) List.mem_cons_self
      obtain ⟨hvisits, hfinal⟩ := ih fun v hv => h v (List.mem_cons_of_mem _ hv)
      rw [visits_cons, visits_cons, final_cons, final_cons, visit, visit, hstep]
      exact ⟨congrArg _ hvisits, hfinal⟩

end Machine

end Kerplace
