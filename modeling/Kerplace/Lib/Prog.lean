/-
# `Kerplace.Lib.Prog` — programs as trees of calls

A program over a signature of operations is a tree: it either returns, or
calls an operation and goes on with the answer.  Nothing is said here about
what an operation does; a handler says it, by taking a state and an
operation to an answer and a next state.  Keeping the two apart lets one
text of a program be run (`exec`), be held to a contract on the operations it
calls and the answers they give (`Meets`), and be compared over two states
(`exec_related`).

The rules below are the ones a verification needs: how each of these composes
with `bind`, and how what holds of single operations comes to hold of whole
programs.
-/
import Mathlib.Data.Fin.Tuple.Basic

namespace Kerplace

/-- Programs over operations `Op`, where `o : Op` is answered in `Ans o`. -/
inductive Prog (Op : Type) (Ans : Op → Type) (α : Type) where
  | ret (a : α)
  | call (o : Op) (k : Ans o → Prog Op Ans α)

namespace Prog

variable {Op : Type} {Ans : Op → Type} {α β γ : Type}

/-- Sequencing: graft the continuation at every leaf. -/
def bind : Prog Op Ans α → (α → Prog Op Ans β) → Prog Op Ans β
  | .ret a, f => f a
  | .call o k, f => .call o fun a => (k a).bind f

instance : Monad (Prog Op Ans) where
  pure := .ret
  bind := bind

/-- The program that makes one call and returns its answer. -/
def op (o : Op) : Prog Op Ans (Ans o) := .call o .ret

@[simp] theorem pure_def (a : α) : (pure a : Prog Op Ans α) = .ret a := rfl

@[simp] theorem ret_bind (a : α) (f : α → Prog Op Ans β) :
    (Prog.ret a >>= f) = f a := rfl

theorem call_bind (o : Op) (k : Ans o → Prog Op Ans α) (f : α → Prog Op Ans β) :
    (Prog.call o k >>= f) = .call o fun a => k a >>= f := rfl

theorem bind_ret (p : Prog Op Ans α) : p >>= Prog.ret = p := by
  induction p with
  | ret a => rfl
  | call o k ih =>
      simp only [call_bind]
      exact congrArg _ (funext ih)

theorem bind_assoc (p : Prog Op Ans α) (f : α → Prog Op Ans β)
    (g : β → Prog Op Ans γ) : p >>= f >>= g = p >>= fun a => f a >>= g := by
  induction p with
  | ret a => rfl
  | call o k ih =>
      simp only [call_bind]
      exact congrArg _ (funext ih)

instance : LawfulMonad (Prog Op Ans) :=
  LawfulMonad.mk' _ (fun p => bind_ret p) (fun _ _ => rfl) bind_assoc

/-! ## Running a program -/

section Exec

variable {σ : Type}

/-- Run a program from a state, each call answered by the handler. -/
def exec (h : (o : Op) → σ → Ans o × σ) : Prog Op Ans α → σ → α × σ
  | .ret a, s => (a, s)
  | .call o k, s => exec h (k (h o s).1) (h o s).2

variable {h : (o : Op) → σ → Ans o × σ}

@[simp] theorem exec_ret (a : α) (s : σ) :
    exec h (.ret a : Prog Op Ans α) s = (a, s) := rfl

@[simp] theorem exec_op (o : Op) (s : σ) : exec h (op o) s = h o s := rfl

@[simp] theorem exec_bind (p : Prog Op Ans α) (f : α → Prog Op Ans β) (s : σ) :
    exec h (p >>= f) s = exec h (f (exec h p s).1) (exec h p s).2 := by
  induction p generalizing s with
  | ret a => rfl
  | call o k ih => exact ih _ _

@[simp] theorem exec_map (f : α → β) (p : Prog Op Ans α) (s : σ) :
    exec h (f <$> p) s = (f (exec h p s).1, (exec h p s).2) := by
  rw [map_eq_pure_bind, exec_bind]
  rfl

end Exec

/-! ## Programs that may fail -/

section RunE

variable {σ ε : Type} (h : (o : Op) → σ → Ans o × σ)

/-- Run a program that may end in an error. -/
def runE (p : ExceptT ε (Prog Op Ans) α) (s : σ) : Except ε α × σ := exec h p.run s

variable {h}

@[simp] theorem runE_pure (a : α) (s : σ) :
    runE h (pure a : ExceptT ε (Prog Op Ans) α) s = (.ok a, s) := rfl

@[simp] theorem runE_throw (e : ε) (s : σ) :
    runE h (throw e : ExceptT ε (Prog Op Ans) α) s = (.error e, s) := rfl

@[simp] theorem runE_lift (p : Prog Op Ans α) (s : σ) :
    runE h (liftM p : ExceptT ε (Prog Op Ans) α) s =
      (.ok (exec h p s).1, (exec h p s).2) :=
  exec_map Except.ok p s

@[simp] theorem runE_ofExcept (r : Except ε α) (s : σ) :
    runE h (MonadExcept.ofExcept r : ExceptT ε (Prog Op Ans) α) s = (r, s) := by
  cases r <;> rfl

/-- Go on from a result, unless it is an error. -/
def andThen : Except ε α × σ → (α → σ → Except ε β × σ) → Except ε β × σ
  | (.ok a, s), k => k a s
  | (.error e, s), _ => (.error e, s)

@[simp] theorem andThen_ok (a : α) (s : σ) (k : α → σ → Except ε β × σ) :
    andThen (.ok a, s) k = k a s := rfl

@[simp] theorem andThen_error (e : ε) (s : σ) (k : α → σ → Except ε β × σ) :
    andThen (.error e, s) k = (.error e, s) := rfl

theorem runE_bind (p : ExceptT ε (Prog Op Ans) α) (f : α → ExceptT ε (Prog Op Ans) β)
    (s : σ) : runE h (p >>= f) s = andThen (runE h p s) fun a s' => runE h (f a) s' := by
  have hrun : runE h (p >>= f) s = exec h (p.run >>= ExceptT.bindCont f) s := rfl
  rw [hrun, exec_bind]
  show exec h (ExceptT.bindCont f (runE h p s).1) (runE h p s).2 = _
  cases runE h p s with
  | mk r s' => cases r <;> rfl

theorem runE_bind_ok {p : ExceptT ε (Prog Op Ans) α} {f : α → ExceptT ε (Prog Op Ans) β}
    {s : σ} {b : β} (hok : (runE h (p >>= f) s).1 = .ok b) :
    ∃ a, (runE h p s).1 = .ok a ∧ runE h (p >>= f) s = runE h (f a) (runE h p s).2 := by
  rw [runE_bind] at hok ⊢
  cases hp : runE h p s with
  | mk r s' =>
      rw [hp] at hok
      cases r with
      | error e => cases hok
      | ok a => exact ⟨a, rfl, rfl⟩

theorem runE_bind_pure (p : ExceptT ε (Prog Op Ans) α) (f : α → β) (s : σ) :
    runE h (p >>= fun a => pure (f a)) s = ((runE h p s).1.map f, (runE h p s).2) := by
  rw [runE_bind]
  cases runE h p s with
  | mk r s' => cases r <;> rfl

end RunE

/-! ## Contracts -/

/-- Which operations may be called, and what their answers may be relied on
for. -/
structure Contract (Op : Type) (Ans : Op → Type) where
  may : Op → Prop
  gives : (o : Op) → Ans o → Prop

/-- Relying on what operations give, the program only calls those it may and
ends in `Q`. -/
def Meets (C : Contract Op Ans) : Prog Op Ans α → (α → Prop) → Prop
  | .ret a, Q => Q a
  | .call o k, Q => C.may o ∧ ∀ a, C.gives o a → Meets C (k a) Q

/-- The same for programs that may fail: `Q` is asked of results only. -/
def MeetsE {ε : Type} (C : Contract Op Ans) (p : ExceptT ε (Prog Op Ans) α)
    (Q : α → Prop) : Prop :=
  Meets C p.run fun r => ∀ a, r = .ok a → Q a

section Meets

variable {ε : Type} {C D : Contract Op Ans} {Q R : α → Prop}

@[simp] theorem meets_ret {a : α} : Meets C (.ret a : Prog Op Ans α) Q ↔ Q a := Iff.rfl

@[simp] theorem meets_op {o : Op} {Q : Ans o → Prop} :
    Meets C (op o) Q ↔ C.may o ∧ ∀ a, C.gives o a → Q a := Iff.rfl

@[simp] theorem meets_bind {p : Prog Op Ans α} {f : α → Prog Op Ans β} {Q : β → Prop} :
    Meets C (p >>= f) Q ↔ Meets C p fun a => Meets C (f a) Q := by
  induction p with
  | ret a => rfl
  | call o k ih =>
      rw [call_bind]
      simp only [Meets, ih]

theorem Meets.mono {p : Prog Op Ans α} (hp : Meets C p Q) (h : ∀ a, Q a → R a) :
    Meets C p R := by
  induction p with
  | ret a => exact h a hp
  | call o k ih => exact ⟨hp.1, fun a ha => ih a (hp.2 a ha)⟩

theorem Meets.bind {p : Prog Op Ans α} {f : α → Prog Op Ans β} {Q : β → Prop}
    (hp : Meets C p R) (hf : ∀ a, R a → Meets C (f a) Q) : Meets C (p >>= f) Q :=
  meets_bind.2 (hp.mono hf)

theorem Meets.then {p : Prog Op Ans α} {f : α → Prog Op Ans β} {Q : β → Prop}
    (hp : Meets C p fun _ => True) (hf : ∀ a, Meets C (f a) Q) : Meets C (p >>= f) Q :=
  hp.bind fun a _ => hf a

theorem Meets.weaken {p : Prog Op Ans α} (hp : Meets C p Q)
    (hmay : ∀ o, C.may o → D.may o) (hgives : ∀ o a, C.may o → D.gives o a → C.gives o a) :
    Meets D p Q := by
  induction p with
  | ret a => exact hp
  | call o k ih =>
      exact ⟨hmay o hp.1, fun a ha => ih a (hp.2 a (hgives o a hp.1 ha))⟩

@[simp] theorem meetsE_pure {a : α} :
    MeetsE C (pure a : ExceptT ε (Prog Op Ans) α) Q ↔ Q a :=
  ⟨fun h => h a rfl, fun h _ ha => Except.ok.inj ha ▸ h⟩

@[simp] theorem meetsE_throw {e : ε} :
    MeetsE C (throw e : ExceptT ε (Prog Op Ans) α) Q :=
  fun _ ha => nomatch ha

@[simp] theorem meetsE_ofExcept {r : Except ε α} :
    MeetsE C (MonadExcept.ofExcept r : ExceptT ε (Prog Op Ans) α) Q ↔
      ∀ a, r = .ok a → Q a := by
  cases r <;> rfl

@[simp] theorem meetsE_lift {p : Prog Op Ans α} :
    MeetsE C (liftM p : ExceptT ε (Prog Op Ans) α) Q ↔ Meets C p Q := by
  have hrun : (liftM p : ExceptT ε (Prog Op Ans) α).run = p >>= fun a => .ret (.ok a) :=
    rfl
  rw [MeetsE, hrun, meets_bind]
  constructor <;> refine fun h => h.mono fun a ha => ?_
  · exact ha a rfl
  · exact fun _ hb => Except.ok.inj hb ▸ ha

theorem meetsE_bind {p : ExceptT ε (Prog Op Ans) α} {f : α → ExceptT ε (Prog Op Ans) β}
    {Q : β → Prop} : MeetsE C (p >>= f) Q ↔ MeetsE C p fun a => MeetsE C (f a) Q := by
  have hrun : (p >>= f).run = p.run >>= ExceptT.bindCont f := rfl
  rw [MeetsE, hrun, meets_bind]
  constructor <;> refine fun h => h.mono fun r hr => ?_
  · exact fun a ha => by subst ha; exact hr
  · cases r with
    | ok a => exact hr a rfl
    | error e => exact fun _ hb => nomatch hb

theorem MeetsE.mono {p : ExceptT ε (Prog Op Ans) α} (hp : MeetsE C p Q)
    (h : ∀ a, Q a → R a) : MeetsE C p R :=
  Meets.mono hp fun _ hr a ha => h a (hr a ha)

theorem MeetsE.bind {p : ExceptT ε (Prog Op Ans) α} {f : α → ExceptT ε (Prog Op Ans) β}
    {Q : β → Prop} (hp : MeetsE C p R) (hf : ∀ a, R a → MeetsE C (f a) Q) :
    MeetsE C (p >>= f) Q :=
  meetsE_bind.2 (hp.mono hf)

theorem MeetsE.then {p : ExceptT ε (Prog Op Ans) α} {f : α → ExceptT ε (Prog Op Ans) β}
    {Q : β → Prop} (hp : MeetsE C p fun _ => True) (hf : ∀ a, MeetsE C (f a) Q) :
    MeetsE C (p >>= f) Q :=
  hp.bind fun a _ => hf a

theorem MeetsE.weaken {p : ExceptT ε (Prog Op Ans) α} (hp : MeetsE C p Q)
    (hmay : ∀ o, C.may o → D.may o) (hgives : ∀ o a, C.may o → D.gives o a → C.gives o a) :
    MeetsE D p Q :=
  Meets.weaken hp hmay hgives

end Meets

/-! ## From operations to programs -/

section Rules

variable {σ τ : Type} {h : (o : Op) → σ → Ans o × σ} {C : Contract Op Ans} {Q : α → Prop}

/-- The handler honours a contract in the states of an invariant. -/
def Honours (h : (o : Op) → σ → Ans o × σ) (C : Contract Op Ans) (I : σ → Prop) : Prop :=
  ∀ o, C.may o → ∀ s, I s → C.gives o (h o s).1 ∧ I (h o s).2

theorem Meets.exec {I : σ → Prop} (hop : Honours h C I) {p : Prog Op Ans α}
    (hp : Meets C p Q) {s : σ} (hs : I s) :
    Q (Prog.exec h p s).1 ∧ I (Prog.exec h p s).2 := by
  induction p generalizing s with
  | ret a => exact ⟨hp, hs⟩
  | call o k ih =>
      obtain ⟨hans, hnext⟩ := hop o hp.1 s hs
      exact ih _ (hp.2 _ hans) hnext

theorem MeetsE.run {ε : Type} {I : σ → Prop} (hop : Honours h C I)
    {p : ExceptT ε (Prog Op Ans) α} (hp : MeetsE C p Q) {s : σ} (hs : I s) :
    (∀ a, (runE h p s).1 = .ok a → Q a) ∧ I (runE h p s).2 :=
  Meets.exec hop hp hs

theorem Meets.related {h' : (o : Op) → τ → Ans o × τ} {R : σ → τ → Prop}
    (hop : ∀ o, C.may o → ∀ s t, R s t →
      C.gives o (h o s).1 ∧ (h o s).1 = (h' o t).1 ∧ R (h o s).2 (h' o t).2)
    {p : Prog Op Ans α} (hp : Meets C p Q) {s : σ} {t : τ} (hst : R s t) :
    (Prog.exec h p s).1 = (Prog.exec h' p t).1 ∧
      R (Prog.exec h p s).2 (Prog.exec h' p t).2 := by
  induction p generalizing s t with
  | ret a => exact ⟨rfl, hst⟩
  | call o k ih =>
      obtain ⟨hans, heq, hnext⟩ := hop o hp.1 s t hst
      simp only [Prog.exec]
      rw [← heq]
      exact ih _ (hp.2 _ hans) hnext

end Rules

/-! ## Loops -/

section Loops

variable {ι : Type}

/-- The loop that stops at the first index whose body has a value. -/
def firstSome : List ι → (ι → Prog Op Ans (Option α)) → Prog Op Ans (Option α)
  | [], _ => pure none
  | i :: is, f => do
      match ← f i with
      | some a => pure (some a)
      | none => firstSome is f

theorem Meets.firstSome {C : Contract Op Ans} {is : List ι}
    {f : ι → Prog Op Ans (Option α)} {Q : α → Prop}
    (hf : ∀ i, Meets C (f i) fun r => ∀ a, r = some a → Q a) :
    Meets C (firstSome is f) fun r => ∀ a, r = some a → Q a := by
  induction is with
  | nil => exact fun _ ha => nomatch ha
  | cons i is ih =>
      refine meets_bind.2 ((hf i).mono fun r hr => ?_)
      cases r with
      | none => exact ih
      | some a => exact hr

theorem exec_firstSome {σ : Type} {h : (o : Op) → σ → Ans o × σ} {s : σ}
    {f : ι → Prog Op Ans (Option α)} (hf : ∀ i, (exec h (f i) s).2 = s) :
    ∀ is : List ι, exec h (firstSome is f) s =
      (is.findSome? fun i => (exec h (f i) s).1, s)
  | [] => rfl
  | i :: is => by
      simp only [firstSome, exec_bind, hf, List.findSome?_cons]
      cases (exec h (f i) s).1 with
      | none => exact exec_firstSome hf is
      | some a => rfl

/-- The loop over all indices below `n`, gathering every body's result. -/
def forFin : {n : Nat} → (Fin n → Prog Op Ans α) → Prog Op Ans (Fin n → α)
  | 0, _ => pure Fin.elim0
  | _ + 1, f => do
      let a ← f 0
      let as ← forFin fun i => f i.succ
      pure (Fin.cons a as)

theorem Meets.forFin {C : Contract Op Ans} : {n : Nat} →
    {f : Fin n → Prog Op Ans α} → {Q : Fin n → α → Prop} →
    (∀ i, Meets C (f i) (Q i)) → Meets C (forFin f) fun r => ∀ i, Q i (r i)
  | 0, _, _, _ => fun i => i.elim0
  | _ + 1, _, Q, hf => by
      refine meets_bind.2 ((hf 0).mono fun a ha => ?_)
      refine meets_bind.2 ((Meets.forFin fun i => hf i.succ).mono fun as has => ?_)
      exact fun i => Fin.cases ha has i

/-- A loop over distinct components of an indexed state, where the body at an
index reads and changes that component alone, acts on all of them at once. -/
theorem exec_forFin_embed {ι τ : Type} [DecidableEq ι]
    {h : (o : Op) → (ι → τ) → Ans o × (ι → τ)} (r : ι → τ → α) (u : ι → τ → τ) :
    ∀ {n : Nat} (e : Fin n → ι) (_ : Function.Injective e)
      {f : Fin n → Prog Op Ans α}
      (_ : ∀ i s, exec h (f i) s =
        (r (e i) (s (e i)), Function.update s (e i) (u (e i) (s (e i)))))
      (s : ι → τ),
      exec h (forFin f) s =
        (fun i => r (e i) (s (e i)), fun j => if ∃ i, e i = j then u j (s j) else s j)
  | 0, e, _, f, _, s => by
      simp only [forFin, pure_def, exec_ret, Prod.mk.injEq]
      exact ⟨funext fun i => i.elim0, funext fun j => by simp⟩
  | n + 1, e, he, f, hf, s => by
      have hsucc : Function.Injective fun i : Fin n => e i.succ :=
        fun a b hab => Fin.succ_injective n (he hab)
      have hne : ∀ i : Fin n, e i.succ ≠ e 0 :=
        fun i hi => Fin.succ_ne_zero i (he hi)
      simp only [forFin, exec_bind, hf 0, pure_def, exec_ret,
        exec_forFin_embed r u (fun i => e i.succ) hsucc (fun i => hf i.succ),
        Prod.mk.injEq]
      refine ⟨?_, funext fun j => ?_⟩
      · funext i
        refine Fin.cases rfl (fun i => ?_) i
        simp [Function.update_of_ne (hne i)]
      · simp only [Fin.exists_fin_succ]
        by_cases hj : e 0 = j
        · subst hj
          simp [hne]
        · simp [hj, Function.update_of_ne (Ne.symm hj)]

theorem exec_forFin {τ : Type} {n : Nat}
    {h : (o : Op) → (Fin n → τ) → Ans o × (Fin n → τ)} {r : Fin n → τ → α}
    {u : Fin n → τ → τ} {f : Fin n → Prog Op Ans α}
    (hf : ∀ i s, exec h (f i) s = (r i (s i), Function.update s i (u i (s i))))
    (s : Fin n → τ) :
    exec h (forFin f) s = (fun i => r i (s i), fun i => u i (s i)) := by
  rw [exec_forFin_embed r u id Function.injective_id hf s]
  simp

end Loops

end Prog

end Kerplace
