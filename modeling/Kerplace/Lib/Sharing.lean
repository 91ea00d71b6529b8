/-
# `Kerplace.Lib.Sharing` — the calls of two sides over one state

Each of two sides has calls to make, one after the other.  The sides take turns,
one operation at a time, on a state they share; a schedule says whose turn it is.
The right side's calls are the ones whose answers matter.  A left call counts as
alone for as long as no right call is under way and none makes an operation: one
that is alone from its first operation to its last ends as if it had run at once.

Where only left calls that are alone change the state (`Considerate`), what every
left call and every right call keeps when it is run by itself holds of the answers
and of the state once both sides are through (`Sharing.Through.keeps`).
-/
import Kerplace.Lib.Race

namespace Kerplace

namespace Prog

variable {Op : Type} {Ans : Op → Type} {α β σ : Type}

/-! ## One side -/

/-- A side: the call under way, the calls to come, and what has been returned. -/
structure Side (Op : Type) (Ans : Op → Type) (α : Type) where
  now : Option (Prog Op Ans α)
  todo : List (Prog Op Ans α)
  done : List α

namespace Side

/-- Where a side stands when this is left of the call under way. -/
def upTo (todo : List (Prog Op Ans α)) (done : List α) : Prog Op Ans α → Side Op Ans α
  | .ret a => ⟨none, todo, done ++ [a]⟩
  | .call o k => ⟨some (.call o k), todo, done⟩

/-- One operation of the call under way, or of the next one. -/
def turn (h : (o : Op) → σ → Ans o × σ) : Side Op Ans α → σ → Side Op Ans α × σ
  | ⟨some p, todo, done⟩, s => (upTo todo done (tick h p s).1, (tick h p s).2)
  | ⟨none, p :: todo, done⟩, s => (upTo todo done (tick h p s).1, (tick h p s).2)
  | ⟨none, [], done⟩, s => (⟨none, [], done⟩, s)

/-- The call whose turn it is, and those after it. -/
def Next (x : Side Op Ans α) (p : Prog Op Ans α) (todo : List (Prog Op Ans α)) : Prop :=
  x.now = some p ∧ x.todo = todo ∨ x.now = none ∧ x.todo = p :: todo

/-- What a turn comes to. -/
inductive Turn (h : (o : Op) → σ → Ans o × σ) (x : Side Op Ans α) (s : σ) :
    Side Op Ans α → σ → Prop where
  | idle (hnow : x.now = none) (htodo : x.todo = []) : Turn h x s x s
  | ended {p : Prog Op Ans α} {todo : List (Prog Op Ans α)} {a : α} {s' : σ}
      (hnext : x.Next p todo) (hrun : exec h p s = (a, s')) :
      Turn h x s ⟨none, todo, x.done ++ [a]⟩ s'
  | went {p p' : Prog Op Ans α} {todo : List (Prog Op Ans α)} {s' : σ}
      (hnext : x.Next p todo) (hrun : exec h p' s' = exec h p s) :
      Turn h x s ⟨some p', todo, x.done⟩ s'

variable {h : (o : Op) → σ → Ans o × σ}

theorem turn_upTo {x : Side Op Ans α} {p : Prog Op Ans α} {todo : List (Prog Op Ans α)}
    (hnext : x.Next p todo) (s : σ) :
    Turn h x s (upTo todo x.done (tick h p s).1) (tick h p s).2 := by
  have hrun := exec_tick (h := h) p s
  generalize tick h p s = r at hrun ⊢
  obtain ⟨p', s'⟩ := r
  cases p' with
  | ret a => exact .ended hnext hrun.symm
  | call o k => exact .went hnext hrun

theorem turn_spec (x : Side Op Ans α) (s : σ) :
    Turn h x s (x.turn h s).1 (x.turn h s).2 := by
  obtain ⟨now, todo, done⟩ := x
  cases now with
  | some p => exact turn_upTo (.inl ⟨rfl, rfl⟩) s
  | none =>
      cases todo with
      | nil => exact .idle rfl rfl
      | cons p todo => exact turn_upTo (.inr ⟨rfl, rfl⟩) s

end Side

/-! ## Both -/

/-- Two sides, the state they share, and, for a left call that is under way and has
been alone so far, the state it began in. -/
structure Sharing (Op : Type) (Ans : Op → Type) (α β σ : Type) where
  left : Side Op Ans α
  right : Side Op Ans β
  state : σ
  since : Option σ

namespace Sharing

/-- Nothing has begun. -/
def start (ps : List (Prog Op Ans α)) (qs : List (Prog Op Ans β)) (s : σ) :
    Sharing Op Ans α β σ :=
  ⟨⟨none, ps, []⟩, ⟨none, qs, []⟩, s, none⟩

/-- Where the left call whose turn it is began, if it has been alone. -/
def alone (x : Sharing Op Ans α β σ) : Option σ :=
  if x.left.now.isSome then x.since else if x.right.now.isSome then none else some x.state

/-- A turn of the left side. -/
def leftTurn (h : (o : Op) → σ → Ans o × σ) (x : Sharing Op Ans α β σ) :
    Sharing Op Ans α β σ :=
  ⟨(x.left.turn h x.state).1, x.right, (x.left.turn h x.state).2,
    if (x.left.turn h x.state).1.now.isSome then x.alone else none⟩

/-- A turn of the right side. -/
def rightTurn (h : (o : Op) → σ → Ans o × σ) (x : Sharing Op Ans α β σ) :
    Sharing Op Ans α β σ :=
  ⟨x.left, (x.right.turn h x.state).1, (x.right.turn h x.state).2, none⟩

/-- Both sides have made all their calls, and these are the answers. -/
def Through (x : Sharing Op Ans α β σ) (outcomes : List α) (answers : List β) : Prop :=
  (x.left.now.isNone ∧ x.left.todo.isEmpty ∧ x.left.done = outcomes) ∧
    x.right.now.isNone ∧ x.right.todo.isEmpty ∧ x.right.done = answers

instance [DecidableEq α] [DecidableEq β] (x : Sharing Op Ans α β σ) (outcomes : List α)
    (answers : List β) : Decidable (x.Through outcomes answers) :=
  inferInstanceAs (Decidable ((_ ∧ _ ∧ _) ∧ _ ∧ _ ∧ _))

end Sharing

/-- The machine of all interleavings; `true` is the left side's turn. -/
def sharingMachine (h : (o : Op) → σ → Ans o × σ) :
    Machine (Sharing Op Ans α β σ) Bool Unit :=
  ⟨fun x turn => ((), if turn then x.leftTurn h else x.rightTurn h)⟩

/-- A left call that is not alone leaves the state as it is, and no turn of the right
side falls into a left call that has changed it. -/
structure Considerate (h : (o : Op) → σ → Ans o × σ)
    (v : Visit (Sharing Op Ans α β σ) Bool Unit) : Prop where
  left : v.call = true → v.before.alone = none →
    (v.before.left.turn h v.before.state).2 = v.before.state
  right : v.call = false → ∀ s ∈ v.before.since, v.before.state = s

/-! ## What is kept -/

section

variable {h : (o : Op) → σ → Ans o × σ} {ps : List (Prog Op Ans α)}
  {qs : List (Prog Op Ans β)} {P : List β → σ → Prop} {x : Sharing Op Ans α β σ}

/-- With the left call under way undone, if it has been alone: the right side has made
its calls by themselves, and is in the middle of one of them or between two. -/
inductive RightKept (h : (o : Op) → σ → Ans o × σ) (qs : List (Prog Op Ans β))
    (P : List β → σ → Prop) (y : Side Op Ans β) (s : σ) : Prop where
  | between (pre : List (Prog Op Ans β)) (hnow : y.now = none)
      (hsplit : qs = pre ++ y.todo) (hlen : pre.length = y.done.length) (hP : P y.done s)
  | within {pre : List (Prog Op Ans β)} {q q₀ : Prog Op Ans β} {s₀ : σ} (hnow : y.now = some q)
      (hsplit : qs = pre ++ q₀ :: y.todo) (hlen : pre.length = y.done.length)
      (hP : P y.done s₀) (hrun : exec h q s = exec h q₀ s₀)

/-- The invariant of the machine. -/
structure SharingKept (h : (o : Op) → σ → Ans o × σ) (ps : List (Prog Op Ans α))
    (qs : List (Prog Op Ans β)) (P : List β → σ → Prop) (x : Sharing Op Ans α β σ) : Prop where
  todo : ∀ p ∈ x.left.todo, p ∈ ps
  since : ∀ s ∈ x.since, x.right.now = none ∧ ∃ p, x.left.now = some p ∧
    ∃ p₀ ∈ ps, exec h p x.state = exec h p₀ s
  right : RightKept h qs P x.right (x.since.getD x.state)

theorem RightKept.idle {y : Side Op Ans β} {s : σ} (hy : RightKept h qs P y s)
    (hnow : y.now = none) : P y.done s := by
  cases hy with
  | between _ _ _ _ hP => exact hP
  | within hsome => exact nomatch hnow.symm.trans hsome

/-- A turn of the right side, from a state that no left call is in the middle of changing. -/
theorem RightKept.turn
    (hright : ∀ pre q post bs s, qs = pre ++ q :: post → pre.length = bs.length → P bs s →
      P (bs ++ [(exec h q s).1]) (exec h q s).2)
    {y : Side Op Ans β} {s : σ} (hy : RightKept h qs P y s) :
    RightKept h qs P (y.turn h s).1 (y.turn h s).2 := by
  -- the call whose turn it is, as it would be by itself
  have hbegan : ∀ q todo, y.Next q todo → ∃ pre q₀ s₀, qs = pre ++ q₀ :: todo ∧
      pre.length = y.done.length ∧ P y.done s₀ ∧ exec h q s = exec h q₀ s₀ := by
    rintro q todo hnext
    cases hy with
    | between pre hnow hsplit hlen hP =>
        rcases hnext with ⟨hsome, -⟩ | ⟨-, htodo⟩
        · exact nomatch hnow.symm.trans hsome
        · exact ⟨_, q, s, htodo ▸ hsplit, hlen, hP, rfl⟩
    | within hnow hsplit hlen hP hrun =>
        rcases hnext with ⟨hsome, htodo⟩ | ⟨hnone, -⟩
        · obtain rfl := Option.some.inj (hnow.symm.trans hsome)
          exact ⟨_, _, _, htodo ▸ hsplit, hlen, hP, hrun⟩
        · exact nomatch hnone.symm.trans hnow
  have hspec := y.turn_spec (h := h) s
  generalize (y.turn h s).1 = y', (y.turn h s).2 = s' at hspec ⊢
  cases hspec with
  | idle => exact hy
  | ended hnext hrun =>
      obtain ⟨pre, q₀, s₀, hsplit, hlen, hP, hwhole⟩ := hbegan _ _ hnext
      have hafter := hright pre q₀ _ _ s₀ hsplit hlen hP
      rw [← hwhole, hrun] at hafter
      refine .between (pre ++ [q₀]) rfl ?_ ?_ hafter
      · rw [hsplit, List.append_assoc, List.singleton_append]
      · rw [List.length_append, List.length_append, hlen, List.length_singleton,
          List.length_singleton]
  | went hnext hrun =>
      obtain ⟨pre, q₀, s₀, hsplit, hlen, hP, hwhole⟩ := hbegan _ _ hnext
      exact .within rfl hsplit hlen hP (hrun.trans hwhole)

theorem SharingKept.rightTurn
    (hright : ∀ pre q post bs s, qs = pre ++ q :: post → pre.length = bs.length → P bs s →
      P (bs ++ [(exec h q s).1]) (exec h q s).2)
    (hx : SharingKept h ps qs P x) (hgood : ∀ s ∈ x.since, x.state = s) :
    SharingKept h ps qs P (x.rightTurn h) where
  todo := hx.todo
  since _ hs := nomatch hs
  right := by
    have hhome : x.since.getD x.state = x.state := by
      cases hsince : x.since with
      | none => rfl
      | some s => exact (hgood s hsince).symm
    exact (hhome ▸ hx.right).turn hright

theorem SharingKept.since_eq_none (hx : SharingKept h ps qs P x) (hnow : x.left.now = none) :
    x.since = none := by
  cases hsince : x.since with
  | none => rfl
  | some s =>
      obtain ⟨-, p, hp, -⟩ := hx.since s hsince
      exact nomatch hnow.symm.trans hp

/-- Where no left call is alone, the right side is where the state is. -/
theorem SharingKept.home (hx : SharingKept h ps qs P x) (halone : x.alone = none) :
    x.since.getD x.state = x.state := by
  cases hsince : x.since with
  | none => rfl
  | some s =>
      obtain ⟨-, p, hp, -⟩ := hx.since s hsince
      rw [Sharing.alone, hp, Option.isSome_some, if_pos rfl, hsince] at halone
      cases halone

/-- The left call whose turn it is: alone, it ends as it would by itself from where it began. -/
theorem SharingKept.next (hx : SharingKept h ps qs P x) {p : Prog Op Ans α}
    {todo : List (Prog Op Ans α)} (hnext : x.left.Next p todo) :
    (∀ p' ∈ todo, p' ∈ ps) ∧ ∀ s ∈ x.alone, x.right.now = none ∧ x.since.getD x.state = s ∧
      ∃ p₀ ∈ ps, exec h p x.state = exec h p₀ s := by
  rcases hnext with ⟨hnow, htodo⟩ | ⟨hnow, htodo⟩
  · refine ⟨htodo ▸ hx.todo, fun s hs => ?_⟩
    rw [Sharing.alone, hnow, Option.isSome_some, if_pos rfl] at hs
    obtain ⟨hidle, p', hp', p₀, hp₀, hrun⟩ := hx.since s hs
    obtain rfl := Option.some.inj (hnow.symm.trans hp')
    exact ⟨hidle, by rw [hs]; rfl, p₀, hp₀, hrun⟩
  · have hps := hx.todo
    rw [htodo] at hps
    refine ⟨fun p' hp' => hps p' (List.mem_cons_of_mem _ hp'), fun s hs => ?_⟩
    rw [Sharing.alone, hnow, Option.isSome_none, if_neg Bool.false_ne_true] at hs
    split at hs
    · cases hs
    · rename_i hidle
      obtain rfl := Option.some.inj hs
      exact ⟨Option.not_isSome_iff_eq_none.1 hidle, by rw [hx.since_eq_none hnow]; rfl, p,
        hps p List.mem_cons_self, rfl⟩

/-- A turn of the left side: alone, it goes on from where its call began; not alone, it
changes nothing. -/
theorem SharingKept.leftTurn (hleft : ∀ p ∈ ps, ∀ bs s, P bs s → P bs (exec h p s).2)
    (hx : SharingKept h ps qs P x)
    (hgood : x.alone = none → (x.left.turn h x.state).2 = x.state) :
    SharingKept h ps qs P (x.leftTurn h) := by
  have hspec := x.left.turn_spec (h := h) x.state
  unfold Sharing.leftTurn
  generalize (x.left.turn h x.state).1 = y', (x.left.turn h x.state).2 = s' at hspec hgood ⊢
  cases hspec with
  | idle hnow htodo =>
      refine ⟨hx.todo, fun s hs => ?_, ?_⟩
      · rw [hnow] at hs
        cases hs
      · have hsame : (if x.left.now.isSome then x.alone else none).getD x.state =
            x.since.getD x.state := by
          rw [hnow, hx.since_eq_none hnow]
          rfl
        exact hsame ▸ hx.right
  | ended hnext hrun =>
      obtain ⟨htodo, hbegan⟩ := hx.next hnext
      refine ⟨htodo, fun s hs => (nomatch hs), ?_⟩
      show RightKept h qs P x.right s'
      cases halone : x.alone with
      | none =>
          rw [hgood halone, ← hx.home halone]
          exact hx.right
      | some s =>
          obtain ⟨hidle, hhome, p₀, hp₀, hwhole⟩ := hbegan s halone
          have hkept := hx.right
          rw [hhome] at hkept
          cases hkept with
          | within hsome => exact nomatch hidle.symm.trans hsome
          | between pre hnow hsplit hlen hP =>
              have hafter := hleft p₀ hp₀ _ s hP
              rw [← hwhole, hrun] at hafter
              exact .between pre hnow hsplit hlen hafter
  | went hnext hrun =>
      obtain ⟨htodo, hbegan⟩ := hx.next hnext
      refine ⟨htodo, fun s hs => ?_, ?_⟩
      · obtain ⟨hidle, hhome, p₀, hp₀, hwhole⟩ := hbegan s hs
        exact ⟨hidle, _, rfl, p₀, hp₀, hrun.trans hwhole⟩
      · show RightKept h qs P x.right (x.alone.getD s')
        cases halone : x.alone with
        | none =>
            rw [Option.getD_none, hgood halone, ← hx.home halone]
            exact hx.right
        | some s =>
            obtain ⟨-, hhome, -⟩ := hbegan s halone
            rw [Option.getD_some, ← hhome]
            exact hx.right

/-- What every call of either side keeps by itself holds once both are through. -/
theorem Sharing.Through.keeps {s : σ} {turns : List Bool} {outcomes : List α}
    {answers : List β}
    (hover : ((sharingMachine h).final (Sharing.start ps qs s) turns).Through outcomes answers)
    (hgood : ∀ v ∈ (sharingMachine h).visits (Sharing.start ps qs s) turns, Considerate h v)
    (hstart : P [] s)
    (hleft : ∀ p ∈ ps, ∀ bs s, P bs s → P bs (exec h p s).2)
    (hright : ∀ pre q post bs s, qs = pre ++ q :: post → pre.length = bs.length → P bs s →
      P (bs ++ [(exec h q s).1]) (exec h q s).2) :
    P answers ((sharingMachine h).final (Sharing.start ps qs s) turns).state := by
  have hkept : SharingKept h ps qs P ((sharingMachine h).final (Sharing.start ps qs s) turns) := by
    refine Machine.invariant (M := sharingMachine h)
      (P := fun _ x => SharingKept h ps qs P x) ?_ (fun _ x turn hx hv => ?_) turns hgood
    · exact ⟨fun p hp => hp, fun _ hs => (nomatch hs), .between [] rfl rfl rfl hstart⟩
    · cases turn with
      | true => exact hx.leftTurn hleft (hv.left rfl)
      | false => exact hx.rightTurn hright (hv.right rfl)
  generalize (sharingMachine h).final (Sharing.start ps qs s) turns = x at hover hkept
  obtain ⟨⟨hleftNow, -, -⟩, hrightNow, -, rfl⟩ := hover
  have hsince : x.since = none := by
    cases hsince : x.since with
    | none => rfl
    | some s =>
        obtain ⟨-, p, hp, -⟩ := hkept.since s hsince
        rw [hp] at hleftNow
        cases hleftNow
  have hP := hkept.right.idle (Option.isNone_iff_eq_none.1 hrightNow)
  rwa [hsince] at hP

end

end Prog

end Kerplace
