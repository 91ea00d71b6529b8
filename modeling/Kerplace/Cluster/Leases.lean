/-
# `Kerplace.Cluster.Leases` — what a lock table promises over a run

In every run from an empty table no two callers have unexpired leases on one
resource.  A resource's tokens grow, and superseded ones are fenced out, as
long as the table remembers the resource's slot: the collection of idle slots
forgets the token with the slot, and the next grant starts again at one.
-/
import Kerplace.Cluster.LockTable

namespace Kerplace

namespace LockTable

variable {m : LockTable} {now : Instant} {r resource owner o : Str} {ttl : Duration}
  {s : Slot} {st : State} {vs : List (Visit State Call Answer)} {v : Visit State Call Answer}

theorem leases_snoc (vs : List (Visit State Call Answer)) (v : Visit State Call Answer) :
    leases (vs ++ [v]) = book (leases vs) v := by
  rw [leases, List.foldl_append]
  rfl

theorem book_refused (l : Str × Str → Option Instant)
    (h : (st.table.acquire st.now resource owner ttl).1 = none) :
    book l (machine.visit st (.acquire resource owner ttl)) = l := by
  change book l ⟨st, _, .token (st.table.acquire st.now resource owner ttl).1⟩ = l
  rw [h]
  rfl

theorem book_granted (l : Str × Str → Option Instant) {t : Nat}
    (h : (st.table.acquire st.now resource owner ttl).1 = some t) :
    book l (machine.visit st (.acquire resource owner ttl)) =
      Function.update l (resource, owner) (some (st.now + ttl)) := by
  change book l ⟨st, _, .token (st.table.acquire st.now resource owner ttl).1⟩ = _
  rw [h]
  rfl

theorem book_release (l : Str × Str → Option Instant) :
    book l (machine.visit st (.release resource owner)) =
      if (st.table.release resource owner).1 then Function.update l (resource, owner) none
      else l := by
  change book l ⟨st, _, .released (st.table.release resource owner).1⟩ = _
  cases (st.table.release resource owner).1 <;> rfl

/-! ## One owner at a time -/

/-- An unexpired lease is the one in the slot. -/
def Leased (vs : List (Visit State Call Answer)) (st : State) : Prop :=
  ∀ r o e, leases vs (r, o) = some e → st.now < e →
    o ≠ [] ∧ ∃ s, st.table[r]? = some s ∧ s.owner = o ∧ s.expiry = e

theorem slotFor_of_held (h : m[r]? = some s) (ho : s.owner ≠ []) : m.slotFor now r = s := by
  rw [slotFor, getElem?_collect_of_kept h (kept_of_owner ho), Option.getD_some]

/-- Granting one caller a resource leaves every other unexpired lease where it is. -/
theorem Leased.acquire (h : Leased vs st) (hname : owner ≠ []) :
    Leased (vs ++ [machine.visit st (.acquire resource owner ttl)])
      (machine.step st (.acquire resource owner ttl)).2 := by
  intro r o e hl he
  rw [leases_snoc] at hl
  change st.now < e at he
  change o ≠ [] ∧ ∃ s, (st.table.acquire st.now resource owner ttl).2[r]? = some s ∧ _
  cases hans : (st.table.acquire st.now resource owner ttl).1 with
  | none =>
      rw [book_refused _ hans] at hl
      obtain ⟨hne, s, hs, hso, hse⟩ := h r o e hl he
      refine ⟨hne, s, ?_, hso, hse⟩
      by_cases hr : resource = r
      · subst hr
        have hslot : st.table.slotFor st.now resource = s := slotFor_of_held hs (hso ▸ hne)
        have hheld : s.heldByOther st.now owner = true := by
          rw [← Bool.not_eq_false, ← hslot]
          intro hfree
          have hsome : (st.table.acquire st.now resource owner ttl).1 = some _ :=
            acquire_eq_some.2 ⟨hfree, rfl⟩
          rw [hans] at hsome
          cases hsome
        rw [getElem?_acquire_self, hslot, if_pos hheld]
      · rw [getElem?_acquire_of_ne hr,
          getElem?_collect_of_kept hs (kept_of_owner (hso ▸ hne))]
  | some t =>
      rw [book_granted _ hans] at hl
      by_cases hkey : (resource, owner) = (r, o)
      · cases hkey
        rw [Function.update_self] at hl
        cases hl
        refine ⟨hname, _, getElem?_acquire_self, ?_⟩
        rw [if_neg (by rw [(acquire_eq_some.1 hans).1]; exact Bool.false_ne_true)]
        exact ⟨rfl, rfl⟩
      · rw [Function.update_of_ne (Ne.symm hkey)] at hl
        obtain ⟨hne, s, hs, hso, hse⟩ := h r o e hl he
        refine ⟨hne, s, ?_, hso, hse⟩
        by_cases hr : resource = r
        · -- the slot is another caller's, so nothing was granted
          subst hr
          have hslot : st.table.slotFor st.now resource = s := slotFor_of_held hs (hso ▸ hne)
          have hother : s.owner ≠ owner := fun h0 => hkey (by rw [← hso, h0])
          have hfree := (acquire_eq_some.1 hans).1
          rw [hslot, Slot.heldByOther] at hfree
          simp [hso, hne, hse, he, hso ▸ hother] at hfree
        · rw [getElem?_acquire_of_ne hr,
            getElem?_collect_of_kept hs (kept_of_owner (hso ▸ hne))]

/-- A caller that gives its lease back has none. -/
theorem Leased.release (h : Leased vs st) :
    Leased (vs ++ [machine.visit st (.release resource owner)])
      (machine.step st (.release resource owner)).2 := by
  intro r o e hl he
  rw [leases_snoc, book_release] at hl
  change o ≠ [] ∧ ∃ s, (st.table.release resource owner).2[r]? = some s ∧ _
  have hold : leases vs (r, o) = some e ∧
      ((st.table.release resource owner).1 = true → (resource, owner) ≠ (r, o)) := by
    cases hans : (st.table.release resource owner).1 with
    | false =>
        rw [hans] at hl
        exact ⟨hl, fun h0 => Bool.noConfusion h0⟩
    | true =>
        rw [hans, if_pos rfl] at hl
        by_cases hkey : (resource, owner) = (r, o)
        · rw [hkey, Function.update_self] at hl
          cases hl
        · rw [Function.update_of_ne (Ne.symm hkey)] at hl
          exact ⟨hl, fun _ => hkey⟩
  obtain ⟨hne, s, hs, hso, hse⟩ := h r o e hold.1 he
  refine ⟨hne, s, ?_, hso, hse⟩
  rw [getElem?_release]
  split
  · rename_i hr
    subst hr
    rw [hs, Option.map_some, if_neg]
    intro h0
    exact hold.2 (release_eq_true.2 ⟨s, hs, h0⟩) (by rw [← h0, hso])
  · exact hs

theorem Leased.step (h : Leased vs st) (c : Call) (hc : c.Named) :
    Leased (vs ++ [machine.visit st c]) (machine.step st c).2 := by
  cases c with
  | acquire resource owner ttl => exact h.acquire hc
  | release resource owner => exact h.release
  | fenceOk resource token =>
      intro r o e hl he
      rw [leases_snoc] at hl
      exact h r o e hl he
  | pass d =>
      intro r o e hl he
      rw [leases_snoc] at hl
      refine h r o e hl ?_
      exact Nat.lt_of_le_of_lt (Nat.le_add_right st.now d) he

theorem leased_run {now₀ : Instant} {calls : List Call} (hnamed : ∀ c ∈ calls, c.Named) :
    Leased (machine.visits (start now₀) calls) (machine.final (start now₀) calls) := by
  induction calls using List.reverseRecOn with
  | nil =>
      intro r o e hl he
      cases hl
  | append_singleton calls c ih =>
      rw [Machine.visits_snoc, Machine.final_snoc]
      refine (ih fun c hc => hnamed c (List.mem_append_left _ hc)).step c ?_
      exact hnamed c (List.mem_append_right _ (List.mem_singleton_self c))

theorem Leased.exclusive (h : Leased vs st) : Exclusive vs st.now := by
  intro r o₁ o₂ e₁ e₂ h₁ h₂ hlt₁ hlt₂
  obtain ⟨-, s₁, hs₁, ho₁, -⟩ := h r o₁ e₁ h₁ hlt₁
  obtain ⟨-, s₂, hs₂, ho₂, -⟩ := h r o₂ e₂ h₂ hlt₂
  rw [hs₁] at hs₂
  cases hs₂
  rw [← ho₁, ho₂]

/-! ## Tokens -/

/-- Every token granted for a resource is at most the one in its slot. -/
def Recorded (r : Str) (vs : List (Visit State Call Answer)) (st : State) : Prop :=
  ∀ u ∈ vs, ∀ t, Grants r t u → ∃ s, st.table[r]? = some s ∧ t ≤ s.token

theorem bumped_of_lt {t : Nat} (h : t + 1 < 2 ^ 64) : bumped t = t + 1 :=
  Nat.mod_eq_of_lt h

theorem le_token_grant (h : s.token + 1 < 2 ^ 64) (now : Instant) (owner : Str)
    (ttl : Duration) : s.token ≤ (s.grant now owner ttl).token := by
  rw [Slot.grant]
  simp only
  split
  · exact le_refl _
  · rw [bumped_of_lt h]
    omega

theorem token_acquire (hs : m[r]? = some s) (hkeep : ¬ m.Drops now r)
    (hwrap : resource = r → s.token + 1 < 2 ^ 64) :
    ∃ s', (m.acquire now resource owner ttl).2[r]? = some s' ∧ s.token ≤ s'.token := by
  have hcollect := (getElem?_collect_of_not_drops hkeep).trans hs
  by_cases hr : resource = r
  · subst hr
    have hslot : m.slotFor now resource = s := by rw [slotFor, hcollect, Option.getD_some]
    refine ⟨_, getElem?_acquire_self, ?_⟩
    rw [hslot]
    split
    · exact le_refl _
    · exact le_token_grant (hwrap rfl) _ _ _
  · exact ⟨s, by rw [getElem?_acquire_of_ne hr, hcollect], le_refl _⟩

theorem token_release (hs : m[r]? = some s) (resource owner : Str) :
    ∃ s', (m.release resource owner).2[r]? = some s' ∧ s'.token = s.token := by
  rw [getElem?_release, hs]
  split
  · refine ⟨if s.owner = owner then { s with owner := [] } else s, rfl, ?_⟩
    split <;> rfl
  · exact ⟨s, rfl, rfl⟩

theorem token_step {c : Call} (hs : st.table[r]? = some s)
    (hrem : Remembers r (machine.visit st c)) :
    ∃ s', (machine.step st c).2.table[r]? = some s' ∧ s.token ≤ s'.token := by
  cases c with
  | acquire resource owner ttl =>
      obtain ⟨hkeep, hwrap⟩ := hrem resource owner ttl rfl
      exact token_acquire hs hkeep fun hr => hwrap hr s hs
  | release resource owner =>
      obtain ⟨s', hs', ht⟩ := token_release hs resource owner
      exact ⟨s', hs', ht.ge⟩
  | fenceOk resource token => exact ⟨s, hs, le_refl _⟩
  | pass d => exact ⟨s, hs, le_refl _⟩

theorem token_of_grants {c : Call} {t : Nat} (h : Grants r t (machine.visit st c)) :
    ∃ s, (machine.step st c).2.table[r]? = some s ∧ s.token = t := by
  obtain ⟨owner, ttl, hcall, hans⟩ := h
  obtain rfl : c = .acquire r owner ttl := hcall
  have hsome : (st.table.acquire st.now r owner ttl).1 = some t := Answer.token.inj hans
  obtain ⟨hfree, ht⟩ := acquire_eq_some.1 hsome
  refine ⟨_, getElem?_acquire_self, ?_⟩
  rw [if_neg (by rw [hfree]; exact Bool.false_ne_true)]
  exact ht

theorem Recorded.step (h : Recorded r vs st) {c : Call}
    (hrem : Remembers r (machine.visit st c)) :
    Recorded r (vs ++ [machine.visit st c]) (machine.step st c).2 := by
  intro u hu t ht
  rcases List.mem_append.1 hu with hold | hnew
  · obtain ⟨s, hs, hle⟩ := h u hold t ht
    obtain ⟨s', hs', hle'⟩ := token_step hs hrem
    exact ⟨s', hs', hle.trans hle'⟩
  · obtain rfl := List.mem_singleton.1 hnew
    obtain ⟨s, hs, heq⟩ := token_of_grants ht
    exact ⟨s, hs, heq.ge⟩

theorem recorded_run {now₀ : Instant} {calls : List Call}
    (hrem : ∀ v ∈ machine.visits (start now₀) calls, Remembers r v) :
    Recorded r (machine.visits (start now₀) calls) (machine.final (start now₀) calls) := by
  refine Machine.invariant (P := Recorded r) ?_ ?_ calls hrem
  · intro u hu
    cases hu
  · intro vs st c h hgood
    exact h.step hgood

/-- A fresh grant's token is above the one its slot had. -/
theorem lt_of_fresh {c : Call} {t : Nat} (hc : c.Named) (hs : st.table[r]? = some s)
    (hrem : Remembers r (machine.visit st c)) (h : Fresh r t (machine.visit st c)) :
    s.token < t := by
  obtain ⟨owner, ttl, hcall, hans, hnew⟩ := h
  obtain rfl : c = .acquire r owner ttl := hcall
  have hsome : (st.table.acquire st.now r owner ttl).1 = some t := Answer.token.inj hans
  obtain ⟨hkeep, hwrap⟩ : ¬ st.table.Drops st.now r ∧
    (r = r → ∀ s, st.table[r]? = some s → s.token + 1 < 2 ^ 64) := hrem r owner ttl rfl
  have hslot : st.table.slotFor st.now r = s := by
    rw [slotFor, getElem?_collect_of_not_drops hkeep, hs, Option.getD_some]
  obtain ⟨-, ht⟩ := acquire_eq_some.1 hsome
  rw [hslot, Slot.grant] at ht
  have hout : s.reentrant st.now owner = false := by
    rw [← Bool.not_eq_true, Slot.reentrant, Bool.and_eq_true, decide_eq_true_eq,
      decide_eq_true_eq]
    rintro ⟨ho, he⟩
    refine hnew ?_
    change st.table.holder st.now r = some owner
    rw [holder, hs, Option.bind_some, if_pos ⟨ho ▸ hc, he⟩, ho]
  rw [hout] at ht
  simp only [Bool.false_eq_true, if_false] at ht
  rw [bumped_of_lt (hwrap rfl s hs)] at ht
  omega

theorem named_of_split {calls before after : List Call} {c : Call}
    (hnamed : ∀ c ∈ calls, c.Named) (h : calls = before ++ c :: after) : c.Named :=
  hnamed c (h ▸ List.mem_append_right _ List.mem_cons_self)

theorem recorded_before {now₀ : Instant} {calls : List Call}
    (hnamed : ∀ c ∈ calls, c.Named)
    (hrem : ∀ v ∈ machine.visits (start now₀) calls, Remembers r v)
    {pre post : List (Visit State Call Answer)}
    (h : machine.visits (start now₀) calls = pre ++ v :: post) :
    ∃ st c, v = machine.visit st c ∧ c.Named ∧ Recorded r pre st := by
  obtain ⟨before, c, after, hcalls, hpre, hv⟩ := Machine.visits_split h
  refine ⟨_, c, hv, named_of_split hnamed hcalls, ?_⟩
  rw [← hpre]
  refine recorded_run fun u hu => hrem u ?_
  rw [h, ← hpre]
  exact List.mem_append_left _ hu

theorem tokensGrow_run {now₀ : Instant} {calls : List Call}
    (hnamed : ∀ c ∈ calls, c.Named)
    (hrem : ∀ v ∈ machine.visits (start now₀) calls, Remembers r v) :
    TokensGrow r (machine.visits (start now₀) calls) := by
  intro u v t₁ t₂ hsub hu hv
  obtain ⟨pre, post, hsplit, hpre⟩ := Machine.split_of_sublist [u] hsub
  obtain ⟨st, c, rfl, hc, hrec⟩ := recorded_before hnamed hrem hsplit
  obtain ⟨s, hs, hle⟩ := hrec u (List.singleton_sublist.1 hpre) t₁ hu
  have hgood := hrem (machine.visit st c)
    (hsplit ▸ List.mem_append_right _ List.mem_cons_self)
  exact Nat.lt_of_le_of_lt hle (lt_of_fresh hc hs hgood hv)

theorem Fresh.grants {t : Nat} (h : Fresh r t v) : Grants r t v := by
  obtain ⟨owner, ttl, hcall, hans, -⟩ := h
  exact ⟨owner, ttl, hcall, hans⟩

theorem fences_run {now₀ : Instant} {calls : List Call}
    (hnamed : ∀ c ∈ calls, c.Named)
    (hrem : ∀ v ∈ machine.visits (start now₀) calls, Remembers r v) :
    Fences r (machine.visits (start now₀) calls) := by
  intro u w v t₁ t₂ hsub hu hw hcall
  obtain ⟨pre, post, hsplit, hpre⟩ := Machine.split_of_sublist [u, w] hsub
  obtain ⟨st, c, rfl, -, hrec⟩ := recorded_before hnamed hrem hsplit
  obtain rfl : c = .fenceOk r t₁ := hcall
  have hgrow : t₁ < t₂ := by
    refine tokensGrow_run hnamed hrem u w t₁ t₂ (hpre.trans ?_) hu hw
    rw [hsplit]
    exact List.sublist_append_left _ _
  obtain ⟨s, hs, hle⟩ := hrec w (hpre.subset (by simp)) t₂ hw.grants
  change Answer.fence (st.table.fenceOk r t₁) = _
  rw [fenceOk, hs]
  simp only [Answer.fence.injEq, decide_eq_false_iff_not, ge_iff_le, not_le]
  omega

/-- In every run of named callers no two of them have unexpired leases on one
resource; and for every resource the table does not forget, tokens grow and
superseded ones are fenced out. -/
theorem run_promises (now₀ : Instant) (calls : List Call)
    (hnamed : ∀ c ∈ calls, c.Named) :
    Exclusive (machine.visits (start now₀) calls)
        (machine.final (start now₀) calls).now ∧
      ∀ r, (∀ v ∈ machine.visits (start now₀) calls, Remembers r v) →
        TokensGrow r (machine.visits (start now₀) calls) ∧
          Fences r (machine.visits (start now₀) calls) :=
  ⟨(leased_run hnamed).exclusive,
    fun _ hrem => ⟨tokensGrow_run hnamed hrem, fences_run hnamed hrem⟩⟩

/-- One resource passed from `a` to `b`, and `a`'s token presented afterwards. -/
def handover : List Call :=
  [.acquire ['r'] ['a'] LOCK_TTL, .release ['r'] ['a'], .acquire ['r'] ['b'] LOCK_TTL,
    .fenceOk ['r'] 1]

theorem run_promises_handover :
    Exclusive (machine.visits (start 0) handover) (machine.final (start 0) handover).now ∧
      TokensGrow ['r'] (machine.visits (start 0) handover) ∧
        Fences ['r'] (machine.visits (start 0) handover) := by
  have hnamed : ∀ c ∈ handover, c.Named := by
    simp [handover, Call.Named]
  have hrem : ∀ v ∈ machine.visits (start 0) handover, Remembers ['r'] v := by
    intro v hv resource owner ttl hcall
    simp only [handover, Machine.visits_cons, Machine.visits_nil, List.mem_cons,
      List.not_mem_nil, or_false] at hv
    rcases hv with rfl | rfl | rfl | rfl
    · refine ⟨fun h => absurd h.1 (by decide +kernel), fun _ s hs => ?_⟩
      cases (show ((∅ : LockTable)[['r']]?) = some s from hs)
    · cases hcall
    · refine ⟨fun h => absurd h.1 (by decide +kernel), fun _ s hs => ?_⟩
      have ht : (machine.final (start 0) (handover.take 2)).table[['r']]?.map Slot.token =
          some 1 := by decide +kernel
      have hst := congrArg (Option.map Slot.token) hs
      have htoken : s.token = 1 := Option.some.inj (hst.symm.trans ht)
      omega
    · cases hcall
  exact ⟨(run_promises 0 handover hnamed).1, (run_promises 0 handover hnamed).2 ['r'] hrem⟩

/-! ## The crowd -/

/-- The `k`-th of a crowd of resources. -/
def bystander (k : Nat) : Str := List.replicate (k + 1) 'x'

/-- Taking each of a crowd's resources once. -/
def crowd (n : Nat) : List Call :=
  (List.range n).map fun k => .acquire (bystander k) ['o'] LOCK_TTL

theorem bystander_injective : Function.Injective bystander := by
  intro j k h
  have := congrArg List.length h
  simpa [bystander] using this

/-- Up to 4096 slots nothing is collected: a crowd leaves a slot alone, and every
further bystander is still to come. -/
theorem final_crowd (now : Instant) {m : LockTable} {r : Str} {s : Slot}
    (hsize : m.size = 1) (hs : m[r]? = some s) (hr : ∀ k, bystander k ≠ r)
    (hnone : ∀ k, m[bystander k]? = none) :
    ∀ n, n ≤ 4096 → ∃ m', machine.final ⟨now, m⟩ (crowd n) = ⟨now, m'⟩ ∧
      m'.size = n + 1 ∧ m'[r]? = some s ∧ ∀ k, n ≤ k → m'[bystander k]? = none := by
  intro n
  induction n with
  | zero => exact fun _ => ⟨m, rfl, by omega, hs, fun k _ => hnone k⟩
  | succ n ih =>
      intro hn
      obtain ⟨m', hfinal, hsize', hs', hnone'⟩ := ih (by omega)
      have hcrowd : crowd (n + 1) = crowd n ++ [.acquire (bystander n) ['o'] LOCK_TTL] := by
        rw [crowd, List.range_succ, List.map_append]
        rfl
      have hcollect : m'.collect now = m' := by
        rw [collect, if_neg (by omega)]
      have hslot : m'.slotFor now (bystander n) = Slot.vacant now := by
        rw [slotFor, hcollect, hnone' n (le_refl n), Option.getD_none]
      have hacq : m'.acquire now (bystander n) ['o'] LOCK_TTL =
          (some (bumped 0), m'.insert (bystander n)
            ((Slot.vacant now).grant now ['o'] LOCK_TTL)) := by
        rw [acquire, hslot, hcollect]
        rfl
      have hstep : machine.final ⟨now, m⟩ (crowd (n + 1)) =
          ⟨now, m'.insert (bystander n) ((Slot.vacant now).grant now ['o'] LOCK_TTL)⟩ := by
        rw [hcrowd, Machine.final_snoc, hfinal]
        exact congrArg (fun a => State.mk now a.2) hacq
      refine ⟨_, hstep, ?_, ?_, fun k hk => ?_⟩
      · rw [Std.ExtTreeMap.size_insert, if_neg, hsize']
        rw [Std.ExtTreeMap.contains_eq_isSome_getElem?, hnone' n (le_refl n)]
        exact Bool.false_ne_true
      · rw [getElem?_set, if_neg (hr n), hs']
      · rw [getElem?_set, if_neg fun h => absurd (bystander_injective h) (by omega),
          hnone' k (by omega)]

/-- A resource whose slot is collected starts again at token one. -/
theorem acquire_dropped (h : m.Drops now r) (owner : Str) (ttl : Duration) :
    (m.acquire now r owner ttl).1 = some 1 ∧
      (m.acquire now r owner ttl).2[r]? = some ⟨owner, now + ttl, 1⟩ := by
  obtain ⟨hsize, s, hs, hk⟩ := h
  have hslot : m.slotFor now r = Slot.vacant now := by
    rw [slotFor, getElem?_collect, if_pos hsize, hs, Option.filter_some,
      if_neg (by rw [hk]; exact Bool.false_ne_true), Option.getD_none]
  have hfree : (Slot.vacant now).heldByOther now owner = false := rfl
  have hgrant : (Slot.vacant now).grant now owner ttl = ⟨owner, now + ttl, 1⟩ := by
    rw [Slot.grant, Slot.vacant]
    simp [Slot.reentrant, bumped]
  constructor
  · rw [acquire_eq_some, hslot, hgrant]
    exact ⟨hfree, rfl⟩
  · rw [getElem?_acquire_self, hslot, hgrant, hfree]
    rfl

theorem none_step {c : Call} (h : st.table[r]? = none)
    (hc : ∀ owner ttl, c ≠ .acquire r owner ttl) : (machine.step st c).2.table[r]? = none := by
  cases c with
  | acquire resource owner ttl =>
      have hr : resource ≠ r := fun h0 => hc owner ttl (h0 ▸ rfl)
      change (st.table.acquire st.now resource owner ttl).2[r]? = none
      rw [getElem?_acquire_of_ne hr, getElem?_collect, h, Option.filter_none, ite_self]
  | release resource owner =>
      change (st.table.release resource owner).2[r]? = none
      rw [getElem?_release, h, Option.map_none, ite_self]
  | fenceOk resource token => exact h
  | pass d => exact h

theorem none_final {calls : List Call}
    (hcalls : ∀ c ∈ calls, ∀ owner ttl, c ≠ .acquire r owner ttl) :
    ∀ {st : State}, st.table[r]? = none → (machine.final st calls).table[r]? = none := by
  induction calls with
  | nil => exact fun h => h
  | cons c calls ih =>
      intro st h
      refine ih (fun c hc => hcalls c (List.mem_cons_of_mem _ hc)) (none_step h ?_)
      exact hcalls c List.mem_cons_self

/-- A resource taken and given back twice. -/
def twice : List Call :=
  [.acquire ['r'] ['a'] LOCK_TTL, .release ['r'] ['a'], .acquire ['r'] ['b'] LOCK_TTL,
    .release ['r'] ['b']]

/-- A resource taken again after a pause. -/
def afterPause : List Call :=
  [.pass (400 * SECOND), .acquire ['r'] ['c'] LOCK_TTL, .fenceOk ['r'] 1]

theorem final_twice : ∃ m, machine.final (start 0) twice = ⟨0, m⟩ ∧ m.size = 1 ∧
    m[['r']]? = some ⟨[], LOCK_TTL, 2⟩ ∧ ∀ k, m[bystander k]? = none := by
  refine ⟨_, rfl, by decide +kernel, by decide +kernel, fun k => ?_⟩
  have hcalls : ∀ c ∈ twice, ∀ owner ttl, c ≠ .acquire (bystander k) owner ttl := by
    simp [twice, bystander, List.replicate_succ]
  have hstart : (start 0).table[bystander k]? = none := Std.ExtTreeMap.getElem?_empty
  exact none_final hcalls hstart

/-- Four thousand others take a lock, and a while later the resource's slot has been
collected with its token. -/
def forgetful : List Call := twice ++ crowd 4096 ++ afterPause

theorem forgetful_forgets :
    (∀ c ∈ forgetful, c.Named) ∧
      ¬ TokensGrow ['r'] (machine.visits (start 0) forgetful) ∧
      ¬ Fences ['r'] (machine.visits (start 0) forgetful) := by
  obtain ⟨m, hfinal, hsize, hslot, hnone⟩ := final_twice
  obtain ⟨m', hfinal', hsize', hslot', -⟩ := final_crowd 0 hsize hslot
    (fun k => by simp [bystander, List.replicate_succ]) hnone 4096 (le_refl _)
  have hvisits : machine.visits (start 0) forgetful =
      machine.visits (start 0) twice ++ (machine.visits ⟨0, m⟩ (crowd 4096) ++
        machine.visits ⟨0, m'⟩ afterPause) := by
    rw [forgetful, List.append_assoc, Machine.visits_append, hfinal, Machine.visits_append,
      hfinal']
  -- the slot is free and its lease long over, so the next acquire drops it
  generalize hthen : 0 + 400 * SECOND = later at *
  have hdrops : m'.Drops later ['r'] := by
    refine ⟨by omega, _, hslot', ?_⟩
    rw [← hthen]
    decide
  obtain ⟨hans, hnew⟩ := acquire_dropped hdrops ['c'] LOCK_TTL
  have hsub : ∀ us vs : List (Visit State Call Answer),
      us.Sublist (machine.visits (start 0) twice) →
      vs.Sublist [machine.visit ⟨0, m'⟩ (.pass (400 * SECOND)),
        machine.visit ⟨later, m'⟩ (.acquire ['r'] ['c'] LOCK_TTL),
        machine.visit ⟨later, (m'.acquire later ['r'] ['c'] LOCK_TTL).2⟩ (.fenceOk ['r'] 1)] →
      (us ++ vs).Sublist (machine.visits (start 0) forgetful) := by
    intro us vs hus hvs
    rw [hvisits]
    refine hus.append (List.Sublist.trans ?_ (List.sublist_append_right _ _))
    rw [← hthen] at hvs
    exact hvs
  have hfresh : Fresh ['r'] 1
      (machine.visit ⟨later, m'⟩ (.acquire ['r'] ['c'] LOCK_TTL)) := by
    refine ⟨['c'], LOCK_TTL, rfl, congrArg Answer.token hans, ?_⟩
    change m'.holder later ['r'] ≠ some ['c']
    rw [holder, hslot', Option.bind_some, if_neg (by simp)]
    exact fun h0 => by cases h0
  have hpassed : (machine.visit ⟨later, (m'.acquire later ['r'] ['c'] LOCK_TTL).2⟩
      (.fenceOk ['r'] 1)).answer = .fence true := by
    change Answer.fence (fenceOk (m'.acquire later ['r'] ['c'] LOCK_TTL).2 ['r'] 1) = _
    rw [fenceOk, hnew]
    rfl
  refine ⟨?_, fun h => ?_, fun h => ?_⟩
  · intro c hc
    simp only [forgetful, twice, crowd, afterPause, List.mem_append, List.mem_map,
      List.mem_cons, List.not_mem_nil, or_false] at hc
    rcases hc with ((rfl | rfl | rfl | rfl) | ⟨k, -, rfl⟩) | rfl | rfl | rfl <;>
      simp [Call.Named]
  · have hgrant : Grants ['r'] 2 (machine.visit (machine.final (start 0) (twice.take 2))
        (.acquire ['r'] ['b'] LOCK_TTL)) := ⟨['b'], LOCK_TTL, rfl, by decide +kernel⟩
    have hpair := hsub [_] [_] (List.singleton_sublist.2 (List.mem_of_getElem? (i := 2) rfl))
      (List.singleton_sublist.2 (List.mem_of_getElem? (i := 1) rfl))
    exact absurd (h _ _ 2 1 hpair hgrant hfresh) (by decide)
  · have hfirst : Grants ['r'] 1 (machine.visit (start 0) (.acquire ['r'] ['a'] LOCK_TTL)) :=
      ⟨['a'], LOCK_TTL, rfl, by decide +kernel⟩
    have hsecond : Fresh ['r'] 2 (machine.visit (machine.final (start 0) (twice.take 2))
        (.acquire ['r'] ['b'] LOCK_TTL)) :=
      ⟨['b'], LOCK_TTL, rfl, by decide +kernel, by decide +kernel⟩
    have hsub2 : [machine.visit (start 0) (.acquire ['r'] ['a'] LOCK_TTL),
        machine.visit (machine.final (start 0) (twice.take 2))
          (.acquire ['r'] ['b'] LOCK_TTL)].Sublist (machine.visits (start 0) twice) :=
      .cons_cons _ (.cons _ (.cons_cons _ (.cons _ .slnil)))
    have htriple := hsub _ [_] hsub2
      (List.singleton_sublist.2 (List.mem_of_getElem? (i := 2) rfl))
    have hfenced := h _ _ _ 1 2 htriple hfirst hsecond rfl
    rw [hpassed] at hfenced
    cases hfenced

end LockTable

end Kerplace
