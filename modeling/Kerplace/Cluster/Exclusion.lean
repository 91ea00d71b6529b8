/-
# `Kerplace.Cluster.Exclusion` — at most one guard with a quorum

Two guards with a quorum on one resource would be two owners of one slot, as
soon as their quorums have a node in common.  Every gateway leaves its own node
out and takes half of the rest and one more, so two gateways on different nodes
of an even number have quorums that need not meet; whenever they must meet, at
most one guard is held, in every run in which no counted lease ends and no
release reaches a node after its gateway went on without its answer.
-/
import Kerplace.Cluster.Gateways
import Kerplace.Cluster.Leases
import Mathlib.Data.List.Dedup
import Mathlib.Data.List.Perm.Subperm

namespace Kerplace

/-! ## A slot that is held -/

namespace LockTable

variable {m : LockTable} {now : Instant} {r r' o o' : Str} {ttl : Duration} {t : Nat}

/-- `o` has an unexpired lease on `r`. -/
def Held (m : LockTable) (now : Instant) (r o : Str) : Prop :=
  ∃ s, m[r]? = some s ∧ s.owner = o ∧ now < s.expiry

theorem held_of_granted (h : (m.acquire now r o ttl).1 = some t) (httl : 0 < ttl) :
    Held (m.acquire now r o ttl).2 now r o := by
  refine ⟨_, getElem?_acquire_self, ?_⟩
  rw [if_neg (by rw [(acquire_eq_some.1 h).1]; exact Bool.false_ne_true)]
  exact ⟨rfl, Nat.lt_add_of_pos_right httl⟩

/-- An acquire, whoever makes it, leaves a held slot held. -/
theorem Held.acquire (h : Held m now r o) (ho : o ≠ []) (r' o' : Str) (httl : 0 < ttl) :
    Held (m.acquire now r' o' ttl).2 now r o := by
  obtain ⟨s, hs, hso, hlt⟩ := h
  by_cases hr : r' = r
  · subst hr
    have hslot : m.slotFor now r' = s := slotFor_of_held hs (hso ▸ ho)
    refine ⟨_, getElem?_acquire_self, ?_⟩
    rw [hslot]
    by_cases hsame : s.owner = o'
    · have hfree : s.heldByOther now o' = false := by
        simp [Slot.heldByOther, hsame]
      rw [hfree]
      exact ⟨hsame.symm.trans hso, Nat.lt_add_of_pos_right httl⟩
    · have hother : s.heldByOther now o' = true := by
        simp [Slot.heldByOther, hsame, hso ▸ ho, hlt]
      rw [if_pos hother]
      exact ⟨hso, hlt⟩
  · exact ⟨s, by rw [getElem?_acquire_of_ne hr,
      getElem?_collect_of_kept hs (kept_of_owner (hso ▸ ho))], hso, hlt⟩

theorem Held.release (h : Held m now r o) (hne : r' = r → o' ≠ o) :
    Held (m.release r' o').2 now r o := by
  obtain ⟨s, hs, hso, hlt⟩ := h
  refine ⟨s, ?_, hso, hlt⟩
  rw [getElem?_release]
  split
  · rename_i hr
    rw [hs, Option.map_some, if_neg (hso ▸ (hne hr).symm)]
  · exact hs

theorem Held.unique (h : Held m now r o) (h' : Held m now r o') : o = o' := by
  obtain ⟨s, hs, rfl, -⟩ := h
  obtain ⟨s', hs', rfl, -⟩ := h'
  rw [hs] at hs'
  cases hs'
  rfl

end LockTable

/-! ## What a step does to an attempt -/

/-- The phases in which an attempt relies on what nodes granted it. -/
def Phase.counting : Phase → Bool
  | .asking _ _ => true
  | .held => true
  | _ => false

/-- The phases from the guard on. -/
def Phase.settled : Phase → Bool
  | .held => true
  | .releasing _ => true
  | _ => false

/-- The voters still to be asked. -/
def Phase.todo : Phase → List Str
  | .asking _ todo => todo
  | _ => []

/-- The attempt relies on a node's grant. -/
def Attempt.Counts {G : Type} (x : Attempt G) (host : Str) : Prop :=
  host ∈ x.tokens ∧ x.phase.counting = true

namespace Sys

variable {G : Type} [DecidableEq G] {D : Deployment G} {s : Sys G} {e : Event G} {a : Nat}
  {x x' : Attempt G}

/-- How a step can change attempt `a`. -/
inductive Moves (D : Deployment G) (s : Sys G) (e : Event G) (a : Nat) :
    Attempt G → Attempt G → Prop where
  | stays (x : Attempt G) : Moves D s e a x x
  | granted {x : Attempt G} {round : Nat} {host : Str} {todo : List Str} {t : Nat}
      (he : e = .ask a .answered) (hp : x.phase = .asking round (host :: todo))
      (ht : (s.exec host (.acquire x.resource x.owner.text LOCK_TTL)).1 = .token (some t)) :
      Moves D s e a x { x with tokens := x.tokens.insert host t, phase := .asking round todo }
  | passed {x : Attempt G} {round : Nat} {host : Str} {todo : List Str}
      (hp : x.phase = .asking round (host :: todo)) :
      Moves D s e a x { x with phase := .asking round todo }
  | wins {x : Attempt G} {round : Nat} (he : e = .conclude a) (hp : x.phase = .asking round [])
      (hq : D.quorum x.gateway ≤ x.tokens.size) : Moves D s e a x { x with phase := .held }
  | retires {x : Attempt G} {p : Phase} (hc : p.counting = false)
      (hs : x.phase.settled = true → p.settled = true) :
      Moves D s e a x { x with phase := p }
  | retries {x : Attempt G} {round : Nat} (hp : x.phase = .dropping round []) :
      Moves D s e a x
        { x with tokens := ∅, phase := .asking (round + 1) (D.voters x.gateway) }

/-- A new attempt: nothing granted, and an owner id of its own. -/
def Starts (D : Deployment G) (s : Sys G) (a : Nat) (x : Attempt G) : Prop :=
  a = s.attempts.length ∧ x.tokens = ∅ ∧ x.phase.settled = false ∧
    (∀ host ∈ x.phase.todo, host ∈ D.voters x.gateway) ∧
    ∀ y ∈ s.attempts, y.owner ≠ x.owner

omit [DecidableEq G] in
theorem getElem?_put {b : Nat} {y z : Attempt G} (hb : s.attempts[b]? = some y)
    (h : (s.put b z).attempts[a]? = some x) : (a = b ∧ x = z) ∨ s.attempts[a]? = some x := by
  rw [put, List.getElem?_set] at h
  by_cases hab : b = a
  · subst hab
    rw [if_pos rfl, if_pos (List.getElem?_eq_some_iff.1 hb).1] at h
    exact .inl ⟨rfl, (Option.some.inj h).symm⟩
  · rw [if_neg hab] at h
    exact .inr h

omit [DecidableEq G] in
theorem moves_put {b : Nat} {y z : Attempt G} (hb : s.attempts[b]? = some y)
    (hmove : Moves D s e b y z) (h : (s.put b z).attempts[a]? = some x') :
    ∃ x, s.attempts[a]? = some x ∧ Moves D s e a x x' := by
  rcases getElem?_put hb h with ⟨rfl, rfl⟩ | hold
  · exact ⟨y, hb, hmove⟩
  · exact ⟨x', hold, .stays x'⟩

theorem step_attempt (h : (step D s e).2.attempts[a]? = some x') :
    (∃ x, s.attempts[a]? = some x ∧ Moves D s e a x x') ∨ Starts D s a x' := by
  have hsame : s.attempts[a]? = some x' →
      (∃ x, s.attempts[a]? = some x ∧ Moves D s e a x x') ∨ Starts D s a x' :=
    fun h => .inl ⟨x', h, .stays x'⟩
  cases e with
  | lock g resource owner =>
      simp only [step] at h
      split at h
      · exact hsame h
      · rename_i hfresh
        rw [List.getElem?_append] at h
        split at h
        · exact hsame h
        · rename_i hlen
          obtain ⟨ha, hx⟩ := List.getElem?_eq_some_iff.1 h
          rw [List.length_singleton] at ha
          have hx' : x' = ⟨g, resource, owner, ∅,
              if D.voters g = [] then .alone else .asking 0 (D.voters g)⟩ := by
            rw [← hx, List.getElem_singleton]
          refine .inr ⟨by omega, ?_⟩
          subst hx'
          refine ⟨rfl, ?_, ?_, fun y hy h0 => hfresh ?_⟩
          · split <;> rfl
          · split
            · intro host hhost
              cases hhost
            · exact fun host hhost => hhost
          · exact List.any_eq_true.2 ⟨y, hy, by simp [h0]⟩
  | ask b rpc =>
      simp only [step] at h
      split at h
      · rename_i y hb
        split at h
        · rename_i round host todo hp
          cases rpc with
          | failed => exact .inl (moves_put hb (.passed hp) h)
          | answered =>
              simp only [ask] at h
              split at h
              · rename_i t ht
                exact .inl (moves_put hb (.granted rfl hp ht) h)
              · exact .inl (moves_put hb (.passed hp) h)
        · exact hsame h
      · exact hsame h
  | conclude b =>
      simp only [step] at h
      split at h
      · rename_i y hb
        split at h
        · rename_i round hp
          split at h
          · rename_i hq
            exact .inl (moves_put hb (.wins rfl hp hq) h)
          · exact .inl (moves_put hb
              (.retires rfl (by rw [hp]; exact fun h0 => Bool.noConfusion h0)) h)
        · exact hsame h
      · exact hsame h
  | free b rpc =>
      simp only [step] at h
      split at h
      · rename_i y hb
        split at h
        · rename_i round host todo hp
          have hmove : Moves D s (.free b rpc) b y { y with phase := .dropping round todo } :=
            .retires rfl (by rw [hp]; exact fun h0 => Bool.noConfusion h0)
          cases rpc <;> exact .inl (moves_put hb hmove h)
        · rename_i host todo hp
          have hmove : Moves D s (.free b rpc) b y { y with phase := .releasing todo } :=
            .retires rfl fun _ => rfl
          cases rpc <;> exact .inl (moves_put hb hmove h)
        · exact hsame h
      · exact hsame h
  | again b =>
      simp only [step] at h
      split at h
      · rename_i y hb
        split at h
        · rename_i round hp
          split at h
          · exact .inl (moves_put hb (.retries hp) h)
          · exact .inl (moves_put hb
              (.retires rfl (by rw [hp]; exact fun h0 => Bool.noConfusion h0)) h)
        · exact hsame h
      · exact hsame h
  | drop b =>
      simp only [step] at h
      split at h
      · rename_i y hb
        split at h
        · exact .inl (moves_put hb (.retires rfl fun _ => rfl) h)
        · exact .inl (moves_put hb (.retires rfl fun _ => rfl) h)
        · exact hsame h
      · exact hsame h
  | deliver i =>
      simp only [step] at h
      split at h <;> exact hsame h
  | send b entry =>
      simp only [step] at h
      repeat' split at h
      all_goals exact hsame h
  | arrive i =>
      simp only [step] at h
      split at h <;> exact hsame h
  | pass d => exact hsame h

/-! ## What a step does to the nodes -/

/-- A lock request an attempt makes. -/
def Names (x : Attempt G) (c : LockTable.Call) : Prop :=
  c = .acquire x.resource x.owner.text LOCK_TTL ∨ c = .release x.resource x.owner.text

/-- The step has a node carry out a lock request. -/
inductive Makes (s : Sys G) : Event G → Str → LockTable.Call → Prop where
  | ask {a : Nat} {x : Attempt G} {round : Nat} {host : Str} {todo : List Str}
      (ha : s.attempts[a]? = some x) (hp : x.phase = .asking round (host :: todo)) :
      Makes s (.ask a .answered) host (.acquire x.resource x.owner.text LOCK_TTL)
  | free {a : Nat} {x : Attempt G} (host : Str) (ha : s.attempts[a]? = some x)
      (hp : x.phase.counting = false) :
      Makes s (.free a .answered) host (.release x.resource x.owner.text)
  | deliver {i : Nat} {host : Str} {c : LockTable.Call} (hi : s.late[i]? = some (host, c)) :
      Makes s (.deliver i) host c

/-- Either a node carries out one lock request, or the tables stay. -/
theorem step_tables (D : Deployment G) (s : Sys G) (e : Event G) :
    (∃ host c, Makes s e host c ∧ (step D s e).2.tables = (s.exec host c).2.tables ∧
      (step D s e).2.now = s.now) ∨
    ((step D s e).2.tables = s.tables ∧
      ((step D s e).2.now = s.now ∨ ∃ d, e = .pass d ∧ (step D s e).2.now = s.now + d)) := by
  cases e with
  | lock g resource owner =>
      refine .inr ?_
      simp only [step]
      split <;> exact ⟨rfl, .inl rfl⟩
  | ask a rpc =>
      simp only [step]
      split
      · rename_i x ha
        split
        · rename_i round host todo hp
          cases rpc with
          | failed => exact .inr ⟨rfl, .inl rfl⟩
          | answered =>
              refine .inl ⟨host, _, .ask ha hp, ?_⟩
              simp only [ask]
              split <;> exact ⟨rfl, rfl⟩
        · exact .inr ⟨rfl, .inl rfl⟩
      · exact .inr ⟨rfl, .inl rfl⟩
  | conclude a =>
      refine .inr ?_
      simp only [step]
      repeat' split
      all_goals exact ⟨rfl, .inl rfl⟩
  | free a rpc =>
      simp only [step]
      split
      · rename_i x ha
        split
        · rename_i round host todo hp
          cases rpc with
          | failed => exact .inr ⟨rfl, .inl rfl⟩
          | answered => exact .inl ⟨host, _, .free host ha (by rw [hp]; rfl), rfl, rfl⟩
        · rename_i host todo hp
          cases rpc with
          | failed => exact .inr ⟨rfl, .inl rfl⟩
          | answered => exact .inl ⟨host, _, .free host ha (by rw [hp]; rfl), rfl, rfl⟩
        · exact .inr ⟨rfl, .inl rfl⟩
      · exact .inr ⟨rfl, .inl rfl⟩
  | again a =>
      refine .inr ?_
      simp only [step]
      repeat' split
      all_goals exact ⟨rfl, .inl rfl⟩
  | drop a =>
      refine .inr ?_
      simp only [step]
      repeat' split
      all_goals exact ⟨rfl, .inl rfl⟩
  | deliver i =>
      simp only [step]
      split
      · rename_i host c hi
        exact .inl ⟨host, c, .deliver hi, rfl, rfl⟩
      · exact .inr ⟨rfl, .inl rfl⟩
  | send a entry =>
      refine .inr ?_
      simp only [step]
      repeat' split
      all_goals exact ⟨rfl, .inl rfl⟩
  | arrive i =>
      refine .inr ?_
      simp only [step]
      split <;> exact ⟨rfl, .inl rfl⟩
  | pass d => exact .inr ⟨rfl, .inr ⟨d, rfl, rfl⟩⟩

/-- A request that failed for its gateway is one of an attempt's. -/
theorem step_late {q : Str × LockTable.Call} (h : q ∈ (step D s e).2.late) :
    q ∈ s.late ∨ ∃ (a : Nat) (x : Attempt G), s.attempts[a]? = some x ∧ Names x q.2 := by
  cases e with
  | lock g resource owner =>
      simp only [step] at h
      split at h <;> exact .inl h
  | ask a rpc =>
      simp only [step] at h
      split at h
      · rename_i x ha
        split at h
        · cases rpc with
          | failed =>
              rcases List.mem_append.1 h with hold | hnew
              · exact .inl hold
              · exact .inr ⟨a, x, ha, .inl (by rw [List.mem_singleton.1 hnew])⟩
          | answered =>
              simp only [ask] at h
              split at h <;> exact .inl h
        · exact .inl h
      · exact .inl h
  | conclude a =>
      simp only [step] at h
      repeat' split at h
      all_goals exact .inl h
  | free a rpc =>
      simp only [step] at h
      split at h
      · rename_i x ha
        have hfree : ∀ host p, q ∈ (s.free a x host p rpc).2.late →
            q ∈ s.late ∨ ∃ (a : Nat) (x : Attempt G), s.attempts[a]? = some x ∧ Names x q.2 := by
          intro host p hq
          cases rpc with
          | failed =>
              rcases List.mem_append.1 hq with hold | hnew
              · exact .inl hold
              · exact .inr ⟨a, x, ha, .inr (by rw [List.mem_singleton.1 hnew])⟩
          | answered => exact .inl hq
        split at h
        · exact hfree _ _ h
        · exact hfree _ _ h
        · exact .inl h
      · exact .inl h
  | again a =>
      simp only [step] at h
      repeat' split at h
      all_goals exact .inl h
  | drop a =>
      simp only [step] at h
      repeat' split at h
      all_goals exact .inl h
  | deliver i =>
      simp only [step] at h
      split at h
      · exact .inl (List.mem_of_mem_eraseIdx h)
      · exact .inl h
  | send a entry =>
      simp only [step] at h
      repeat' split at h
      all_goals exact .inl h
  | arrive i =>
      simp only [step] at h
      split at h <;> exact .inl h
  | pass d => exact .inl h

/-! ## The invariant -/

/-- Every late request is one of an attempt's. -/
def Attributed (s : Sys G) : Prop :=
  ∀ q ∈ s.late, ∃ (a : Nat) (x : Attempt G), s.attempts[a]? = some x ∧ Names x q.2

/-- What holds of every state: owner ids are apart, late requests are an attempt's,
tokens are from voters, counted grants are still held, and a guard has its quorum. -/
structure Sound (D : Deployment G) (s : Sys G) : Prop where
  apart : ∀ (a b : Nat) (x y : Attempt G), s.attempts[a]? = some x →
    s.attempts[b]? = some y → x.owner = y.owner → a = b
  late : Attributed s
  voted : ∀ (a : Nat) (x : Attempt G), s.attempts[a]? = some x →
    (∀ host ∈ x.tokens, host ∈ D.voters x.gateway) ∧
      ∀ host ∈ x.phase.todo, host ∈ D.voters x.gateway
  backed : ∀ (a : Nat) (x : Attempt G) (host : Str), s.attempts[a]? = some x →
    x.Counts host → (s.tables host).Held s.now x.resource x.owner.text
  quorum : ∀ (a : Nat) (x : Attempt G), s.attempts[a]? = some x → x.phase = .held →
    D.quorum x.gateway ≤ x.tokens.size

/-- No lease that an attempt counts on ends while time passes. -/
def LeasesLast (v : Visit (Sys G) (Event G) Outcome) : Prop :=
  ∀ d, v.call = .pass d → ∀ (a : Nat) (x : Attempt G) (host : Str),
    v.before.attempts[a]? = some x → x.Counts host →
    ∀ slot, (v.before.tables host)[x.resource]? = some slot →
      v.before.now + d < slot.expiry

/-- No release its gateway stopped waiting for reaches a node that the attempt counts
on. -/
def Punctual (v : Visit (Sys G) (Event G) Outcome) : Prop :=
  ∀ (i : Nat) (host resource owner : Str), v.call = .deliver i →
    v.before.late[i]? = some (host, .release resource owner) →
    ∀ (a : Nat) (x : Attempt G), v.before.attempts[a]? = some x → x.owner.text = owner →
      ¬ x.Counts host

/-- The same attempt as `x`, whatever it has been granted since. -/
def SameCall (x x' : Attempt G) : Prop :=
  x'.gateway = x.gateway ∧ x'.resource = x.resource ∧ x'.owner = x.owner

omit [DecidableEq G] in
theorem Moves.sameCall (h : Moves D s e a x x') : SameCall x x' := by
  cases h <;> exact ⟨rfl, rfl, rfl⟩

omit [DecidableEq G] in
theorem Names.congr {c : LockTable.Call} (h : Names x c) (hx : SameCall x x') : Names x' c := by
  obtain ⟨-, hr, ho⟩ := hx
  rw [Names, hr, ho]
  exact h

theorem uuid_ext {u v : Uuid} (h : u.text = v.text) : u = v := by
  cases u
  cases v
  cases h
  rfl

theorem uuid_ne_nil (u : Uuid) : u.text ≠ [] := by
  intro h
  have := u.length_eq
  rw [h] at this
  cases this

theorem length_step (D : Deployment G) (s : Sys G) (e : Event G) :
    s.attempts.length ≤ (step D s e).2.attempts.length := by
  have hput : ∀ (t : Sys G) b y, t.attempts = s.attempts →
      s.attempts.length ≤ (t.put b y).attempts.length := by
    intro t b y ht
    rw [put, List.length_set, ht]
  have hfree : ∀ b y host p rpc, s.attempts.length ≤ (s.free b y host p rpc).2.attempts.length := by
    intro b y host p rpc
    cases rpc <;> exact hput _ _ _ rfl
  cases e with
  | lock g resource owner =>
      simp only [step]
      split
      · exact le_refl _
      · exact List.length_append ▸ Nat.le_add_right _ _
  | ask b rpc =>
      simp only [step]
      split
      · split
        · cases rpc with
          | failed => exact hput _ _ _ rfl
          | answered =>
              simp only [ask]
              split <;> exact hput _ _ _ rfl
        · exact le_refl _
      · exact le_refl _
  | conclude b =>
      simp only [step]
      repeat' split
      all_goals first | exact hput _ _ _ rfl | exact le_refl _
  | free b rpc =>
      simp only [step]
      repeat' split
      all_goals first | exact hfree _ _ _ _ _ | exact le_refl _
  | again b =>
      simp only [step]
      repeat' split
      all_goals first | exact hput _ _ _ rfl | exact le_refl _
  | drop b =>
      simp only [step]
      repeat' split
      all_goals first | exact hput _ _ _ rfl | exact le_refl _
  | deliver i =>
      simp only [step]
      split <;> exact le_refl _
  | send b entry =>
      simp only [step]
      repeat' split
      all_goals exact le_refl _
  | arrive i =>
      simp only [step]
      split <;> exact le_refl _
  | pass d => exact le_refl _

theorem step_keeps (D : Deployment G) (e : Event G) (h : s.attempts[a]? = some x) :
    ∃ x', (step D s e).2.attempts[a]? = some x' ∧ Moves D s e a x x' := by
  have hlt : a < s.attempts.length := (List.getElem?_eq_some_iff.1 h).1
  have hlt' := Nat.lt_of_lt_of_le hlt (length_step D s e)
  refine ⟨_, List.getElem?_eq_getElem hlt', ?_⟩
  rcases step_attempt (List.getElem?_eq_getElem hlt') with ⟨y, hy, hmove⟩ | hstart
  · rw [h] at hy
    cases hy
    exact hmove
  · exact absurd hstart.1 (by omega)

omit [DecidableEq G] in
theorem mem_of_counts_moves {host : Str} (h : Moves D s e a x x') (hc : x'.Counts host) :
    x.Counts host ∨ ∃ t, e = .ask a .answered ∧
      ∃ round todo, x.phase = .asking round (host :: todo) ∧
        (s.exec host (.acquire x.resource x.owner.text LOCK_TTL)).1 = .token (some t) := by
  obtain ⟨hmem, hcount⟩ := hc
  cases h with
  | stays => exact .inl ⟨hmem, hcount⟩
  | granted he hp ht =>
      rename_i round host' todo t
      rw [Std.ExtTreeMap.mem_insert, Std.LawfulEqCmp.compare_eq_iff_eq] at hmem
      rcases hmem with rfl | hmem
      · exact .inr ⟨t, he, round, todo, hp, ht⟩
      · exact .inl ⟨hmem, by rw [hp]; rfl⟩
  | passed hp => exact .inl ⟨hmem, by rw [hp]; rfl⟩
  | wins he hp hq => exact .inl ⟨hmem, by rw [hp]; rfl⟩
  | retires hc hs =>
      rw [hc] at hcount
      cases hcount
  | retries hp => exact absurd hmem Std.ExtTreeMap.not_mem_empty

theorem Attributed.step (h : Attributed s) : Attributed (step D s e).2 := by
  intro q hq
  have hold : ∃ (a : Nat) (x : Attempt G), s.attempts[a]? = some x ∧ Names x q.2 := by
    rcases step_late hq with hq | hnew
    · exact h q hq
    · exact hnew
  obtain ⟨a, x, hx, hname⟩ := hold
  obtain ⟨x', hx', hmove⟩ := step_keeps D e hx
  exact ⟨a, x', hx', hname.congr hmove.sameCall⟩

theorem pos_LOCK_TTL : 0 < LOCK_TTL := by decide

omit [DecidableEq G] in
theorem held_exec {host : Str} {r o : Str} (h : (s.tables host).Held s.now r o) (ho : o ≠ [])
    (host' : Str) {c : LockTable.Call} {y : Attempt G} (hc : Names y c)
    (hrel : host' = host → c = .release r o → False) :
    ((s.exec host' c).2.tables host).Held s.now r o := by
  by_cases hh : host' = host
  · subst hh
    rw [exec]
    simp only [Function.update_self]
    rcases hc with rfl | rfl
    · exact h.acquire ho _ _ pos_LOCK_TTL
    · refine h.release fun hr h0 => hrel rfl ?_
      rw [hr, h0]
  · rw [exec]
    simp only [Function.update_of_ne (Ne.symm hh)]
    exact h

/-- A counted grant stays held, whatever step is taken. -/
theorem Sound.held_step (h : Sound D s) (hlast : LeasesLast ((machine D).visit s e))
    (hpunct : Punctual ((machine D).visit s e)) {host : Str} (hx : s.attempts[a]? = some x)
    (hcount : x.Counts host) :
    ((step D s e).2.tables host).Held (step D s e).2.now x.resource x.owner.text := by
  have hheld := h.backed a x host hx hcount
  rcases step_tables D s e with ⟨host', c, hmakes, htab, hnow⟩ | ⟨htab, hnow⟩
  · rw [htab, hnow]
    cases hmakes with
    | ask ha hp =>
        exact held_exec hheld (uuid_ne_nil _) _ (.inl rfl) fun _ h0 => by cases h0
    | free _ ha hp =>
        refine held_exec hheld (uuid_ne_nil _) _ (.inr rfl) fun _ h0 => ?_
        obtain ⟨-, howner⟩ := LockTable.Call.release.inj h0
        have hsame := h.apart _ _ _ _ ha hx (uuid_ext howner)
        subst hsame
        rw [hx] at ha
        cases ha
        rw [hcount.2] at hp
        cases hp
    | deliver hi =>
        obtain ⟨b, y, hy, hname⟩ := h.late _ (List.mem_of_getElem? hi)
        refine held_exec hheld (uuid_ne_nil _) _ hname fun hh h0 => ?_
        subst hh h0
        exact hpunct _ _ _ _ rfl hi a x hx rfl hcount
  · rw [htab]
    rcases hnow with hnow | ⟨d, rfl, hnow⟩
    · rw [hnow]
      exact hheld
    · obtain ⟨slot, hslot, hso, hlt⟩ := hheld
      refine ⟨slot, hslot, hso, ?_⟩
      rw [hnow]
      exact hlast d rfl a x host hx hcount slot hslot

theorem step_ask_granted {host : Str} {round : Nat} {todo : List Str} {t : Nat}
    (hx : s.attempts[a]? = some x) (hp : x.phase = .asking round (host :: todo))
    (ht : (s.exec host (.acquire x.resource x.owner.text LOCK_TTL)).1 = .token (some t)) :
    (step D s (.ask a .answered)).2 =
      (s.exec host (.acquire x.resource x.owner.text LOCK_TTL)).2.put a
        { x with tokens := x.tokens.insert host t, phase := .asking round todo } := by
  simp only [step, hx, hp, ask, ht]

theorem held_of_ask {host : Str} {round : Nat} {todo : List Str} {t : Nat}
    (hx : s.attempts[a]? = some x) (hp : x.phase = .asking round (host :: todo))
    (ht : (s.exec host (.acquire x.resource x.owner.text LOCK_TTL)).1 = .token (some t)) :
    ((step D s (.ask a .answered)).2.tables host).Held (step D s (.ask a .answered)).2.now
      x.resource x.owner.text := by
  have hgrant : ((s.tables host).acquire s.now x.resource x.owner.text LOCK_TTL).1 = some t :=
    LockTable.Answer.token.inj ht
  rw [step_ask_granted hx hp ht, put, exec]
  simp only [Function.update_self]
  exact LockTable.held_of_granted hgrant pos_LOCK_TTL

omit [DecidableEq G] in
theorem sound_init (D : Deployment G) (now : Instant) : Sound D (init now) where
  apart a b x y hx := by simp [init] at hx
  late q hq := by simp [init] at hq
  voted a x hx := by simp [init] at hx
  backed a x host hx := by simp [init] at hx
  quorum a x hx := by simp [init] at hx

/-- Where an attempt of the next state came from, if it was there before. -/
theorem Sound.step (h : Sound D s) (hlast : LeasesLast ((machine D).visit s e))
    (hpunct : Punctual ((machine D).visit s e)) : Sound D (step D s e).2 where
  apart a b x' y' hx' hy' howner := by
    rcases step_attempt hx' with ⟨x, hx, hmx⟩ | hsx <;>
      rcases step_attempt hy' with ⟨y, hy, hmy⟩ | hsy
    · exact h.apart a b x y hx hy (by rw [← hmx.sameCall.2.2, howner, hmy.sameCall.2.2])
    · refine absurd ?_ (hsy.2.2.2.2 x (List.mem_of_getElem? hx))
      rw [← hmx.sameCall.2.2, howner]
    · refine absurd ?_ (hsx.2.2.2.2 y (List.mem_of_getElem? hy))
      rw [← hmy.sameCall.2.2, howner]
    · rw [hsx.1, hsy.1]
  late := h.late.step
  voted a x' hx' := by
    rcases step_attempt hx' with ⟨x, hx, hmove⟩ | ⟨-, htok, -, htodo, -⟩
    · obtain ⟨htok, htodo⟩ := h.voted a x hx
      cases hmove with
      | stays => exact ⟨htok, htodo⟩
      | granted he hp ht =>
          rename_i round host todo t
          rw [hp] at htodo
          refine ⟨fun b hb => ?_, fun b hb => htodo b (List.mem_cons_of_mem _ hb)⟩
          rw [Std.ExtTreeMap.mem_insert, Std.LawfulEqCmp.compare_eq_iff_eq] at hb
          rcases hb with rfl | hb
          · exact htodo _ List.mem_cons_self
          · exact htok b hb
      | passed hp =>
          rw [hp] at htodo
          exact ⟨htok, fun b hb => htodo b (List.mem_cons_of_mem _ hb)⟩
      | wins he hp hq => exact ⟨htok, fun b hb => by cases hb⟩
      | retires hc hs =>
          rename_i p
          refine ⟨htok, fun b hb => ?_⟩
          cases p with
          | asking round todo => cases hc
          | dropping | held | alone | releasing => cases hb
      | retries hp =>
          exact ⟨fun b hb => absurd hb Std.ExtTreeMap.not_mem_empty, fun b hb => hb⟩
    · rw [htok]
      exact ⟨fun b hb => absurd hb Std.ExtTreeMap.not_mem_empty, htodo⟩
  backed a x' host hx' hcount := by
    rcases step_attempt hx' with ⟨x, hx, hmove⟩ | ⟨-, htok, -⟩
    · obtain ⟨-, hres, howner⟩ := hmove.sameCall
      rw [hres, howner]
      rcases mem_of_counts_moves hmove hcount with hold | ⟨t, rfl, round, todo, hp, ht⟩
      · exact h.held_step hlast hpunct hx hold
      · exact held_of_ask hx hp ht
    · exact absurd hcount.1 (htok ▸ Std.ExtTreeMap.not_mem_empty)
  quorum a x' hx' hheld := by
    rcases step_attempt hx' with ⟨x, hx, hmove⟩ | ⟨-, -, hnot, -⟩
    · cases hmove with
      | stays => exact h.quorum a _ hx hheld
      | granted he hp ht => cases hheld
      | passed hp => cases hheld
      | wins he hp hq => exact hq
      | retires hc hs =>
          rename_i p
          cases (show p = .held from hheld)
          cases hc
      | retries hp => cases hheld
    · rw [hheld] at hnot
      cases hnot

/-! ## Mutual exclusion -/

/-- At most one guard with a quorum is held on each resource. -/
def AtMostOne (s : Sys G) : Prop :=
  ∀ (a b : Nat) (x y : Attempt G), s.attempts[a]? = some x → s.attempts[b]? = some y →
    x.resource = y.resource → x.phase = .held → y.phase = .held → a = b

omit [DecidableEq G] in
/-- Two quorums of voters have a node in common. -/
theorem exists_common (hover : D.Overlapping) {t u : Tokens} {g k : G}
    (ht : ∀ host ∈ t, host ∈ D.voters g) (hu : ∀ host ∈ u, host ∈ D.voters k)
    (hqt : D.quorum g ≤ t.size) (hqu : D.quorum k ≤ u.size) : ∃ host, host ∈ t ∧ host ∈ u := by
  by_contra hnone
  have hnodup : (t.keys ++ u.keys).Nodup := by
    refine List.Nodup.append Std.ExtTreeMap.nodup_keys Std.ExtTreeMap.nodup_keys ?_
    intro host hh hh'
    exact hnone ⟨host, Std.ExtTreeMap.mem_keys.1 hh, Std.ExtTreeMap.mem_keys.1 hh'⟩
  have hsub : t.keys ++ u.keys ⊆ (D.voters g ++ D.voters k).dedup := by
    intro host hh
    rw [List.mem_dedup, List.mem_append]
    rcases List.mem_append.1 hh with hh | hh
    · exact .inl (ht host (Std.ExtTreeMap.mem_keys.1 hh))
    · exact .inr (hu host (Std.ExtTreeMap.mem_keys.1 hh))
  have hlen := (List.subperm_of_subset hnodup hsub).length_le
  rw [List.length_append, Std.ExtTreeMap.length_keys, Std.ExtTreeMap.length_keys] at hlen
  have hmeet : ((D.voters g ++ D.voters k).dedup).length < D.quorum g + D.quorum k := by
    by_cases hgk : g = k
    · subst hgk
      have hdedup : ((D.voters g ++ D.voters g).dedup).length ≤ (D.voters g).length := by
        refine (List.subperm_of_subset (List.nodup_dedup _) fun host hh => ?_).length_le
        simpa using hh
      rw [Deployment.quorum]
      omega
    · exact hover g k hgk
  omega

omit [DecidableEq G] in
theorem Sound.atMostOne (h : Sound D s) (hover : D.Overlapping) : AtMostOne s := by
  intro a b x y hx hy hres hxh hyh
  obtain ⟨host, hxt, hyt⟩ := exists_common hover (h.voted a x hx).1 (h.voted b y hy).1
    (h.quorum a x hx hxh) (h.quorum b y hy hyh)
  have hx' := h.backed a x host hx ⟨hxt, by rw [hxh]; rfl⟩
  have hy' := h.backed b y host hy ⟨hyt, by rw [hyh]; rfl⟩
  rw [← hres] at hy'
  exact h.apart a b x y hx hy (uuid_ext (hx'.unique hy'))

/-- Where every two gateways' quorums have a node in common, in every run in which no
counted lease ends and no release comes late, at most one guard with a quorum is held
on each resource. -/
theorem mutualExclusion (D : Deployment G) (hover : D.Overlapping) (now : Instant)
    (events : List (Event G))
    (hrun : ∀ v ∈ (machine D).visits (init now) events, LeasesLast v ∧ Punctual v) :
    AtMostOne ((machine D).final (init now) events) := by
  refine Sound.atMostOne ?_ hover
  refine Machine.invariant (P := fun _ => Sound D) (sound_init D now) ?_ events hrun
  intro vs s e h hgood
  exact h.step hgood.1 hgood.2

end Sys

/-- A deployment of `n` nodes named by their letters, and gateways that host these
slots. -/
def lettered {k : Nat} (nodes : List Char) (self : Fin k → Option Nat) : Deployment (Fin k) where
  entries := nodes.zipIdx.map fun p => ⟨p.2, [p.1]⟩
  gateway g := ⟨self g, false⟩

/-- The `i`-th owner id. -/
def ownerAt (digit : Char) (h : isHexLower digit = true) : Uuid :=
  ⟨List.replicate 32 digit, length_digits digit, isHexLower_digits digit h⟩

/-- Two gateways on nodes of a cluster of three: the second finds the one node they
both ask taken. -/
def contending : List (Event (Fin 2)) :=
  [.lock 0 ['r'] (ownerAt 'a' isHexLower_a), .ask 0 .answered, .ask 0 .answered, .conclude 0,
    .lock 1 ['r'] (ownerAt 'b' isHexLower_b), .ask 1 .answered, .ask 1 .answered, .conclude 1]

theorem mutualExclusion_contending :
    Sys.AtMostOne ((Sys.machine (lettered ['a', 'b', 'c'] fun g : Fin 2 => some g.val)).final
      (Sys.init 0) contending) := by
  refine Sys.mutualExclusion _ (by unfold Deployment.Overlapping; decide +kernel) 0 contending
    fun v hv => ⟨fun d hd => ?_, fun i host r o hi => ?_⟩
  · have hmem := Machine.call_mem hv
    rw [hd] at hmem
    simp [contending] at hmem
  · have hmem := Machine.call_mem hv
    rw [hi] at hmem
    simp [contending] at hmem

/-- Two gateways on the two nodes of a cluster, each leaving its own node out, get each
other's: both hold a guard with a quorum. -/
def crossing : List (Event (Fin 2)) :=
  [.lock 0 ['r'] (ownerAt 'a' isHexLower_a), .ask 0 .answered, .conclude 0,
    .lock 1 ['r'] (ownerAt 'b' isHexLower_b), .ask 1 .answered, .conclude 1]

theorem crossing_both_held :
    (∀ v ∈ (Sys.machine (lettered ['a', 'b'] fun g : Fin 2 => some g.val)).visits
      (Sys.init 0) crossing, Sys.LeasesLast v ∧ Sys.Punctual v) ∧
    ¬ Sys.AtMostOne ((Sys.machine (lettered ['a', 'b'] fun g : Fin 2 => some g.val)).final
      (Sys.init 0) crossing) := by
  constructor
  · refine fun v hv => ⟨fun d hd => ?_, fun i host r o hi => ?_⟩
    · have hmem := Machine.call_mem hv
      rw [hd] at hmem
      simp [crossing] at hmem
    · have hmem := Machine.call_mem hv
      rw [hi] at hmem
      simp [crossing] at hmem
  · intro h
    have hguard : ∀ a : Fin 2, ((Sys.machine (lettered ['a', 'b'] fun g : Fin 2 =>
        some g.val)).final (Sys.init 0) crossing).attempts[a.val]?.map
        (fun x => (x.resource, x.phase)) = some (['r'], .held) := by decide +kernel
    obtain ⟨x, hx, hxe⟩ := Option.map_eq_some_iff.1 (hguard 0)
    obtain ⟨y, hy, hye⟩ := Option.map_eq_some_iff.1 (hguard 1)
    have hsame := h 0 1 x y hx hy (by rw [(Prod.mk.inj hxe).1, (Prod.mk.inj hye).1])
      (Prod.mk.inj hxe).2 (Prod.mk.inj hye).2
    cases hsame

end Kerplace
