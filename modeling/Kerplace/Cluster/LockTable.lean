/-
# `Kerplace.Cluster.LockTable` — a drive node's leases and fencing tokens

The table a drive node keeps for the distributed lock: one slot a resource,
with the current holder, the end of its lease and the highest fencing token
granted.  Times are `Instant`s and `Duration`s in nanoseconds; a token is a
`u64`, so one more than the greatest is zero.

What the callers were promised is read off the record of a run.  That two
callers never hold one resource needs nothing; that tokens only grow needs
that the table did not collect the resource's slot in between.
-/
import Kerplace.Lib.Machine
import Kerplace.Lib.UnixPath
import Mathlib.Logic.Function.Basic

namespace Kerplace

/-- `Instant`. -/
abbrev Instant := Nat

/-- `Duration`. -/
abbrev Duration := Nat

/-- A second. -/
def SECOND : Duration := 10 ^ 9

/-- `LOCK_TTL`. -/
def LOCK_TTL : Duration := 30 * SECOND

/-- A `u64` and one more. -/
def bumped (token : Nat) : Nat := (token + 1) % 2 ^ 64

/-- `Slot`. -/
structure Slot where
  owner : Str
  expiry : Instant
  token : Nat
  deriving DecidableEq

/-- `LockTable`. -/
abbrev LockTable := Std.ExtTreeMap Str Slot

namespace Slot

/-- Whether the collection of idle slots keeps a slot. -/
def kept (s : Slot) (now : Instant) : Bool :=
  s.owner ≠ [] || decide (s.expiry + LOCK_TTL * 10 > now)

/-- `held_by_other`. -/
def heldByOther (s : Slot) (now : Instant) (owner : Str) : Bool :=
  s.owner ≠ [] && decide (s.expiry > now) && decide (s.owner ≠ owner)

/-- `reentrant`. -/
def reentrant (s : Slot) (now : Instant) (owner : Str) : Bool :=
  decide (s.owner = owner) && decide (s.expiry > now)

/-- The slot of a resource that has none yet. -/
def vacant (now : Instant) : Slot := ⟨[], now, 0⟩

/-- The slot after a grant. -/
def grant (s : Slot) (now : Instant) (owner : Str) (ttl : Duration) : Slot where
  owner := owner
  expiry := now + ttl
  token := if s.reentrant now owner then s.token else bumped s.token

end Slot

namespace LockTable

/-- The collection of idle slots that an acquire on a large table starts with. -/
def collect (m : LockTable) (now : Instant) : LockTable :=
  if m.size > 4096 then m.filter fun _ s => s.kept now else m

/-- The slot an acquire looks at. -/
def slotFor (m : LockTable) (now : Instant) (resource : Str) : Slot :=
  (m.collect now)[resource]?.getD (Slot.vacant now)

/-- `LockTable::acquire`. -/
def acquire (m : LockTable) (now : Instant) (resource owner : Str) (ttl : Duration) :
    Option Nat × LockTable :=
  let slot := m.slotFor now resource
  if slot.heldByOther now owner then
    (none, (m.collect now).insert resource slot)
  else
    let slot := slot.grant now owner ttl
    (some slot.token, (m.collect now).insert resource slot)

/-- `LockTable::release`. -/
def release (m : LockTable) (resource owner : Str) : Bool × LockTable :=
  match m[resource]? with
  | some s => if s.owner = owner then (true, m.insert resource { s with owner := [] })
      else (false, m)
  | none => (false, m)

/-- `LockTable::fence_ok`. -/
def fenceOk (m : LockTable) (resource : Str) (token : Nat) : Bool :=
  match m[resource]? with
  | some s => decide (token ≥ s.token)
  | none => true

/-! ## What each call does to one slot -/

theorem getElem?_set (m : LockTable) (k a : Str) (s : Slot) :
    (m.insert k s)[a]? = if k = a then some s else m[a]? := by
  simp only [Std.ExtTreeMap.getElem?_insert, Std.LawfulEqCmp.compare_eq_iff_eq]

/-- The collection would drop this resource's slot. -/
def Drops (m : LockTable) (now : Instant) (resource : Str) : Prop :=
  m.size > 4096 ∧ ∃ s, m[resource]? = some s ∧ s.kept now = false

variable {m : LockTable} {now : Instant} {r resource owner o : Str} {ttl : Duration}
  {s : Slot}

theorem getElem?_collect (m : LockTable) (now : Instant) (r : Str) :
    (m.collect now)[r]? =
      if m.size > 4096 then m[r]?.filter (Slot.kept · now) else m[r]? := by
  unfold collect
  split
  · exact Std.ExtTreeMap.getElem?_filter'
  · rfl

theorem getElem?_collect_of_kept (h : m[r]? = some s) (hk : s.kept now = true) :
    (m.collect now)[r]? = some s := by
  rw [getElem?_collect, h, Option.filter_some, if_pos hk, ite_self]

theorem getElem?_collect_of_not_drops (h : ¬ m.Drops now r) :
    (m.collect now)[r]? = m[r]? := by
  rw [getElem?_collect]
  split
  · rename_i hsize
    cases hs : m[r]? with
    | none => rfl
    | some s =>
        have hk : s.kept now = true := by
          rw [← Bool.not_eq_false]
          exact fun hk => h ⟨hsize, s, hs, hk⟩
        rw [Option.filter_some, if_pos hk]
  · rfl

theorem kept_of_owner (h : s.owner ≠ []) : s.kept now = true := by
  simp [Slot.kept, h]

theorem getElem?_acquire_of_ne (h : resource ≠ r) :
    (m.acquire now resource owner ttl).2[r]? = (m.collect now)[r]? := by
  unfold acquire
  simp only
  split <;> rw [getElem?_set, if_neg h]

theorem getElem?_acquire_self :
    (m.acquire now r owner ttl).2[r]? =
      some (if (m.slotFor now r).heldByOther now owner then m.slotFor now r
        else (m.slotFor now r).grant now owner ttl) := by
  unfold acquire
  simp only
  split <;> rw [getElem?_set, if_pos rfl]

theorem acquire_eq_some {t : Nat} :
    (m.acquire now resource owner ttl).1 = some t ↔
      (m.slotFor now resource).heldByOther now owner = false ∧
        ((m.slotFor now resource).grant now owner ttl).token = t := by
  unfold acquire
  simp only
  split
  · rename_i h
    simp [h]
  · rename_i h
    simp [h]

/-- A release frees the slot of its own resource if its owner holds it. -/
theorem getElem?_release (m : LockTable) (resource owner r : Str) :
    (m.release resource owner).2[r]? =
      if resource = r then m[r]?.map fun s =>
        if s.owner = owner then { s with owner := [] } else s
      else m[r]? := by
  unfold release
  by_cases hr : resource = r
  · subst hr
    rw [if_pos rfl]
    cases hs : m[resource]? with
    | none => simpa using hs
    | some s =>
        simp only [Option.map_some]
        split
        · rw [getElem?_set, if_pos rfl]
        · exact hs
  · rw [if_neg hr]
    cases m[resource]? with
    | none => rfl
    | some s =>
        simp only
        split
        · rw [getElem?_set, if_neg hr]
        · rfl

theorem release_eq_true :
    (m.release resource owner).1 = true ↔ ∃ s, m[resource]? = some s ∧ s.owner = owner := by
  unfold release
  cases m[resource]? with
  | none => simp
  | some s =>
      simp only [Option.some.injEq, exists_eq_left']
      split
      · rename_i h
        simp [h]
      · rename_i h
        simp [h]

/-! ## The table under calls -/

/-- The calls on a table, and the passage of time. -/
inductive Call where
  | acquire (resource owner : Str) (ttl : Duration)
  | release (resource owner : Str)
  | fenceOk (resource : Str) (token : Nat)
  | pass (d : Duration)

/-- Their answers. -/
inductive Answer where
  | token (t : Option Nat)
  | released (done : Bool)
  | fence (ok : Bool)
  | passed
  deriving DecidableEq

/-- A table and the time on its node. -/
structure State where
  now : Instant
  table : LockTable

/-- A table answering calls. -/
def machine : Machine State Call Answer where
  step st
    | .acquire resource owner ttl =>
        let (t, m) := st.table.acquire st.now resource owner ttl
        (.token t, ⟨st.now, m⟩)
    | .release resource owner =>
        let (done, m) := st.table.release resource owner
        (.released done, ⟨st.now, m⟩)
    | .fenceOk resource token => (.fence (st.table.fenceOk resource token), st)
    | .pass d => (.passed, ⟨st.now + d, st.table⟩)

/-- `LockTable::new`, at any time. -/
def start (now : Instant) : State := ⟨now, ∅⟩

/-- The caller a call names is not the empty string. -/
def Call.Named : Call → Prop
  | .acquire _ owner _ => owner ≠ []
  | .release _ owner => owner ≠ []
  | _ => True

/-! ## What the callers were promised -/

/-- Who holds a resource under an unexpired lease. -/
def holder (m : LockTable) (now : Instant) (r : Str) : Option Str :=
  m[r]?.bind fun s => if s.owner ≠ [] ∧ s.expiry > now then some s.owner else none

/-- The step granted a resource under this token. -/
def Grants (r : Str) (t : Nat) (v : Visit State Call Answer) : Prop :=
  ∃ owner ttl, v.call = .acquire r owner ttl ∧ v.answer = .token (some t)

/-- The step granted a resource to a caller that did not already hold it. -/
def Fresh (r : Str) (t : Nat) (v : Visit State Call Answer) : Prop :=
  ∃ owner ttl, v.call = .acquire r owner ttl ∧ v.answer = .token (some t) ∧
    v.before.table.holder v.before.now r ≠ some owner

/-- When the lease of each caller on each resource ends, after one more step. -/
def book (l : Str × Str → Option Instant) (v : Visit State Call Answer) :
    Str × Str → Option Instant :=
  match v.call, v.answer with
  | .acquire r owner ttl, .token (some _) =>
      Function.update l (r, owner) (some (v.before.now + ttl))
  | .release r owner, .released true => Function.update l (r, owner) none
  | _, _ => l

/-- The leases given and not given back in a run. -/
def leases (vs : List (Visit State Call Answer)) : Str × Str → Option Instant :=
  vs.foldl book fun _ => none

/-- No two callers have an unexpired lease on one resource. -/
def Exclusive (vs : List (Visit State Call Answer)) (now : Instant) : Prop :=
  ∀ r o₁ o₂ e₁ e₂, leases vs (r, o₁) = some e₁ → leases vs (r, o₂) = some e₂ →
    now < e₁ → now < e₂ → o₁ = o₂

/-- Each fresh grant carries a token above all granted before it. -/
def TokensGrow (r : Str) (vs : List (Visit State Call Answer)) : Prop :=
  ∀ u v t₁ t₂, [u, v].Sublist vs → Grants r t₁ u → Fresh r t₂ v → t₁ < t₂

/-- A token is fenced out once a later one has been granted. -/
def Fences (r : Str) (vs : List (Visit State Call Answer)) : Prop :=
  ∀ u w v t₁ t₂, [u, w, v].Sublist vs → Grants r t₁ u → Fresh r t₂ w →
    v.call = .fenceOk r t₁ → v.answer = .fence false

/-- The step does not make the table forget a resource's token: an acquire does not
collect its slot, and no fresh token wraps around. -/
def Remembers (r : Str) (v : Visit State Call Answer) : Prop :=
  ∀ resource owner ttl, v.call = .acquire resource owner ttl →
    ¬ v.before.table.Drops v.before.now r ∧
      (resource = r → ∀ s, v.before.table[r]? = some s → s.token + 1 < 2 ^ 64)

end LockTable

end Kerplace
