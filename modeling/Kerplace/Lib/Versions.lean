/-
# `Kerplace.Lib.Versions` — the versions of a key

What a versioned store keeps under one key: a list of versions, newest first,
no two of one id.  A version has a payload or is a delete marker.  Writing
under an id replaces what was there under it and becomes the newest; removing
an id takes its version away wherever it stands.  A store that keeps the
newest payload apart from the others stores such a list in *slots*
(`Versions.slot`): the current one, and one for every older id.
-/
import Mathlib.Data.List.Nodup
import Mathlib.Data.List.Basic

namespace Kerplace

/-- A version: its id, what is recorded of it, and its payload unless it is a
delete marker. -/
structure Version (I E P : Type) where
  id : I
  info : E
  body : Option P
  deriving DecidableEq

/-- The versions of a key, newest first. -/
abbrev Versions (I E P : Type) := List (Version I E P)

namespace Versions

variable {I E P : Type} [DecidableEq I]

/-- No two versions of one id. -/
def Distinct (vs : Versions I E P) : Prop := (vs.map Version.id).Nodup

instance (vs : Versions I E P) : Decidable vs.Distinct :=
  inferInstanceAs (Decidable (List.Nodup _))

/-- The version under an id. -/
def lookup (vs : Versions I E P) (i : I) : Option (Version I E P) :=
  vs.find? fun v => decide (v.id = i)

/-- The versions of other ids. -/
def without (vs : Versions I E P) (i : I) : Versions I E P :=
  vs.filter fun v => decide (v.id ≠ i)

/-- Write a version. -/
def push (vs : Versions I E P) (v : Version I E P) : Versions I E P := v :: without vs v.id

/-- The payload under an id. -/
def payload (vs : Versions I E P) (i : I) : Option P := (lookup vs i).bind Version.body

/-- The payload of the newest version. -/
def current (vs : Versions I E P) : Option P := vs.head?.bind Version.body

/-- What a store has in a slot: the newest payload at the current one, the
payloads of older versions under their ids. -/
def slot (vs : Versions I E P) : Option I → Option P
  | none => current vs
  | some i => payload vs.tail i

variable {vs : Versions I E P} {v : Version I E P} {i j : I}

/-! ## Looking up -/

theorem lookup_cons : lookup (v :: vs) i = if v.id = i then some v else lookup vs i := by
  simp only [lookup, List.find?_cons]
  split <;> simp_all

theorem payload_cons :
    payload (v :: vs) i = if v.id = i then v.body else payload vs i := by
  simp only [payload, lookup_cons]
  split <;> rfl

theorem lookup_eq_none : lookup vs i = none ↔ ∀ v ∈ vs, v.id ≠ i := by
  simp [lookup]

theorem payload_eq_none_of_notMem (h : ∀ v ∈ vs, v.id ≠ i) : payload vs i = none := by
  rw [payload, lookup_eq_none.2 h]
  rfl

theorem lookup_id (h : lookup vs i = some v) : v.id = i := by
  simpa using List.find?_some h

theorem lookup_mem (h : lookup vs i = some v) : v ∈ vs := List.mem_of_find?_eq_some h

theorem lookup_of_mem (hd : vs.Distinct) (h : v ∈ vs) : lookup vs v.id = some v := by
  induction vs with
  | nil => cases h
  | cons w vs ih =>
      obtain ⟨hw, hd⟩ := List.nodup_cons.1 hd
      rcases List.mem_cons.1 h with rfl | h
      · rw [lookup_cons, if_pos rfl]
      · have hne : w.id ≠ v.id := fun h0 =>
          hw (h0 ▸ List.mem_map_of_mem (f := Version.id) h)
        rw [lookup_cons, if_neg hne, ih hd h]

/-! ## Taking away -/

theorem mem_without : v ∈ without vs i ↔ v ∈ vs ∧ v.id ≠ i := by
  simp [without]

theorem distinct_without (hd : vs.Distinct) (i : I) : (without vs i).Distinct :=
  hd.sublist ((List.filter_sublist).map _)

theorem without_of_notMem (h : ∀ v ∈ vs, v.id ≠ i) : without vs i = vs := by
  simpa [without] using h

theorem without_cons_self : without (v :: vs) v.id = without vs v.id := by
  simp [without]

theorem without_cons_of_ne (h : v.id ≠ i) : without (v :: vs) i = v :: without vs i := by
  simp [without, h]

theorem without_head (hd : Distinct (v :: vs)) : without (v :: vs) v.id = vs := by
  rw [without_cons_self, without_of_notMem]
  intro w hw h
  exact (List.nodup_cons.1 hd).1 (h ▸ List.mem_map_of_mem (f := Version.id) hw)

theorem lookup_without_of_ne (h : j ≠ i) : lookup (without vs i) j = lookup vs j := by
  induction vs with
  | nil => rfl
  | cons w vs ih =>
      by_cases hw : w.id = i
      · subst hw
        rw [without_cons_self, lookup_cons, if_neg (Ne.symm h), ih]
      · rw [without_cons_of_ne hw, lookup_cons, lookup_cons, ih]

theorem lookup_without_self : lookup (without vs i) i = none :=
  lookup_eq_none.2 fun _ h => (mem_without.1 h).2

theorem payload_without_of_ne (h : j ≠ i) : payload (without vs i) j = payload vs j := by
  rw [payload, lookup_without_of_ne h, payload]

theorem payload_without_self : payload (without vs i) i = none := by
  rw [payload, lookup_without_self]
  rfl

/-- Erasing the first version of an id takes the id away. -/
theorem eraseIdx_eq_without (hd : vs.Distinct) {k : Nat} {f : Version I E P → Bool}
    (hf : ∀ v, f v = decide (v.id = i)) (hk : vs.findIdx? f = some k) :
    vs.eraseIdx k = without vs i := by
  induction vs generalizing k with
  | nil => cases hk
  | cons w vs ih =>
      rw [List.findIdx?_cons, hf] at hk
      by_cases hw : w.id = i
      · subst hw
        simp only [decide_true, if_true, Option.some.injEq] at hk
        subst hk
        exact (without_head hd).symm
      · simp only [hw, decide_false, Bool.false_eq_true, if_false, Option.map_eq_some_iff]
          at hk
        obtain ⟨k, hk, rfl⟩ := hk
        rw [List.eraseIdx_cons_succ, ih (List.nodup_cons.1 hd).2 hk, without_cons_of_ne hw]

/-! ## Writing -/

theorem distinct_push (hd : vs.Distinct) (v : Version I E P) : (push vs v).Distinct := by
  refine List.nodup_cons.2 ⟨fun h => ?_, distinct_without hd _⟩
  obtain ⟨w, hw, hid⟩ := List.mem_map.1 h
  exact (mem_without.1 hw).2 hid

theorem lookup_push_self : lookup (push vs v) v.id = some v := by
  rw [push, lookup_cons, if_pos rfl]

theorem lookup_push_of_ne (h : i ≠ v.id) : lookup (push vs v) i = lookup vs i := by
  rw [push, lookup_cons, if_neg (Ne.symm h), lookup_without_of_ne h]

theorem mem_push {w : Version I E P} (h : w ∈ push vs v) : w = v ∨ w ∈ vs :=
  (List.mem_cons.1 h).imp_right fun h => (mem_without.1 h).1

/-! ## Slots -/

/-- Every payload under its id and none at the current slot: where the versions are
while a new one is being written. -/
def shelved (vs : Versions I E P) : Option I → Option P
  | none => none
  | some i => payload vs i

/-- Move what a slot has to another slot; an empty slot moves nothing. -/
def moveSlot (f : Option I → Option P) (src dst : Option I) : Option I → Option P :=
  match f src with
  | some p => Function.update (Function.update f dst (some p)) src none
  | none => f

theorem moveSlot_some {f : Option I → Option P} {src : Option I} {p : P}
    (h : f src = some p) (dst : Option I) :
    moveSlot f src dst = Function.update (Function.update f dst (some p)) src none := by
  rw [moveSlot, h]

theorem moveSlot_none {f : Option I → Option P} {src : Option I} (h : f src = none)
    (dst : Option I) : moveSlot f src dst = f := by
  rw [moveSlot, h]

theorem slot_nil : slot ([] : Versions I E P) = fun _ => none := by
  funext k
  cases k <;> rfl

theorem shelved_nil : shelved ([] : Versions I E P) = fun _ => none := by
  funext k
  cases k <;> rfl

omit [DecidableEq I] in
theorem notMem_tail (hd : Distinct (v :: vs)) : ∀ w ∈ vs, w.id ≠ v.id :=
  fun _ hw h =>
    (List.nodup_cons.1 hd).1 (h ▸ List.mem_map_of_mem (f := Version.id) hw)

/-- Moving the newest payload to the slot of its id shelves all versions. -/
theorem moveSlot_current (hd : Distinct (v :: vs)) :
    moveSlot (slot (v :: vs)) none (some v.id) = shelved (v :: vs) := by
  have hnone := payload_eq_none_of_notMem (notMem_tail hd)
  have hcur : slot (v :: vs) none = v.body := rfl
  cases hbody : v.body with
  | none =>
      rw [moveSlot_none (hcur.trans hbody)]
      funext k
      cases k with
      | none => exact hbody
      | some i =>
          simp only [slot, shelved, List.tail_cons, payload_cons, hbody]
          split
          · rename_i hi
            exact hi ▸ hnone
          · rfl
  | some p =>
      rw [moveSlot_some (hcur.trans hbody)]
      funext k
      cases k with
      | none => simp [shelved]
      | some i =>
          rw [Function.update_of_ne (by simp)]
          simp only [shelved, payload_cons, Function.update_apply, Option.some.injEq,
            @eq_comm _ i, hbody, slot, List.tail_cons]

/-- Moving the newest of shelved payloads to the current slot puts every payload in
its slot. -/
theorem moveSlot_newest (hd : Distinct (v :: vs)) :
    moveSlot (shelved (v :: vs)) (some v.id) none = slot (v :: vs) := by
  have hnone := payload_eq_none_of_notMem (notMem_tail hd)
  have hold : shelved (v :: vs) (some v.id) = v.body := by
    rw [shelved, payload_cons, if_pos rfl]
  cases hbody : v.body with
  | none =>
      rw [moveSlot_none (hold.trans hbody)]
      funext k
      cases k with
      | none => exact hbody.symm
      | some i =>
          simp only [slot, shelved, List.tail_cons, payload_cons, hbody]
          split
          · rename_i hi
            exact hi ▸ hnone.symm
          · rfl
  | some p =>
      rw [moveSlot_some (hold.trans hbody)]
      funext k
      cases k with
      | none =>
          rw [Function.update_of_ne (by simp), Function.update_self]
          exact hbody.symm
      | some i =>
          simp only [Function.update_apply, Option.some.injEq, shelved, payload_cons, slot,
            List.tail_cons, reduceCtorEq, if_false]
          by_cases hi : i = v.id
          · rw [if_pos hi, hi, hnone]
          · rw [if_neg hi, if_neg (Ne.symm hi)]

theorem clear_current (v : Version I E P) (vs : Versions I E P) :
    Function.update (slot (v :: vs)) none none = shelved vs := by
  funext k
  cases k with
  | none => simp [shelved]
  | some i => rw [Function.update_of_ne (by simp)]; rfl

theorem clear_shelved (vs : Versions I E P) (i : I) :
    Function.update (shelved vs) (some i) none = shelved (without vs i) := by
  funext k
  cases k with
  | none => rw [Function.update_of_ne (by simp)]; rfl
  | some j =>
      simp only [Function.update_apply, Option.some.injEq, shelved]
      by_cases hj : j = i
      · rw [if_pos hj, hj, payload_without_self]
      · rw [if_neg hj, payload_without_of_ne hj]

theorem clear_older (h : v.id ≠ i) :
    Function.update (slot (v :: vs)) (some i) none = slot (without (v :: vs) i) := by
  rw [without_cons_of_ne h]
  funext k
  cases k with
  | none => rw [Function.update_of_ne (by simp)]; rfl
  | some j =>
      have := congrFun (clear_shelved vs i) (some j)
      simpa only [Function.update_apply, Option.some.injEq, slot, List.tail_cons, shelved]
        using this

theorem slot_push (vs : Versions I E P) (v : Version I E P) :
    slot (push vs v) = Function.update (shelved (without vs v.id)) none v.body := by
  funext k
  cases k with
  | none => rfl
  | some i => rw [Function.update_of_ne (by simp)]; rfl

theorem slot_eq_shelved (hd : vs.Distinct) (h : current vs = none) :
    slot vs = shelved vs := by
  cases vs with
  | nil => rw [slot_nil, shelved_nil]
  | cons v vs =>
      rw [← moveSlot_current hd, moveSlot_none h]

end Versions

end Kerplace
