/-
# `Kerplace.Lib.ShardCode` — systematic block codes and what they promise

A shard code fills in parity shards after the data shards, and rebuilds a
whole row of shards from a row with gaps.  `Mds` is the promise of a maximum
distance separable code such as Reed-Solomon at one shape: encoding equal
length data shards succeeds and leaves them in place, and any `k` shards of
an encoded row give the row back.  Replication keeps it for one data shard.
-/
import Mathlib.Tactic.Linarith
import Mathlib.Data.List.Basic

namespace Kerplace

/-- The two operations of a code over the alphabet `B`, at each shape. -/
structure ShardCode (B : Type) where
  encode : (data parity : Nat) → List (List B) → Option (List (List B))
  reconstruct : (data parity : Nat) → List (Option (List B)) →
    Option (List (Option (List B)))

namespace ShardCode

variable {B : Type}

/-- What stands in `slots` is what `row` has there. -/
def Agrees (slots : List (Option (List B))) (row : List (List B)) : Prop :=
  slots.length = row.length ∧
    ∀ (i : Nat) (s : List B), slots[i]? = some (some s) → row[i]? = some s

/-- The promise of a maximum distance separable code of shape `k + m`. -/
structure Mds (c : ShardCode B) (zero : B) (k m : Nat) : Prop where
  encode_eq : ∀ (ds : List (List B)) (len : Nat), ds.length = k → 0 < len →
    (∀ d ∈ ds, d.length = len) →
    ∃ ps, ps.length = m ∧ (∀ p ∈ ps, p.length = len) ∧
      c.encode k m (ds ++ List.replicate m (List.replicate len zero)) = some (ds ++ ps)
  reconstruct_eq : ∀ (ds ps : List (List B)) (len : Nat), ds.length = k → 0 < len →
    (∀ d ∈ ds, d.length = len) →
    c.encode k m (ds ++ List.replicate m (List.replicate len zero)) = some (ds ++ ps) →
    ∀ slots, Agrees slots (ds ++ ps) → k ≤ slots.countP Option.isSome →
      c.reconstruct k m slots = some ((ds ++ ps).map some)

/-- The code that repeats the only data shard. -/
def replication : ShardCode B where
  encode data parity row :=
    match data, row with
    | 1, d :: _ => some (List.replicate (1 + parity) d)
    | _, _ => none
  reconstruct data parity slots :=
    match data, slots.findSome? id with
    | 1, some d => some (List.replicate (1 + parity) (some d))
    | _, _ => none

theorem replication_mds (zero : B) (m : Nat) : (replication (B := B)).Mds zero 1 m where
  encode_eq := by
    intro ds len hlen _ hd
    obtain ⟨d, rfl⟩ := List.length_eq_one_iff.1 hlen
    refine ⟨List.replicate m d, List.length_replicate, ?_, ?_⟩
    · intro p hp
      rw [List.eq_of_mem_replicate hp]
      exact hd d (List.mem_singleton_self d)
    · simp [replication, Nat.add_comm 1 m, List.replicate_succ]
  reconstruct_eq := by
    intro ds ps len hlen _ _ henc slots hag hcount
    obtain ⟨d, rfl⟩ := List.length_eq_one_iff.1 hlen
    have hrow : [d] ++ ps = List.replicate (1 + m) d := by
      simpa [replication, eq_comm] using henc
    rw [hrow] at hag ⊢
    obtain ⟨o, ho, hsome⟩ := List.countP_pos_iff.1 hcount
    have hfind : slots.findSome? id = some d := by
      cases hf : slots.findSome? id with
      | none =>
          have hnone : o = none := List.findSome?_eq_none_iff.1 hf o ho
          simp [hnone] at hsome
      | some s =>
          obtain ⟨o', ho', hs⟩ := List.exists_of_findSome?_eq_some hf
          obtain ⟨i, hi⟩ := List.mem_iff_getElem?.1 ho'
          have hrep := hag.2 i s (by rw [hi]; exact congrArg some hs)
          rw [List.getElem?_replicate] at hrep
          split at hrep <;> simp_all
    simp [replication, hfind]

end ShardCode

end Kerplace
