/-
# `Kerplace.Lib.Chunks` — cutting a sequence into blocks of a fixed length

A reader that fills a buffer of `n` elements again and again sees the
sequence as `chunks n`: full blocks, then what is left if anything is.
The rules say that the blocks are the sequence again, where each block lies
in it, and that blocks laid end to end are cut back into the same blocks.
-/
import Mathlib.Tactic.Linarith
import Mathlib.Data.List.Basic

namespace Kerplace

variable {α : Type}

/-- Successive fills of a buffer of `n`, at most `fuel` of them. -/
def chunksFuel (n : Nat) : Nat → List α → List (List α)
  | 0, _ => []
  | fuel + 1, l => if l = [] then [] else l.take n :: chunksFuel n fuel (l.drop n)

/-- The blocks of `l`: all of length `n` but the last, which is not empty. -/
def chunks (n : Nat) (l : List α) : List (List α) := chunksFuel n l.length l

@[simp] theorem chunks_nil (n : Nat) : chunks n ([] : List α) = [] := rfl

/-- Fuel beyond the length of the sequence changes nothing. -/
theorem chunksFuel_eq {n : Nat} (hn : 0 < n) :
    ∀ {fuel : Nat} {l : List α}, l.length ≤ fuel → chunksFuel n fuel l = chunks n l := by
  intro fuel
  induction fuel using Nat.strongRecOn with
  | ind fuel ih =>
  intro l hl
  cases l with
  | nil => cases fuel <;> rfl
  | cons a l =>
      cases fuel with
      | zero => simp at hl
      | succ fuel =>
          have hlen : ((a :: l).drop n).length ≤ l.length := by
            simp only [List.length_drop, List.length_cons]
            omega
          simp only [List.length_cons, Nat.add_le_add_iff_right] at hl
          simp only [chunks, chunksFuel, List.length_cons, reduceCtorEq, if_false]
          rw [ih fuel (by omega) (le_trans hlen hl)]
          by_cases hlt : l.length < fuel + 1
          · rw [ih l.length hlt hlen]
          · omega

theorem chunks_of_ne {n : Nat} (hn : 0 < n) {l : List α} (hl : l ≠ []) :
    chunks n l = l.take n :: chunks n (l.drop n) := by
  cases l with
  | nil => exact absurd rfl hl
  | cons a l =>
      have hlen : ((a :: l).drop n).length ≤ l.length := by
        simp only [List.length_drop, List.length_cons]
        omega
      rw [← chunksFuel_eq hn hlen]
      rfl

theorem chunks_induction {n : Nat} (hn : 0 < n) {P : List α → Prop} (nil : P [])
    (step : ∀ l, l ≠ [] → P (l.drop n) → P l) (l : List α) : P l := by
  induction hk : l.length using Nat.strongRecOn generalizing l with
  | ind k ih =>
  by_cases hl : l = []
  · exact hl ▸ nil
  · refine step l hl (ih _ ?_ _ rfl)
    have := List.length_pos_iff.2 hl
    simp only [List.length_drop]
    omega

theorem flatten_chunks {n : Nat} (hn : 0 < n) (l : List α) : (chunks n l).flatten = l := by
  induction l using chunks_induction hn with
  | nil => rfl
  | step l hl ih => rw [chunks_of_ne hn hl, List.flatten_cons, ih, List.take_append_drop]

theorem chunks_eq_nil {n : Nat} (hn : 0 < n) {l : List α} : chunks n l = [] ↔ l = [] := by
  constructor
  · intro h
    rw [← flatten_chunks hn l, h]
    rfl
  · rintro rfl
    rfl

theorem length_chunks {n : Nat} (hn : 0 < n) (l : List α) :
    (chunks n l).length = (l.length + n - 1) / n := by
  induction l using chunks_induction hn with
  | nil => exact (Nat.div_eq_of_lt (by simp; omega)).symm
  | step l hl ih =>
      have hpos := List.length_pos_iff.2 hl
      rw [chunks_of_ne hn hl, List.length_cons, ih, List.length_drop]
      by_cases hle : l.length ≤ n
      · rw [Nat.sub_eq_zero_of_le hle, Nat.div_eq_of_lt (by omega)]
        have : l.length + n - 1 = l.length - 1 + n := by omega
        rw [this, Nat.add_div_right _ hn, Nat.div_eq_of_lt (by omega)]
      · have : l.length + n - 1 = l.length - n + n - 1 + n := by omega
        rw [this, Nat.add_div_right _ hn]

/-- The `i`-th block starts `i * n` elements in. -/
theorem getElem?_chunks {n : Nat} (hn : 0 < n) (l : List α) (i : Nat) :
    (chunks n l)[i]? = if i * n < l.length then some ((l.drop (i * n)).take n) else none := by
  induction l using chunks_induction hn generalizing i with
  | nil => simp
  | step l hl ih =>
      have hpos := List.length_pos_iff.2 hl
      rw [chunks_of_ne hn hl]
      cases i with
      | zero => simp [hpos]
      | succ i =>
          have hmul : (i + 1) * n = n + i * n := by
            rw [Nat.succ_mul, Nat.add_comm]
          rw [List.getElem?_cons_succ, ih, List.drop_drop, List.length_drop, hmul]
          by_cases hlt : i * n < l.length - n
          · rw [if_pos hlt, if_pos (by omega)]
          · rw [if_neg hlt, if_neg (by omega)]

theorem lt_ceilDiv_iff {n : Nat} (hn : 0 < n) (len i : Nat) :
    i < (len + n - 1) / n ↔ i * n < len := by
  rw [← Nat.succ_le_iff, Nat.le_div_iff_mul_le hn, Nat.succ_mul]
  omega

/-- The lengths of the blocks: `n`, and at the end what is left. -/
theorem map_length_chunks {n : Nat} (hn : 0 < n) (l : List α) :
    (chunks n l).map List.length =
      (List.range ((l.length + n - 1) / n)).map fun i =>
        if i = (l.length + n - 1) / n - 1 then l.length - i * n else n := by
  refine List.ext_getElem? fun i => ?_
  rw [List.getElem?_map, List.getElem?_map, getElem?_chunks hn]
  by_cases hi : i * n < l.length
  · have hlt := (lt_ceilDiv_iff hn l.length i).2 hi
    rw [if_pos hi, List.getElem?_range hlt]
    have hlast : i = (l.length + n - 1) / n - 1 ↔ ¬ (i + 1) * n < l.length := by
      rw [← lt_ceilDiv_iff hn]
      omega
    rw [Nat.succ_mul] at hlast
    simp only [Option.map_some, List.length_take, List.length_drop, Option.some.injEq]
    split <;> omega
  · have hge := mt (lt_ceilDiv_iff hn l.length i).1 hi
    rw [if_neg hi, List.getElem?_eq_none (by simpa using hge)]
    rfl

theorem mem_chunks_length {n : Nat} (hn : 0 < n) {l b : List α} (h : b ∈ chunks n l) :
    0 < b.length ∧ b.length ≤ n := by
  obtain ⟨i, hi⟩ := List.mem_iff_getElem?.1 h
  rw [getElem?_chunks hn] at hi
  split at hi
  · cases hi
    simp only [List.length_take, List.length_drop]
    omega
  · cases hi

/-- Blocks that are full but for a last, non-empty one. -/
inductive Blocked (n : Nat) : List (List α) → Prop
  | nil : Blocked n []
  | last {b : List α} : b ≠ [] → b.length ≤ n → Blocked n [b]
  | cons {b : List α} {bs : List (List α)} : b.length = n → Blocked n bs →
      Blocked n (b :: bs)

theorem blocked_chunks {n : Nat} (hn : 0 < n) (l : List α) : Blocked n (chunks n l) := by
  induction l using chunks_induction hn with
  | nil => exact .nil
  | step l hl ih =>
      rw [chunks_of_ne hn hl]
      by_cases hle : l.length ≤ n
      · rw [List.drop_eq_nil_of_le hle, List.take_of_length_le hle]
        exact .last hl hle
      · exact .cons (by rw [List.length_take]; omega) ih

/-- Blocks laid end to end are cut back into the same blocks. -/
theorem chunks_flatten {n : Nat} (hn : 0 < n) {bs : List (List α)} (h : Blocked n bs) :
    chunks n bs.flatten = bs := by
  induction h with
  | nil => rfl
  | @last b hb hle =>
      rw [List.flatten_cons, List.flatten_nil, List.append_nil, chunks_of_ne hn hb,
        List.take_of_length_le hle, List.drop_eq_nil_of_le hle, chunks_nil]
  | @cons b bs hb _ ih =>
      have hne : b ++ bs.flatten ≠ [] := by
        intro h0
        rw [List.append_eq_nil_iff] at h0
        rw [h0.1] at hb
        simp at hb
        omega
      rw [List.flatten_cons, chunks_of_ne hn hne, ← hb, List.take_left, List.drop_left,
        hb, ih]

theorem Blocked.map_grow {β : Type} {n k : Nat} {f : Nat → List α → List β}
    (hf : ∀ i b, (f i b).length = b.length + k) {bs : List (List α)}
    (h : Blocked n bs) : Blocked (n + k) (bs.mapIdx f) := by
  induction h generalizing f with
  | nil => exact .nil
  | @last b hb hle =>
      show Blocked (n + k) [f 0 b]
      have hlen := hf 0 b
      have hpos := List.length_pos_iff.2 hb
      exact .last (List.length_pos_iff.1 (by omega)) (by omega)
  | @cons b bs hb _ ih =>
      rw [List.mapIdx_cons]
      exact .cons (by rw [hf, hb]) (ih fun i b => hf (i + 1) b)

theorem take_drop_flatten {bs : List (List α)} {i : Nat} {b : List α}
    (h : bs[i]? = some b) :
    (bs.flatten.drop ((bs.take i).map List.length).sum).take b.length = b := by
  induction bs generalizing i with
  | nil => simp at h
  | cons c bs ih =>
      cases i with
      | zero =>
          cases h
          simp
      | succ i =>
          rw [List.getElem?_cons_succ] at h
          rw [List.take_succ_cons, List.map_cons, List.sum_cons, List.flatten_cons,
            ← List.drop_drop, List.drop_left]
          exact ih h

end Kerplace
