/-
# `Kerplace.Lib.Lines` — texts made of lines

Lines joined by a separator, and lines each ended by one.  A line does not contain the
separator, so both texts give the lines back; and every text is ended lines with what is left
of a line behind them.
-/
import Mathlib.Data.List.Basic
import Mathlib.Data.List.Flatten
import Mathlib.Data.List.Induction

namespace Kerplace

namespace Lines

variable {α : Type} {sep : α}

/-- Lines each ended by the separator. -/
def ended (sep : α) (ls : List (List α)) : List α := ls.flatMap fun l => l ++ [sep]

@[simp] theorem ended_nil : ended sep [] = [] := rfl

@[simp] theorem ended_cons (l : List α) (ls : List (List α)) :
    ended sep (l :: ls) = l ++ sep :: ended sep ls := by
  rw [ended, List.flatMap_cons, List.append_assoc]
  rfl

theorem ended_snoc (ls : List (List α)) (l : List α) :
    ended sep (ls ++ [l]) = ended sep ls ++ l ++ [sep] := by
  rw [ended, List.flatMap_append, List.flatMap_singleton, List.append_assoc]
  rfl

theorem ended_append_eq_intercalate (ls : List (List α)) (tail : List α) :
    ended sep ls ++ tail = [sep].intercalate (ls ++ [tail]) := by
  induction ls with
  | nil => exact (List.append_nil _).symm
  | cons l ls ih =>
      rw [ended_cons, List.append_assoc, List.cons_append, ih, List.cons_append,
        List.intercalate_cons_of_ne_nil (by simp), List.append_assoc]
      rfl

/-- Every text is ended lines with what is left of a line. -/
theorem exists_ended [DecidableEq α] (sep : α) (text : List α) :
    ∃ ls tail, text = ended sep ls ++ tail ∧ (∀ l ∈ ls, sep ∉ l) ∧ sep ∉ tail := by
  induction text using List.reverseRecOn with
  | nil => exact ⟨[], [], rfl, fun l h => absurd h List.not_mem_nil, List.not_mem_nil⟩
  | append_singleton text c ih =>
      obtain ⟨ls, tail, rfl, hls, htail⟩ := ih
      by_cases hc : c = sep
      · subst hc
        refine ⟨ls ++ [tail], [], ?_, ?_, List.not_mem_nil⟩
        · rw [ended_snoc, List.append_nil]
        · intro l hl
          rcases List.mem_append.1 hl with hl | hl
          · exact hls l hl
          · rwa [List.mem_singleton.1 hl]
      · refine ⟨ls, tail ++ [c], List.append_assoc _ _ _, hls, ?_⟩
        intro h
        rcases List.mem_append.1 h with h | h
        · exact htail h
        · exact hc (List.mem_singleton.1 h).symm

/-- What stands in joined lines is the separator or stands in a line. -/
theorem mem_intercalate {c : α} {ls : List (List α)} (h : c ∈ [sep].intercalate ls) :
    c = sep ∨ ∃ l ∈ ls, c ∈ l := by
  induction ls with
  | nil => exact absurd h List.not_mem_nil
  | cons l ls ih =>
      by_cases hls : ls = []
      · rw [hls, List.intercalate_singleton] at h
        exact .inr ⟨l, List.mem_cons_self, h⟩
      · rw [List.intercalate_cons_of_ne_nil hls] at h
        rcases List.mem_append.1 h with h | h
        · rcases List.mem_append.1 h with h | h
          · exact .inr ⟨l, List.mem_cons_self, h⟩
          · exact .inl (List.mem_singleton.1 h)
        · rcases ih h with h | ⟨l', hl', hc⟩
          · exact .inl h
          · exact .inr ⟨l', List.mem_cons_of_mem _ hl', hc⟩

/-- A line before a separator is read off the text. -/
theorem line_injective {l l' rest rest' : List α} (h : sep ∉ l) (h' : sep ∉ l')
    (heq : l ++ sep :: rest = l' ++ sep :: rest') : l = l' ∧ rest = rest' := by
  induction l generalizing l' with
  | nil =>
      cases l' with
      | nil => exact ⟨rfl, (List.cons.inj heq).2⟩
      | cons a l' =>
          rw [(List.cons.inj heq).1] at h'
          exact absurd List.mem_cons_self h'
  | cons a l ih =>
      cases l' with
      | nil =>
          rw [← (List.cons.inj heq).1] at h
          exact absurd List.mem_cons_self h
      | cons a' l' =>
          obtain ⟨hhead, htail⟩ := List.cons.inj heq
          obtain ⟨hl, hrest⟩ := ih (fun hmem => h (List.mem_cons_of_mem _ hmem))
            (fun hmem => h' (List.mem_cons_of_mem _ hmem)) htail
          rw [hhead, hl]
          exact ⟨rfl, hrest⟩

theorem splitOn_ended [BEq α] [LawfulBEq α] {ls : List (List α)} {tail : List α}
    (h : ∀ l ∈ ls, sep ∉ l) (htail : sep ∉ tail) :
    (ended sep ls ++ tail).splitOn sep = ls ++ [tail] := by
  rw [ended_append_eq_intercalate]
  refine List.splitOn_intercalate sep ?_ (by simp)
  intro l hl
  rcases List.mem_append.1 hl with hl | hl
  · exact h l hl
  · rwa [List.mem_singleton.1 hl]

end Lines

end Kerplace
