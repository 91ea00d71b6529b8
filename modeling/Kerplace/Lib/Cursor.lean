/-
# `Kerplace.Lib.Cursor` — reading something in pages

A page is asked for at a position and may name the position to go on from.  `Followed`
are the pages a reader gets who goes on until a page names none.

Two rules: pages can be followed to the end if every position named is nearer to it
(`Followed.total`), and what the pages hold together is what there was to read at the
first position, if each page holds a beginning of what there was at its own and names
the rest (`Followed.flatMap_eq`).
-/
import Mathlib.Data.List.Flatten

namespace Kerplace

variable {τ ε P ι : Type}

/-- The pages from a position on, up to the first that names no next one. -/
inductive Followed (page : τ → Except ε P) (next : P → Option τ) : τ → List P → Prop where
  | last {t : τ} {p : P} (hpage : page t = .ok p) (hnext : next p = none) :
      Followed page next t [p]
  | more {t t' : τ} {p : P} {ps : List P} (hpage : page t = .ok p) (hnext : next p = some t')
      (hrest : Followed page next t' ps) : Followed page next t (p :: ps)

variable {page : τ → Except ε P} {next : P → Option τ}

theorem Followed.total (Good : τ → Prop) (left : τ → Nat)
    (hstep : ∀ t, Good t → ∃ p, page t = .ok p ∧
      ∀ t', next p = some t' → Good t' ∧ left t' < left t)
    {t : τ} (ht : Good t) : ∃ ps, Followed page next t ps := by
  induction hn : left t using Nat.strongRecOn generalizing t with
  | _ n ih =>
      obtain ⟨p, hp, hgo⟩ := hstep t ht
      cases hnext : next p with
      | none => exact ⟨[p], .last hp hnext⟩
      | some t' =>
          obtain ⟨ht', hlt⟩ := hgo t' hnext
          obtain ⟨ps, hps⟩ := ih _ (hn ▸ hlt) ht' rfl
          exact ⟨p :: ps, .more hp hnext hps⟩

theorem Followed.exists_last {t : τ} {ps : List P} (h : Followed page next t ps) :
    ∃ t' p, page t' = .ok p ∧ next p = none := by
  induction h with
  | last hpage hnext => exact ⟨_, _, hpage, hnext⟩
  | more _ _ _ ih => exact ih

theorem Followed.forall_mem (Good : τ → Prop) {Q : P → Prop}
    (hstep : ∀ t p, Good t → page t = .ok p → Q p ∧ ∀ t', next p = some t' → Good t')
    {t : τ} {ps : List P} (ht : Good t) (h : Followed page next t ps) : ∀ p ∈ ps, Q p := by
  induction h with
  | last hpage hnext =>
      intro q hq
      rw [List.mem_singleton] at hq
      exact hq ▸ (hstep _ _ ht hpage).1
  | more hpage hnext hrest ih =>
      obtain ⟨hp, hgo⟩ := hstep _ _ ht hpage
      intro q hq
      rcases List.mem_cons.1 hq with rfl | hq
      · exact hp
      · exact ih (hgo _ hnext) q hq

theorem Followed.flatMap_eq (Good : τ → Prop) (content : P → List ι) (toRead : τ → List ι)
    (hstep : ∀ t p, Good t → page t = .ok p → (∀ t', next p = some t' → Good t') ∧
      toRead t = content p ++ ((next p).map toRead).getD [])
    {t : τ} {ps : List P} (ht : Good t) (h : Followed page next t ps) :
    ps.flatMap content = toRead t := by
  induction h with
  | last hpage hnext =>
      rw [(hstep _ _ ht hpage).2, hnext, List.flatMap_singleton]
      exact (List.append_nil _).symm
  | more hpage hnext hrest ih =>
      obtain ⟨hgo, hread⟩ := hstep _ _ ht hpage
      rw [List.flatMap_cons, ih (hgo _ hnext), hread, hnext]
      rfl

end Kerplace
