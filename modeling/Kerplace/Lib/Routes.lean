/-
# `Kerplace.Lib.Routes` — paths, patterns and the router that picks one

A path is read by its segments.  A pattern asks for each segment in turn either
that very text or some text, and may take all the segments that are left.  Which
pattern of a table a request gets is the router's choice; what is known of it is
that it takes a matching one, and none that another matching one is more
specific than, where the more specific of two is the one with a fixed segment
at the first place they differ at.
-/
import Kerplace.Lib.UnixPath
import Mathlib.Data.List.MinMax
import Mathlib.Data.List.Lex

namespace Kerplace

/-- What a pattern asks of one segment. -/
inductive Seg where
  | lit (s : Str)
  | param
  deriving DecidableEq

/-- A pattern: its segments, and whether it takes all that follow them. -/
structure Pattern where
  segs : List Seg
  rest : Bool
  deriving DecidableEq

/-- The segments of an absolute path. -/
def segments : Str → Option (List Str)
  | '/' :: s => some (s.splitOn '/')
  | _ => none

namespace Pattern

/-- Whether the segments of a path meet a pattern: a parameter is not empty, nor is
what a pattern takes at its end. -/
def meets : List Seg → Bool → List Str → Bool
  | [], rest, xs => if rest then decide (xs ≠ []) && decide (xs ≠ [[]]) else decide (xs = [])
  | .lit s :: ps, rest, x :: xs => decide (x = s) && meets ps rest xs
  | .param :: ps, rest, x :: xs => decide (x ≠ []) && meets ps rest xs
  | _ :: _, _, [] => false

/-- The pattern matches the path. -/
def Matches (p : Pattern) (xs : List Str) : Prop := meets p.segs p.rest xs = true

instance (p : Pattern) (xs : List Str) : Decidable (p.Matches xs) :=
  inferInstanceAs (Decidable (_ = true))

/-- The pattern of one path. -/
def exact (xs : List Str) : Pattern := ⟨xs.map .lit, false⟩

/-- How free a segment is. -/
def freedom : Seg → Nat
  | .lit _ => 0
  | .param => 1

/-- How free a pattern is at each place. -/
def rank (p : Pattern) : List Nat := p.segs.map freedom ++ if p.rest then [2] else []

/-- At the first place where they differ, `p` is less free than `q`. -/
def MoreSpecific (p q : Pattern) : Prop := p.rank < q.rank

theorem matches_exact {xs ys : List Str} : (exact xs).Matches ys ↔ ys = xs := by
  induction xs generalizing ys with
  | nil => simp [Matches, exact, meets]
  | cons x xs ih =>
      cases ys with
      | nil => simp [Matches, exact, meets]
      | cons y ys => simpa [Matches, exact, meets] using fun _ => ih

/-- Of the patterns that match a path, its own is the most specific. -/
theorem eq_exact_or_moreSpecific {p : Pattern} {xs : List Str} (h : p.Matches xs) :
    p = exact xs ∨ (exact xs).MoreSpecific p := by
  obtain ⟨segs, rest⟩ := p
  induction segs generalizing xs with
  | nil =>
      cases rest with
      | false =>
          left
          have hxs : xs = [] := by simpa [Matches, meets] using h
          rw [hxs, exact, List.map_nil]
      | true =>
          right
          cases xs with
          | nil => simp [Matches, meets] at h
          | cons x xs => exact List.Lex.rel Nat.zero_lt_two
  | cons seg segs ih =>
      cases xs with
      | nil => cases seg <;> simp [Matches, meets] at h
      | cons x xs =>
          cases seg with
          | param => exact .inr (List.Lex.rel Nat.zero_lt_one)
          | lit s =>
              simp only [Matches, meets, Bool.and_eq_true, decide_eq_true_eq] at h
              obtain ⟨rfl, hrest⟩ := h
              rcases ih hrest with heq | hspec
              · left
                rw [exact, mk.injEq] at heq ⊢
                exact ⟨by rw [heq.1, List.map_cons], heq.2⟩
              · exact .inr (List.Lex.cons hspec)

end Pattern

/-! ## Routers -/

/-- A router: the pattern of a table that a path gets. -/
abbrev Router := List Pattern → List Str → Option Pattern

/-- The router takes the most specific pattern that matches. -/
structure Router.MostSpecific (pick : Router) : Prop where
  sound : ∀ {table xs p}, pick table xs = some p → p ∈ table ∧ p.Matches xs
  total : ∀ {table xs p}, p ∈ table → p.Matches xs → pick table xs ≠ none
  specific : ∀ {table xs p q}, pick table xs = some p → q ∈ table → q.Matches xs →
    ¬ q.MoreSpecific p

namespace Router.MostSpecific

variable {pick : Router} {table : List Pattern} {xs : List Str} {p : Pattern}

theorem pick_eq (h : pick.MostSpecific) (hmem : p ∈ table) (hp : p.Matches xs)
    (hleast : ∀ q ∈ table, q.Matches xs → q = p ∨ p.MoreSpecific q) :
    pick table xs = some p := by
  obtain ⟨q, hq⟩ := Option.ne_none_iff_exists'.1 (h.total hmem hp)
  obtain ⟨hqmem, hqmatches⟩ := h.sound hq
  rcases hleast q hqmem hqmatches with heq | hspec
  · rw [hq, heq]
  · exact absurd hspec (h.specific hq hmem hp)

theorem pick_exact (h : pick.MostSpecific) (hmem : Pattern.exact xs ∈ table) :
    pick table xs = some (.exact xs) :=
  h.pick_eq hmem (Pattern.matches_exact.2 rfl) fun _ _ hq =>
    Pattern.eq_exact_or_moreSpecific hq

end Router.MostSpecific

/-- The router that compares the patterns' freedom. -/
def Router.byRank : Router := fun table xs =>
  (table.filter fun p => decide (p.Matches xs)).argmin Pattern.rank

theorem Router.byRank_mostSpecific : Router.byRank.MostSpecific where
  sound h := by
    have hmem := List.argmin_mem h
    simpa using hmem
  total {table xs p} hmem hp h0 := by
    have hin : p ∈ table.filter fun q => decide (q.Matches xs) :=
      List.mem_filter.2 ⟨hmem, decide_eq_true hp⟩
    rw [List.argmin_eq_none.1 h0] at hin
    cases hin
  specific h hmem hq :=
    List.not_lt_of_mem_argmin (List.mem_filter.2 ⟨hmem, decide_eq_true hq⟩) h

end Kerplace
