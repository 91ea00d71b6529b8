/-
# `Kerplace.Lib.Json` — flat objects as JSON text

What a compact serializer writes of an object whose members are strings, numbers and `null`.
The text gives the members back, since no escape of a character begins another and a string's
end is not one.

A text is scanned with the place of each character: outside of a string, in one, or behind a
backslash.  Few characters stand outside a string, and the brace of an object only at its
head; so an object's text with anything before it is no object's text.
-/
import Mathlib.Data.List.Basic
import Mathlib.Data.List.Flatten
import Mathlib.Data.Bool.AllAny

namespace Kerplace

namespace Json

/-! ## Strings -/

/-- The letters that stand for characters behind a backslash. -/
def mnemonics : List (Char × Char) :=
  [('"', '"'), ('\\', '\\'), (Char.ofNat 8, 'b'), (Char.ofNat 9, 't'), (Char.ofNat 10, 'n'),
    (Char.ofNat 12, 'f'), (Char.ofNat 13, 'r')]

/-- The text of a character in a string. -/
def escapeChar (c : Char) : List Char :=
  match mnemonics.lookup c with
  | some letter => ['\\', letter]
  | none =>
      if c.toNat < 32 then
        ['\\', 'u', '0', '0', Nat.digitChar (c.toNat / 16), Nat.digitChar (c.toNat % 16)]
      else [c]

def escape (s : List Char) : List Char := s.flatMap escapeChar

/-- A string. -/
def quoted (s : List Char) : List Char := '"' :: (escape s ++ ['"'])

theorem escapeChar_cases (c : Char) :
    (∃ letter, (c, letter) ∈ mnemonics ∧ escapeChar c = ['\\', letter]) ∨
    (c.toNat < 32 ∧ escapeChar c =
      ['\\', 'u', '0', '0', Nat.digitChar (c.toNat / 16), Nat.digitChar (c.toNat % 16)]) ∨
    (32 ≤ c.toNat ∧ c ≠ '"' ∧ c ≠ '\\' ∧ escapeChar c = [c]) := by
  unfold escapeChar
  cases h : mnemonics.lookup c with
  | some letter =>
      obtain ⟨l₁, l₂, heq, -⟩ := List.lookup_eq_some_iff.1 h
      exact .inl ⟨letter, heq ▸ List.mem_append_right _ List.mem_cons_self, rfl⟩
  | none =>
      dsimp only
      split
      · rename_i hlow
        exact .inr (.inl ⟨hlow, rfl⟩)
      · rename_i hlow
        refine .inr (.inr ⟨Nat.not_lt.1 hlow, ?_, ?_, rfl⟩)
        · rintro rfl
          cases h
        · rintro rfl
          cases h

theorem mnemonics_letter {c d letter : Char} (hc : (c, letter) ∈ mnemonics) :
    letter ≠ 'u' ∧ ((d, letter) ∈ mnemonics → c = d) := by
  simp only [mnemonics, List.mem_cons, List.not_mem_nil, or_false, Prod.mk.injEq] at hc
  constructor
  · rcases hc with ⟨-, rfl⟩ | ⟨-, rfl⟩ | ⟨-, rfl⟩ | ⟨-, rfl⟩ | ⟨-, rfl⟩ | ⟨-, rfl⟩ | ⟨-, rfl⟩ <;>
      decide
  · intro hd
    simp only [mnemonics, List.mem_cons, List.not_mem_nil, or_false, Prod.mk.injEq] at hd
    rcases hc with ⟨rfl, rfl⟩ | ⟨rfl, rfl⟩ | ⟨rfl, rfl⟩ | ⟨rfl, rfl⟩ | ⟨rfl, rfl⟩ | ⟨rfl, rfl⟩ |
      ⟨rfl, rfl⟩ <;> simp_all

theorem digitChar_injective {m n : Nat} (hm : m < 16) (hn : n < 16)
    (h : Nat.digitChar m = Nat.digitChar n) : m = n := by
  have hall : ∀ m < 16, ∀ n < 16, Nat.digitChar m = Nat.digitChar n → m = n := by decide
  exact hall m hm n hn h

/-- A string's first character is read off its text. -/
theorem escapeChar_injective {c d : Char} {x y : List Char}
    (h : escapeChar c ++ x = escapeChar d ++ y) : c = d ∧ x = y := by
  rcases escapeChar_cases c with ⟨lc, hlc, hc⟩ | ⟨hlow, hc⟩ | ⟨-, -, hcb, hc⟩ <;>
    rcases escapeChar_cases d with ⟨ld, hld, hd⟩ | ⟨hlow', hd⟩ | ⟨-, -, hdb, hd⟩ <;>
    rw [hc, hd] at h <;>
    simp only [List.cons_append, List.nil_append, List.cons.injEq] at h
  · obtain ⟨-, rfl, rfl⟩ := h
    exact ⟨(mnemonics_letter hlc).2 hld, rfl⟩
  · exact absurd h.2.1 (mnemonics_letter (d := d) hlc).1
  · exact absurd h.1.symm hdb
  · exact absurd h.2.1.symm (mnemonics_letter (d := c) hld).1
  · obtain ⟨-, -, -, -, hhigh, hlast, rfl⟩ := h
    have h₁ := digitChar_injective (by omega) (by omega) hhigh
    have h₂ := digitChar_injective (by omega) (by omega) hlast
    exact ⟨Char.toNat_inj.1 (by omega), rfl⟩
  · exact absurd h.1.symm hdb
  · exact absurd h.1 hcb
  · exact absurd h.1 hcb
  · exact h

theorem quote_ne_escapeChar {c : Char} {x y : List Char} : '"' :: x ≠ escapeChar c ++ y := by
  intro h
  rcases escapeChar_cases c with ⟨lc, -, hc⟩ | ⟨-, hc⟩ | ⟨-, hq, -, hc⟩ <;> rw [hc] at h
  · exact absurd (List.cons.inj h).1 (by decide)
  · exact absurd (List.cons.inj h).1 (by decide)
  · exact hq (List.cons.inj h).1.symm

/-- A string is read off the text that it begins. -/
theorem quoted_injective {s t x y : List Char} (h : quoted s ++ x = quoted t ++ y) :
    s = t ∧ x = y := by
  have hinner : escape s ++ '"' :: x = escape t ++ '"' :: y := by
    simpa [quoted] using h
  clear h
  induction s generalizing t with
  | nil =>
      cases t with
      | nil => exact ⟨rfl, (List.cons.inj hinner).2⟩
      | cons d t =>
          rw [escape, escape, List.flatMap_nil, List.flatMap_cons, List.append_assoc] at hinner
          exact absurd hinner quote_ne_escapeChar
  | cons c s ih =>
      rw [escape, List.flatMap_cons, List.append_assoc] at hinner
      cases t with
      | nil => exact absurd hinner.symm quote_ne_escapeChar
      | cons d t =>
          rw [escape, List.flatMap_cons, List.append_assoc] at hinner
          obtain ⟨rfl, hrest⟩ := escapeChar_injective hinner
          obtain ⟨rfl, rfl⟩ := ih hrest
          exact ⟨rfl, rfl⟩

/-! ## Values and objects -/

/-- A value of a member. -/
inductive Value where
  | null
  | text (s : List Char)
  | number (n : Nat)

def Value.render : Value → List Char
  | .null => ['n', 'u', 'l', 'l']
  | .text s => quoted s
  | .number n => Nat.toDigits 10 n

/-- A member. -/
def member (m : List Char × Value) : List Char := quoted m.1 ++ ':' :: m.2.render

/-- The members, each behind what comes before it. -/
def rest (ms : List (List Char × Value)) : List Char :=
  ms.flatMap fun m => ',' :: member m

/-- An object. -/
def object (m : List Char × Value) (ms : List (List Char × Value)) : List Char :=
  '{' :: (member m ++ rest ms ++ ['}'])

/-- A text that no number goes on into. -/
def Closes (x : List Char) : Prop := ∃ c y, x = c :: y ∧ c.isDigit = false

theorem closes_rest (ms : List (List Char × Value)) (y : List Char) :
    Closes (rest ms ++ '}' :: y) := by
  cases ms with
  | nil => exact ⟨'}', y, rfl, by decide⟩
  | cons m ms => exact ⟨',', _, rfl, by decide⟩

theorem isDigit_of_mem_toDigits {n : Nat} {c : Char} (h : c ∈ Nat.toDigits 10 n) :
    c.isDigit = true := Nat.isDigit_of_mem_toDigits (by decide) (by decide) h

theorem toDigits_injective {m n : Nat} {x y : List Char} (hx : Closes x) (hy : Closes y)
    (h : Nat.toDigits 10 m ++ x = Nat.toDigits 10 n ++ y) : m = n ∧ x = y := by
  have hdigits {k : Nat} {z : List Char} (hz : Closes z) :
      (Nat.toDigits 10 k ++ z).takeWhile Char.isDigit = Nat.toDigits 10 k := by
    obtain ⟨c, w, rfl, hc⟩ := hz
    rw [List.takeWhile_append_of_pos fun d hd => isDigit_of_mem_toDigits hd,
      List.takeWhile_cons_of_neg (by rw [hc]; exact Bool.false_ne_true), List.append_nil]
  have hsame : Nat.toDigits 10 m = Nat.toDigits 10 n := by
    rw [← hdigits hx, h, hdigits hy]
  have hval : Nat.ofDigitChars 10 (Nat.toDigits 10 m) 0 =
      Nat.ofDigitChars 10 (Nat.toDigits 10 n) 0 := by rw [hsame]
  rw [Nat.ofDigitChars_ten_toDigits, Nat.ofDigitChars_ten_toDigits] at hval
  subst hval
  exact ⟨rfl, List.append_cancel_left h⟩

theorem Value.render_head (v : Value) :
    (v = .null ∧ v.render = ['n', 'u', 'l', 'l']) ∨ (∃ s, v = .text s ∧ v.render = quoted s) ∨
      ∃ n c t, v = .number n ∧ v.render = c :: t ∧ c.isDigit = true := by
  cases v with
  | null => exact .inl ⟨rfl, rfl⟩
  | text s => exact .inr (.inl ⟨s, rfl, rfl⟩)
  | number n =>
      obtain ⟨c, t, hct⟩ := List.exists_cons_of_ne_nil (Nat.toDigits_ne_nil (n := n) (b := 10))
      exact .inr (.inr ⟨n, c, t, rfl, hct, isDigit_of_mem_toDigits (hct ▸ List.mem_cons_self)⟩)

theorem Value.render_injective {v w : Value} {x y : List Char} (hx : Closes x) (hy : Closes y)
    (h : v.render ++ x = w.render ++ y) : v = w ∧ x = y := by
  rcases v.render_head with ⟨rfl, hv⟩ | ⟨s, rfl, hv⟩ | ⟨n, c, t, rfl, hv, hc⟩ <;>
    rcases w.render_head with ⟨rfl, hw⟩ | ⟨s', rfl, hw⟩ | ⟨n', c', t', rfl, hw, hc'⟩
  · exact ⟨rfl, List.append_cancel_left h⟩
  · rw [hv, hw] at h
    exact absurd (List.cons.inj h).1 (by decide)
  · rw [hv, hw] at h
    rw [← (List.cons.inj h).1] at hc'
    cases hc'
  · rw [hv, hw] at h
    exact absurd (List.cons.inj h).1 (by decide)
  · obtain ⟨rfl, hxy⟩ := quoted_injective h
    exact ⟨rfl, hxy⟩
  · rw [hv, hw] at h
    rw [← (List.cons.inj h).1] at hc'
    cases hc'
  · rw [hv, hw] at h
    rw [(List.cons.inj h).1] at hc
    cases hc
  · rw [hv, hw] at h
    rw [(List.cons.inj h).1] at hc
    cases hc
  · obtain ⟨rfl, hxy⟩ := toDigits_injective hx hy h
    exact ⟨rfl, hxy⟩

theorem member_injective {m n : List Char × Value} {x y : List Char} (hx : Closes x)
    (hy : Closes y) (h : member m ++ x = member n ++ y) : m = n ∧ x = y := by
  rw [member, member, List.append_assoc, List.append_assoc] at h
  obtain ⟨hname, hvalue⟩ := quoted_injective h
  obtain ⟨hv, hxy⟩ := Value.render_injective hx hy (List.cons.inj hvalue).2
  exact ⟨Prod.ext hname hv, hxy⟩

theorem rest_injective {ms ns : List (List Char × Value)} {x y : List Char}
    (h : rest ms ++ '}' :: x = rest ns ++ '}' :: y) : ms = ns := by
  induction ms generalizing ns with
  | nil =>
      cases ns with
      | nil => rfl
      | cons n ns => exact absurd (List.cons.inj h).1 (by decide)
  | cons m ms ih =>
      rw [rest, List.flatMap_cons, List.append_assoc] at h
      cases ns with
      | nil => exact absurd (List.cons.inj h).1 (by decide)
      | cons n ns =>
          rw [rest, List.flatMap_cons, List.append_assoc] at h
          obtain ⟨rfl, hrest⟩ := member_injective (closes_rest ms x) (closes_rest ns y)
            (List.cons.inj h).2
          rw [ih hrest]

theorem object_injective {m n : List Char × Value} {ms ns : List (List Char × Value)}
    (h : object m ms = object n ns) : m = n ∧ ms = ns := by
  have hinner := (List.cons.inj h).2
  rw [List.append_assoc, List.append_assoc] at hinner
  obtain ⟨hm, hrest⟩ := member_injective (closes_rest ms []) (closes_rest ns []) hinner
  exact ⟨hm, rest_injective hrest⟩

/-! ## What stands where -/

/-- The place of a character. -/
inductive Place where
  | outside
  | inside
  | escaped
  deriving DecidableEq

/-- The place behind a character. -/
def Place.next : Place → Char → Place
  | .outside, c => if c = '"' then .inside else .outside
  | .inside, c => if c = '"' then .outside else if c = '\\' then .escaped else .inside
  | .escaped, _ => .inside

/-- Whether a character may stand in its place, behind an object's first brace. -/
def Place.allows : Place → Char → Bool
  | .outside, c => c.isDigit || ['"', ':', ',', '}', 'n', 'u', 'l'].contains c
  | .inside, _ => true
  | .escaped, c => c != '{'

/-- The characters of a text are allowed from one place to another. -/
def Runs : Place → List Char → Place → Prop
  | p, [], q => p = q
  | p, c :: s, q => p.allows c = true ∧ Runs (p.next c) s q

theorem runs_append {p q r : Place} {s t : List Char} (hs : Runs p s q) (ht : Runs q t r) :
    Runs p (s ++ t) r := by
  induction s generalizing p with
  | nil =>
      obtain rfl := hs
      exact ht
  | cons c s ih => exact ⟨hs.1, ih hs.2⟩

theorem Runs.split {p r : Place} {s t : List Char} (h : Runs p (s ++ t) r) :
    ∃ q, Runs p s q ∧ Runs q t r := by
  induction s generalizing p with
  | nil => exact ⟨p, rfl, h⟩
  | cons c s ih =>
      obtain ⟨q, hs, ht⟩ := ih h.2
      exact ⟨q, ⟨h.1, hs⟩, ht⟩

theorem runs_digits {s : List Char} (h : ∀ c ∈ s, c.isDigit = true) :
    Runs .outside s .outside := by
  induction s with
  | nil => rfl
  | cons c s ih =>
      have hc := h c List.mem_cons_self
      refine ⟨by rw [Place.allows, hc, Bool.true_or], ?_⟩
      rw [Place.next, if_neg]
      · exact ih fun d hd => h d (List.mem_cons_of_mem _ hd)
      · rintro rfl
        cases hc

theorem runs_escapeChar (c : Char) : Runs .inside (escapeChar c) .inside := by
  rcases escapeChar_cases c with ⟨letter, hletter, hc⟩ | ⟨hlow, hc⟩ | ⟨-, hquote, hback, hc⟩ <;>
    rw [hc]
  · refine ⟨rfl, ?_, rfl⟩
    rw [Place.next, if_neg (by decide), if_pos rfl, Place.allows, bne_iff_ne]
    rintro rfl
    simp [mnemonics] at hletter
  · have hplain : ∀ n < 16, Nat.digitChar n ≠ '"' ∧ Nat.digitChar n ≠ '\\' := by decide
    have hhigh := hplain (c.toNat / 16) (by omega)
    have hlast := hplain (c.toNat % 16) (by omega)
    simp [Runs, Place.next, Place.allows, hhigh, hlast]
  · refine ⟨rfl, ?_⟩
    rw [Place.next, if_neg hquote, if_neg hback]
    rfl

theorem runs_quoted (s : List Char) : Runs .outside (quoted s) .outside := by
  have hescape : Runs .inside (escape s) .inside := by
    induction s with
    | nil => rfl
    | cons c s ih => exact runs_append (runs_escapeChar c) ih
  exact ⟨by decide, runs_append hescape ⟨rfl, rfl⟩⟩

theorem runs_render (v : Value) : Runs .outside v.render .outside := by
  cases v with
  | null => exact ⟨by decide, by decide, by decide, by decide, rfl⟩
  | text s => exact runs_quoted s
  | number n => exact runs_digits fun c hc => isDigit_of_mem_toDigits hc

theorem runs_member (m : List Char × Value) : Runs .outside (member m) .outside :=
  runs_append (runs_quoted m.1) ⟨by decide, runs_render m.2⟩

theorem runs_rest (ms : List (List Char × Value)) : Runs .outside (rest ms) .outside := by
  induction ms with
  | nil => rfl
  | cons m ms ih => exact runs_append (s := ',' :: member m) ⟨by decide, runs_member m⟩ ih

/-- An object's text with something before it is no object's text: its brace would stand in a
string or open one too many, and a string that the first name's quote closes would have the
name behind it. -/
theorem append_object_ne {before name : List Char} {c : Char} {v : Value}
    {n : List Char × Value} {ms ns : List (List Char × Value)} (hbefore : before ≠ [])
    (hplain : escapeChar c = [c]) (houtside : Place.allows .outside c = false) :
    before ++ object (c :: name, v) ms ≠ object n ns := by
  intro h
  obtain ⟨b, s, rfl⟩ := List.exists_cons_of_ne_nil hbefore
  have hruns : Runs .outside (member n ++ rest ns ++ ['}']) .outside :=
    runs_append (runs_append (runs_member n) (runs_rest ns)) ⟨by decide, rfl⟩
  rw [← (List.cons.inj h).2] at hruns
  obtain ⟨p, -, hobject⟩ := hruns.split
  have hhead : object (c :: name, v) ms = '{' :: '"' :: c ::
      (escape name ++ '"' :: ':' :: (v.render ++ rest ms ++ ['}'])) := by
    simp [object, member, quoted, escape, hplain]
  rw [hhead] at hobject
  cases p with
  | outside => exact absurd hobject.1 (by decide)
  | escaped => exact absurd hobject.1 (by decide)
  | inside =>
      -- the quote of the name closes the string that the brace stands in
      have hname := hobject.2.2.1
      rw [show Place.next (Place.next .inside '{') '"' = .outside from rfl, houtside] at hname
      cases hname

/-! ## Control characters -/

/-- A text with no control character. -/
def Printable (s : List Char) : Prop := ∀ c ∈ s, 32 ≤ c.toNat

theorem printable_append {s t : List Char} (hs : Printable s) (ht : Printable t) :
    Printable (s ++ t) := fun c hc => (List.mem_append.1 hc).elim (hs c) (ht c)

theorem printable_cons {c : Char} {s : List Char} (hc : 32 ≤ c.toNat) (hs : Printable s) :
    Printable (c :: s) := List.forall_mem_cons.2 ⟨hc, hs⟩

theorem printable_nil : Printable [] := fun _ h => absurd h List.not_mem_nil

theorem printable_flatMap {α : Type} {f : α → List Char} {l : List α}
    (h : ∀ a, Printable (f a)) : Printable (l.flatMap f) := fun c hc => by
  obtain ⟨a, -, hc⟩ := List.mem_flatMap.1 hc
  exact h a c hc

theorem printable_escapeChar (c : Char) : Printable (escapeChar c) := by
  rcases escapeChar_cases c with ⟨letter, hletter, hc⟩ | ⟨hlow, hc⟩ | ⟨hhigh, -, -, hc⟩ <;>
    rw [hc]
  · refine printable_cons (by decide) (printable_cons ?_ printable_nil)
    simp only [mnemonics, List.mem_cons, List.not_mem_nil, or_false, Prod.mk.injEq] at hletter
    rcases hletter with ⟨-, rfl⟩ | ⟨-, rfl⟩ | ⟨-, rfl⟩ | ⟨-, rfl⟩ | ⟨-, rfl⟩ | ⟨-, rfl⟩ |
      ⟨-, rfl⟩ <;> decide
  · have hdigit : ∀ n < 16, 32 ≤ (Nat.digitChar n).toNat := by decide
    exact printable_cons (by decide) <| printable_cons (by decide) <|
      printable_cons (by decide) <| printable_cons (by decide) <|
      printable_cons (hdigit _ (by omega)) <| printable_cons (hdigit _ (by omega)) printable_nil
  · exact printable_cons hhigh printable_nil

theorem printable_quoted (s : List Char) : Printable (quoted s) :=
  printable_cons (by decide) <| printable_append (printable_flatMap printable_escapeChar) <|
    printable_cons (by decide) printable_nil

theorem printable_render (v : Value) : Printable v.render := by
  cases v with
  | null =>
      exact printable_cons (by decide) <| printable_cons (by decide) <|
        printable_cons (by decide) <| printable_cons (by decide) printable_nil
  | text s => exact printable_quoted s
  | number n =>
      intro c hc
      have hdigit := isDigit_of_mem_toDigits hc
      simp only [Char.isDigit, Bool.and_eq_true, decide_eq_true_eq] at hdigit
      exact Nat.le_trans (by decide) hdigit.1

theorem printable_member (m : List Char × Value) : Printable (member m) :=
  printable_append (printable_quoted m.1) (printable_cons (by decide) (printable_render m.2))

theorem printable_object (m : List Char × Value) (ms : List (List Char × Value)) :
    Printable (object m ms) :=
  printable_cons (by decide) <| printable_append
    (printable_append (printable_member m)
      (printable_flatMap fun n => printable_cons (by decide) (printable_member n)))
    (printable_cons (by decide) printable_nil)

end Json

end Kerplace
