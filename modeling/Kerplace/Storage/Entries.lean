/-
# `Kerplace.Storage.Entries` — the entries of a listing, and pages under altered tokens

What a listing shows of a key is an entry: the key, or its common prefix.  Entries come in
the order of the keys, so a page holds the next of them.

A reader who gets the tokens altered goes on from wherever the altered token is.  The
pages then are the entries in order just when every altered token leaves the same entries.
-/
import Kerplace.Storage.Paging

namespace Kerplace

section

variable {pre : Str} {delimiter : Option Str}

/-- What a listing shows of a key. -/
def entryOf (pre : Str) (delimiter : Option Str) (key : Str) : Str :=
  (rollUp pre delimiter key).getD key

/-- The entries of keys. -/
def entriesOf (pre : Str) (delimiter : Option Str) (keys : List Str) : List Str :=
  keySet (keys.map (entryOf pre delimiter))

theorem mem_entriesOf {keys : List Str} {e : Str} :
    e ∈ entriesOf pre delimiter keys ↔ ∃ k ∈ keys, entryOf pre delimiter k = e := by
  rw [entriesOf, mem_keySet, List.mem_map]

theorem entriesOf_sorted (keys : List Str) :
    (entriesOf pre delimiter keys).Pairwise (· < ·) := keySet_sorted _

theorem entryOf_some {k c : Str} (h : rollUp pre delimiter k = some c) :
    entryOf pre delimiter k = c := by rw [entryOf, h, Option.getD_some]

theorem entryOf_none {k : Str} (h : rollUp pre delimiter k = none) :
    entryOf pre delimiter k = k := by rw [entryOf, h, Option.getD_none]

theorem le_of_begins {c k : Str} (h : c <+: k) : c ≤ k := by
  obtain ⟨rest, rfl⟩ := h
  induction c with
  | nil => exact not_lt.1 (List.not_lt_nil _)
  | cons a c ih => exact cons_le_cons.2 (.inr ⟨rfl, ih⟩)

theorem rollUp_entryOf (k : Str) :
    rollUp pre delimiter (entryOf pre delimiter k) = rollUp pre delimiter k := by
  cases h : rollUp pre delimiter k with
  | none => rw [entryOf_none h, h]
  | some c =>
      rw [entryOf_some h]
      exact rollUp_of_begins h (List.prefix_refl c)

/-- Entries keep the order. -/
theorem entryOf_le {k k' : Str} (hk : pre <+: k) (hk' : pre <+: k') (h : k ≤ k') :
    entryOf pre delimiter k ≤ entryOf pre delimiter k' := by
  rcases le_iff_lt_or_eq.1 h with hlt | rfl
  · cases hroll : rollUp pre delimiter k with
    | none =>
        rw [entryOf_none hroll]
        cases hroll' : rollUp pre delimiter k' with
        | none => rwa [entryOf_none hroll']
        | some c' =>
            rw [entryOf_some hroll']
            refine not_lt.1 fun hc => ?_
            -- a key between a common prefix and a key of it is of it too
            have hcp := prefix_of_rollUp hk' hroll'
            have hck := prefix_of_between (List.prefix_refl c') hcp (le_of_lt hc) h
            exact nomatch hroll.symm.trans (rollUp_of_begins hroll' hck)
    | some c =>
        rw [entryOf_some hroll]
        cases hroll' : rollUp pre delimiter k' with
        | none =>
            rw [entryOf_none hroll']
            exact le_trans (le_of_begins (prefix_of_rollUp hk hroll)) h
        | some c' =>
            rw [entryOf_some hroll']
            by_cases hcc : c = c'
            · exact hcc ▸ le_refl c
            · exact le_of_lt (rollUp_lt hk hk' hlt hroll hroll' hcc)
  · exact le_refl _

theorem entryOf_between {k t k' : Str} (hk : pre <+: k) (ht : pre <+: t) (hk' : pre <+: k')
    (h : k ≤ t) (h' : t ≤ k') (heq : entryOf pre delimiter k = entryOf pre delimiter k') :
    entryOf pre delimiter t = entryOf pre delimiter k :=
  le_antisymm (heq ▸ entryOf_le ht hk' h') (entryOf_le hk ht h)

theorem rollUp_of_entryOf_eq {k k' : Str} (hlt : k < k')
    (heq : entryOf pre delimiter k = entryOf pre delimiter k') :
    rollUp pre delimiter k' = some (entryOf pre delimiter k) := by
  have hroll : rollUp pre delimiter k = rollUp pre delimiter k' := by
    rw [← rollUp_entryOf k, heq, rollUp_entryOf k']
  cases h : rollUp pre delimiter k with
  | none =>
      rw [h] at hroll
      rw [entryOf_none h, entryOf_none hroll.symm] at heq
      exact absurd hlt (heq ▸ List.lt_irrefl k)
  | some c =>
      rw [h] at hroll
      rw [entryOf_some h, ← hroll]

/-! ## Cutting a list of keys -/

/-- Where a new entry begins, the entries are cut. -/
theorem entriesOf_append (delimiter : Option Str) {part rest : List Str}
    (hsorted : (part ++ rest).Pairwise (· < ·))
    (hpre : ∀ k ∈ part ++ rest, pre <+: k)
    (hfresh : ∀ t ∈ rest.head?, entryOf pre delimiter t ∉ entriesOf pre delimiter part) :
    entriesOf pre delimiter (part ++ rest) =
      entriesOf pre delimiter part ++ entriesOf pre delimiter rest := by
  obtain ⟨-, hrest, hacross⟩ := List.pairwise_append.1 hsorted
  have hlt : ∀ e ∈ entriesOf pre delimiter part, ∀ e' ∈ entriesOf pre delimiter rest,
      e < e' := by
    intro e he e' he'
    obtain ⟨k, hk, rfl⟩ := mem_entriesOf.1 he
    obtain ⟨k', hk', rfl⟩ := mem_entriesOf.1 he'
    have hpk := hpre k (List.mem_append_left _ hk)
    have hpk' := hpre k' (List.mem_append_right _ hk')
    refine (le_iff_lt_or_eq.1 (entryOf_le hpk hpk'
      (le_of_lt (hacross k hk k' hk')))).resolve_right fun heq => ?_
    cases rest with
    | nil => cases hk'
    | cons t rest =>
        have htk' : t ≤ k' := by
          rcases List.mem_cons.1 hk' with rfl | hmem
          · exact le_refl _
          · exact le_of_lt ((List.pairwise_cons.1 hrest).1 k' hmem)
        have ht := hpre t (List.mem_append_right _ List.mem_cons_self)
        refine hfresh t rfl (mem_entriesOf.2 ⟨k, hk, (entryOf_between hpk ht hpk'
          (le_of_lt (hacross k hk t List.mem_cons_self)) htk' heq).symm⟩)
  refine eq_of_sorted (entriesOf_sorted _)
    (List.pairwise_append.2 ⟨entriesOf_sorted _, entriesOf_sorted _, hlt⟩) fun e => ?_
  rw [List.mem_append, mem_entriesOf, mem_entriesOf, mem_entriesOf]
  constructor
  · rintro ⟨k, hk, rfl⟩
    exact (List.mem_append.1 hk).imp (fun h => ⟨k, h, rfl⟩) fun h => ⟨k, h, rfl⟩
  · rintro (⟨k, hk, rfl⟩ | ⟨k, hk, rfl⟩)
    · exact ⟨k, List.mem_append_left _ hk, rfl⟩
    · exact ⟨k, List.mem_append_right _ hk, rfl⟩

theorem entriesOf_head {t : Str} {rest : List Str} (hsorted : (t :: rest).Pairwise (· < ·))
    (hpre : ∀ k ∈ t :: rest, pre <+: k) :
    (entriesOf pre delimiter (t :: rest)).head? = some (entryOf pre delimiter t) := by
  have hmem : entryOf pre delimiter t ∈ entriesOf pre delimiter (t :: rest) :=
    mem_entriesOf.2 ⟨t, List.mem_cons_self, rfl⟩
  cases h : entriesOf pre delimiter (t :: rest) with
  | nil =>
      rw [h] at hmem
      cases hmem
  | cons e es =>
      have he : e ∈ entriesOf pre delimiter (t :: rest) := h ▸ List.mem_cons_self
      obtain ⟨k, hk, rfl⟩ := mem_entriesOf.1 he
      have htk : t ≤ k := by
        rcases List.mem_cons.1 hk with rfl | hk
        · exact le_refl _
        · exact le_of_lt ((List.pairwise_cons.1 hsorted).1 k hk)
      have hle : entryOf pre delimiter t ≤ entryOf pre delimiter k :=
        entryOf_le (hpre t List.mem_cons_self) (hpre k hk) htk
      have hes : (entriesOf pre delimiter (t :: rest)).Pairwise (· < ·) := entriesOf_sorted _
      rw [h] at hes hmem
      rcases List.mem_cons.1 hmem with heq | hmem
      · rw [heq]
        rfl
      · exact absurd ((List.pairwise_cons.1 hes).1 _ hmem) (not_lt.2 hle)

/-! ## The entries of a page -/

/-- What is seen on a page. -/
def seenOn (keys prefixes : List Str) : List Str := keySet (keys ++ prefixes)

theorem seenOn_page (part : List Str) :
    seenOn (plainKeys pre delimiter part) (prefixesOf pre delimiter part) =
      entriesOf pre delimiter part := by
  refine eq_of_sorted (keySet_sorted _) (entriesOf_sorted _) fun e => ?_
  rw [seenOn, mem_keySet, List.mem_append, mem_prefixesOf, mem_entriesOf, plainKeys,
    List.mem_filter, Option.isNone_iff_eq_none]
  constructor
  · rintro (⟨hk, hroll⟩ | ⟨k, hk, hroll⟩)
    · exact ⟨e, hk, entryOf_none hroll⟩
    · exact ⟨k, hk, entryOf_some hroll⟩
  · rintro ⟨k, hk, rfl⟩
    cases hroll : rollUp pre delimiter k with
    | none => exact .inl (by rw [entryOf_none hroll]; exact ⟨hk, hroll⟩)
    | some c => exact .inr ⟨k, hk, by rw [entryOf_some hroll, hroll]⟩

theorem plainKeys_entriesOf {keys : List Str} (hsorted : keys.Pairwise (· < ·)) :
    plainKeys pre delimiter (entriesOf pre delimiter keys) = plainKeys pre delimiter keys := by
  refine eq_of_sorted ((entriesOf_sorted keys).filter _) (hsorted.filter _) fun e => ?_
  rw [plainKeys, plainKeys, List.mem_filter, List.mem_filter, mem_entriesOf]
  refine and_congr_left fun hnone => ⟨?_, fun he => ⟨e, he, ?_⟩⟩
  · rintro ⟨k, hk, rfl⟩
    rw [rollUp_entryOf k, Option.isNone_iff_eq_none] at hnone
    rw [entryOf_none hnone]
    exact hk
  · exact entryOf_none (Option.isNone_iff_eq_none.1 hnone)

theorem filter_entriesOf (keys : List Str) :
    (entriesOf pre delimiter keys).filter (fun e => (rollUp pre delimiter e).isSome) =
      prefixesOf pre delimiter keys := by
  refine eq_of_sorted ((entriesOf_sorted keys).filter _) (keySet_sorted _) fun e => ?_
  show e ∈ List.filter _ _ ↔ e ∈ prefixesOf pre delimiter keys
  rw [List.mem_filter, mem_entriesOf, mem_prefixesOf]
  constructor
  · rintro ⟨⟨k, hk, rfl⟩, hsome⟩
    rw [rollUp_entryOf k] at hsome
    obtain ⟨c, hc⟩ := Option.isSome_iff_exists.1 hsome
    exact ⟨k, hk, by rw [hc, entryOf_some hc]⟩
  · rintro ⟨k, hk, hroll⟩
    obtain rfl := entryOf_some hroll
    exact ⟨⟨k, hk, rfl⟩, by rw [rollUp_entryOf k, hroll]; rfl⟩

theorem length_entriesOf {keys : List Str} (hsorted : keys.Pairwise (· < ·)) :
    (entriesOf pre delimiter keys).length =
      (plainKeys pre delimiter keys).length + (prefixesOf pre delimiter keys).length := by
  rw [← plainKeys_entriesOf hsorted, ← filter_entriesOf keys, plainKeys, Nat.add_comm]
  simp only [← Option.not_isSome]
  exact List.length_eq_length_filter_add _

/-- A page shows the first entries of what there is to list, and where it breaks off a new
entry begins. -/
theorem IsPage.entries {maxKeys : Nat} {pg : Page} {part rest : List Str}
    (h : IsPage pre delimiter maxKeys pg part rest)
    (hsorted : (part ++ rest).Pairwise (· < ·)) :
    seenOn pg.chosen pg.common = entriesOf pre delimiter part ∧
    (∀ t ∈ rest.head?, entryOf pre delimiter t ∉ entriesOf pre delimiter part) ∧
    (rest = [] → (entriesOf pre delimiter part).length ≤ maxKeys) ∧
    (rest ≠ [] → (entriesOf pre delimiter part).length = maxKeys) := by
  obtain ⟨hpart, -, hacross⟩ := List.pairwise_append.1 hsorted
  have hlen : (entriesOf pre delimiter part).length = (plainKeys pre delimiter part).length +
      (prefixesOf pre delimiter part).length := length_entriesOf hpart
  have hfits := h.fits
  rw [h.chosen, h.common, ← hlen] at hfits
  refine ⟨by rw [h.chosen, h.common, seenOn_page], fun t ht hmem => ?_, fun _ => hfits,
    fun hne => ?_⟩
  · obtain ⟨k, hk, heq⟩ := mem_entriesOf.1 hmem
    have hkt := hacross k hk t (List.mem_of_mem_head? ht)
    have hroll := rollUp_of_entryOf_eq hkt heq
    refine h.fresh t ht _ hroll ?_
    rw [h.common, mem_prefixesOf]
    refine ⟨k, hk, ?_⟩
    rw [← rollUp_entryOf k, heq, rollUp_entryOf t, hroll, heq]
  · have hfull := h.full hne
    rw [h.chosen, h.common, ← hlen] at hfull
    omega

end

/-! ## Pages under altered tokens -/

section

variable {pre : Str} {delimiter : Option Str} {keys : List Str} {maxKeys : Nat}
  {P : Type} {page : Option Str → Except S3Error P} {next : P → Option Str}
  {keysOn prefixesOn : P → List Str} {alter : Str → Str}

/-- A listing that pages over keys from a token on, and whose tokens are altered. -/
structure PagesOver (keys : List Str) (pre : Str) (delimiter : Option Str) (maxKeys : Nat)
    (alter : Str → Str) (page : Option Str → Except S3Error P) (next : P → Option Str)
    (keysOn prefixesOn : P → List Str) : Prop where
  sorted : keys.Pairwise (· < ·)
  named : ∀ k ∈ keys, pre <+: k
  answers : ∀ token, ∃ p, page token = .ok p
  shows : ∀ token p, page token = .ok p → ∃ part rest pg, fromToken token keys = part ++ rest ∧
    IsPage pre delimiter maxKeys pg part rest ∧ keysOn p = pg.chosen ∧
    prefixesOn p = pg.common ∧ next p = rest.head?.map alter

/-- The `j`-th page break in the order of the entries is kept: from its altered token on
there are the entries there are from the key it falls before. -/
def BreakKept (keys : List Str) (pre : Str) (delimiter : Option Str) (maxKeys : Nat)
    (alter : Str → Str) (j : Nat) : Prop :=
  ∀ part t rest, keys = part ++ t :: rest →
    entryOf pre delimiter t ∉ entriesOf pre delimiter part →
    (entriesOf pre delimiter part).length = j * maxKeys →
    entriesOf pre delimiter (fromToken (some (alter t)) keys) =
      entriesOf pre delimiter (t :: rest)

/-- Where an entry begins, and how many come before, settles a cut. -/
theorem cut_unique {part part' rest rest' : List Str} {t t' : Str}
    (hsorted : keys.Pairwise (· < ·)) (hpre : ∀ k ∈ keys, pre <+: k)
    (h : keys = part ++ t :: rest) (h' : keys = part' ++ t' :: rest')
    (hfresh : entryOf pre delimiter t ∉ entriesOf pre delimiter part)
    (hfresh' : entryOf pre delimiter t' ∉ entriesOf pre delimiter part')
    (hlen : (entriesOf pre delimiter part).length = (entriesOf pre delimiter part').length) :
    part = part' ∧ t = t' ∧ rest = rest' := by
  have hcut := entriesOf_append delimiter (h ▸ hsorted) (h ▸ hpre)
    (by rintro _ ⟨⟩; exact hfresh)
  have hcut' := entriesOf_append delimiter (h' ▸ hsorted) (h' ▸ hpre)
    (by rintro _ ⟨⟩; exact hfresh')
  rw [← h] at hcut
  rw [← h', hcut] at hcut'
  obtain ⟨hparts, -⟩ := List.append_inj hcut' hlen
  rw [h] at h'
  rcases List.append_eq_append_iff.1 h' with ⟨x, rfl, hx⟩ | ⟨x, rfl, hx⟩
  · cases x with
    | nil =>
        rw [List.nil_append, List.cons.injEq] at hx
        exact ⟨(List.append_nil _).symm, hx.1, hx.2⟩
    | cons y x =>
        obtain ⟨rfl, -⟩ := List.cons.inj hx
        exact absurd (hparts ▸ mem_entriesOf.2
          ⟨t, List.mem_append_right _ List.mem_cons_self, rfl⟩) hfresh
  · cases x with
    | nil =>
        rw [List.nil_append, List.cons.injEq] at hx
        exact ⟨List.append_nil _, hx.1.symm, hx.2.symm⟩
    | cons y x =>
        obtain ⟨rfl, -⟩ := List.cons.inj hx
        exact absurd (hparts ▸ mem_entriesOf.2
          ⟨t', List.mem_append_right _ List.mem_cons_self, rfl⟩) hfresh'

/-- What there is from a token on is an end of the keys. -/
theorem fromToken_suffix (token : Option Str) :
    ∀ {ks : List Str}, ks.Pairwise (· < ·) → ∃ before, ks = before ++ fromToken token ks := by
  intro ks
  induction ks with
  | nil => exact fun _ => ⟨[], rfl⟩
  | cons k ks ih =>
      intro hsorted
      obtain ⟨hk, hks⟩ := List.pairwise_cons.1 hsorted
      cases hpass : token.any fun t => decide (k < t) with
      | true =>
          obtain ⟨before, hbefore⟩ := ih hks
          refine ⟨k :: before, ?_⟩
          rw [fromToken, List.filter_cons_of_neg (by simp only [hpass]; simp), List.cons_append]
          exact congrArg _ hbefore
      | false =>
          refine ⟨[], ?_⟩
          rw [List.nil_append, fromToken, eq_comm, List.filter_eq_self]
          intro x hx
          cases token with
          | none => rfl
          | some t =>
              have htk : t ≤ k := by simpa using hpass
              rcases List.mem_cons.1 hx with rfl | hx
              · simpa using htk
              · simpa using le_trans htk (le_of_lt (hk x hx))

namespace PagesOver

/-- What is seen on a page. -/
def seen (keysOn prefixesOn : P → List Str) (p : P) : List Str :=
  seenOn (keysOn p) (prefixesOn p)

/-- A page shows the first of the entries from its token on, and the token it names is that
of the key before which it breaks off. -/
theorem page_step (H : PagesOver keys pre delimiter maxKeys alter page next keysOn prefixesOn)
    {token : Option Str} {p : P} (hp : page token = .ok p) :
    seen keysOn prefixesOn p = (entriesOf pre delimiter (fromToken token keys)).take maxKeys ∧
    keysOn p = plainKeys pre delimiter (seen keysOn prefixesOn p) ∧
    prefixesOn p =
      (seen keysOn prefixesOn p).filter (fun e => (rollUp pre delimiter e).isSome) ∧
    (next p = none → (entriesOf pre delimiter (fromToken token keys)).length ≤ maxKeys) ∧
    ∀ t', next p = some t' → ∃ part t rest, fromToken token keys = part ++ t :: rest ∧
      t' = alter t ∧ entryOf pre delimiter t ∉ entriesOf pre delimiter part ∧
      (entriesOf pre delimiter part).length = maxKeys := by
  obtain ⟨part, rest, pg, hsplit, hpage, hkeys, hprefixes, hnext⟩ := H.shows token p hp
  have hsorted : (part ++ rest).Pairwise (· < ·) := hsplit ▸ H.sorted.filter _
  have hnamed : ∀ k ∈ part ++ rest, pre <+: k := fun k hk =>
    H.named k (List.mem_of_mem_filter (hsplit ▸ hk))
  obtain ⟨hseen, hfresh, hfits, hfull⟩ := hpage.entries hsorted
  have hseen : seen keysOn prefixesOn p = entriesOf pre delimiter part := by
    rw [seen, hkeys, hprefixes, hseen]
  have hcut := entriesOf_append delimiter hsorted hnamed hfresh
  have hpart := (List.pairwise_append.1 hsorted).1
  refine ⟨?_, ?_, ?_, fun hnone => ?_, fun t' ht' => ?_⟩
  · rw [hseen, hsplit, hcut]
    cases rest with
    | nil =>
        show _ = List.take maxKeys (_ ++ [])
        rw [List.append_nil, List.take_of_length_le (hfits rfl)]
    | cons t rest => rw [← hfull (List.cons_ne_nil _ _), List.take_left]
  · rw [hseen, plainKeys_entriesOf hpart, hkeys, hpage.chosen]
  · rw [hseen, filter_entriesOf, hprefixes, hpage.common]
  · cases rest with
    | nil =>
        rw [hsplit, List.append_nil]
        exact hfits rfl
    | cons t rest =>
        rw [hnext] at hnone
        cases hnone
  · cases rest with
    | nil =>
        rw [hnext] at ht'
        cases ht'
    | cons t rest =>
        rw [hnext] at ht'
        exact ⟨part, t, rest, hsplit, (Option.some.inj ht').symm, hfresh t rfl,
          hfull (List.cons_ne_nil _ _)⟩

/-- After whole pages, the next break is the next in the order of the entries. -/
theorem next_break (H : PagesOver keys pre delimiter maxKeys alter page next keysOn prefixesOn)
    (hmax : 1 ≤ maxKeys) {token : Option Str} {p : P} (hp : page token = .ok p) {i : Nat}
    (hi : entriesOf pre delimiter (fromToken token keys) =
      (entriesOf pre delimiter keys).drop (i * maxKeys)) {t' : Str} (hnext : next p = some t') :
    ∃ part t rest, keys = part ++ t :: rest ∧ t' = alter t ∧
      entryOf pre delimiter t ∉ entriesOf pre delimiter part ∧
      (entriesOf pre delimiter part).length = (i + 1) * maxKeys ∧
      entriesOf pre delimiter (t :: rest) =
        (entriesOf pre delimiter keys).drop ((i + 1) * maxKeys) := by
  obtain ⟨-, -, -, -, hmore⟩ := H.page_step hp
  obtain ⟨part, t, rest, hsplit, rfl, hfresh, hlen⟩ := hmore t' hnext
  obtain ⟨before, hbefore⟩ := fromToken_suffix token H.sorted
  rw [hsplit, ← List.append_assoc] at hbefore
  have hnamed := H.named
  have hsorted := H.sorted
  rw [hbefore] at hnamed hsorted
  obtain ⟨hsorted', -, hacross⟩ := List.pairwise_append.1 hsorted
  have ht := hnamed t (List.mem_append_right _ List.mem_cons_self)
  have hfresh' : entryOf pre delimiter t ∉ entriesOf pre delimiter (before ++ part) := by
    intro hmem
    obtain ⟨k, hk, heq⟩ := mem_entriesOf.1 hmem
    rcases List.mem_append.1 hk with hkb | hkp
    · -- a key of the page stands between the two
      obtain ⟨e, he⟩ : ∃ e, e ∈ entriesOf pre delimiter part :=
        List.exists_mem_of_length_pos (by omega)
      obtain ⟨q, hq, -⟩ := mem_entriesOf.1 he
      have hqm := List.mem_append_right before hq
      have hbetween := entryOf_between (hnamed k (List.mem_append_left _ hk))
        (hnamed q (List.mem_append_left _ hqm)) ht
        (le_of_lt ((List.pairwise_append.1 hsorted').2.2 k hkb q hq))
        (le_of_lt (hacross q hqm t List.mem_cons_self)) heq
      exact hfresh (mem_entriesOf.2 ⟨q, hq, hbetween.trans heq⟩)
    · exact hfresh (mem_entriesOf.2 ⟨k, hkp, heq⟩)
  have hcut := entriesOf_append delimiter hsorted hnamed
    (by rintro _ ⟨⟩; exact hfresh')
  have hnamedL : ∀ k ∈ part ++ t :: rest, pre <+: k := fun k hk =>
    H.named k (List.mem_of_mem_filter (hsplit ▸ hk))
  have hcutL := entriesOf_append delimiter (hsplit ▸ H.sorted.filter _) hnamedL
    (by rintro _ ⟨⟩; exact hfresh)
  rw [← hsplit, hi] at hcutL
  rw [← hbefore] at hcut
  have hlenL := congrArg List.length hcutL
  have hlenK := congrArg List.length hcut
  rw [List.length_drop, List.length_append, hlen] at hlenL
  rw [List.length_append] at hlenK
  have hpos : 0 < (entriesOf pre delimiter (t :: rest)).length :=
    List.length_pos_of_mem (mem_entriesOf.2 ⟨t, List.mem_cons_self, rfl⟩)
  have hcount : (entriesOf pre delimiter (before ++ part)).length = (i + 1) * maxKeys := by
    rw [Nat.succ_mul]
    omega
  exact ⟨before ++ part, t, rest, hbefore, rfl, hfresh', hcount,
    by rw [hcut, ← hcount, List.drop_left]⟩

/-- Pages begin with the first entry from their token on. -/
theorem head_seen (H : PagesOver keys pre delimiter maxKeys alter page next keysOn prefixesOn)
    (hmax : 1 ≤ maxKeys) {token : Option Str} {ps : List P}
    (h : Followed page (fun p => (next p).map some) token ps) :
    (ps.flatMap (seen keysOn prefixesOn)).head? =
      (entriesOf pre delimiter (fromToken token keys)).head? := by
  obtain ⟨m, rfl⟩ := Nat.exists_eq_add_of_le hmax
  have htake : ∀ l : List Str, (l.take (1 + m)).head? = l.head? := by
    intro l
    cases l with
    | nil => rw [List.take_nil]
    | cons a l => rw [Nat.add_comm, List.take_succ_cons]; rfl
  cases h with
  | last hp hnext =>
      rw [List.flatMap_singleton, (H.page_step hp).1, htake]
  | more hp hnext hrest =>
      obtain ⟨hseen, -, -, -, hmore⟩ := H.page_step hp
      obtain ⟨t', ht', -⟩ := Option.map_eq_some_iff.1 hnext
      obtain ⟨part, t, rest, hsplit, -, -, -⟩ := hmore t' ht'
      have hne : entriesOf pre delimiter (fromToken token keys) ≠ [] :=
        List.ne_nil_of_mem (mem_entriesOf.2
          ⟨t, hsplit ▸ List.mem_append_right _ List.mem_cons_self, rfl⟩)
      rw [List.flatMap_cons, hseen, List.head?_append_of_ne_nil _ ?_, htake]
      intro hnil
      have hhead := htake (entriesOf pre delimiter (fromToken token keys))
      rw [hnil] at hhead
      exact hne (List.head?_eq_none_iff.1 hhead.symm)

/-- An end of the keys that begins with the entry of `t` has the entries from `t` on. -/
theorem entries_of_head {part rest ks : List Str} {t : Str} (hsorted : keys.Pairwise (· < ·))
    (hpre : ∀ k ∈ keys, pre <+: k) (h : keys = part ++ t :: rest)
    (hfresh : entryOf pre delimiter t ∉ entriesOf pre delimiter part)
    (hks : ∃ before, keys = before ++ ks)
    (hhead : (entriesOf pre delimiter ks).head? = some (entryOf pre delimiter t)) :
    entriesOf pre delimiter ks = entriesOf pre delimiter (t :: rest) := by
  obtain ⟨before, hbefore⟩ := hks
  have hsortedks : ks.Pairwise (· < ·) :=
    (List.pairwise_append.1 (hbefore ▸ hsorted)).2.1
  have hpreks : ∀ k ∈ ks, pre <+: k := fun k hk =>
    hpre k (hbefore ▸ List.mem_append_right _ hk)
  obtain ⟨k₀, more, rfl⟩ : ∃ k₀ more, ks = k₀ :: more := by
    cases ks with
    | nil => cases hhead
    | cons k₀ more => exact ⟨k₀, more, rfl⟩
  rw [entriesOf_head hsortedks hpreks, Option.some.injEq] at hhead
  have hboth := h.symm.trans hbefore
  rcases List.append_eq_append_iff.1 hboth with ⟨y, hy, hyt⟩ | ⟨y, hy, hyt⟩
  · -- the keys passed over are of the entry of `t`
    have htail : (y ++ k₀ :: more).Pairwise (· < ·) :=
      hyt ▸ (List.pairwise_append.1 (h ▸ hsorted)).2.1
    have hpretail : ∀ k ∈ y ++ k₀ :: more, pre <+: k := fun k hk =>
      hpre k (h ▸ List.mem_append_right _ (hyt ▸ hk))
    refine eq_of_sorted (entriesOf_sorted _) (entriesOf_sorted _) fun e => ?_
    rw [hyt, mem_entriesOf, mem_entriesOf]
    constructor
    · rintro ⟨k, hk, rfl⟩
      exact ⟨k, List.mem_append_right _ hk, rfl⟩
    · rintro ⟨k, hk, rfl⟩
      rcases List.mem_append.1 hk with hky | hk
      · have hkk₀ := (List.pairwise_append.1 htail).2.2 k hky k₀ List.mem_cons_self
        have htk : t ≤ k := by
          have hmem : k ∈ t :: rest := hyt ▸ hk
          rcases List.mem_cons.1 hmem with rfl | hmem
          · exact le_refl _
          · exact le_of_lt ((List.pairwise_cons.1
              (List.pairwise_append.1 (h ▸ hsorted)).2.1).1 k hmem)
        have ht : pre <+: t := hpre t (h ▸ List.mem_append_right _ List.mem_cons_self)
        refine ⟨k₀, List.mem_cons_self, ?_⟩
        rw [hhead, entryOf_between ht (hpretail k hk) (hpreks k₀ List.mem_cons_self) htk
          (le_of_lt hkk₀) hhead.symm]
      · exact ⟨k, hk, rfl⟩
  · cases y with
    | nil => rw [hyt, List.nil_append]
    | cons y₀ y =>
        -- the first key would stand before `t` with its entry
        rw [List.cons_append, List.cons.injEq] at hyt
        refine absurd (mem_entriesOf.2 ⟨k₀, ?_, hhead⟩) hfresh
        rw [hy, hyt.1]
        exact List.mem_append_right _ List.mem_cons_self

/-- From a token after whole pages, the entries seen are those left in order just when all
breaks to come are kept. -/
theorem seen_iff (H : PagesOver keys pre delimiter maxKeys alter page next keysOn prefixesOn)
    (hmax : 1 ≤ maxKeys) {token : Option Str} {ps : List P}
    (h : Followed page (fun p => (next p).map some) token ps) :
    ∀ i, entriesOf pre delimiter (fromToken token keys) =
        (entriesOf pre delimiter keys).drop (i * maxKeys) →
      (ps.flatMap (seen keysOn prefixesOn) =
          (entriesOf pre delimiter keys).drop (i * maxKeys) ↔
        ∀ j, i < j → BreakKept keys pre delimiter maxKeys alter j) := by
  induction h with
  | @last token p hp hnext =>
      intro i hi
      obtain ⟨hseen, -, -, hend, -⟩ := H.page_step hp
      have hfits := hend (Option.map_eq_none_iff.1 hnext)
      rw [List.flatMap_singleton, hseen, List.take_of_length_le hfits]
      refine iff_of_true hi fun j hj part t rest hsplit hfresh hlen => ?_
      -- there are not enough entries for another break
      have hcut := entriesOf_append delimiter (hsplit ▸ H.sorted) (hsplit ▸ H.named)
        (by rintro _ ⟨⟩; exact hfresh)
      rw [← hsplit] at hcut
      have hpos : 0 < (entriesOf pre delimiter (t :: rest)).length :=
        List.length_pos_of_mem (mem_entriesOf.2 ⟨t, List.mem_cons_self, rfl⟩)
      have hall := congrArg List.length hcut
      have hmul := Nat.mul_le_mul_right maxKeys (Nat.succ_le_of_lt hj)
      rw [List.length_append] at hall
      rw [hi, List.length_drop] at hfits
      rw [Nat.succ_mul] at hmul
      omega
  | @more token token' p ps hp hnext hrest ih =>
      intro i hi
      obtain ⟨t', ht', rfl⟩ := Option.map_eq_some_iff.1 hnext
      obtain ⟨part, t, rest, hsplit, rfl, hfresh, hlen, hleft⟩ := H.next_break hmax hp hi ht'
      have hseen := (H.page_step hp).1
      rw [hi] at hseen
      have hsteps : (entriesOf pre delimiter keys).drop (i * maxKeys) =
          seen keysOn prefixesOn p ++
            (entriesOf pre delimiter keys).drop ((i + 1) * maxKeys) := by
        rw [hseen, Nat.succ_mul, ← List.drop_drop, List.take_append_drop]
      have hkept : BreakKept keys pre delimiter maxKeys alter (i + 1) ↔
          entriesOf pre delimiter (fromToken (some (alter t)) keys) =
            entriesOf pre delimiter (t :: rest) := by
        refine ⟨fun h => h part t rest hsplit hfresh hlen, ?_⟩
        intro h part' t' rest' hsplit' hfresh' hlen'
        obtain ⟨rfl, rfl, rfl⟩ := cut_unique H.sorted H.named hsplit hsplit' hfresh hfresh'
          (hlen.trans hlen'.symm)
        exact h
      rw [List.flatMap_cons, hsteps, List.append_cancel_left_eq]
      constructor
      · intro htotal
        have hhead := H.head_seen hmax hrest
        rw [htotal, ← hleft, entriesOf_head (List.pairwise_append.1 (hsplit ▸ H.sorted)).2.1
          fun k hk => H.named k (hsplit ▸ List.mem_append_right _ hk)] at hhead
        have hsame := entries_of_head H.sorted H.named hsplit hfresh
          (fromToken_suffix (some (alter t)) H.sorted) hhead.symm
        have hafter := (ih (i + 1) (hsame.trans hleft)).1 htotal
        intro j hj
        rcases Nat.eq_or_lt_of_le hj with rfl | hj
        · exact hkept.2 hsame
        · exact hafter j hj
      · intro hall
        have hsame := hkept.1 (hall (i + 1) (Nat.lt_succ_self i))
        exact (ih (i + 1) (hsame.trans hleft)).2 fun j hj => hall j (Nat.lt_of_succ_lt hj)

end PagesOver

/-- Pages that show what there is to list, once and in order. -/
structure PagesInOrder (keys : List Str) (pre : Str) (delimiter : Option Str)
    (page : Option Str → Except S3Error P) (next : P → Option Str)
    (keysOn prefixesOn : P → List Str) (pages : List P) : Prop where
  followed : Followed page (fun p => (next p).map some) none pages
  keysOnce : pages.flatMap keysOn = plainKeys pre delimiter keys
  prefixesOnce : pages.flatMap prefixesOn = prefixesOf pre delimiter keys
  ordered : pages.flatMap (PagesOver.seen keysOn prefixesOn) = entriesOf pre delimiter keys

/-- Under altered tokens the pages show what there is once and in order just when every
break is kept. -/
theorem PagesOver.inOrder_iff
    (H : PagesOver keys pre delimiter maxKeys alter page next keysOn prefixesOn)
    (hmax : 1 ≤ maxKeys) :
    (∃ pages, PagesInOrder keys pre delimiter page next keysOn prefixesOn pages) ↔
      ∀ j, 1 ≤ j → BreakKept keys pre delimiter maxKeys alter j := by
  have hnone : fromToken none keys = keys := List.filter_eq_self.2 fun _ _ => rfl
  have hstart : entriesOf pre delimiter (fromToken none keys) =
      (entriesOf pre delimiter keys).drop (0 * maxKeys) := by
    rw [hnone, Nat.zero_mul, List.drop_zero]
  have hdrop : (entriesOf pre delimiter keys).drop (0 * maxKeys) =
      entriesOf pre delimiter keys := by rw [Nat.zero_mul, List.drop_zero]
  constructor
  · rintro ⟨pages, hpages⟩
    exact (H.seen_iff hmax hpages.followed 0 hstart).1 (hpages.ordered.trans hdrop.symm)
  · intro hall
    -- with every break kept, each page leaves fewer entries
    obtain ⟨pages, hpages⟩ : ∃ pages,
        Followed page (fun p => (next p).map some) none pages := by
      refine Followed.total (fun token => ∃ i, entriesOf pre delimiter (fromToken token keys) =
          (entriesOf pre delimiter keys).drop (i * maxKeys))
        (fun token => (entriesOf pre delimiter (fromToken token keys)).length) ?_ ⟨0, hstart⟩
      rintro token ⟨i, hi⟩
      obtain ⟨p, hp⟩ := H.answers token
      refine ⟨p, hp, fun token' hnext => ?_⟩
      obtain ⟨t', ht', rfl⟩ := Option.map_eq_some_iff.1 hnext
      obtain ⟨part, t, rest, hsplit, rfl, hfresh, hlen, hleft⟩ := H.next_break hmax hp hi ht'
      have hsame := hall (i + 1) (Nat.succ_le_succ (Nat.zero_le i)) part t rest hsplit hfresh hlen
      refine ⟨⟨i + 1, hsame.trans hleft⟩, ?_⟩
      have hpos : 0 < (entriesOf pre delimiter (t :: rest)).length :=
        List.length_pos_of_mem (mem_entriesOf.2 ⟨t, List.mem_cons_self, rfl⟩)
      rw [hsame, hi, hleft]
      rw [hleft] at hpos
      rw [List.length_drop, List.length_drop, Nat.succ_mul] at *
      omega
    have hordered := (H.seen_iff hmax hpages 0 hstart).2 hall
    rw [hdrop] at hordered
    have hkeys : pages.flatMap keysOn =
        plainKeys pre delimiter (pages.flatMap (seen keysOn prefixesOn)) := by
      have hmem := hpages.forall_mem (fun _ => True)
        (fun token p _ hp => ⟨(H.page_step hp).2.1, fun _ _ => trivial⟩) trivial
      rw [plainKeys, List.filter_flatMap]
      exact List.flatMap_congr hmem
    have hprefixes : pages.flatMap prefixesOn = (pages.flatMap (seen keysOn prefixesOn)).filter
        fun e => (rollUp pre delimiter e).isSome := by
      have hmem := hpages.forall_mem (fun _ => True)
        (fun token p _ hp => ⟨(H.page_step hp).2.2.1, fun _ _ => trivial⟩) trivial
      rw [List.filter_flatMap]
      exact List.flatMap_congr hmem
    refine ⟨pages, hpages, ?_, ?_, hordered⟩
    · rw [hkeys, hordered, plainKeys_entriesOf H.sorted]
    · rw [hprefixes, hordered, filter_entriesOf]

theorem breakKept_id (hsorted : keys.Pairwise (· < ·)) (j : Nat) :
    BreakKept keys pre delimiter maxKeys id j := by
  intro part t rest hsplit hfresh hlen
  have hnone : fromToken none keys = part ++ t :: rest :=
    (List.filter_eq_self.2 fun _ _ => rfl).trans hsplit
  rw [id, fromToken_rest hsorted hnone]

end

end Kerplace
