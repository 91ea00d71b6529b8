/-
# `Kerplace.Storage.Paging` — the key loop of the listings

Both stores page over sorted keys with one loop.  A key with the delimiter after the
listing's prefix is rolled up: the keys of one common prefix stand together in the order,
since they are the keys that begin with it.  So where the loop breaks off, it breaks off
before a key that neither is listed nor belongs to a common prefix that is.
-/
import Kerplace.Erasure.Listing
import Kerplace.Lib.Cursor

namespace Kerplace

/-! ## The order of texts -/

theorem cons_le_cons {a b : Char} {s t : Str} :
    a :: s ≤ b :: t ↔ a < b ∨ (a = b ∧ s ≤ t) := by
  rw [← not_lt, List.cons_lt_cons_iff]
  constructor
  · intro h
    rw [not_or] at h
    rcases lt_or_eq_of_le (not_lt.1 h.1) with hlt | rfl
    · exact .inl hlt
    · exact .inr ⟨rfl, not_lt.1 fun hc => h.2 ⟨rfl, hc⟩⟩
  · rintro (h | ⟨rfl, h⟩) (hlt | ⟨heq, hlt⟩)
    · exact lt_asymm h hlt
    · exact lt_irrefl b (heq ▸ h)
    · exact lt_irrefl a hlt
    · exact not_lt.2 h hlt

/-- What lies between two texts that begin alike begins so too. -/
theorem prefix_of_between {c k t k' : Str} (hk : c <+: k) (hk' : c <+: k') (h : k ≤ t)
    (h' : t ≤ k') : c <+: t := by
  induction c generalizing k t k' with
  | nil => exact List.nil_prefix
  | cons a c ih =>
      obtain ⟨x, rfl⟩ := hk
      obtain ⟨y, rfl⟩ := hk'
      rw [List.cons_append] at h h'
      cases t with
      | nil => exact absurd (not_lt.2 h) (not_not.2 (List.nil_lt_cons a _))
      | cons b t =>
          rw [cons_le_cons] at h h'
          have hab : a = b := by
            rcases h with hlt | ⟨heq, -⟩
            · rcases h' with hlt' | ⟨heq', -⟩
              · exact absurd (Std.Asymm.asymm _ _ hlt hlt') id
              · exact heq'.symm
            · exact heq
          subst hab
          have hirr : ¬ a < a := fun hlt => Std.Asymm.asymm _ _ hlt hlt
          refine List.cons_prefix_cons.2 ⟨rfl, ih (List.prefix_append c x)
            (List.prefix_append c y) (h.resolve_left hirr).2 (h'.resolve_left hirr).2⟩

/-- Of two texts neither of which begins with the other, what begins with the smaller is
the smaller. -/
theorem lt_of_prefixes {c c' k k' : Str} (hk : c <+: k) (hk' : c' <+: k') (h : k < k')
    (hcc : ¬ c <+: c') (hcc' : ¬ c' <+: c) : c < c' := by
  induction c generalizing c' k k' with
  | nil => exact absurd List.nil_prefix hcc
  | cons a c ih =>
      cases c' with
      | nil => exact absurd List.nil_prefix hcc'
      | cons b c' =>
          obtain ⟨x, rfl⟩ := hk
          obtain ⟨y, rfl⟩ := hk'
          rw [List.cons_append, List.cons_append, List.cons_lt_cons_iff] at h
          rw [List.cons_lt_cons_iff]
          rcases h with hlt | ⟨rfl, hlt⟩
          · exact .inl hlt
          · rw [List.cons_prefix_cons] at hcc hcc'
            exact .inr ⟨rfl, ih (List.prefix_append c x) (List.prefix_append c' y) hlt
              (fun hp => hcc ⟨rfl, hp⟩) fun hp => hcc' ⟨rfl, hp⟩⟩

/-! ## The first occurrence of a delimiter -/

theorem findStr_some {d : Str} :
    ∀ {s : Str} {i : Nat}, findStr d s = some i ↔
      i ≤ s.length ∧ d <+: s.drop i ∧ ∀ j, j < i → ¬ d <+: s.drop j := by
  intro s
  induction s with
  | nil =>
      intro i
      unfold findStr
      constructor
      · intro h
        split at h
        · rename_i hd
          obtain rfl := Option.some.inj h
          exact ⟨le_rfl, by simp [hd], fun j hj => absurd hj (Nat.not_lt_zero j)⟩
        · cases h
      · rintro ⟨hi, hd, -⟩
        obtain rfl : i = 0 := Nat.le_zero.1 hi
        rw [if_pos (List.prefix_nil.1 hd)]
  | cons c s ih =>
      intro i
      unfold findStr
      split
      · rename_i hp
        have hp := List.isPrefixOf_iff_prefix.1 hp
        constructor
        · intro h
          obtain rfl := Option.some.inj h
          exact ⟨Nat.zero_le _, hp, fun j hj => absurd hj (Nat.not_lt_zero j)⟩
        · rintro ⟨-, -, hfirst⟩
          cases i with
          | zero => rfl
          | succ i => exact absurd hp (hfirst 0 (Nat.succ_pos i))
      · rename_i hp
        rw [Option.map_eq_some_iff]
        constructor
        · rintro ⟨i, hi, rfl⟩
          obtain ⟨hle, hd, hfirst⟩ := ih.1 hi
          refine ⟨Nat.succ_le_succ hle, hd, fun j hj hpre => ?_⟩
          cases j with
          | zero => exact hp (List.isPrefixOf_iff_prefix.2 hpre)
          | succ j => exact hfirst j (Nat.lt_of_succ_lt_succ hj) hpre
        · rintro ⟨hle, hd, hfirst⟩
          cases i with
          | zero => exact absurd (List.isPrefixOf_iff_prefix.2 hd) hp
          | succ i =>
              exact ⟨i, ih.2 ⟨Nat.le_of_succ_le_succ hle, hd,
                fun j hj => hfirst (j + 1) (Nat.succ_lt_succ hj)⟩, rfl⟩

/-- Where the delimiter first occurs is settled by the text up to its end. -/
theorem findStr_append {d s s' : Str} {i : Nat} (h : findStr d s = some i)
    (hs : s.take i ++ d <+: s') : findStr d s' = some i ∧ s'.take i = s.take i := by
  obtain ⟨hle, ⟨tail, htail⟩, hfirst⟩ := findStr_some.1 h
  obtain ⟨tail', rfl⟩ := hs
  have hlen : (s.take i).length = i := List.length_take_of_le hle
  have hsplit : s = s.take i ++ d ++ tail := by
    rw [List.append_assoc, htail, List.take_append_drop]
  constructor
  · rw [findStr_some]
    refine ⟨by simp only [List.length_append, hlen]; omega, ?_, ?_⟩
    · rw [List.append_assoc, List.drop_left' hlen]
      exact List.prefix_append d tail'
    · intro j hj hpre
      refine hfirst j hj ?_
      -- an earlier occurrence would lie in the part the two texts share
      have hdrop : ∀ t : Str, (s.take i ++ d ++ t).drop j = (s.take i).drop j ++ d ++ t := by
        intro t
        rw [List.append_assoc, List.append_assoc,
          List.drop_append_of_le_length (by omega)]
      rw [hdrop] at hpre
      rw [hsplit, hdrop]
      refine (List.prefix_of_prefix_length_le hpre
        (List.prefix_append _ _) ?_).trans (List.prefix_append _ _)
      rw [List.length_append]
      omega
  · rw [List.append_assoc, List.take_left' hlen]

/-! ## Rolling up -/

section

variable {pre : Str} {delimiter : Option Str}

theorem rollUp_some {key c : Str} :
    rollUp pre delimiter key = some c ↔ ∃ d, delimiter = some d ∧ d ≠ [] ∧
      ∃ i, findStr d (key.drop pre.length) = some i ∧
        c = pre ++ (key.drop pre.length).take i ++ d := by
  unfold rollUp
  cases delimiter with
  | none => simp
  | some d =>
      by_cases hd : d = []
      · subst hd
        simp [Option.filter]
      · simp only [Option.filter_some, ne_eq, hd, not_false_eq_true, decide_true, if_true,
          Option.map_eq_some_iff, Option.some.injEq]
        constructor
        · rintro ⟨i, hi, rfl⟩
          exact ⟨d, rfl, hd, i, hi, rfl⟩
        · rintro ⟨d', rfl, -, i, hi, rfl⟩
          exact ⟨i, hi, rfl⟩

theorem prefix_of_rollUp {key c : Str} (hpre : pre <+: key)
    (h : rollUp pre delimiter key = some c) : c <+: key := by
  obtain ⟨d, -, -, i, hi, rfl⟩ := rollUp_some.1 h
  obtain ⟨rest, rfl⟩ := hpre
  obtain ⟨hle, ⟨tail, htail⟩, -⟩ := findStr_some.1 hi
  rw [List.drop_left] at *
  refine ⟨tail, ?_⟩
  rw [List.append_assoc, List.append_assoc, htail, List.take_append_drop]

theorem rollUp_of_begins {key key' c : Str} (h : rollUp pre delimiter key = some c)
    (hc : c <+: key') : rollUp pre delimiter key' = some c := by
  obtain ⟨d, hdel, hd, i, hi, rfl⟩ := rollUp_some.1 h
  obtain ⟨tail, rfl⟩ := hc
  have hdrop : (pre ++ (key.drop pre.length).take i ++ d ++ tail).drop pre.length =
      (key.drop pre.length).take i ++ d ++ tail := by
    rw [List.append_assoc, List.append_assoc, List.drop_left, List.append_assoc]
  obtain ⟨hfind, htake⟩ := findStr_append hi
    (List.prefix_append ((key.drop pre.length).take i ++ d) tail)
  refine rollUp_some.2 ⟨d, hdel, hd, i, ?_, ?_⟩
  · rw [hdrop]
    exact hfind
  · rw [hdrop, htake]

theorem rollUp_lt {k k' c c' : Str} (hk : pre <+: k) (hk' : pre <+: k') (hlt : k < k')
    (h : rollUp pre delimiter k = some c) (h' : rollUp pre delimiter k' = some c')
    (hne : c ≠ c') : c < c' := by
  have hc := prefix_of_rollUp hk h
  have hc' := prefix_of_rollUp hk' h'
  refine lt_of_prefixes hc hc' hlt (fun hp => hne ?_) fun hp => hne ?_
  · exact Option.some.inj ((rollUp_of_begins h (hp.trans hc')).symm.trans h')
  · exact Option.some.inj (h.symm.trans (rollUp_of_begins h' (hp.trans hc)))

theorem rollUp_between {k t k' c : Str} (hk : pre <+: k) (hk' : pre <+: k') (h : k ≤ t)
    (h' : t ≤ k') (hc : rollUp pre delimiter k = some c)
    (hc' : rollUp pre delimiter k' = some c) : rollUp pre delimiter t = some c :=
  rollUp_of_begins hc (prefix_of_between (prefix_of_rollUp hk hc) (prefix_of_rollUp hk' hc') h h')

end

/-! ## Sets of texts -/

@[simp] theorem mem_insertKey {k x : Str} {l : List Str} :
    x ∈ insertKey k l ↔ x = k ∨ x ∈ l := by
  induction l with
  | nil => simp [insertKey]
  | cons y l ih =>
      unfold insertKey
      split
      · exact List.mem_cons
      · split
        · rename_i hk
          subst hk
          simp
        · rw [List.mem_cons, ih, List.mem_cons]
          tauto

theorem insertKey_sorted {k : Str} {l : List Str} (h : l.Pairwise (· < ·)) :
    (insertKey k l).Pairwise (· < ·) := by
  induction l with
  | nil => exact List.pairwise_singleton _ _
  | cons y l ih =>
      obtain ⟨hy, hl⟩ := List.pairwise_cons.1 h
      unfold insertKey
      split
      · rename_i hk
        refine List.pairwise_cons.2 ⟨fun x hx => ?_, h⟩
        rcases List.mem_cons.1 hx with rfl | hx
        · exact hk
        · exact List.lt_trans hk (hy x hx)
      · split
        · exact h
        · rename_i hlt hne
          refine List.pairwise_cons.2 ⟨fun x hx => ?_, ih hl⟩
          rcases mem_insertKey.1 hx with rfl | hx
          · exact (Std.lt_trichotomy y x).resolve_right fun h' =>
              h'.elim (fun heq => hne heq.symm) hlt
          · exact hy x hx

theorem insertKey_of_mem {k : Str} {l : List Str} (h : l.Pairwise (· < ·)) (hk : k ∈ l) :
    insertKey k l = l :=
  List.Pairwise.eq_of_mem_iff (insertKey_sorted h) h fun x => by
    rw [mem_insertKey]
    exact or_iff_right_of_imp fun hx => hx ▸ hk

theorem length_insertKey {k : Str} {l : List Str} (hk : k ∉ l) :
    (insertKey k l).length = l.length + 1 := by
  induction l with
  | nil => rfl
  | cons y l ih =>
      rw [List.mem_cons, not_or] at hk
      unfold insertKey
      split
      · rfl
      · rw [if_neg hk.1, List.length_cons, ih hk.2]
        rfl

theorem eq_of_sorted {l l' : List Str} (h : l.Pairwise (· < ·)) (h' : l'.Pairwise (· < ·))
    (hmem : ∀ x, x ∈ l ↔ x ∈ l') : l = l' :=
  List.Pairwise.eq_of_mem_iff h h' hmem

theorem nodup_of_sorted {l : List Str} (h : l.Pairwise (· < ·)) : l.Nodup := by
  refine List.Pairwise.imp ?_ h
  rintro a b hab rfl
  exact List.lt_irrefl a hab

theorem keySet_snoc (ks : List Str) (k : Str) : keySet (ks ++ [k]) = insertKey k (keySet ks) := by
  unfold keySet
  rw [List.foldl_append]
  rfl

@[simp] theorem mem_keySet {ks : List Str} {x : Str} : x ∈ keySet ks ↔ x ∈ ks := by
  induction ks using List.reverseRecOn with
  | nil => rfl
  | append_singleton ks k ih =>
      rw [keySet_snoc, mem_insertKey, ih, List.mem_append, List.mem_singleton]
      tauto

theorem keySet_sorted (ks : List Str) : (keySet ks).Pairwise (· < ·) := by
  induction ks using List.reverseRecOn with
  | nil => exact List.Pairwise.nil
  | append_singleton ks k ih =>
      rw [keySet_snoc]
      exact insertKey_sorted ih

theorem length_keySet_le (ks : List Str) : (keySet ks).length ≤ ks.length := by
  induction ks using List.reverseRecOn with
  | nil => exact le_rfl
  | append_singleton ks k ih =>
      rw [keySet_snoc, List.length_append, List.length_singleton]
      by_cases hk : k ∈ keySet ks
      · rw [insertKey_of_mem (keySet_sorted ks) hk]
        omega
      · rw [length_insertKey hk]
        omega

/-! ## A page -/

section

variable (pre : Str) (delimiter : Option Str)

/-- The keys that are listed themselves. -/
def plainKeys (ks : List Str) : List Str := ks.filter fun k => (rollUp pre delimiter k).isNone

/-- The common prefixes of keys. -/
def prefixesOf (ks : List Str) : List Str := keySet (ks.filterMap (rollUp pre delimiter))

variable {pre delimiter}

theorem plainKeys_append (ks ls : List Str) :
    plainKeys pre delimiter (ks ++ ls) =
      plainKeys pre delimiter ks ++ plainKeys pre delimiter ls := List.filter_append ..

theorem mem_prefixesOf {ks : List Str} {c : Str} :
    c ∈ prefixesOf pre delimiter ks ↔ ∃ k ∈ ks, rollUp pre delimiter k = some c := by
  rw [prefixesOf, mem_keySet, List.mem_filterMap]

/-- What a page took its keys from: it lists or rolls up the first of them and, when there
are more, has room for none and names the next. -/
structure IsPage (pre : Str) (delimiter : Option Str) (maxKeys : Nat) (pg : Page)
    (part rest : List Str) : Prop where
  chosen : pg.chosen = plainKeys pre delimiter part
  common : pg.common = prefixesOf pre delimiter part
  fits : pg.chosen.length + pg.common.length ≤ maxKeys
  truncated : pg.truncated = !rest.isEmpty
  next : pg.next = rest.head?
  full : rest ≠ [] → maxKeys ≤ pg.chosen.length + pg.common.length
  fresh : ∀ t ∈ rest.head?, ∀ c, rollUp pre delimiter t = some c → c ∉ pg.common

/-- What paging has gathered when it has been through some keys. -/
def pageAfter (pre : Str) (delimiter : Option Str) (done : List Str) : Page :=
  ⟨prefixesOf pre delimiter done, plainKeys pre delimiter done,
    (plainKeys pre delimiter done).length + (prefixesOf pre delimiter done).length, false, none⟩

theorem prefixesOf_snoc_some (done : List Str) {k c : Str}
    (h : rollUp pre delimiter k = some c) :
    prefixesOf pre delimiter (done ++ [k]) = insertKey c (prefixesOf pre delimiter done) := by
  rw [prefixesOf, List.filterMap_append, List.filterMap_cons_some h, List.filterMap_nil]
  exact keySet_snoc _ _

theorem prefixesOf_snoc_none (done : List Str) {k : Str}
    (h : rollUp pre delimiter k = none) :
    prefixesOf pre delimiter (done ++ [k]) = prefixesOf pre delimiter done := by
  rw [prefixesOf, List.filterMap_append, List.filterMap_cons_none h, List.filterMap_nil]
  exact congrArg keySet (List.append_nil _)

theorem plainKeys_snoc_some (done : List Str) {k c : Str}
    (h : rollUp pre delimiter k = some c) :
    plainKeys pre delimiter (done ++ [k]) = plainKeys pre delimiter done := by
  rw [plainKeys_append, plainKeys, plainKeys, List.filter_singleton, h]
  exact List.append_nil _

theorem plainKeys_snoc_none (done : List Str) {k : Str}
    (h : rollUp pre delimiter k = none) :
    plainKeys pre delimiter (done ++ [k]) = plainKeys pre delimiter done ++ [k] := by
  rw [plainKeys_append, plainKeys, plainKeys, List.filter_singleton, h]
  rfl

/-- The loop, from what it has gathered. -/
theorem pageKeys_isPage {maxKeys : Nat} :
    ∀ (keys done : List Str),
      (plainKeys pre delimiter done).length + (prefixesOf pre delimiter done).length ≤ maxKeys →
      ∃ part rest, keys = part ++ rest ∧ IsPage pre delimiter maxKeys
        (pageKeys pre delimiter none none maxKeys keys (pageAfter pre delimiter done))
        (done ++ part) rest := by
  intro keys
  induction keys with
  | nil =>
      intro done hfits
      refine ⟨[], [], rfl, ?_⟩
      rw [List.append_nil]
      exact ⟨rfl, rfl, hfits, rfl, rfl, fun h => absurd rfl h, fun t ht => nomatch ht⟩
  | cons key keys ih =>
      intro done hfits
      have hgo : (plainKeys pre delimiter (done ++ [key])).length +
          (prefixesOf pre delimiter (done ++ [key])).length ≤ maxKeys →
          pageKeys pre delimiter none none maxKeys (key :: keys) (pageAfter pre delimiter done) =
            pageKeys pre delimiter none none maxKeys keys
              (pageAfter pre delimiter (done ++ [key])) →
          ∃ part rest, key :: keys = part ++ rest ∧ IsPage pre delimiter maxKeys
            (pageKeys pre delimiter none none maxKeys (key :: keys)
              (pageAfter pre delimiter done)) (done ++ part) rest := by
        intro hfits' heq
        obtain ⟨part, rest, rfl, hpage⟩ := ih (done ++ [key]) hfits'
        refine ⟨key :: part, rest, rfl, ?_⟩
        rw [heq, List.append_cons done key part]
        exact hpage
      have hstop : maxKeys ≤ (pageAfter pre delimiter done).count →
          pageKeys pre delimiter none none maxKeys (key :: keys) (pageAfter pre delimiter done) =
            { pageAfter pre delimiter done with truncated := true, next := some key } →
          (∀ c, rollUp pre delimiter key = some c → c ∉ prefixesOf pre delimiter done) →
          ∃ part rest, key :: keys = part ++ rest ∧ IsPage pre delimiter maxKeys
            (pageKeys pre delimiter none none maxKeys (key :: keys)
              (pageAfter pre delimiter done)) (done ++ part) rest := by
        intro hfull heq hfresh
        refine ⟨[], key :: keys, rfl, ?_⟩
        rw [heq, List.append_nil]
        refine ⟨rfl, rfl, hfits, rfl, rfl, fun _ => hfull, fun t ht => ?_⟩
        obtain rfl := Option.some.inj ht
        exact hfresh
      have hunfold : pageKeys pre delimiter none none maxKeys (key :: keys)
          (pageAfter pre delimiter done) = _ := pageKeys.eq_2 ..
      simp only [Option.any_none, Bool.or_self, Bool.false_eq_true, if_false] at hunfold
      cases hroll : rollUp pre delimiter key with
      | some c =>
          simp only [hroll] at hunfold
          by_cases hc : c ∈ prefixesOf pre delimiter done
          · have hsame : prefixesOf pre delimiter (done ++ [key]) =
                prefixesOf pre delimiter done := by
              rw [prefixesOf_snoc_some done hroll]
              exact insertKey_of_mem (keySet_sorted _) hc
            have hplain := plainKeys_snoc_some done hroll
            refine hgo (by rw [hsame, hplain]; exact hfits) ?_
            rw [hunfold, if_pos (show c ∈ (pageAfter pre delimiter done).common from hc)]
            unfold pageAfter
            rw [hsame, hplain]
          · rw [if_neg (show c ∉ (pageAfter pre delimiter done).common from hc)] at hunfold
            by_cases hfull : maxKeys ≤ (pageAfter pre delimiter done).count
            · rw [if_pos hfull] at hunfold
              refine hstop hfull hunfold fun c' hc' => ?_
              obtain rfl := Option.some.inj (hroll.symm.trans hc')
              exact hc
            · rw [if_neg hfull] at hunfold
              have hins := prefixesOf_snoc_some done hroll
              have hplain := plainKeys_snoc_some done hroll
              have hlen := length_insertKey hc
              have hroom : (plainKeys pre delimiter done).length +
                  (prefixesOf pre delimiter done).length < maxKeys := not_le.1 hfull
              refine hgo (by rw [hins, hplain, hlen]; omega) (hunfold.trans ?_)
              unfold pageAfter
              rw [hins, hplain, hlen]
              rfl
      | none =>
          simp only [hroll] at hunfold
          by_cases hfull : maxKeys ≤ (pageAfter pre delimiter done).count
          · rw [if_pos hfull] at hunfold
            exact hstop hfull hunfold fun c' hc' => nomatch hroll.symm.trans hc'
          · rw [if_neg hfull] at hunfold
            have hsame := prefixesOf_snoc_none done hroll
            have hplain := plainKeys_snoc_none done hroll
            have hroom : (plainKeys pre delimiter done).length +
                (prefixesOf pre delimiter done).length < maxKeys := not_le.1 hfull
            refine hgo (by rw [hsame, hplain, List.length_append, List.length_singleton]; omega)
              (hunfold.trans ?_)
            unfold pageAfter
            rw [hsame, hplain, List.length_append, List.length_singleton,
              Nat.add_right_comm]

theorem isPage_first (pre : Str) (delimiter : Option Str) (maxKeys : Nat) (keys : List Str) :
    ∃ part rest, keys = part ++ rest ∧ IsPage pre delimiter maxKeys
      (pageKeys pre delimiter none none maxKeys keys ⟨[], [], 0, false, none⟩) part rest :=
  pageKeys_isPage keys [] (Nat.zero_le _)

/-- The token and `start_after` only pass keys over. -/
theorem pageKeys_filter {maxKeys : Nat} {token startAfter : Option Str} :
    ∀ (keys : List Str) (pg : Page),
      pageKeys pre delimiter token startAfter maxKeys keys pg =
        pageKeys pre delimiter none none maxKeys ((keys.filter fun k =>
          !startAfter.any fun a => decide (k ≤ a)).filter fun k =>
            !token.any fun t => decide (k < t)) pg := by
  intro keys
  induction keys with
  | nil => exact fun pg => rfl
  | cons key keys ih =>
      intro pg
      rw [pageKeys.eq_2]
      cases ha : startAfter.any fun a => decide (key ≤ a) with
      | true =>
          rw [Bool.or_true, if_pos rfl, List.filter_cons_of_neg (by simp only [ha]; simp)]
          exact ih pg
      | false =>
          rw [Bool.or_false, List.filter_cons_of_pos (by simp only [ha]; rfl)]
          cases ht : token.any fun t => decide (key < t) with
          | true =>
              rw [if_pos rfl, List.filter_cons_of_neg (by simp only [ht]; simp)]
              exact ih pg
          | false =>
              rw [if_neg Bool.false_ne_true, List.filter_cons_of_pos (by simp only [ht]; rfl),
                pageKeys.eq_2]
              simp only [Option.any_none, Bool.or_self, Bool.false_eq_true, if_false, ih]

theorem chosen_subset {maxKeys : Nat} {token startAfter : Option Str} {keys : List Str} {k : Str}
    (h : k ∈ (pageKeys pre delimiter token startAfter maxKeys keys
      ⟨[], [], 0, false, none⟩).chosen) : k ∈ keys := by
  rw [pageKeys_filter] at h
  obtain ⟨part, rest, hsplit, hpage⟩ := isPage_first pre delimiter maxKeys
    ((keys.filter fun k => !startAfter.any fun a => decide (k ≤ a)).filter
      fun k => !token.any fun t => decide (k < t))
  rw [hpage.chosen] at h
  have hmem := List.mem_append_left rest (List.mem_of_mem_filter h)
  rw [← hsplit] at hmem
  exact List.mem_of_mem_filter (List.mem_of_mem_filter hmem)

/-- A page lists and rolls up no more than the keys it took. -/
theorem length_plain_add_prefixes_le (pre : Str) (delimiter : Option Str) (ks : List Str) :
    (plainKeys pre delimiter ks).length + (prefixesOf pre delimiter ks).length ≤ ks.length := by
  have hsplit : (plainKeys pre delimiter ks).length +
      (ks.filterMap (rollUp pre delimiter)).length = ks.length := by
    induction ks with
    | nil => rfl
    | cons k ks ih =>
        cases hroll : rollUp pre delimiter k with
        | some c =>
            rw [List.filterMap_cons_some hroll, plainKeys,
              List.filter_cons_of_neg (by rw [hroll]; simp), List.length_cons, List.length_cons,
              ← Nat.add_assoc]
            exact congrArg (· + 1) ih
        | none =>
            rw [List.filterMap_cons_none hroll, plainKeys,
              List.filter_cons_of_pos (by rw [hroll]; rfl), List.length_cons, List.length_cons,
              Nat.add_right_comm]
            exact congrArg (· + 1) ih
  have hset := length_keySet_le (ks.filterMap (rollUp pre delimiter))
  unfold prefixesOf
  omega

/-- Where a page breaks off, the common prefixes of what it took come before those of the
rest. -/
theorem prefixesOf_append {part rest : List Str}
    (hsorted : (part ++ rest).Pairwise (· < ·)) (hpre : ∀ k ∈ part ++ rest, pre <+: k)
    (hfresh : ∀ t ∈ rest.head?, ∀ c, rollUp pre delimiter t = some c →
      c ∉ prefixesOf pre delimiter part) :
    prefixesOf pre delimiter (part ++ rest) =
      prefixesOf pre delimiter part ++ prefixesOf pre delimiter rest := by
  have hlt : ∀ c ∈ prefixesOf pre delimiter part, ∀ c' ∈ prefixesOf pre delimiter rest,
      c < c' := by
    intro c hc c' hc'
    obtain ⟨k, hk, hroll⟩ := mem_prefixesOf.1 hc
    obtain ⟨k', hk', hroll'⟩ := mem_prefixesOf.1 hc'
    have hkk := (List.pairwise_append.1 hsorted).2.2 k hk k' hk'
    refine rollUp_lt (hpre k (List.mem_append_left _ hk)) (hpre k' (List.mem_append_right _ hk'))
      hkk hroll hroll' ?_
    rintro rfl
    -- the first key of the rest would have that common prefix too
    cases rest with
    | nil => cases hk'
    | cons t rest =>
        have hkt := (List.pairwise_append.1 hsorted).2.2 k hk t List.mem_cons_self
        have htk : t ≤ k' := by
          rcases List.mem_cons.1 hk' with rfl | hmem
          · exact le_refl _
          · exact le_of_lt
              ((List.pairwise_cons.1 (List.pairwise_append.1 hsorted).2.1).1 k' hmem)
        exact hfresh t rfl c (rollUp_between (hpre k (List.mem_append_left _ hk))
          (hpre k' (List.mem_append_right _ hk')) (le_of_lt hkt) htk hroll hroll') hc
  refine eq_of_sorted (keySet_sorted _) ?_ fun c => ?_
  · exact List.pairwise_append.2 ⟨keySet_sorted _, keySet_sorted _, hlt⟩
  · rw [List.mem_append, mem_prefixesOf, mem_prefixesOf, mem_prefixesOf]
    constructor
    · rintro ⟨k, hk, hroll⟩
      exact (List.mem_append.1 hk).imp (fun h => ⟨k, h, hroll⟩) fun h => ⟨k, h, hroll⟩
    · rintro (⟨k, hk, hroll⟩ | ⟨k, hk, hroll⟩)
      · exact ⟨k, List.mem_append_left _ hk, hroll⟩
      · exact ⟨k, List.mem_append_right _ hk, hroll⟩

/-! ## All pages -/

/-- The keys a listing is about: with its prefix, and after `start_after`. -/
def Wanted (pre : Str) (startAfter : Option Str) (k : Str) : Prop :=
  pre <+: k ∧ ∀ a ∈ startAfter, a < k

/-- Those of the keys found, in order. -/
def wantedKeys (pre : Str) (startAfter : Option Str) (keys : List Str) : List Str :=
  ((keys.filter fun k => pre.isPrefixOf k).insertionSort (· ≤ ·)).filter fun k =>
    !startAfter.any fun a => decide (k ≤ a)

theorem mem_wantedKeys {startAfter : Option Str} {keys : List Str} {k : Str} :
    k ∈ wantedKeys pre startAfter keys ↔ k ∈ keys ∧ Wanted pre startAfter k := by
  unfold wantedKeys Wanted
  rw [List.mem_filter, List.mem_insertionSort, List.mem_filter, List.isPrefixOf_iff_prefix,
    and_assoc]
  refine and_congr_right fun _ => and_congr_right fun _ => ?_
  cases startAfter with
  | none => simp
  | some a => simp

theorem wantedKeys_sorted (pre : Str) (startAfter : Option Str) {keys : List Str}
    (h : keys.Nodup) :
    (wantedKeys pre startAfter keys).Pairwise (· < ·) := by
  refine List.Pairwise.filter _ ?_
  have hle : ((keys.filter fun k => pre.isPrefixOf k).insertionSort (· ≤ ·)).Pairwise
      (· ≤ ·) := List.pairwise_insertionSort _ _
  have hne : ((keys.filter fun k => pre.isPrefixOf k).insertionSort (· ≤ ·)).Nodup :=
    (List.perm_insertionSort _ _).nodup_iff.2 (h.filter _)
  refine (List.pairwise_and_iff.2 ⟨hle, hne⟩).imp fun hab => ?_
  exact (le_iff_lt_or_eq.1 hab.1).resolve_right hab.2

/-- What there is to list from a token on. -/
def fromToken (token : Option Str) (ks : List Str) : List Str :=
  ks.filter fun k => !token.any fun t => decide (k < t)

/-- From the first key of a rest on there is that rest. -/
theorem fromToken_rest {token : Option Str} {ks part rest : List Str} {t : Str}
    (hsorted : ks.Pairwise (· < ·)) (h : fromToken token ks = part ++ t :: rest) :
    fromToken (some t) ks = t :: rest := by
  have hpart : (part ++ t :: rest).Pairwise (· < ·) := h ▸ hsorted.filter _
  have hmem : t ∈ fromToken token ks := h ▸ List.mem_append_right _ List.mem_cons_self
  have htoken : ∀ a ∈ token, a ≤ t := by
    rintro a rfl
    simpa [fromToken] using (List.mem_filter.1 hmem).2
  have htwice : fromToken (some t) ks = fromToken (some t) (fromToken token ks) := by
    unfold fromToken
    rw [List.filter_filter]
    refine List.filter_congr fun k _ => ?_
    cases token with
    | none => simp
    | some a =>
        have hat : a ≤ t := htoken a rfl
        show (!decide (k < t)) = (!decide (k < t) && !decide (k < a))
        by_cases hkt : k < t
        · simp [hkt]
        · have hka : ¬ k < a := not_lt.2 (le_trans hat (not_lt.1 hkt))
          simp [hkt, hka]
  rw [htwice, h, fromToken, List.filter_append]
  have hnone : part.filter (fun k => !(some t).any fun t => decide (k < t)) = [] := by
    refine List.filter_eq_nil_iff.2 fun k hk => ?_
    have hkt := (List.pairwise_append.1 hpart).2.2 k hk t List.mem_cons_self
    simp [hkt]
  have hall : (t :: rest).filter (fun k => !(some t).any fun t => decide (k < t)) =
      t :: rest := by
    refine List.filter_eq_self.2 fun k hk => ?_
    have htk : t ≤ k := by
      rcases List.mem_cons.1 hk with rfl | hk
      · exact le_refl _
      · exact le_of_lt
          ((List.pairwise_cons.1 (List.pairwise_append.1 hpart).2.1).1 k hk)
    simpa using htk
  rw [hnone, hall, List.nil_append]

/-- The listing that a page of keys becomes. -/
def Page.listing (obj : Str → ObjectMeta) (pg : Page) : Listing :=
  ⟨pg.chosen.map obj, pg.common, pg.truncated, pg.next⟩

/-- A listing that can be read in pages of at most `maxKeys` entries: `pages` are the pages
read one after the other, and `whole` is the listing that does not break off. -/
structure ExactListing (keys : List Str) (pre : Str) (delimiter startAfter : Option Str)
    (maxKeys : Nat) (list : Option Str → Nat → Except S3Error Listing) (pages : List Listing)
    (whole : Listing) : Prop where
  followed : Followed (fun token => list token maxKeys)
    (fun l : Listing => l.nextContinuationToken.map some) none pages
  unpaged : ∀ m, keys.length ≤ m → list none m = .ok whole
  complete : whole.isTruncated = false
  bounded : ∀ l ∈ pages, l.objects.length + l.commonPrefixes.length ≤ maxKeys
  ordered : ∀ l ∈ pages, (l.objects.map ObjectMeta.key).Pairwise (· < ·) ∧
    l.commonPrefixes.Pairwise (· < ·)
  objects : pages.flatMap Listing.objects = whole.objects
  prefixes : pages.flatMap Listing.commonPrefixes = whole.commonPrefixes
  objectOnce : (whole.objects.map ObjectMeta.key).Nodup ∧
    ∀ k, k ∈ whole.objects.map ObjectMeta.key ↔
      k ∈ keys ∧ Wanted pre startAfter k ∧ rollUp pre delimiter k = none
  prefixOnce : whole.commonPrefixes.Nodup ∧
    ∀ c, c ∈ whole.commonPrefixes ↔
      ∃ k, k ∈ keys ∧ Wanted pre startAfter k ∧ rollUp pre delimiter k = some c

section

variable {keys : List Str} {startAfter : Option Str} {maxKeys : Nat} {obj : Str → ObjectMeta}
  {list : Option Str → Nat → Except S3Error Listing}

theorem listing_page (hlist : ∀ token m, list token m = .ok ((pageKeys pre delimiter token
      startAfter m ((keys.filter fun k => pre.isPrefixOf k).insertionSort (· ≤ ·))
      ⟨[], [], 0, false, none⟩).listing obj)) (token : Option Str) (m : Nat) :
    ∃ part rest pg, fromToken token (wantedKeys pre startAfter keys) = part ++ rest ∧
      IsPage pre delimiter m pg part rest ∧ list token m = .ok (pg.listing obj) := by
  obtain ⟨part, rest, hsplit, hpage⟩ := isPage_first pre delimiter m
    (fromToken token (wantedKeys pre startAfter keys))
  refine ⟨part, rest, _, hsplit, hpage, ?_⟩
  rw [hlist, pageKeys_filter]
  rfl

/-- Such a page with what comes after it, where the keys found are distinct. -/
theorem listing_step (hkeys : keys.Nodup) (hlist : ∀ token m, list token m =
      .ok ((pageKeys pre delimiter token startAfter m
        ((keys.filter fun k => pre.isPrefixOf k).insertionSort (· ≤ ·))
        ⟨[], [], 0, false, none⟩).listing obj)) {token : Option Str} {m : Nat} {l : Listing}
    (hl : list token m = .ok l) :
    ∃ part rest pg, fromToken token (wantedKeys pre startAfter keys) = part ++ rest ∧
      IsPage pre delimiter m pg part rest ∧ l = pg.listing obj ∧
      rest = ((l.nextContinuationToken.map some).map fun token =>
        fromToken token (wantedKeys pre startAfter keys)).getD [] := by
  have hsorted := wantedKeys_sorted pre startAfter hkeys
  obtain ⟨part, rest, pg, hsplit, hpage, hok⟩ := listing_page hlist token m
  rw [hok] at hl
  obtain rfl := Except.ok.inj hl
  refine ⟨part, rest, pg, hsplit, hpage, rfl, ?_⟩
  rw [Page.listing, hpage.next]
  cases rest with
  | nil => rfl
  | cons t rest => exact (fromToken_rest hsorted hsplit).symm

/-- The listing of all wanted keys. -/
def wholeListing (pre : Str) (delimiter : Option Str) (obj : Str → ObjectMeta)
    (ks : List Str) : Listing :=
  ⟨(plainKeys pre delimiter ks).map obj, prefixesOf pre delimiter ks, false, none⟩

theorem length_wantedKeys_le (pre : Str) (startAfter : Option Str) (keys : List Str) :
    (wantedKeys pre startAfter keys).length ≤ keys.length := by
  unfold wantedKeys
  refine (List.length_filter_le _ _).trans ?_
  rw [List.length_insertionSort]
  exact List.length_filter_le _ _

/-- With room for all keys found there is one page. -/
theorem listing_unpaged (hlist : ∀ token m, list token m = .ok ((pageKeys pre delimiter token
      startAfter m ((keys.filter fun k => pre.isPrefixOf k).insertionSort (· ≤ ·))
      ⟨[], [], 0, false, none⟩).listing obj)) {m : Nat} (hm : keys.length ≤ m) :
    list none m = .ok (wholeListing pre delimiter obj (wantedKeys pre startAfter keys)) := by
  obtain ⟨part, rest, pg, hsplit, hpage, hok⟩ := listing_page hlist none m
  have hall : fromToken none (wantedKeys pre startAfter keys) =
      wantedKeys pre startAfter keys := List.filter_eq_self.2 fun k _ => rfl
  rw [hall] at hsplit
  have hrest : rest = [] := by
    by_contra hne
    have hfull := hpage.full hne
    rw [hpage.chosen, hpage.common] at hfull
    have hle := length_plain_add_prefixes_le pre delimiter part
    have hlen := congrArg List.length hsplit
    rw [List.length_append] at hlen
    have hpos := List.length_pos_iff.2 hne
    have hkeys := length_wantedKeys_le pre startAfter keys
    omega
  subst hrest
  rw [List.append_nil] at hsplit
  rw [hok, hsplit, Page.listing, hpage.chosen, hpage.common, hpage.truncated, hpage.next]
  rfl

theorem map_key_map (hobj : ∀ k, (obj k).key = k) (ks : List Str) :
    (ks.map obj).map ObjectMeta.key = ks := by
  rw [List.map_map]
  exact (List.map_congr_left fun k _ => hobj k).trans (List.map_id ks)

/-- A page that breaks off leaves fewer keys than there were. -/
theorem listing_fewer (hkeys : keys.Nodup) (hmax : 1 ≤ maxKeys)
    (hlist : ∀ token m, list token m =
      .ok ((pageKeys pre delimiter token startAfter m
        ((keys.filter fun k => pre.isPrefixOf k).insertionSort (· ≤ ·))
        ⟨[], [], 0, false, none⟩).listing obj))
    {token token' : Option Str} {l : Listing} (hl : list token maxKeys = .ok l)
    (hnext : l.nextContinuationToken.map some = some token') :
    (fromToken token' (wantedKeys pre startAfter keys)).length <
      (fromToken token (wantedKeys pre startAfter keys)).length := by
  obtain ⟨part, rest, pg, hsplit, hpage, rfl, hrest⟩ := listing_step hkeys hlist hl
  rw [hnext] at hrest
  have hne : rest ≠ [] := by
    rintro rfl
    simp only [Page.listing, hpage.next] at hnext
    cases hnext
  have hfull := hpage.full hne
  rw [hpage.chosen, hpage.common] at hfull
  have hle := length_plain_add_prefixes_le pre delimiter part
  have hlen := congrArg List.length hsplit
  rw [List.length_append] at hlen
  have hleft : fromToken token' (wantedKeys pre startAfter keys) = rest := hrest.symm
  rw [hleft]
  omega

/-- A page is within its bound, and in order. -/
theorem listing_ordered (hkeys : keys.Nodup) (hobj : ∀ k, (obj k).key = k)
    (hlist : ∀ token m, list token m =
      .ok ((pageKeys pre delimiter token startAfter m
        ((keys.filter fun k => pre.isPrefixOf k).insertionSort (· ≤ ·))
        ⟨[], [], 0, false, none⟩).listing obj))
    {token : Option Str} {l : Listing} (hl : list token maxKeys = .ok l) :
    l.objects.length + l.commonPrefixes.length ≤ maxKeys ∧
      (l.objects.map ObjectMeta.key).Pairwise (· < ·) ∧ l.commonPrefixes.Pairwise (· < ·) := by
  have hsorted := wantedKeys_sorted pre startAfter hkeys
  obtain ⟨part, rest, pg, hsplit, hpage, rfl, -⟩ := listing_step hkeys hlist hl
  refine ⟨?_, ?_, ?_⟩
  · rw [Page.listing, List.length_map]
    exact hpage.fits
  · rw [Page.listing, map_key_map hobj, hpage.chosen]
    have hpart : (part ++ rest).Pairwise (· < ·) := hsplit ▸ hsorted.filter _
    exact (List.pairwise_append.1 hpart).1.filter _
  · rw [Page.listing, hpage.common]
    exact keySet_sorted _

theorem listing_objects (hkeys : keys.Nodup) (hlist : ∀ token m, list token m =
      .ok ((pageKeys pre delimiter token startAfter m
        ((keys.filter fun k => pre.isPrefixOf k).insertionSort (· ≤ ·))
        ⟨[], [], 0, false, none⟩).listing obj))
    {token : Option Str} {l : Listing} (hl : list token maxKeys = .ok l) :
    (plainKeys pre delimiter (fromToken token (wantedKeys pre startAfter keys))).map obj =
      l.objects ++ ((l.nextContinuationToken.map some).map fun token =>
        (plainKeys pre delimiter
          (fromToken token (wantedKeys pre startAfter keys))).map obj).getD [] := by
  obtain ⟨part, rest, pg, hsplit, hpage, rfl, hrest⟩ := listing_step hkeys hlist hl
  rw [hsplit, plainKeys_append, List.map_append, ← hpage.chosen, hrest]
  cases (pg.listing obj).nextContinuationToken <;> rfl

/-- So are the common prefixes: a page breaks off at none that it has. -/
theorem listing_prefixes (hkeys : keys.Nodup) (hlist : ∀ token m, list token m =
      .ok ((pageKeys pre delimiter token startAfter m
        ((keys.filter fun k => pre.isPrefixOf k).insertionSort (· ≤ ·))
        ⟨[], [], 0, false, none⟩).listing obj))
    {token : Option Str} {l : Listing} (hl : list token maxKeys = .ok l) :
    prefixesOf pre delimiter (fromToken token (wantedKeys pre startAfter keys)) =
      l.commonPrefixes ++ ((l.nextContinuationToken.map some).map fun token =>
        prefixesOf pre delimiter
          (fromToken token (wantedKeys pre startAfter keys))).getD [] := by
  have hsorted := wantedKeys_sorted pre startAfter hkeys
  obtain ⟨part, rest, pg, hsplit, hpage, rfl, hrest⟩ := listing_step hkeys hlist hl
  rw [hsplit, prefixesOf_append (hsplit ▸ hsorted.filter _) ?_ ?_, ← hpage.common, hrest]
  · cases (pg.listing obj).nextContinuationToken <;> rfl
  · intro k hk
    rw [← hsplit] at hk
    exact (mem_wantedKeys.1 (List.mem_of_mem_filter hk)).2.1
  · intro t ht c hc
    rw [← hpage.common]
    exact hpage.fresh t ht c hc

/-- A listing that pages over distinct keys can be read in pages. -/
theorem exactListing (hkeys : keys.Nodup) (hmax : 1 ≤ maxKeys)
    (hobj : ∀ k, (obj k).key = k)
    (hlist : ∀ token m, list token m = .ok ((pageKeys pre delimiter token startAfter m
      ((keys.filter fun k => pre.isPrefixOf k).insertionSort (· ≤ ·))
      ⟨[], [], 0, false, none⟩).listing obj)) :
    ∃ pages whole, ExactListing keys pre delimiter startAfter maxKeys list pages whole := by
  have hsorted := wantedKeys_sorted pre startAfter hkeys
  have hnone : fromToken none (wantedKeys pre startAfter keys) =
      wantedKeys pre startAfter keys := List.filter_eq_self.2 fun k _ => rfl
  obtain ⟨pages, hpages⟩ : ∃ pages, Followed (fun token => list token maxKeys)
      (fun l : Listing => l.nextContinuationToken.map some) none pages := by
    refine Followed.total (fun _ => True)
      (fun token => (fromToken token (wantedKeys pre startAfter keys)).length) ?_ trivial
    intro token _
    obtain ⟨part, rest, pg, hsplit, hpage, hok⟩ := listing_page hlist token maxKeys
    exact ⟨_, hok, fun token' hnext => ⟨trivial, listing_fewer hkeys hmax hlist hok hnext⟩⟩
  have hprefixes : (wholeListing pre delimiter obj
      (wantedKeys pre startAfter keys)).commonPrefixes.Pairwise (· < ·) := keySet_sorted _
  have hplain : (plainKeys pre delimiter (wantedKeys pre startAfter keys)).Pairwise (· < ·) :=
    hsorted.filter _
  refine ⟨pages, wholeListing pre delimiter obj (wantedKeys pre startAfter keys), hpages,
    fun m hm => listing_unpaged hlist hm, rfl, ?_, ?_, ?_, ?_, ⟨?_, ?_⟩, ⟨?_, ?_⟩⟩
  · exact hpages.forall_mem (fun _ => True)
      (fun token l _ hl => ⟨(listing_ordered hkeys hobj hlist hl).1, fun _ _ => trivial⟩) trivial
  · exact hpages.forall_mem (fun _ => True)
      (fun token l _ hl => ⟨(listing_ordered hkeys hobj hlist hl).2, fun _ _ => trivial⟩) trivial
  · have hread := hpages.flatMap_eq (fun _ => True) Listing.objects
      (fun token => (plainKeys pre delimiter
        (fromToken token (wantedKeys pre startAfter keys))).map obj) ?_ trivial
    · rw [hread, hnone]
      rfl
    · exact fun token l _ hl => ⟨fun _ _ => trivial, listing_objects hkeys hlist hl⟩
  · have hread := hpages.flatMap_eq (fun _ => True) Listing.commonPrefixes
      (fun token => prefixesOf pre delimiter
        (fromToken token (wantedKeys pre startAfter keys))) ?_ trivial
    · rw [hread, hnone]
      rfl
    · exact fun token l _ hl => ⟨fun _ _ => trivial, listing_prefixes hkeys hlist hl⟩
  · rw [wholeListing, map_key_map hobj]
    exact nodup_of_sorted hplain
  · intro k
    rw [wholeListing, map_key_map hobj, plainKeys, List.mem_filter, mem_wantedKeys,
      Option.isNone_iff_eq_none, and_assoc]
  · exact nodup_of_sorted hprefixes
  · intro c
    rw [wholeListing, mem_prefixesOf]
    exact exists_congr fun k => by rw [mem_wantedKeys, and_assoc]

end

end

end Kerplace
