/-
# `Kerplace.Auth.Query` — the canonical query and the parameters

A signature covers the canonical form of a query: its pairs decoded, encoded anew, sorted
and joined.  The handlers read the parameters of the same query into a map.  The two agree
on how a pair is decoded, but the map remembers the last of several values of a name, which
sorting forgets, and the map leaves out an empty pair, which the canonical form keeps.

What of two queries with one canonical form is the same is the multiset of decoded pairs;
and the parameters are fixed just when that multiset settles them.
-/
import Kerplace.Handlers.Listing

namespace Kerplace

/-! ## The canonical form -/

/-- `SIGV4_UNRESERVED`. -/
def SIGV4_UNRESERVED : AsciiSet := fun c => NON_ALPHANUMERIC c && !"-_.~".toList.contains c

/-- The order of pairs of strings. -/
def PairLe (a b : Str × Str) : Prop := a.1 < b.1 ∨ a.1 = b.1 ∧ a.2 ≤ b.2

instance : DecidableRel PairLe := fun a b =>
  inferInstanceAs (Decidable (a.1 < b.1 ∨ a.1 = b.1 ∧ a.2 ≤ b.2))

instance : Std.Total PairLe := ⟨fun a b => by
  rcases lt_trichotomy a.1 b.1 with hlt | heq | hgt
  · exact .inl (.inl hlt)
  · rcases le_total a.2 b.2 with hle | hge
    · exact .inl (.inr ⟨heq, hle⟩)
    · exact .inr (.inr ⟨heq.symm, hge⟩)
  · exact .inr (.inl hgt)⟩

instance : IsTrans (Str × Str) PairLe := ⟨fun a b c hab hbc => by
  rcases hab with hab | ⟨hab, hab'⟩ <;> rcases hbc with hbc | ⟨hbc, hbc'⟩
  · exact .inl (lt_trans hab hbc)
  · exact .inl (hbc ▸ hab)
  · exact .inl (hab ▸ hbc)
  · exact .inr ⟨hab.trans hbc, le_trans hab' hbc'⟩⟩

theorem PairLe.antisymm {a b : Str × Str} (hab : PairLe a b) (hba : PairLe b a) : a = b := by
  rcases hab with hab | ⟨hab, hab'⟩ <;> rcases hba with hba | ⟨hba, hba'⟩
  · exact absurd (lt_trans hab hba) (lt_irrefl _)
  · exact absurd hba.symm hab.ne
  · exact absurd hab.symm hba.ne
  · exact Prod.ext hab (le_antisymm hab' hba')

section

variable (P : PercentCoding)

/-- `sigv4_encode_token`. -/
def sigv4EncodeToken (token : Str) : Str :=
  P.utf8PercentEncode SIGV4_UNRESERVED (P.percentDecode token)

/-- `canonical_query_from_pairs`. -/
def canonicalQueryFromPairs (pairs : List (Str × Str)) : Str :=
  let encoded := pairs.map fun p => (sigv4EncodeToken P p.1, sigv4EncodeToken P p.2)
  ['&'].intercalate ((encoded.insertionSort PairLe).map fun p => p.1 ++ '=' :: p.2)

/-- `build_canonical_query`. -/
def buildCanonicalQuery (query : Option Str) : Str :=
  match query with
  | none => []
  | some q => if q = [] then [] else canonicalQueryFromPairs P ((q.splitOn '&').map splitOnce)

/-- The pair of a segment, decoded. -/
def decodedPair (segment : Str) : Str × Str :=
  (P.percentDecode (splitOnce segment).1, P.percentDecode (splitOnce segment).2)

/-- The pairs of a query, decoded. -/
def decodedPairs (q : Str) : List (Str × Str) := (q.splitOn '&').map (decodedPair P)

end

/-! ## Two queries with one canonical form -/

/-- Pairs without the separators are read back from the joined text. -/
theorem joined_injective {ps ps' : List (Str × Str)}
    (h : ∀ p ∈ ps, '=' ∉ p.1 ∧ '&' ∉ p.1 ∧ '&' ∉ p.2)
    (h' : ∀ p ∈ ps', '=' ∉ p.1 ∧ '&' ∉ p.1 ∧ '&' ∉ p.2)
    (heq : ['&'].intercalate (ps.map fun p => p.1 ++ '=' :: p.2) =
      ['&'].intercalate (ps'.map fun p => p.1 ++ '=' :: p.2)) : ps = ps' := by
  have hread {qs : List (Str × Str)} (hqs : ∀ p ∈ qs, '=' ∉ p.1 ∧ '&' ∉ p.1 ∧ '&' ∉ p.2)
      (hne : qs ≠ []) :
      ((['&'].intercalate (qs.map fun p => p.1 ++ '=' :: p.2)).splitOn '&').map splitOnce =
        qs := by
    rw [List.splitOn_intercalate '&' ?_ (by simpa using hne), List.map_map]
    · refine (List.map_congr_left fun p hp => ?_).trans (List.map_id qs)
      exact splitOnce_append (hqs p hp).1 p.2
    · rintro l hl hmem
      obtain ⟨p, hp, rfl⟩ := List.mem_map.1 hl
      obtain ⟨-, hfst, hsnd⟩ := hqs p hp
      rcases List.mem_append.1 hmem with hmem | hmem
      · exact hfst hmem
      · rcases List.mem_cons.1 hmem with hmem | hmem
        · exact absurd hmem (by decide)
        · exact hsnd hmem
  have hempty {qs : List (Str × Str)} (hqs : ∀ p ∈ qs, '=' ∉ p.1 ∧ '&' ∉ p.1 ∧ '&' ∉ p.2)
      (hnil : ['&'].intercalate (qs.map fun p => p.1 ++ '=' :: p.2) = []) : qs = [] := by
    by_contra hne
    have hback := hread hqs hne
    rw [hnil] at hback
    have hpair : (['&'].intercalate (qs.map fun p => p.1 ++ '=' :: p.2)) = ['='] := by
      rw [← hback]
      rfl
    rw [hpair] at hnil
    exact absurd hnil (List.cons_ne_nil _ _)
  by_cases hne : ps = []
  · subst hne
    exact (hempty h' heq.symm).symm
  by_cases hne' : ps' = []
  · subst hne'
    exact absurd (hempty h heq) hne
  rw [← hread h hne, heq, hread h' hne']

section

variable {P : PercentCoding}

theorem sigv4_separators (hP : P.Lawful) (token : Str) :
    '=' ∉ sigv4EncodeToken P token ∧ '&' ∉ sigv4EncodeToken P token := by
  constructor
  · intro hmem
    rcases hP.encode_chars SIGV4_UNRESERVED _ _ hmem with h | h | h
    · exact absurd h (by decide)
    · exact absurd h (by decide)
    · exact absurd h (by decide)
  · intro hmem
    rcases hP.encode_chars SIGV4_UNRESERVED _ _ hmem with h | h | h
    · exact absurd h (by decide)
    · exact absurd h (by decide)
    · exact absurd h (by decide)

/-- One canonical form is one multiset of decoded pairs. -/
theorem canonicalQueryFromPairs_eq_iff (hP : P.Lawful) (ps ps' : List (Str × Str)) :
    canonicalQueryFromPairs P ps = canonicalQueryFromPairs P ps' ↔
      (ps.map fun p => (P.percentDecode p.1, P.percentDecode p.2)).Perm
        (ps'.map fun p => (P.percentDecode p.1, P.percentDecode p.2)) := by
  have hplain (qs : List (Str × Str)) :
      ∀ p ∈ (qs.map fun p => (sigv4EncodeToken P p.1, sigv4EncodeToken P p.2)).insertionSort
        PairLe, '=' ∉ p.1 ∧ '&' ∉ p.1 ∧ '&' ∉ p.2 := by
    intro p hp
    obtain ⟨q, -, rfl⟩ := List.mem_map.1 ((List.mem_insertionSort PairLe).1 hp)
    exact ⟨(sigv4_separators hP q.1).1, (sigv4_separators hP q.1).2,
      (sigv4_separators hP q.2).2⟩
  have hdecoded (qs : List (Str × Str)) :
      (qs.map fun p => (sigv4EncodeToken P p.1, sigv4EncodeToken P p.2)).map
        (fun p => (P.percentDecode p.1, P.percentDecode p.2)) =
      qs.map fun p => (P.percentDecode p.1, P.percentDecode p.2) := by
    rw [List.map_map]
    refine List.map_congr_left fun p _ => ?_
    exact Prod.ext (hP.decode_encode _ _ rfl) (hP.decode_encode _ _ rfl)
  constructor
  · intro heq
    have hsorted := joined_injective (hplain ps) (hplain ps') heq
    have hperm := (List.perm_insertionSort PairLe _).symm.trans
      (hsorted.symm ▸ List.perm_insertionSort PairLe _)
    rw [← hdecoded ps, ← hdecoded ps']
    exact hperm.map _
  · intro hperm
    have hencoded := hperm.map fun p : Str × Str =>
      (P.utf8PercentEncode SIGV4_UNRESERVED p.1, P.utf8PercentEncode SIGV4_UNRESERVED p.2)
    rw [List.map_map, List.map_map] at hencoded
    have hsorted := ((List.perm_insertionSort PairLe _).trans hencoded).trans
      (List.perm_insertionSort PairLe _).symm
    have hsame := hsorted.eq_of_pairwise (fun a b _ _ hab hba => PairLe.antisymm hab hba)
      (List.pairwise_insertionSort PairLe _) (List.pairwise_insertionSort PairLe _)
    exact congrArg (fun qs : List (Str × Str) =>
      ['&'].intercalate (qs.map fun p => p.1 ++ '=' :: p.2)) hsame

end

/-! ## The parameters -/

/-- The last value of each name. -/
def lastValues (ds : List (Str × Str)) : Str → Option Str :=
  ds.foldl (fun map d => Function.update map d.1 (some d.2)) fun _ => none

theorem lastValues_append (ds : List (Str × Str)) (d : Str × Str) :
    lastValues (ds ++ [d]) = Function.update (lastValues ds) d.1 (some d.2) := by
  rw [lastValues, List.foldl_append]
  rfl

theorem mem_of_lastValues {ds : List (Str × Str)} {n v : Str} (h : lastValues ds n = some v) :
    (n, v) ∈ ds := by
  induction ds using List.reverseRecOn with
  | nil => cases h
  | append_singleton ds d ih =>
    rw [lastValues_append] at h
    by_cases hn : n = d.1
    · subst hn
      rw [Function.update_self] at h
      rw [← Option.some.inj h]
      exact List.mem_append_right _ (List.mem_singleton_self d)
    · rw [Function.update_of_ne hn] at h
      exact List.mem_append_left _ (ih h)

theorem lastValues_isSome {ds : List (Str × Str)} {n v : Str} (h : (n, v) ∈ ds) :
    (lastValues ds n).isSome := by
  induction ds using List.reverseRecOn with
  | nil => exact absurd h List.not_mem_nil
  | append_singleton ds d ih =>
    rw [lastValues_append]
    by_cases hn : n = d.1
    · subst hn
      rw [Function.update_self]
      rfl
    · rw [Function.update_of_ne hn]
      refine ih ((List.mem_append.1 h).resolve_right fun hmem => hn ?_)
      rw [← List.mem_singleton.1 hmem]

theorem lastValues_eq_some_iff {ds : List (Str × Str)} {n : Str}
    (hone : ∀ v v', (n, v) ∈ ds → (n, v') ∈ ds → v = v') (v : Str) :
    lastValues ds n = some v ↔ (n, v) ∈ ds := by
  constructor
  · exact mem_of_lastValues
  · intro hmem
    obtain ⟨v', hv'⟩ := Option.isSome_iff_exists.1 (lastValues_isSome hmem)
    rw [hv', hone v' v (mem_of_lastValues hv') hmem]

/-! ## Which queries are settled by their canonical form -/

section

variable {P : PercentCoding}

variable (P) in
/-- No name has two values, and no pair is empty unless it is the only one. -/
structure PairsSettle (q : Str) : Prop where
  one_value : ∀ n v v', (n, v) ∈ decodedPairs P q → (n, v') ∈ decodedPairs P q → v = v'
  no_empty : ([], []) ∈ decodedPairs P q → (decodedPairs P q).length = 1

theorem decodedPair_nil (hP : P.Lawful) : decodedPair P [] = ([], []) :=
  Prod.ext (hP.decode_plain [] List.not_mem_nil) (hP.decode_plain [] List.not_mem_nil)

theorem parseQuery_some (q : Str) : parseQuery P (some q) =
    lastValues (((q.splitOn '&').filter fun s => decide (s ≠ [])).map (decodedPair P)) := by
  rw [lastValues, List.foldl_map]
  rfl

theorem decodedPairs_join {segments : List Str} (hne : segments ≠ [])
    (h : ∀ s ∈ segments, '&' ∉ s) :
    decodedPairs P (['&'].intercalate segments) = segments.map (decodedPair P) := by
  rw [decodedPairs, List.splitOn_intercalate '&' h hne]

theorem buildCanonicalQuery_eq_iff (hP : P.Lawful) {q q' : Str} (hq : q ≠ []) (hq' : q' ≠ []) :
    buildCanonicalQuery P (some q) = buildCanonicalQuery P (some q') ↔
      (decodedPairs P q).Perm (decodedPairs P q') := by
  rw [buildCanonicalQuery, buildCanonicalQuery, if_neg hq, if_neg hq',
    canonicalQueryFromPairs_eq_iff hP, List.map_map, List.map_map]
  rfl

theorem buildCanonicalQuery_eq_nil_iff (hP : P.Lawful) (query : Option Str) :
    buildCanonicalQuery P query = [] ↔ query.getD [] = [] := by
  cases query with
  | none => exact ⟨fun _ => rfl, fun _ => rfl⟩
  | some q =>
    rw [buildCanonicalQuery, Option.getD_some]
    split
    · rename_i hq
      exact ⟨fun _ => hq, fun _ => rfl⟩
    · rename_i hq
      refine ⟨fun hnil => ?_, fun h => absurd h hq⟩
      have hperm := (canonicalQueryFromPairs_eq_iff hP _ []).1 hnil
      exact absurd (List.map_eq_nil_iff.1 (List.map_eq_nil_iff.1 hperm.eq_nil))
        (List.splitOn_ne_nil '&' q)

theorem parseQuery_of_getD {query : Option Str} (h : query.getD [] = []) :
    parseQuery P query = fun _ => none := by
  cases query with
  | none => rfl
  | some q =>
    obtain rfl : q = [] := h
    rfl

/-- Settled pairs fix the parameters. -/
theorem parseQuery_eq_of_settled (hP : P.Lawful) {q q' : Str} (hq : q ≠ []) (hq' : q' ≠ [])
    (hsettle : PairsSettle P q) (hperm : (decodedPairs P q').Perm (decodedPairs P q)) :
    parseQuery P (some q') = parseQuery P (some q) := by
  by_cases hempty : ([], []) ∈ decodedPairs P q
  · -- the only segment is the query itself, and not empty
    have hone {r : Str} (hr : r ≠ []) (hlen : (decodedPairs P r).length = 1) :
        parseQuery P (some r) = lastValues (decodedPairs P r) := by
      rw [decodedPairs, List.length_map] at hlen
      obtain ⟨s, hs⟩ := List.length_eq_one_iff.1 hlen
      have hself : ['&'].intercalate (r.splitOn '&') = r := List.intercalate_splitOn '&'
      rw [hs] at hself
      obtain rfl : s = r := (List.append_nil s).symm.trans hself
      rw [parseQuery_some, decodedPairs, hs, List.filter_singleton, decide_eq_true hr]
      rfl
    have hlen := hsettle.no_empty hempty
    rw [hone hq hlen, hone hq' (hperm.length_eq.trans hlen)]
    obtain ⟨d, hd⟩ := List.length_eq_one_iff.1 hlen
    rw [hd] at hperm ⊢
    rw [hperm.eq_singleton]
  · -- no segment is empty
    have hall {r : Str} (hr : ([], []) ∉ decodedPairs P r) :
        parseQuery P (some r) = lastValues (decodedPairs P r) := by
      rw [parseQuery_some, decodedPairs, List.filter_eq_self.2]
      intro s hs
      refine decide_eq_true fun hnil => hr ?_
      rw [← decodedPair_nil hP]
      exact List.mem_map.2 ⟨s, hs, congrArg _ hnil⟩
    rw [hall hempty, hall fun hmem => hempty (hperm.mem_iff.1 hmem)]
    funext n
    refine Option.ext fun v => ?_
    have hone := hsettle.one_value n
    rw [lastValues_eq_some_iff hone, lastValues_eq_some_iff fun v v' hv hv' =>
      hone v v' (hperm.mem_iff.1 hv) (hperm.mem_iff.1 hv')]
    exact hperm.mem_iff

theorem not_mem_of_mem_splitOn {sep : Char} {q s : Str} (h : s ∈ q.splitOn sep) : sep ∉ s := by
  induction q generalizing s with
  | nil =>
    rw [List.mem_singleton.1 h]
    exact List.not_mem_nil
  | cons c q ih =>
    rw [List.splitOn_cons_eq_if_modifyHead] at h
    split at h
    · rcases List.mem_cons.1 h with rfl | h
      · exact List.not_mem_nil
      · exact ih h
    · rename_i hc
      obtain ⟨t, ts, hts⟩ := List.exists_cons_of_ne_nil (List.splitOn_ne_nil sep q)
      rw [hts, List.modifyHead_cons] at h
      rcases List.mem_cons.1 h with rfl | h
      · intro hmem
        rcases List.mem_cons.1 hmem with rfl | hmem
        · exact hc (beq_self_eq_true _)
        · exact ih (hts ▸ List.mem_cons_self) hmem
      · exact ih (hts ▸ List.mem_cons_of_mem _ h)

/-- Some query with the same canonical form has a given pair last. -/
theorem exists_last_pair {q : Str} {d : Str × Str}
    (hd : d ∈ decodedPairs P q) : ∃ q', q' ≠ [] ∧
      (decodedPairs P q').Perm (decodedPairs P q) ∧ parseQuery P (some q') d.1 = some d.2 := by
  obtain ⟨s, hs, rfl⟩ := List.mem_map.1 hd
  obtain ⟨s', hs', hpair, hamp⟩ : ∃ s', s' ≠ [] ∧ decodedPair P s' = decodedPair P s ∧
      '&' ∉ s' := by
    by_cases hnil : s = []
    · exact ⟨['='], List.cons_ne_nil _ _, by rw [hnil]; rfl, by decide⟩
    · exact ⟨s, hnil, rfl, not_mem_of_mem_splitOn hs⟩
  have hsegs : ∀ t ∈ (q.splitOn '&').erase s ++ [s'], '&' ∉ t := by
    intro t ht
    rcases List.mem_append.1 ht with ht | ht
    · exact not_mem_of_mem_splitOn (List.mem_of_mem_erase ht)
    · exact List.mem_singleton.1 ht ▸ hamp
  have hsplit := List.splitOn_intercalate '&' hsegs (by simp)
  refine ⟨['&'].intercalate ((q.splitOn '&').erase s ++ [s']), fun hnil => ?_, ?_, ?_⟩
  · rw [hnil] at hsplit
    have hmem : s' ∈ ([] : Str).splitOn '&' := hsplit ▸
      List.mem_append_right _ (List.mem_singleton_self _)
    exact hs' (List.mem_singleton.1 hmem)
  · rw [decodedPairs, hsplit, List.map_append, List.map_singleton, hpair]
    refine (List.perm_append_singleton _ _).trans ?_
    rw [← List.map_cons]
    exact (List.perm_cons_erase hs).symm.map _
  · rw [parseQuery_some, hsplit, List.filter_append, List.map_append,
      List.filter_singleton, decide_eq_true hs']
    show lastValues (_ ++ [decodedPair P s']) _ = _
    rw [lastValues_append, hpair, Function.update_self]

/-- With every empty pair spelled as nothing at all, none is a parameter. -/
theorem parseQuery_without_empty (hP : P.Lawful) {q : Str} (hq : q ≠ [])
    (hlen : (decodedPairs P q).length ≠ 1)
    (hfixed : ∀ query', buildCanonicalQuery P query' = buildCanonicalQuery P (some q) →
      parseQuery P query' = parseQuery P (some q)) :
    parseQuery P (some q) [] ≠ some [] := by
  let spelled := (q.splitOn '&').map fun s => if decodedPair P s = ([], []) then [] else s
  have hsegs : ∀ t ∈ spelled, '&' ∉ t := by
    intro t ht
    obtain ⟨s, hs, rfl⟩ := List.mem_map.1 ht
    split
    · exact List.not_mem_nil
    · exact not_mem_of_mem_splitOn hs
  have hne : spelled ≠ [] := fun hnil => List.splitOn_ne_nil '&' q (List.map_eq_nil_iff.1 hnil)
  have hsplit := List.splitOn_intercalate '&' hsegs hne
  have hpairs : decodedPairs P (['&'].intercalate spelled) = decodedPairs P q := by
    rw [decodedPairs_join hne hsegs, List.map_map, decodedPairs]
    refine List.map_congr_left fun s _ => ?_
    show decodedPair P (if _ then _ else _) = _
    split
    · rename_i hs
      rw [hs, decodedPair_nil hP]
    · rfl
  have hjoin : ['&'].intercalate spelled ≠ [] := by
    intro hnil
    rw [← hpairs, hnil] at hlen
    exact hlen rfl
  rw [← hfixed (some (['&'].intercalate spelled))
    ((buildCanonicalQuery_eq_iff hP hjoin hq).2 (hpairs ▸ List.Perm.refl _)), parseQuery_some,
    hsplit]
  intro hlast
  obtain ⟨t, ht, hpair⟩ := List.mem_map.1 (mem_of_lastValues hlast)
  obtain ⟨ht, htne⟩ := List.mem_filter.1 ht
  obtain ⟨s, -, rfl⟩ := List.mem_map.1 ht
  by_cases hs : decodedPair P s = ([], [])
  · rw [if_pos hs] at htne
    exact absurd rfl (of_decide_eq_true htne)
  · rw [if_neg hs] at hpair
    exact hs hpair

/-- The signature fixes the parameters of a query just when its pairs settle them; and the
order and the spelling of the pairs are no part of the canonical form. -/
theorem canonical_query_fixes_parameters_iff (hP : P.Lawful) :
    (∀ query : Option Str,
      (∀ query', buildCanonicalQuery P query' = buildCanonicalQuery P query →
        parseQuery P query' = parseQuery P query) ↔ PairsSettle P (query.getD [])) ∧
    ∀ q q' : Str, q ≠ [] → q' ≠ [] → (decodedPairs P q).Perm (decodedPairs P q') →
      buildCanonicalQuery P (some q) = buildCanonicalQuery P (some q') := by
  refine ⟨fun query => ?_, fun q q' hq hq' => (buildCanonicalQuery_eq_iff hP hq hq').2⟩
  by_cases hquery : query.getD [] = []
  · -- an empty query has one form, and no parameters
    have hform := (buildCanonicalQuery_eq_nil_iff hP query).2 hquery
    constructor
    · intro _
      rw [hquery]
      exact { one_value := fun n v v' hv hv' => by
                have hv := List.mem_singleton.1 hv
                have hv' := List.mem_singleton.1 hv'
                exact (Prod.mk.inj (hv.trans hv'.symm)).2
              no_empty := fun _ => rfl }
    · intro _ query' hsame
      rw [hform, buildCanonicalQuery_eq_nil_iff hP] at hsame
      rw [parseQuery_of_getD hquery, parseQuery_of_getD hsame]
  obtain ⟨q, rfl⟩ : ∃ q, query = some q := by
    cases query with
    | none => exact absurd rfl hquery
    | some q => exact ⟨q, rfl⟩
  have hq : q ≠ [] := hquery
  rw [Option.getD_some]
  constructor
  · intro hfixed
    have hvalue {d : Str × Str} (hd : d ∈ decodedPairs P q) :
        parseQuery P (some q) d.1 = some d.2 := by
      obtain ⟨q', hq', hperm, hlast⟩ := exists_last_pair hd
      rw [← hfixed (some q') ((buildCanonicalQuery_eq_iff hP hq' hq).2 hperm)]
      exact hlast
    constructor
    · intro n v v' hv hv'
      exact Option.some.inj ((hvalue hv).symm.trans (hvalue hv'))
    · intro hempty
      by_contra hlen
      exact absurd (hvalue hempty) (parseQuery_without_empty hP hq hlen hfixed)
  · intro hsettle query' hsame
    cases query' with
    | none => 
      exact absurd ((buildCanonicalQuery_eq_nil_iff hP (some q)).1 hsame.symm) hq
    | some q' =>
      have hq' : q' ≠ [] := by
        rintro rfl
        exact hq ((buildCanonicalQuery_eq_nil_iff hP (some q)).1 hsame.symm)
      exact parseQuery_eq_of_settled hP hq hq' hsettle
        ((buildCanonicalQuery_eq_iff hP hq' hq).1 hsame)

/-- The same two parameters in the other order, and spelled otherwise. -/
theorem canonical_query_fixes_parameters_iff_plain :
    parseQuery percentCoding (some "delimiter=%2F&prefix=a/b".toList) =
      parseQuery percentCoding (some "prefix=a%2Fb&delimiter=/".toList) := by
  have hform : buildCanonicalQuery percentCoding (some "delimiter=%2F&prefix=a/b".toList) =
      buildCanonicalQuery percentCoding (some "prefix=a%2Fb&delimiter=/".toList) :=
    (buildCanonicalQuery_eq_iff percentCoding_lawful (List.cons_ne_nil _ _)
      (List.cons_ne_nil _ _)).2 (by decide +kernel)
  refine ((canonical_query_fixes_parameters_iff percentCoding_lawful).1 _).2 ?_ _ hform
  have hpairs : decodedPairs percentCoding "prefix=a%2Fb&delimiter=/".toList =
      [("prefix".toList, "a/b".toList), ("delimiter".toList, "/".toList)] := by decide +kernel
  constructor
  · intro n v v' hv hv'
    rw [Option.getD_some, hpairs] at hv hv'
    simp only [List.mem_cons, List.not_mem_nil, or_false, Prod.mk.injEq] at hv hv'
    rcases hv with ⟨rfl, rfl⟩ | ⟨rfl, rfl⟩
    · rcases hv' with ⟨-, rfl⟩ | ⟨h, -⟩
      · rfl
      · exact absurd h (by decide)
    · rcases hv' with ⟨h, -⟩ | ⟨-, rfl⟩
      · exact absurd h (by decide)
      · rfl
  · intro hempty
    rw [Option.getD_some, hpairs] at hempty
    exact absurd hempty (by decide)

/-- Two values of a name in either order, and an empty pair spelled in two ways. -/
theorem canonical_query_does_not_fix_parameters :
    (buildCanonicalQuery percentCoding (some "a=1&a=2".toList) =
        buildCanonicalQuery percentCoding (some "a=2&a=1".toList) ∧
      parseQuery percentCoding (some "a=1&a=2".toList) ≠
        parseQuery percentCoding (some "a=2&a=1".toList)) ∧
    buildCanonicalQuery percentCoding (some "a=1&".toList) =
        buildCanonicalQuery percentCoding (some "a=1&=".toList) ∧
      parseQuery percentCoding (some "a=1&".toList) ≠
        parseQuery percentCoding (some "a=1&=".toList) := by
  have hne : ∀ c : Char, ∀ s : Str, c :: s ≠ [] := fun _ _ => List.cons_ne_nil _ _
  refine ⟨⟨(buildCanonicalQuery_eq_iff percentCoding_lawful (hne _ _) (hne _ _)).2 ?_, fun h => ?_⟩,
    (buildCanonicalQuery_eq_iff percentCoding_lawful (hne _ _) (hne _ _)).2 ?_, fun h => ?_⟩
  · decide +kernel
  · exact absurd (congrFun h "a".toList) (by decide +kernel)
  · decide +kernel
  · exact absurd (congrFun h []) (by decide +kernel)

/-! ## Presigned queries -/

/-- The parameter that carries the signature. -/
def X_AMZ_SIGNATURE : Str := "X-Amz-Signature".toList

variable (P) in
/-- The canonical query of `verify_presigned`. -/
def presignedCanonicalQuery (q : Str) : Str :=
  canonicalQueryFromPairs P ((((q.splitOn '&').filter fun s => decide (s ≠ [])).map
    splitOnce).filter fun p => decide (p.1 ≠ X_AMZ_SIGNATURE))

variable (P) in
/-- The decoded pairs of a presigned query, without the empty segments. -/
def presignedPairs (q : Str) : List (Str × Str) :=
  ((q.splitOn '&').filter fun s => decide (s ≠ [])).map (decodedPair P)

theorem presignedCanonicalQuery_eq_iff (hP : P.Lawful) (q q' : Str) :
    presignedCanonicalQuery P q = presignedCanonicalQuery P q' ↔
      ((((q.splitOn '&').filter fun s => decide (s ≠ [])).filter fun s =>
          decide ((splitOnce s).1 ≠ X_AMZ_SIGNATURE)).map (decodedPair P)).Perm
        ((((q'.splitOn '&').filter fun s => decide (s ≠ [])).filter fun s =>
          decide ((splitOnce s).1 ≠ X_AMZ_SIGNATURE)).map (decodedPair P)) := by
  rw [presignedCanonicalQuery, presignedCanonicalQuery, canonicalQueryFromPairs_eq_iff hP,
    List.filter_map, List.filter_map, List.map_map, List.map_map]
  rfl

theorem mem_signed_iff (hP : P.Lawful) {q n v : Str} (hn : n ≠ X_AMZ_SIGNATURE) :
    (n, v) ∈ presignedPairs P q ↔
      (n, v) ∈ (((q.splitOn '&').filter fun s => decide (s ≠ [])).filter fun s =>
        decide ((splitOnce s).1 ≠ X_AMZ_SIGNATURE)).map (decodedPair P) := by
  constructor
  · intro hmem
    obtain ⟨s, hs, hpair⟩ := List.mem_map.1 hmem
    refine List.mem_map.2 ⟨s, List.mem_filter.2 ⟨hs, decide_eq_true fun hsig => hn ?_⟩, hpair⟩
    have hname : P.percentDecode (splitOnce s).1 = n := (Prod.mk.inj hpair).1
    rw [hsig, hP.decode_plain _ (by decide)] at hname
    exact hname.symm
  · intro hmem
    obtain ⟨s, hs, hpair⟩ := List.mem_map.1 hmem
    exact List.mem_map.2 ⟨s, (List.mem_filter.1 hs).1, hpair⟩

/-- A presigned URL fixes its parameters, but for the signature, just when no other name has
two values: an empty segment counts in neither form. -/
theorem presigned_query_fixes_parameters_iff (hP : P.Lawful) (q : Str) :
    (∀ q', presignedCanonicalQuery P q' = presignedCanonicalQuery P q →
      ∀ n, n ≠ X_AMZ_SIGNATURE → parseQuery P (some q') n = parseQuery P (some q) n) ↔
    ∀ n v v', n ≠ X_AMZ_SIGNATURE → (n, v) ∈ presignedPairs P q →
      (n, v') ∈ presignedPairs P q → v = v' := by
  constructor
  · intro hfixed n v v' hn hv hv'
    have hvalue {v : Str} (hv : (n, v) ∈ presignedPairs P q) :
        parseQuery P (some q) n = some v := by
      obtain ⟨s, hs, hpair⟩ := List.mem_map.1 hv
      obtain ⟨hs, hsne⟩ := List.mem_filter.1 hs
      have hperm : ((q.splitOn '&').erase s ++ [s]).Perm (q.splitOn '&') :=
        (List.perm_append_singleton _ _).trans (List.perm_cons_erase hs).symm
      have hsplit := List.splitOn_intercalate '&'
        (fun t ht => not_mem_of_mem_splitOn (hperm.mem_iff.1 ht)) (by simp)
      rw [← hfixed (['&'].intercalate ((q.splitOn '&').erase s ++ [s])) ?_ n hn, parseQuery_some,
        hsplit, List.filter_append, List.map_append, List.filter_singleton, hsne]
      · show lastValues (_ ++ [decodedPair P s]) _ = _
        rw [lastValues_append, hpair, Function.update_self]
      · rw [presignedCanonicalQuery_eq_iff hP, hsplit]
        exact ((hperm.filter _).filter _).map _
    exact Option.some.inj ((hvalue hv).symm.trans (hvalue hv'))
  · intro hone q' hsame n hn
    have hperm := (presignedCanonicalQuery_eq_iff hP q' q).1 hsame
    have hmem (v : Str) : (n, v) ∈ presignedPairs P q' ↔ (n, v) ∈ presignedPairs P q := by
      rw [mem_signed_iff hP hn, mem_signed_iff hP hn]
      exact hperm.mem_iff
    rw [parseQuery_some, parseQuery_some]
    refine Option.ext fun v => ?_
    exact (lastValues_eq_some_iff (fun v v' hv hv' =>
      hone n v v' hn ((hmem v).1 hv) ((hmem v').1 hv')) v).trans
      ((hmem v).trans (lastValues_eq_some_iff (fun v v' hv hv' => hone n v v' hn hv hv') v).symm)

end

end Kerplace
