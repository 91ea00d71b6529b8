/-
# `Kerplace.Storage.VersionPaging` — the key loop of the version listings

A version listing reports items: the rows of a key, or a common prefix where the first of
its keys stands.  A page holds the first of them.  The markers it gives name the first
item it does not hold, but going on from a key marker passes over the whole key: what is
left then is what was left only if that item is a common prefix with another key.
-/
import Kerplace.Storage.Paging

namespace Kerplace

/-- A page of versions, and what it names to go on from. -/
structure VersionPage extends VersionListing where
  nextKeyMarker : Option Str
  nextVersionIdMarker : Option Str
  deriving DecidableEq

/-- The key loop, over keys whose rows are at hand. -/
def pageItems (pre : Str) (delimiter : Option Str) (maxKeys : Nat)
    (rows : Str → List ObjectVersion) : List Str → VersionPage → VersionPage
  | [], acc => acc
  | key :: keys, acc =>
      match rollUp pre delimiter key with
      | some cp =>
          if cp ∈ acc.commonPrefixes then pageItems pre delimiter maxKeys rows keys acc
          else if acc.versions.length + acc.commonPrefixes.length ≥ maxKeys then
            { acc with isTruncated := true, nextKeyMarker := some key }
          else
            pageItems pre delimiter maxKeys rows keys
              { acc with commonPrefixes := insertKey cp acc.commonPrefixes }
      | none =>
          let room := maxKeys - (acc.versions.length + acc.commonPrefixes.length)
          let acc' := { acc with versions := acc.versions ++ (rows key).take room }
          match (rows key)[room]? with
          | some ev =>
              ⟨{ acc'.toVersionListing with isTruncated := true }, some key, some ev.versionId⟩
          | none => pageItems pre delimiter maxKeys rows keys acc'

/-! ## What there is to report -/

/-- One thing a version listing reports. -/
inductive VersionItem where
  | version (row : ObjectVersion)
  | common (cp : Str)

namespace VersionItem

/-- The row, if it is one. -/
def row? : VersionItem → Option ObjectVersion
  | .version r => some r
  | .common _ => none

/-- The common prefix, if it is one. -/
def common? : VersionItem → Option Str
  | .version _ => none
  | .common c => some c

end VersionItem

section

variable {pre : Str} {delimiter : Option Str} {rows : Str → List ObjectVersion}

/-- The items of keys, less the common prefixes seen before. -/
def itemsOf (pre : Str) (delimiter : Option Str) (rows : Str → List ObjectVersion) :
    List Str → List Str → List VersionItem
  | _, [] => []
  | seen, key :: keys =>
      match rollUp pre delimiter key with
      | some c =>
          if c ∈ seen then itemsOf pre delimiter rows seen keys
          else .common c :: itemsOf pre delimiter rows (c :: seen) keys
      | none => (rows key).map .version ++ itemsOf pre delimiter rows seen keys

theorem itemsOf_seen (rows : Str → List ObjectVersion) {seen : List Str} {key c : Str}
    (keys : List Str)
    (h : rollUp pre delimiter key = some c) (hc : c ∈ seen) :
    itemsOf pre delimiter rows seen (key :: keys) = itemsOf pre delimiter rows seen keys := by
  simp only [itemsOf, h, if_pos hc]

theorem itemsOf_unseen (rows : Str → List ObjectVersion) {seen : List Str} {key c : Str}
    (keys : List Str)
    (h : rollUp pre delimiter key = some c) (hc : c ∉ seen) :
    itemsOf pre delimiter rows seen (key :: keys) =
      .common c :: itemsOf pre delimiter rows (c :: seen) keys := by
  simp only [itemsOf, h, if_neg hc]

theorem itemsOf_plain (rows : Str → List ObjectVersion) (seen : List Str) {key : Str}
    (keys : List Str)
    (h : rollUp pre delimiter key = none) :
    itemsOf pre delimiter rows seen (key :: keys) =
      (rows key).map .version ++ itemsOf pre delimiter rows seen keys := by
  simp only [itemsOf, h]

/-- Only the common prefixes of the keys themselves matter. -/
theorem itemsOf_congr {keys : List Str} :
    ∀ {seen seen' : List Str},
      (∀ k ∈ keys, ∀ c, rollUp pre delimiter k = some c → (c ∈ seen ↔ c ∈ seen')) →
      itemsOf pre delimiter rows seen keys = itemsOf pre delimiter rows seen' keys := by
  induction keys with
  | nil => exact fun _ => rfl
  | cons key keys ih =>
      intro seen seen' h
      have hrest := fun k hk => h k (List.mem_cons_of_mem _ hk)
      cases hroll : rollUp pre delimiter key with
      | none => rw [itemsOf_plain _ _ _ hroll, itemsOf_plain _ _ _ hroll, ih hrest]
      | some c =>
          have hc := h key List.mem_cons_self c hroll
          by_cases hseen : c ∈ seen
          · rw [itemsOf_seen _ _ hroll hseen, itemsOf_seen _ _ hroll (hc.1 hseen), ih hrest]
          · rw [itemsOf_unseen _ _ hroll hseen,
              itemsOf_unseen _ _ hroll (fun h' => hseen (hc.2 h')),
              ih fun k hk c' hc' => ?_]
            rw [List.mem_cons, List.mem_cons, hrest k hk c' hc']

/-- A common prefix among the items is that of a key, and was not seen before. -/
theorem common_mem_itemsOf {c : Str} {keys : List Str} :
    ∀ {seen : List Str}, .common c ∈ itemsOf pre delimiter rows seen keys →
      c ∉ seen ∧ ∃ k ∈ keys, rollUp pre delimiter k = some c := by
  induction keys with
  | nil => exact fun h => nomatch h
  | cons key keys ih =>
      intro seen h
      cases hroll : rollUp pre delimiter key with
      | none =>
          rw [itemsOf_plain _ _ _ hroll, List.mem_append] at h
          rcases h with h | h
          · obtain ⟨r, -, hr⟩ := List.mem_map.1 h
            cases hr
          · obtain ⟨hc, k, hk, hkc⟩ := ih h
            exact ⟨hc, k, List.mem_cons_of_mem _ hk, hkc⟩
      | some c' =>
          by_cases hseen : c' ∈ seen
          · rw [itemsOf_seen _ _ hroll hseen] at h
            obtain ⟨hc, k, hk, hkc⟩ := ih h
            exact ⟨hc, k, List.mem_cons_of_mem _ hk, hkc⟩
          · rw [itemsOf_unseen _ _ hroll hseen, List.mem_cons] at h
            rcases h with h | h
            · obtain rfl := VersionItem.common.inj h
              exact ⟨hseen, key, List.mem_cons_self, hroll⟩
            · obtain ⟨hc, k, hk, hkc⟩ := ih h
              exact ⟨fun h' => hc (List.mem_cons_of_mem _ h'), k, List.mem_cons_of_mem _ hk, hkc⟩

/-! ## A page -/

/-- The rows among items. -/
def rowsIn (items : List VersionItem) : List ObjectVersion := items.filterMap VersionItem.row?

/-- The common prefixes among items. -/
def commonsIn (items : List VersionItem) : List Str := items.filterMap VersionItem.common?

@[simp] theorem rowsIn_append (xs ys : List VersionItem) :
    rowsIn (xs ++ ys) = rowsIn xs ++ rowsIn ys := List.filterMap_append ..

@[simp] theorem commonsIn_append (xs ys : List VersionItem) :
    commonsIn (xs ++ ys) = commonsIn xs ++ commonsIn ys := List.filterMap_append ..

@[simp] theorem rowsIn_version (rs : List ObjectVersion) :
    rowsIn (rs.map .version) = rs := by
  rw [rowsIn, List.filterMap_map]
  exact List.filterMap_some

@[simp] theorem commonsIn_version (rs : List ObjectVersion) :
    commonsIn (rs.map .version) = [] := by
  rw [commonsIn, List.filterMap_map]
  exact List.filterMap_eq_nil_iff.2 fun _ _ => rfl

theorem length_rowsIn_add (items : List VersionItem) :
    (rowsIn items).length + (commonsIn items).length = items.length := by
  induction items with
  | nil => rfl
  | cons x items ih =>
      cases x with
      | version r =>
          show (rowsIn items).length + 1 + (commonsIn items).length = items.length + 1
          omega
      | common c =>
          show (rowsIn items).length + ((commonsIn items).length + 1) = items.length + 1
          omega

/-- The items `left` are what there is from a key `t` on, of which at least the first is not
reported. -/
def BreaksOff (pre : Str) (delimiter : Option Str) (rows : Str → List ObjectVersion)
    (seen keys : List Str) (left : List VersionItem) (t : Str) (rest : List Str) : Prop :=
  ∃ part seen', keys = part ++ t :: rest ∧
    (∀ c, c ∈ seen' ↔ c ∈ seen ∨ ∃ k ∈ part, rollUp pre delimiter k = some c) ∧
    ((∃ c, rollUp pre delimiter t = some c ∧ c ∉ seen' ∧
        left = .common c :: itemsOf pre delimiter rows (c :: seen') rest) ∨
      (rollUp pre delimiter t = none ∧ ∃ more, more ≠ [] ∧
        left = more.map .version ++ itemsOf pre delimiter rows seen' rest))

theorem BreaksOff.cons {seen seen' keys rest : List Str} {left : List VersionItem} {t key : Str}
    (hseen : ∀ c, c ∈ seen' ↔ c ∈ seen ∨ rollUp pre delimiter key = some c)
    (h : BreaksOff pre delimiter rows seen' keys left t rest) :
    BreaksOff pre delimiter rows seen (key :: keys) left t rest := by
  obtain ⟨part, seen'', rfl, hmem, hleft⟩ := h
  refine ⟨key :: part, seen'', rfl, fun c => ?_, hleft⟩
  rw [hmem, hseen, List.exists_mem_cons_iff, or_assoc]

/-- The loop, from what it has gathered. -/
theorem pageItems_spec (pre : Str) (delimiter : Option Str) (rows : Str → List ObjectVersion)
    (maxKeys : Nat) :
    ∀ (keys seen : List Str) (acc : VersionPage),
      (∀ c, c ∈ seen ↔ c ∈ acc.commonPrefixes) →
      acc.commonPrefixes.Pairwise (· < ·) →
      acc.versions.length + acc.commonPrefixes.length ≤ maxKeys →
      acc.isTruncated = false →
      let items := itemsOf pre delimiter rows seen keys
      let room := maxKeys - (acc.versions.length + acc.commonPrefixes.length)
      let page := pageItems pre delimiter maxKeys rows keys acc
      page.versions = acc.versions ++ rowsIn (items.take room) ∧
      page.commonPrefixes = (commonsIn (items.take room)).foldl (fun l c => insertKey c l)
        acc.commonPrefixes ∧
      ((page.isTruncated = false ∧ items.length ≤ room) ∨
        (page.isTruncated = true ∧ ∃ t rest, page.nextKeyMarker = some t ∧
          BreaksOff pre delimiter rows seen keys (items.drop room) t rest)) := by
  intro keys
  induction keys with
  | nil =>
      intro seen acc hseen hsorted hfits hmore
      refine ⟨?_, ?_, .inl ⟨hmore, Nat.zero_le _⟩⟩
      · simp [pageItems, itemsOf, rowsIn]
      · simp [pageItems, itemsOf, commonsIn]
  | cons key keys ih =>
      intro seen acc hseen hsorted hfits hmore
      cases hroll : rollUp pre delimiter key with
      | some c =>
          by_cases hc : c ∈ acc.commonPrefixes
          · -- its common prefix has been reported
            obtain ⟨hv, hcp, hend⟩ := ih seen acc hseen hsorted hfits hmore
            have hpage : pageItems pre delimiter maxKeys rows (key :: keys) acc =
                pageItems pre delimiter maxKeys rows keys acc := by
              simp only [pageItems, hroll, if_pos hc]
            have hitems := itemsOf_seen rows keys hroll ((hseen c).2 hc)
            simp only [hpage, hitems]
            refine ⟨hv, hcp, hend.imp_right ?_⟩
            rintro ⟨htr, t, rest, ht, hoff⟩
            refine ⟨htr, t, rest, ht, hoff.cons fun c' => ?_⟩
            rw [hroll]
            exact (or_iff_left_of_imp fun h => by
              obtain rfl := Option.some.inj h
              exact (hseen c).2 hc).symm
          · have hnew : c ∉ seen := fun h => hc ((hseen c).1 h)
            have hitems := itemsOf_unseen rows keys hroll hnew
            simp only [hitems]
            by_cases hfull : acc.versions.length + acc.commonPrefixes.length ≥ maxKeys
            · -- there is no room for it
              have hpage : pageItems pre delimiter maxKeys rows (key :: keys) acc =
                  { acc with isTruncated := true, nextKeyMarker := some key } := by
                simp only [pageItems, hroll, if_neg hc, if_pos hfull]
              have hroom : maxKeys - (acc.versions.length + acc.commonPrefixes.length) = 0 := by
                omega
              rw [hpage, hroom, List.take_zero, List.drop_zero]
              refine ⟨(List.append_nil _).symm, rfl, .inr ⟨rfl, key, keys, rfl, [], seen, rfl,
                fun c' => ?_, .inl ⟨c, hroll, hnew, rfl⟩⟩⟩
              simp
            · have hpage : pageItems pre delimiter maxKeys rows (key :: keys) acc =
                  pageItems pre delimiter maxKeys rows keys
                    { acc with commonPrefixes := insertKey c acc.commonPrefixes } := by
                simp only [pageItems, hroll, if_neg hc, if_neg hfull]
              have hlen := length_insertKey hc
              obtain ⟨hv, hcp, hend⟩ := ih (c :: seen)
                { acc with commonPrefixes := insertKey c acc.commonPrefixes }
                (fun c' => by rw [List.mem_cons, hseen, mem_insertKey])
                (insertKey_sorted hsorted) (by dsimp only; omega) hmore
              dsimp only at hv hcp hend
              have hroom : maxKeys - (acc.versions.length + acc.commonPrefixes.length) =
                  maxKeys - (acc.versions.length + (insertKey c acc.commonPrefixes).length) +
                    1 := by
                omega
              rw [hpage, hroom, List.take_succ_cons, List.drop_succ_cons]
              refine ⟨hv, hcp, ?_⟩
              rcases hend with ⟨htr, hle⟩ | ⟨htr, t, rest, ht, hoff⟩
              · exact .inl ⟨htr, Nat.succ_le_succ hle⟩
              · refine .inr ⟨htr, t, rest, ht, hoff.cons fun c' => ?_⟩
                rw [hroll, List.mem_cons, Option.some.injEq, or_comm, @eq_comm _ c c']
      | none =>
          have hitems := itemsOf_plain rows seen keys hroll
          simp only [hitems]
          cases hrow : (rows key)[maxKeys -
              (acc.versions.length + acc.commonPrefixes.length)]? with
          | some ev =>
              -- not all rows of the key fit
              obtain ⟨hlt, -⟩ := List.getElem?_eq_some_iff.1 hrow
              have hpage : pageItems pre delimiter maxKeys rows (key :: keys) acc =
                  ⟨⟨acc.versions ++ (rows key).take
                      (maxKeys - (acc.versions.length + acc.commonPrefixes.length)),
                    acc.commonPrefixes, true⟩, some key, some ev.versionId⟩ := by
                simp only [pageItems, hroll, hrow]
              have hmap : maxKeys - (acc.versions.length + acc.commonPrefixes.length) ≤
                  ((rows key).map VersionItem.version).length := by
                rw [List.length_map]
                exact hlt.le
              rw [hpage, List.take_append_of_le_length hmap, List.drop_append_of_le_length hmap,
                ← List.map_take, ← List.map_drop, rowsIn_version, commonsIn_version]
              refine ⟨rfl, rfl, .inr ⟨rfl, key, keys, rfl, [], seen, rfl, fun c' => by simp,
                .inr ⟨hroll, _, ?_, rfl⟩⟩⟩
              exact fun h => absurd (List.drop_eq_nil_iff.1 h) (not_le.2 hlt)
          | none =>
              have hle := List.getElem?_eq_none_iff.1 hrow
              have hpage : pageItems pre delimiter maxKeys rows (key :: keys) acc =
                  pageItems pre delimiter maxKeys rows keys
                    { acc with versions := acc.versions ++ rows key } := by
                simp only [pageItems, hroll, hrow, List.take_of_length_le hle]
              obtain ⟨hv, hcp, hend⟩ := ih seen { acc with versions := acc.versions ++ rows key }
                hseen hsorted (by dsimp only; rw [List.length_append]; omega) hmore
              have hroom : maxKeys - ((acc.versions ++ rows key).length +
                  acc.commonPrefixes.length) =
                  maxKeys - (acc.versions.length + acc.commonPrefixes.length) -
                    ((rows key).map VersionItem.version).length := by
                rw [List.length_append, List.length_map]
                omega
              have hmap : ((rows key).map VersionItem.version).length ≤
                  maxKeys - (acc.versions.length + acc.commonPrefixes.length) := by
                rw [List.length_map]
                exact hle
              dsimp only at hv hcp hend
              rw [hroom] at hv hcp hend
              rw [hpage, List.take_append, List.drop_append,
                List.take_of_length_le hmap, List.drop_eq_nil_of_le hmap, List.nil_append,
                rowsIn_append, rowsIn_version, commonsIn_append, commonsIn_version,
                List.nil_append, ← List.append_assoc]
              refine ⟨hv, hcp, ?_⟩
              rcases hend with ⟨htr, hle'⟩ | ⟨htr, t, rest, ht, hoff⟩
              · refine .inl ⟨htr, ?_⟩
                rw [List.length_append]
                omega
              · refine .inr ⟨htr, t, rest, ht, hoff.cons fun c' => ?_⟩
                rw [hroll]
                simp

/-! ## The items all together -/

theorem rowsIn_itemsOf (pre : Str) (delimiter : Option Str) (rows : Str → List ObjectVersion)
    (keys : List Str) :
    ∀ seen : List Str, rowsIn (itemsOf pre delimiter rows seen keys) =
      (plainKeys pre delimiter keys).flatMap rows := by
  induction keys with
  | nil => exact fun _ => rfl
  | cons key keys ih =>
      intro seen
      cases hroll : rollUp pre delimiter key with
      | none =>
          have hplain : plainKeys pre delimiter (key :: keys) =
              key :: plainKeys pre delimiter keys :=
            List.filter_cons_of_pos (by rw [hroll]; rfl)
          rw [itemsOf_plain _ _ _ hroll, rowsIn_append, rowsIn_version, ih, hplain,
            List.flatMap_cons]
      | some c =>
          rw [plainKeys, List.filter_cons_of_neg (by rw [hroll]; simp)]
          by_cases hseen : c ∈ seen
          · rw [itemsOf_seen _ _ hroll hseen]
            exact ih seen
          · rw [itemsOf_unseen _ _ hroll hseen]
            exact ih (c :: seen)

/-- The common prefixes come in order. -/
theorem commonsIn_sorted {keys : List Str} (hsorted : keys.Pairwise (· < ·))
    (hpre : ∀ k ∈ keys, pre <+: k) :
    ∀ seen : List Str, (commonsIn (itemsOf pre delimiter rows seen keys)).Pairwise (· < ·) := by
  induction keys with
  | nil => exact fun _ => List.Pairwise.nil
  | cons key keys ih =>
      intro seen
      obtain ⟨hkey, hkeys⟩ := List.pairwise_cons.1 hsorted
      have ih := ih hkeys fun k hk => hpre k (List.mem_cons_of_mem _ hk)
      cases hroll : rollUp pre delimiter key with
      | none =>
          rw [itemsOf_plain _ _ _ hroll, commonsIn_append, commonsIn_version]
          exact ih seen
      | some c =>
          by_cases hseen : c ∈ seen
          · rw [itemsOf_seen _ _ hroll hseen]
            exact ih seen
          · rw [itemsOf_unseen _ _ hroll hseen]
            refine List.pairwise_cons.2 ⟨fun c' hc' => ?_, ih (c :: seen)⟩
            obtain ⟨x, hx, hxc⟩ := List.mem_filterMap.1 hc'
            cases x with
            | version r => cases hxc
            | common c'' =>
                obtain rfl := Option.some.inj hxc
                obtain ⟨hnew, k, hk, hroll'⟩ := common_mem_itemsOf hx
                exact rollUp_lt (hpre key List.mem_cons_self)
                  (hpre k (List.mem_cons_of_mem _ hk)) (hkey k hk) hroll hroll'
                  fun heq => hnew (heq ▸ List.mem_cons_self)

theorem keySet_of_sorted {l : List Str} (h : l.Pairwise (· < ·)) : keySet l = l :=
  eq_of_sorted (keySet_sorted l) h fun _ => mem_keySet

theorem mem_commonsIn_itemsOf {keys : List Str} {c : Str} :
    ∀ seen : List Str, c ∈ commonsIn (itemsOf pre delimiter rows seen keys) ↔
      c ∉ seen ∧ ∃ k ∈ keys, rollUp pre delimiter k = some c := by
  intro seen
  constructor
  · intro h
    obtain ⟨x, hx, hxc⟩ := List.mem_filterMap.1 h
    cases x with
    | version r => cases hxc
    | common c' =>
        obtain rfl := Option.some.inj hxc
        exact common_mem_itemsOf hx
  · rintro ⟨hc, k, hk, hroll⟩
    induction keys generalizing seen with
    | nil => cases hk
    | cons key keys ih =>
        rw [List.mem_cons] at hk
        cases hkey : rollUp pre delimiter key with
        | none =>
            rw [itemsOf_plain _ _ _ hkey, commonsIn_append, commonsIn_version]
            refine ih seen hc (hk.resolve_left ?_)
            rintro rfl
            exact nomatch hkey.symm.trans hroll
        | some c' =>
            have hk' : c ≠ c' → k ∈ keys := fun hne => hk.resolve_left fun heq =>
              hne (Option.some.inj (hroll.symm.trans (heq ▸ hkey)))
            by_cases hseen : c' ∈ seen
            · rw [itemsOf_seen _ _ hkey hseen]
              exact ih seen hc (hk' fun heq => hc (heq ▸ hseen))
            · rw [itemsOf_unseen _ _ hkey hseen]
              by_cases hcc : c = c'
              · exact hcc ▸ List.mem_cons_self
              · refine List.mem_cons_of_mem _ (ih (c' :: seen) ?_ (hk' hcc))
                exact fun h => (List.mem_cons.1 h).elim hcc hc

theorem commonsIn_itemsOf (delimiter : Option Str) (rows : Str → List ObjectVersion)
    {keys : List Str} (hsorted : keys.Pairwise (· < ·))
    (hpre : ∀ k ∈ keys, pre <+: k) :
    commonsIn (itemsOf pre delimiter rows [] keys) = prefixesOf pre delimiter keys := by
  refine eq_of_sorted (commonsIn_sorted hsorted hpre []) (keySet_sorted _) fun c => ?_
  show c ∈ commonsIn _ ↔ c ∈ prefixesOf pre delimiter keys
  rw [mem_commonsIn_itemsOf, mem_prefixesOf]
  exact and_iff_right List.not_mem_nil

/-! ## What is left after a page -/

/-- A common prefix left to report has another key after the one it broke off at. -/
def LeftShared (pre : Str) (delimiter : Option Str) (left : List VersionItem)
    (rest : List Str) : Prop :=
  ∃ c, left.head? = some (.common c) ∧ ∃ k ∈ rest, rollUp pre delimiter k = some c

/-- The next key marker passes over the key it names.  That loses nothing when a common
prefix is left that has another key, and otherwise something. -/
theorem BreaksOff.next {keys rest : List Str} {left : List VersionItem} {t : Str}
    (hsorted : keys.Pairwise (· < ·)) (hpre : ∀ k ∈ keys, pre <+: k)
    (h : BreaksOff pre delimiter rows [] keys left t rest) :
    (LeftShared pre delimiter left rest → itemsOf pre delimiter rows [] rest = left) ∧
    (¬ LeftShared pre delimiter left rest →
      (itemsOf pre delimiter rows [] rest).length < left.length) := by
  obtain ⟨part, seen', rfl, hmem, hleft⟩ := h
  obtain ⟨-, hrest, hacross⟩ := List.pairwise_append.1 hsorted
  obtain ⟨ht, hrest⟩ := List.pairwise_cons.1 hrest
  have hpret : pre <+: t := hpre t (List.mem_append_right _ List.mem_cons_self)
  have hprerest : ∀ k ∈ rest, pre <+: k := fun k hk =>
    hpre k (List.mem_append_right _ (List.mem_cons_of_mem _ hk))
  -- a common prefix of an earlier key and of a later one is that of `t`
  have hbetween : ∀ c ∈ seen', ∀ k ∈ rest, rollUp pre delimiter k = some c →
      rollUp pre delimiter t = some c := by
    intro c hc k hk hroll
    obtain ⟨k₀, hk₀, hroll₀⟩ := ((hmem c).1 hc).resolve_left List.not_mem_nil
    exact rollUp_between (hpre k₀ (List.mem_append_left _ hk₀)) (hprerest k hk)
      (le_of_lt (hacross k₀ hk₀ t List.mem_cons_self)) (le_of_lt (ht k hk)) hroll₀
      hroll
  rcases hleft with ⟨c, hroll, hc, rfl⟩ | ⟨hroll, more, hmore, rfl⟩
  · have hseen : itemsOf pre delimiter rows (c :: seen') rest =
        itemsOf pre delimiter rows [c] rest := by
      refine itemsOf_congr fun k hk c' hkc => ?_
      rw [List.mem_cons, List.mem_singleton]
      refine or_iff_left_of_imp fun hc' => ?_
      exact Option.some.inj ((hbetween c' hc' k hk hkc).symm.trans hroll)
    rw [hseen]
    constructor
    · rintro ⟨c', hhead, k, hk, hkc⟩
      obtain rfl := VersionItem.common.inj (Option.some.inj hhead)
      cases rest with
      | nil => cases hk
      | cons k₁ rest =>
          have hk₁ : rollUp pre delimiter k₁ = some c := by
            refine rollUp_between hpret (hprerest k hk)
              (le_of_lt (ht k₁ List.mem_cons_self)) ?_ hroll hkc
            rcases List.mem_cons.1 hk with rfl | hk
            · exact le_refl _
            · exact le_of_lt ((List.pairwise_cons.1 hrest).1 k hk)
          rw [itemsOf_unseen _ _ hk₁ List.not_mem_nil,
            itemsOf_seen _ _ hk₁ List.mem_cons_self]
    · intro hno
      have hnone : itemsOf pre delimiter rows [c] rest = itemsOf pre delimiter rows [] rest := by
        refine itemsOf_congr fun k hk c' hkc => ?_
        rw [List.mem_singleton]
        refine iff_of_false (fun heq => hno ⟨c, rfl, k, hk, heq ▸ hkc⟩) List.not_mem_nil
      rw [hnone]
      exact Nat.lt_succ_self _
  · have hseen : itemsOf pre delimiter rows seen' rest = itemsOf pre delimiter rows [] rest := by
      refine itemsOf_congr fun k hk c hkc => iff_of_false (fun hc => ?_) List.not_mem_nil
      exact nomatch hroll.symm.trans (hbetween c hc k hk hkc)
    rw [hseen]
    constructor
    · rintro ⟨c, hhead, -⟩
      cases more with
      | nil => exact absurd rfl hmore
      | cons r more => cases hhead
    · intro _
      have hpos := List.length_pos_iff.2 hmore
      rw [List.length_append, List.length_map]
      omega

/-! ## All pages -/

/-- What the markers of a version listing pass over. -/
def fromMarker (keyMarker : Option Str) (keys : List Str) : List Str :=
  keys.filter fun k => keyMarker.all fun a => decide (a < k)

theorem fromMarker_rest {keyMarker : Option Str} {keys part rest : List Str} {t : Str}
    (hsorted : keys.Pairwise (· < ·)) (h : fromMarker keyMarker keys = part ++ t :: rest) :
    fromMarker (some t) keys = rest := by
  have hpart : (part ++ t :: rest).Pairwise (· < ·) := h ▸ hsorted.filter _
  have hmem : t ∈ fromMarker keyMarker keys := h ▸ List.mem_append_right _ List.mem_cons_self
  have htwice : fromMarker (some t) keys = fromMarker (some t) (fromMarker keyMarker keys) := by
    unfold fromMarker
    rw [List.filter_filter]
    refine List.filter_congr fun k _ => ?_
    cases keyMarker with
    | none => simp
    | some a =>
        have hat : a < t := by simpa [fromMarker] using (List.mem_filter.1 hmem).2
        show decide (t < k) = (decide (t < k) && decide (a < k))
        by_cases htk : t < k
        · simp [htk, List.lt_trans hat htk]
        · simp [htk]
  obtain ⟨-, hrest, hacross⟩ := List.pairwise_append.1 hpart
  obtain ⟨ht, -⟩ := List.pairwise_cons.1 hrest
  rw [htwice, h, fromMarker, List.filter_append]
  have hnone : part.filter (fun k => (some t).all fun a => decide (a < k)) = [] := by
    refine List.filter_eq_nil_iff.2 fun k hk => ?_
    have hkt := List.lt_asymm (hacross k hk t List.mem_cons_self)
    simp [hkt]
  have hall : rest.filter (fun k => (some t).all fun a => decide (a < k)) = rest := by
    refine List.filter_eq_self.2 fun k hk => ?_
    simp [ht k hk]
  rw [hnone, List.nil_append, List.filter_cons_of_neg (by simp), hall]

/-- The markers a page names, if it is truncated. -/
def VersionPage.markers (p : VersionPage) : Option (Option Str × Option Str) :=
  if p.isTruncated then some (p.nextKeyMarker, p.nextVersionIdMarker) else none

/-- Version pages that, followed to the end, report rows and common prefixes once each. -/
structure ExactVersions (rows : List ObjectVersion) (prefixes : List Str)
    (list : Option Str × Option Str → Except S3Error VersionPage) (pages : List VersionPage) :
    Prop where
  followed : Followed list VersionPage.markers (none, none) pages
  versions : (pages.flatMap fun p => p.versions).Perm rows
  prefixes : (pages.flatMap fun p => p.commonPrefixes).Perm prefixes

/-- Two of the keys have the common prefix. -/
def Shared (pre : Str) (delimiter : Option Str) (keys : List Str) (c : Str) : Prop :=
  ∃ k ∈ keys, ∃ k' ∈ keys, k < k' ∧ rollUp pre delimiter k = some c ∧
    rollUp pre delimiter k' = some c

/-- Every page break falls before a common prefix of at least two keys. -/
def BreaksShared (pre : Str) (delimiter : Option Str) (keys : List Str) (maxKeys : Nat)
    (items : List VersionItem) : Prop :=
  ∀ j, 1 ≤ j → ∀ x, items[j * maxKeys]? = some x →
    ∃ c, x = .common c ∧ Shared pre delimiter keys c

/-- The empty page. -/
def VersionPage.start : VersionPage := ⟨⟨[], [], false⟩, none, none⟩

section

variable {keys : List Str} {maxKeys : Nat}
  {list : Option Str × Option Str → Except S3Error VersionPage}

/-- A break in the middle of a run is before a shared common prefix just when one is left
that has another key. -/
theorem leftShared_iff {keyMarker : Option Str} {ks rest : List Str} {t : Str}
    {left : List VersionItem} (hmax : 1 ≤ maxKeys) (hsorted : keys.Pairwise (· < ·))
    (hpre : ∀ k ∈ keys, pre <+: k) (hks : fromMarker keyMarker keys = ks)
    (h : BreaksOff pre delimiter rows [] ks left t rest)
    (hleft : left = (itemsOf pre delimiter rows [] ks).drop maxKeys) :
    LeftShared pre delimiter left rest ↔
      ∃ c, left.head? = some (.common c) ∧ Shared pre delimiter keys c := by
  have hrestKeys : rest = fromMarker (some t) keys := by
    obtain ⟨part, seen', hsplit, -⟩ := h
    exact (fromMarker_rest hsorted (hks.trans hsplit)).symm
  obtain ⟨part, seen', hsplit, hmem, hkind⟩ := h
  have hkeys : ∀ k ∈ ks, k ∈ keys := fun k hk => List.mem_of_mem_filter (hks ▸ hk)
  have hsortedks : (part ++ t :: rest).Pairwise (· < ·) := hsplit ▸ hks ▸ hsorted.filter _
  obtain ⟨-, htail, hacross⟩ := List.pairwise_append.1 hsortedks
  obtain ⟨ht, -⟩ := List.pairwise_cons.1 htail
  have htks : t ∈ ks := hsplit ▸ List.mem_append_right _ List.mem_cons_self
  rcases hkind with ⟨c₀, hroll, hc₀, heq⟩ | ⟨hroll, more, hmore, heq⟩
  · constructor
    · rintro ⟨c, hhead, k, hk, hkc⟩
      rw [heq] at hhead
      obtain rfl := VersionItem.common.inj (Option.some.inj hhead)
      refine ⟨_, by rw [heq]; rfl, t, hkeys t htks, k, ?_, ht k hk, hroll, hkc⟩
      rw [hrestKeys] at hk
      exact List.mem_of_mem_filter hk
    · rintro ⟨c, hhead, k, hk, k', hk', hlt, hkc, hkc'⟩
      have hcc : c₀ = c := by
        rw [heq] at hhead
        exact VersionItem.common.inj (Option.some.inj hhead)
      subst hcc
      refine ⟨c₀, hhead, k', ?_, hkc'⟩
      have htk' : t < k' := by
        by_contra hle
        have hkt : k < t := by
          rcases le_iff_lt_or_eq.1 (not_lt.1 hle) with h' | rfl
          · exact List.lt_trans hlt h'
          · exact hlt
        have hpart : ∀ p ∈ part, rollUp pre delimiter p ≠ some c₀ := fun p hp hpc =>
          hc₀ ((hmem c₀).2 (.inr ⟨p, hp, hpc⟩))
        by_cases hkks : k ∈ ks
        · rw [hsplit, List.mem_append, List.mem_cons] at hkks
          rcases hkks with hkp | rfl | hkr
          · exact hpart k hkp hkc
          · exact List.lt_irrefl _ hkt
          · exact List.lt_asymm hkt (ht k hkr)
        · -- the keys from the marker to `t` would all have this common prefix
          cases part with
          | nil =>
              rw [hleft, hsplit, List.nil_append, itemsOf_unseen _ _ hroll List.not_mem_nil]
                at hhead
              obtain ⟨m, rfl⟩ := Nat.exists_eq_succ_of_ne_zero (Nat.one_le_iff_ne_zero.1 hmax)
              rw [List.drop_succ_cons] at hhead
              have hin := List.mem_of_mem_drop (List.mem_of_mem_head? hhead)
              exact (common_mem_itemsOf hin).1 List.mem_cons_self
          | cons p part =>
              have hp : p ∈ ks := hsplit ▸ List.mem_append_left _ List.mem_cons_self
              have hkp : k ≤ p := by
                refine not_lt.1 fun hpk => hkks ?_
                rw [← hks] at hp ⊢
                refine List.mem_filter.2 ⟨hk, ?_⟩
                have hap := (List.mem_filter.1 hp).2
                cases keyMarker with
                | none => rfl
                | some a =>
                    have hap : a < p := by simpa using hap
                    simpa using List.lt_trans hap hpk
              refine hpart p List.mem_cons_self (rollUp_between (hpre k hk) (hpre t (hkeys t htks))
                hkp (le_of_lt (hacross p List.mem_cons_self t List.mem_cons_self)) hkc hroll)
      rw [hrestKeys]
      exact List.mem_filter.2 ⟨hk', by simpa using htk'⟩
  · have hno : ∀ c, left.head? ≠ some (.common c) := by
      intro c hhead
      rw [heq] at hhead
      cases more with
      | nil => exact hmore rfl
      | cons r more => cases hhead
    exact iff_of_false (fun h => hno _ h.choose_spec.1) fun h => hno _ h.choose_spec.1

/-- One page: what it holds, and what the markers it names leave. -/
theorem version_page (hsorted : keys.Pairwise (· < ·)) (hpre : ∀ k ∈ keys, pre <+: k)
    (hlist : ∀ markers, list markers = .ok (pageItems pre delimiter maxKeys rows
      (fromMarker markers.1 keys) .start)) {markers : Option Str × Option Str}
    {p : VersionPage} (hp : list markers = .ok p) :
    let items := itemsOf pre delimiter rows [] (fromMarker markers.1 keys)
    p.versions = rowsIn (items.take maxKeys) ∧
    p.commonPrefixes = commonsIn (items.take maxKeys) ∧
    (p.markers = none → items.length ≤ maxKeys) ∧
    ∀ markers', p.markers = some markers' → ∃ t rest, fromMarker markers'.1 keys = rest ∧
      BreaksOff pre delimiter rows [] (fromMarker markers.1 keys) (items.drop maxKeys) t rest := by
  rw [hlist] at hp
  obtain rfl := Except.ok.inj hp
  obtain ⟨hv, hc, hend⟩ := pageItems_spec pre delimiter rows maxKeys
    (fromMarker markers.1 keys) [] .start (fun c => Iff.rfl) List.Pairwise.nil
    (Nat.zero_le _) rfl
  refine ⟨hv, hc.trans (keySet_of_sorted ?_), fun hnone => ?_, fun markers' hsome => ?_⟩
  · refine List.Pairwise.sublist ((List.take_sublist _ _).filterMap _)
      (commonsIn_sorted (hsorted.filter _) (fun k hk => ?_) [])
    exact hpre k (List.mem_of_mem_filter hk)
  · refine (hend.resolve_right fun h => ?_).2
    rw [VersionPage.markers, if_pos h.1] at hnone
    cases hnone
  · rw [VersionPage.markers] at hsome
    split at hsome
    · rename_i hmore
      obtain ⟨-, t, rest, ht, hoff⟩ := hend.resolve_left fun h => nomatch hmore.symm.trans h.1
      refine ⟨t, rest, ?_, hoff⟩
      obtain ⟨part, seen', hsplit, -⟩ := hoff
      rw [← Option.some.inj hsome]
      show fromMarker (pageItems pre delimiter maxKeys rows (fromMarker markers.1 keys)
        .start).nextKeyMarker keys = rest
      rw [ht]
      exact fromMarker_rest hsorted hsplit
    · cases hsome

/-- How much the pages from a marker on report, and when it is everything. -/
theorem versions_total (hmax : 1 ≤ maxKeys) (hsorted : keys.Pairwise (· < ·))
    (hpre : ∀ k ∈ keys, pre <+: k)
    (hlist : ∀ markers, list markers = .ok (pageItems pre delimiter maxKeys rows
      (fromMarker markers.1 keys) .start)) {markers : Option Str × Option Str}
    {pages : List VersionPage} (h : Followed list VersionPage.markers markers pages) :
    let items := itemsOf pre delimiter rows [] (fromMarker markers.1 keys)
    let total := (pages.flatMap fun p => p.versions).length +
      (pages.flatMap fun p => p.commonPrefixes).length
    total ≤ items.length ∧
    (total = items.length → pages.flatMap (fun p => p.versions) = rowsIn items ∧
      pages.flatMap (fun p => p.commonPrefixes) = commonsIn items ∧
      BreaksShared pre delimiter keys maxKeys items) ∧
    (BreaksShared pre delimiter keys maxKeys items → total = items.length) := by
  induction h with
  | @last markers p hp hnext =>
      obtain ⟨hv, hc, hend, -⟩ := version_page hsorted hpre hlist hp
      have hle := hend hnext
      rw [List.take_of_length_le hle] at hv hc
      simp only [List.flatMap_singleton, hv, hc, length_rowsIn_add]
      refine ⟨le_rfl, fun _ => ⟨trivial, trivial, fun j hj x hx => ?_⟩, fun _ => trivial⟩
      have hlt := (List.getElem?_eq_some_iff.1 hx).1
      have hj' : 1 * maxKeys ≤ j * maxKeys := Nat.mul_le_mul_right maxKeys hj
      omega
  | @more markers markers' p ps hp hnext hrest ih =>
      obtain ⟨hv, hc, -, hmore⟩ := version_page hsorted hpre hlist hp
      obtain ⟨t, rest, hfrom, hoff⟩ := hmore markers' hnext
      have hshared := leftShared_iff hmax hsorted hpre rfl hoff rfl
      obtain ⟨hgood, hbad⟩ := hoff.next (hsorted.filter _)
        fun k hk => hpre k (List.mem_of_mem_filter hk)
      rw [hfrom] at ih
      generalize hI : itemsOf pre delimiter rows [] (fromMarker markers.1 keys) = items at *
      generalize hJ : itemsOf pre delimiter rows [] rest = after at *
      obtain ⟨ihle, ihall, ihgood⟩ := ih
      have htake := length_rowsIn_add (items.take maxKeys)
      have hsum : (items.take maxKeys).length + (items.drop maxKeys).length = items.length := by
        rw [← List.length_append, List.take_append_drop]
      have hshift : ∀ j, (items.drop maxKeys)[j * maxKeys]? = items[(j + 1) * maxKeys]? := by
        intro j
        rw [List.getElem?_drop, Nat.succ_mul, Nat.add_comm]
      have hfirst : (items.drop maxKeys).head? = items[1 * maxKeys]? := by
        rw [List.head?_drop, Nat.one_mul]
      simp only [List.flatMap_cons, List.length_append, hv, hc]
      by_cases hls : LeftShared pre delimiter (items.drop maxKeys) rest
      · obtain rfl := (hgood hls).symm
        refine ⟨by omega, fun htotal => ?_, fun hbreaks => ?_⟩
        · obtain ⟨hrows, hcommons, hbreaks⟩ := ihall (by omega)
          rw [hrows, hcommons, ← rowsIn_append, ← commonsIn_append, List.take_append_drop]
          refine ⟨rfl, rfl, fun j hj x hx => ?_⟩
          obtain ⟨i, rfl⟩ := Nat.exists_eq_succ_of_ne_zero (Nat.one_le_iff_ne_zero.1 hj)
          cases i with
          | zero =>
              obtain ⟨c, hhead, hsh⟩ := hshared.1 hls
              rw [hfirst] at hhead
              exact ⟨c, Option.some.inj (hx.symm.trans hhead), hsh⟩
          | succ i =>
              exact hbreaks (i + 1) (Nat.succ_le_succ (Nat.zero_le i)) x
                ((hshift (i + 1)).trans hx)
        · have hafter := ihgood fun j hj x hx =>
            hbreaks (j + 1) (Nat.le_succ_of_le hj) x ((hshift j).symm.trans hx)
          omega
      · have hlt := hbad hls
        refine ⟨by omega, fun htotal => ?_, fun hbreaks => ?_⟩
        · exact absurd htotal (by omega)
        · refine absurd (hshared.2 ?_) hls
          have hne : items.drop maxKeys ≠ [] := by
            rw [← List.length_pos_iff]
            omega
          obtain ⟨x, more, hx⟩ := List.exists_cons_of_ne_nil hne
          have hx : items[1 * maxKeys]? = some x := by rw [← hfirst, hx]; rfl
          obtain ⟨c, rfl, hsh⟩ := hbreaks 1 le_rfl x hx
          exact ⟨c, hfirst.trans hx, hsh⟩

/-- A listing that names its page breaks so is exact just when each falls before a common
prefix of at least two keys. -/
theorem exactVersions_iff (hmax : 1 ≤ maxKeys) (hsorted : keys.Pairwise (· < ·))
    (hpre : ∀ k ∈ keys, pre <+: k)
    (hlist : ∀ markers, list markers = .ok (pageItems pre delimiter maxKeys rows
      (fromMarker markers.1 keys) .start)) :
    (∃ pages, ExactVersions ((plainKeys pre delimiter keys).flatMap rows)
      (prefixesOf pre delimiter keys) list pages) ↔
      BreaksShared pre delimiter keys maxKeys (itemsOf pre delimiter rows [] keys) := by
  have hnone : fromMarker none keys = keys := List.filter_eq_self.2 fun _ _ => rfl
  have hrows := rowsIn_itemsOf pre delimiter rows keys []
  have hcommons := commonsIn_itemsOf delimiter rows hsorted hpre
  have hlen := length_rowsIn_add (itemsOf pre delimiter rows [] keys)
  constructor
  · rintro ⟨pages, hpages, hversions, hprefixes⟩
    obtain ⟨-, hall, -⟩ := versions_total hmax hsorted hpre hlist hpages
    rw [hnone] at hall
    refine (hall ?_).2.2
    rw [hversions.length_eq, hprefixes.length_eq, ← hrows, ← hcommons]
    exact hlen
  · intro hbreaks
    obtain ⟨pages, hpages⟩ : ∃ pages, Followed list VersionPage.markers (none, none) pages := by
      refine Followed.total (fun _ => True)
        (fun markers => (fromMarker markers.1 keys).length) (fun markers _ => ?_) trivial
      refine ⟨_, hlist markers, fun markers' hnext => ⟨trivial, ?_⟩⟩
      obtain ⟨-, -, -, hmore⟩ := version_page hsorted hpre hlist (hlist markers)
      obtain ⟨t, rest, hfrom, part, seen', hsplit, -⟩ := hmore markers' hnext
      rw [hfrom, hsplit, List.length_append, List.length_cons]
      omega
    obtain ⟨-, hall, hgood⟩ := versions_total hmax hsorted hpre hlist hpages
    rw [hnone] at hall hgood
    obtain ⟨hv, hc, -⟩ := hall (hgood hbreaks)
    exact ⟨pages, hpages, .of_eq (hv.trans hrows), .of_eq (hc.trans hcommons)⟩

theorem BreaksOff.ne_nil {seen keys rest : List Str} {left : List VersionItem} {t : Str}
    (h : BreaksOff pre delimiter rows seen keys left t rest) : left ≠ [] := by
  obtain ⟨part, seen', -, -, ⟨c, -, -, rfl⟩ | ⟨-, more, hmore, rfl⟩⟩ := h
  · exact List.cons_ne_nil _ _
  · exact fun h => hmore (List.map_eq_nil_iff.1 (List.append_eq_nil_iff.1 h).1)

/-- A listing that gives no markers, and takes none, is exact just when all items fit on one
page. -/
theorem exactVersions_iff_fits (hsorted : keys.Pairwise (· < ·)) (hpre : ∀ k ∈ keys, pre <+: k)
    (hlist : ∀ markers, list markers = .ok
      ⟨(pageItems pre delimiter maxKeys rows keys .start).toVersionListing, none, none⟩) :
    (∃ pages, ExactVersions ((plainKeys pre delimiter keys).flatMap rows)
      (prefixesOf pre delimiter keys) list pages) ↔
      (itemsOf pre delimiter rows [] keys).length ≤ maxKeys := by
  obtain ⟨hv, hc, hend⟩ := pageItems_spec pre delimiter rows maxKeys keys [] .start
    (fun c => Iff.rfl) List.Pairwise.nil (Nat.zero_le _) rfl
  constructor
  · rintro ⟨pages, hpages, -, -⟩
    -- every page is the first one
    have hlast : (pageItems pre delimiter maxKeys rows keys .start).isTruncated = false := by
      obtain ⟨markers, p, hp, hnext⟩ := hpages.exists_last
      rw [hlist] at hp
      rw [← Except.ok.inj hp, VersionPage.markers] at hnext
      by_contra htr
      rw [if_pos (by simpa using htr)] at hnext
      cases hnext
    exact (hend.resolve_right fun h => nomatch hlast.symm.trans h.1).2
  · intro hfits
    have hlast := (hend.resolve_right fun ⟨_, t, rest, _, hoff⟩ =>
      hoff.ne_nil (List.drop_eq_nil_of_le hfits)).1
    rw [show maxKeys - (VersionPage.start.versions.length +
      VersionPage.start.commonPrefixes.length) = maxKeys from rfl,
      List.take_of_length_le hfits] at hv hc
    refine ⟨_, .last (hlist _) ?_, ?_, ?_⟩
    · exact if_neg (by rw [hlast]; exact Bool.false_ne_true)
    · rw [List.flatMap_singleton]
      exact .of_eq (hv.trans (rowsIn_itemsOf pre delimiter rows keys []))
    · rw [List.flatMap_singleton]
      refine .of_eq (hc.trans ?_)
      have hcommons := commonsIn_itemsOf delimiter rows hsorted hpre
      rw [hcommons]
      exact keySet_of_sorted (keySet_sorted _)

end

end

end Kerplace
