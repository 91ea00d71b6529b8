/-
# `Kerplace.Handlers.Metadata` — user metadata, from the headers and back

A write takes the `x-amz-meta-` headers of its request into a map, and a read puts the map back
into the headers of its answer.  The last readable text of a name is the one that comes back,
and no entry of the map can be sent under another header's name.
-/
import Kerplace.Handlers.BucketApi

namespace Kerplace

/-! ## Maps -/

/-- The names of a map are in order. -/
def Ascending (m : UserMeta) : Prop := (m.map Prod.fst).Pairwise (· < ·)

theorem lookup_pair (k : Str) (p : Str × Str) (m : UserMeta) :
    List.lookup k (p :: m) = if k = p.1 then some p.2 else m.lookup k := by
  rw [List.lookup_cons]
  by_cases h : k = p.1
  · rw [if_pos h, beq_iff_eq.2 h]
  · rw [if_neg h, beq_eq_false_iff_ne.2 h]

theorem lookup_mapInsert (name value k : Str) (m : UserMeta) :
    (mapInsert name value m).lookup k = if k = name then some value else m.lookup k := by
  induction m with
  | nil => exact lookup_pair k (name, value) []
  | cons p m ih =>
      rw [mapInsert]
      split
      · exact lookup_pair k (name, value) (p :: m)
      split
      · rename_i hname
        rw [lookup_pair, lookup_pair, ← hname]
        split <;> rfl
      · rename_i hne
        rw [lookup_pair, lookup_pair, ih]
        by_cases h : k = p.1
        · rw [if_pos h, if_pos h, if_neg fun h0 => hne (h0.symm.trans h)]
        · rw [if_neg h, if_neg h]

theorem mem_mapInsert {name value : Str} {m : UserMeta} {p : Str × Str}
    (hp : p ∈ mapInsert name value m) : p = (name, value) ∨ p ∈ m := by
  induction m with
  | nil => exact .inl (List.mem_singleton.1 hp)
  | cons p' m ih =>
      rw [mapInsert] at hp
      split at hp
      · exact List.mem_cons.1 hp
      split at hp
      · exact (List.mem_cons.1 hp).imp_right (List.mem_cons_of_mem _)
      · rcases List.mem_cons.1 hp with rfl | hp
        · exact .inr List.mem_cons_self
        · exact (ih hp).imp_right (List.mem_cons_of_mem _)

theorem Ascending.insert {m : UserMeta} (hm : Ascending m) (name value : Str) :
    Ascending (mapInsert name value m) := by
  induction m with
  | nil => exact List.pairwise_singleton _ _
  | cons p m ih =>
      obtain ⟨hfirst, hrest⟩ := List.pairwise_cons.1 hm
      rw [mapInsert]
      split
      · rename_i hlt
        refine List.pairwise_cons.2 ⟨fun k hk => ?_, hm⟩
        rcases List.mem_cons.1 hk with rfl | hk
        · exact hlt
        · exact hlt.trans (hfirst k hk)
      split
      · rename_i hname
        exact List.pairwise_cons.2 ⟨fun k hk => hname ▸ hfirst k hk, hrest⟩
      · rename_i hlt hne
        refine List.pairwise_cons.2 ⟨fun k hk => ?_, ih hrest⟩
        obtain ⟨q, hq, rfl⟩ := List.mem_map.1 hk
        rcases mem_mapInsert hq with rfl | hq
        · exact lt_of_le_of_ne (not_lt.1 hlt) fun h => hne h.symm
        · exact hfirst _ (List.mem_map_of_mem hq)

theorem collectMap_spec (pairs : List (Str × Str)) :
    Ascending (collectMap pairs) ∧ ∀ k, (collectMap pairs).lookup k =
      ((pairs.filter fun p => decide (p.1 = k)).getLast?).map Prod.snd := by
  induction pairs using List.reverseRecOn with
  | nil => exact ⟨List.Pairwise.nil, fun k => rfl⟩
  | append_singleton pairs p ih =>
      have hstep : collectMap (pairs ++ [p]) = mapInsert p.1 p.2 (collectMap pairs) := by
        rw [collectMap, List.foldl_append]
        rfl
      rw [hstep]
      refine ⟨ih.1.insert _ _, fun k => ?_⟩
      rw [lookup_mapInsert, ih.2, List.filter_append]
      by_cases h : p.1 = k
      · simp [h]
      · simp [h, Ne.symm h]

/-! ## Headers -/

namespace Headers

theorem get_insert (h : Headers) (name text k : Str) :
    (h.insert name text).get k = if k = name then some text else h.get k := by
  unfold get insert
  rw [List.find?_append]
  by_cases hk : k = name
  · have hnone : (h.filter fun p => decide (p.1 ≠ name)).find? (fun p => decide (p.1 = k)) =
        none := by
      refine List.find?_eq_none.2 fun p hp => ?_
      have hne := of_decide_eq_true (List.mem_filter.1 hp).2
      exact fun h0 => hne ((of_decide_eq_true h0).trans hk)
    rw [hnone, if_pos hk]
    simp [hk]
  · rw [if_neg hk]
    have hlast : List.find? (fun p => decide (p.1 = k)) [(name, text)] = none :=
      List.find?_eq_none.2 fun p hp h0 => by
        rw [List.mem_singleton.1 hp] at h0
        exact hk (of_decide_eq_true h0).symm
    rw [hlast, Option.or_none, List.find?_filter]
    congr 2
    funext p
    by_cases hp : p.1 = k
    · simp [hp, hk]
    · simp [hp]

theorem get_set_of_ne (h : Headers) {name k : Str} (text : Str) (hk : k ≠ name) :
    (h.set name text).get k = h.get k := by
  unfold set
  split
  · rw [get_insert, if_neg hk]
  · rfl

theorem get_setOpt_of_ne (h : Headers) {name k : Str} (text : Option Str) (hk : k ≠ name) :
    (h.setOpt name text).get k = h.get k := by
  cases text with
  | none => rfl
  | some v => exact get_set_of_ne h v hk

theorem get_setSse_of_ne (h : Headers) {k : Str} (encrypted : Bool) (hk : k ≠ X_AMZ_SSE) :
    (h.setSse encrypted).get k = h.get k := by
  unfold setSse
  split
  · rw [get_insert, if_neg hk]
  · rfl

theorem meta_of_headerName {suffix name : Str} (h : headerName (X_AMZ_META ++ suffix) = some name) :
    X_AMZ_META <+: name := by
  unfold headerName at h
  split at h
  · rw [← Option.some.inj h, List.map_append]
    exact List.prefix_append _ _
  · cases h

theorem get_setUser_other (h : Headers) (entry : Str × Str) {k : Str} (hk : ¬ X_AMZ_META <+: k) :
    (h.setUser entry).get k = h.get k := by
  unfold setUser
  split
  · rename_i name v hname hv
    have hne : k ≠ name := fun h0 => hk (h0 ▸ meta_of_headerName hname)
    rw [get_insert, if_neg hne]
  · rfl

theorem get_users_other (m : UserMeta) (h : Headers) {k : Str} (hk : ¬ X_AMZ_META <+: k) :
    (m.foldl setUser h).get k = h.get k := by
  induction m generalizing h with
  | nil => rfl
  | cons entry m ih =>
      rw [List.foldl_cons, ih, get_setUser_other h entry hk]

/-- An entry that can be sent as it is. -/
def Sendable (entry : Str × Str) : Prop :=
  headerName (X_AMZ_META ++ entry.1) = some (X_AMZ_META ++ entry.1) ∧
    headerValue entry.2 = some entry.2

/-- User headers are those of the map. -/
theorem get_users {m : UserMeta} (hm : ∀ entry ∈ m, Sendable entry) (hasc : Ascending m)
    (h : Headers) (k : Str) :
    (m.foldl setUser h).get (X_AMZ_META ++ k) = (m.lookup k).or (h.get (X_AMZ_META ++ k)) := by
  induction m generalizing h with
  | nil => rfl
  | cons entry m ih =>
      obtain ⟨hfirst, hrest⟩ := List.pairwise_cons.1 hasc
      obtain ⟨hname, hvalue⟩ := hm entry List.mem_cons_self
      have hstep : h.setUser entry = h.insert (X_AMZ_META ++ entry.1) entry.2 := by
        unfold setUser
        rw [hname, hvalue]
      rw [List.foldl_cons, ih (fun e he => hm e (List.mem_cons_of_mem _ he)) hrest, hstep,
        get_insert, lookup_pair]
      by_cases hk : k = entry.1
      · -- The rest of the map has other names.
        have hnone : m.lookup k = none := by
          rw [List.lookup_eq_none_iff]
          intro p hp
          have hlt := hfirst _ (List.mem_map_of_mem hp)
          exact bne_iff_ne.2 fun h0 => hlt.ne (hk.symm.trans h0)
        rw [hnone, if_pos (hk ▸ rfl), if_pos hk]
        rfl
      · rw [if_neg fun h0 => hk (List.append_cancel_left h0), if_neg hk]

end Headers

/-! ## There and back -/

/-- A request as the HTTP library hands it on: its names can be sent as they are, and so can the
texts that can be read. -/
structure Request.Sendable (req : Request) : Prop where
  names : ∀ h ∈ req.headers, headerName h.1 = some h.1
  texts : ∀ h ∈ req.headers, ∀ v, h.2 = some v → headerValue v = some v

/-- The last readable text of a name. -/
def Request.lastReadable (req : Request) (name : Str) : Option Str :=
  (req.headers.filterMap fun h => if h.1 = name then h.2 else none).getLast?

theorem userHeader_eq_some {h : Str × Option Str} {p : Str × Str} :
    userHeader h = some p ↔ h.1 = X_AMZ_META ++ p.1 ∧ h.2 = some p.2 := by
  unfold userHeader
  constructor
  · intro hp
    obtain ⟨suffix, hsuffix, hp⟩ := Option.bind_eq_some_iff.1 hp
    obtain ⟨v, hv, hp⟩ := Option.bind_eq_some_iff.1 hp
    cases hp
    obtain ⟨pre, hname, hpre⟩ := List.dropPrefix?_eq_some_iff.1 hsuffix
    exact ⟨beq_iff_eq.1 hpre ▸ hname, hv⟩
  · rintro ⟨hname, hv⟩
    rw [hname, List.dropPrefix?_append_of_beq p.1 BEq.rfl, hv]
    rfl

theorem mem_collectMap {pairs : List (Str × Str)} {p : Str × Str} (hp : p ∈ collectMap pairs) :
    p ∈ pairs := by
  induction pairs using List.reverseRecOn with
  | nil => exact hp
  | append_singleton pairs q ih =>
      rw [collectMap, List.foldl_append] at hp
      rcases mem_mapInsert hp with rfl | hp
      · exact List.mem_append_right _ (List.mem_singleton.2 rfl)
      · exact List.mem_append_left _ (ih hp)

/-- The pairs of a suffix are the readable texts of its name. -/
theorem texts_of_suffix (headers : List (Str × Option Str)) (suffix : Str) :
    (((headers.filterMap userHeader).filter fun p => decide (p.1 = suffix)).map Prod.snd) =
      headers.filterMap fun h => if h.1 = X_AMZ_META ++ suffix then h.2 else none := by
  induction headers with
  | nil => rfl
  | cons h headers ih =>
      cases hu : userHeader h with
      | none =>
          rw [List.filterMap_cons_none hu, ih, List.filterMap_cons_none]
          split
          · rename_i hname
            cases hv : h.2 with
            | none => rfl
            | some v =>
                have huser : userHeader h = some (suffix, v) := userHeader_eq_some.2 ⟨hname, hv⟩
                cases huser.symm.trans hu
          · rfl
      | some p =>
          obtain ⟨hname, hv⟩ := userHeader_eq_some.1 hu
          rw [List.filterMap_cons_some hu, List.filter_cons]
          by_cases hp : p.1 = suffix
          · rw [if_pos (decide_eq_true hp), List.map_cons, ih, List.filterMap_cons_some]
            rw [if_pos (hp ▸ hname), hv]
          · rw [if_neg (by simpa using hp), ih, List.filterMap_cons_none]
            refine if_neg fun h0 => hp (List.append_cancel_left (hname.symm.trans h0))

theorem get_fixed (httpDate : Int → Str) (m : ObjectMeta) (hm : m.userMetadata = [])
    (suffix : Str) : (objectHeaders httpDate m).get (X_AMZ_META ++ suffix) = none := by
  have hne {name : Str} (h : ¬ X_AMZ_META <+: name) : X_AMZ_META ++ suffix ≠ name := fun h0 =>
    h (h0 ▸ List.prefix_append _ _)
  unfold objectHeaders
  rw [hm]
  dsimp only [List.foldl_nil]
  rw [Headers.get_setOpt_of_ne _ _ (hne (by decide)),
    Headers.get_setOpt_of_ne _ _ (hne (by decide)),
    Headers.get_setOpt_of_ne _ _ (hne (by decide)), Headers.get_setSse_of_ne _ _ (hne (by decide)),
    Headers.get_insert, if_neg (hne (by decide)), Headers.get_set_of_ne _ _ (hne (by decide)),
    Headers.get_set_of_ne _ _ (hne (by decide)), Headers.get_set_of_ne _ _ (hne (by decide))]
  rfl

/-- The user metadata of a request come back: an object that has them is answered with the last
readable text of each of their names, and no other header depends on them. -/
theorem metadata_echoed {req : Request} (hreq : req.Sendable) (httpDate : Int → Str)
    {m : ObjectMeta} (hm : m.userMetadata = extractUserMetadata req) :
    (∀ suffix, (objectHeaders httpDate m).get (X_AMZ_META ++ suffix) =
      req.lastReadable (X_AMZ_META ++ suffix)) ∧
    ∀ name, ¬ X_AMZ_META <+: name → (objectHeaders httpDate m).get name =
      (objectHeaders httpDate { m with userMetadata := [] }).get name := by
  have hheaders : objectHeaders httpDate m = (extractUserMetadata req).foldl Headers.setUser
      (objectHeaders httpDate { m with userMetadata := [] }) := by
    rw [← hm]
    rfl
  rw [hheaders]
  constructor
  · intro suffix
    obtain ⟨hasc, hlast⟩ := collectMap_spec (req.headers.filterMap userHeader)
    have hsend : ∀ entry ∈ extractUserMetadata req, Headers.Sendable entry := by
      intro entry hentry
      obtain ⟨h, hh, huser⟩ := List.mem_filterMap.1 (mem_collectMap hentry)
      obtain ⟨hname, hv⟩ := userHeader_eq_some.1 huser
      exact ⟨hname ▸ hreq.names h hh, hreq.texts h hh _ hv⟩
    rw [Headers.get_users hsend hasc, get_fixed httpDate _ rfl, Option.or_none,
      extractUserMetadata, hlast, ← List.getLast?_map, texts_of_suffix]
    rfl
  · exact fun name hname => Headers.get_users_other _ _ hname

/-- A request that names a colour twice. -/
def coloured : Request :=
  ⟨.put, "/b/k".toList, none, [("x-amz-meta-colour".toList, some "red".toList),
    ("x-amz-meta-colour".toList, some "blue".toList)], none⟩

/-- The second one comes back. -/
theorem metadata_echoed_coloured :
    (objectHeaders (fun _ => []) ⟨"k".toList, 0, [], 0, [], extractUserMetadata coloured, false,
      none, none⟩).get (X_AMZ_META ++ "colour".toList) = some "blue".toList := by
  have hsend : coloured.Sendable := by
    constructor
    · decide +kernel
    · intro h hh v hv
      rcases List.mem_cons.1 hh with rfl | hh
      · obtain rfl := Option.some.inj hv
        decide +kernel
      · rw [List.mem_singleton.1 hh] at hv
        obtain rfl := Option.some.inj hv
        decide +kernel
  refine ((metadata_echoed hsend (fun _ => []) rfl).1 "colour".toList).trans ?_
  decide +kernel

end Kerplace
