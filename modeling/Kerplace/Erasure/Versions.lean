/-
# `Kerplace.Erasure.Versions` — what healthy drives have of a key is its versions

With every drive in reach and none of them failing, all have the same of a key: a list of
versions, the newest payload at the current slot, every older one in the archive under its
id, and a history with an entry for each.  Each call on the key changes the list as its
name says, whatever its bookkeeping moves to and fro on the way.
-/
import Kerplace.Erasure.Copies
import Kerplace.Erasure.Deletes

namespace Kerplace

open FileTree ErasureStore Versions

/-- The versions of a key on the sharded store. -/
abbrev KeyVersions := Versions Str VEntry Copy

/-- The entry of a version says what the version is. -/
def Version.Fits (v : Version Str VEntry Copy) : Prop :=
  v.info.versionId = v.id ∧ v.info.deleteMarker = v.body.isNone

/-- What was written before there was a history. -/
def legacyVersion (c : Copy) : Version Str VEntry Copy := ⟨NULL, legacyEntry c.xl, some c⟩

/-- A drive has a key's versions: each payload in its slot and an entry for each in the
history, which may be missing while nothing or one legacy payload is there. -/
structure KeyState.Records (k : KeyState) (vs : KeyVersions) : Prop where
  distinct : vs.Distinct
  fits : ∀ v ∈ vs, v.Fits
  slots : k.slot = Versions.slot vs
  history : (∃ e, k.history = some ⟨vs.map Version.info, e⟩) ∨
    k.history = none ∧ (vs = [] ∨ ∃ c, vs = [legacyVersion c])

/-- A history, the current slot and the archive belong together: the entries are of different
ids, the newest has its payload at the current slot and every other in the archive unless it
is a delete marker, and nothing is in the archive without an entry. -/
structure KeyState.Consistent (k : KeyState) : Prop where
  distinct : ∀ h, k.history = some h → (h.versions.map VEntry.versionId).Nodup
  newest : ∀ h e es, k.history = some h → h.versions = e :: es →
    (k.slot none).isNone = e.deleteMarker
  archived : ∀ h e es, k.history = some h → h.versions = e :: es →
    ∀ x ∈ es, (k.slot (some x.versionId)).isNone = x.deleteMarker
  listed : ∀ i c, k.slot (some i) = some c → ∃ h e es, k.history = some h ∧
    h.versions = e :: es ∧ ∃ x ∈ es, x.versionId = i ∧ x.deleteMarker = false

/-- Drives that have a key's versions have them so. -/
theorem KeyState.Records.consistent {k : KeyState} {vs : KeyVersions} (h : k.Records vs) :
    k.Consistent := by
  have hhist : ∀ hist, k.history = some hist → hist.versions = vs.map Version.info := by
    intro hist hsome
    rcases h.history with ⟨e, he⟩ | ⟨hnone, -⟩
    · exact Option.some.inj (hsome.symm.trans he) ▸ rfl
    · rw [hnone] at hsome
      cases hsome
  have hids : (vs.map Version.info).map VEntry.versionId = vs.map Version.id := by
    rw [List.map_map]
    exact List.map_congr_left fun v hv => (h.fits v hv).1
  refine ⟨fun hist hsome => ?_, fun hist e es hsome hcons => ?_,
    fun hist e es hsome hcons x hx => ?_, fun i c hslot => ?_⟩
  · rw [hhist hist hsome, hids]
    exact h.distinct
  · rw [hhist hist hsome] at hcons
    cases vs with
    | nil => cases hcons
    | cons v vs =>
        obtain ⟨rfl, -⟩ := List.cons.inj hcons
        rw [h.slots]
        exact (h.fits v List.mem_cons_self).2.symm
  · rw [hhist hist hsome] at hcons
    cases vs with
    | nil => cases hcons
    | cons v vs =>
        obtain ⟨-, rfl⟩ := List.cons.inj hcons
        obtain ⟨w, hw, rfl⟩ := List.mem_map.1 hx
        obtain ⟨hid, hmarker⟩ := h.fits w (List.mem_cons_of_mem _ hw)
        rw [h.slots, hid, hmarker]
        show (payload vs w.id).isNone = _
        rw [payload, lookup_of_mem (List.nodup_cons.1 h.distinct).2 hw]
        rfl
  · rw [h.slots] at hslot
    cases vs with
    | nil => cases hslot
    | cons v vs =>
        obtain ⟨w, hlook, hbody⟩ :=
          Option.bind_eq_some_iff.1 (show payload vs i = some c from hslot)
        have hw := lookup_mem hlook
        obtain ⟨hid, hmarker⟩ := h.fits w (List.mem_cons_of_mem _ hw)
        rcases h.history with ⟨e, he⟩ | ⟨-, hvs⟩
        · refine ⟨_, v.info, vs.map Version.info, he, rfl, w.info, List.mem_map_of_mem hw,
            hid.trans (lookup_id hlook), ?_⟩
          rw [hmarker, hbody]
          rfl
        · rcases hvs with hnil | ⟨c', hone⟩
          · cases hnil
          · rw [(List.cons.inj hone).2] at hw
            cases hw

/-! ## Drives that have the same -/

namespace KeyStates

variable {n : Nat} {site : Site n} {k : KeyState}

theorem onUp_same (hup : ∀ d, site.up d = true) (f : KeyState → KeyState) :
    KeyStates.onUp site f (fun _ => k) = fun _ => f k := by
  funext d
  rw [KeyStates.onUp, if_pos (hup d)]

theorem record_same (hup : ∀ d, site.up d = true) (h : VHistory) :
    KeyStates.record site h (fun _ => k) = fun _ => k.record { h with epoch := h.epoch + 1 } :=
  onUp_same hup _

theorem historyUp_same (hup : ∀ d, site.up d = true) (d : Fin n) :
    KeyStates.historyUp site (fun _ => k) = k.history.getD ⟨[], 0⟩ := by
  have hfound : ∀ x, x ∈ KeyStates.historiesUp site (fun _ => k) ↔ x = k.history := by
    intro x
    rw [KeyStates.historiesUp, List.mem_ofFn]
    refine ⟨fun ⟨e, he⟩ => ?_, fun hx => ⟨d, ?_⟩⟩
    · rw [← he, if_pos (hup e)]
    · rw [hx, if_pos (hup d)]
  unfold KeyStates.historyUp
  cases hbest : bestHistory (KeyStates.historiesUp site fun _ => k) with
  | some x => rw [← (hfound _).1 (bestHistory_mem hbest)]
  | none => rw [bestHistory_eq_none hbest ((hfound _).2 rfl)]

theorem hasHistory_same (hup : ∀ d, site.up d = true) (d : Fin n) :
    KeyStates.hasHistory site (fun _ => k) = k.history.isSome := by
  rw [KeyStates.hasHistory, Bool.eq_iff_iff, List.any_eq_true]
  refine ⟨fun ⟨e, _, he⟩ => ?_, fun h => ⟨d, List.mem_finRange d, ?_⟩⟩
  · rwa [hup e, Bool.true_and] at he
  · rwa [hup d, Bool.true_and]

theorem xlUp_same (hup : ∀ d, site.up d = true) (d : Fin n) (slot : Option Str) :
    KeyStates.xlUp site (fun _ => k) slot = (k.slot slot).map Copy.xl := by
  unfold KeyStates.xlUp firstUp
  simp only [hup, if_true]
  cases hslot : (k.slot slot).map Copy.xl with
  | none => exact List.findSome?_eq_none_iff.2 fun _ _ => rfl
  | some m =>
      obtain ⟨m', hm'⟩ : ∃ m', (List.finRange n).findSome? (fun _ => some m) = some m' :=
        Option.isSome_iff_exists.1 (List.findSome?_isSome_iff.2 ⟨d, List.mem_finRange d, rfl⟩)
      obtain ⟨_, _, hm⟩ := List.exists_of_findSome?_eq_some hm'
      rw [hm', hm]

/-- The end of `makeRoom`: the current version, if there is one, goes to its archive. -/
def demoted (site : Site n) (hist : VHistory) (occupied : Bool) (K : KeyStates n) :
    KeyStates n :=
  match occupied, hist.versions with
  | true, v :: _ => K.onUp site fun k => k.moveSlot none (some v.versionId)
  | _, _ => K

theorem makeRoom_eq (mode : VMode) (hist : VHistory) (K : KeyStates n) :
    K.makeRoom site mode hist = ((K.purge site mode hist).1.1,
      demoted site (K.purge site mode hist).1.1 (K.purge site mode hist).1.2
        (K.purge site mode hist).2) := by
  unfold KeyStates.makeRoom demoted
  obtain ⟨⟨⟨versions, epoch⟩, occupied⟩, K'⟩ := K.purge site mode hist
  cases occupied
  · rfl
  · cases versions <;> rfl

end KeyStates

/-! ## Steps of the bookkeeping -/

namespace KeyState.Records

variable {n : Nat} {site : Site n} {k : KeyState} {vs : KeyVersions}

theorem bare : KeyState.bare.Records [] where
  distinct := List.nodup_nil
  fits _ hv := nomatch hv
  slots := slot_nil.symm
  history := .inr ⟨rfl, .inl rfl⟩

theorem seed (hup : ∀ d, site.up d = true) (d : Fin n) (h : k.Records vs) :
    ∃ k', KeyStates.seed site (fun _ => k) = (fun _ => k') ∧ k'.Records vs ∧
      (k'.history.getD ⟨[], 0⟩).versions = vs.map Version.info := by
  unfold KeyStates.seed
  rw [KeyStates.hasHistory_same hup d]
  rcases h.history with ⟨e, he⟩ | ⟨hnone, hvs⟩
  · rw [he]
    exact ⟨k, rfl, h, by rw [he]; rfl⟩
  · rw [hnone]
    have hcur : k.slot none = current vs := by rw [h.slots]; rfl
    rw [if_neg (by simp), KeyStates.xlUp_same hup d, hcur]
    rcases hvs with rfl | ⟨c, rfl⟩
    · exact ⟨k, rfl, h, by rw [hnone]; rfl⟩
    · refine ⟨_, KeyStates.record_same hup _, ⟨h.distinct, h.fits, h.slots, .inl ⟨_, rfl⟩⟩, rfl⟩

theorem occupied_iff (hfits : ∀ v ∈ vs, v.Fits) {hist : VHistory}
    (hhist : hist.versions = vs.map Version.info) :
    canonicalOccupied hist = (current vs).isSome := by
  rw [canonicalOccupied, hhist]
  cases vs with
  | nil => rfl
  | cons v vs =>
      show (!v.info.deleteMarker) = v.body.isSome
      rw [(hfits v List.mem_cons_self).2]
      cases v.body <;> rfl

/-- The versions that stay when a new one is written in a mode. -/
def staying (mode : VMode) (vs : KeyVersions) : KeyVersions :=
  if mode = .suspended then without vs NULL else vs

/-- Demoting the current version leaves all of them shelved. -/
theorem demote (hup : ∀ d, site.up d = true) (hd : vs.Distinct) (hfits : ∀ v ∈ vs, v.Fits)
    (hslots : k.slot = Versions.slot vs) {hist : VHistory}
    (hhist : hist.versions = vs.map Version.info) :
    ∃ k', KeyStates.demoted site hist (current vs).isSome (fun _ => k) = (fun _ => k') ∧
      k'.slot = shelved vs := by
  cases hcur : current vs with
  | none => exact ⟨k, rfl, by rw [hslots, slot_eq_shelved hd hcur]⟩
  | some c =>
      cases vs with
      | nil => cases hcur
      | cons v vs =>
          refine ⟨k.moveSlot none (some v.id), ?_, ?_⟩
          · unfold KeyStates.demoted
            rw [hhist, ← (hfits v List.mem_cons_self).1]
            exact KeyStates.onUp_same hup _
          · show Versions.moveSlot k.slot none (some v.id) = _
            rw [hslots, moveSlot_current hd]

theorem clear_empty {v : Version Str VEntry Copy} (hbody : v.body = none) :
    Versions.slot (v :: vs) = shelved vs := by
  rw [← clear_current v vs]
  exact (Function.update_eq_self_iff.2 hbody.symm).symm

theorem slot_without_marker {v : Version Str VEntry Copy} {i : Str} (hne : v.id ≠ i)
    (hnone : payload vs i = none) :
    Versions.slot (without (v :: vs) i) = Versions.slot (v :: vs) := by
  rw [← clear_older hne]
  exact Function.update_eq_self_iff.2 hnone.symm

theorem findIdx?_entries {i : Str} (hfits : ∀ v ∈ vs, v.Fits) :
    (vs.map Version.info).findIdx? (fun e => decide (e.versionId = i)) =
      vs.findIdx? fun v => decide (v.id = i) := by
  induction vs with
  | nil => rfl
  | cons v vs ih =>
      obtain ⟨hv, hvs⟩ := List.forall_mem_cons.1 hfits
      rw [List.map_cons, List.findIdx?_cons, List.findIdx?_cons, ih hvs, hv.1]

/-- Where the entry of a version stands in the history. -/
theorem entry_found (hd : vs.Distinct) (hfits : ∀ v ∈ vs, v.Fits) {hist : VHistory}
    (hhist : hist.versions = vs.map Version.info) {i : Str} {idx : Nat}
    (hidx : hist.versions.findIdx? (fun e => e.versionId = i) = some idx) :
    ∃ v ws, vs = v :: ws ∧
      ((idx = 0 ∧ v.id = i ∧
          (hist.versions[idx]?.map VEntry.deleteMarker).getD false = v.body.isNone) ∨
        (idx ≠ 0 ∧ v.id ≠ i ∧
          (hist.versions[idx]?.map VEntry.deleteMarker).getD false = (payload ws i).isNone)) ∧
      hist.versions.eraseIdx idx = (without vs i).map Version.info := by
  have hfind : hist.versions.findIdx? (fun e => e.versionId = i) =
      vs.findIdx? fun v => decide (v.id = i) := by
    rw [hhist, findIdx?_entries hfits]
  rw [hfind] at hidx
  obtain ⟨hlt, hid, -⟩ := List.findIdx?_eq_some_iff_getElem.1 hidx
  have hflag : (hist.versions[idx]?.map VEntry.deleteMarker).getD false =
      (vs[idx]).body.isNone := by
    rw [hhist, List.getElem?_map, List.getElem?_eq_getElem hlt]
    exact (hfits _ (List.getElem_mem hlt)).2
  have herase : hist.versions.eraseIdx idx = (without vs i).map Version.info := by
    rw [hhist, ← eraseIdx_eq_without hd (fun _ => rfl) hidx, List.eraseIdx_eq_take_drop_succ,
      List.eraseIdx_eq_take_drop_succ, List.map_append, List.map_take, List.map_drop]
  rw [hflag]
  cases vs with
  | nil => cases hidx
  | cons v ws =>
      refine ⟨v, ws, rfl, ?_, herase⟩
      cases idx with
      | zero => exact .inl ⟨rfl, of_decide_eq_true hid, rfl⟩
      | succ idx =>
          have hmem : (v :: ws)[idx + 1] ∈ ws := List.getElem_mem _
          have hid' : ((v :: ws)[idx + 1]).id = i := of_decide_eq_true hid
          refine .inr ⟨idx.succ_ne_zero, fun hv => ?_, ?_⟩
          · exact notMem_tail hd _ hmem (hid'.trans hv.symm)
          · rw [payload, ← hid', lookup_of_mem (List.nodup_cons.1 hd).2 hmem]
            rfl

theorem entry_missing (hfits : ∀ v ∈ vs, v.Fits) {hist : VHistory}
    (hhist : hist.versions = vs.map Version.info) {i : Str}
    (hidx : hist.versions.findIdx? (fun e => e.versionId = i) = none) :
    ∀ v ∈ vs, v.id ≠ i := by
  intro v hv hid
  have hnone := List.findIdx?_eq_none_iff.1 hidx v.info (hhist ▸ List.mem_map_of_mem hv)
  rw [(hfits v hv).1, hid] at hnone
  simp at hnone

/-- Purging the null version leaves the others where they were, or shelves them where it was
the newest. -/
theorem purge (hup : ∀ d, site.up d = true) (h : k.Records vs) (mode : VMode)
    {hist : VHistory} (hhist : hist.versions = vs.map Version.info) :
    ∃ hist' occupied k', KeyStates.purge site mode hist (fun _ => k) =
        ((hist', occupied), fun _ => k') ∧
      hist'.versions = (staying mode vs).map Version.info ∧
      (occupied = false ∧ k'.slot = shelved (staying mode vs) ∨
        occupied = (current (staying mode vs)).isSome ∧
          k'.slot = Versions.slot (staying mode vs)) := by
  have hocc := occupied_iff h.fits hhist
  unfold KeyStates.purge staying
  by_cases hmode : mode = .suspended
  · rw [if_neg (not_not.2 hmode), if_pos hmode]
    cases hidx : hist.versions.findIdx? (fun e => e.versionId = NULL) with
    | none =>
        rw [without_of_notMem (entry_missing h.fits hhist hidx)]
        exact ⟨hist, _, k, rfl, hhist, .inr ⟨hocc, h.slots⟩⟩
    | some idx =>
        obtain ⟨v, ws, rfl, hplace, herase⟩ := entry_found h.distinct h.fits hhist hidx
        dsimp only
        rw [hocc, KeyStates.onUp_same hup, KeyStates.onUp_same hup]
        rcases hplace with ⟨rfl, hid, hflag⟩ | ⟨hne, hid, hflag⟩
        · -- The null version is the newest.
          have hws : without (v :: ws) NULL = ws := by rw [← hid, without_head h.distinct]
          have hcur : current (v :: ws) = v.body := rfl
          rw [hflag, hcur, hws]
          rw [hws] at herase
          cases hbody : v.body with
          | none =>
              exact ⟨_, _, k, rfl, herase, .inl ⟨rfl, by rw [h.slots, clear_empty hbody]⟩⟩
          | some c =>
              refine ⟨_, _, k.setSlot none none, rfl, herase, .inl ⟨rfl, ?_⟩⟩
              rw [← clear_current v ws, ← h.slots]
              rfl
        · have hcur : current (v :: ws) = current (without (v :: ws) NULL) := by
            rw [without_cons_of_ne hid]
            rfl
          rw [hflag, hcur, if_neg (by simp [hne])]
          cases hpay : payload ws NULL with
          | none =>
              refine ⟨_, _, k, rfl, herase, .inr ⟨rfl, ?_⟩⟩
              rw [h.slots, slot_without_marker hid hpay]
          | some c =>
              refine ⟨_, _, k.setSlot (some NULL) none, rfl, herase, .inr ⟨rfl, ?_⟩⟩
              rw [← clear_older hid, ← h.slots]
              rfl
  · rw [if_pos hmode, if_neg hmode]
    exact ⟨hist, _, k, rfl, hhist, .inr ⟨hocc, h.slots⟩⟩

theorem distinct_staying (hd : vs.Distinct) (mode : VMode) : (staying mode vs).Distinct := by
  unfold staying
  split
  · exact distinct_without hd NULL
  · exact hd

theorem mem_staying {mode : VMode} {v : Version Str VEntry Copy} (hv : v ∈ staying mode vs) :
    v ∈ vs := by
  unfold staying at hv
  split at hv
  · exact (mem_without.1 hv).1
  · exact hv

theorem makeRoom (hup : ∀ d, site.up d = true) (h : k.Records vs) (mode : VMode)
    {hist : VHistory} (hhist : hist.versions = vs.map Version.info) :
    ∃ hist' k', KeyStates.makeRoom site mode hist (fun _ => k) = (hist', fun _ => k') ∧
      hist'.versions = (staying mode vs).map Version.info ∧
      k'.slot = shelved (staying mode vs) := by
  obtain ⟨hist', occupied, k', hpurge, hhist', hslots⟩ := purge hup h mode hhist
  rw [KeyStates.makeRoom_eq, hpurge]
  rcases hslots with ⟨rfl, hslots⟩ | ⟨rfl, hslots⟩
  · exact ⟨hist', k', rfl, hhist', hslots⟩
  · obtain ⟨k'', hk'', hshelved⟩ := demote hup (distinct_staying h.distinct mode)
      (fun v hv => h.fits v (mem_staying hv)) hslots hhist'
    exact ⟨hist', k'', Prod.ext rfl hk'', hhist', hshelved⟩

theorem prepare (hup : ∀ d, site.up d = true) (d : Fin n) (h : k.Records vs) (mode : VMode) :
    ∃ hist k', KeyStates.prepare site mode (fun _ => k) = (hist, fun _ => k') ∧
      hist.versions = (staying mode vs).map Version.info ∧
      k'.slot = shelved (staying mode vs) := by
  obtain ⟨k₁, hseed, h₁, hhist⟩ := h.seed hup d
  unfold KeyStates.prepare
  dsimp only
  rw [hseed, KeyStates.historyUp_same hup d]
  exact h₁.makeRoom hup mode hhist

/-! ## The calls -/

theorem record (h : k.Records vs) {mode : VMode} {v : Version Str VEntry Copy} (hv : v.Fits)
    (hnew : staying mode vs = without vs v.id) {k' : KeyState}
    (hslots : k'.slot = Function.update (shelved (staying mode vs)) none v.body) {hist : VHistory}
    (hhist : hist.versions = (staying mode vs).map Version.info) (e : Nat) :
    (k'.record ⟨v.info :: hist.versions, e⟩).Records (push vs v) where
  distinct := distinct_push h.distinct v
  fits w hw := (mem_push hw).elim (fun hw => hw ▸ hv) (h.fits w)
  slots := by rw [slot_push, ← hnew]; exact hslots
  history := .inl ⟨e, by rw [hhist, hnew]; rfl⟩

theorem mark (hup : ∀ d, site.up d = true) (d : Fin n) (h : k.Records vs) (env : CallEnv)
    {mode : VMode} (hnew : staying mode vs = without vs (newVersionId env mode)) :
    ∃ k', KeyStates.mark site env mode (fun _ => k) = (fun _ => k') ∧
      k'.Records (push vs ⟨newVersionId env mode, markerEntry env mode, none⟩) ∧
        k'.history ≠ none := by
  obtain ⟨hist, k₁, hprep, hhist, hslots⟩ := h.prepare hup d mode
  unfold KeyStates.mark
  dsimp only
  rw [hprep, KeyStates.record_same hup]
  refine ⟨_, rfl, h.record (v := ⟨_, markerEntry env mode, none⟩) ⟨rfl, rfl⟩ hnew ?_ hhist _,
    Option.some_ne_none _⟩
  rw [hslots]
  exact (Function.update_eq_self_iff.2 rfl).symm

/-- The next version is promoted to the current slot. -/
theorem promoteNext (hup : ∀ d, site.up d = true) (hd : vs.Distinct) (hfits : ∀ v ∈ vs, v.Fits)
    (hslots : k.slot = shelved vs) :
    ∃ k', KeyStates.promoteNext site 0 (vs.map Version.info) (fun _ => k) = (fun _ => k') ∧
      k'.slot = Versions.slot vs := by
  cases vs with
  | nil => exact ⟨k, rfl, by rw [hslots, slot_nil, shelved_nil]⟩
  | cons v vs =>
      obtain ⟨hid, hmarker⟩ := hfits v List.mem_cons_self
      show ∃ k', (if v.info.deleteMarker then fun _ => k else KeyStates.onUp site
        (fun k => k.moveSlot (some v.info.versionId) none) fun _ => k) = (fun _ => k') ∧ _
      rw [hid, hmarker, KeyStates.onUp_same hup]
      cases hbody : v.body with
      | none => exact ⟨k, rfl, by rw [hslots, slot_eq_shelved hd hbody]⟩
      | some c =>
          refine ⟨k.moveSlot (some v.id) none, rfl, ?_⟩
          show Versions.moveSlot k.slot (some v.id) none = _
          rw [hslots, moveSlot_newest hd]

theorem settle (hup : ∀ d, site.up d = true) (hd : vs.Distinct) (hfits : ∀ v ∈ vs, v.Fits)
    (hslots : k.slot = Versions.slot vs) {rest : VHistory}
    (hrest : rest.versions = vs.map Version.info) :
    ∃ k', KeyStates.settle site rest (fun _ => k) = (fun _ => k') ∧ k'.Records vs ∧
      (vs = [] → k'.history = none) := by
  unfold KeyStates.settle
  rw [hrest, List.isEmpty_map, KeyStates.onUp_same hup, KeyStates.record_same hup]
  cases vs with
  | nil => exact ⟨_, rfl, bare, fun _ => rfl⟩
  | cons v vs =>
      refine ⟨_, rfl, ⟨hd, hfits, hslots, .inl ⟨rest.epoch + 1, ?_⟩⟩, fun h => nomatch h⟩
      rw [← hrest]

/-- Deleting a version takes it off the list. -/
theorem deleteVersion (hup : ∀ d, site.up d = true) (d : Fin n) (h : k.Records vs) {i : Str}
    (hi : ∃ v ∈ vs, v.id = i) :
    ∃ o k', KeyStates.deleteVersion site i (fun _ => k) = (.ok o, fun _ => k') ∧
      k'.Records (without vs i) ∧ (without vs i = [] → k'.history = none) := by
  obtain ⟨k₁, hseed, h₁, hhist⟩ := h.seed hup d
  unfold KeyStates.deleteVersion
  dsimp only
  rw [hseed, KeyStates.historyUp_same hup d]
  generalize k₁.history.getD ⟨[], 0⟩ = hist at hhist ⊢
  have hd' := distinct_without h.distinct i
  have hfits' : ∀ v ∈ without vs i, v.Fits := fun v hv => h.fits v (mem_without.1 hv).1
  cases hidx : hist.versions.findIdx? (fun e => e.versionId = i) with
  | none =>
      obtain ⟨v, hv, hid⟩ := hi
      exact absurd hid (entry_missing h.fits hhist hidx v hv)
  | some idx =>
      obtain ⟨v, ws, rfl, hplace, herase⟩ := entry_found h.distinct h.fits hhist hidx
      obtain ⟨k₂, hpromoted, hslots⟩ : ∃ k₂, KeyStates.promoteNext site idx
          (hist.versions.eraseIdx idx) (KeyStates.dropStored site i idx
            ((hist.versions[idx]?.map VEntry.deleteMarker).getD false) fun _ => k₁) =
              (fun _ => k₂) ∧ k₂.slot = Versions.slot (without (v :: ws) i) := by
        rw [herase]
        unfold KeyStates.dropStored
        rw [KeyStates.onUp_same hup, KeyStates.onUp_same hup]
        rcases hplace with ⟨rfl, hid, hflag⟩ | ⟨hne, hid, hflag⟩
        · -- The newest goes, and the next one takes the current slot.
          have hws : without (v :: ws) i = ws := by rw [← hid, without_head h.distinct]
          rw [hws] at hd' hfits' ⊢
          rw [hflag]
          cases hbody : v.body with
          | none =>
              exact promoteNext hup hd' hfits' (by rw [h₁.slots, clear_empty hbody])
          | some c =>
              refine promoteNext (k := k₁.setSlot none none) hup hd' hfits' ?_
              rw [← clear_current v ws, ← h₁.slots]
              rfl
        · obtain ⟨idx, rfl⟩ := Nat.exists_eq_succ_of_ne_zero hne
          rw [hflag]
          cases hpay : payload ws i with
          | none => exact ⟨k₁, rfl, by rw [h₁.slots, slot_without_marker hid hpay]⟩
          | some c =>
              refine ⟨k₁.setSlot (some i) none, rfl, ?_⟩
              rw [← clear_older hid, ← h₁.slots]
              rfl
      obtain ⟨k', hsettled, hrecords, hgone⟩ := settle hup hd' hfits' hslots
        (show VHistory.versions { hist with versions := hist.versions.eraseIdx idx } = _ from
          herase)
      dsimp only
      rw [hpromoted, hsettled]
      exact ⟨_, k', rfl, hrecords, hgone⟩

/-- There is nothing else to delete. -/
theorem deleteVersion_missing (hup : ∀ d, site.up d = true) (d : Fin n) (h : k.Records vs)
    {i : Str} {o : DeleteOutcome} (hok : (KeyStates.deleteVersion site i (fun _ => k)).1 = .ok o) :
    ∃ v ∈ vs, v.id = i := by
  obtain ⟨k₁, hseed, h₁, hhist⟩ := h.seed hup d
  unfold KeyStates.deleteVersion at hok
  dsimp only at hok
  rw [hseed, KeyStates.historyUp_same hup d] at hok
  generalize k₁.history.getD ⟨[], 0⟩ = hist at hhist hok
  cases hidx : hist.versions.findIdx? (fun e => e.versionId = i) with
  | none =>
      rw [hidx] at hok
      cases hok
  | some idx =>
      obtain ⟨hlt, hid, -⟩ := List.findIdx?_eq_some_iff_getElem.1 hidx
      have hmem : hist.versions[idx] ∈ vs.map Version.info := by
        rw [← hhist]
        exact List.getElem_mem hlt
      obtain ⟨v, hv, hinfo⟩ := List.mem_map.1 hmem
      refine ⟨v, hv, ?_⟩
      rw [← (h.fits v hv).1, hinfo]
      exact of_decide_eq_true hid

/-- A version with a payload is found, at the current slot or in the archive. -/
theorem findVersion (hup : ∀ d, site.up d = true) (d : Fin n) (h : k.Records vs)
    {v : Version Str VEntry Copy} (hv : v ∈ vs) {c : Copy} (hbody : v.body = some c) :
    ∃ k' slot, KeyStates.seed site (fun _ => k) = (fun _ => k') ∧
      KeyStates.findVersion site v.id (fun _ => k) = .ok slot ∧
      (slot = none ∨ slot = some v.id) ∧ k.slot slot = some c ∧ k'.slot slot = some c := by
  obtain ⟨k', hseed, h', hhist⟩ := h.seed hup d
  have hlook : lookup vs v.id = some v := lookup_of_mem h.distinct hv
  unfold KeyStates.findVersion
  dsimp only
  rw [hseed, KeyStates.historyUp_same hup d, h.slots]
  generalize k'.history.getD ⟨[], 0⟩ = hist at hhist ⊢
  cases hidx : hist.versions.findIdx? (fun e => e.versionId = v.id) with
  | none => exact absurd rfl (entry_missing h.fits hhist hidx v hv)
  | some idx =>
      obtain ⟨w, ws, rfl, hplace, -⟩ := entry_found h.distinct h.fits hhist hidx
      dsimp only
      rw [lookup_cons] at hlook
      rcases hplace with ⟨rfl, hid, hflag⟩ | ⟨hne, hid, hflag⟩
      · rw [if_pos hid] at hlook
        obtain rfl : w = v := Option.some.inj hlook
        rw [hflag, hbody]
        exact ⟨k', none, rfl, rfl, .inl rfl, hbody, by rw [h'.slots]; exact hbody⟩
      · rw [if_neg hid] at hlook
        have hpay : payload ws v.id = some c := by
          rw [payload, hlook]
          exact hbody
        rw [hflag, hpay, if_neg hne]
        exact ⟨k', some v.id, rfl, rfl, .inr rfl, hpay, by rw [h'.slots]; exact hpay⟩

/-! ## Writes -/

/-- The versions once a copy is written in a mode. -/
def written (key : Str) (env : CallEnv) (mode : VMode) (vs : KeyVersions) (c : Copy) :
    KeyVersions :=
  if mode = .off then [legacyVersion c]
  else push vs ⟨newVersionId env mode,
    writtenEntry env (newVersionId env mode) (metaToObject key c.xl), some c⟩

theorem writeAnswer_ok {S : ErasureStore n} {key : Str} {blocks : List Bytes × Bool}
    {xl : XlMeta} {m : ObjectMeta} (h : writeAnswer S site key blocks xl = .ok m) :
    blocks.2 = false ∧ ¬ tally site.up < S.codec.data + 1 ∧ metaToObject key xl = m := by
  unfold writeAnswer at h
  split at h
  · cases h
  · rename_i hend
    split at h
    · cases h
    · rename_i hquorum
      exact ⟨by simpa using hend, hquorum, Except.ok.inj h⟩

/-- A put that is acknowledged writes a version. -/
theorem put {S : ErasureStore n} {key : Str} (hup : ∀ d, site.up d = true) (d : Fin n)
    (h : k.Records vs) (env : CallEnv) {mode : VMode} (hoff : mode = .off → k.history = none)
    (hnew : mode ≠ .off → staying mode vs = without vs (newVersionId env mode))
    {blocks : List Bytes × Bool} {xl : XlMeta} {m : ObjectMeta}
    (hanswer : writeAnswer S site key blocks xl = .ok m) :
    ∃ k', KeyStates.put S site key env mode blocks xl (fun _ => k) = (fun _ => k') ∧
      k'.Records (written key env mode vs ⟨blocks.1, xl⟩) ∧
        (mode = .off → k'.history = none) := by
  obtain ⟨hend, hquorum, rfl⟩ := writeAnswer_ok hanswer
  have hwrite : ∀ k₀ : KeyState, KeyStates.write S site blocks xl (fun _ => k₀) =
      fun _ => k₀.setSlot none (some ⟨blocks.1, xl⟩) := by
    intro k₀
    rw [KeyStates.write, hend, if_neg Bool.false_ne_true, if_neg hquorum,
      KeyStates.onUp_same hup]
  unfold KeyStates.put written
  by_cases hmode : mode = .off
  · rw [if_pos hmode, if_pos hmode, hwrite]
    refine ⟨_, rfl, ⟨List.nodup_singleton _, fun v hv => ?_, ?_, .inr ⟨hoff hmode, .inr ⟨_, rfl⟩⟩⟩,
      fun _ => hoff hmode⟩
    · obtain rfl := List.mem_singleton.1 hv
      exact ⟨rfl, rfl⟩
    · have harchive : ∀ i, k.slot (some i) = none := by
        intro i
        rw [h.slots]
        rcases h.history with ⟨e, he⟩ | ⟨-, rfl | ⟨c, rfl⟩⟩
        · rw [hoff hmode] at he
          cases he
        · rfl
        · rfl
      funext slot
      cases slot with
      | none => exact KeyState.slot_setSlot_self _ _
      | some i =>
          have hne : (some i : Option Str) ≠ none := by simp
          show Function.update k.slot none (some ⟨blocks.1, xl⟩) (some i) = none
          rw [Function.update_of_ne hne, harchive]
  · obtain ⟨hist, k₁, hprep, hhist, hslots⟩ := h.prepare hup d mode
    rw [if_neg hmode, if_neg hmode]
    unfold KeyStates.writeVersioned
    dsimp only
    rw [hanswer, hprep, hwrite]
    dsimp only
    rw [KeyStates.record_same hup]
    refine ⟨_, rfl, h.record (v := ⟨newVersionId env mode,
      writtenEntry env (newVersionId env mode) (metaToObject key xl), some ⟨blocks.1, xl⟩⟩)
      ⟨rfl, rfl⟩ (hnew hmode) ?_ hhist _, fun hoff => absurd hoff hmode⟩
    rw [← hslots]
    rfl

end KeyState.Records

end Kerplace
