/-
# `Kerplace.Erasure.Deletes` — after an acknowledged delete

A key is hidden when no reachable drive has a current copy.  A delete takes the
copy from the drives it reaches, in a versioned bucket only if the history it
reads says that there is one; what is left on another drive is found again when
that drive is.  So a delete holds, through every run up to the next write,
exactly when it reaches every drive with a copy.
-/
import Kerplace.Erasure.KeyRuns
import Kerplace.Erasure.Replicated
import Kerplace.Erasure.Listing

namespace Kerplace

open FileTree Prog ErasureStore

section

variable {n : Nat} {S : ErasureStore n} {site : Site n} {bucket key : Str}
  {K K' : KeyStates n} {s : Cluster n Doc}

/-! ## Hidden keys -/

/-- Neither read nor listed. -/
structure Hidden (S : ErasureStore n) (site : Site n) (bucket key : Str)
    (s : Cluster n Doc) : Prop where
  head : (site.run (headObject bucket key) s).1 = .error .noSuchKey
  get : (site.run (S.getObject bucket key) s).1 = .error .noSuchKey
  listed : ∀ pre delimiter token startAfter maxKeys listing,
    (site.run (listObjectsV2 bucket pre delimiter token startAfter maxKeys) s).1 =
      .ok listing → ∀ o ∈ listing.objects, o.key ≠ key

/-- Listed objects are ones that can be read. -/
theorem mem_listedObjects (site : Site n) (bucket : Str) (s : Cluster n Doc)
    (keys : List Str) :
    ∃ os, site.run (listedObjects keys bucket) s = (.ok os, s) ∧
      ∀ o ∈ os, ∃ m, site.run (readXl bucket o.key) s = (.ok m, s) := by
  induction keys with
  | nil => exact ⟨[], rfl, fun o ho => absurd ho List.not_mem_nil⟩
  | cons key keys ih =>
      obtain ⟨os, hrun, hos⟩ := ih
      obtain ⟨r, hread⟩ : ∃ r, site.run (readXl bucket key) s = (r, s) :=
        ⟨_, run_readXlV bucket key none⟩
      cases r with
      | error e =>
          refine ⟨os, ?_, hos⟩
          rw [listedObjects, Site.run_bind, Site.run_outcome, hread, Prog.andThen_ok,
            Site.run_bind, hrun]
          rfl
      | ok m =>
          refine ⟨metaToObject key m :: os, ?_, fun o ho => ?_⟩
          · rw [listedObjects, Site.run_bind, Site.run_outcome, hread, Prog.andThen_ok,
              Site.run_bind, hrun]
            rfl
          · rcases List.mem_cons.1 ho with rfl | ho
            · exact ⟨m, hread⟩
            · exact hos o ho

theorem run_walkUnion (site : Site n) (bucket : Str) (s : Cluster n Doc) :
    ∃ entries, site.run (walkUnion bucket) s = (.ok entries, s) := by
  have hsame : (site.run (walkUnion bucket) s).2 = s := by
    refine run_reading (Q := fun _ => True) ?_ s
    exact MeetsE.then (meetsE_each fun _ => meets_call trivial) fun _ => meetsE_pure.2 trivial
  obtain ⟨entries, hok⟩ : ∃ entries, (site.run (walkUnion bucket) s).1 = .ok entries := by
    rw [walkUnion, Site.run_bind, Site.run_eachDrive]
    exact ⟨_, rfl⟩
  exact ⟨entries, Prod.ext hok hsame⟩

theorem hidden_of_readXl (h : site.run (readXl bucket key) s = (.error .noSuchKey, s)) :
    Hidden S site bucket key s where
  head := by
    rw [headObject, Site.run_bind, h]
    rfl
  get := by
    rw [getObject, Site.run_bind, h]
    rfl
  listed pre delimiter token startAfter maxKeys listing hlist o ho hkey := by
    rw [listObjectsV2, Site.run_bind, run_headBucket] at hlist
    cases hb : bucketUp site bucket s with
    | false =>
        rw [hb] at hlist
        cases hlist
    | true =>
        obtain ⟨entries, hwalk⟩ := run_walkUnion site bucket s
        rw [hb, if_pos rfl, Prog.andThen_ok, Site.run_bind, hwalk, Prog.andThen_ok,
          Site.run_bind] at hlist
        obtain ⟨os, hrun, hos⟩ := mem_listedObjects site bucket s
          (pageKeys pre delimiter token startAfter maxKeys
            (((entries.filterMap currentKey).filter fun k => pre.isPrefixOf k).insertionSort
              (· ≤ ·)) ⟨[], [], 0, false, none⟩).chosen
        rw [hrun] at hlist
        cases hlist
        obtain ⟨m, hread⟩ := hos o ho
        rw [hkey, h] at hread
        cases hread

theorem hidden_of_clear (hk : Keeps S site bucket key K s)
    (hclear : ∀ d, (K d).slot none = none) : Hidden S site bucket key s := by
  refine hidden_of_readXl ?_
  rw [readXl, hk.run_readXlV properVersion_none]
  have hnone : K.xlUp site none = none := by
    rw [KeyStates.xlUp, firstUp, List.findSome?_eq_none_iff]
    intro d _
    rw [hclear d]
    split <;> rfl
  rw [hnone]

/-! ## What a delete clears -/

theorem slot_moveSlot_src (k : KeyState) (src dst : Option Str) :
    (k.moveSlot src dst).slot src = none := by
  cases h : k.slot src with
  | none => rw [KeyState.moveSlot_eq_of_none h, h]
  | some c =>
      rw [KeyState.moveSlot_eq_of_some h]
      exact KeyState.slot_setSlot_self _ _

/-- What purging a `"null"` version does to the current slot and to the flag that says
it is taken. -/
theorem purge_current (site : Site n) (mode : VMode) (hist : VHistory) (K : KeyStates n) :
    let r := K.purge site mode hist
    (r.1.2 = canonicalOccupied hist ∧ (r.1.2 = true → r.1.1.versions ≠ []) ∧
        ∀ d, (r.2 d).slot none = (K d).slot none) ∨
      (r.1.2 = false ∧ canonicalOccupied hist = true ∧
        ∀ d, (r.2 d).slot none = if site.up d then none else (K d).slot none) := by
  have hne : canonicalOccupied hist = true → hist.versions ≠ [] := by
    intro h h0
    rw [canonicalOccupied, h0] at h
    cases h
  unfold KeyStates.purge
  dsimp only
  split
  · exact .inl ⟨rfl, hne, fun d => rfl⟩
  · split
    · exact .inl ⟨rfl, hne, fun d => rfl⟩
    · rename_i idx hidx
      split
      · rename_i hcur
        rw [Bool.and_eq_true] at hcur
        refine .inr ⟨rfl, hcur.2, fun d => ?_⟩
        simp only [KeyStates.onUp]
        split
        · exact KeyState.slot_setSlot_self _ _
        · rfl
      · rename_i hcur
        have hrest : canonicalOccupied hist = true → hist.versions.eraseIdx idx ≠ [] := by
          intro hocc h0
          have hidx0 : idx ≠ 0 := by
            rintro rfl
            exact hcur (by rw [hocc]; rfl)
          cases hvs : hist.versions with
          | nil => exact hne hocc hvs
          | cons v vs =>
              rw [hvs] at h0
              cases idx with
              | zero => exact hidx0 rfl
              | succ idx => cases h0
        split
        · refine .inl ⟨rfl, hrest, fun d => ?_⟩
          simp only [KeyStates.onUp]
          split
          · exact KeyState.slot_setSlot_of_ne (by simp) _
          · rfl
        · exact .inl ⟨rfl, hrest, fun d => rfl⟩

/-- Making room takes the current copy from every reachable drive, if the history says
that there is one. -/
theorem makeRoom_current (site : Site n) (mode : VMode) (hist : VHistory) (K : KeyStates n)
    (d : Fin n) : (((K.makeRoom site mode hist).2) d).slot none =
      if site.up d && canonicalOccupied hist then none else (K d).slot none := by
  have hpurge := purge_current site mode hist K
  unfold KeyStates.makeRoom
  dsimp only at hpurge ⊢
  rcases hpurge with ⟨hflag, hne, hslot⟩ | ⟨hflag, hocc, hslot⟩
  · cases hocc : canonicalOccupied hist with
    | false =>
        rw [hocc] at hflag
        rw [hflag, Bool.and_false, if_neg Bool.false_ne_true]
        exact hslot d
    | true =>
        rw [hocc] at hflag
        obtain ⟨v, vs, hvs⟩ := List.exists_cons_of_ne_nil (hne hflag)
        rw [hflag, hvs, Bool.and_true]
        simp only [KeyStates.onUp]
        split
        · exact slot_moveSlot_src _ _ _
        · exact hslot d
  · rw [hflag, hocc, Bool.and_true]
    exact hslot d

theorem slot_record (site : Site n) (h : VHistory) (K : KeyStates n) (d : Fin n) :
    ((K.record site h) d).slot = (K d).slot := by
  simp only [KeyStates.record, KeyStates.onUp]
  split <;> rfl

theorem slot_seed (site : Site n) (K : KeyStates n) (d : Fin n) :
    ((K.seed site) d).slot = (K d).slot := by
  unfold KeyStates.seed
  split
  · rfl
  · cases K.xlUp site none with
    | some m => exact slot_record site _ K d
    | none => rfl

/-- No history is read only where none is found. -/
theorem bestHistory_eq_none {found : List (Option VHistory)} {h? : Option VHistory}
    (hbest : bestHistory found = none) (hmem : h? ∈ found) : h? = none := by
  have hfold : ∀ (l : List (Option VHistory)) (best : Option VHistory),
      l.foldl newer best = none → best = none ∧ ∀ x ∈ l, x = none := by
    intro l
    induction l with
    | nil => exact fun best hb => ⟨hb, fun x hx => absurd hx List.not_mem_nil⟩
    | cons y l ih =>
        intro best hb
        obtain ⟨hnone, hl⟩ := ih _ hb
        cases y with
        | none => exact ⟨hnone, List.forall_mem_cons.2 ⟨rfl, hl⟩⟩
        | some h =>
            cases best with
            | none => cases hnone
            | some x =>
                dsimp only [newer] at hnone
                split at hnone <;> cases hnone
  rw [bestHistory_eq_foldl] at hbest
  exact (hfold found none hbest).2 h? hmem

/-- A recorded history is the one read, while a drive can be reached. -/
theorem historyUp_record (site : Site n) (h : VHistory) (K : KeyStates n) {d : Fin n}
    (hd : site.up d = true) :
    (K.record site h).historyUp site = { h with epoch := h.epoch + 1 } := by
  have hfound : ∀ e, (if site.up e then ((K.record site h) e).history else none) =
      if site.up e then some { h with epoch := h.epoch + 1 } else none := by
    intro e
    split
    · rename_i he
      simp only [KeyStates.record, KeyStates.onUp, if_pos he, KeyState.record]
    · rfl
  have hmem : ∀ x, some x ∈ (K.record site h).historiesUp site →
      x = { h with epoch := h.epoch + 1 } := by
    intro x hx
    obtain ⟨e, he⟩ := List.mem_ofFn.1 hx
    rw [hfound e] at he
    split at he
    · exact (Option.some.inj he).symm
    · cases he
  unfold KeyStates.historyUp
  cases hbest : bestHistory ((K.record site h).historiesUp site) with
  | some x =>
      rw [hmem x (bestHistory_mem hbest)]
      rfl
  | none =>
      have hnone := bestHistory_eq_none hbest (List.mem_ofFn.2 ⟨d, rfl⟩)
      rw [hfound d, if_pos hd] at hnone
      cases hnone

theorem occupied_seed {d : Fin n} (hd : site.up d = true) (hslot : (K d).slot none ≠ none)
    (hnone : K.hasHistory site = false) :
    canonicalOccupied ((K.seed site).historyUp site) = true := by
  unfold KeyStates.seed
  rw [hnone, if_neg Bool.false_ne_true]
  cases hxl : K.xlUp site none with
  | none =>
      rw [KeyStates.xlUp, firstUp, List.findSome?_eq_none_iff] at hxl
      have hcopy := hxl d (List.mem_finRange d)
      rw [if_pos hd, Option.map_eq_none_iff] at hcopy
      exact absurd hcopy hslot
  | some m =>
      dsimp only
      rw [historyUp_record site _ K hd]
      rfl

theorem mark_current (site : Site n) (env : CallEnv) (mode : VMode) (K : KeyStates n)
    (d : Fin n) : ((K.mark site env mode) d).slot none =
      if site.up d && canonicalOccupied ((K.seed site).historyUp site) then none
      else (K d).slot none := by
  unfold KeyStates.mark KeyStates.prepare
  dsimp only
  rw [slot_record, makeRoom_current, slot_seed]

/-! ## Runs -/

/-- Drive `d` has a current copy's metadata file. -/
def HasCurrent (root : Fin n → List Str) (bucket key : Str) (s : Cluster n Doc) (d : Fin n) :
    Prop :=
  ((s d).look ((rObject bucket key).resolve (root d) ++ [XL_META])).isSome = true

/-- A delete takes the current copy from every drive that has one: each can be reached,
and, in a versioned bucket, no history is found or the newest entry of the one read is
not a delete marker. -/
def ReachesCopies (site : Site n) (bucket key : Str) (s : Cluster n Doc) : Prop :=
  ∀ d, HasCurrent site.root bucket key s d → site.up d = true ∧
    (modeOf site bucket s = .off ∨ existsUp site (rHistory bucket key) s = false ∨
      canonicalOccupied (historyOf site bucket key s) = true)

/-- A step that is no acknowledged put, and deletes no version that is the newest in the
history it reads. -/
def Quiet (root : Fin n → List Str) (bucket key : Str)
    (v : Visit (Cluster n Doc) (KeyStep n) (Except S3Error Unit)) : Prop :=
  (∀ env body contentType userMetadata encrypt,
    v.call.call = .put env body contentType userMetadata encrypt → v.answer ≠ .ok ()) ∧
  ∀ w, v.call.call = .deleteVersion w →
    (historyOf ⟨root, v.call.up⟩ bucket key v.before).versions.head?.map VEntry.versionId ≠
      some w

theorem Keeps.hasCurrent (hk : Keeps S site bucket key K s) (d : Fin n) :
    HasCurrent site.root bucket key s d ↔ (K d).slot none ≠ none := by
  have hlook := (hk d).place (.xl none) properVersion_none
  rw [HasCurrent]
  refine Iff.trans (iff_of_eq (congrArg (fun x => Option.isSome x = true) hlook)) ?_
  rw [KeyState.shelf, Option.isSome_map, Option.isSome_iff_ne_none]

theorem Keeps.existsUp (hk : Keeps S site bucket key K s) :
    ErasureStore.existsUp site (rHistory bucket key) s = K.hasHistory site := by
  have hboth : site.run (ErasureStore.hasHistory bucket key) s =
      (.ok (ErasureStore.existsUp site (rHistory bucket key) s), s) :=
    ErasureStore.run_hasHistory bucket key
  rw [hk.run_hasHistory] at hboth
  exact (Except.ok.inj (Prod.mk.inj hboth).1).symm

/-- A delete that reaches every copy leaves none. -/
theorem clear_of_deleted (hk : Keeps S site bucket key K s)
    (hreach : ReachesCopies site bucket key s) (env : CallEnv) (d : Fin n) :
    ((if modeOf site bucket s = .off then K.onUp site fun _ => .bare
      else K.mark site env (modeOf site bucket s)) d).slot none = none := by
  by_cases hslot : (K d).slot none = none
  · split
    · simp only [KeyStates.onUp]
      split
      · rfl
      · exact hslot
    · rw [mark_current, hslot]
      split <;> rfl
  · obtain ⟨hup, hmode⟩ := hreach d ((hk.hasCurrent d).2 hslot)
    split
    · simp only [KeyStates.onUp, if_pos hup]
      rfl
    · rename_i hoff
      have hocc : canonicalOccupied ((K.seed site).historyUp site) = true := by
        rw [hk.existsUp, hk.historyOf] at hmode
        rcases hmode with hmode | hmode | hmode
        · exact absurd hmode hoff
        · exact occupied_seed hup hslot hmode
        · cases hhas : K.hasHistory site with
          | false => exact occupied_seed hup hslot hhas
          | true => rw [KeyStates.seed, hhas, if_pos rfl, hmode]
      rw [mark_current, hup, hocc]
      rfl

theorem seed_of_clear (hclear : ∀ d, (K d).slot none = none) : K.seed site = K := by
  have hxl : K.xlUp site none = none := by
    rw [KeyStates.xlUp, firstUp, List.findSome?_eq_none_iff]
    intro d _
    rw [hclear d]
    split <;> rfl
  unfold KeyStates.seed
  rw [hxl]
  split <;> rfl

/-- A write that is not acknowledged leaves no current copy where there was none. -/
theorem write_clear {blocks : List Bytes × Bool} {xl : XlMeta}
    (hans : ∀ m, writeAnswer S site key blocks xl ≠ .ok m)
    (hclear : ∀ d, (K d).slot none = none) (d : Fin n) :
    ((K.write S site blocks xl) d).slot none = none := by
  unfold KeyStates.write
  unfold writeAnswer at hans
  split
  · exact hclear d
  · rename_i hbroken
    rw [if_neg hbroken] at hans
    split
    · simp only [KeyStates.onUp]
      split
      · rfl
      · exact hclear d
    · rename_i hquorum
      rw [if_neg hquorum] at hans
      exact absurd rfl (hans _)

theorem deleteVersion_clear {v : Str} (hclear : ∀ d, (K d).slot none = none)
    (hnewest : (K.historyUp site).versions.head?.map VEntry.versionId ≠ some v) (d : Fin n) :
    ((K.deleteVersion site v).2 d).slot none = none := by
  unfold KeyStates.deleteVersion
  rw [seed_of_clear hclear]
  dsimp only
  split
  · exact hclear d
  · rename_i idx hidx
    obtain ⟨idx, rfl⟩ : ∃ k, idx = k + 1 := by
      cases idx with
      | succ k => exact ⟨k, rfl⟩
      | zero =>
          cases hvs : (K.historyUp site).versions with
          | nil =>
              rw [hvs] at hidx
              cases hidx
          | cons e es =>
              rw [hvs, List.head?_cons, Option.map_some] at hnewest
              rw [hvs, List.findIdx?_cons] at hidx
              split at hidx
              · rename_i he
                exact absurd (congrArg some (of_decide_eq_true he)) hnewest
              · obtain ⟨_, -, h0⟩ := Option.map_eq_some_iff.1 hidx
                cases h0
    have hdrop : ∀ marker, ((K.dropStored site v (idx + 1) marker) d).slot none = none := by
      intro marker
      unfold KeyStates.dropStored
      split
      · exact hclear d
      · rw [if_neg (Nat.succ_ne_zero idx)]
        simp only [KeyStates.onUp]
        split
        · rw [KeyState.slot_setSlot_of_ne (by simp), hclear d]
        · exact hclear d
    unfold KeyStates.settle
    split
    · simp only [KeyStates.onUp]
      split
      · rfl
      · exact hdrop _
    · rw [slot_record]
      exact hdrop _

/-- A quiet step leaves no current copy where there was none. -/
theorem Effect.clear {mode : VMode} {c : KeyCall} {r : Except S3Error Unit}
    (h : Effect S site key mode K c r K') (hclear : ∀ d, (K d).slot none = none)
    (hput : ∀ env body contentType userMetadata encrypt,
      c = .put env body contentType userMetadata encrypt → r ≠ .ok ())
    (hversion : ∀ w, c = .deleteVersion w →
      (K.historyUp site).versions.head?.map VEntry.versionId ≠ some w) (d : Fin n) :
    (K' d).slot none = none := by
  cases h with
  | refused => exact hclear d
  | read hc => exact hclear d
  | seeded hc => rw [slot_seed, hclear d]
  | wrote _ _ _ =>
      rename_i env body contentType userMetadata encrypt src blocks xl _ _ _
      have hans : ∀ m, writeAnswer S site key blocks xl ≠ .ok m := by
        intro m hm
        refine hput _ _ _ _ _ rfl ?_
        rw [hm]
        rfl
      split
      · exact write_clear hans hclear d
      · unfold KeyStates.writeVersioned
        cases hw : writeAnswer S site key blocks xl with
        | error e =>
            refine write_clear hans (fun e => ?_) d
            rw [KeyStates.prepare, makeRoom_current, slot_seed, hclear e]
            split <;> rfl
        | ok m => exact absurd hw (hans m)
  | deleted =>
      split
      · simp only [KeyStates.onUp]
        split
        · rfl
        · exact hclear d
      · rw [mark_current, hclear d]
        split <;> rfl
  | dropped => exact deleteVersion_clear hclear (hversion _ rfl) d

end

section

variable {n : Nat} {S : ErasureStore n} {root : Fin n → List Str} {bucket key : Str}
  {s : Cluster n Doc}

/-- The drives keep the key's files, and none of them a current copy. -/
def Cleared (S : ErasureStore n) (root : Fin n → List Str) (bucket key : Str)
    (s : Cluster n Doc) : Prop :=
  ∃ K, Keeps S ⟨root, fun _ => true⟩ bucket key K s ∧ K.Proper ∧ ∀ d, (K d).slot none = none

theorem Cleared.hidden (h : Cleared S root bucket key s) (up : Fin n → Bool) :
    Hidden S ⟨root, up⟩ bucket key s := by
  obtain ⟨K, hk, -, hclear⟩ := h
  have hup : Keeps S ⟨root, up⟩ bucket key K s := hk
  exact hidden_of_clear hup hclear

theorem Cleared.step (hS : S.codec.Lawful)
    (hne : ∀ d, (rObject bucket key).resolve (root d) ≠ []) (h : Cleared S root bucket key s)
    {c : KeyStep n} (hquiet : Quiet root bucket key ((keyMachine S root bucket key).visit s c)) :
    Cleared S root bucket key ((keyMachine S root bucket key).step s c).2 := by
  obtain ⟨K, hk, hK, hclear⟩ := h
  have hup : Keeps S ⟨root, c.up⟩ bucket key K s := hk
  have hdir : ∀ d, (Site.mk root c.up).objDir bucket key d ≠ [] := hne
  obtain ⟨K', hk', heffect⟩ := step_effect hS hdir hup hK c.call
  refine ⟨K', hk', heffect.proper hK, fun d => heffect.clear hclear hquiet.1 ?_ d⟩
  intro w hw
  have hnewest : (historyOf ⟨root, c.up⟩ bucket key s).versions.head?.map VEntry.versionId ≠
    some w := hquiet.2 w hw
  rw [hup.historyOf] at hnewest
  exact hnewest

/-! ## The theorem -/

/-- A delete that reaches every copy leaves the cluster cleared. -/
theorem Kept.cleared (hS : S.codec.Lawful)
    (hne : ∀ d, (rObject bucket key).resolve (root d) ≠ []) (h : Kept S root bucket key s)
    {c : KeyStep n} {env : CallEnv} (hc : c.call = .delete env)
    (hok : ((keyMachine S root bucket key).step s c).1 = .ok ())
    (hreach : ReachesCopies ⟨root, c.up⟩ bucket key s) :
    Cleared S root bucket key ((keyMachine S root bucket key).step s c).2 := by
  obtain ⟨K, hk, hK⟩ := h
  have hup : Keeps S ⟨root, c.up⟩ bucket key K s := hk
  have hdir : ∀ d, (Site.mk root c.up).objDir bucket key d ≠ [] := hne
  obtain ⟨K', hk', heffect⟩ := step_effect hS hdir hup hK c.call
  refine ⟨K', hk', heffect.proper hK, ?_⟩
  have hanswer : ((Site.mk root c.up).run (c.call.prog S bucket key) s).1 = .ok () := hok
  rw [hanswer, hc] at heffect
  cases heffect with
  | read h =>
      rcases h with h | h
      · cases h
      · cases h
  | seeded h =>
      rcases h with h | h
      · cases h
      · cases h
  | deleted => exact clear_of_deleted hup hreach env

/-- **Acknowledged deletes hold.**  On drives that started with nothing of the key, after
any calls on it, each made while any of the drives could be reached: if a delete returned
`Ok` and reached every copy, the key is hidden after any further calls that neither
overwrite it nor delete its newest version, whichever drives are looked at. -/
theorem deletedStaysHidden (hS : S.codec.Lawful)
    (hne : ∀ d, (rObject bucket key).resolve (root d) ≠ [])
    (hstart : ∀ d, Untouched (s d) ((rObject bucket key).resolve (root d)))
    (calls : List (KeyStep n)) {pre post : List (Visit _ (KeyStep n) (Except S3Error Unit))}
    {u : Visit (Cluster n Doc) (KeyStep n) (Except S3Error Unit)} {env : CallEnv}
    (hrun : (keyMachine S root bucket key).visits s calls = pre ++ u :: post)
    (hdelete : u.call.call = .delete env) (hok : u.answer = .ok ())
    (hreach : ReachesCopies ⟨root, u.call.up⟩ bucket key u.before)
    (hquiet : ∀ v ∈ post, Quiet root bucket key v) (up : Fin n → Bool) :
    Hidden S ⟨root, up⟩ bucket key ((keyMachine S root bucket key).final s calls) := by
  obtain ⟨before, c, after, rfl, hpre, rfl⟩ := Machine.visits_split hrun
  rw [Machine.visits_append, Machine.visits_cons, hpre, List.append_cancel_left_eq] at hrun
  obtain ⟨-, rfl⟩ := List.cons.inj hrun
  have hkept := (kept_of_untouched (S := S) hstart).final hS hne before
  have hcleared := hkept.cleared hS hne hdelete hok hreach
  have hlast := Machine.invariant (M := keyMachine S root bucket key)
    (P := fun _ t => Cleared S root bucket key t) hcleared
    (fun _ t d ht hgood => ht.step hS hne hgood) after hquiet
  rw [Machine.final_append, Machine.final_cons]
  exact hlast.hidden up

end

/-- A put of a key on three drives, and a delete of it with the drives of `up`. -/
def putThenDelete (up : Fin 3 → Bool) : List (KeyStep 3) :=
  [⟨fun _ => true, .put (callAt 'a' 1 isHexLower_a) (.ofBytes [1, 2, 3, 4, 5]) [] [] false⟩,
    ⟨up, .delete (callAt 'b' 2 isHexLower_b)⟩]

/-- Calls on one key of a bucket on three drives. -/
abbrev trioMachine : Machine (Cluster 3 Doc) (KeyStep 3) (Except S3Error Unit) :=
  keyMachine ErasureStore.trio topRoot "docs".toList "key".toList

/-- A delete that reached all drives; drive 0 goes away and comes back. -/
theorem deletedStaysHidden_trio :
    Hidden ErasureStore.trio ⟨topRoot, fun _ => true⟩ "docs".toList "key".toList
      (trioMachine.final (withBucket "docs".toList)
        (putThenDelete (fun _ => true) ++ [⟨fun d => d ≠ 0, .head⟩])) := by
  refine deletedStaysHidden ErasureStore.trio_lawful (by decide +kernel) (by decide +kernel)
    (putThenDelete (fun _ => true) ++ [⟨fun d => d ≠ 0, .head⟩])
    (show trioMachine.visits (withBucket "docs".toList) _ =
      [trioMachine.visit _ _] ++ trioMachine.visit _ _ ::
      trioMachine.visits _ [⟨fun d => d ≠ 0, .head⟩] from rfl) rfl (by decide +kernel)
    (fun d _ => ⟨rfl, .inl (by decide +kernel)⟩) (fun v hv => ?_) fun _ => true
  have hcall := List.mem_singleton.1 (Machine.call_mem hv)
  refine ⟨fun env body contentType userMetadata encrypt hput => ?_, fun w hdrop => ?_⟩
  · rw [hcall] at hput
    cases hput
  · rw [hcall] at hdrop
    cases hdrop

/-- With drive 0 out of reach the delete is acknowledged; with every drive back, the copy
that drive 0 kept is served again. -/
theorem deleted_served_again :
    (trioMachine.visits (withBucket "docs".toList)
      (putThenDelete fun d => d ≠ 0)).map Visit.answer = [.ok (), .ok ()] ∧
    ((Site.mk topRoot fun _ => true).run (ErasureStore.trio.getObject "docs".toList
      "key".toList) (trioMachine.final (withBucket "docs".toList)
        (putThenDelete fun d => d ≠ 0))).1.toOption.map Prod.snd = some [1, 2, 3, 4, 5] ∧
    ¬ Hidden ErasureStore.trio ⟨topRoot, fun _ => true⟩ "docs".toList "key".toList
      (trioMachine.final (withBucket "docs".toList) (putThenDelete fun d => d ≠ 0)) :=
  ⟨by decide +kernel, by decide +kernel, fun h => absurd h.get (by decide +kernel)⟩

end Kerplace
