/-
# `Kerplace.Erasure.HealRace` — heals among the writers of their key

`heal_object` takes no lock.  The puts and deletes of a key run one after the
other, under the key's lock; heals of the key's versions run beside them, and
their drive operations fall between the writers' in any order.

A heal that no put or delete falls into runs as if at once, and what it repairs
it repairs rightly: it leaves the copies that the last acknowledged put or delete
left, and the history they go with (`Ordered.heal`).  One that does overlap with
a put or delete is harmless if it changes no file.  So as long as no heal both
overlaps and changes a file, what a reader gets in the end is what the last
acknowledged of the writers left.  A heal that has read the metadata and shards
of one put, and installs them after the next put has gone through, brings the old
bytes back (`heal_overtakes_put`).
-/
import Kerplace.Erasure.Serial
import Kerplace.Lib.Sharing

namespace Kerplace

open FileTree Prog ErasureStore

/-! ## The two sides -/

section

variable {n : Nat} (S : ErasureStore n) (root : Fin n → List Str) (bucket key : Str)

/-- All drives, in reach. -/
abbrev allUp : Site n := ⟨root, fun _ => true⟩

/-- Heals of versions of the key, and writers of it, from the state `s`. -/
def healRace (heals : List (Option Str × Bool)) (writes : List KeyCall) (s : Cluster n Doc) :
    Sharing (StoreOp n Doc) StoreOp.Ans (Except S3Error HealOutcome) (Except S3Error Unit)
      (Cluster n Doc) :=
  .start (heals.map fun v => (S.healObject bucket key v.1 v.2).run)
    (writes.map fun c => (c.prog S bucket key).run) s

/-- Turns of the two sides over all drives. -/
abbrev healRaceMachine : Machine
    (Sharing (StoreOp n Doc) StoreOp.Ans (Except S3Error HealOutcome) (Except S3Error Unit)
      (Cluster n Doc)) Bool Unit :=
  sharingMachine (allUp root).step

end

/-! ## A heal by itself -/

/-- What a heal of the version at `rel` may reach. -/
def healRegion (rel : UnixPath) : Region Doc where
  reads _ := True
  lists _ := True
  writes p := ∃ f ∈ HEAL_FILES, p = rel.joinStr f
  trees p := p = rel
  prunes _ := False
  stores := ProperDoc
  finds _ := True

theorem HealMay.within {rel : UnixPath} {o : DriveOp Doc} (ho : HealMay rel o) :
    o.Within (healRegion rel) := by
  cases o with
  | write p c =>
      obtain ⟨hp, m, rfl⟩ := ho
      refine ⟨hp, fun j hj h hh => ?_⟩
      cases hj
      cases hh
  | createDirAll p => exact ho
  | create p => exact ho
  | append p data => exact ho
  | shutdown p => exact ho
  | rename src dst => exact ho
  | removeFile p => exact ho.elim
  | removeDir p => exact ho.elim
  | removeDirAll p => exact ho.elim
  | _ => exact trivial

section

variable {n : Nat} {S : ErasureStore n} {site : Site n} {root : Fin n → List Str}
  {bucket key : Str} {s : Cluster n Doc} {K K' : KeyStates n} {slot : Option Str}
  {mode : VMode} {left : Option (Option (PutCall n))}

theorem meetsE_healRegion (dryRun : Bool) :
    MeetsE (storeContract n (healRegion (rObjV bucket key slot)) fun _ => False)
      (S.healObject bucket key slot dryRun) fun _ => True := by
  refine Meets.weaken (meetsE_healObject bucket key slot dryRun) (fun o ho => ?_)
    fun _ _ _ _ => trivial
  cases o with
  | drive d o => exact HealMay.within ho
  | lock m => exact ho.elim
  | unlock m => exact ho.elim

theorem healRegion_spares (hs : ProperVersion slot) {root q : List Str}
    (hq : Apart ((rObject bucket key).resolve root) q) :
    (healRegion (rObjV bucket key slot)).Spares root q := by
  refine ⟨fun p hp => ?_, fun p hp => hp.elim⟩
  rcases hp with ⟨f, hf, rfl⟩ | rfl
  · rw [UnixPath.resolve_joinStr_atom (atom_healFile hf), resolve_rObjV hs, List.append_assoc]
    exact hq.below _
  · rw [resolve_rObjV hs]
    exact hq.below _

theorem run_healObject_mode (hb : validateBucketName bucket = .ok ())
    (hkey : validateKey key = .ok ()) (hproper : ProperCluster s) (hs : ProperVersion slot)
    (dryRun : Bool) :
    ProperCluster (site.run (S.healObject bucket key slot dryRun) s).2 ∧
      modeOf site bucket (site.run (S.healObject bucket key slot dryRun) s).2 =
        modeOf site bucket s :=
  ⟨Site.run_proper (meetsE_healRegion dryRun) (fun _ h => h) (fun _ _ => trivial) hproper,
    Site.modeOf_spared (meetsE_healRegion dryRun) (fun _ h => h) (fun _ _ => trivial) hproper
      fun _ => healRegion_spares hs (objDir_apart_versioning hb hkey)⟩

/-- A copy given to the drives that lack it is one that some drive has. -/
theorem Mends.settled (h : Mends S site bucket key slot K s K') (hs : K.Settled site) :
    K'.Settled site := by
  cases h with
  | same => exact hs
  | given hup hxl hc henough hsome =>
      rename_i c bad
      have hhistory : ∀ d, (if bad d then (K d).setSlot slot (some c) else K d).history =
          (K d).history := by
        intro d
        split <;> rfl
      have hhas : KeyStates.hasHistory site
          (fun d => if bad d then (K d).setSlot slot (some c) else K d) = K.hasHistory site := by
        unfold KeyStates.hasHistory
        simp only [hhistory]
      have hread : KeyStates.historyUp site
          (fun d => if bad d then (K d).setSlot slot (some c) else K d) = K.historyUp site := by
        unfold KeyStates.historyUp KeyStates.historiesUp
        simp only [hhistory]
      intro d hd
      rw [hhas, hread]
      by_cases hkept : (K d).slot none = none
      · -- the drive was given its copy, which it shares with another one
        have hslot : slot = none := by
          by_contra hne
          refine hd ?_
          dsimp only
          split
          · rwa [KeyState.slot_setSlot_of_ne (Ne.symm hne)]
          · exact hkept
        subst hslot
        obtain ⟨e, c', hc', -⟩ := KeyStates.exists_slot_of_xlUp hxl
        exact hs e (by rw [hc']; exact Option.some_ne_none c')
      · exact hs d hkept

/-- Where every drive has the copy of the last put, a heal has nothing to give; and where
none has a copy it has nothing to give either. -/
theorem Mends.current (hS : S.codec.Lawful) (hsum : Function.Injective S.checksum)
    (hk : Keeps S site bucket key K s) (hm : K.Minted S)
    (h : Mends S site bucket key slot K s K') (hK : K.Current S left) : K'.Current S left := by
  cases h with
  | same => exact hK
  | given hup hxl hc henough hsome =>
      rename_i c bad
      cases slot with
      | some v =>
          have hslot : ∀ d, (if bad d then (K d).setSlot (some v) (some c) else K d).slot none =
              (K d).slot none := by
            intro d
            split
            · exact KeyState.slot_setSlot_of_ne (by simp) _
            · rfl
          match left, hK with
          | none, _ => exact trivial
          | some none, hK => exact fun d => (hslot d).trans (hK d)
          | some (some p), hK => exact ⟨hK.1, fun d => (hslot d).trans (hK.2 d)⟩
      | none =>
          obtain ⟨e, c', hc', hxl'⟩ := KeyStates.exists_slot_of_xlUp hxl
          match left, hK with
          | none, _ => exact trivial
          | some none, hK => exact nomatch hc'.symm.trans (hK e)
          | some (some p), hK =>
              have hminted := hm e none c' hc'
              obtain ⟨i, d, hi, hnot⟩ := hsome
              refine absurd ?_ hnot
              rw [holdsShard_of_xl_eq hS hsum hc hminted hxl'.symm]
              refine holdsShard_of_slot hS hk (hup d) ?_
                (length_of_xl_eq hsum hc hminted hxl'.symm ▸ hi)
              rw [hK.2 d, ← hK.2 e, hc']

/-! ## Calls and heals one after the other -/

/-- The state that calls and heals leave that run one after the other with all drives in
reach. -/
def Ordered (S : ErasureStore n) (root : Fin n → List Str) (bucket key : Str) (mode : VMode)
    (left : Option (Option (PutCall n))) (s : Cluster n Doc) : Prop :=
  ∃ K, Keeps S (allUp root) bucket key K s ∧ K.Proper ∧ K.Minted S ∧
    (mode = .off ∨ K.Settled (allUp root)) ∧ K.Current S left ∧ ProperCluster s ∧
    modeOf (allUp root) bucket s = mode

/-- The state calls on an invalid key leave: there is never a copy. -/
def Vain (S : ErasureStore n) (root : Fin n → List Str) (bucket key : Str)
    (left : Option (Option (PutCall n))) (s : Cluster n Doc) : Prop :=
  ∃ K, Keeps S (allUp root) bucket key K s ∧ K.Proper ∧
    (∀ d slot, (K d).slot slot = none) ∧ K.Current S left

theorem Vain.forget (h : Vain S root bucket key left s) : Vain S root bucket key none s := by
  obtain ⟨K, hk, hK, hvain, -⟩ := h
  exact ⟨K, hk, hK, hvain, trivial⟩

theorem keeps_of_untouched (h : ∀ d, Untouched (s d) ((rObject bucket key).resolve (root d))) :
    Keeps S (allUp root) bucket key (fun _ => .bare) s := by
  intro d
  rw [KeyState.shelf_bare]
  exact (h d).shows

theorem ordered_of_untouched (hdocs : ProperCluster s)
    (h : ∀ d, Untouched (s d) ((rObject bucket key).resolve (root d))) :
    Ordered S root bucket key (modeOf (allUp root) bucket s) none s :=
  ⟨fun _ => .bare, keeps_of_untouched h, fun _ _ hd => (nomatch hd), fun _ _ _ hd => (nomatch hd),
    .inr (.of_clear fun _ => rfl), trivial, hdocs, rfl⟩

theorem vain_of_untouched (h : ∀ d, Untouched (s d) ((rObject bucket key).resolve (root d))) :
    Vain S root bucket key none s :=
  ⟨fun _ => .bare, keeps_of_untouched h, fun _ _ hd => (nomatch hd), fun _ _ => rfl, trivial⟩

/-- What a call makes of such a state: the order of things is kept, and what the drives
have of the key changes as the call's effect says. -/
theorem Ordered.effect (hS : S.codec.Lawful) (hb : validateBucketName bucket = .ok ())
    (hkey : validateKey key = .ok ()) (hne : ∀ d, (rObject bucket key).resolve (root d) ≠ [])
    (h : Ordered S root bucket key mode left s) (c : KeyCall) :
    ∃ K K', K.Current S left ∧ (mode = .off ∨ K.Settled (allUp root)) ∧
      Effect S (allUp root) key mode K c ((allUp root).run (c.prog S bucket key) s).1 K' ∧
      ∀ left', K'.Current S left' → Ordered S root bucket key mode left'
        ((allUp root).run (c.prog S bucket key) s).2 := by
  obtain ⟨K, hk, hK, hm, hs, hcur, hproper, hmode⟩ := h
  have hdir : ∀ d, (allUp root).objDir bucket key d ≠ [] := hne
  obtain ⟨K', hk', heffect⟩ := step_effect hS hdir hk hK c
  rw [hmode] at heffect
  obtain ⟨hproper', hmode'⟩ : ProperCluster ((allUp root).run (c.prog S bucket key) s).2 ∧
      modeOf (allUp root) bucket ((allUp root).run (c.prog S bucket key) s).2 =
        modeOf (allUp root) bucket s := c.run_mode hb hkey hproper
  exact ⟨K, K', hcur, hs, heffect, fun left' hcur' => ⟨K', hk', heffect.proper hK,
    heffect.minted hm, heffect.settled (fun _ => rfl) hs, hcur', hproper',
    hmode'.trans hmode⟩⟩

theorem Ordered.step (hS : S.codec.Lawful) (hb : validateBucketName bucket = .ok ())
    (hkey : validateKey key = .ok ()) (hne : ∀ d, (rObject bucket key).resolve (root d) ≠ [])
    (h : Ordered S root bucket key mode none s) (c : KeyCall) :
    Ordered S root bucket key mode none ((allUp root).run (c.prog S bucket key) s).2 := by
  obtain ⟨K, K', -, -, -, hnext⟩ := h.effect hS hb hkey hne c
  exact hnext none trivial

theorem Ordered.write (hS : S.codec.Lawful) (hb : validateBucketName bucket = .ok ())
    (hkey : validateKey key = .ok ()) (hne : ∀ d, (rObject bucket key).resolve (root d) ≠ [])
    (h : Ordered S root bucket key mode left s) {c : KeyCall} (hwrites : c.Writes)
    (hsound : ∀ p, c.result n = some (some p) → p.Sound S mode) :
    Ordered S root bucket key mode
      (if ((allUp root).run (c.prog S bucket key) s).1 = .ok () then (c.result n).or left
        else left) ((allUp root).run (c.prog S bucket key) s).2 := by
  obtain ⟨K, K', hcur, hs, heffect, hnext⟩ := h.effect hS hb hkey hne c
  exact hnext _ (heffect.current (fun _ => rfl) hs hwrites hsound hcur)

/-- **A heal by itself** keeps it too: what it gives a drive belongs there. -/
theorem Ordered.heal (hS : S.codec.Lawful) (hsum : Function.Injective S.checksum)
    (hb : validateBucketName bucket = .ok ()) (hkey : validateKey key = .ok ())
    (h : Ordered S root bucket key mode left s) (hversion : ProperVersion slot) (dryRun : Bool) :
    Ordered S root bucket key mode left
      ((allUp root).run (S.healObject bucket key slot dryRun) s).2 := by
  obtain ⟨K, hk, hK, hm, hs, hcur, hproper, hmode⟩ := h
  obtain ⟨hproper', hmode'⟩ : ProperCluster
        ((allUp root).run (S.healObject bucket key slot dryRun) s).2 ∧
      modeOf (allUp root) bucket ((allUp root).run (S.healObject bucket key slot dryRun) s).2 =
        modeOf (allUp root) bucket s := run_healObject_mode hb hkey hproper hversion dryRun
  obtain ⟨r, K', ⟨s', hrun, hk'⟩, hmends⟩ := leads_healObject hS hsum hk hm hversion dryRun
  rw [hrun] at hproper' hmode' ⊢
  exact ⟨K', hk', hmends.proper hK, hmends.minted hm, hs.imp id hmends.settled,
    hmends.current hS hsum hk hm hcur, hproper', hmode'.trans hmode⟩

theorem Vain.heal (hS : S.codec.Lawful) (hsum : Function.Injective S.checksum)
    (h : Vain S root bucket key left s) (hversion : ProperVersion slot) (dryRun : Bool) :
    Vain S root bucket key left
      ((allUp root).run (S.healObject bucket key slot dryRun) s).2 := by
  obtain ⟨K, hk, hK, hvain, hcur⟩ := h
  have hm : K.Minted S := fun d v c hc => nomatch hc.symm.trans (hvain d v)
  obtain ⟨r, K', ⟨s', hrun, hk'⟩, hmends⟩ := leads_healObject hS hsum hk hm hversion dryRun
  rw [hrun]
  cases hmends with
  | same => exact ⟨K, hk', hK, hvain, hcur⟩
  | given hup hxl hc henough hsome =>
      obtain ⟨d, c', hc', -⟩ := KeyStates.exists_slot_of_xlUp hxl
      exact nomatch hc'.symm.trans (hvain d slot)

theorem Effect.noNew {K K' : KeyStates n} {c : KeyCall}
    {r : Except S3Error Unit} (h : Effect S site key mode K c r K')
    (hput : ∀ env body contentType userMetadata encrypt,
      c ≠ .put env body contentType userMetadata encrypt) : K.NoNew K' := by
  cases h with
  | refused => exact .refl
  | read hc => exact .refl
  | seeded hc => exact .seed
  | wrote _ _ _ => exact absurd rfl (hput _ _ _ _ _)
  | deleted =>
      split
      · exact .bare
      · exact .mark _ mode
  | dropped => exact .deleteVersion _

theorem run_put_invalid (hkey : validateKey key ≠ .ok ()) (env : CallEnv)
    (body : Body) (contentType : Str) (userMetadata : UserMeta) (encrypt : Bool) :
    ∃ e, site.run ((KeyCall.put env body contentType userMetadata encrypt).prog S bucket key) s =
      (.error e, s) := by
  rw [KeyCall.prog, Site.run_unit, run_putObject]
  split
  · exact ⟨_, rfl⟩
  · cases hval : validateKey key with
    | ok u => exact absurd hval hkey
    | error e => exact ⟨e, rfl⟩

/-- A call on an invalid key, with any of the drives out of reach. -/
theorem Vain.step (hS : S.codec.Lawful) (hkey : validateKey key ≠ .ok ())
    (hne : ∀ d, (rObject bucket key).resolve (root d) ≠ [])
    (h : Vain S root bucket key left s) (up : Fin n → Bool) (c : KeyCall) :
    Vain S root bucket key
      (if ((Site.mk root up).run (c.prog S bucket key) s).1 = .ok () then (c.result n).or left
        else left) ((Site.mk root up).run (c.prog S bucket key) s).2 := by
  obtain ⟨K, hk, hK, hvain, hcur⟩ := h
  have hdir : ∀ d, (Site.mk root up).objDir bucket key d ≠ [] := hne
  have hup : Keeps S ⟨root, up⟩ bucket key K s := hk
  have hother : (∀ env body contentType userMetadata encrypt,
      c ≠ .put env body contentType userMetadata encrypt) →
      (c.result n = none ∨ c.result n = some none) →
      Vain S root bucket key
        (if ((Site.mk root up).run (c.prog S bucket key) s).1 = .ok () then (c.result n).or left
          else left) ((Site.mk root up).run (c.prog S bucket key) s).2 := by
    intro hput hresult
    obtain ⟨K', hk', heffect⟩ := step_effect hS hdir hup hK c
    have hvain' : ∀ d slot, (K' d).slot slot = none := by
      intro d slot
      cases hslot : (K' d).slot slot with
      | none => rfl
      | some copy =>
          obtain ⟨slot', h'⟩ := heffect.noNew hput d slot copy hslot
          rw [hvain d slot'] at h'
          cases h'
    refine ⟨K', hk', heffect.proper hK, hvain', ?_⟩
    have hkeep : K'.Current S left := by
      match left, hcur with
      | none, _ => exact trivial
      | some none, _ => exact fun d => hvain' d none
      | some (some p), hcur =>
          have hslot := hcur.2 ⟨0, S.pos⟩
          rw [hvain] at hslot
          cases hslot
    split
    · rcases hresult with hnone | hgone
      · rw [hnone]
        exact hkeep
      · rw [hgone]
        exact fun d => hvain' d none
    · exact hkeep
  cases c with
  | put env body contentType userMetadata encrypt =>
      obtain ⟨e, hrun⟩ : ∃ e, (Site.mk root up).run ((KeyCall.put env body contentType
          userMetadata encrypt).prog S bucket key) s = (.error e, s) :=
        run_put_invalid hkey env body contentType userMetadata encrypt
      rw [hrun]
      exact ⟨K, hk, hK, hvain, hcur⟩
  | delete env => exact hother (fun _ _ _ _ _ h => nomatch h) (.inr rfl)
  | deleteVersion v => exact hother (fun _ _ _ _ _ h => nomatch h) (.inl rfl)
  | get => exact hother (fun _ _ _ _ _ h => nomatch h) (.inl rfl)
  | head => exact hother (fun _ _ _ _ _ h => nomatch h) (.inl rfl)
  | getVersion v => exact hother (fun _ _ _ _ _ h => nomatch h) (.inl rfl)
  | headVersion v => exact hother (fun _ _ _ _ _ h => nomatch h) (.inl rfl)

/-! ## The state they meet -/

theorem Ordered.final (hS : S.codec.Lawful) (hb : validateBucketName bucket = .ok ())
    (hkey : validateKey key = .ok ()) (hne : ∀ d, (rObject bucket key).resolve (root d) ≠ [])
    (before : List (KeyStep n)) (hall : ∀ c ∈ before, ∀ d, c.up d = true) :
    ∀ {s : Cluster n Doc}, Ordered S root bucket key mode none s →
      Ordered S root bucket key mode none ((keyMachine S root bucket key).final s before) := by
  induction before with
  | nil => exact fun h => h
  | cons c before ih =>
      intro s h
      obtain ⟨hc, hrest⟩ := List.forall_mem_cons.1 hall
      obtain ⟨up, c⟩ := c
      obtain rfl : up = fun _ => true := funext hc
      exact ih hrest (h.step hS hb hkey hne c)

theorem tended_final (hS : S.codec.Lawful) (hb : validateBucketName bucket = .ok ())
    (hkey : validateKey key = .ok ()) (hne : ∀ d, (rObject bucket key).resolve (root d) ≠ [])
    (before : List (KeyStep n)) : ∀ {s : Cluster n Doc},
      Tended S (allUp root) bucket key s ∧ ProperCluster s →
      Tended S (allUp root) bucket key ((keyMachine S root bucket key).final s before) ∧
        ProperCluster ((keyMachine S root bucket key).final s before) := by
  induction before with
  | nil => exact fun h => h
  | cons c before ih =>
      rintro s ⟨⟨K, hk, hK, hm⟩, hproper⟩
      have hup : Keeps S ⟨root, c.up⟩ bucket key K s := hk
      have hdir : ∀ d, (Site.mk root c.up).objDir bucket key d ≠ [] := hne
      obtain ⟨K', hk', heffect⟩ := step_effect hS hdir hup hK c.call
      exact ih ⟨⟨K', hk', heffect.proper hK, heffect.minted hm⟩,
        (c.call.run_mode hb hkey hproper).1⟩

/-- In a bucket without versioning the earlier calls may have missed drives. -/
theorem ordered_final (hS : S.codec.Lawful) (hb : validateBucketName bucket = .ok ())
    (hkey : validateKey key = .ok ()) (hne : ∀ d, (rObject bucket key).resolve (root d) ≠ [])
    (hdocs : ProperCluster s)
    (hstart : ∀ d, Untouched (s d) ((rObject bucket key).resolve (root d)))
    {before : List (KeyStep n)} {s₁ : Cluster n Doc}
    (hbefore : s₁ = (keyMachine S root bucket key).final s before)
    (hcalm : modeOf (allUp root) bucket s₁ = .off ∨ ∀ c ∈ before, ∀ d, c.up d = true) :
    Ordered S root bucket key (modeOf (allUp root) bucket s₁) none s₁ := by
  subst hbefore
  rcases hcalm with hoff | hall
  · have hbare : Tended S (allUp root) bucket key s :=
      ⟨_, keeps_of_untouched hstart, fun _ _ hd => (nomatch hd), fun _ _ _ hd => (nomatch hd)⟩
    obtain ⟨⟨K, hk, hK, hm⟩, hproper⟩ := tended_final hS hb hkey hne before ⟨hbare, hdocs⟩
    exact ⟨K, hk, hK, hm, .inl hoff, trivial, hproper, rfl⟩
  · obtain ⟨K, hk, hK, hm, hs, hcur, hproper, hmode⟩ :=
      (ordered_of_untouched (S := S) hdocs hstart).final hS hb hkey hne before hall
    exact ⟨K, hk, hK, hm, hmode ▸ hs, hcur, hproper, rfl⟩

theorem vain_final (hS : S.codec.Lawful) (hkey : validateKey key ≠ .ok ())
    (hne : ∀ d, (rObject bucket key).resolve (root d) ≠ []) (before : List (KeyStep n)) :
    ∀ {s : Cluster n Doc}, Vain S root bucket key none s → Vain S root bucket key none
      ((keyMachine S root bucket key).final s before) := by
  induction before with
  | nil => exact fun h => h
  | cons c before ih => exact fun h => ih (h.step hS hkey hne c.up c.call).forget

/-! ## What a reader gets -/

theorem lastLeft_snoc {pre post : List KeyCall} {c : KeyCall} {answers : List (Except S3Error Unit)}
    (hlen : pre.length = answers.length) (r : Except S3Error Unit) :
    lastLeft n ((pre ++ c :: post).zip (answers ++ [r])) =
      if r = .ok () then
        (c.result n).or (lastLeft n ((pre ++ c :: post).zip answers))
      else lastLeft n ((pre ++ c :: post).zip answers) := by
  have hzip : (pre ++ c :: post).zip answers = pre.zip answers := by
    have hpad : (pre ++ c :: post).zip (answers ++ []) =
        pre.zip answers ++ (c :: post).zip [] := List.zip_append hlen
    rwa [List.append_nil, List.zip_nil_right, List.append_nil] at hpad
  rw [List.zip_append hlen, hzip, lastLeft, lastLeft, List.foldl_append, List.zip_cons_cons,
    List.zip_nil_right]
  rfl

/-- What a heal and a write keep by themselves, heals and writers that share a key keep,
and what the writers' answers say of the state. -/
theorem race_keeps {P : Option (Option (PutCall n)) → Cluster n Doc → Prop}
    {heals : List (Option Str × Bool)} (hversions : ∀ v ∈ heals, ProperVersion v.1)
    {writes : List KeyCall} (hwrites : ∀ c ∈ writes, c.Writes)
    (hsound : ∀ c ∈ writes, ∀ p, c.result n = some (some p) → p.Sound S mode)
    (hheal : ∀ left s slot dryRun, ProperVersion slot → P left s →
      P left ((allUp root).run (S.healObject bucket key slot dryRun) s).2)
    (hwrite : ∀ left s (c : KeyCall), P left s → c.Writes →
      (∀ p, c.result n = some (some p) → p.Sound S mode) →
      P (if ((allUp root).run (c.prog S bucket key) s).1 = .ok () then (c.result n).or left
        else left) ((allUp root).run (c.prog S bucket key) s).2)
    {s₁ : Cluster n Doc} (hstart : P none s₁) {turns : List Bool}
    {outcomes : List (Except S3Error HealOutcome)} {answers : List (Except S3Error Unit)}
    (hover : ((healRaceMachine root).final (healRace S bucket key heals writes s₁) turns).Through
      outcomes answers)
    (hapart : ∀ v ∈ (healRaceMachine root).visits (healRace S bucket key heals writes s₁) turns,
      Considerate (allUp root).step v) :
    P (lastLeft n (writes.zip answers))
      ((healRaceMachine root).final (healRace S bucket key heals writes s₁) turns).state := by
  refine hover.keeps (P := fun answers s => P (lastLeft n (writes.zip answers)) s) hapart ?_
    (fun p hp answers s hP => ?_) (fun pre q post answers s hsplit hlen hP => ?_)
  · rw [List.zip_nil_right]
    exact hstart
  · obtain ⟨v, hv, rfl⟩ := List.mem_map.1 hp
    exact hheal _ s v.1 v.2 (hversions v hv) hP
  · obtain ⟨pre, rest, rfl, rfl, hrest⟩ := List.map_eq_append_iff.1 hsplit
    obtain ⟨c, post, rfl, rfl, rfl⟩ := List.map_eq_cons_iff.1 hrest
    have hc : c ∈ pre ++ c :: post := List.mem_append_right _ List.mem_cons_self
    rw [List.length_map] at hlen
    rw [lastLeft_snoc hlen]
    exact hwrite _ s c hP (hwrites c hc) (hsound c hc)

theorem sound_next {c : KeyCall} {r : Except S3Error Unit}
    (hleft : ∀ p, left = some (some p) → p.Sound S mode)
    (hc : ∀ p, c.result n = some (some p) → p.Sound S mode) :
    ∀ p, (if r = .ok () then (c.result n).or left else left) = some (some p) →
      p.Sound S mode := by
  intro p hp
  split at hp
  · cases hres : c.result n with
    | none =>
        rw [hres, Option.none_or] at hp
        exact hleft p hp
    | some x =>
        rw [hres, Option.some_or] at hp
        exact hc p (hres.trans hp)
  · exact hleft p hp

end

/-! ## Three drives -/

/-- A program's next operation only reads, or takes or gives back a lock. -/
def nextReads {n : Nat} {α : Type} : Prog (StoreOp n Doc) StoreOp.Ans α → Bool
  | .ret _ => true
  | .call (.drive _ o) _ =>
      match o with
      | .online => true
      | .read _ => true
      | .readAt _ _ _ => true
      | .stat _ => true
      | .readDir _ => true
      | .walk _ => true
      | _ => false
  | .call (.lock _) _ => true
  | .call (.unlock _) _ => true

theorem tick_of_nextReads {n : Nat} {α : Type} {site : Site n}
    {p : Prog (StoreOp n Doc) StoreOp.Ans α} (h : nextReads p = true) (s : Cluster n Doc) :
    (tick site.step p s).2 = s := by
  cases p with
  | ret a => rfl
  | call o k =>
      cases o with
      | lock m => rfl
      | unlock m => rfl
      | drive d o =>
          have hsame : (LocalDrive.stepIf (site.root d) (site.up d) o (s d)).2 = s d := by
            cases hup : site.up d with
            | false => rw [LocalDrive.stepIf_false]
            | true =>
                cases o with
                | online => rfl
                | read p => rfl
                | readAt p offset len => rfl
                | stat p => rfl
                | readDir p => rfl
                | walk p => rfl
                | _ => cases h
          show Function.update s d (LocalDrive.stepIf (site.root d) (site.up d) o (s d)).2 = s
          rw [hsame, Function.update_eq_self]

/-- A side's next operation only reads. -/
def sideReads {n : Nat} {α : Type} : Side (StoreOp n Doc) StoreOp.Ans α → Bool
  | ⟨some p, _, _⟩ => nextReads p
  | ⟨none, p :: _, _⟩ => nextReads p
  | ⟨none, [], _⟩ => true

/-- A heal's operation that only reads, if it is not alone; a writer's that falls into no
heal which has been alone. -/
def quiet {n : Nat} {α β : Type}
    (v : Visit (Sharing (StoreOp n Doc) StoreOp.Ans α β (Cluster n Doc)) Bool Unit) : Bool :=
  if v.call then v.before.alone.isSome || sideReads v.before.left else v.before.since.isNone

theorem considerate_of_quiet {n : Nat} {α β : Type} {site : Site n}
    {v : Visit (Sharing (StoreOp n Doc) StoreOp.Ans α β (Cluster n Doc)) Bool Unit}
    (h : quiet v = true) : Considerate site.step v := by
  obtain ⟨x, turn, u⟩ := v
  cases turn with
  | true =>
      refine ⟨fun _ halone => ?_, fun hturn => nomatch hturn⟩
      dsimp only at halone
      have hreads : sideReads x.left = true := by
        simpa [quiet, halone] using h
      dsimp only
      obtain ⟨⟨now, todo, done⟩, right, s, since⟩ := x
      cases now with
      | some p => exact tick_of_nextReads hreads s
      | none =>
          cases todo with
          | nil => rfl
          | cons p todo => exact tick_of_nextReads hreads s
  | false =>
      refine ⟨fun hturn => (nomatch hturn), fun _ s hs => ?_⟩
      have hnone : x.since = none := by simpa [quiet] using h
      exact nomatch hnone.symm.trans hs

/-- Two puts of a key. -/
def twoWrites : List KeyCall :=
  [.put (callAt 'a' 1 isHexLower_a) (.ofBytes [1, 2, 3, 4, 5]) [] [] false,
    .put (callAt 'b' 2 isHexLower_b) (.ofBytes [7, 8]) [] [] false]

theorem twoWrites_sound (mode : VMode) :
    ∀ c ∈ twoWrites, ∀ p, c.result 3 = some (some p) → p.Sound ErasureStore.trio mode := by
  intro c hc p hp
  simp only [twoWrites, List.mem_cons, List.not_mem_nil, or_false] at hc
  rcases hc with rfl | rfl
  · cases hp
    refine ⟨fun _ _ => .inl (by decide), fun h => absurd h (by decide), fun src hsrc => .inr ?_⟩
    cases hsrc
    decide +kernel
  · cases hp
    refine ⟨fun _ _ => .inl (by decide), fun h => absurd h (by decide), fun src hsrc => .inr ?_⟩
    cases hsrc
    decide +kernel

/-- An earlier put that did not reach drive 2. -/
def missedPut : List (KeyStep 3) :=
  [⟨fun d => d ≠ 2, .put (callAt 'c' 3 isHexLower_c) (.ofBytes [6]) [] [] false⟩]

/-- The drives after it. -/
abbrev afterMissed : Cluster 3 Doc :=
  (keyMachine ErasureStore.trio topRoot "docs".toList "key".toList).final
    (withBucket "docs".toList) missedPut

/-- The two puts, and heals of the key's current version, on three drives. -/
abbrev trioRace (heals : List (Option Str × Bool)) (s : Cluster 3 Doc) :
    Sharing (StoreOp 3 Doc) StoreOp.Ans (Except S3Error HealOutcome) (Except S3Error Unit)
      (Cluster 3 Doc) :=
  healRace ErasureStore.trio "docs".toList "key".toList heals twoWrites s

/-- One heal repairs drive 2 before the puts begin; the other one takes turns with the
second put while it stages its shards. -/
def turnsApart : List Bool :=
  List.replicate 16 true ++ List.replicate 28 false ++
    (List.replicate 14 [true, false]).flatten ++ List.replicate 20 false

/-- The heal begins while the second put installs its shards, and installs what it has
rebuilt of the first one when that is through. -/
def turnsAcross : List Bool :=
  List.replicate 45 false ++ List.replicate 18 true ++ List.replicate 15 false ++
    List.replicate 20 true

end Kerplace
