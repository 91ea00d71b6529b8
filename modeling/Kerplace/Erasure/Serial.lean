/-
# `Kerplace.Erasure.Serial` — calls on a key, one after the other, with all drives there

With every drive in reach and nothing else going on, the current copy and the
history of a key never disagree: while there is a copy, the history read either
does not exist or has a version, not a delete marker, as its newest entry
(`Settled`).  That is what a delete in a versioned bucket goes by.  So what a
reader gets after any calls is what the last acknowledged put or delete left
(`Ordered.getObject`).
-/
import Kerplace.Erasure.Deletes
import Kerplace.Erasure.Acked
import Kerplace.Erasure.HealRuns

namespace Kerplace

open FileTree Prog ErasureStore

section

variable {n : Nat} {S : ErasureStore n} {site : Site n} {bucket key : Str}
  {K K' : KeyStates n} {s : Cluster n Doc}

/-! ## The current copy and the history -/

/-- Where a drive has a current copy, the history read has a version as its newest entry,
if there is one to be read. -/
def KeyStates.Settled (site : Site n) (K : KeyStates n) : Prop :=
  ∀ d, (K d).slot none ≠ none →
    K.hasHistory site = false ∨ canonicalOccupied (K.historyUp site) = true

namespace KeyStates.Settled

theorem occupied (h : K.Settled site) {d : Fin n} (hd : site.up d = true)
    (hslot : (K d).slot none ≠ none) :
    canonicalOccupied ((K.seed site).historyUp site) = true := by
  rcases h d hslot with hnone | hocc
  · exact occupied_seed hd hslot hnone
  · cases hhas : K.hasHistory site with
    | false => exact occupied_seed hd hslot hhas
    | true => rw [KeyStates.seed, hhas, if_pos rfl, hocc]

theorem of_clear (hclear : ∀ d, (K d).slot none = none) : K.Settled site :=
  fun d hd => absurd (hclear d) hd

theorem record {h : VHistory} (hup : ∀ d, site.up d = true)
    (hocc : ∀ d, (K d).slot none ≠ none → canonicalOccupied h = true) :
    (K.record site h).Settled site := by
  intro d hd
  rw [slot_record] at hd
  refine .inr ?_
  rw [historyUp_record site h K (hup d)]
  exact hocc d hd

theorem seed (h : K.Settled site) (hup : ∀ d, site.up d = true) :
    (K.seed site).Settled site := by
  intro d hd
  rw [slot_seed] at hd
  exact .inr (h.occupied (hup d) hd)

theorem prepare_clear (h : K.Settled site) (hup : ∀ d, site.up d = true) (mode : VMode)
    (d : Fin n) : ((K.prepare site mode).2 d).slot none = none := by
  show (((K.seed site).makeRoom site mode ((K.seed site).historyUp site)).2 d).slot none = none
  rw [makeRoom_current, slot_seed]
  by_cases hslot : (K d).slot none = none
  · rw [hslot]
    split <;> rfl
  · rw [hup d, h.occupied (hup d) hslot]
    rfl

theorem mark_clear (h : K.Settled site) (hup : ∀ d, site.up d = true) (env : CallEnv)
    (mode : VMode) (d : Fin n) : ((K.mark site env mode) d).slot none = none := by
  unfold KeyStates.mark
  rw [slot_record]
  exact h.prepare_clear hup mode d

/-- Deleting a version: a copy that stays, or one brought back, is the newest entry. -/
theorem deleteVersion (h : K.Settled site) (hup : ∀ d, site.up d = true) (v : Str) :
    (K.deleteVersion site v).2.Settled site := by
  unfold KeyStates.deleteVersion
  dsimp only
  split
  · exact h.seed hup
  · rename_i idx hidx
    have hstored : ∀ d, ((K.seed site) d).slot none ≠ none →
        canonicalOccupied ((K.seed site).historyUp site) = true := by
      intro d hd
      rw [slot_seed] at hd
      exact h.occupied (hup d) hd
    generalize (K.seed site).historyUp site = hist at hidx hstored ⊢
    generalize K.seed site = K₀ at hstored ⊢
    unfold KeyStates.settle
    split
    · exact of_clear fun d => by
        simp only [KeyStates.onUp, hup d, if_true]
        rfl
    · refine record hup fun d hd => ?_
      obtain ⟨vs, epoch⟩ := hist
      cases vs with
      | nil => cases hidx
      | cons e es =>
          cases idx with
          | succ idx =>
              -- the newest entry stays, and the current slot with it
              have hkept : ((K₀.dropStored site v (idx + 1)
                  ((((e :: es)[idx + 1]?).map VEntry.deleteMarker).getD false)) d).slot none =
                  (K₀ d).slot none := by
                unfold KeyStates.dropStored
                split
                · rfl
                · rw [if_neg (Nat.succ_ne_zero idx)]
                  simp only [KeyStates.onUp, hup d, if_true]
                  exact KeyState.slot_setSlot_of_ne (by simp) _
              exact hstored d (hkept ▸ hd)
          | zero =>
              have hdropped : ((K₀.dropStored site v 0 e.deleteMarker) d).slot none = none := by
                unfold KeyStates.dropStored
                cases hmark : e.deleteMarker with
                | true =>
                    rw [if_pos rfl]
                    by_contra hslot
                    have hocc := hstored d hslot
                    rw [canonicalOccupied, List.head?_cons, Option.map_some, hmark] at hocc
                    cases hocc
                | false =>
                    rw [if_neg Bool.false_ne_true, if_pos rfl]
                    simp only [KeyStates.onUp, hup d, if_true]
                    exact KeyState.slot_setSlot_self _ _
              cases es with
              | nil => exact absurd hdropped hd
              | cons next es =>
                  cases hnext : next.deleteMarker with
                  | false =>
                      show (!next.deleteMarker) = true
                      rw [hnext]
                      rfl
                  | true =>
                      refine absurd ?_ hd
                      show ((KeyStates.promoteNext site 0 (next :: es) _) d).slot none = none
                      simp only [KeyStates.promoteNext, hnext, if_true]
                      exact hdropped

end KeyStates.Settled

/-- A call leaves a versioned key settled, if all drives can be reached. -/
theorem Effect.settled {mode : VMode} {c : KeyCall} {r : Except S3Error Unit}
    (h : Effect S site key mode K c r K') (hup : ∀ d, site.up d = true)
    (hs : mode = .off ∨ K.Settled site) : mode = .off ∨ K'.Settled site := by
  rcases hs with hoff | hs
  · exact .inl hoff
  by_cases hoff : mode = .off
  · exact .inl hoff
  refine .inr ?_
  cases h with
  | refused => exact hs
  | read hc => exact hs
  | seeded hc => exact hs.seed hup
  | wrote _ _ _ =>
      rename_i env body contentType userMetadata encrypt src blocks xl _ _ _
      rw [if_neg hoff]
      unfold KeyStates.writeVersioned
      cases hans : writeAnswer S site key blocks xl with
      | error e =>
          have hnone : ∀ m, writeAnswer S site key blocks xl ≠ .ok m := by
            intro m hm
            rw [hans] at hm
            cases hm
          exact .of_clear (write_clear hnone (hs.prepare_clear hup mode))
      | ok m => exact .record hup fun d _ => rfl
  | deleted =>
      rw [if_neg hoff]
      exact .of_clear (hs.mark_clear hup _ mode)
  | dropped => exact hs.deleteVersion hup _

/-! ## What the last acknowledged call left -/

/-- A put with all drives in reach. -/
def wholePut (n : Nat) (env : CallEnv) (body : Body) (contentType : Str)
    (userMetadata : UserMeta) (encrypt : Bool) : PutCall n :=
  ⟨fun _ => true, env, body, contentType, userMetadata, encrypt⟩

/-- What an acknowledged put or delete leaves: its object, or none. -/
def KeyCall.result (n : Nat) : KeyCall → Option (Option (PutCall n))
  | .put env body contentType userMetadata encrypt =>
      some (some (wholePut n env body contentType userMetadata encrypt))
  | .delete _ => some none
  | _ => none

/-- A put or a delete. -/
def KeyCall.Writes : KeyCall → Prop
  | .put _ _ _ _ _ => True
  | .delete _ => True
  | _ => False

instance (c : KeyCall) : Decidable c.Writes := by
  cases c <;> unfold KeyCall.Writes <;> infer_instance

/-- What the last acknowledged put or delete among these left, if there is one. -/
def lastLeft (n : Nat) (done : List (KeyCall × Except S3Error Unit)) :
    Option (Option (PutCall n)) :=
  done.foldl (fun left c => if c.2 = .ok () then (c.1.result n).or left else left) none

/-- A put that, once acknowledged, has stored its whole body, and whose body does not
break off in a versioned bucket. -/
structure PutCall.Sound (S : ErasureStore n) (mode : VMode) (c : PutCall n) : Prop where
  stored : ∀ src, S.putSource c = some src → 0 < S.blockSize ∨ src.data = []
  whole : S.shouldEncrypt c.encrypt = true → Crypto.sealable c.body = c.body.data
  ends : ∀ src, S.putSource c = some src →
    mode = .off ∨ (bodyBlocks S.blockSize src).2 = false

/-- The drives' current copies are as the last acknowledged call left them. -/
def KeyStates.Current (S : ErasureStore n) (K : KeyStates n) :
    Option (Option (PutCall n)) → Prop
  | none => True
  | some none => ∀ d, (K d).slot none = none
  | some (some c) => (S.putBlocks c).2 = false ∧
      ∀ d, (K d).slot none = some ⟨(S.putBlocks c).1, S.putXl c⟩

theorem quorum_all (S : ErasureStore n) (hup : ∀ d, site.up d = true) :
    ¬ tally site.up < S.codec.data + 1 := by
  have hall : tally site.up = n := by
    rw [tally, List.countP_eq_length.2 fun d _ => hup d, List.length_finRange]
  have htotal := S.total_eq
  have hparity := S.codec.parity_pos
  rw [Codec.total] at htotal
  omega

/-- A sound put, acknowledged or not, leaves the copies as its answer says. -/
theorem current_write {mode : VMode} {env : CallEnv} {body src : Body} {contentType : Str}
    {userMetadata : UserMeta} {encrypt : Bool} {left : Option (Option (PutCall n))}
    (hup : ∀ d, site.up d = true) (hK : K.Current S left)
    (hsound : (wholePut n env body contentType userMetadata encrypt).Sound S mode)
    (hsrc : S.sourceOf env body (S.shouldEncrypt encrypt) = some src) {blocks : List Bytes × Bool}
    {xl : XlMeta} (hblocks : bodyBlocks S.blockSize src = blocks)
    (hxl : S.xlFor env blocks.1 contentType userMetadata (S.shouldEncrypt encrypt) none = xl) :
    (if mode = .off then K.write S site blocks xl
      else K.writeVersioned S site key env mode blocks xl).Current S
      (if (writeAnswer S site key blocks xl).map (fun _ => ()) = .ok () then
        some (some (wholePut n env body contentType userMetadata encrypt)) else left) := by
  have hput : S.putBlocks (wholePut n env body contentType userMetadata encrypt) = blocks := by
    rw [putBlocks, show S.putSource (wholePut n env body contentType userMetadata encrypt) =
      some src from hsrc]
    exact hblocks
  have hmeta : S.putXl (wholePut n env body contentType userMetadata encrypt) = xl := by
    rw [putXl, hput]
    exact hxl
  cases hended : blocks.2 with
  | true =>
      have hoff : mode = .off := by
        rcases hsound.ends src hsrc with hoff | hends
        · exact hoff
        · rw [hblocks, hended] at hends
          cases hends
      have hwrite : K.write S site blocks xl = K := by
        rw [KeyStates.write, hended, if_pos rfl]
      have hanswer : writeAnswer S site key blocks xl = .error (.internal "read body") := by
        rw [writeAnswer, hended, if_pos rfl]
      rw [if_pos hoff, hwrite, hanswer]
      exact hK
  | false =>
      have hanswer : writeAnswer S site key blocks xl = .ok (metaToObject key xl) := by
        rw [writeAnswer, hended, if_neg Bool.false_ne_true, if_neg (quorum_all S hup)]
      have hwrite : ∀ K₀ : KeyStates n, K₀.write S site blocks xl =
          K₀.onUp site fun k => k.setSlot none (some ⟨blocks.1, xl⟩) := by
        intro K₀
        rw [KeyStates.write, hended, if_neg Bool.false_ne_true, if_neg (quorum_all S hup)]
      rw [hanswer, if_pos (show (Except.ok _).map (fun _ => ()) = .ok () from rfl)]
      refine ⟨by rw [hput, hended], fun d => ?_⟩
      rw [hput, hmeta]
      have hset : ∀ K₀ : KeyStates n, ((K₀.write S site blocks xl) d).slot none =
          some ⟨blocks.1, xl⟩ := by
        intro K₀
        rw [hwrite, KeyStates.onUp, if_pos (hup d)]
        exact KeyState.slot_setSlot_self _ _
      split
      · exact hset K
      · unfold KeyStates.writeVersioned
        rw [hanswer]
        exact (congrFun (slot_record site _ _ d) none).trans (hset _)

/-- A put or delete leaves the current copies as its answer says. -/
theorem Effect.current {mode : VMode} {c : KeyCall} {r : Except S3Error Unit}
    {left : Option (Option (PutCall n))} (h : Effect S site key mode K c r K')
    (hup : ∀ d, site.up d = true) (hs : mode = .off ∨ K.Settled site) (hwrites : c.Writes)
    (hsound : ∀ p, c.result n = some (some p) → p.Sound S mode) (hK : K.Current S left) :
    K'.Current S (if r = .ok () then (c.result n).or left else left) := by
  cases h with
  | refused => exact hK
  | read hc =>
      rcases hc with rfl | rfl
      · exact hwrites.elim
      · exact hwrites.elim
  | seeded hc =>
      rcases hc with rfl | rfl
      · exact hwrites.elim
      · exact hwrites.elim
  | wrote hsrc hblocks hxl =>
      exact current_write hup hK (hsound _ rfl) hsrc hblocks hxl
  | deleted =>
      rw [if_pos rfl]
      intro d
      rcases hs with hoff | hs
      · rw [if_pos hoff, KeyStates.onUp, if_pos (hup d)]
        rfl
      · split
        · rw [KeyStates.onUp, if_pos (hup d)]
          rfl
        · exact hs.mark_clear hup _ mode d
  | dropped => exact hwrites.elim

/-! ## What a reader gets -/

/-- What `get_object` is to answer. -/
def answerOf (S : ErasureStore n) (key : Str) : Option (PutCall n) →
    Except S3Error (ObjectMeta × Bytes)
  | some c => .ok (metaToObject key (S.putXl c), c.body.data)
  | none => .error .noSuchKey

/-- Copies of a sound put on the reachable drives are read back, if these are enough. -/
theorem Keeps.getObject_up (hS : S.codec.Lawful) (hsum : Function.Injective S.checksum)
    (hcr : S.crypto.Lawful) (hk : Keeps S site bucket key K s)
    (hdata : S.codec.data ≤ tally site.up) (hany : tally site.up ≠ 0)
    {c : PutCall n} {mode : VMode} (hsound : c.Sound S mode) (hended : (S.putBlocks c).2 = false)
    (hcopy : ∀ d, site.up d = true →
      (K d).slot none = some ⟨(S.putBlocks c).1, S.putXl c⟩) :
    (site.run (S.getObject bucket key) s).1 = .ok (metaToObject key (S.putXl c), c.body.data) := by
  obtain ⟨src, hsrc⟩ : ∃ src, S.putSource c = some src := by
    cases hsrc : S.putSource c with
    | none =>
        rw [putBlocks, hsrc] at hended
        cases hended
    | some src => exact ⟨src, rfl⟩
  have hblocks : bodyBlocks S.blockSize src = ((S.putBlocks c).1, false) := by
    rw [← hended, putBlocks, hsrc]
  have hholds : ∀ i, i < (S.putBlocks c).1.length → ∀ d, site.up d = true →
      HoldsShard S site s (rObjV bucket key none) (S.putBlocks c).1 i d := by
    intro i hi d hd
    refine ⟨hd, ?_⟩
    have hplace := (hk d).place (.part none) properVersion_none
    have hfile : (s d).file? (((rObjV bucket key none).joinStr PART).resolve (site.root d)) =
        some (.raw (S.partOf d (S.putBlocks c).1)) := by
      have hlook : (s d).look ((rObject bucket key).resolve (site.root d) ++
          (Place.part none).rel) = some (.file (.raw (S.partOf d (S.putBlocks c).1))) := by
        refine hplace.trans ?_
        rw [KeyState.shelf, hcopy d hd]
        rfl
      rw [resolve_part properVersion_none, file?, hlook]
    have hget : (S.putBlocks c).1.getD i [] = (S.putBlocks c).1[i] := by
      rw [List.getD_eq_getElem?_getD, List.getElem?_eq_getElem hi, Option.getD_some]
    rw [shardAt, hfile, hget]
    exact sliceAt_partOf hS (List.getElem?_eq_getElem hi) d
  have hbody : (site.run (S.readBody bucket key none (S.putXl c)) s).1 = .ok c.body.data := by
    refine (run_readBody_eq_iff hS hcr hsrc hblocks c.contentType c.userMetadata none
      (unmistaken_of_injective hsum site s (rObjV bucket key none) (S.putBlocks c).1)).2
        ⟨hsound.stored src hsrc, hsound.whole, fun _ i hi => hdata.trans ?_⟩
    exact List.countP_mono_left fun d _ hd => decide_eq_true (hholds i hi d hd)
  have hfirst : K.xlUp site none = some (S.putXl c) := by
    obtain ⟨d, -, hd⟩ := List.countP_pos_iff.1 (Nat.pos_of_ne_zero hany)
    have hfind : (K.xlUp site none).isSome = true := by
      rw [KeyStates.xlUp, firstUp, List.findSome?_isSome_iff]
      refine ⟨d, List.mem_finRange d, ?_⟩
      rw [if_pos hd, hcopy d hd]
      rfl
    obtain ⟨m, hm⟩ := Option.isSome_iff_exists.1 hfind
    rw [hm]
    obtain ⟨e, -, he⟩ := List.exists_of_findSome?_eq_some hm
    split at he
    · rename_i hup
      dsimp only at he
      rw [hcopy e hup] at he
      exact he.symm
    · cases he
  have hxl : site.run (readXl bucket key) s = (.ok (S.putXl c), s) := by
    rw [readXl, hk.run_readXlV properVersion_none, hfirst]
  rw [ErasureStore.getObject, Site.run_bind, hxl, Prog.andThen_ok, Site.run_bind]
  generalize site.run (S.readBody bucket key none (S.putXl c)) s = r at hbody ⊢
  obtain ⟨r, s'⟩ := r
  cases hbody
  rfl

theorem Keeps.getObject (hS : S.codec.Lawful) (hsum : Function.Injective S.checksum)
    (hcr : S.crypto.Lawful) (hk : Keeps S site bucket key K s) (hup : ∀ d, site.up d = true)
    {c : PutCall n} {mode : VMode} (hsound : c.Sound S mode) (hended : (S.putBlocks c).2 = false)
    (hcopy : ∀ d, (K d).slot none = some ⟨(S.putBlocks c).1, S.putXl c⟩) :
    (site.run (S.getObject bucket key) s).1 = .ok (metaToObject key (S.putXl c), c.body.data) := by
  have hquorum := quorum_all S hup
  exact hk.getObject_up hS hsum hcr (by omega) (by omega) hsound hended fun d _ => hcopy d

theorem KeyStates.Current.getObject (hS : S.codec.Lawful) (hsum : Function.Injective S.checksum)
    (hcr : S.crypto.Lawful) (hk : Keeps S site bucket key K s) (hup : ∀ d, site.up d = true)
    {mode : VMode} {left : Option (PutCall n)} (hK : K.Current S (some left))
    (hsound : ∀ c, left = some c → c.Sound S mode) :
    (site.run (S.getObject bucket key) s).1 = answerOf S key left := by
  cases left with
  | none => exact (hidden_of_clear hk hK).get
  | some c => exact hk.getObject hS hsum hcr hup (hsound c rfl) hK.1 hK.2

end

/-! ## The bucket's mode -/

section

variable {n : Nat} {S : ErasureStore n} {site : Site n} {bucket key : Str}
  {s : Cluster n Doc}

theorem meetsE_unit {α : Type} {p : EStore n α}
    (hp : MeetsE (objectContract n bucket key) p fun _ => True) :
    MeetsE (objectContract n bucket key) (do
      let _ ← p
      pure ()) fun _ => True :=
  hp.then fun _ => meetsE_pure.2 trivial

theorem KeyCall.meetsE (c : KeyCall) :
    MeetsE (objectContract n bucket key) (c.prog S bucket key) fun _ => True := by
  cases c with
  | put env body contentType userMetadata encrypt => exact meetsE_unit (meetsE_putObject _ _ _ _ _)
  | delete env => exact meetsE_unit (meetsE_deleteObject env)
  | deleteVersion v => exact meetsE_unit (meetsE_deleteObjectVersion v)
  | get => exact meetsE_unit (meetsE_getObject objectRegion_reads)
  | head => exact meetsE_unit (meetsE_headObject objectRegion_reads)
  | getVersion v => exact meetsE_unit (meetsE_getObjectVersion v)
  | headVersion v => exact meetsE_unit (meetsE_headObjectVersion v)

theorem KeyCall.run_mode (hb : validateBucketName bucket = .ok ())
    (hkey : validateKey key = .ok ()) (hs : ProperCluster s) (c : KeyCall) :
    ProperCluster (site.run (c.prog S bucket key) s).2 ∧
      modeOf site bucket (site.run (c.prog S bucket key) s).2 = modeOf site bucket s := by
  have hmeets : MeetsE (objectContract n bucket key) (c.prog S bucket key) fun _ => True :=
    c.meetsE
  exact ⟨Site.run_proper hmeets (fun _ h => h) (fun _ h => h) hs,
    Site.modeOf_spared hmeets (fun _ h => h) (fun _ h => h) hs fun _ =>
      objectRegion_spares (validateBucketName_atom hb) (validateKey_plain hkey)
        (objDir_apart_versioning hb hkey)⟩

end

/-- A cluster with nothing but a bucket has no document at all. -/
theorem properCluster_withBucket {n : Nat} (bucket : Str) :
    ProperCluster (withBucket bucket : Cluster n Doc) := by
  intro d p j hlook
  have hfile := file?_eq_some.2 hlook
  have hempty : (FileTree.empty : Tree Doc).file? p = none := by
    by_cases hp : p = []
    · subst hp
      rfl
    · rw [file?, look_empty p hp]
  unfold withBucket at hfile
  cases hmade : (FileTree.empty : Tree Doc).createDirAll [bucket] with
  | none =>
      rw [hmade, Option.getD_none, hempty] at hfile
      cases hfile
  | some t =>
      rw [hmade, Option.getD_some, file?_createDirAll hmade, hempty] at hfile
      cases hfile

end Kerplace
