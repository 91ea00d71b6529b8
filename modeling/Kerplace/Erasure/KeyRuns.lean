/-
# `Kerplace.Erasure.KeyRuns` — runs of calls on one key

A machine over clusters: each step is a call on a fixed key, made while some of
the drives can be reached.  Whatever the call and the drives, a cluster whose
drives keep the key's files goes over into one whose drives keep them, and what
they have of the key changes as the pure functions of the bookkeeping say.
-/
import Kerplace.Erasure.Bookkeeping
import Kerplace.Lib.Machine

namespace Kerplace

open FileTree Prog ErasureStore

/-- The calls on a key. -/
inductive KeyCall where
  | put (env : CallEnv) (body : Body) (contentType : Str) (userMetadata : UserMeta)
      (encrypt : Bool)
  | delete (env : CallEnv)
  | deleteVersion (versionId : Str)
  | get
  | head
  | getVersion (versionId : Str)
  | headVersion (versionId : Str)

/-- A call, and the drives it can reach. -/
structure KeyStep (n : Nat) where
  up : Fin n → Bool
  call : KeyCall

section

variable {n : Nat} (S : ErasureStore n) (root : Fin n → List Str) (bucket key : Str)

/-- The store's program for a call; of its result only whether there is one is kept. -/
def KeyCall.prog : KeyCall → EStore n Unit
  | .put env body contentType userMetadata encrypt => do
      let _ ← S.putObject env bucket key body contentType userMetadata encrypt
      pure ()
  | .delete env => do
      let _ ← deleteObject env bucket key
      pure ()
  | .deleteVersion versionId => do
      let _ ← deleteObjectVersion bucket key versionId
      pure ()
  | .get => do
      let _ ← S.getObject bucket key
      pure ()
  | .head => do
      let _ ← headObject bucket key
      pure ()
  | .getVersion versionId => do
      let _ ← S.getObjectVersion bucket key versionId
      pure ()
  | .headVersion versionId => do
      let _ ← headObjectVersion bucket key versionId
      pure ()

/-- Calls on the key, one after the other. -/
def keyMachine : Machine (Cluster n Doc) (KeyStep n) (Except S3Error Unit) :=
  ⟨fun s c => (Site.mk root c.up).run (c.call.prog S bucket key) s⟩

end

/-! ## Histories stay proper -/

namespace KeyStates.Proper

variable {n : Nat} {K : KeyStates n} {site : Site n}

theorem onUp (hK : K.Proper) {f : KeyState → KeyState}
    (hf : ∀ k h, (f k).history = some h → k.history = some h) : (K.onUp site f).Proper := by
  intro d h hd
  unfold KeyStates.onUp at hd
  split at hd
  · exact hK d h (hf _ h hd)
  · exact hK d h hd

theorem setSlot (hK : K.Proper) (v : Option Str) (c : Option Copy) :
    (K.onUp site fun k => k.setSlot v c).Proper :=
  hK.onUp fun _ _ h => h

theorem moveSlot (hK : K.Proper) (src dst : Option Str) :
    (K.onUp site fun k => k.moveSlot src dst).Proper :=
  hK.onUp fun _ _ h => h

theorem bare (hK : K.Proper) : (K.onUp site fun _ => .bare).Proper :=
  hK.onUp fun _ _ h => nomatch h

theorem purge (hK : K.Proper) (mode : VMode) (hist : VHistory) :
    (K.purge site mode hist).2.Proper := by
  unfold KeyStates.purge
  dsimp only
  split
  · exact hK
  · split
    · exact hK
    · split
      · exact hK.setSlot _ _
      · split
        · exact hK.setSlot _ _
        · exact hK

theorem makeRoom (hK : K.Proper) (mode : VMode) (hist : VHistory) :
    (K.makeRoom site mode hist).2.Proper := by
  unfold KeyStates.makeRoom
  dsimp only
  split
  · exact (hK.purge mode hist).moveSlot _ _
  · exact hK.purge mode hist

theorem prepare (hK : K.Proper) (mode : VMode) : (K.prepare site mode).2.Proper :=
  (hK.seed site).makeRoom mode _

theorem properHistory_prepare (hK : K.Proper) (mode : VMode) :
    ProperHistory (K.prepare site mode).1 :=
  properHistory_makeRoom site mode ((hK.seed site).historyUp site) _

theorem write (hK : K.Proper) (S : ErasureStore n) (blocks : List Bytes × Bool) (xl : XlMeta) :
    (K.write S site blocks xl).Proper := by
  unfold KeyStates.write
  split
  · exact hK
  · split
    · exact hK.bare
    · exact hK.setSlot _ _

theorem writeVersioned (hK : K.Proper) (S : ErasureStore n) (key : Str) (env : CallEnv)
    (mode : VMode) (blocks : List Bytes × Bool) (xl : XlMeta) :
    (K.writeVersioned S site key env mode blocks xl).Proper := by
  unfold KeyStates.writeVersioned
  dsimp only
  split
  · exact (hK.prepare mode).write S blocks xl
  · refine ((hK.prepare mode).write S blocks xl).record site fun v hv => ?_
    rcases List.mem_cons.1 hv with rfl | hv
    · exact properId_new env mode
    · exact hK.properHistory_prepare mode v hv

theorem mark (hK : K.Proper) (env : CallEnv) (mode : VMode) :
    (K.mark site env mode).Proper := by
  refine (hK.prepare mode).record site fun v hv => ?_
  rcases List.mem_cons.1 hv with rfl | hv
  · exact properId_new env mode
  · exact hK.properHistory_prepare mode v hv

theorem deleteVersion (hK : K.Proper) (v : Str) : (K.deleteVersion site v).2.Proper := by
  unfold KeyStates.deleteVersion
  dsimp only
  split
  · exact hK.seed site
  · rename_i idx hidx
    have hdrop : ((K.seed site).dropStored site v idx
        ((((K.seed site).historyUp site).versions[idx]?.map VEntry.deleteMarker).getD
          false)).Proper := by
      unfold KeyStates.dropStored
      split
      · exact hK.seed site
      · split <;> exact (hK.seed site).setSlot _ _
    have hnext : ∀ K' : KeyStates n, K'.Proper → ∀ rest,
        (K'.promoteNext site idx rest).Proper := by
      intro K' hK' rest
      unfold KeyStates.promoteNext
      split
      · split
        · exact hK'
        · exact hK'.moveSlot _ _
      · exact hK'
    unfold KeyStates.settle
    split
    · exact (hnext _ hdrop _).bare
    · exact (hnext _ hdrop _).record site
        (properHistory_eraseIdx ((hK.seed site).historyUp site) idx)

end KeyStates.Proper

/-! ## The effect of a call -/

/-- What a call can make of what the drives have, with its result. -/
inductive Effect {n : Nat} (S : ErasureStore n) (site : Site n) (key : Str) (mode : VMode)
    (K : KeyStates n) : KeyCall → Except S3Error Unit → KeyStates n → Prop where
  | refused {c : KeyCall} {e : S3Error} : Effect S site key mode K c (.error e) K
  | read {c : KeyCall} {r : Except S3Error Unit} (hc : c = .get ∨ c = .head) :
      Effect S site key mode K c r K
  | seeded {c : KeyCall} {r : Except S3Error Unit} {v : Str}
      (hc : c = .getVersion v ∨ c = .headVersion v) : Effect S site key mode K c r (K.seed site)
  | wrote {env : CallEnv} {body : Body} {contentType : Str} {userMetadata : UserMeta}
      {encrypt : Bool} {src : Body} {blocks : List Bytes × Bool} {xl : XlMeta}
      (hsrc : S.sourceOf env body (S.shouldEncrypt encrypt) = some src)
      (hblocks : bodyBlocks S.blockSize src = blocks)
      (hxl : S.xlFor env blocks.1 contentType userMetadata (S.shouldEncrypt encrypt) none = xl) :
      Effect S site key mode K (.put env body contentType userMetadata encrypt)
        ((writeAnswer S site key blocks xl).map fun _ => ())
        (if mode = .off then K.write S site blocks xl
          else K.writeVersioned S site key env mode blocks xl)
  | deleted {env : CallEnv} : Effect S site key mode K (.delete env) (.ok ())
      (if mode = .off then K.onUp site fun _ => .bare else K.mark site env mode)
  | dropped {v : Str} : Effect S site key mode K (.deleteVersion v)
      ((K.deleteVersion site v).1.map fun _ => ()) (K.deleteVersion site v).2

namespace Effect

variable {n : Nat} {S : ErasureStore n} {site : Site n} {bucket key : Str} {mode : VMode}
  {K K' : KeyStates n} {c : KeyCall} {r : Except S3Error Unit}

theorem proper (h : Effect S site key mode K c r K') (hK : K.Proper) : K'.Proper := by
  cases h with
  | refused => exact hK
  | read hc => exact hK
  | seeded hc => exact hK.seed site
  | wrote _ _ _ =>
      split
      · exact hK.write S _ _
      · exact hK.writeVersioned S key _ mode _ _
  | deleted =>
      split
      · exact hK.bare
      · exact hK.mark _ mode
  | dropped => exact hK.deleteVersion _

end Effect

section

variable {n : Nat} {S : ErasureStore n} {site : Site n} {bucket key : Str}
  {K : KeyStates n} {s : Cluster n Doc}

theorem Site.run_unit {α : Type} (p : EStore n α) (s : Cluster n Doc) :
    site.run (do
      let _ ← p
      pure ()) s = ((site.run p s).1.map fun _ => (), (site.run p s).2) := by
  rw [Site.run_bind]
  rcases site.run p s with ⟨r, s'⟩
  cases r <;> rfl

/-- A region that reads and lists everything. -/
def readingRegion : Region Doc where
  reads _ := True
  lists _ := True
  writes _ := False
  trees _ := False
  prunes _ := False
  stores _ := False
  finds _ := True

theorem run_reading {α : Type} {p : EStore n α} {Q : α → Prop}
    (hp : MeetsE (storeContract n readingRegion fun _ => False) p Q) (s : Cluster n Doc) :
    (site.run p s).2 = s :=
  Site.run_readOnly hp ⟨fun _ h => h, fun _ h => h, fun _ h => h⟩ (fun _ => trivial) s

theorem keeps_located {α : Type} (hk : Keeps S site bucket key K s)
    (hb : bucketUp site bucket s = true) {v : Str} {f : Option Str → EStore n α}
    (hf : ∀ slot s', (site.run (f slot) s').2 = s') :
    Keeps S site bucket key (K.seed site)
      (site.run (do
        let slot ← locateVersion bucket key v
        f slot) s).2 := by
  obtain ⟨s', hrun, hk'⟩ := leads_locateVersion hk hb v
  rw [Site.run_bind, hrun]
  cases K.findVersion site v with
  | error e => exact hk'
  | ok slot =>
      rw [Prog.andThen_ok, hf]
      exact hk'

/-- A put, check by check. -/
theorem effect_putObject (hS : S.codec.Lawful) (hne : ∀ d, site.objDir bucket key d ≠ [])
    (hk : Keeps S site bucket key K s) (hK : K.Proper) (env : CallEnv) (body : Body)
    (contentType : Str) (userMetadata : UserMeta) (encrypt : Bool) :
    ∃ r K', Leads S site bucket key
        (S.putObject env bucket key body contentType userMetadata encrypt) s r K' ∧
      Effect S site key (modeOf site bucket s) K
        (.put env body contentType userMetadata encrypt) (r.map fun _ => ()) K' := by
  have hrefused : ∀ e, site.run (S.putObject env bucket key body contentType userMetadata
      encrypt) s = (.error e, s) →
      ∃ r K', Leads S site bucket key
          (S.putObject env bucket key body contentType userMetadata encrypt) s r K' ∧
        Effect S site key (modeOf site bucket s) K
          (.put env body contentType userMetadata encrypt) (r.map fun _ => ()) K' :=
    fun e hrun => ⟨.error e, K, .of_run hrun hk, .refused⟩
  have hrun : site.run (S.putObject env bucket key body contentType userMetadata encrypt) s = _ :=
    run_putObject env bucket key body contentType userMetadata encrypt
  split at hrun
  · exact hrefused _ hrun
  · rename_i hb
    split at hrun
    · exact hrefused _ hrun
    · split at hrun
      · exact hrefused _ hrun
      · rename_i src hsrc
        have hwrote : Effect S site key (modeOf site bucket s) K
            (.put env body contentType userMetadata encrypt)
            ((writeAnswer S site key (bodyBlocks S.blockSize src)
              (S.xlFor env (bodyBlocks S.blockSize src).1 contentType userMetadata
                (S.shouldEncrypt encrypt) none)).map fun _ => ()) _ := .wrote hsrc rfl rfl
        by_cases hoff : modeOf site bucket s = .off
        · rw [if_pos hoff] at hrun hwrote
          obtain ⟨s', hwrite, hk'⟩ := leads_writeSharded hS hk hne env src contentType
            userMetadata (S.shouldEncrypt encrypt) none rfl rfl
          exact ⟨_, _, ⟨s', hrun.trans hwrite, hk'⟩, hwrote⟩
        · rw [if_neg hoff] at hrun hwrote
          obtain ⟨s', hwrite, hk'⟩ := leads_writeVersioned hS hk hK
            (tally_of_bucketUp (by simpa using hb)) hne env (modeOf site bucket s) src
            contentType userMetadata (S.shouldEncrypt encrypt) rfl rfl
          refine ⟨_, _, ⟨s', hrun.trans hwrite, hk'⟩, ?_⟩
          revert hwrote
          cases writeAnswer S site key (bodyBlocks S.blockSize src)
            (S.xlFor env (bodyBlocks S.blockSize src).1 contentType userMetadata
              (S.shouldEncrypt encrypt) none) <;> exact id

theorem effect_of_leads {α : Type} {p : EStore n α} {r : Except S3Error α} {mode : VMode}
    {c : KeyCall} {K' : KeyStates n} (h : Leads S site bucket key p s r K')
    (he : Effect S site key mode K c (r.map fun _ => ()) K') :
    ∃ K'', Keeps S site bucket key K'' (site.run (do
        let _ ← p
        pure ()) s).2 ∧ Effect S site key mode K c (site.run (do
        let _ ← p
        pure ()) s).1 K'' := by
  obtain ⟨s', hrun, hk⟩ := h
  rw [Site.run_unit, hrun]
  exact ⟨K', hk, he⟩

/-- What a call can make of a cluster whose drives keep the key. -/
theorem step_effect (hS : S.codec.Lawful) (hne : ∀ d, site.objDir bucket key d ≠ [])
    (hk : Keeps S site bucket key K s) (hK : K.Proper) (c : KeyCall) :
    ∃ K', Keeps S site bucket key K' (site.run (c.prog S bucket key) s).2 ∧
      Effect S site key (modeOf site bucket s) K c (site.run (c.prog S bucket key) s).1 K' := by
  have hreadXl : ∀ slot, MeetsE (storeContract n readingRegion fun _ => False)
      (readXlV bucket key slot) fun _ => True := fun slot => meetsE_readXlAt trivial
  have hbody : ∀ slot m, MeetsE (storeContract n readingRegion fun _ => False)
      (S.readBody bucket key slot m) fun _ => True := fun slot m => meetsE_readBodyAt trivial m
  have hread : ∀ (p : EStore n Unit), (c = .get ∨ c = .head) →
      MeetsE (storeContract n readingRegion fun _ => False) p (fun _ => True) →
      ∃ K', Keeps S site bucket key K' (site.run p s).2 ∧
        Effect S site key (modeOf site bucket s) K c (site.run p s).1 K' := by
    intro p hc hp
    rw [run_reading hp]
    exact ⟨K, hk, .read hc⟩
  have hmissing : ∀ {α : Type} (p : EStore n α), bucketUp site bucket s = false →
      ∃ K', Keeps S site bucket key K' (site.run (do headBucket bucket; p) s).2 ∧
        Effect S site key (modeOf site bucket s) K c
          ((site.run (do headBucket bucket; p) s).1.map fun _ => ()) K' := by
    intro α p hb
    rw [Site.run_bind, run_headBucket, hb]
    exact ⟨K, hk, .refused⟩
  have hlocated : ∀ (v : Str) {α : Type} (f : Option Str → EStore n α),
      (c = .getVersion v ∨ c = .headVersion v) →
      (∀ slot, MeetsE (storeContract n readingRegion fun _ => False) (f slot) fun _ => True) →
      ∃ K', Keeps S site bucket key K' (site.run (do
          let slot ← locateVersion bucket key v
          f slot) s).2 ∧
        Effect S site key (modeOf site bucket s) K c ((site.run (do
          let slot ← locateVersion bucket key v
          f slot) s).1.map fun _ => ()) K' := by
    intro v α f hc hf
    cases hb : bucketUp site bucket s with
    | false =>
        rw [locateVersion, Site.run_bind, Site.run_bind, run_headBucket, hb]
        exact ⟨K, hk, .refused⟩
    | true => exact ⟨_, keeps_located hk hb fun slot s' => run_reading (hf slot) s', .seeded hc⟩
  cases c with
  | put env body contentType userMetadata encrypt =>
      obtain ⟨r, K', hleads, heffect⟩ := effect_putObject hS hne hk hK env body contentType
        userMetadata encrypt
      exact effect_of_leads hleads heffect
  | delete env =>
      cases hb : bucketUp site bucket s with
      | false =>
          rw [KeyCall.prog, Site.run_unit]
          exact hmissing _ hb
      | true => exact effect_of_leads (leads_deleteObject hk hK hne hb rfl env) .deleted
  | deleteVersion v =>
      cases hb : bucketUp site bucket s with
      | false =>
          rw [KeyCall.prog, Site.run_unit]
          exact hmissing _ hb
      | true => exact effect_of_leads (leads_deleteObjectVersion hk hK hne hb v) .dropped
  | get =>
      refine hread _ (.inl rfl) (MeetsE.then ?_ fun _ => meetsE_pure.2 trivial)
      exact MeetsE.then (hreadXl none) fun m => MeetsE.then (hbody none m) fun _ =>
        meetsE_pure.2 trivial
  | head =>
      refine hread _ (.inr rfl) (MeetsE.then ?_ fun _ => meetsE_pure.2 trivial)
      exact MeetsE.then (hreadXl none) fun m => meetsE_pure.2 trivial
  | getVersion v =>
      rw [KeyCall.prog, Site.run_unit]
      exact hlocated v _ (.inl rfl) fun slot => MeetsE.then (hreadXl slot) fun m =>
        MeetsE.then (hbody slot m) fun _ => meetsE_pure.2 trivial
  | headVersion v =>
      rw [KeyCall.prog, Site.run_unit]
      exact hlocated v _ (.inr rfl) fun slot => MeetsE.then (hreadXl slot) fun m =>
        meetsE_pure.2 trivial

end

/-! ## Where runs begin -/

/-- Nothing of a key is there, and nothing in its way. -/
structure Untouched (t : Tree Doc) (dir : List Str) : Prop where
  path : ∀ q, q <+: dir → t.file? q = none
  absent : t.look dir = none

instance (t : Tree Doc) (dir : List Str) : Decidable (Untouched t dir) :=
  decidable_of_iff ((∀ q ∈ dir.inits, t.file? q = none) ∧ t.look dir = none)
    ⟨fun h => ⟨fun q hq => h.1 q ((List.mem_inits q dir).2 hq), h.2⟩,
      fun h => ⟨fun q hq => h.path q ((List.mem_inits q dir).1 hq), h.absent⟩⟩

theorem Untouched.shows {t : Tree Doc} {dir : List Str} (h : Untouched t dir) :
    Shows dir .bare t where
  dirs slot _ q hq := by
    rcases List.prefix_or_prefix_of_prefix hq (List.prefix_append dir _) with hq | ⟨rest, rfl⟩
    · exact h.path q hq
    · rw [file?, look_below_none rest h.absent]
  tmp := by
    rw [look_below_none _ h.absent]
    exact fun h0 => nomatch h0
  place a _ := look_below_none _ h.absent

section

variable {n : Nat} {S : ErasureStore n} {root : Fin n → List Str} {bucket key : Str}
  {s : Cluster n Doc}

/-- The drives keep the key's files, under histories the server wrote. -/
def Kept (S : ErasureStore n) (root : Fin n → List Str) (bucket key : Str)
    (s : Cluster n Doc) : Prop :=
  ∃ K, Keeps S ⟨root, fun _ => true⟩ bucket key K s ∧ K.Proper

theorem kept_of_untouched (h : ∀ d, Untouched (s d) ((rObject bucket key).resolve (root d))) :
    Kept S root bucket key s := by
  refine ⟨fun _ => .bare, fun d => ?_, fun d h hd => nomatch hd⟩
  rw [KeyState.shelf_bare]
  exact (h d).shows

theorem Kept.step (hS : S.codec.Lawful)
    (hne : ∀ d, (rObject bucket key).resolve (root d) ≠ []) (h : Kept S root bucket key s)
    (c : KeyStep n) : Kept S root bucket key ((keyMachine S root bucket key).step s c).2 := by
  obtain ⟨K, hk, hK⟩ := h
  have hup : Keeps S ⟨root, c.up⟩ bucket key K s := hk
  have hdir : ∀ d, (Site.mk root c.up).objDir bucket key d ≠ [] := hne
  obtain ⟨K', hk', heffect⟩ := step_effect hS hdir hup hK c.call
  exact ⟨K', hk', heffect.proper hK⟩

theorem Kept.final (hS : S.codec.Lawful)
    (hne : ∀ d, (rObject bucket key).resolve (root d) ≠ []) (events : List (KeyStep n)) :
    ∀ {s : Cluster n Doc}, Kept S root bucket key s →
      Kept S root bucket key ((keyMachine S root bucket key).final s events) := by
  induction events with
  | nil => exact fun h => h
  | cons c events ih => exact fun h => ih (h.step hS hne c)

end

end Kerplace
