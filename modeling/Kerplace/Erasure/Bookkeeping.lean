/-
# `Kerplace.Erasure.Bookkeeping` — the calls on a key, as updates of what the drives have

A second reading of the store's calls on one key, on what the drives have of it
(`Fin n → KeyState`) instead of on their trees: a pure function for each step
of the version bookkeeping, changed on the reachable drives alone.  `Leads`
says that a call run on trees that show one such state ends in a given result,
on trees that show another; every step leads where its function says.
-/
import Kerplace.Erasure.Key

namespace Kerplace

open FileTree ErasureStore

/-- What every drive has of a key. -/
abbrev KeyStates (n : Nat) := Fin n → KeyState

/-- The drives' trees show what they have of a key. -/
def Keeps {n : Nat} (S : ErasureStore n) (site : Site n) (bucket key : Str)
    (K : KeyStates n) (s : Cluster n Doc) : Prop :=
  ∀ d, Shows (site.objDir bucket key d) ((K d).shelf S d) (s d)

/-- From `s` a call ends in `r`, with the drives' trees showing `K`. -/
def Leads {n : Nat} {α : Type} (S : ErasureStore n) (site : Site n) (bucket key : Str)
    (p : EStore n α) (s : Cluster n Doc) (r : Except S3Error α) (K : KeyStates n) : Prop :=
  ∃ s', site.run p s = (r, s') ∧ Keeps S site bucket key K s'

namespace KeyStates

variable {n : Nat}

/-- Change what the reachable drives have. -/
def onUp (site : Site n) (f : KeyState → KeyState) (K : KeyStates n) : KeyStates n :=
  fun d => if site.up d then f (K d) else K d

/-- The metadata read from a slot. -/
def xlUp (site : Site n) (K : KeyStates n) (slot : Option Str) : Option XlMeta :=
  firstUp site fun d => ((K d).slot slot).map Copy.xl

/-- The histories the reachable drives have. -/
def historiesUp (site : Site n) (K : KeyStates n) : List (Option VHistory) :=
  List.ofFn fun d => if site.up d then (K d).history else none

/-- The history read. -/
def historyUp (site : Site n) (K : KeyStates n) : VHistory :=
  (bestHistory (K.historiesUp site)).getD ⟨[], 0⟩

/-- Whether a reachable drive has a history. -/
def hasHistory (site : Site n) (K : KeyStates n) : Bool :=
  (List.finRange n).any fun d => site.up d && (K d).history.isSome

/-- `write_history`. -/
def record (site : Site n) (h : VHistory) (K : KeyStates n) : KeyStates n :=
  K.onUp site fun k => k.record { h with epoch := h.epoch + 1 }

/-- `seed_legacy_history`. -/
def seed (site : Site n) (K : KeyStates n) : KeyStates n :=
  if K.hasHistory site then K
  else
    match K.xlUp site none with
    | some m => K.record site ⟨[legacyEntry m], 0⟩
    | none => K

/-- `purgeNull`: the history, whether the current slot is taken, and what the drives
have. -/
def purge (site : Site n) (mode : VMode) (hist : VHistory) (K : KeyStates n) :
    (VHistory × Bool) × KeyStates n :=
  let occupied := canonicalOccupied hist
  if mode ≠ .suspended then ((hist, occupied), K)
  else
    match hist.versions.findIdx? (fun v => v.versionId = NULL) with
    | none => ((hist, occupied), K)
    | some idx =>
        let isMarker := (hist.versions[idx]?.map VEntry.deleteMarker).getD false
        let rest := { hist with versions := hist.versions.eraseIdx idx }
        if idx = 0 && occupied then ((rest, false), K.onUp site fun k => k.setSlot none none)
        else if !isMarker then
          ((rest, occupied), K.onUp site fun k => k.setSlot (some NULL) none)
        else ((rest, occupied), K)

/-- `makeRoom`. -/
def makeRoom (site : Site n) (mode : VMode) (hist : VHistory) (K : KeyStates n) :
    VHistory × KeyStates n :=
  let r := K.purge site mode hist
  match r.1.2, r.1.1.versions with
  | true, v :: _ => (r.1.1, r.2.onUp site fun k => k.moveSlot none (some v.versionId))
  | _, _ => (r.1.1, r.2)

/-- `begin_versioned_write`, its history. -/
def prepare (site : Site n) (mode : VMode) (K : KeyStates n) : VHistory × KeyStates n :=
  let K := K.seed site
  K.makeRoom site mode (K.historyUp site)

/-- `dropStored`. -/
def dropStored (site : Site n) (versionId : Str) (idx : Nat) (marker : Bool)
    (K : KeyStates n) : KeyStates n :=
  if marker then K
  else if idx = 0 then K.onUp site fun k => k.setSlot none none
  else K.onUp site fun k => k.setSlot (some versionId) none

/-- `promoteNext`. -/
def promoteNext (site : Site n) (idx : Nat) (rest : List VEntry) (K : KeyStates n) :
    KeyStates n :=
  match idx, rest with
  | 0, next :: _ =>
      if next.deleteMarker then K
      else K.onUp site fun k => k.moveSlot (some next.versionId) none
  | _, _ => K

/-- `settleHistory`. -/
def settle (site : Site n) (rest : VHistory) (K : KeyStates n) : KeyStates n :=
  if rest.versions.isEmpty then K.onUp site fun _ => .bare else K.record site rest

end KeyStates

/-! ## Runs -/

section

variable {n : Nat} {α β : Type} {S : ErasureStore n} {site : Site n} {bucket key : Str}
  {K K' : KeyStates n} {s : Cluster n Doc}

namespace Leads

theorem bind {p : EStore n α} {f : α → EStore n β} {a : α} {r : Except S3Error β}
    {K₁ K₂ : KeyStates n} (hp : Leads S site bucket key p s (.ok a) K₁)
    (hf : ∀ s₁, Keeps S site bucket key K₁ s₁ → Leads S site bucket key (f a) s₁ r K₂) :
    Leads S site bucket key (p >>= f) s r K₂ := by
  obtain ⟨s₁, hrun, hk⟩ := hp
  obtain ⟨s₂, hrun₂, hk₂⟩ := hf s₁ hk
  refine ⟨s₂, ?_, hk₂⟩
  rw [Site.run_bind, hrun, Prog.andThen_ok, hrun₂]

theorem bind_error {p : EStore n α} {f : α → EStore n β} {e : S3Error}
    (hp : Leads S site bucket key p s (.error e) K) :
    Leads S site bucket key (p >>= f) s (.error e) K := by
  obtain ⟨s₁, hrun, hk⟩ := hp
  refine ⟨s₁, ?_, hk⟩
  rw [Site.run_bind, hrun, Prog.andThen_error]

theorem of_run {p : EStore n α} {r : Except S3Error α} (hrun : site.run p s = (r, s))
    (hk : Keeps S site bucket key K s) : Leads S site bucket key p s r K := ⟨s, hrun, hk⟩

theorem pure (a : α) (hk : Keeps S site bucket key K s) :
    Leads S site bucket key (Pure.pure a) s (.ok a) K := ⟨s, rfl, hk⟩

theorem throw (e : S3Error) (hk : Keeps S site bucket key K s) :
    Leads S site bucket key (MonadExcept.throw e : EStore n α) s (.error e) K := ⟨s, rfl, hk⟩

theorem withLock {name : Str} {p : EStore n α} {r : Except S3Error α}
    (hp : Leads S site bucket key p s r K) :
    Leads S site bucket key (Kerplace.withLock name p) s r K := by
  obtain ⟨s', hrun, hk⟩ := hp
  exact ⟨s', by rw [Site.run_withLock, hrun], hk⟩

theorem read {p : EStore n α} {f : α → EStore n β} {a : α} {r : Except S3Error β}
    (hp : site.run p s = (.ok a, s)) (hf : Leads S site bucket key (f a) s r K) :
    Leads S site bucket key (p >>= f) s r K := by
  obtain ⟨s', hrun, hk⟩ := hf
  refine ⟨s', ?_, hk⟩
  rw [Site.run_bind, hp, Prog.andThen_ok, hrun]

theorem each {γ : Type} {p : Fin n → DriveProg Doc γ} {g : EStore n α}
    {r : Except S3Error α} {f : KeyState → KeyState} (hk : Keeps S site bucket key K s)
    (hp : ∀ d, site.up d = true → Shows (site.objDir bucket key d) ((f (K d)).shelf S d)
      ((p d).exec (LocalDrive.step (site.root d)) (s d)).2)
    (hg : ∀ s₁, Keeps S site bucket key (K.onUp site f) s₁ →
      Leads S site bucket key g s₁ r K') :
    Leads S site bucket key (do let _ ← eachDrive p; g) s r K' := by
  obtain ⟨s', hrun, hk'⟩ := hg (fun d => (site.onTree d (p d) (s d)).2) fun d => by
    unfold KeyStates.onUp
    cases hd : site.up d with
    | false => simpa [Site.onTree_down_snd hd] using hk d
    | true => simpa [Site.onTree_up hd] using hp d hd
  refine ⟨s', ?_, hk'⟩
  rw [Site.run_bind, Site.run_eachDrive, Prog.andThen_ok, hrun]

end Leads

/-! ## What is read -/

theorem docAt_shows {α : Type} {dir : List Str} {F : Shelf} {t : Tree Doc} {a : Place}
    (h : Shows dir F t) (ha : a.Proper) (decode : Doc → Option α) :
    docAt decode t (dir ++ a.rel) =
      match F a with
      | some (.file (.doc j)) => decode j
      | _ => none := by
  rw [docAt, file?, h.place a ha]
  cases F a with
  | none => rfl
  | some x =>
      cases x with
      | dir => rfl
      | file c => cases c <;> rfl

theorem Keeps.run_readXlV (hk : Keeps S site bucket key K s) {slot : Option Str}
    (hs : ProperVersion slot) :
    site.run (readXlV bucket key slot) s =
      (match K.xlUp site slot with
        | some m => .ok m
        | none => .error .noSuchKey, s) := by
  have hdoc : ∀ d, docAt Doc.xl? (s d)
      (((rObjV bucket key slot).joinStr XL_META).resolve (site.root d)) =
      ((K d).slot slot).map Copy.xl := by
    intro d
    rw [resolve_xl hs]
    refine (docAt_shows (hk d) (a := .xl slot) hs Doc.xl?).trans ?_
    rw [KeyState.shelf]
    cases (K d).slot slot <;> rfl
  rw [ErasureStore.run_readXlV]
  simp only [hdoc]
  rfl

theorem Keeps.historyOf (hk : Keeps S site bucket key K s) :
    historyOf site bucket key s = K.historyUp site := by
  have hdoc : ∀ d, docAt Doc.history? (s d) ((rHistory bucket key).resolve (site.root d)) =
      (K d).history := by
    intro d
    rw [resolve_history]
    refine (docAt_shows (hk d) (a := .history) trivial Doc.history?).trans ?_
    rw [KeyState.shelf]
    cases (K d).history <;> rfl
  simp only [ErasureStore.historyOf, docsUp, hdoc]
  rfl

theorem Keeps.run_readHistory (hk : Keeps S site bucket key K s) :
    site.run (readHistory bucket key) s = (.ok (K.historyUp site), s) := by
  rw [ErasureStore.run_readHistory, hk.historyOf]

theorem Keeps.run_hasHistory (hk : Keeps S site bucket key K s) :
    site.run (ErasureStore.hasHistory bucket key) s = (.ok (K.hasHistory site), s) := by
  have hlook : ∀ d, ((s d).look ((rHistory bucket key).resolve (site.root d))).isSome =
      (K d).history.isSome := by
    intro d
    rw [resolve_history]
    exact (congrArg Option.isSome ((hk d).place .history trivial)).trans
      (by rw [KeyState.shelf]; cases (K d).history <;> rfl)
  rw [ErasureStore.run_hasHistory, existsUp]
  simp only [hlook]
  rfl

/-! ## The steps of the bookkeeping -/

theorem leads_demote (hk : Keeps S site bucket key K s) {v : Str} (hv : ProperId v) :
    Leads S site bucket key (demoteCurrent bucket key v) s (.ok ())
      (K.onUp site fun k => k.moveSlot none (some v)) :=
  Leads.each (f := fun k => k.moveSlot none (some v)) hk (fun d _ => (hk d).exec_demote hv)
    fun _ => .pure ()

theorem leads_promote (hk : Keeps S site bucket key K s) {v : Str} (hv : ProperId v) :
    Leads S site bucket key (promoteArchive bucket key v) s (.ok ())
      (K.onUp site fun k => k.moveSlot (some v) none) :=
  Leads.each (f := fun k => k.moveSlot (some v) none) hk (fun d _ => (hk d).exec_promote hv)
    fun _ => .pure ()

theorem leads_discard (hk : Keeps S site bucket key K s) :
    Leads S site bucket key (discardCurrent bucket key) s (.ok ())
      (K.onUp site fun k => k.setSlot none none) :=
  Leads.each (f := fun k => k.setSlot none none) hk (fun d _ => (hk d).exec_discard)
    fun _ => .pure ()

theorem leads_removeArchive (hk : Keeps S site bucket key K s) {v : Str} (hv : ProperId v) :
    Leads S site bucket key (removeArchive bucket key v) s (.ok ())
      (K.onUp site fun k => k.setSlot (some v) none) :=
  Leads.each (f := fun k => k.setSlot (some v) none) hk (fun d _ => (hk d).exec_removeArchive hv)
    fun _ => .pure ()

theorem leads_removeObject (hk : Keeps S site bucket key K s)
    (hne : ∀ d, site.objDir bucket key d ≠ []) (a : α) :
    Leads S site bucket key (do
      let _ ← eachDrive fun _ => removeObjectDir bucket key
      Pure.pure a) s (.ok a) (K.onUp site fun _ => .bare) :=
  Leads.each (f := fun _ => .bare) hk (fun d _ => (hk d).exec_removeObjectDir (hne d))
    fun _ => .pure a

theorem leads_writeHistory (hk : Keeps S site bucket key K s) (hup : tally site.up ≠ 0)
    (h : VHistory) :
    Leads S site bucket key (writeHistory bucket key h) s (.ok ()) (K.record site h) := by
  let h' : VHistory := { h with epoch := h.epoch + 1 }
  have hstep : ∀ d, ∃ t, site.onTree d (do
        let _ ← Drive.createDirAll ((rObject bucket key).joinStr VDIR)
        Drive.write (rHistory bucket key) (.doc (.history h'))) (s d) = (site.up d, t) ∧
      Shows (site.objDir bucket key d)
        (((if site.up d then (K d).record h' else K d)).shelf S d) t := by
    intro d
    cases hd : site.up d with
    | false =>
        refine ⟨s d, ?_, by simpa using hk d⟩
        rw [Site.onTree, hd]
        rfl
    | true =>
        obtain ⟨t', ht, hs⟩ := (hk d).exec_record h'
        exact ⟨t', by rw [Site.onTree_up hd, ht], hs⟩
  choose t ht hs using hstep
  have hpar : (rHistory bucket key).parent = some ((rObject bucket key).joinStr VDIR) :=
    UnixPath.parent_joinStr_atom atom_history
  refine ⟨t, ?_, hs⟩
  unfold writeHistory metaWriteAll
  simp only [hpar, Site.run_bind, Site.run_eachDrive, ht, Prog.andThen_ok, h', if_neg hup]
  rfl

/-! ## Proper histories -/

/-- Every drive's history has minted ids only. -/
def KeyStates.Proper (K : KeyStates n) : Prop :=
  ∀ d h, (K d).history = some h → ProperHistory h

namespace KeyStates.Proper

theorem historyUp (hK : K.Proper) (site : Site n) : ProperHistory (K.historyUp site) := by
  unfold KeyStates.historyUp
  cases hbest : bestHistory (K.historiesUp site) with
  | none => exact fun v hv => nomatch hv
  | some h =>
      obtain ⟨d, hd⟩ := List.mem_ofFn.1 (bestHistory_mem hbest)
      split at hd
      · exact hK d h hd
      · cases hd

theorem record (hK : K.Proper) (site : Site n) {h : VHistory} (hh : ProperHistory h) :
    (K.record site h).Proper := by
  intro d h' hd
  simp only [KeyStates.record, KeyStates.onUp, KeyState.record] at hd
  split at hd
  · rw [← Option.some.inj hd]
    exact hh
  · exact hK d h' hd

theorem seed (hK : K.Proper) (site : Site n) : (K.seed site).Proper := by
  unfold KeyStates.seed
  split
  · exact hK
  · split
    · refine hK.record site fun v hv => ?_
      rw [List.mem_singleton.1 hv]
      exact properId_null
    · exact hK

end KeyStates.Proper

theorem properHistory_purge (site : Site n) (mode : VMode) {hist : VHistory}
    (hh : ProperHistory hist) (K : KeyStates n) :
    ProperHistory (K.purge site mode hist).1.1 := by
  unfold KeyStates.purge
  dsimp only
  split
  · exact hh
  · split
    · exact hh
    · split
      · exact properHistory_eraseIdx hh _
      · split <;> exact properHistory_eraseIdx hh _

theorem properHistory_makeRoom (site : Site n) (mode : VMode) {hist : VHistory}
    (hh : ProperHistory hist) (K : KeyStates n) :
    ProperHistory (K.makeRoom site mode hist).1 := by
  unfold KeyStates.makeRoom
  dsimp only
  split <;> exact properHistory_purge site mode hh K

/-! ## The bookkeeping as a whole -/

theorem leads_seed (hk : Keeps S site bucket key K s) (hup : tally site.up ≠ 0) :
    Leads S site bucket key (seedLegacyHistory bucket key) s (.ok ()) (K.seed site) := by
  unfold seedLegacyHistory KeyStates.seed
  refine Leads.bind (.of_run hk.run_hasHistory hk) fun s₁ hk₁ => ?_
  cases K.hasHistory site with
  | true => exact .pure () hk₁
  | false =>
      simp only [Bool.false_eq_true, if_false]
      have hread : site.run (outcome (readXl bucket key)) s₁ =
          (.ok (match K.xlUp site none with
            | some m => .ok m
            | none => .error .noSuchKey), s₁) := by
        rw [Site.run_outcome, readXl, hk₁.run_readXlV properVersion_none]
      refine Leads.bind (.of_run hread hk₁) fun s₂ hk₂ => ?_
      cases K.xlUp site none with
      | none => exact .pure () hk₂
      | some m => exact leads_writeHistory hk₂ hup _

theorem leads_purgeNull (hk : Keeps S site bucket key K s) (mode : VMode) (hist : VHistory) :
    Leads S site bucket key (purgeNull bucket key mode hist) s
      (.ok (K.purge site mode hist).1) (K.purge site mode hist).2 := by
  unfold purgeNull KeyStates.purge
  by_cases hmode : mode ≠ .suspended
  · simp only [if_pos hmode]
    exact .pure _ hk
  simp only [if_neg hmode]
  cases hist.versions.findIdx? (fun v => v.versionId = NULL) with
  | none => exact .pure _ hk
  | some idx =>
      dsimp only
      by_cases hcur : (decide (idx = 0) && canonicalOccupied hist) = true
      · simp only [if_pos hcur]
        exact (leads_discard hk).bind fun _ hk₁ => .pure _ hk₁
      simp only [if_neg hcur]
      by_cases hmark : (!(hist.versions[idx]?.map VEntry.deleteMarker).getD false) = true
      · simp only [if_pos hmark]
        exact (leads_removeArchive hk properId_null).bind fun _ hk₁ => .pure _ hk₁
      · simp only [if_neg hmark]
        exact .pure _ hk

theorem leads_makeRoom (hk : Keeps S site bucket key K s) (mode : VMode) {hist : VHistory}
    (hh : ProperHistory hist) :
    Leads S site bucket key (makeRoom bucket key mode hist) s
      (.ok (K.makeRoom site mode hist).1) (K.makeRoom site mode hist).2 := by
  have hproper := properHistory_purge site mode hh K
  unfold makeRoom KeyStates.makeRoom
  refine Leads.bind (leads_purgeNull hk mode hist) fun s₁ hk₁ => ?_
  generalize K.purge site mode hist = r at hk₁ hproper
  obtain ⟨⟨⟨vs, epoch⟩, occupied⟩, K₁⟩ := r
  cases occupied with
  | false => exact .pure _ hk₁
  | true =>
      cases vs with
      | nil => exact .pure _ hk₁
      | cons v vs =>
          exact (leads_demote hk₁ (hproper v List.mem_cons_self)).bind fun _ hk₂ =>
            .pure _ hk₂

theorem leads_beginVersionedWrite (hk : Keeps S site bucket key K s) (hK : K.Proper)
    (hup : tally site.up ≠ 0) (env : CallEnv) (mode : VMode) :
    Leads S site bucket key (beginVersionedWrite env bucket key mode) s
      (.ok (newVersionId env mode, (K.prepare site mode).1)) (K.prepare site mode).2 := by
  refine Leads.bind (leads_seed hk hup) fun s₁ hk₁ => ?_
  refine Leads.bind (.of_run hk₁.run_readHistory hk₁) fun s₂ hk₂ => ?_
  exact (leads_makeRoom hk₂ mode ((hK.seed site).historyUp site)).bind fun _ hk₃ =>
    .pure _ hk₃

theorem leads_dropStored (hk : Keeps S site bucket key K s) {v : Str} (hv : ProperId v)
    (idx : Nat) (marker : Bool) :
    Leads S site bucket key (dropStored bucket key v idx marker) s (.ok ())
      (K.dropStored site v idx marker) := by
  unfold dropStored KeyStates.dropStored
  split
  · exact .pure () hk
  · split
    · exact leads_discard hk
    · exact leads_removeArchive hk hv

theorem leads_promoteNext (hk : Keeps S site bucket key K s) (idx : Nat)
    {rest : List VEntry} (hrest : ∀ v ∈ rest, ProperId v.versionId) :
    Leads S site bucket key (promoteNext bucket key idx rest) s (.ok ())
      (K.promoteNext site idx rest) := by
  cases rest with
  | nil => cases idx <;> exact .pure () hk
  | cons next rest =>
      cases idx with
      | succ idx => exact .pure () hk
      | zero =>
          simp only [promoteNext, KeyStates.promoteNext]
          split
          · exact .pure () hk
          · exact leads_promote hk (hrest _ List.mem_cons_self)

theorem leads_settleHistory (hk : Keeps S site bucket key K s) (hup : tally site.up ≠ 0)
    (hne : ∀ d, site.objDir bucket key d ≠ []) (rest : VHistory) :
    Leads S site bucket key (settleHistory bucket key rest) s (.ok ())
      (K.settle site rest) := by
  unfold settleHistory KeyStates.settle
  split
  · exact leads_removeObject hk hne ()
  · exact leads_writeHistory hk hup rest

/-! ## The calls -/

/-- What a sharded write answers. -/
def writeAnswer (S : ErasureStore n) (site : Site n) (key : Str)
    (blocks : List Bytes × Bool) (xl : XlMeta) : Except S3Error ObjectMeta :=
  if blocks.2 then .error (.internal "read body")
  else if tally site.up < S.codec.data + 1 then .error (.internal "write quorum not met")
  else .ok (metaToObject key xl)

/-- What it makes of what the drives have. -/
def KeyStates.write (S : ErasureStore n) (site : Site n) (blocks : List Bytes × Bool)
    (xl : XlMeta) (K : KeyStates n) : KeyStates n :=
  if blocks.2 then K
  else if tally site.up < S.codec.data + 1 then K.onUp site fun _ => .bare
  else K.onUp site fun k => k.setSlot none (some ⟨blocks.1, xl⟩)

theorem leads_writeSharded (hS : S.codec.Lawful) (hk : Keeps S site bucket key K s)
    (hne : ∀ d, site.objDir bucket key d ≠ []) (env : CallEnv) (src : Body)
    (contentType : Str) (userMetadata : UserMeta) (encrypted : Bool)
    (etagOverride : Option Str) {blocks : List Bytes × Bool} {xl : XlMeta}
    (hblocks : bodyBlocks S.blockSize src = blocks)
    (hxl : S.xlFor env blocks.1 contentType userMetadata encrypted etagOverride = xl) :
    Leads S site bucket key (S.writeSharded env bucket key src contentType userMetadata
      encrypted etagOverride) s (writeAnswer S site key blocks xl)
      (K.write S site blocks xl) := by
  have hopen : ∀ d, site.up d = true → Open (s d) (site.objDir bucket key d) :=
    fun d _ => (hk d).open_
  have hends := run_writeSharded hS hopen hne env src contentType userMetadata encrypted
    etagOverride
  rw [hblocks, hxl] at hends
  unfold Leads
  generalize site.run (S.writeSharded env bucket key src contentType userMetadata encrypted
    etagOverride) s = r at hends ⊢
  refine ⟨r.2, Prod.ext ?_ rfl, fun d => ?_⟩
  · unfold writeAnswer
    cases hb : blocks.2 with
    | true => exact (hends.broken hb).1
    | false =>
        by_cases hq : tally site.up < S.codec.data + 1
        · rw [if_neg (by simp), if_pos hq]
          exact (hends.short hb hq).1
        · rw [if_neg (by simp), if_neg hq]
          exact (hends.done hb (Nat.le_of_not_lt hq)).1
  · cases hd : site.up d with
    | false =>
        rw [hends.down d hd]
        have hkeep : K.write S site blocks xl d = K d := by
          unfold KeyStates.write KeyStates.onUp
          split
          · rfl
          · split <;> simp [hd]
        rw [hkeep]
        exact hk d
    | true =>
        unfold KeyStates.write KeyStates.onUp
        cases hb : blocks.2 with
        | true =>
            rw [if_pos rfl]
            exact (hk d).staged ((hends.broken hb).2 d hd)
        | false =>
            rw [if_neg (by simp)]
            by_cases hq : tally site.up < S.codec.data + 1
            · simp only [if_pos hq, hd, if_true]
              exact (hk d).wiped ((hends.short hb hq).2 d hd)
            · simp only [if_neg hq, hd, if_true]
              exact (hk d).published ((hends.done hb (Nat.le_of_not_lt hq)).2 d hd)

/-- The entry a write records. -/
def writtenEntry (env : CallEnv) (vid : Str) (m : ObjectMeta) : VEntry :=
  ⟨vid, false, m.lastModified, m.etag, m.size, env.accessKey, env.remoteIp⟩

/-- The entry a delete records. -/
def markerEntry (env : CallEnv) (mode : VMode) : VEntry :=
  ⟨newVersionId env mode, true, env.now, [], 0, env.accessKey, env.remoteIp⟩

/-- What a versioned write makes of what the drives have. -/
def KeyStates.writeVersioned (S : ErasureStore n) (site : Site n) (key : Str)
    (env : CallEnv) (mode : VMode) (blocks : List Bytes × Bool) (xl : XlMeta)
    (K : KeyStates n) : KeyStates n :=
  let r := K.prepare site mode
  let K₂ := r.2.write S site blocks xl
  match writeAnswer S site key blocks xl with
  | .error _ => K₂
  | .ok m =>
      K₂.record site
        ⟨writtenEntry env (newVersionId env mode) m :: r.1.versions, r.1.epoch⟩

theorem leads_writeVersioned (hS : S.codec.Lawful) (hk : Keeps S site bucket key K s)
    (hK : K.Proper) (hup : tally site.up ≠ 0) (hne : ∀ d, site.objDir bucket key d ≠ [])
    (env : CallEnv) (mode : VMode) (src : Body) (contentType : Str)
    (userMetadata : UserMeta) (encrypted : Bool) {blocks : List Bytes × Bool} {xl : XlMeta}
    (hblocks : bodyBlocks S.blockSize src = blocks)
    (hxl : S.xlFor env blocks.1 contentType userMetadata encrypted none = xl) :
    Leads S site bucket key (S.writeVersioned env bucket key mode src contentType
      userMetadata encrypted) s
      ((writeAnswer S site key blocks xl).map fun m =>
        { m with versionId := some (newVersionId env mode) })
      (K.writeVersioned S site key env mode blocks xl) := by
  refine Leads.bind (leads_beginVersionedWrite hk hK hup env mode) fun s₁ hk₁ => ?_
  have hwrite := leads_writeSharded hS hk₁ hne env src contentType userMetadata encrypted
    none hblocks hxl
  unfold KeyStates.writeVersioned
  dsimp only
  cases hans : writeAnswer S site key blocks xl with
  | error e =>
      rw [hans] at hwrite
      exact hwrite.bind_error
  | ok m =>
      rw [hans] at hwrite
      refine Leads.bind hwrite fun s₂ hk₂ => ?_
      exact (leads_writeHistory hk₂ hup _).bind fun _ hk₃ => .pure _ hk₃

/-- What a delete under a versioned mode makes of what the drives have. -/
def KeyStates.mark (site : Site n) (env : CallEnv) (mode : VMode) (K : KeyStates n) :
    KeyStates n :=
  let r := K.prepare site mode
  r.2.record site ⟨markerEntry env mode :: r.1.versions, r.1.epoch⟩

/-- What deleting a version makes of what the drives have, if the history has it. -/
def KeyStates.deleteVersion (site : Site n) (versionId : Str) (K : KeyStates n) :
    Except S3Error DeleteOutcome × KeyStates n :=
  let K := K.seed site
  let hist := K.historyUp site
  match hist.versions.findIdx? (fun v => v.versionId = versionId) with
  | none => (.error .noSuchVersion, K)
  | some idx =>
      let marker := (hist.versions[idx]?.map VEntry.deleteMarker).getD false
      let rest := { hist with versions := hist.versions.eraseIdx idx }
      (.ok ⟨some versionId, marker⟩,
        ((K.dropStored site versionId idx marker).promoteNext site idx
          rest.versions).settle site rest)

theorem tally_of_bucketUp (hb : bucketUp site bucket s = true) : tally site.up ≠ 0 := by
  obtain ⟨d, hd, hup⟩ := List.any_eq_true.1 hb
  rw [Bool.and_eq_true] at hup
  exact (List.countP_pos_iff.2 ⟨d, hd, hup.1⟩).ne'

theorem run_headBucket_ok (hb : bucketUp site bucket s = true) :
    site.run (headBucket bucket) s = (.ok (), s) := by
  rw [run_headBucket, if_pos hb]

/-- `delete_object`, in a bucket whose mode is read as `mode`. -/
theorem leads_deleteObject (hk : Keeps S site bucket key K s) (hK : K.Proper)
    (hne : ∀ d, site.objDir bucket key d ≠ []) (hb : bucketUp site bucket s = true)
    {mode : VMode} (hmode : modeOf site bucket s = mode) (env : CallEnv) :
    Leads S site bucket key (deleteObject env bucket key) s
      (.ok (if mode = .off then ⟨none, false⟩ else ⟨some (newVersionId env mode), true⟩))
      (if mode = .off then K.onUp site fun _ => .bare else K.mark site env mode) := by
  have hup := tally_of_bucketUp hb
  refine Leads.read (run_headBucket_ok hb) (Leads.withLock ?_)
  refine Leads.read (by rw [run_vmode, hmode]) ?_
  by_cases hoff : mode = .off
  · rw [if_neg (not_not.2 hoff), if_pos hoff, if_pos hoff]
    exact leads_removeObject hk hne _
  · rw [if_pos hoff, if_neg hoff, if_neg hoff]
    refine Leads.bind (leads_seed hk hup) fun s₂ hk₂ => ?_
    refine Leads.bind (.of_run hk₂.run_readHistory hk₂) fun s₃ hk₃ => ?_
    refine Leads.bind (leads_makeRoom hk₃ mode ((hK.seed site).historyUp site))
      fun s₄ hk₄ => ?_
    exact (leads_writeHistory hk₄ hup _).bind fun _ hk₅ => .pure _ hk₅

/-- `delete_object_version`. -/
theorem leads_deleteObjectVersion (hk : Keeps S site bucket key K s) (hK : K.Proper)
    (hne : ∀ d, site.objDir bucket key d ≠ []) (hb : bucketUp site bucket s = true)
    (v : Str) :
    Leads S site bucket key (deleteObjectVersion bucket key v) s (K.deleteVersion site v).1
      (K.deleteVersion site v).2 := by
  have hup := tally_of_bucketUp hb
  refine Leads.read (run_headBucket_ok hb) (Leads.withLock ?_)
  refine Leads.bind (leads_seed hk hup) fun s₁ hk₁ => ?_
  refine Leads.read hk₁.run_readHistory ?_
  have hproper := (hK.seed site).historyUp site
  unfold KeyStates.deleteVersion
  dsimp only
  cases hidx : ((K.seed site).historyUp site).versions.findIdx? (fun e => e.versionId = v) with
  | none => exact .throw _ hk₁
  | some idx =>
      have hv := properId_of_findIdx hproper hidx
      refine Leads.bind (leads_dropStored hk₁ hv _ _) fun s₂ hk₂ => ?_
      refine Leads.bind (leads_promoteNext hk₂ _ (properHistory_eraseIdx hproper idx))
        fun s₃ hk₃ => ?_
      exact (leads_settleHistory hk₃ hup hne _).bind fun _ hk₄ => .pure _ hk₄

/-- Where a version is found. -/
def KeyStates.findVersion (site : Site n) (versionId : Str) (K : KeyStates n) :
    Except S3Error (Option Str) :=
  let hist := (K.seed site).historyUp site
  match hist.versions.findIdx? (fun v => v.versionId = versionId) with
  | none => .error .noSuchVersion
  | some idx =>
      if (hist.versions[idx]?.map VEntry.deleteMarker).getD false then .error .methodNotAllowed
      else .ok (if idx = 0 then none else some versionId)

theorem leads_locateVersion (hk : Keeps S site bucket key K s)
    (hb : bucketUp site bucket s = true) (v : Str) :
    Leads S site bucket key (locateVersion bucket key v) s (K.findVersion site v)
      (K.seed site) := by
  refine Leads.read (run_headBucket_ok hb) ?_
  refine Leads.bind (leads_seed hk (tally_of_bucketUp hb)) fun s₁ hk₁ => ?_
  refine Leads.read hk₁.run_readHistory ?_
  unfold KeyStates.findVersion
  dsimp only
  cases ((K.seed site).historyUp site).versions.findIdx? (fun e => e.versionId = v) with
  | none => exact .throw _ hk₁
  | some idx =>
      dsimp only
      split
      · exact .throw _ hk₁
      · exact .pure _ hk₁

end

end Kerplace
