/-
# `Kerplace.Handlers.LockRuns` — runs of requests around a locked object

A request that asks for the object's lock and finds it changes nothing of that
object; a request that does not ask spares the object when no directory it
removes or writes in lies at or above one of the object's files.  So the object
is read as before after any run of such requests.  A batch delete of the object
itself is not such a request, and removes it (`batch_delete_ignores_hold`).
-/
import Kerplace.Handlers.ObjectLock
import Kerplace.Erasure.Serial

namespace Kerplace

open FileTree Prog ErasureStore

/-! ## Programs that read given files -/

/-- The contract of a program that only reads files at the paths of `P`. -/
def fileContract (n : Nat) (P : UnixPath → Prop) : Contract (StoreOp n Doc) StoreOp.Ans where
  may
    | .drive _ (.read p) => P p
    | .drive _ (.readAt p _ _) => P p
    | _ => False
  gives _ _ := True

section

variable {n : Nat} {S : ErasureStore n} {P : UnixPath → Prop} {bucket key : Str}

theorem meets_file {d : Fin n} {p : UnixPath} (hp : P p) :
    Meets ((fileContract n P).slot d) (Drive.read p) fun _ => True :=
  ⟨hp, fun _ _ => trivial⟩

theorem meetsE_file_readXl (hxl : P ((rObjV bucket key none).joinStr XL_META)) :
    MeetsE (fileContract n P) (readXl bucket key) fun _ => True := by
  refine MeetsE.then (Q := fun _ => True) ?_ fun hit => ?_
  · refine (meetsE_anyDrive (Q := fun _ => True) fun d => ?_).mono fun _ _ => trivial
    refine Meets.bind (R := fun _ => True) ?_ fun _ _ _ _ => trivial
    exact Meets.bind (R := fun _ => True) (meets_file hxl) fun _ _ => trivial
  · split
    · exact meetsE_pure.2 trivial
    · exact meetsE_throw

theorem meetsE_file_reconstructFrom {partRel : UnixPath} (hpart : P partRel) (codec : Codec)
    (checksums : List (List Str)) (lens : List Nat) :
    ∀ b offset, MeetsE (fileContract n P)
      (S.reconstructFrom partRel codec checksums b offset lens) fun _ => True := by
  induction lens with
  | nil => exact fun _ _ => meetsE_pure.2 trivial
  | cons len lens ih =>
      intro b offset
      rw [reconstructFrom]
      refine MeetsE.then (Q := fun _ => True) ?_ fun shards => ?_
      · refine (meetsE_eachDrive (Q := fun _ _ => True) fun d => ?_).mono fun _ _ => trivial
        exact ⟨hpart, fun _ _ => trivial⟩
      · split
        · exact (ih _ _).then fun _ => meetsE_pure.2 trivial
        · exact meetsE_pure.2 trivial

theorem meetsE_file_getObject (hxl : P ((rObjV bucket key none).joinStr XL_META))
    (hpart : P ((rObjV bucket key none).joinStr PART)) :
    MeetsE (fileContract n P) (S.getObject bucket key) fun _ => True := by
  refine (meetsE_file_readXl hxl).then fun m => ?_
  refine MeetsE.then (Q := fun _ => True) ?_ fun _ => meetsE_pure.2 trivial
  refine MeetsE.then (Q := fun _ => True) ?_ fun raw => ?_
  · unfold streamingBody
    split
    · exact meetsE_throw
    · exact meetsE_file_reconstructFrom hpart _ _ _ _ _
  · split
    · split
      · exact meetsE_pure.2 trivial
      · exact meetsE_throw
    · exact meetsE_pure.2 trivial

theorem meetsE_file_getSidecar {α : Type} {file : Str} {decode : Doc → Option α}
    (hxl : P ((rObjV bucket key none).joinStr XL_META)) (hfile : P (rObjSidecar bucket key file)) :
    MeetsE (fileContract n P) (getSidecar bucket key file decode) fun _ => True := by
  refine ((meetsE_file_readXl hxl).then fun _ => meetsE_pure.2 trivial).then fun _ => ?_
  refine MeetsE.then (Q := fun _ => True) ?_ fun _ => meetsE_pure.2 trivial
  exact (meetsE_anyDrive (Q := fun _ => True) fun d =>
    (meets_file hfile).mono fun _ _ _ _ => trivial).mono fun _ _ => trivial

/-- Such a program ends the same from states that agree on those files. -/
theorem run_fileContract {α : Type} {p : EStore n α} {Q : α → Prop}
    (hp : MeetsE (fileContract n P) p Q) {site : Site n} {s t : Cluster n Doc}
    (hsame : ∀ d q, P q → (t d).file? (q.resolve (site.root d)) =
      (s d).file? (q.resolve (site.root d))) :
    (site.run p t).1 = (site.run p s).1 := by
  have hagree : ∀ (o : StoreOp n Doc), (fileContract n P).may o →
      ∀ s' t' : Cluster n Doc, s' = t ∧ t' = s →
      True ∧ (site.step o s').1 = (site.step o t').1 ∧
        ((site.step o s').2 = t ∧ (site.step o t').2 = s) := by
    rintro o ho s' t' ⟨rfl, rfl⟩
    cases o with
    | lock m => exact ho.elim
    | unlock m => exact ho.elim
    | drive d o =>
        have hstep : ∀ u : Cluster n Doc, site.step (.drive d o) u =
            ((LocalDrive.stepIf (site.root d) (site.up d) o (u d)).1,
              Function.update u d (LocalDrive.stepIf (site.root d) (site.up d) o (u d)).2) :=
          fun _ => rfl
        simp only [hstep]
        cases hup : site.up d with
        | false => simp only [LocalDrive.stepIf_false, Function.update_eq_self, and_self]
        | true =>
            cases o with
            | read q =>
                refine ⟨trivial, hsame d q ho, ?_, ?_⟩
                · exact Function.update_eq_self d s'
                · exact Function.update_eq_self d t'
            | readAt q off len =>
                refine ⟨trivial, ?_, ?_, ?_⟩
                · exact congrArg (fun c => (c.bind Content.bytes?).bind fun b => sliceAt b off len)
                    (hsame d q ho)
                · exact Function.update_eq_self d s'
                · exact Function.update_eq_self d t'
            | _ => exact ho.elim
  exact (Meets.related (R := fun s' t' => s' = t ∧ t' = s) hagree hp ⟨rfl, rfl⟩).1

end

/-! ## What spares the object -/

/-- The files a reader of an object and of its locks goes by. -/
def LOCK_FILES : List Str := [XL_META, PART, LEGALHOLD, RETENTION]

section

variable {n : Nat} {S : ErasureStore n} {L : LockText} {root : Fin n → List Str}
  {bucket key : Str} {s s' s'' : Cluster n Doc} {site : Site n}

/-- On no drive does `p` lie at or above one of the object's files. -/
def ClearOf (root : Fin n → List Str) (bucket key : Str) (p : UnixPath) : Prop :=
  ∀ d, ∀ f ∈ LOCK_FILES,
    ¬ p.resolve (root d) <+: (rObjSidecar bucket key f).resolve (root d)

instance (root : Fin n → List Str) (bucket key : Str) (p : UnixPath) :
    Decidable (ClearOf root bucket key p) := inferInstanceAs (Decidable (∀ _, _))

/-- The object's files are as they were, and the histories on the drives proper. -/
structure Spared (root : Fin n → List Str) (bucket key : Str) (s s' : Cluster n Doc) :
    Prop where
  docs : ProperCluster s'
  files : ∀ d, ∀ f ∈ LOCK_FILES,
    (s' d).file? ((rObjSidecar bucket key f).resolve (root d)) =
      (s d).file? ((rObjSidecar bucket key f).resolve (root d))

theorem Spared.refl (hs : ProperCluster s) : Spared root bucket key s s :=
  ⟨hs, fun _ _ _ => rfl⟩

theorem Spared.trans (h : Spared root bucket key s s') (h' : Spared root bucket key s' s'') :
    Spared root bucket key s s'' :=
  ⟨h'.docs, fun d f hf => (h'.files d f hf).trans (h.files d f hf)⟩

theorem spared_of_region {α : Type} {R : Region Doc} {locks : Str → Prop} {p : EStore n α}
    {Q : α → Prop} (hp : MeetsE (storeContract n R locks) p Q)
    (hstores : ∀ j, R.stores j → ProperDoc j) (hfinds : ∀ j, ProperDoc j → R.finds j)
    (hclear : ∀ p, R.Changes p → ClearOf site.root bucket key p) (hs : ProperCluster s) :
    Spared site.root bucket key s (site.run p s).2 :=
  ⟨Site.run_proper hp hstores hfinds hs, fun d f hf =>
    Site.run_file? hp hstores hfinds hs d _ fun q hq => hclear q hq d f hf⟩

theorem spared_of_object {α : Type} {b k : Str} {p : EStore n α} {Q : α → Prop}
    (hp : MeetsE (objectContract n b k) p Q) (hclear : ClearOf site.root bucket key (rObject b k))
    (hs : ProperCluster s) : Spared site.root bucket key s (site.run p s).2 :=
  spared_of_region hp (fun _ h => h) (fun _ h => h) (fun _ hq d f hf =>
    fun hpre => hclear d f hf ((objectRegion_changes hq (site.root d)).trans hpre)) hs

theorem Spared.reads {α : Type} (h : Spared root bucket key s s') {p : EStore n α} {Q : α → Prop}
    (hp : MeetsE (fileContract n fun q => ∃ f ∈ LOCK_FILES, q = rObjSidecar bucket key f) p Q)
    (up : Fin n → Bool) :
    ((Site.mk root up).run p s').1 = ((Site.mk root up).run p s).1 := by
  refine run_fileContract hp fun d q hq => ?_
  obtain ⟨f, hf, rfl⟩ := hq
  exact h.files d f hf

theorem Spared.getObject (h : Spared root bucket key s s') (up : Fin n → Bool) :
    ((Site.mk root up).run (S.getObject bucket key) s').1 =
      ((Site.mk root up).run (S.getObject bucket key) s).1 :=
  h.reads (meetsE_file_getObject ⟨XL_META, by decide, rfl⟩ ⟨PART, by decide, rfl⟩) up

/-! ## The lock -/

/-- The object is locked: its hold is on, or its retention has a date after `now`. -/
def Locked (L : LockText) (site : Site n) (now : Int) (bucket key : Str)
    (s : Cluster n Doc) : Prop :=
  (∃ status, (site.run (getObjectLegalHold bucket key) s).1 = .ok (some status) ∧
      eqIgnoreAsciiCase status ON = true) ∨
    ∃ raw, (site.run (getObjectRetention bucket key) s).1 = .ok (some raw) ∧
      L.retains now raw = true

theorem Spared.locked (h : Spared root bucket key s s') {up : Fin n → Bool} {now : Int}
    (hlock : Locked L ⟨root, up⟩ now bucket key s) : Locked L ⟨root, up⟩ now bucket key s' := by
  have hhold := h.reads (p := getObjectLegalHold bucket key)
    (meetsE_file_getSidecar ⟨XL_META, by decide, rfl⟩ ⟨LEGALHOLD, by decide, rfl⟩) up
  have hretention := h.reads (p := getObjectRetention bucket key)
    (meetsE_file_getSidecar ⟨XL_META, by decide, rfl⟩ ⟨RETENTION, by decide, rfl⟩) up
  rcases hlock with ⟨status, hget, hon⟩ | ⟨raw, hget, hdate⟩
  · exact .inl ⟨status, hhold.trans hget, hon⟩
  · exact .inr ⟨raw, hretention.trans hget, hdate⟩

theorem run_getSidecar_same {α : Type} {file : Str} {decode : Doc → Option α} (s : Cluster n Doc) :
    (site.run (getSidecar bucket key file decode) s).2 = s := by
  refine run_reading (Q := fun _ => True) ?_ s
  have hhead : MeetsE (storeContract n readingRegion fun _ => False) (headObject bucket key)
      fun _ => True := MeetsE.then (meetsE_readXlAt trivial) fun _ => meetsE_pure.2 trivial
  exact hhead.then fun _ => meetsE_readCfg trivial

/-- The check answers, and only reads. -/
theorem run_lockActive (now : Int) (s : Cluster n Doc) :
    ∃ active, site.run (lockActive L now bucket key) s = (.ok active, s) := by
  have hretention : ∃ active,
      site.run (lockActive.retentionActive L now bucket key) s = (.ok active, s) := by
    rw [lockActive.retentionActive, Site.run_bind, Site.run_outcome, Prog.andThen_ok,
      getObjectRetention, run_getSidecar_same]
    split
    · exact ⟨_, rfl⟩
    · exact ⟨_, rfl⟩
  rw [lockActive, Site.run_bind, Site.run_outcome, Prog.andThen_ok, getObjectLegalHold,
    run_getSidecar_same]
  split
  · split
    · exact ⟨_, rfl⟩
    · exact hretention
  · exact hretention

/-- It finds the lock of a locked object. -/
theorem run_lockActive_of_locked {now : Int} (h : Locked L site now bucket key s) :
    site.run (lockActive L now bucket key) s = (.ok true, s) := by
  have hanswers : (site.run (lockActive L now bucket key) s).2 = s := by
    obtain ⟨active, hrun⟩ : ∃ active,
        site.run (lockActive L now bucket key) s = (.ok active, s) := run_lockActive now s
    rw [hrun]
  refine Prod.ext ?_ hanswers
  have hretention : (∃ raw, (site.run (getObjectRetention bucket key) s).1 = .ok (some raw) ∧
      L.retains now raw = true) →
      (site.run (lockActive.retentionActive L now bucket key) s).1 = .ok true := by
    rintro ⟨raw, hget, hdate⟩
    rw [lockActive.retentionActive, Site.run_bind, Site.run_outcome, Prog.andThen_ok, hget]
    simp only [hdate]
    rfl
  rw [lockActive, Site.run_bind, Site.run_outcome, Prog.andThen_ok]
  rcases h with ⟨status, hget, hon⟩ | h
  · rw [hget]
    simp only [hon, if_true]
    rfl
  · have hsame : (site.run (getObjectLegalHold bucket key) s).2 = s := run_getSidecar_same s
    rw [hsame]
    split
    · split
      · rfl
      · exact hretention h
    · exact hretention h

/-! ## One request -/

theorem spared_deleteObject {b k : Str} (hclear : ClearOf site.root bucket key (rObject b k))
    (env : CallEnv) (hs : ProperCluster s) :
    Spared site.root bucket key s (site.run (deleteObject env b k) s).2 :=
  spared_of_object (meetsE_deleteObject env) hclear hs

theorem spared_deleteEither {b k : Str} (hclear : ClearOf site.root bucket key (rObject b k))
    (env : CallEnv) (versionId : Option Str) (hs : ProperCluster s) :
    Spared site.root bucket key s (site.run (consoleDeleteObject env b k versionId) s).2 := by
  cases versionId with
  | none => exact spared_deleteObject hclear env hs
  | some vid => exact spared_of_object (meetsE_deleteObjectVersion vid) hclear hs

theorem spared_batch {b : Str} (quiet : Bool) (objects : List (CallEnv × Str)) :
    ∀ {s : Cluster n Doc}, (∀ o ∈ objects, ClearOf site.root bucket key (rObject b o.2)) →
      ProperCluster s →
      Spared site.root bucket key s (site.run (postBucketDelete b quiet objects) s).2 := by
  induction objects with
  | nil => exact fun _ hs => .refl hs
  | cons o objects ih =>
      intro s hclear hs
      obtain ⟨env, k⟩ := o
      obtain ⟨hk, hrest⟩ := List.forall_mem_cons.1 hclear
      have hone := spared_deleteObject hk env hs
      refine hone.trans ?_
      have hmore := ih hrest hone.docs
      rw [postBucketDelete, Site.run_bind, Site.run_outcome, Prog.andThen_ok, Site.run_bind]
      generalize site.run (postBucketDelete b quiet objects)
        (site.run (deleteObject env b k) s).2 = r at hmore ⊢
      obtain ⟨r, s'⟩ := r
      cases r with
      | error e => exact hmore
      | ok rest =>
          rw [Prog.andThen_ok]
          split
          · exact hmore
          · exact hmore

theorem spared_drain {b : Str} (objects : List (CallEnv × Str)) :
    ∀ {s : Cluster n Doc}, (∀ o ∈ objects, ClearOf site.root bucket key (rObject b o.2)) →
      ProperCluster s →
      ∃ s', site.run (drain b objects) s = (.ok (), s') ∧ Spared site.root bucket key s s' := by
  induction objects with
  | nil => exact fun _ hs => ⟨_, rfl, .refl hs⟩
  | cons o objects ih =>
      intro s hclear hs
      obtain ⟨env, k⟩ := o
      obtain ⟨hk, hrest⟩ := List.forall_mem_cons.1 hclear
      have hone := spared_deleteObject hk env hs
      obtain ⟨s', hrun, hmore⟩ := ih hrest hone.docs
      refine ⟨s', ?_, hone.trans hmore⟩
      rw [drain, Site.run_bind, Site.run_outcome, Prog.andThen_ok, hrun]

/-- A pass skips the locked object, whether or not it would be due. -/
theorem spared_expire {b : Str} {up : Fin n → Bool} (exp : LifecycleExpiration) (now : Int)
    (listed : List (CallEnv × Str × Int)) :
    ∀ {s : Cluster n Doc}, (∀ o ∈ listed, (b = bucket ∧ o.2.1 = key ∧
        Locked L ⟨root, up⟩ now bucket key s) ∨ ClearOf root bucket key (rObject b o.2.1)) →
      ProperCluster s →
      Spared root bucket key s
        ((Site.mk root up).run (expireObjects L b exp now listed) s).2 := by
  induction listed with
  | nil => exact fun _ hs => .refl hs
  | cons o listed ih =>
      intro s hclear hs
      obtain ⟨env, k, lastModified⟩ := o
      obtain ⟨hk, hrest⟩ := List.forall_mem_cons.1 hclear
      obtain ⟨s', hrun, hone⟩ : ∃ s', (Site.mk root up).run
          (if shouldExpire L exp lastModified now then do
            (if ← objectLocked L now b k then pure ()
            else do
              let _ ← outcome (deleteObject env b k)
              pure ())
          else pure () : EStore n Unit) s = (.ok (), s') ∧ Spared root bucket key s s' := by
        split
        · rw [Site.run_bind, objectLocked]
          rcases hk with ⟨rfl, rfl, hlock⟩ | hk
          · rw [run_lockActive_of_locked hlock]
            exact ⟨s, rfl, .refl hs⟩
          · have hclear : ClearOf (Site.mk root up).root bucket key (rObject b k) := hk
            obtain ⟨active, hactive⟩ : ∃ active,
                (Site.mk root up).run (lockActive L now b k) s = (.ok active, s) :=
              run_lockActive now s
            rw [hactive, Prog.andThen_ok]
            cases active with
            | true => exact ⟨s, rfl, .refl hs⟩
            | false =>
                rw [if_neg Bool.false_ne_true, Site.run_bind, Site.run_outcome]
                exact ⟨_, rfl, spared_deleteObject hclear env hs⟩
        · exact ⟨s, rfl, .refl hs⟩
      have hrest' : ∀ o ∈ listed, (b = bucket ∧ o.2.1 = key ∧
          Locked L ⟨root, up⟩ now bucket key s') ∨ ClearOf root bucket key (rObject b o.2.1) := by
        intro o ho
        rcases hrest o ho with ⟨hb, hk, hlock⟩ | hclear
        · exact .inl ⟨hb, hk, hone.locked hlock⟩
        · exact .inr hclear
      rw [expireObjects, Site.run_bind, hrun, Prog.andThen_ok]
      exact hone.trans (ih hrest' hone.docs)

/-- What deleting a bucket may do: remove its directory and that of its configuration. -/
def bucketRegion (b : Str) : Region Doc where
  reads _ := True
  lists _ := True
  writes _ := False
  trees p := p = rBucket b ∨ p = rCfgDir b
  prunes _ := False
  stores _ := False
  finds _ := True

theorem meetsE_listedObjects (b : Str) (keys : List Str) :
    MeetsE (storeContract n (bucketRegion b) fun _ => False) (listedObjects keys b) fun _ =>
      True := by
  induction keys with
  | nil => exact meetsE_pure.2 trivial
  | cons k keys ih =>
      refine MeetsE.then (Q := fun _ => True) ?_ fun r => ih.then fun _ => meetsE_pure.2 trivial
      exact (meetsE_outcome (meetsE_readXlAt trivial)).mono fun _ _ => trivial

theorem meetsE_deleteBucket (b : Str) :
    MeetsE (storeContract n (bucketRegion b) fun _ => False) (deleteBucket b) fun _ => True := by
  have hlist : MeetsE (storeContract n (bucketRegion b) fun _ => False)
      (listObjectsV2 b [] none none none 1) fun _ => True := by
    refine MeetsE.then (Q := fun _ => True) ?_ fun _ => ?_
    · refine (meetsE_any fun d => ?_).then fun hit => ?_
      · exact Meets.then (meets_call (o := .stat _) trivial) fun _ => trivial
      · split
        · exact meetsE_pure.2 trivial
        · exact meetsE_throw
    · refine MeetsE.then (Q := fun _ => True) ?_ fun _ => ?_
      · exact MeetsE.then (meetsE_each fun _ => meets_call (o := .walk _) trivial) fun _ =>
          meetsE_pure.2 trivial
      · exact (meetsE_listedObjects b _).then fun _ => meetsE_pure.2 trivial
  have hremove : MeetsE (storeContract n (bucketRegion b) fun _ => False) (do
      let _ ← eachDrive fun (_ : Fin n) => do
        let _ ← Drive.removeDirAll (rBucket b)
        Drive.removeDirAll (rCfgDir b)
      pure ()) fun _ => True := by
    refine MeetsE.then (meetsE_each fun d => ?_) fun _ => meetsE_pure.2 trivial
    exact Meets.then (meets_call (o := .removeDirAll _) (.inl rfl)) fun _ =>
      meets_call (o := .removeDirAll _) (.inr rfl)
  refine (meetsE_metaStatAny trivial).then fun there => ?_
  cases there with
  | false => exact meetsE_throw
  | true =>
      refine hlist.then fun listing => ?_
      cases listing.objects.isEmpty with
      | false => exact meetsE_throw
      | true => exact hremove

theorem spared_deleteBucket {b : Str} (hdir : ClearOf site.root bucket key (rBucket b))
    (hcfg : ClearOf site.root bucket key (rCfgDir b)) (hs : ProperCluster s) :
    Spared site.root bucket key s (site.run (deleteBucket b) s).2 := by
  refine spared_of_region (meetsE_deleteBucket b) (fun _ h => h.elim) (fun _ _ => trivial)
    (fun p hp => ?_) hs
  rcases hp with hp | rfl | rfl
  · exact hp.elim
  · exact hdir
  · exact hcfg

/-- What completing an upload may do: what a write may, and to the upload's own files. -/
def assemblyRegion (b k u : Str) : Region Doc :=
  { objectRegion b k with
    reads := fun _ => True
    writes := fun p => ObjectPath b k p ∨ p = (rUpload u).joinStr ASSEMBLY
    trees := fun p => ObjectDir b k p ∨ p = rUpload u }

theorem objectRegion_le_assembly (b k u : Str) :
    (objectRegion b k).Le (assemblyRegion b k u) where
  reads _ _ := trivial
  lists _ h := h
  writes _ h := .inl h
  trees _ h := .inl h
  prunes _ h := h
  stores _ h := h
  finds _ h := h

theorem meetsE_completeOnly (env : CallEnv) (u : Str) (parts : List CompletedPart)
    (m : UploadManifest) :
    MeetsE (storeContract n (assemblyRegion m.bucket m.key u) (· = lockName m.bucket m.key))
      (S.completeWith env u parts m) fun _ => True := by
  have hlift : ∀ {α : Type} {p : EStore n α},
      MeetsE (objectContract n m.bucket m.key) p (fun _ => True) →
      MeetsE (storeContract n (assemblyRegion m.bucket m.key u)
        (· = lockName m.bucket m.key)) p fun _ => True := fun hp =>
    meetsE_within (objectRegion_le_assembly _ _ _) (fun _ => id) hp
  refine meetsE_withLock rfl rfl ?_
  refine (meetsE_assemble _ _ (fun _ => trivial) (Or.inr rfl)).then fun r => ?_
  refine (hlift (meetsE_writeSource _ _ _)).then fun src => ?_
  refine (hlift (outer (meetsE_writeSharded _ _ _ _ _ _))).then fun om => ?_
  exact MeetsE.then (meetsE_at (.removeDirAll _) (.inr rfl)) fun _ => meetsE_pure.2 trivial

theorem atom_assembly : UnixPath.Atom ASSEMBLY := by decide

theorem spared_complete {u : Str} (hupload : ClearOf site.root bucket key (rUpload u))
    (hobject : ∀ m, (site.run (readManifest (S.uploadDrive u) (rUpload u)) s).1 = .ok m →
      ClearOf site.root bucket key (rObject m.bucket m.key))
    (env : CallEnv) (parts : List CompletedPart) (hs : ProperCluster s) :
    Spared site.root bucket key s (site.run (S.completeMultipart env u parts) s).2 := by
  have hread : (site.run (readManifest (S.uploadDrive u) (rUpload u)) s).2 = s := by
    refine run_reading (Q := fun _ => True) ?_ s
    refine MeetsE.then (meetsE_at (.read _) trivial) fun c => ?_
    split
    · exact meetsE_throw
    · split
      · exact meetsE_throw
      · exact meetsE_pure.2 trivial
  rw [completeMultipart, Site.run_bind]
  generalize site.run (readManifest (S.uploadDrive u) (rUpload u)) s = r at hread hobject ⊢
  obtain ⟨r, s'⟩ := r
  obtain rfl : s' = s := hread
  cases r with
  | error e => exact .refl hs
  | ok m =>
      rw [Prog.andThen_ok]
      refine spared_of_region (meetsE_completeOnly env u parts m) (fun _ h => h) (fun _ h => h)
        (fun p hp => ?_) hs
      have hobj := hobject m rfl
      have hinside : (objectRegion m.bucket m.key).Changes p → ClearOf site.root bucket key p :=
        fun hp d f hf hpre => hobj d f hf ((objectRegion_changes hp (site.root d)).trans hpre)
      rcases hp with (hp | rfl) | hp | rfl
      · exact hinside (.inl hp)
      · intro d f hf hpre
        refine hupload d f hf ((List.prefix_append _ [ASSEMBLY]).trans ?_)
        rwa [UnixPath.resolve_joinStr_atom atom_assembly] at hpre
      · exact hinside (.inr hp)
      · exact hupload

/-- A delete refuses where the object it names is locked; else it is the console's. -/
theorem run_deleteObjectDispatch {b k : Str} (hk : k ≠ []) (env : CallEnv)
    (versionId : Option Str) (s : Cluster n Doc) :
    (site.run (deleteObjectDispatch L env b k versionId) s).2 = s ∨
      (¬ Locked L site env.now b k s ∧
        (site.run (deleteObjectDispatch L env b k versionId) s).2 =
          (site.run (consoleDeleteObject env b k versionId) s).2) := by
  obtain ⟨active, hrun⟩ : ∃ active,
      site.run (lockActive L env.now b k) s = (.ok active, s) := run_lockActive env.now s
  have hguard : ∀ (p : EStore n DeleteOutcome),
      (site.run (do
        checkObjectLock L env.now b k
        let outcome ← p
        pure (some outcome)) s).2 = s ∨
      (¬ Locked L site env.now b k s ∧
        (site.run (do
          checkObjectLock L env.now b k
          let outcome ← p
          pure (some outcome)) s).2 = (site.run p s).2) := by
    intro p
    rw [checkObjectLock, Site.run_bind, Site.run_bind, hrun, Prog.andThen_ok]
    cases active with
    | true => exact .inl rfl
    | false =>
        refine .inr ⟨fun hlock => ?_, ?_⟩
        · rw [run_lockActive_of_locked hlock] at hrun
          cases hrun
        · rw [if_neg Bool.false_ne_true, Site.run_pure, Prog.andThen_ok, Site.run_bind]
          generalize site.run p s = r
          obtain ⟨r, s'⟩ := r
          cases r <;> rfl
  unfold deleteObjectDispatch
  rw [if_neg hk]
  cases versionId with
  | none => exact hguard (deleteObject env b k)
  | some vid => exact hguard (deleteObjectVersion b k vid)

/-- The request asks for the object's lock, at the time `now`. -/
def LockRequest.AsksAt (bucket key : Str) (now : Int) : LockRequest → Prop
  | .delete env b k _ => b = bucket ∧ k = key ∧ env.now = now
  | .lifecycle b _ now' listed => b = bucket ∧ now' = now ∧ ∃ o ∈ listed, o.2.1 = key
  | _ => False

/-- Whatever the request removes or writes without asking is clear of the object. -/
def LockRequest.Clear (S : ErasureStore n) (site : Site n) (bucket key : Str)
    (s : Cluster n Doc) : LockRequest → Prop
  | .delete _ b k _ =>
      if k = [] then
        ClearOf site.root bucket key (rBucket b) ∧ ClearOf site.root bucket key (rCfgDir b)
      else (b = bucket ∧ k = key) ∨ ClearOf site.root bucket key (rObject b k)
  | .batchDelete b _ objects => ∀ o ∈ objects, ClearOf site.root bucket key (rObject b o.2)
  | .put _ b k _ _ _ _ => ClearOf site.root bucket key (rObject b k)
  | .copy _ _ _ b k _ => ClearOf site.root bucket key (rObject b k)
  | .complete _ u _ => ClearOf site.root bucket key (rUpload u) ∧
      ∀ m, (site.run (readManifest (S.uploadDrive u) (rUpload u)) s).1 = .ok m →
        ClearOf site.root bucket key (rObject m.bucket m.key)
  | .postForm _ b k _ _ _ => ClearOf site.root bucket key (rObject b k)
  | .consoleDelete _ b k _ => ClearOf site.root bucket key (rObject b k)
  | .consoleDeleteBucket b force listed =>
      (ClearOf site.root bucket key (rBucket b) ∧ ClearOf site.root bucket key (rCfgDir b)) ∧
        (force = true → ∀ o ∈ listed, ClearOf site.root bucket key (rObject b o.2))
  | .lifecycle b _ _ listed => ∀ o ∈ listed,
      (b = bucket ∧ o.2.1 = key) ∨ ClearOf site.root bucket key (rObject b o.2.1)

/-- One request spares a locked object, if it is clear of it where it does not ask. -/
theorem LockRequest.spares {up : Fin n → Bool} (r : LockRequest)
    (hclear : r.Clear S ⟨root, up⟩ bucket key s)
    (hlocked : ∀ now, r.AsksAt bucket key now → Locked L ⟨root, up⟩ now bucket key s)
    (hs : ProperCluster s) :
    Spared root bucket key s ((Site.mk root up).run (r.prog S L) s).2 := by
  have hput : ∀ (env : CallEnv) (b k : Str) (body : Body) (contentType : Str)
      (userMetadata : UserMeta) (encrypt : Bool), ClearOf root bucket key (rObject b k) →
      Spared root bucket key s ((Site.mk root up).run (do
        let _ ← S.putObject env b k body contentType userMetadata encrypt
        pure ()) s).2 := by
    intro env b k body contentType userMetadata encrypt hk
    rw [Site.run_unit]
    have hk' : ClearOf (Site.mk root up).root bucket key (rObject b k) := hk
    exact spared_of_object (meetsE_putObject env body contentType userMetadata encrypt) hk' hs
  cases r with
  | delete env b k versionId =>
      rw [prog, Site.run_unit]
      by_cases hk : k = []
      · rw [LockRequest.Clear, if_pos hk] at hclear
        have hbucket : Spared root bucket key s ((Site.mk root up).run (deleteBucket b) s).2 :=
          spared_deleteBucket hclear.1 hclear.2 hs
        unfold deleteObjectDispatch
        rw [if_pos hk, Site.run_bind]
        generalize (Site.mk root up).run (deleteBucket b) s = r at hbucket ⊢
        obtain ⟨r, s'⟩ := r
        cases r <;> exact hbucket
      · rw [LockRequest.Clear, if_neg hk] at hclear
        rcases run_deleteObjectDispatch (L := L) hk env versionId s with hsame | ⟨hopen, hdel⟩
        · rw [hsame]
          exact .refl hs
        · rw [hdel]
          rcases hclear with ⟨rfl, rfl⟩ | hclear
          · exact absurd (hlocked env.now ⟨rfl, rfl, rfl⟩) hopen
          · exact spared_deleteEither hclear env versionId hs
  | batchDelete b quiet objects =>
      rw [prog, Site.run_unit]
      have hall : ∀ o ∈ objects, ClearOf (Site.mk root up).root bucket key (rObject b o.2) :=
        hclear
      exact spared_batch quiet objects hall hs
  | put env b k body contentType userMetadata encrypt =>
      exact hput env b k body contentType userMetadata encrypt hclear
  | copy env srcBucket srcKey b k encrypt =>
      rw [prog, Site.run_unit]
      have hk : ClearOf root bucket key (rObject b k) := hclear
      have hregion : ∀ p, (copyRegion srcBucket srcKey b k).Changes p →
          ClearOf (Site.mk root up).root bucket key p := by
        intro p hp d f hf hpre
        have hinside : (objectRegion b k).Changes p := hp
        exact hk d f hf ((objectRegion_changes hinside (root d)).trans hpre)
      exact spared_of_region (meetsE_copyObject env srcBucket srcKey b k encrypt)
        (fun _ h => h) (fun _ h => h) hregion hs
  | complete env u parts =>
      rw [prog, Site.run_unit]
      exact spared_complete hclear.1 hclear.2 env parts hs
  | postForm env b k body contentType encrypt =>
      exact hput env b k body contentType [] encrypt hclear
  | consoleDelete env b k versionId =>
      rw [prog, Site.run_unit]
      have hk : ClearOf (Site.mk root up).root bucket key (rObject b k) := hclear
      exact spared_deleteEither hk env versionId hs
  | consoleDeleteBucket b force listed =>
      obtain ⟨⟨hdir, hcfg⟩, hforce⟩ := hclear
      rw [prog, Kerplace.consoleDeleteBucket, Site.run_bind]
      cases force with
      | false => exact spared_deleteBucket hdir hcfg hs
      | true =>
          obtain ⟨s', hrun, hone⟩ := spared_drain listed (hforce rfl) hs
          rw [if_pos rfl, hrun, Prog.andThen_ok]
          exact hone.trans (spared_deleteBucket hdir hcfg hone.docs)
  | lifecycle b exp now listed =>
      refine spared_expire exp now listed (fun o ho => ?_) hs
      rcases hclear o ho with ⟨hb, hk⟩ | hk
      · exact .inl ⟨hb, hk, hlocked now ⟨hb, rfl, o, ho, hk⟩⟩
      · exact .inr hk

end

/-! ## Runs -/

/-- A request, and the drives it can reach. -/
structure LockStep (n : Nat) where
  up : Fin n → Bool
  request : LockRequest

section

variable {n : Nat} (S : ErasureStore n) (L : LockText) (root : Fin n → List Str)

/-- Requests, one after the other. -/
def lockMachine : Machine (Cluster n Doc) (LockStep n) (Except S3Error Unit) :=
  ⟨fun s c => (Site.mk root c.up).run (c.request.prog S L) s⟩

variable {S L root} {bucket key : Str} {s : Cluster n Doc}

/-- **Object lock.**  From any state whose histories are proper, after any requests, each
with any of the drives out of reach: if the single deletes of an object and the lifecycle
passes that list it find it locked, and whatever else the requests remove or write is clear
of it, the object is read as before, from whichever drives. -/
theorem objectLock_protects (hdocs : ProperCluster s) (requests : List (LockStep n))
    (hlocked : ∀ c ∈ requests, ∀ now, c.request.AsksAt bucket key now →
      Locked L ⟨root, c.up⟩ now bucket key s)
    (hclear : ∀ v ∈ (lockMachine S L root).visits s requests,
      v.call.request.Clear S ⟨root, v.call.up⟩ bucket key v.before) (up : Fin n → Bool) :
    ((Site.mk root up).run (S.getObject bucket key)
      ((lockMachine S L root).final s requests)).1 =
        ((Site.mk root up).run (S.getObject bucket key) s).1 := by
  have hrun : Spared root bucket key s ((lockMachine S L root).final s requests) := by
    have hgood : ∀ v ∈ (lockMachine S L root).visits s requests, v.call ∈ requests ∧
        v.call.request.Clear S ⟨root, v.call.up⟩ bucket key v.before :=
      fun v hv => ⟨Machine.call_mem hv, hclear v hv⟩
    refine Machine.invariant (P := fun _ t => Spared root bucket key s t) (.refl hdocs) ?_
      requests hgood
    rintro vs t c ht ⟨hc, hclear⟩
    exact ht.trans (c.request.spares hclear (fun now hasks => ht.locked (hlocked c hc now hasks))
      ht.docs)
  exact hrun.getObject up

end

/-! ## Three drives -/

/-- Libraries that read no retention document and no date. -/
def noText : LockText := ⟨fun _ => none, fun _ => none⟩

/-- An object is put, and its legal hold set. -/
def putAndHold : EStore 3 Unit := do
  let _ ← ErasureStore.trio.putObject (callAt 'a' 1 isHexLower_a) "docs".toList "key".toList
    (.ofBytes [1, 2, 3, 4, 5]) [] [] false
  setObjectLegalHold "docs".toList "key".toList ON

/-- Three drives with an object under a legal hold. -/
def heldDrives : Cluster 3 Doc :=
  ((Site.mk topRoot fun _ => true).run putAndHold (withBucket "docs".toList)).2

theorem properCluster_heldDrives : ProperCluster heldDrives := by
  have hput : MeetsE (objectContract 3 "docs".toList "key".toList) putAndHold fun _ => True :=
    (meetsE_putObject _ _ _ _ _).then fun _ =>
      outer (meetsE_setSidecar (by decide) (by decide) fun _ h => nomatch h)
  exact Site.run_proper hput (fun _ h => h) (fun _ h => h) (properCluster_withBucket _)

/-- Requests around that object: a delete of it, one of its version with drive 0 out of
reach, a batch delete of another object, and a lifecycle pass in which it is due. -/
def lockRequests : List (LockStep 3) :=
  [⟨fun _ => true, .delete (callAt 'b' 2 isHexLower_b) "docs".toList "key".toList none⟩,
    ⟨fun d => d ≠ 0, .delete (callAt 'c' 3 isHexLower_c) "docs".toList "key".toList (some NULL)⟩,
    ⟨fun _ => true, .batchDelete "docs".toList false [(callAt 'd' 4 isHexLower_d, "other".toList)]⟩,
    ⟨fun _ => true, .lifecycle "docs".toList ⟨some 0, none⟩ 100
      [(callAt 'e' 5 rfl, "key".toList, 1)]⟩]

/-- The object is read as before all of them. -/
theorem objectLock_protects_trio :
    ((Site.mk topRoot fun _ => true).run (ErasureStore.trio.getObject "docs".toList
      "key".toList) ((lockMachine ErasureStore.trio noText topRoot).final heldDrives
        lockRequests)).1 =
      ((Site.mk topRoot fun _ => true).run (ErasureStore.trio.getObject "docs".toList
        "key".toList) heldDrives).1 := by
  have hlocked : ∀ c ∈ lockRequests, ∀ now, c.request.AsksAt "docs".toList "key".toList now →
      Locked noText ⟨topRoot, c.up⟩ now "docs".toList "key".toList heldDrives := by
    intro c hc now _
    refine .inl ⟨ON, ?_, by decide⟩
    simp only [lockRequests, List.mem_cons, List.not_mem_nil, or_false] at hc
    rcases hc with rfl | rfl | rfl | rfl
    · decide +kernel
    · decide +kernel
    · decide +kernel
    · decide +kernel
  refine objectLock_protects properCluster_heldDrives lockRequests hlocked (fun v hv => ?_)
    fun _ => true
  have hcall := Machine.call_mem hv
  generalize v.call = c at hcall ⊢
  simp only [lockRequests, List.mem_cons, List.not_mem_nil, or_false] at hcall
  rcases hcall with rfl | rfl | rfl | rfl
  · exact .inl ⟨rfl, rfl⟩
  · exact .inl ⟨rfl, rfl⟩
  · intro o ho
    obtain rfl := List.mem_singleton.1 ho
    decide +kernel
  · intro o ho
    obtain rfl := List.mem_singleton.1 ho
    exact .inl ⟨rfl, rfl⟩

/-- A batch delete of the object: its hold is on, and it is gone. -/
theorem batch_delete_ignores_hold :
    (∀ now, Locked noText ⟨topRoot, fun _ => true⟩ now "docs".toList "key".toList heldDrives) ∧
    ((Site.mk topRoot fun _ => true).run (ErasureStore.trio.getObject "docs".toList
      "key".toList) heldDrives).1.toOption.map Prod.snd = some [1, 2, 3, 4, 5] ∧
    ((Site.mk topRoot fun _ => true).run (ErasureStore.trio.getObject "docs".toList
      "key".toList) ((lockMachine ErasureStore.trio noText topRoot).final heldDrives
        [⟨fun _ => true, .batchDelete "docs".toList false
          [(callAt 'b' 2 rfl, "key".toList)]⟩])).1 = .error .noSuchKey :=
  ⟨fun _ => .inl ⟨ON, by decide +kernel, by decide⟩, by decide +kernel, by decide +kernel⟩

end Kerplace
