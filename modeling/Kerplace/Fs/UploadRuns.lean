/-
# `Kerplace.Fs.UploadRuns` — which uploads a filesystem store knows

An upload is staged in a directory named by its bucket and its id.  In a run whose calls keep
uploads apart nothing stands there unless the id stands for an upload of that bucket.
-/
import Kerplace.Fs.Multipart
import Kerplace.Fs.Buckets
import Kerplace.Erasure.UploadRuns

namespace Kerplace

open FileTree Prog UnixPath

namespace FsStore

open ErasureStore (partFile partMetaFile MANIFEST)

variable {S : FsStore} {root : List Str} {b b' k u u' : Str} {t t' : Tree FsDoc}

/-! ## Places -/

theorem resolve_uploadDir (hb : Atom b) (hu : Atom u) (root : List Str) :
    (uploadDir b u).resolve root = root ++ [SYS_DIR, MULTIPART] ++ b :: [u] := by
  rw [uploadDir, multipartRoot, resolve_joinStr_atom hu, resolve_joinStr_atom hb,
    resolve_joinStr_atom (by decide), resolve_ofStr atom_sysDir.descends, atom_sysDir.compsOf]
  simp

theorem plain_uploadDir (hb : Atom b) (hu : Atom u) : (uploadDir b u).Plain :=
  plain_joinStr (plain_joinStr (by decide) hb.descends) hu.descends

theorem parent_resolve {p p' : UnixPath} (hp : p'.Plain) (h : p'.parent = some p)
    (root : List Str) : p.resolve root <+: p'.resolve root := by
  unfold parent at h
  split at h
  · cases h
  · cases h
    have hparent : Plain ⟨p'.abs, p'.comps.dropLast⟩ :=
      ⟨hp.1, fun hmem => hp.2 (List.mem_of_mem_dropLast hmem)⟩
    rw [hparent.resolve, hp.resolve, List.prefix_append_right_inj]
    exact List.dropLast_prefix _

/-- A path that neither is, nor lies above or below, the place of an upload. -/
def ClearOfUpload (root : List Str) (b u : Str) (p : UnixPath) : Prop :=
  p.Plain ∧ Apart (p.resolve root) ((uploadDir b u).resolve root)

theorem clear_key (hb : validateBucketName b = .ok ()) (hk : validateKey k = .ok ())
    (hb' : Atom b') (hu : Atom u) {p : UnixPath} (hp : KeyWrites b k p) :
    ClearOfUpload root b' u p := by
  have hatom := validateBucketName_atom hb
  have hsys : b ≠ SYS_DIR := ne_sysDir hb
  rcases hp with ⟨f, hf, rfl⟩ | ⟨id, rfl⟩
  · refine ⟨keyPath_plain hatom hk hf, ?_⟩
    rw [resolve_keyPath hatom hk hf, resolve_uploadDir hb' hu, List.append_assoc,
      List.append_assoc]
    have hsystem : ∀ {x : Str} {rest rest' : List Str}, x ≠ MULTIPART →
        Apart (root ++ SYS_DIR :: x :: rest) (root ++ SYS_DIR :: MULTIPART :: rest') := by
      intro x rest rest' hne
      have : Apart ((root ++ [SYS_DIR]) ++ x :: rest) ((root ++ [SYS_DIR]) ++ MULTIPART :: rest') :=
        apart_of_ne hne
      simpa using this
    cases f with
    | payload => exact apart_of_ne hsys
    | metadata => exact hsystem (by decide)
    | sidecar suffix => exact hsystem (by decide)
    | history => exact hsystem (by decide)
    | archivedData vid => exact hsystem (by decide)
    | archivedMeta vid => exact hsystem (by decide)
  · refine ⟨plain_joinStr (by decide) id.atom.descends, ?_⟩
    rw [resolve_tmpFile, resolve_uploadDir hb' hu, List.append_assoc]
    have : Apart ((root ++ [SYS_DIR]) ++ [TMP, id.text])
        ((root ++ [SYS_DIR]) ++ [MULTIPART, b', u]) := apart_of_ne (by decide)
    simpa using this

theorem uploadDirs_apart (hb : Atom b) (hu : Atom u) (hb' : Atom b') (hu' : Atom u')
    (hne : ¬ (b' = b ∧ u' = u)) :
    Apart ((uploadDir b u).resolve root) ((uploadDir b' u').resolve root) := by
  rw [resolve_uploadDir hb hu, resolve_uploadDir hb' hu']
  by_cases h : b = b'
  · subst h
    have : Apart ((root ++ [SYS_DIR, MULTIPART, b]) ++ [u])
        ((root ++ [SYS_DIR, MULTIPART, b]) ++ [u']) :=
      apart_of_ne fun h0 => hne ⟨rfl, h0.symm⟩
    simpa using this
  · exact apart_of_ne h

theorem absent_kept {α : Type} {W : UnixPath → Prop} {p : FStore α} {Q : α → Prop}
    (hp : MeetsE (fsContract W) p Q) (ht : DocsIn ProperFsDoc t)
    (hW : ∀ p, W p → ClearOfUpload root b u p)
    (hnone : t.look ((uploadDir b u).resolve root) = none) :
    (after root p t).look ((uploadDir b u).resolve root) = none := by
  refine LocalDrive.run_writes_none hp ht (fun p hp' => (hW p hp').2.1)
    (fun p p' hp' hparent hpre => ?_) hnone
  exact (hW p' hp').2.2 (hpre.trans (parent_resolve (hW p' hp').1 hparent root))

/-! ## The calls -/

/-- What staging a part may write. -/
def PartWrites (b u : Str) (number : Nat) (p : UnixPath) : Prop :=
  (∃ id, p = tmpFile id) ∨ p = (uploadDir b u).joinStr (partFile number) ∨
    p = (uploadDir b u).joinStr (ErasureStore.partMetaFile number)

theorem meetsE_statThere {W : UnixPath → Prop} (p : UnixPath) :
    MeetsE (fsContract W) (orFail .noSuchUpload (Option.isSome <$> Drive.stat p))
      fun _ => True := by
  refine meetsE_orFail ?_
  rw [map_eq_pure_bind]
  exact Meets.then (meets_do (o := .stat p) trivial) fun _ => trivial

theorem meetsE_uploadPart {env : FsEnv} {number : Nat} {body : Body} :
    MeetsE (fsContract (PartWrites b u number)) (S.uploadPart env b u number body)
      fun _ => True := by
  refine (meetsE_statThere _).then fun _ => ?_
  refine (meetsE_streamToTemp (.inl ⟨_, rfl⟩)).then fun r => ?_
  refine (meetsE_moveIntoPlace (.inl ⟨_, rfl⟩) (.inr (.inl rfl))).then fun _ => ?_
  refine MeetsE.then (meetsE_orFail (meets_do (o := .write _ _) ⟨.inr (.inr rfl), ?_⟩))
    fun _ => meetsE_pure.2 trivial
  exact fun j hj h h0 => by cases hj; cases h0

theorem meetsE_abortMultipart :
    MeetsE (fsContract (· = uploadDir b u)) (abortMultipart b u) fun _ => True :=
  (meetsE_statThere _).then fun _ => meetsE_orFail (meets_do (o := .removeDirAll _) rfl)

theorem meetsE_assembleParts {W : UnixPath → Prop} {dir tmp : UnixPath} (htmp : W tmp)
    (parts : List CompletedPart) :
    MeetsE (fsContract W) (assembleParts dir tmp parts) fun _ => True := by
  induction parts with
  | nil => exact meetsE_pure.2 trivial
  | cons part parts ih =>
      refine MeetsE.then ?_ fun _ => ih.then fun _ => meetsE_pure.2 trivial
      refine MeetsE.then (meetsE_do (o := .read _) trivial) fun c => ?_
      split
      · exact meetsE_throw
      split
      · exact meetsE_throw
      split
      · exact meetsE_throw
      split
      · exact meetsE_throw
      refine MeetsE.then (meetsE_do (o := .read _) trivial) fun payload => ?_
      split
      · exact meetsE_throw
      · exact MeetsE.then (meetsE_orFail (meets_do (o := .append tmp _) htmp))
          fun _ => meetsE_pure.2 trivial

theorem meetsE_readManifest {W : UnixPath → Prop} (dir : UnixPath) :
    MeetsE (fsContract W) (readManifest dir) fun _ => True := by
  refine MeetsE.then (meetsE_do (o := .read _) trivial) fun c => ?_
  split
  · exact meetsE_throw
  · split
    · exact meetsE_throw
    · exact meetsE_pure.2 trivial

/-- Staging a completion touches temporary files only, and names one. -/
theorem meetsE_stageCompletion {W : UnixPath → Prop} (htmp : ∀ id, W (tmpFile id))
    {env : FsEnv} {parts : List CompletedPart} :
    MeetsE (fsContract W) (S.stageCompletion env b u parts)
      fun r => ∃ id, r.2.1 = tmpFile id := by
  refine (meetsE_readManifest _).then fun manifest => ?_
  refine (meetsE_orFail (meets_do (o := .create _) (htmp _))).then fun _ => ?_
  refine (meetsE_assembleParts (htmp _) parts).then fun r => ?_
  refine (meetsE_orFail (meets_do (o := .shutdown _) trivial)).then fun _ => ?_
  refine MeetsE.bind (R := fun tmp => ∃ id, tmp = tmpFile id) ?_ fun tmp htmp =>
    meetsE_pure.2 htmp
  unfold sealAssembly
  split
  · refine MeetsE.then (meetsE_do (o := .read _) trivial) fun c => ?_
    split
    · exact meetsE_throw
    · refine meetsE_writeSource.then fun src => ?_
      refine (meetsE_streamToTemp (htmp _)).then fun _ => ?_
      exact (meetsE_do (o := .removeFile _) (htmp _)).then fun _ => meetsE_pure.2 ⟨_, rfl⟩
  · exact meetsE_pure.2 ⟨_, rfl⟩

/-- What completing an upload may write: the key's files, temporary files, and the upload's
directory, which it removes. -/
def CompletionWrites (b k u : Str) (p : UnixPath) : Prop :=
  KeyWrites b k p ∨ p = uploadDir b u

theorem meetsE_completeMultipart {env : FsEnv} {parts : List CompletedPart} :
    MeetsE (fsContract (CompletionWrites b k u)) (S.completeMultipart env b k u parts)
      fun _ => True := by
  refine (meetsE_stageCompletion fun id => .inl (.inr ⟨id, rfl⟩)).bind fun r hr => ?_
  obtain ⟨manifest, tmp, etag, size⟩ := r
  obtain ⟨id, rfl⟩ := hr
  refine meetsE_install (fun _ => .inl) (.inl (.inr ⟨id, rfl⟩)) ?_
  exact Meets.then (meets_do (o := .removeDirAll _) (.inr rfl)) fun _ => trivial

/-- The records of parts are only read. -/
theorem meetsE_listParts : MeetsE (fsContract fun _ => False) (listParts b u) fun _ => True := by
  have hrecords : ∀ (dir : UnixPath) (entries : List (Str × Bool)),
      MeetsE (fsContract fun _ => False) (listRecords dir entries) fun _ => True := by
    intro dir entries
    induction entries with
    | nil => exact meetsE_pure.2 trivial
    | cons e entries ih =>
        obtain ⟨name, isDir⟩ := e
        rw [listRecords]
        split
        · exact ih
        · refine MeetsE.then (meetsE_do (o := .read _) trivial) fun c => ?_
          split
          · exact meetsE_throw
          · exact ih.then fun _ => meetsE_pure.2 trivial
  refine MeetsE.then (meetsE_do (o := .readDir _) trivial) fun entries => ?_
  split
  · exact meetsE_throw
  · exact (hrecords _ _).then fun _ => meetsE_pure.2 trivial

/-- What stands at the place of an upload. -/
def standing (root : List Str) (b u : Str) (t : Tree FsDoc) : Option (Node (Content FsDoc)) :=
  t.look ((uploadDir b u).resolve root)

theorem run_statThere (p : UnixPath) (t : Tree FsDoc) :
    runE (LocalDrive.step root) (orFail .noSuchUpload (Option.isSome <$> Drive.stat p)) t =
      (if (t.look (p.resolve root)).isSome then .ok () else .error .noSuchUpload, t) := by
  rw [run_orFail, map_eq_pure_bind, Prog.exec_bind, LocalDrive.exec_stat]
  cases t.look (p.resolve root) <;> rfl

/-- With nothing standing at its place, an id is refused. -/
theorem refused_of_absent (h : standing root b u t = none) :
    (∀ env k body, runE (LocalDrive.step root) (S.uploadPart env b u k body) t =
        (.error .noSuchUpload, t)) ∧
      (∀ env k parts, runE (LocalDrive.step root) (S.completeMultipart env b k u parts) t =
        (.error .noSuchUpload, t)) ∧
      runE (LocalDrive.step root) (abortMultipart b u) t = (.error .noSuchUpload, t) ∧
      runE (LocalDrive.step root) (listParts b u) t = (.error .noSuchUpload, t) := by
  have hmanifest : t.look (((uploadDir b u).joinStr MANIFEST).resolve root) = none := by
    rw [resolve_joinStr_atom (show Atom MANIFEST by decide)]
    exact look_below_none [MANIFEST] h
  refine ⟨fun env k body => ?_, fun env k parts => ?_, ?_, ?_⟩
  · rw [uploadPart, runE_bind, run_statThere, hmanifest]
    rfl
  · rw [completeMultipart, runE_bind, stageCompletion, runE_bind, readManifest, runE_bind,
      run_onDisk, andThen_ok, LocalDrive.exec_read, file?, hmanifest]
    rfl
  · rw [abortMultipart, runE_bind, run_statThere, show t.look _ = _ from h]
    rfl
  · have hdir : t.children ((uploadDir b u).resolve root) = none := by
      rw [children,
        isDir_eq_false.2 (by rw [show t.look _ = _ from h]; exact fun h0 => by cases h0),
        if_neg Bool.false_ne_true]
    have hread : (Drive.readDir (J := FsDoc) (uploadDir b u)).exec (LocalDrive.step root) t =
        (none, t) := by
      show (t.children ((uploadDir b u).resolve root), t) = _
      rw [hdir]
    rw [listParts, runE_bind, run_onDisk, andThen_ok, hread]
    rfl

theorem standing_removed (h : t.removeDirAll ((uploadDir b u).resolve root) = some t') :
    standing root b u t' = none := by
  rw [standing, look_removeDirAll h, if_pos (List.prefix_refl _)]

theorem standing_abort {x : Unit} (hok : result root (abortMultipart b u) t = .ok x) :
    standing root b u (after root (abortMultipart b u) t) = none := by
  unfold result at hok
  unfold after
  unfold abortMultipart at hok ⊢
  obtain ⟨_, -, hrun⟩ := runE_bind_ok hok
  rw [hrun, run_statThere] at hok ⊢
  rw [run_orFail, LocalDrive.exec_removeDirAll] at hok ⊢
  cases hrm : t.removeDirAll ((uploadDir b u).resolve root) with
  | none =>
      rw [hrm] at hok
      cases hok
  | some t' => exact standing_removed hrm

/-- The manifest of an upload is there, among proper documents. -/
def Manifested (root : List Str) (b u : Str) (t : Tree FsDoc) : Prop :=
  DocsIn ProperFsDoc t ∧ (t.file? (((uploadDir b u).joinStr MANIFEST).resolve root)).isSome = true

theorem honours_manifested (hb : validateBucketName b = .ok ()) (hk : validateKey k = .ok ())
    (hu : Atom u) :
    Honours (LocalDrive.step root) (fsContract (KeyWrites b k)) (Manifested root b u) := by
  rintro o ho t ⟨hdocs, hfile⟩
  obtain ⟨hans, hdocs'⟩ := LocalDrive.step_writes_docs ho hdocs
  refine ⟨hans, hdocs', ?_⟩
  rw [LocalDrive.step_writes ho fun p hp hpre => ?_]
  · exact hfile
  · rw [resolve_joinStr_atom (show Atom MANIFEST by decide)] at hpre
    exact ((clear_key hb hk (validateBucketName_atom hb) hu hp).2.symm.below [MANIFEST]).2 hpre

theorem honours_absent (hb : validateBucketName b = .ok ()) (hk : validateKey k = .ok ())
    (hu : Atom u) :
    Honours (LocalDrive.step root) (fsContract (KeyWrites b k)) fun t =>
      DocsIn ProperFsDoc t ∧ standing root b u t = none := by
  rintro o ho t ⟨hdocs, hnone⟩
  obtain ⟨hans, hdocs'⟩ := LocalDrive.step_writes_docs ho hdocs
  have hclear : ∀ p, KeyWrites b k p → ClearOfUpload root b u p := fun p hp =>
    clear_key hb hk (validateBucketName_atom hb) hu hp
  refine ⟨hans, hdocs', LocalDrive.step_writes_none ho (fun p hp => (hclear p hp).2.1)
    (fun p p' hp hparent hpre => ?_) hnone⟩
  exact (hclear p' hp).2.2 (hpre.trans (parent_resolve (hclear p' hp).1 hparent root))

theorem stageCompletion_ok {env : FsEnv} {parts : List CompletedPart}
    {r : StagedUpload × UnixPath × Str × Nat}
    (hok : result root (S.stageCompletion env b u parts) t = .ok r) :
    (t.file? (((uploadDir b u).joinStr MANIFEST).resolve root)).isSome = true := by
  unfold result stageCompletion at hok
  obtain ⟨m, hm, -⟩ := runE_bind_ok hok
  rw [readManifest, runE_bind, run_onDisk, andThen_ok, LocalDrive.exec_read] at hm
  cases hfile : t.file? (((uploadDir b u).joinStr MANIFEST).resolve root) with
  | none =>
      rw [hfile] at hm
      cases hm
  | some c => rfl

/-- After a completion that succeeds nothing stands at the upload's place. -/
theorem standing_complete {env : FsEnv} {parts : List CompletedPart} {om : ObjectMeta}
    (hb : validateBucketName b = .ok ()) (hk : validateKey k = .ok ()) (hu : Atom u)
    (hdocs : DocsIn ProperFsDoc t)
    (hok : result root (S.completeMultipart env b k u parts) t = .ok om) :
    standing root b u (after root (S.completeMultipart env b k u parts) t) = none := by
  have hkeep : Honours (LocalDrive.step root) (fsContract (KeyWrites b k))
    (Manifested root b u) := honours_manifested hb hk hu
  have hW : ∀ p, KeyWrites b k p → KeyWrites b k p := fun _ h => h
  unfold result at hok
  unfold after
  unfold completeMultipart at hok ⊢
  obtain ⟨⟨m, tmp, etag, size⟩, hstage, h₁⟩ := runE_bind_ok hok
  have hm₀ : Manifested root b u t := ⟨hdocs, stageCompletion_ok hstage⟩
  obtain ⟨htmp, hm₁⟩ := MeetsE.run hkeep (meetsE_stageCompletion (S := S) (b := b) (u := u)
    fun id => .inr ⟨id, rfl⟩) hm₀
  obtain ⟨id, hid⟩ := htmp _ hstage
  rw [h₁] at hok ⊢
  generalize (runE (LocalDrive.step root) (S.stageCompletion env b u parts) t).2 = t₁ at *
  dsimp only at hok hid ⊢
  subst hid
  unfold install at hok ⊢
  obtain ⟨mode, -, h₂⟩ := runE_bind_ok hok
  have hmode : MeetsE (fsContract (KeyWrites b k)) (versioningMode b) fun _ => True :=
    meetsE_versioningMode
  have hm₂ := (MeetsE.run hkeep hmode hm₁).2
  rw [h₂] at hok ⊢
  generalize (runE (LocalDrive.step root) (versioningMode b) t₁).2 = t₂ at *
  obtain ⟨pending, hpending, h₃⟩ := runE_bind_ok hok
  have hbegin : MeetsE (fsContract (KeyWrites b k)) (S.beginWrite env.toCallEnv b k mode)
      fun pending => ∀ r, pending = some r → ProperId r.1 ∧ ProperVersions r.2 :=
    meetsE_beginWrite hW
  obtain ⟨hproper, hm₃⟩ := MeetsE.run hkeep hbegin hm₂
  have hpending' := hproper pending hpending
  rw [h₃] at hok ⊢
  generalize (runE (LocalDrive.step root) (S.beginWrite env.toCallEnv b k mode) t₂).2 = t₃ at *
  obtain ⟨_, -, h₄⟩ := runE_bind_ok hok
  have hpayload : KeyWrites b k (objectPath b k) := writes_key hW (k := .payload) trivial
  have hm₄ := (MeetsE.run hkeep (meetsE_moveIntoPlace (.inr ⟨id, rfl⟩) hpayload) hm₃).2
  rw [h₄] at hok ⊢
  generalize (runE (LocalDrive.step root) (moveIntoPlace (tmpFile id) (objectPath b k)) t₃).2 =
    t₄ at *
  dsimp only at hok ⊢
  obtain ⟨_, -, h₅⟩ := runE_bind_ok hok
  have hm₅ := (MeetsE.run hkeep (meetsE_writeMeta hW (m := ⟨etag, size, m.contentType,
    m.userMetadata, env.now, m.encrypt, pending.map Prod.fst⟩)) hm₄).2
  rw [h₅] at hok ⊢
  generalize (runE (LocalDrive.step root) (writeMeta b k ⟨etag, size, m.contentType,
    m.userMetadata, env.now, m.encrypt, pending.map Prod.fst⟩) t₄).2 = t₅ at *
  -- The manifest is still in the directory, so the directory can be removed.
  obtain ⟨c, hc⟩ := Option.isSome_iff_exists.1 hm₅.2
  have hdir : t₅.look ((uploadDir b u).resolve root) = some .dir := by
    have hlook := file?_eq_some.1 hc
    rw [resolve_joinStr_atom (show Atom MANIFEST by decide)] at hlook
    exact look_parent hlook
  obtain ⟨t₆, hrm⟩ : ∃ t₆, t₅.removeDirAll ((uploadDir b u).resolve root) = some t₆ := by
    refine ⟨_, if_pos ⟨?_, isDir_iff.2 hdir⟩⟩
    rw [resolve_uploadDir (validateBucketName_atom hb) hu]
    simp
  have hremoved : (Drive.removeDirAll (J := FsDoc) (uploadDir b u) >>= fun _ =>
      (pure () : DriveProg FsDoc Unit)).exec (LocalDrive.step root) t₅ = ((), t₆) := by
    rw [Prog.exec_bind, LocalDrive.exec_removeDirAll, hrm]
    rfl
  have hdocs₆ : DocsIn ProperFsDoc t₆ := by
    intro q j hj
    rw [look_removeDirAll hrm] at hj
    split at hj
    · cases hj
    · exact hm₅.1 q j hj
  rw [runE_bind, run_onDisk, andThen_ok, hremoved] at hok ⊢
  rw [runE_bind_pure] at hok ⊢
  have hfinish : MeetsE (fsContract (KeyWrites b k)) (finishWrite b k pending etag size env.now)
      fun _ => True := by
    cases pending with
    | none => exact meetsE_pure.2 trivial
    | some r => exact meetsE_finish hW (hpending' r rfl).2 (hpending' r rfl).1
  exact (MeetsE.run (honours_absent hb hk hu) hfinish ⟨hdocs₆, standing_removed hrm⟩).2.2

/-! ## Runs -/

/-- What a call of a run does with the store; a creation answers with the id. -/
def uploadProg (S : FsStore) : UploadCall FsEnv FsCall → FStore (Option Str)
  | .create env bucket key contentType userMetadata encrypt => do
      let uploadId ← S.createMultipart env.toCallEnv bucket key contentType userMetadata encrypt
      pure (some uploadId)
  | .part env bucket _ uploadId number body => do
      let _ ← S.uploadPart env bucket uploadId number body
      pure none
  | .complete env bucket key uploadId parts => do
      let _ ← S.completeMultipart env bucket key uploadId parts
      pure none
  | .abort bucket _ uploadId => do
      let _ ← abortMultipart bucket uploadId
      pure none
  | .list bucket _ uploadId => do
      let _ ← listParts bucket uploadId
      pure none
  | .other c => do
      let _ ← c.prog S
      pure none

/-- Multipart and other calls, one after the other. -/
def uploadMachine (S : FsStore) (root : List Str) :
    Machine (Tree FsDoc) (UploadCall FsEnv FsCall) (Except S3Error (Option Str)) where
  step t c := runE (LocalDrive.step root) (uploadProg S c) t

/-- A call of such a run, with the tree it met and its answer. -/
abbrev UploadVisit := Visit (Tree FsDoc) (UploadCall FsEnv FsCall) (Except S3Error (Option Str))

/-- Its desk. -/
abbrev storeDesk : Desk (UploadCall FsEnv FsCall) (Except S3Error (Option Str)) Str (Str × Str) :=
  uploadDesk id

/-- The id a creation hands out. -/
def Mints (env : FsEnv) (u : Str) : Prop := u = env.freshId.text

/-- A bucket and an id that are one path component each. -/
def PlainId (bucket uploadId : Str) : Prop := Atom bucket ∧ Atom uploadId

/-- A call on a bucket and a key that the validators accept. -/
def FsCall.Valid (c : FsCall) : Prop :=
  (∀ b k, c.target = some (b, k) → validateBucketName b = .ok () ∧ validateKey k = .ok ()) ∧
    (∀ b, c = .createBucket b → validateBucketName b = .ok ()) ∧
    ∀ b st, c = .setBucketVersioning b st → validateBucketName b = .ok ()

/-- Nothing stands at the place of an id in a bucket it does not stand for. -/
structure UploadsHeld (root : List Str) (held : Str → Option (Str × Str)) (t : Tree FsDoc) :
    Prop where
  docs : DocsIn ProperFsDoc t
  named : ∀ u b k, held u = some (b, k) →
    validateBucketName b = .ok () ∧ validateKey k = .ok ()
  absent : ∀ b u, Atom b → Atom u → (∀ k, held u ≠ some (b, k)) → standing root b u t = none

variable {held held' : Str → Option (Str × Str)}

/-- What a call on an id that stands for nothing is answered. -/
theorem UploadsHeld.refused (h : UploadsHeld root held t) {c : UploadCall FsEnv FsCall}
    {uses : Bool} (hb : Atom b) (hu : Atom u) (hnone : held u = none)
    (hc : c.deed = .present u (b, k) uses) :
    (uploadMachine S root).step t c = (.error .noSuchUpload, t) := by
  obtain ⟨hpart, hcomplete, habort, hlist⟩ := refused_of_absent (S := S)
    (h.absent b u hb hu fun k h0 => by rw [hnone] at h0; cases h0)
  cases c with
  | create env b k contentType userMetadata encrypt => cases hc
  | part env b' k u' number body =>
      cases hc
      show runE (LocalDrive.step root) (uploadProg S _) t = _
      rw [uploadProg, runE_bind_pure, hpart]
      rfl
  | complete env b k u' parts =>
      cases hc
      show runE (LocalDrive.step root) (uploadProg S _) t = _
      rw [uploadProg, runE_bind_pure, hcomplete]
      rfl
  | abort b k u' =>
      cases hc
      show runE (LocalDrive.step root) (uploadProg S _) t = _
      rw [uploadProg, runE_bind_pure, habort]
      rfl
  | list b k u' =>
      cases hc
      show runE (LocalDrive.step root) (uploadProg S _) t = _
      rw [uploadProg, runE_bind_pure, hlist]
      rfl
  | other c => cases hc

/-- A call on an upload that is held, whose writes are clear of all others, leaves it held, or
leaves nothing of it. -/
theorem UploadsHeld.present (h : UploadsHeld root held t) (hopen : held u = some (b, k))
    {α : Type} {W : UnixPath → Prop} {p : FStore α} {Q : α → Prop}
    (hp : MeetsE (fsContract W) p Q)
    (hclear : ∀ b' u', Atom b' → Atom u' → ¬ (b' = b ∧ u' = u) → ∀ p, W p →
      ClearOfUpload root b' u' p)
    (hheld : held' = held ∨
      (held' = Function.update held u none ∧ standing root b u (after root p t) = none)) :
    UploadsHeld root held' (after root p t) := by
  refine ⟨(LocalDrive.run_writes hp h.docs).1, fun u' b' k' h0 => ?_, fun b' u' hb' hu' h0 => ?_⟩
  · rcases hheld with rfl | ⟨rfl, -⟩
    · exact h.named u' b' k' h0
    · by_cases hne : u' = u
      · rw [hne, Function.update_self] at h0
        cases h0
      · rw [Function.update_of_ne hne] at h0
        exact h.named u' b' k' h0
  · by_cases hself : b' = b ∧ u' = u
    · obtain ⟨rfl, rfl⟩ := hself
      rcases hheld with rfl | ⟨-, hgone⟩
      · exact absurd hopen (h0 k)
      · exact hgone
    · refine absent_kept hp h.docs (hclear b' u' hb' hu' hself)
        (h.absent b' u' hb' hu' fun k' => ?_)
      rcases hheld with rfl | ⟨rfl, -⟩
      · exact h0 k'
      · by_cases hne : u' = u
        · -- The id stood for an upload of another bucket.
          subst hne
          rw [hopen]
          exact fun h1 => hself ⟨(Prod.mk.inj (Option.some.inj h1)).1.symm, rfl⟩
        · have := h0 k'
          rwa [Function.update_of_ne hne] at this

/-- A creation fails and leaves what was there, or makes the upload's directory and in it the
manifest. -/
theorem run_createMultipart (env : CallEnv) (contentType : Str) (userMetadata : UserMeta)
    (encrypt : Bool) (t : Tree FsDoc) :
    (∃ e, runE (LocalDrive.step root)
        (S.createMultipart env b k contentType userMetadata encrypt) t = (.error e, t)) ∨
      ∃ t₁, validateKey k = .ok () ∧
        t.createDirAll ((uploadDir b env.freshId.text).resolve root) = some t₁ ∧
        runE (LocalDrive.step root)
            (S.createMultipart env b k contentType userMetadata encrypt) t =
          match t₁.write ((uploadDir b env.freshId.text).resolve root ++ [MANIFEST])
            (.doc (.upload ⟨k, contentType, userMetadata, env.now, S.shouldEncrypt encrypt⟩)) with
          | some t₂ => (.ok env.freshId.text, t₂)
          | none => (.error (.internal "write manifest"), t₁) := by
  have hhead : ∃ ok : Bool, runE (LocalDrive.step root) (headBucket b) t =
      (if ok then .ok () else .error .noSuchBucket, t) :=
    ⟨_, by rw [headBucket, run_orFail, Prog.exec_bind, LocalDrive.exec_stat]; rfl⟩
  obtain ⟨ok, hhead⟩ := hhead
  unfold createMultipart
  rw [runE_bind, hhead]
  cases ok with
  | false => exact .inl ⟨_, rfl⟩
  | true =>
      rw [if_pos rfl, andThen_ok, runE_bind, runE_ofExcept]
      cases hkey : validateKey k with
      | error e => exact .inl ⟨e, rfl⟩
      | ok x =>
          rw [andThen_ok, runE_bind, run_orFail, LocalDrive.exec_createDirAll]
          cases hmk : t.createDirAll ((uploadDir b env.freshId.text).resolve root) with
          | none => exact .inl ⟨_, rfl⟩
          | some t₁ =>
              refine .inr ⟨t₁, rfl, rfl, ?_⟩
              rw [LocalDrive.attempt_some rfl, if_pos rfl, andThen_ok, runE_bind, run_orFail,
                LocalDrive.exec_write, resolve_joinStr_atom (show Atom MANIFEST by decide)]
              cases t₁.write ((uploadDir b env.freshId.text).resolve root ++ [MANIFEST])
                  (.doc (.upload ⟨k, contentType, userMetadata, env.now,
                    S.shouldEncrypt encrypt⟩)) with
              | none => rfl
              | some t₂ => rfl

theorem meetsE_createMultipart {env : CallEnv} {contentType : Str} {userMetadata : UserMeta}
    {encrypt : Bool} :
    MeetsE (fsContract fun _ => True) (S.createMultipart env b k contentType userMetadata encrypt)
      fun _ => True := by
  refine meetsE_headBucket.then fun _ => ?_
  refine MeetsE.then (meetsE_ofExcept.2 fun _ _ => trivial) fun _ => ?_
  refine (meetsE_orFail (meets_do (o := .createDirAll _) (dirOf_true _))).then fun _ => ?_
  refine MeetsE.then (meetsE_orFail (meets_do (o := .write _ _) ⟨trivial, ?_⟩)) fun _ =>
    meetsE_pure.2 trivial
  exact fun j hj h h0 => by cases hj; cases h0

/-- A creation keeps what is held, with the new id for its bucket and key. -/
theorem UploadsHeld.create (h : UploadsHeld root held t) {env : FsEnv} {contentType : Str}
    {userMetadata : UserMeta} {encrypt : Bool} (hb : validateBucketName b = .ok ())
    (hfresh : held env.freshId.text = none) {r : Except S3Error (Option Str)}
    (hrun : (uploadMachine S root).step t
      (.create env b k contentType userMetadata encrypt) = (r, t')) :
    UploadsHeld root (storeDesk.next held (.create env b k contentType userMetadata encrypt) r)
      t' := by
  have hdocs : DocsIn ProperFsDoc t' := by
    have hmeets : MeetsE (fsContract fun _ => True)
        (uploadProg S (.create env b k contentType userMetadata encrypt)) fun _ => True :=
      meetsE_createMultipart.then fun _ => meetsE_pure.2 trivial
    have : DocsIn ProperFsDoc (runE (LocalDrive.step root) (uploadProg S
        (.create env b k contentType userMetadata encrypt)) t).2 :=
      (LocalDrive.run_writes hmeets h.docs).1
    rwa [show runE _ _ t = _ from hrun] at this
  have hstep : (uploadMachine S root).step t
      (.create env b k contentType userMetadata encrypt) =
        ((runE (LocalDrive.step root) (S.createMultipart env.toCallEnv b k contentType
          userMetadata encrypt) t).1.map some, (runE (LocalDrive.step root)
            (S.createMultipart env.toCallEnv b k contentType userMetadata encrypt) t).2) :=
    runE_bind_pure _ _ t
  rw [hstep] at hrun
  rcases run_createMultipart (S := S) (b := b) (k := k) env.toCallEnv contentType
    userMetadata encrypt t with ⟨e, herr⟩ | ⟨t₁, hk, hmk, hmade⟩
  · rw [herr] at hrun
    obtain ⟨rfl, rfl⟩ : r = .error e ∧ t' = t :=
      ⟨(Prod.mk.inj hrun).1.symm, (Prod.mk.inj hrun).2.symm⟩
    rw [next_error]
    exact h
  · have hatom : Atom env.freshId.text := env.freshId.atom
    have hbucket := validateBucketName_atom hb
    generalize env.freshId.text = u at hmk hmade hatom hfresh
    have hmade_look := look_createDirAll hmk
    have hempty : ∀ b', Atom b' → standing root b' u t = none := fun b' hb' =>
      h.absent b' u hb' hatom fun k' h0 => by rw [hfresh] at h0; cases h0
    cases hwrite : t₁.write ((uploadDir b u).resolve root ++ [MANIFEST])
        (.doc (.upload ⟨k, contentType, userMetadata, env.now, S.shouldEncrypt encrypt⟩)) with
    | none =>
        -- Nothing stood there, so the manifest can be written.
        have hnone := look_below_none [MANIFEST] (hempty b hbucket)
        have hwritten : (t₁.write ((uploadDir b u).resolve root ++ [MANIFEST])
            (.doc (.upload ⟨k, contentType, userMetadata, env.now,
              S.shouldEncrypt encrypt⟩))).isSome = true := by
          rw [write_isSome, hmade_look, if_pos (List.prefix_refl _), hmade_look, if_neg]
          · exact ⟨rfl, fun h0 => by rw [hnone] at h0; cases h0⟩
          · intro hpre
            have := hpre.length_le
            simp at this
        rw [hwrite] at hwritten
        cases hwritten
    | some t₂ =>
        rw [show t₁.write _ _ = _ from hwrite] at hmade
        rw [hmade] at hrun
        obtain ⟨rfl, rfl⟩ : r = .ok (some u) ∧ t' = t₂ :=
          ⟨(Prod.mk.inj hrun).1.symm, (Prod.mk.inj hrun).2.symm⟩
        rw [Desk.next_issue (t := (b, k)) rfl rfl]
        refine ⟨hdocs, fun u' b' k' h0 => ?_, fun b' u' hb' hu' h0 => ?_⟩
        · by_cases hne : u' = u
          · rw [hne, Function.update_self] at h0
            cases h0
            exact ⟨hb, hk⟩
          · rw [Function.update_of_ne hne] at h0
            exact h.named u' b' k' h0
        · have hself : ¬ (b' = b ∧ u' = u) := by
            rintro ⟨rfl, rfl⟩
            exact h0 k (Function.update_self _ _ _)
          have hapart : Apart ((uploadDir b u).resolve root) ((uploadDir b' u').resolve root) :=
            uploadDirs_apart hbucket hatom hb' hu' hself
          have hbefore : standing root b' u' t = none := by
            by_cases hne : u' = u
            · exact hne ▸ hempty b' hb'
            · refine h.absent b' u' hb' hu' fun k' => ?_
              have := h0 k'
              rwa [Function.update_of_ne hne] at this
          rw [standing, look_write hwrite, if_neg, hmade_look, if_neg hapart.2]
          · exact hbefore
          · exact fun heq => (hapart.below [MANIFEST]).2 (heq ▸ List.prefix_refl _)

/-- What a call on a key, or one that sets a bucket up, writes. -/
def CallWrites (c : FsCall) (p : UnixPath) : Prop :=
  (∃ b k, c.target = some (b, k) ∧ KeyWrites b k p) ∨
    (∃ b, c = .createBucket b ∧ p = (bucketPath b).joinStr TMP) ∨
    ∃ b st, c = .setBucketVersioning b st ∧ p = bucketCfgFile b VERSIONING

theorem meetsE_callWrites (c : FsCall) :
    MeetsE (fsContract (CallWrites c)) (c.prog S) fun _ => True :=
  c.meets (fun b k hc p hp => .inl ⟨b, k, hc, hp⟩)
    (fun b hc => ⟨_, .inr (.inl ⟨b, hc, rfl⟩), parent_joinStr_atom (by decide)⟩)
    fun b st hc => .inr (.inr ⟨b, st, hc, rfl⟩)

theorem clear_call {c : FsCall} (hc : FsCall.Valid c) (hb : Atom b) (hu : Atom u)
    {p : UnixPath} (hp : CallWrites c p) : ClearOfUpload root b u p := by
  rcases hp with ⟨b', k, htarget, hp⟩ | ⟨b', hcall, rfl⟩ | ⟨b', st, hcall, rfl⟩
  · exact clear_key (hc.1 b' k htarget).1 (hc.1 b' k htarget).2 hb hu hp
  · have hb' := hc.2.1 b' hcall
    have hatom := validateBucketName_atom hb'
    refine ⟨plain_joinStr hatom.plain (show Atom TMP by decide).descends, ?_⟩
    rw [resolve_joinStr_atom (by decide), resolve_bucketPath hatom, resolve_uploadDir hb hu,
      List.append_assoc, List.append_assoc]
    exact apart_of_ne (ne_sysDir hb')
  · have hatom := validateBucketName_atom (hc.2.2 b' st hcall)
    refine ⟨plain_joinStr (plain_joinStr (by decide) hatom.descends)
      atom_versioning.descends, ?_⟩
    rw [bucketCfgFile, bucketCfgDir, resolve_joinStr_atom atom_versioning,
      resolve_joinStr_atom hatom, resolve_joinStr_atom (by decide),
      resolve_ofStr atom_sysDir.descends, atom_sysDir.compsOf, resolve_uploadDir hb hu]
    have : Apart ((root ++ [SYS_DIR]) ++ [BUCKETS, b', VERSIONING])
        ((root ++ [SYS_DIR]) ++ [MULTIPART, b, u]) := apart_of_ne (by decide)
    simpa using this

theorem next_presented {c : UploadCall FsEnv FsCall} {x : Str × Str} {uses : Bool}
    {r : Except S3Error (Option Str)} (hc : c.deed = .present u x uses)
    (hgone : ∀ a, r = .ok a → uses = true → standing root b u t' = none) :
    storeDesk.next held c r = held ∨
      (storeDesk.next held c r = Function.update held u none ∧ standing root b u t' = none) := by
  cases r with
  | error e => exact .inl (next_error e)
  | ok a =>
      rw [next_ok hc]
      cases uses with
      | false => exact .inl rfl
      | true => exact .inr ⟨rfl, hgone a rfl rfl⟩

/-- What an orderly call leaves is as held. -/
theorem UploadsHeld.step (h : UploadsHeld root held t) (c : UploadCall FsEnv FsCall)
    (hc : c.Orderly Mints PlainId FsCall.Valid held) :
    UploadsHeld root (storeDesk.next held c ((uploadMachine S root).step t c).1)
      ((uploadMachine S root).step t c).2 := by
  -- An id that stands for nothing is refused, and nothing changes.
  have hpresent : ∀ {u b k uses}, c.deed = .present u (b, k) uses →
      UploadCall.Named PlainId held b k u →
      (held u = some (b, k) → UploadsHeld root
        (storeDesk.next held c ((uploadMachine S root).step t c).1)
        ((uploadMachine S root).step t c).2) →
      UploadsHeld root (storeDesk.next held c ((uploadMachine S root).step t c).1)
        ((uploadMachine S root).step t c).2 := by
    intro u b k uses hdeed hnamed hopen
    obtain ⟨⟨hb, hu⟩, htarget⟩ := hnamed
    cases hheld : held u with
    | none =>
        rw [h.refused hb hu hheld hdeed, next_error]
        exact h
    | some x => exact hopen (by rw [hheld, htarget x hheld])
  -- The files in an upload's directory, and the directory, are clear of other uploads.
  have hinside : ∀ {b u b' u' : Str} {f : Str}, Atom b → Atom u → Atom b' → Atom u' →
      ¬ (b' = b ∧ u' = u) → Atom f →
      ClearOfUpload root b' u' ((uploadDir b u).joinStr f) ∧
        ClearOfUpload root b' u' (uploadDir b u) := by
    intro b u b' u' f hb hu hb' hu' hne hf
    have hapart : Apart ((uploadDir b u).resolve root) ((uploadDir b' u').resolve root) :=
      uploadDirs_apart hb hu hb' hu' hne
    refine ⟨⟨plain_joinStr (plain_uploadDir hb hu) hf.descends, ?_⟩, plain_uploadDir hb hu, hapart⟩
    rw [resolve_joinStr_atom hf]
    exact hapart.below [f]
  have hstep : ∀ {α : Type} {p : FStore α}, uploadProg S c = (do
      let _ ← p
      pure none) → (uploadMachine S root).step t c =
        ((result root p t).map fun _ => none, after root p t) := fun hprog => by
    show runE (LocalDrive.step root) (uploadProg S c) t = _
    rw [hprog, runE_bind_pure]
    rfl
  cases c with
  | create env b k contentType userMetadata encrypt => exact h.create hc.1 (hc.2 _ rfl) rfl
  | part env b k u number body =>
      refine hpresent rfl hc fun hopen => ?_
      obtain ⟨hb, hk⟩ := h.named u b k hopen
      rw [hstep (p := S.uploadPart env b u number body) rfl]
      refine h.present hopen meetsE_uploadPart (fun b' u' hb' hu' hne p hp => ?_)
        (next_presented rfl fun _ _ huses => absurd huses (by decide))
      rcases hp with ⟨id, rfl⟩ | rfl | rfl
      · exact clear_key hb hk hb' hu' (.inr ⟨id, rfl⟩)
      · exact (hinside hc.1.1 hc.1.2 hb' hu' hne (atom_partFile number)).1
      · exact (hinside hc.1.1 hc.1.2 hb' hu' hne (atom_partMetaFile number)).1
  | complete env b k u parts =>
      refine hpresent rfl hc fun hopen => ?_
      obtain ⟨hb, hk⟩ := h.named u b k hopen
      rw [hstep (p := S.completeMultipart env b k u parts) rfl]
      refine h.present hopen meetsE_completeMultipart (fun b' u' hb' hu' hne p hp => ?_)
        (next_presented rfl fun a ha _ => ?_)
      · rcases hp with hp | rfl
        · exact clear_key hb hk hb' hu' hp
        · exact (hinside hc.1.1 hc.1.2 hb' hu' hne (atom_partFile 0)).2
      · cases hr : result root (S.completeMultipart env b k u parts) t with
        | error e =>
            rw [hr] at ha
            cases ha
        | ok om => exact standing_complete hb hk hc.1.2 h.docs hr
  | abort b k u =>
      refine hpresent rfl hc fun hopen => ?_
      rw [hstep (p := abortMultipart b u) rfl]
      refine h.present hopen meetsE_abortMultipart (fun b' u' hb' hu' hne p hp => ?_)
        (next_presented rfl fun a ha _ => ?_)
      · rw [show p = uploadDir b u from hp]
        exact (hinside hc.1.1 hc.1.2 hb' hu' hne (atom_partFile 0)).2
      · cases hr : result root (abortMultipart b u) t with
        | error e =>
            rw [hr] at ha
            cases ha
        | ok x => exact standing_abort hr
  | list b k u =>
      refine hpresent rfl hc fun hopen => ?_
      rw [hstep (p := listParts b u) rfl]
      exact h.present hopen meetsE_listParts (fun _ _ _ _ _ _ hp => hp.elim)
        (next_presented rfl fun _ _ huses => absurd huses (by decide))
  | other c =>
      rw [hstep (p := c.prog S) rfl, Desk.next_other rfl]
      refine ⟨(LocalDrive.run_writes (meetsE_callWrites c) h.docs).1, h.named,
        fun b u hb hu h0 => ?_⟩
      exact absent_kept (meetsE_callWrites c) h.docs (fun p hp => clear_call hc hb hu hp)
        (h.absent b u hb hu h0)

/-- In a run of orderly calls, on a disk where no upload is staged, an id is good for the
bucket and the key it was handed out for, as long as it is not used up, and for nothing else. -/
theorem store_honours (hdocs : DocsIn ProperFsDoc t)
    (hempty : ∀ b u, Atom b → Atom u → t.look ((uploadDir b u).resolve root) = none)
    {cs : List (UploadCall FsEnv FsCall)}
    (horderly : ∀ pre v post, (uploadMachine S root).visits t cs = pre ++ v :: post →
      v.call.Orderly Mints PlainId FsCall.Valid (storeDesk.held pre)) :
    ∀ pre v post, (uploadMachine S root).visits t cs = pre ++ v :: post →
      storeDesk.Honoured (uploadMachine S root) (.error .noSuchUpload) pre v := by
  have hstart : UploadsHeld root (fun _ => none) t :=
    ⟨hdocs, fun _ _ _ h0 => (by cases h0), fun b u hb hu _ => hempty b u hb hu⟩
  refine Desk.honoured
    hstart
    (fun held t c h hc => h.step c hc) (fun held t c h hc id target uses hdeed => ?_) horderly
  have hnamed : UploadCall.Named PlainId held target.1 target.2 id := by
    cases c with
    | create env b k contentType userMetadata encrypt => cases hdeed
    | other c => cases hdeed
    | _ =>
        cases hdeed
        exact hc
  cases hheld : held id with
  | none =>
      refine .inr ?_
      have hdeed' : c.deed = .present id target uses := hdeed
      rw [h.refused hnamed.1.1 hnamed.1.2 hheld hdeed']
      exact ⟨rfl, rfl⟩
  | some x => exact .inl (congrArg some (hnamed.2 x hheld))

end FsStore

/-! ## Both backends -/

/-- On both backends, in every run that starts with no upload staged and whose calls keep
uploads apart, an upload id is good only for the bucket and the key it was handed out for, and
only until its upload is completed or aborted; presented for anything else it is answered
`NoSuchUpload`, and nothing is changed. -/
theorem upload_ids_bound {n : Nat} (S : ErasureStore n) (root : Fin n → List Str)
    (s : Cluster n Doc) (cs : List ((Fin n → Bool) × UploadCall CallEnv ObjectCall))
    (F : FsStore) (dir : List Str) (t : Tree FsDoc) (ds : List (UploadCall FsEnv FsStore.FsCall)) :
    (ProperCluster s →
      (∀ d u, Atom u → (s d).look ((rUpload u).resolve (root d)) = none) →
      (∀ pre (v : UploadVisit n) post, (uploadMachine S root).visits s cs = pre ++ v :: post →
        v.call.2.Orderly (Mints n) PlainId ObjectCall.Valid ((storeDesk n).held pre)) →
      ∀ pre v post, (uploadMachine S root).visits s cs = pre ++ v :: post →
        (storeDesk n).Honoured (uploadMachine S root) (.error .noSuchUpload) pre v) ∧
    (DocsIn ProperFsDoc t →
      (∀ b u, Atom b → Atom u → t.look ((FsStore.uploadDir b u).resolve dir) = none) →
      (∀ pre (v : FsStore.UploadVisit) post,
        (FsStore.uploadMachine F dir).visits t ds = pre ++ v :: post →
        v.call.Orderly FsStore.Mints FsStore.PlainId FsStore.FsCall.Valid
          (FsStore.storeDesk.held pre)) →
      ∀ pre v post, (FsStore.uploadMachine F dir).visits t ds = pre ++ v :: post →
        FsStore.storeDesk.Honoured (FsStore.uploadMachine F dir) (.error .noSuchUpload) pre v) :=
  ⟨fun hs hempty horderly => store_honours hs hempty horderly,
    fun hdocs hempty horderly => FsStore.store_honours hdocs hempty horderly⟩

/-! ## One upload -/

/-- The id of the upload of a run on the erasure store. -/
def storeUpload : Str := mintedId (0 : Fin 3) (callAt 'a' 1 isHexLower_a).freshId

/-- An upload is created, aborted with one drive out of reach, and named once more. -/
def storeUploads : List ((Fin 3 → Bool) × UploadCall CallEnv ObjectCall) :=
  [(fun _ => true, .create (callAt 'a' 1 isHexLower_a) "docs".toList "key".toList [] [] false),
    (fun d => d ≠ 2, .abort "docs".toList "key".toList storeUpload),
    (fun _ => true, .list "docs".toList "key".toList storeUpload)]

/-- The id of the upload of a run on the filesystem store. -/
def fsUpload : Str := (FsStore.fsCallAt 'a' 1 isHexLower_a).freshId.text

/-- A bucket, and in it an upload that is created, aborted and named once more. -/
def fsUploads : List (UploadCall FsEnv FsStore.FsCall) :=
  [.other (.createBucket "docs".toList),
    .create (FsStore.fsCallAt 'a' 1 isHexLower_a) "docs".toList "key".toList [] [] false,
    .abort "docs".toList "key".toList fsUpload,
    .list "docs".toList "key".toList fsUpload]

theorem look_withBucket {n : Nat} {u : Str} (hu : Atom u) (d : Fin n) :
    (withBucket "docs".toList d : Tree Doc).look ((rUpload u).resolve (topRoot d)) = none := by
  have hmk : ((FileTree.empty : Tree Doc).createDirAll ["docs".toList]).isSome = true := by
    decide +kernel
  obtain ⟨t, ht⟩ := Option.isSome_iff_exists.1 hmk
  rw [withBucket, ht, Option.getD_some, look_createDirAll ht, if_neg, look_empty]
  · rw [resolve_rUpload hu]
    simp
  · rw [resolve_rUpload hu]
    intro h
    have := h.length_le
    simp [topRoot] at this

theorem named_one {plain : Str → Str → Prop} {held : Str → Option (Str × Str)} {b k u : Str}
    (hplain : plain b u) {x : Option (Str × Str)} (hheld : held u = x)
    (hx : x = none ∨ x = some (b, k)) : UploadCall.Named plain held b k u := by
  refine ⟨hplain, fun t h => ?_⟩
  rcases hx with rfl | rfl
  · rw [hheld] at h
    cases h
  · exact Option.some.inj (h.symm.trans hheld)

theorem upload_ids_bound_one :
    (∀ pre v post, (uploadMachine ErasureStore.trio topRoot).visits
        (withBucket "docs".toList) storeUploads = pre ++ v :: post →
      (storeDesk 3).Honoured (uploadMachine ErasureStore.trio topRoot) (.error .noSuchUpload)
        pre v) ∧
    ∀ pre v post, (FsStore.uploadMachine FsStore.plainStore []).visits .empty fsUploads =
        pre ++ v :: post →
      FsStore.storeDesk.Honoured (FsStore.uploadMachine FsStore.plainStore [])
        (.error .noSuchUpload) pre v := by
  obtain ⟨hstore, hfs⟩ := upload_ids_bound ErasureStore.trio topRoot (withBucket "docs".toList)
    storeUploads FsStore.plainStore [] .empty fsUploads
  refine ⟨hstore (properCluster_withBucket _) (fun d u hu => look_withBucket hu d)
    (Machine.forall_cut fun i => ?_), hfs (fun q j h => ?_) (fun b u hb hu => ?_)
    (Machine.forall_cut fun i => ?_)⟩
  · obtain ⟨i, hi⟩ := i
    have hatom : Atom storeUpload := by decide
    rcases i with _ | _ | _ | i
    · exact ⟨by decide, fun u _ => rfl⟩
    · have hheld : (storeDesk 3).held (((uploadMachine ErasureStore.trio topRoot).visits
          (withBucket "docs".toList) storeUploads).take 1) storeUpload =
            some ("docs".toList, "key".toList) := by decide +kernel
      exact named_one hatom hheld (.inr rfl)
    · have hheld : (storeDesk 3).held (((uploadMachine ErasureStore.trio topRoot).visits
          (withBucket "docs".toList) storeUploads).take 2) storeUpload = none := by
        decide +kernel
      exact named_one hatom hheld (.inl rfl)
    · exact absurd (show i + 3 < 3 from hi) (by omega)
  · by_cases hq : q = []
    · subst hq
      cases h
    · rw [look_empty _ hq] at h
      cases h
  · refine look_empty _ ?_
    rw [FsStore.resolve_uploadDir hb hu]
    simp
  · obtain ⟨i, hi⟩ := i
    have hplain : FsStore.PlainId "docs".toList fsUpload := by unfold FsStore.PlainId; decide
    rcases i with _ | _ | _ | _ | i
    · show FsStore.FsCall.Valid (.createBucket "docs".toList)
      exact ⟨fun b k h => (by cases h), fun b h => (by cases h; decide),
        fun b st h => (by cases h)⟩
    · exact ⟨by decide, fun u _ => rfl⟩
    · have hheld : FsStore.storeDesk.held (((FsStore.uploadMachine FsStore.plainStore
          []).visits .empty fsUploads).take 2) fsUpload =
            some ("docs".toList, "key".toList) := by decide +kernel
      exact named_one hplain hheld (.inr rfl)
    · have hheld : FsStore.storeDesk.held (((FsStore.uploadMachine FsStore.plainStore
          []).visits .empty fsUploads).take 3) fsUpload = none := by decide +kernel
      exact named_one hplain hheld (.inl rfl)
    · exact absurd (show i + 4 < 4 from hi) (by omega)

/-- An upload completed for another key of its bucket. -/
def otherKey : List ((Fin 3 → Bool) × UploadCall CallEnv ObjectCall) :=
  [(fun _ => true, .create (callAt 'a' 1 isHexLower_a) "docs".toList "key".toList [] [] false),
    (fun _ => true, .complete (callAt 'b' 2 isHexLower_b) "docs".toList "other".toList
      storeUpload [])]

/-- An upload, and an abort with an empty id, which names the directory of all uploads. -/
def emptyId : List (UploadCall FsEnv FsStore.FsCall) :=
  [.other (.createBucket "docs".toList),
    .create (FsStore.fsCallAt 'a' 1 isHexLower_a) "docs".toList "key".toList [] [] false,
    .abort "docs".toList "key".toList []]

/-- Both are answered as done, and the abort removes the upload. -/
theorem upload_ids_cross :
    (((uploadMachine ErasureStore.trio topRoot).visits (withBucket "docs".toList)
        otherKey).map Visit.answer = [.ok (some storeUpload), .ok none] ∧
      ¬ ∀ pre v post, (uploadMachine ErasureStore.trio topRoot).visits
          (withBucket "docs".toList) otherKey = pre ++ v :: post →
        (storeDesk 3).Honoured (uploadMachine ErasureStore.trio topRoot)
          (.error .noSuchUpload) pre v) ∧
    (((FsStore.uploadMachine FsStore.plainStore []).visits .empty emptyId).map Visit.answer =
        [.ok none, .ok (some fsUpload), .ok none] ∧
      FsStore.standing [] "docs".toList fsUpload ((FsStore.uploadMachine FsStore.plainStore
        []).final .empty emptyId) = none ∧
      ¬ ∀ pre v post, (FsStore.uploadMachine FsStore.plainStore []).visits .empty emptyId =
          pre ++ v :: post →
        FsStore.storeDesk.Honoured (FsStore.uploadMachine FsStore.plainStore [])
          (.error .noSuchUpload) pre v) := by
  refine ⟨⟨by decide +kernel, fun h => ?_⟩, by decide +kernel, by decide +kernel, fun h => ?_⟩
  · have hlast := h _ _ [] ((uploadMachine ErasureStore.trio topRoot).visits_snoc
      (withBucket "docs".toList) (otherKey.take 1) (fun _ => true, .complete (callAt 'b' 2 rfl)
        "docs".toList "other".toList storeUpload [])) storeUpload
      ("docs".toList, "other".toList) true rfl
    rcases hlast with hheld | ⟨hanswer, -⟩
    · exact absurd hheld (by decide +kernel)
    · exact absurd hanswer (by decide +kernel)
  · have hlast := h _ _ [] ((FsStore.uploadMachine FsStore.plainStore []).visits_snoc .empty
      (emptyId.take 2) (.abort "docs".toList "key".toList [])) []
      ("docs".toList, "key".toList) true rfl
    rcases hlast with hheld | ⟨hanswer, -⟩
    · exact absurd hheld (by decide +kernel)
    · exact absurd hanswer (by decide +kernel)

end Kerplace
