/-
# `Kerplace.Fs.Calls` — which files the object calls of the filesystem store change

A call on a key changes the key's own files and temporary files, and no others; and it
stores no history with an id the server did not mint.  That holds whatever the disk
answers, as long as the histories it holds are such.
-/
import Kerplace.Fs.Store
import Kerplace.Erasure.Calls

namespace Kerplace

open Prog

/-- A history with minted ids only. -/
def ProperVersions (h : VersionHistory) : Prop := ∀ v ∈ h.versions, ProperId v.versionId

/-- A document that, if it is a history, is a proper one. -/
def ProperFsDoc (j : FsDoc) : Prop := ∀ h, j = .history h → ProperVersions h

namespace FsStore

/-- The kinds of files of a key. -/
inductive FileKind where
  | payload
  | metadata
  | sidecar (suffix : Str)
  | history
  | archivedData (vid : Str)
  | archivedMeta (vid : Str)
  deriving DecidableEq

/-- The kinds there are: the three sidecars, and archives of minted ids. -/
def FileKind.Proper : FileKind → Prop
  | sidecar suffix => suffix ∈ SIDECARS
  | archivedData vid => ProperId vid
  | archivedMeta vid => ProperId vid
  | _ => True

/-- The map from a key and a kind of file to a path. -/
def keyPath (bucket key : Str) : FileKind → UnixPath
  | .payload => objectPath bucket key
  | .metadata => metaPath bucket key
  | .sidecar suffix => objectSidecar bucket key suffix
  | .history => historyPath bucket key
  | .archivedData vid => versionDataPath bucket key vid
  | .archivedMeta vid => versionMetaPath bucket key vid

/-- The files of a key. -/
def KeyFile (bucket key : Str) (p : UnixPath) : Prop :=
  ∃ k : FileKind, k.Proper ∧ p = keyPath bucket key k

/-- The files a call on a key may change. -/
def KeyWrites (bucket key : Str) (p : UnixPath) : Prop :=
  KeyFile bucket key p ∨ ∃ id, p = tmpFile id

/-- The contract of calls that change the files of `W`. -/
abbrev fsContract (W : UnixPath → Prop) : Contract (DriveOp FsDoc) DriveOp.Ans :=
  treeContract W ProperFsDoc

section

variable {S : FsStore} {W : UnixPath → Prop} {bucket key : Str}

/-! ## Single operations -/

theorem meets_do {o : DriveOp FsDoc} (ho : o.Writes W ProperFsDoc) :
    Meets (fsContract W) (Prog.op o) fun _ => True := ⟨ho, fun _ _ => trivial⟩

theorem meetsE_onDisk {α : Type} {p : DriveProg FsDoc α} {Q : α → Prop} :
    MeetsE (fsContract W) (onDisk p) Q ↔ Meets (fsContract W) p Q := meetsE_lift

theorem meetsE_do {o : DriveOp FsDoc} (ho : o.Writes W ProperFsDoc) :
    MeetsE (fsContract W) (onDisk (Prog.op o)) fun _ => True := meetsE_onDisk.2 (meets_do ho)

theorem meetsE_orFail {e : S3Error} {p : DriveProg FsDoc Bool}
    (hp : Meets (fsContract W) p fun _ => True) :
    MeetsE (fsContract W) (orFail e p) fun _ => True := by
  refine (meetsE_onDisk.2 hp).then fun ok => ?_
  split
  · exact meetsE_pure.2 trivial
  · exact meetsE_throw

theorem meetsE_outcome {α : Type} {p : FStore α} {Q : α → Prop}
    (hp : MeetsE (fsContract W) p Q) :
    MeetsE (fsContract W) (outcome p) fun r => ∀ a, r = .ok a → Q a := meetsE_lift.2 hp

theorem meets_readDoc (rel : UnixPath) :
    Meets (fsContract W) (Drive.readDoc rel) fun r => ∀ j, r = some j → ProperFsDoc j := by
  refine ⟨trivial, fun a ha j hj => ha j ?_⟩
  cases a with
  | none => cases hj
  | some c =>
      cases c with
      | raw b => cases hj
      | doc j' => rw [Option.some.inj hj]

theorem meetsE_readDoc (rel : UnixPath) :
    MeetsE (fsContract W) (onDisk (Drive.readDoc rel)) fun _ => True :=
  meetsE_onDisk.2 ((meets_readDoc rel).mono fun _ _ => trivial)

/-! ## Files -/

theorem meets_mkParent {p : UnixPath} (hp : W p) :
    Meets (fsContract W) (mkParent p) fun _ => True := by
  unfold mkParent
  split
  · rename_i dir hdir
    exact meets_do (o := .createDirAll dir) ⟨p, hp, hdir⟩
  · trivial

theorem meetsE_writeDoc {mkdirErr writeErr : S3Error} {p : UnixPath} {doc : FsDoc} (hp : W p)
    (hdoc : ProperFsDoc doc) :
    MeetsE (fsContract W) (writeDoc mkdirErr writeErr p doc) fun _ => True := by
  refine (meetsE_orFail (meets_mkParent hp)).then fun _ => meetsE_orFail ?_
  refine meets_do (o := .write p (.doc doc)) ⟨hp, fun j hj => ?_⟩
  cases hj
  exact hdoc

theorem meetsE_streamToTemp {env : CallEnv} {tmp : UnixPath} {body : Body} {needMd5 : Bool}
    (htmp : W tmp) :
    MeetsE (fsContract W) (S.streamToTemp env tmp body needMd5) fun _ => True := by
  refine (meetsE_orFail (meets_do (o := .create tmp) htmp)).then fun _ => ?_
  refine (meetsE_orFail (meets_do (o := .append tmp _) htmp)).then fun _ => ?_
  refine (meetsE_orFail (p := pure !body.err) trivial).then fun _ => ?_
  refine (meetsE_orFail (meets_do (o := .shutdown tmp) trivial)).then fun _ => ?_
  exact meetsE_pure.2 trivial

theorem meetsE_moveIntoPlace {tmp dest : UnixPath} (htmp : W tmp) (hdest : W dest) :
    MeetsE (fsContract W) (moveIntoPlace tmp dest) fun _ => True :=
  (meetsE_orFail (meets_mkParent hdest)).then fun _ =>
    meetsE_orFail (meets_do (o := .rename tmp dest) ⟨htmp, hdest⟩)

theorem meets_pruneEmpty (stop : UnixPath) :
    ∀ (rounds : Nat) (rel : UnixPath),
      Meets (fsContract W) (Drive.pruneEmpty stop rounds rel) fun _ => True := by
  intro rounds
  induction rounds with
  | zero => exact fun _ => trivial
  | succ rounds ih =>
      intro rel
      rw [Drive.pruneEmpty]
      split
      · refine Meets.then (meets_do (o := .removeDir rel) trivial) fun ok => ?_
        split
        · split
          · exact ih _
          · trivial
        · trivial
      · trivial

theorem meetsE_pruneEmptyDirs (dir stop : UnixPath) :
    MeetsE (fsContract W) (pruneEmptyDirs dir stop) fun _ => True :=
  meetsE_onDisk.2 (meets_pruneEmpty stop _ dir)

theorem meetsE_pruneParent (p stop : UnixPath) :
    MeetsE (fsContract W) (pruneParent p stop) fun _ => True := by
  unfold pruneParent
  split
  · exact meetsE_pruneEmptyDirs _ _
  · exact meetsE_pure.2 trivial

/-- The path of a directory below which a file may be written. -/
def DirOf (W : UnixPath → Prop) (dir : UnixPath) : Prop := ∃ p, W p ∧ p.parent = some dir

theorem meetsE_new (h : ∀ dir ∈ [tmpDir, metaRoot, multipartRoot], DirOf W dir) :
    MeetsE (fsContract W) new fun _ => True := by
  refine (meetsE_orFail (meets_do (o := .createDirAll _) (h _ (by simp)))).then fun _ => ?_
  refine (meetsE_orFail (meets_do (o := .createDirAll _) (h _ (by simp)))).then fun _ => ?_
  exact meetsE_orFail (meets_do (o := .createDirAll _) (h _ (by simp)))

/-! ## Buckets -/

theorem meetsE_headBucket : MeetsE (fsContract W) (headBucket bucket) fun _ => True :=
  meetsE_orFail (Meets.then (meets_do (o := .stat _) trivial) fun _ => trivial)

theorem meetsE_versioningMode :
    MeetsE (fsContract W) (versioningMode bucket) fun _ => True :=
  (meetsE_readDoc _).then fun _ => meetsE_pure.2 trivial

theorem meetsE_createBucket (h : DirOf W (bucketPath bucket)) :
    MeetsE (fsContract W) (createBucket bucket) fun _ => True := by
  refine MeetsE.then (meetsE_ofExcept.2 fun _ _ => trivial) fun _ => ?_
  refine (meetsE_do (o := .stat _) trivial).then fun st => ?_
  split
  · exact meetsE_throw
  · exact meetsE_orFail (meets_do (o := .createDirAll _) h)

theorem meetsE_setBucketVersioning {status : Str}
    (hW : W (bucketCfgFile bucket VERSIONING)) :
    MeetsE (fsContract W) (setBucketVersioning bucket status) fun _ => True :=
  meetsE_headBucket.then fun _ => meetsE_writeDoc hW fun _ h => by cases h

/-! ## Metadata and histories -/

theorem meetsE_readStored : MeetsE (fsContract W) (S.readStored bucket key) fun _ => True := by
  refine (meetsE_do (o := .read _) trivial).then fun payload => ?_
  split
  · exact meetsE_throw
  · refine (meetsE_readDoc _).then fun doc => ?_
    split <;> exact meetsE_pure.2 trivial

theorem meetsE_headObject : MeetsE (fsContract W) (S.headObject bucket key) fun _ => True :=
  meetsE_readStored.then fun _ => meetsE_pure.2 trivial

theorem meetsE_history :
    MeetsE (fsContract W) (readHistory bucket key) fun _ => True :=
  (meetsE_readDoc _).then fun _ => meetsE_pure.2 trivial

theorem meetsE_readHistory :
    MeetsE (fsContract W) (readHistory bucket key) ProperVersions := by
  refine (meetsE_onDisk.2 (meets_readDoc _)).bind fun doc hdoc => meetsE_pure.2 ?_
  cases doc with
  | none => exact fun _ h => absurd h List.not_mem_nil
  | some j =>
      cases j with
      | history h => exact hdoc _ rfl h rfl
      | _ => exact fun _ h => absurd h List.not_mem_nil

variable (hW : ∀ p, KeyWrites bucket key p → W p)
include hW

theorem writes_key {k : FileKind} (hk : k.Proper) : W (keyPath bucket key k) :=
  hW _ (.inl ⟨k, hk, rfl⟩)

theorem meetsE_writeHistory {h : VersionHistory} (hh : ProperVersions h) :
    MeetsE (fsContract W) (writeHistory bucket key h) fun _ => True :=
  meetsE_writeDoc (writes_key hW (k := .history) trivial) fun h' h0 => by
    cases h0
    exact hh

theorem meetsE_writeMeta {m : StoredMeta} :
    MeetsE (fsContract W) (writeMeta bucket key m) fun _ => True :=
  meetsE_writeDoc (writes_key hW (k := .metadata) trivial) fun _ h0 => by cases h0

theorem meetsE_seed : MeetsE (fsContract W) (S.seedLegacyHistory bucket key) fun _ => True := by
  refine MeetsE.then (meetsE_onDisk.2 ?_) fun has => ?_
  · rw [map_eq_pure_bind]
    exact Meets.then (meets_do (o := .stat _) trivial) fun _ => trivial
  · split
    · exact meetsE_pure.2 trivial
    · refine MeetsE.then ((meetsE_outcome meetsE_readStored).mono fun _ _ => trivial) fun r => ?_
      cases r with
      | error e => exact meetsE_pure.2 trivial
      | ok m =>
          refine meetsE_writeHistory hW fun v hv => ?_
          rw [List.mem_singleton] at hv
          exact .inl (hv ▸ rfl)

/-! ## Versions -/

theorem meetsE_demote {vid : Str} (hv : ProperId vid) :
    MeetsE (fsContract W) (demoteCanonical bucket key vid) fun _ => True := by
  have hdata := writes_key hW (k := .archivedData vid) hv
  have hmeta := writes_key hW (k := .archivedMeta vid) hv
  refine (meetsE_orFail (meets_mkParent hdata)).then fun _ => ?_
  refine (meetsE_orFail (meets_do (o := .rename _ _)
    ⟨writes_key hW (k := .payload) trivial, hdata⟩)).then fun _ => ?_
  exact (meetsE_do (o := .rename _ _) ⟨writes_key hW (k := .metadata) trivial, hmeta⟩).then
    fun _ => meetsE_pure.2 trivial

theorem meetsE_promote {vid : Str} (hv : ProperId vid) :
    MeetsE (fsContract W) (promoteArchive bucket key vid) fun _ => True := by
  have hdata := writes_key hW (k := .archivedData vid) hv
  have hmeta := writes_key hW (k := .archivedMeta vid) hv
  refine (meetsE_orFail (meets_mkParent (writes_key hW (k := .payload) trivial))).then
    fun _ => ?_
  refine (meetsE_orFail (meets_do (o := .rename _ _)
    ⟨hdata, writes_key hW (k := .payload) trivial⟩)).then fun _ => ?_
  exact (meetsE_do (o := .rename _ _) ⟨hmeta, writes_key hW (k := .metadata) trivial⟩).then
    fun _ => meetsE_pure.2 trivial

theorem meetsE_discard : MeetsE (fsContract W) (discardCanonical bucket key) fun _ => True := by
  refine (meetsE_do (o := .removeFile _) (writes_key hW (k := .payload) trivial)).then
    fun _ => ?_
  exact (meetsE_do (o := .removeFile _) (writes_key hW (k := .metadata) trivial)).then
    fun _ => meetsE_pure.2 trivial

theorem meetsE_removeArchive {vid : Str} (hv : ProperId vid) :
    MeetsE (fsContract W) (removeArchive bucket key vid) fun _ => True := by
  refine (meetsE_do (o := .removeFile _) (writes_key hW (k := .archivedData vid) hv)).then
    fun _ => ?_
  exact (meetsE_do (o := .removeFile _) (writes_key hW (k := .archivedMeta vid) hv)).then
    fun _ => meetsE_pure.2 trivial

omit hW in
theorem properVersions_eraseIdx {h : VersionHistory} (hh : ProperVersions h) (idx : Nat) :
    ProperVersions ⟨h.versions.eraseIdx idx⟩ :=
  fun v hv => hh v (List.mem_of_mem_eraseIdx hv)

theorem meetsE_purgeNull {mode : VMode} {hist : VersionHistory} (hh : ProperVersions hist) :
    MeetsE (fsContract W) (purgeNull bucket key mode hist) fun r => ProperVersions r.1 := by
  unfold purgeNull
  dsimp only
  split
  · exact meetsE_pure.2 hh
  · split
    · exact meetsE_pure.2 hh
    · have hrest := fun idx => properVersions_eraseIdx hh idx
      split
      · exact (meetsE_discard hW).then fun _ => meetsE_pure.2 (hrest _)
      · split
        · exact (meetsE_removeArchive hW (.inl rfl)).then fun _ => meetsE_pure.2 (hrest _)
        · exact meetsE_pure.2 (hrest _)

theorem meetsE_makeRoom {mode : VMode} {hist : VersionHistory} (hh : ProperVersions hist) :
    MeetsE (fsContract W) (makeRoom bucket key mode hist) ProperVersions := by
  unfold makeRoom
  refine (meetsE_purgeNull hW hh).bind fun r hr => ?_
  obtain ⟨h, occupied⟩ := r
  dsimp only
  split
  · rename_i v vs hvs
    refine (meetsE_demote hW (hr v ?_)).then fun _ => meetsE_pure.2 hr
    rw [hvs]
    exact List.mem_cons_self
  · exact meetsE_pure.2 hr

omit hW in
theorem properId_new (env : CallEnv) (mode : VMode) : ProperId (newVersionId env mode) := by
  cases mode with
  | suspended => exact .inl rfl
  | enabled => exact .inr ⟨_, rfl⟩
  | off => exact .inr ⟨_, rfl⟩

theorem meetsE_begin {env : CallEnv} {mode : VMode} :
    MeetsE (fsContract W) (S.beginVersionedWrite env bucket key mode)
      (fun r => ProperId r.1 ∧ ProperVersions r.2) := by
  refine (meetsE_seed hW).then fun _ => ?_
  refine meetsE_readHistory.bind fun hist hh => ?_
  exact (meetsE_makeRoom hW hh).bind fun h hh' => meetsE_pure.2 ⟨properId_new env mode, hh'⟩

theorem meetsE_finish {hist : VersionHistory} {vid etag : Str} {size : Nat} {now : Int}
    (hh : ProperVersions hist) (hv : ProperId vid) :
    MeetsE (fsContract W) (finishVersionedWrite bucket key hist vid etag size now)
      fun _ => True := by
  refine meetsE_writeHistory hW fun v hmem => ?_
  rcases List.mem_cons.1 hmem with rfl | hmem
  · exact hv
  · exact hh v hmem

theorem meetsE_beginWrite {env : CallEnv} {mode : VMode} :
    MeetsE (fsContract W) (S.beginWrite env bucket key mode)
      (fun pending => ∀ r, pending = some r → ProperId r.1 ∧ ProperVersions r.2) := by
  unfold beginWrite
  split
  · exact meetsE_pure.2 fun _ h => by cases h
  · rw [map_eq_pure_bind]
    refine (meetsE_begin hW).bind fun r hr => meetsE_pure.2 fun r' h => ?_
    cases h
    exact hr

/-! ## The calls -/

theorem meetsE_install {env : CallEnv} {tmp : UnixPath} {etag : Str} {size : Nat}
    {contentType : Str} {userMetadata : UserMeta} {encrypted : Bool}
    {cleanup : DriveProg FsDoc Unit} (htmp : W tmp)
    (hclean : Meets (fsContract W) cleanup fun _ => True) :
    MeetsE (fsContract W) (S.install env bucket key tmp etag size contentType userMetadata
      encrypted cleanup) fun _ => True := by
  refine meetsE_versioningMode.then fun mode => ?_
  refine (meetsE_beginWrite hW).bind fun pending hp => ?_
  refine (meetsE_moveIntoPlace htmp (writes_key hW (k := .payload) trivial)).then fun _ => ?_
  refine (meetsE_writeMeta hW).then fun _ => ?_
  refine (meetsE_onDisk.2 hclean).then fun _ => ?_
  refine MeetsE.then ?_ fun _ => meetsE_pure.2 trivial
  cases pending with
  | none => exact meetsE_pure.2 trivial
  | some r => exact meetsE_finish hW (hp r rfl).2 (hp r rfl).1

omit hW in
theorem meetsE_writeSource {env : CallEnv} {body : Body} {encrypted : Bool} :
    MeetsE (fsContract W) (S.writeSource env body encrypted) fun _ => True := by
  unfold writeSource
  split
  · split
    · exact meetsE_pure.2 trivial
    · exact meetsE_throw
  · exact meetsE_pure.2 trivial

omit hW in
theorem meetsE_readPayload {p : UnixPath} {missing decryptErr : S3Error} {encrypted : Bool} :
    MeetsE (fsContract W) (S.readPayload p missing decryptErr encrypted) fun _ => True := by
  refine (meetsE_do (o := .read p) trivial).then fun c => ?_
  split
  · exact meetsE_throw
  · split
    · exact meetsE_pure.2 trivial
    · exact meetsE_throw

theorem meetsE_putObject {env : FsEnv} {body : Body} {contentType : Str}
    {userMetadata : UserMeta} {encrypt : Bool} :
    MeetsE (fsContract W) (S.putObject env bucket key body contentType userMetadata encrypt)
      fun _ => True := by
  have htmp : W (tmpFile env.tmpId) := hW _ (.inr ⟨_, rfl⟩)
  refine meetsE_headBucket.then fun _ => ?_
  refine MeetsE.then (meetsE_ofExcept.2 fun _ _ => trivial) fun _ => ?_
  refine meetsE_writeSource.then fun src => ?_
  exact (meetsE_streamToTemp htmp).then fun r => meetsE_install hW htmp trivial

theorem meetsE_copyObject {env : FsEnv} {srcBucket srcKey : Str} {encrypt : Bool} :
    MeetsE (fsContract W) (S.copyObject env srcBucket srcKey bucket key encrypt)
      fun _ => True := by
  have htmp : W (tmpFile env.tmpId) := hW _ (.inr ⟨_, rfl⟩)
  refine meetsE_readStored.then fun src => ?_
  refine meetsE_headBucket.then fun _ => ?_
  refine MeetsE.then (meetsE_ofExcept.2 fun _ _ => trivial) fun _ => ?_
  refine meetsE_readPayload.then fun plain => ?_
  refine meetsE_writeSource.then fun src => ?_
  exact (meetsE_streamToTemp htmp).then fun r => meetsE_install hW htmp trivial

theorem meetsE_removeSidecars {suffixes : List Str} (hs : ∀ s ∈ suffixes, s ∈ SIDECARS) :
    MeetsE (fsContract W) (removeSidecars bucket key suffixes) fun _ => True := by
  induction suffixes with
  | nil => exact meetsE_pure.2 trivial
  | cons s suffixes ih =>
      refine (meetsE_do (o := .removeFile _) (writes_key hW (k := .sidecar s)
        (hs s List.mem_cons_self))).then fun _ => ?_
      exact ih fun s' hs' => hs s' (List.mem_cons_of_mem _ hs')

theorem meetsE_deleteObject {env : CallEnv} :
    MeetsE (fsContract W) (S.deleteObject env bucket key) fun _ => True := by
  refine meetsE_headBucket.then fun _ => ?_
  refine meetsE_versioningMode.then fun mode => ?_
  split
  · refine (meetsE_seed hW).then fun _ => ?_
    refine meetsE_readHistory.bind fun hist hh => ?_
    refine (meetsE_makeRoom hW hh).bind fun h hh' => ?_
    refine (meetsE_writeHistory hW fun v hmem => ?_).then fun _ => meetsE_pure.2 trivial
    rcases List.mem_cons.1 hmem with rfl | hmem
    · exact properId_new env mode
    · exact hh' v hmem
  · refine (meetsE_do (o := .removeFile _) (writes_key hW (k := .payload) trivial)).then
      fun _ => ?_
    refine (meetsE_do (o := .removeFile _) (writes_key hW (k := .metadata) trivial)).then
      fun _ => ?_
    refine (meetsE_removeSidecars hW fun _ h => h).then fun _ => ?_
    refine (meetsE_pruneParent _ _).then fun _ => ?_
    exact (meetsE_pruneParent _ _).then fun _ => meetsE_pure.2 trivial

theorem meetsE_promoteNext {idx : Nat} {rest : List VersionEntry}
    (hrest : ∀ v ∈ rest, ProperId v.versionId) :
    MeetsE (fsContract W) (promoteNext bucket key idx rest) fun _ => True := by
  unfold promoteNext
  split
  · split
    · exact meetsE_pure.2 trivial
    · exact meetsE_promote hW (hrest _ List.mem_cons_self)
  · exact meetsE_pure.2 trivial

theorem meetsE_dropStored {vid : Str} {idx : Nat} {marker : Bool} (hv : ProperId vid) :
    MeetsE (fsContract W) (dropStored bucket key vid idx marker) fun _ => True := by
  unfold dropStored
  split
  · exact meetsE_pure.2 trivial
  · split
    · exact meetsE_discard hW
    · exact meetsE_removeArchive hW hv

theorem meetsE_settleHistory {rest : List VersionEntry}
    (hrest : ∀ v ∈ rest, ProperId v.versionId) :
    MeetsE (fsContract W) (settleHistory bucket key rest) fun _ => True := by
  unfold settleHistory
  split
  · refine (meetsE_do (o := .removeFile _) (writes_key hW (k := .history) trivial)).then
      fun _ => ?_
    exact meetsE_pruneEmptyDirs _ _
  · exact meetsE_writeHistory hW hrest

theorem meetsE_deleteObjectVersion {vid : Str} :
    MeetsE (fsContract W) (S.deleteObjectVersion bucket key vid) fun _ => True := by
  refine meetsE_headBucket.then fun _ => ?_
  refine (meetsE_seed hW).then fun _ => ?_
  refine meetsE_readHistory.bind fun hist hh => ?_
  split
  · exact meetsE_throw
  · rename_i idx hidx
    have hvid : ProperId vid := by
      obtain ⟨hlt, heq, -⟩ := List.findIdx?_eq_some_iff_getElem.1 hidx
      have := hh _ (List.getElem_mem hlt)
      rwa [of_decide_eq_true heq] at this
    have hrest := properVersions_eraseIdx hh idx
    refine (meetsE_dropStored hW hvid).then fun _ => ?_
    refine (meetsE_promoteNext hW hrest).then fun _ => ?_
    exact (meetsE_settleHistory hW hrest).then fun _ => meetsE_pure.2 trivial

theorem meetsE_setSidecar {suffix : Str} {doc : FsDoc} (hs : suffix ∈ SIDECARS)
    (hdoc : ProperFsDoc doc) :
    MeetsE (fsContract W) (S.setSidecar bucket key suffix doc) fun _ => True :=
  meetsE_headObject.then fun _ =>
    meetsE_writeDoc (writes_key hW (k := .sidecar suffix) hs) hdoc

theorem meetsE_deleteObjectTags :
    MeetsE (fsContract W) (S.deleteObjectTags bucket key) fun _ => True := by
  refine meetsE_headObject.then fun _ => ?_
  exact (meetsE_do (o := .removeFile _)
    (writes_key hW (k := .sidecar TAGS) (show TAGS ∈ SIDECARS by decide))).then
    fun _ => meetsE_pure.2 trivial

theorem meetsE_findVersion {vid : Str} :
    MeetsE (fsContract W) (S.findVersion bucket key vid) fun _ => True := by
  refine meetsE_headBucket.then fun _ => ?_
  refine (meetsE_seed hW).then fun _ => ?_
  refine meetsE_history.then fun hist => ?_
  split
  · exact meetsE_throw
  · split
    · exact meetsE_throw
    · exact meetsE_pure.2 trivial

end

end FsStore

end Kerplace
