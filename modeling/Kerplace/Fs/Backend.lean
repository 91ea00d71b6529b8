/-
# `Kerplace.Fs.Backend` — the storage trait on the filesystem store

The calls the handlers make, each as the filesystem store makes it, with the configurations of
a bucket that are single files.  What a call may change is said once for each call: the reads
change nothing, except that reading a version writes the history of an object that has none.
-/
import Kerplace.Erasure.Config
import Kerplace.Fs.Listing
import Kerplace.Fs.Ranges
import Kerplace.Fs.UploadRuns
import Kerplace.Handlers.Trait
import Kerplace.Lib.Logs

namespace Kerplace

open Prog UnixPath

/-- The status of bucket encryption in a document. -/
def FsDoc.sse? : FsDoc → Option Str
  | .sse s => some s
  | _ => none

namespace FsStore

open ErasureStore (MANIFEST)

/-! ## Bucket configurations -/

/-- The file of a bucket's lifecycle rules. -/
def LIFECYCLE : Str := "lifecycle.json".toList

/-- Read a configuration of a bucket that exists. -/
def getBucketCfg {α : Type} (bucket file : Str) (decode : FsDoc → Option α) :
    FStore (Option α) := do
  headBucket bucket
  let doc ← onDisk (Drive.readDoc (bucketCfgFile bucket file))
  pure (doc.bind decode)

/-- Write a configuration of a bucket that exists. -/
def setBucketCfg (bucket file : Str) (doc : FsDoc) : FStore Unit := do
  headBucket bucket
  writeBucketCfg bucket file doc

/-- Delete a configuration of a bucket that exists, whether or not it is there. -/
def deleteBucketCfg (bucket file : Str) : FStore Unit := do
  headBucket bucket
  let _ ← onDisk (Drive.removeFile (bucketCfgFile bucket file))

/-- `get_bucket_encryption`. -/
def getBucketEncryption (bucket : Str) : FStore (Option Str) :=
  getBucketCfg bucket SSE FsDoc.sse?

/-- `set_bucket_encryption`. -/
def setBucketEncryption (bucket sseType : Str) : FStore Unit :=
  setBucketCfg bucket SSE (.sse sseType)

/-- `delete_bucket_encryption`. -/
def deleteBucketEncryption (bucket : Str) : FStore Unit := deleteBucketCfg bucket SSE

/-- `get_bucket_policy`. -/
def getBucketPolicy (bucket : Str) : FStore (Option Str) :=
  getBucketCfg bucket POLICY FsDoc.text?

/-- `set_bucket_policy`. -/
def setBucketPolicy (bucket policy : Str) : FStore Unit :=
  setBucketCfg bucket POLICY (.text policy)

/-- `delete_bucket_policy`. -/
def deleteBucketPolicy (bucket : Str) : FStore Unit := deleteBucketCfg bucket POLICY

/-- `get_bucket_tags`. -/
def getBucketTags (bucket : Str) : FStore (Option UserMeta) :=
  getBucketCfg bucket TAGS FsDoc.tags?

/-- `set_bucket_tags`. -/
def setBucketTags (bucket : Str) (tags : UserMeta) : FStore Unit :=
  setBucketCfg bucket TAGS (.tags tags)

/-- `delete_bucket_tags`. -/
def deleteBucketTags (bucket : Str) : FStore Unit := deleteBucketCfg bucket TAGS

/-- `get_bucket_versioning`. -/
def getBucketVersioning (bucket : Str) : FStore Str := do
  let status ← getBucketCfg bucket VERSIONING FsDoc.status?
  pure (status.getD [])

/-- `get_bucket_lifecycle`. -/
def getBucketLifecycle (bucket : Str) : FStore (Option Str) :=
  getBucketCfg bucket LIFECYCLE FsDoc.text?

/-- `set_bucket_lifecycle`. -/
def setBucketLifecycle (bucket xml : Str) : FStore Unit :=
  setBucketCfg bucket LIFECYCLE (.text xml)

/-- `delete_bucket_lifecycle`. -/
def deleteBucketLifecycle (bucket : Str) : FStore Unit := deleteBucketCfg bucket LIFECYCLE

variable (S : FsStore)

/-- The bucket of an entry of the root. -/
def bucketOf (entry : Str × Bool) : Option BucketInfo :=
  if entry.1 ≠ SYS_DIR ∧ entry.2 = true then
    some ⟨entry.1, S.modified (bucketPath entry.1)⟩
  else none

/-- `list_buckets`. -/
def listBuckets : FStore (List BucketInfo) := do
  match ← onDisk (Drive.readDir ⟨false, []⟩) with
  | none => throw (.internal "read root")
  | some entries =>
      pure ((entries.filterMap S.bucketOf).mergeSort fun a b => decide (a.name ≤ b.name))

/-! ## The trait -/

/-- The calls of the trait. -/
def call (env : FsEnv) : (c : TraitCall) → FStore c.Gives
  | .createBucket b => createBucket b
  | .deleteBucket b => deleteBucket b
  | .listBuckets => S.listBuckets
  | .headBucket b => headBucket b
  | .putObject b k body contentType userMetadata encrypt =>
      S.putObject env b k body contentType userMetadata encrypt
  | .getObject b k => S.getObject b k
  | .getObjectRange b k start end_ => S.getObjectRange b k start end_
  | .headObject b k => S.headObject b k
  | .deleteObject b k => S.deleteObject env.toCallEnv b k
  | .getObjectVersion b k vid => S.getObjectVersion env.toCallEnv b k vid
  | .headObjectVersion b k vid => S.headObjectVersion env.toCallEnv b k vid
  | .deleteObjectVersion b k vid => S.deleteObjectVersion b k vid
  | .listObjectVersions b pre delimiter keyMarker versionIdMarker maxKeys =>
      S.listObjectVersions b pre delimiter keyMarker versionIdMarker maxKeys
  | .copyObject sb sk b k encrypt => S.copyObject env sb sk b k encrypt
  | .listObjectsV2 b pre delimiter token startAfter maxKeys =>
      S.listObjectsV2 b pre delimiter token startAfter maxKeys
  | .createMultipart b k contentType userMetadata encrypt =>
      S.createMultipart env.toCallEnv b k contentType userMetadata encrypt
  | .uploadPart b _ uploadId number body => S.uploadPart env b uploadId number body
  | .completeMultipart b k uploadId parts => S.completeMultipart env b k uploadId parts
  | .abortMultipart b _ uploadId => abortMultipart b uploadId
  | .listParts b _ uploadId => listParts b uploadId
  | .getBucketEncryption b => getBucketEncryption b
  | .setBucketEncryption b sseType => setBucketEncryption b sseType
  | .deleteBucketEncryption b => deleteBucketEncryption b
  | .getBucketPolicy b => getBucketPolicy b
  | .setBucketPolicy b policy => setBucketPolicy b policy
  | .deleteBucketPolicy b => deleteBucketPolicy b
  | .getBucketTags b => getBucketTags b
  | .setBucketTags b tags => setBucketTags b tags
  | .deleteBucketTags b => deleteBucketTags b
  | .getBucketVersioning b => getBucketVersioning b
  | .setBucketVersioning b status => setBucketVersioning b status
  | .getBucketLifecycle b => getBucketLifecycle b
  | .setBucketLifecycle b xml => setBucketLifecycle b xml
  | .deleteBucketLifecycle b => deleteBucketLifecycle b
  | .getObjectTags b k => S.getObjectTags b k
  | .setObjectTags b k tags => S.setObjectTags b k tags
  | .deleteObjectTags b k => S.deleteObjectTags b k
  | .getObjectRetention b k => S.getObjectRetention b k
  | .setObjectRetention b k data => S.setObjectRetention b k data
  | .getObjectLegalHold b k => S.getObjectLegalHold b k
  | .setObjectLegalHold b k status => S.setObjectLegalHold b k status

/-- The paths that a call may write to, and below. -/
def Changes : TraitCall → UnixPath → Prop
  | .createBucket b, p => p = (bucketPath b).joinStr TMP
  | .deleteBucket b, p => p ∈ [bucketPath b, metaRoot.joinStr b, multipartRoot.joinStr b,
      bucketCfgDir b, versionsRoot.joinStr b]
  | .putObject b k _ _ _ _, p => validateKey k = .ok () ∧ KeyWrites b k p
  | .deleteObject b k, p => KeyWrites b k p
  | .getObjectVersion b k _, p => p = historyPath b k
  | .headObjectVersion b k _, p => p = historyPath b k
  | .deleteObjectVersion b k _, p => KeyWrites b k p
  | .copyObject _ _ b k _, p => validateKey k = .ok () ∧ KeyWrites b k p
  | .createMultipart b _ _ _ _, p => ∃ id : Uuid, p = (uploadDir b id.text).joinStr MANIFEST
  | .uploadPart b _ u number _, p => PartWrites b u number p
  | .completeMultipart b k u _, p => CompletionWrites b k u p
  | .abortMultipart b _ u, p => p = uploadDir b u
  | .setBucketEncryption b _, p => p = bucketCfgFile b SSE
  | .deleteBucketEncryption b, p => p = bucketCfgFile b SSE
  | .setBucketPolicy b _, p => p = bucketCfgFile b POLICY
  | .deleteBucketPolicy b, p => p = bucketCfgFile b POLICY
  | .setBucketTags b _, p => p = bucketCfgFile b TAGS
  | .deleteBucketTags b, p => p = bucketCfgFile b TAGS
  | .setBucketVersioning b _, p => p = bucketCfgFile b VERSIONING
  | .setBucketLifecycle b _, p => p = bucketCfgFile b LIFECYCLE
  | .deleteBucketLifecycle b, p => p = bucketCfgFile b LIFECYCLE
  | .setObjectTags b k _, p => KeyWrites b k p
  | .deleteObjectTags b k, p => KeyWrites b k p
  | .setObjectRetention b k _, p => KeyWrites b k p
  | .setObjectLegalHold b k _, p => KeyWrites b k p
  | _, _ => False

variable {S} {W : UnixPath → Prop} {bucket key : Str}

theorem meetsE_getBucketCfg {α : Type} {file : Str} {decode : FsDoc → Option α} :
    MeetsE (fsContract W) (getBucketCfg bucket file decode) fun _ => True :=
  meetsE_headBucket.then fun _ => (meetsE_readDoc _).then fun _ => meetsE_pure.2 trivial

theorem meetsE_setBucketCfg {file : Str} {doc : FsDoc} (hW : W (bucketCfgFile bucket file))
    (hdoc : ProperFsDoc doc) :
    MeetsE (fsContract W) (setBucketCfg bucket file doc) fun _ => True :=
  meetsE_headBucket.then fun _ => meetsE_writeDoc hW hdoc

theorem meetsE_deleteBucketCfg {file : Str} (hW : W (bucketCfgFile bucket file)) :
    MeetsE (fsContract W) (deleteBucketCfg bucket file) fun _ => True :=
  meetsE_headBucket.then fun _ => (meetsE_do (o := .removeFile _) hW).then fun _ =>
    meetsE_pure.2 trivial

theorem meetsE_listBuckets : MeetsE (fsContract W) S.listBuckets fun _ => True := by
  refine (meetsE_do (o := .readDir _) trivial).then fun entries => ?_
  split
  · exact meetsE_throw
  · exact meetsE_pure.2 trivial

theorem meetsE_removeTrees {dirs : List UnixPath} (hW : ∀ dir ∈ dirs, W dir) :
    MeetsE (fsContract W) (removeTrees dirs) fun _ => True := by
  induction dirs with
  | nil => exact meetsE_pure.2 trivial
  | cons dir dirs ih =>
      exact (meetsE_do (o := .removeDirAll dir) (hW dir List.mem_cons_self)).then fun _ =>
        ih fun d hd => hW d (List.mem_cons_of_mem _ hd)

theorem meetsE_deleteBucket (hW : ∀ p, Changes (.deleteBucket bucket) p → W p) :
    MeetsE (fsContract W) (deleteBucket bucket) fun _ => True := by
  refine (meetsE_do (o := .stat _) trivial).then fun st => ?_
  split
  · exact meetsE_throw
  · refine (meetsE_do (o := .walk _) trivial).then fun entries => ?_
    split
    · exact meetsE_throw
    · refine (meetsE_orFail (meets_do (o := .removeDirAll _) (hW _ List.mem_cons_self))).then
        fun _ => meetsE_removeTrees fun dir hdir => hW dir (List.mem_cons_of_mem _ hdir)

/-! ## Reads -/

theorem meetsE_getObject : MeetsE (fsContract W) (S.getObject bucket key) fun _ => True :=
  meetsE_readStored.then fun _ => meetsE_readPayload.then fun _ => meetsE_pure.2 trivial

theorem meetsE_getObjectRange {start : Nat} {end_ : Option Nat} :
    MeetsE (fsContract W) (S.getObjectRange bucket key start end_) fun _ => True := by
  refine meetsE_readStored.then fun m => ?_
  refine (meetsE_do (o := .read _) trivial).then fun c => ?_
  split
  · exact meetsE_throw
  dsimp only
  split
  · refine (meetsE_do (o := .read _) trivial).then fun file => ?_
    split
    · exact meetsE_throw
    · exact MeetsE.then (meetsE_ofExcept.2 fun _ _ => trivial) fun _ => meetsE_pure.2 trivial
  · exact meetsE_pure.2 trivial

theorem meetsE_getSidecar {α : Type} {suffix : Str} {decode : FsDoc → Option α} :
    MeetsE (fsContract W) (S.getSidecar bucket key suffix decode) fun _ => True :=
  meetsE_headObject.then fun _ => (meetsE_readDoc _).then fun _ => meetsE_pure.2 trivial

theorem meetsE_loadAll (keys : List Str) :
    MeetsE (fsContract W) (S.loadAll bucket keys) fun _ => True := by
  induction keys with
  | nil => exact meetsE_pure.2 trivial
  | cons key keys ih =>
      exact meetsE_headObject.then fun _ => ih.then fun _ => meetsE_pure.2 trivial

theorem meetsE_listObjectsV2 {pre : Str} {delimiter token startAfter : Option Str}
    {maxKeys : Nat} :
    MeetsE (fsContract W) (S.listObjectsV2 bucket pre delimiter token startAfter maxKeys)
      fun _ => True :=
  meetsE_headBucket.then fun _ => (meetsE_do (o := .walk _) trivial).then fun _ =>
    (meetsE_loadAll _).then fun _ => meetsE_pure.2 trivial

theorem meetsE_keyRows {versioned : Bool} :
    MeetsE (fsContract W) (S.keyRows bucket key versioned) fun _ => True := by
  unfold keyRows
  split
  · exact meetsE_history.then fun _ => meetsE_pure.2 trivial
  · exact meetsE_headObject.then fun _ => meetsE_pure.2 trivial

theorem meetsE_pageVersions {pre : Str} {delimiter keyMarker versionIdMarker : Option Str}
    {maxKeys : Nat} {versioned : List Str} (keys : List Str) :
    ∀ started acc, MeetsE (fsContract W)
      (S.pageVersions bucket pre delimiter keyMarker versionIdMarker maxKeys versioned keys
        started acc) fun _ => True := by
  induction keys with
  | nil => exact fun _ _ => meetsE_pure.2 trivial
  | cons key keys ih =>
      intro started acc
      rw [pageVersions]
      split
      · exact ih _ _
      split
      · exact ih _ _
      split
      · split
        · exact ih _ _
        split
        · exact meetsE_pure.2 trivial
        · exact ih _ _
      · refine meetsE_keyRows.then fun all => ?_
        dsimp only
        split
        · exact meetsE_pure.2 trivial
        · exact ih _ _

theorem meetsE_listObjectVersions {pre : Str} {delimiter keyMarker versionIdMarker : Option Str}
    {maxKeys : Nat} :
    MeetsE (fsContract W)
      (S.listObjectVersions bucket pre delimiter keyMarker versionIdMarker maxKeys)
      fun _ => True :=
  meetsE_headBucket.then fun _ => (meetsE_do (o := .walk _) trivial).then fun _ =>
    (meetsE_do (o := .walk _) trivial).then fun _ => meetsE_pageVersions _ _ _

theorem meetsE_seedHistory (hW : W (historyPath bucket key)) :
    MeetsE (fsContract W) (S.seedLegacyHistory bucket key) fun _ => True := by
  refine MeetsE.then (meetsE_onDisk.2 ?_) fun has => ?_
  · rw [map_eq_pure_bind]
    exact Meets.then (meets_do (o := .stat _) trivial) fun _ => trivial
  split
  · exact meetsE_pure.2 trivial
  · refine MeetsE.then ((meetsE_outcome meetsE_readStored).mono fun _ _ => trivial) fun r => ?_
    cases r with
    | error e => exact meetsE_pure.2 trivial
    | ok m =>
        refine meetsE_writeDoc hW fun h h0 v hv => ?_
        cases h0
        rw [List.mem_singleton] at hv
        exact .inl (hv ▸ rfl)

theorem meetsE_seekVersion {vid : Str} (hW : W (historyPath bucket key)) :
    MeetsE (fsContract W) (S.findVersion bucket key vid) fun _ => True := by
  refine meetsE_headBucket.then fun _ => ?_
  refine (meetsE_seedHistory hW).then fun _ => ?_
  refine meetsE_history.then fun hist => ?_
  split
  · exact meetsE_throw
  split
  · exact meetsE_throw
  · exact meetsE_pure.2 trivial

theorem meetsE_versionStored {env : CallEnv} {vid : Str} {idx : Nat} :
    MeetsE (fsContract W) (S.versionStored env bucket key vid idx) fun _ => True := by
  unfold versionStored
  split
  · exact meetsE_readStored
  · refine (meetsE_readDoc _).then fun doc => ?_
    split
    · exact meetsE_pure.2 trivial
    · refine (meetsE_do (o := .read _) trivial).then fun c => ?_
      split
      · exact meetsE_throw
      · exact meetsE_pure.2 trivial

theorem meetsE_stageUpload {env : CallEnv} {contentType : Str} {userMetadata : UserMeta}
    {encrypt : Bool} (hW : W ((uploadDir bucket env.freshId.text).joinStr MANIFEST)) :
    MeetsE (fsContract W) (S.createMultipart env bucket key contentType userMetadata encrypt)
      fun _ => True := by
  refine meetsE_headBucket.then fun _ => ?_
  refine MeetsE.then (meetsE_ofExcept.2 fun _ _ => trivial) fun _ => ?_
  have hmanifest : Atom MANIFEST := by decide
  refine (meetsE_orFail (meets_do (o := .createDirAll _)
    ⟨_, hW, parent_joinStr_atom hmanifest⟩)).then fun _ => ?_
  refine MeetsE.then (meetsE_orFail (meets_do (o := .write _ _) ⟨hW, fun j hj => ?_⟩)) fun _ =>
    meetsE_pure.2 trivial
  cases hj
  exact fun h h0 => by cases h0

theorem meetsE_putChecked {env : FsEnv} {body : Body} {contentType : Str}
    {userMetadata : UserMeta} {encrypt : Bool}
    (hW : ∀ p, validateKey key = .ok () ∧ KeyWrites bucket key p → W p) :
    MeetsE (fsContract W) (S.putObject env bucket key body contentType userMetadata encrypt)
      fun _ => True := by
  by_cases hk : validateKey key = .ok ()
  · exact meetsE_putObject fun p hp => hW p ⟨hk, hp⟩
  · refine meetsE_headBucket.then fun _ => ?_
    exact MeetsE.bind (R := fun _ => False) (meetsE_ofExcept.2 fun _ h => hk h) fun _ h => h.elim

theorem meetsE_copyChecked {env : FsEnv} {srcBucket srcKey : Str} {encrypt : Bool}
    (hW : ∀ p, validateKey key = .ok () ∧ KeyWrites bucket key p → W p) :
    MeetsE (fsContract W) (S.copyObject env srcBucket srcKey bucket key encrypt)
      fun _ => True := by
  by_cases hk : validateKey key = .ok ()
  · exact meetsE_copyObject fun p hp => hW p ⟨hk, hp⟩
  · refine meetsE_readStored.then fun _ => meetsE_headBucket.then fun _ => ?_
    exact MeetsE.bind (R := fun _ => False) (meetsE_ofExcept.2 fun _ h => hk h) fun _ h => h.elim

/-! ## Every call -/

/-- A call changes the files it may, and stores proper documents. -/
theorem meetsE_call (env : FsEnv) (c : TraitCall) :
    MeetsE (fsContract (Changes c)) (S.call env c) fun _ => True := by
  cases c with
  | createBucket b =>
      exact meetsE_createBucket ⟨_, rfl, parent_joinStr_atom (by decide)⟩
  | deleteBucket b => exact meetsE_deleteBucket fun _ h => h
  | listBuckets => exact meetsE_listBuckets
  | headBucket b => exact meetsE_headBucket
  | putObject b k body contentType userMetadata encrypt => exact meetsE_putChecked fun _ h => h
  | getObject b k => exact meetsE_getObject
  | getObjectRange b k start end_ => exact meetsE_getObjectRange
  | headObject b k => exact meetsE_headObject
  | deleteObject b k => exact meetsE_deleteObject fun _ h => h
  | getObjectVersion b k vid =>
      have hseek : MeetsE (fsContract (Changes (.getObjectVersion b k vid)))
        (S.findVersion b k vid) fun _ => True := meetsE_seekVersion rfl
      refine hseek.then fun _ => meetsE_versionStored.then fun m => ?_
      exact MeetsE.then meetsE_readPayload fun _ => meetsE_pure.2 trivial
  | headObjectVersion b k vid =>
      have hseek : MeetsE (fsContract (Changes (.headObjectVersion b k vid)))
        (S.findVersion b k vid) fun _ => True := meetsE_seekVersion rfl
      exact hseek.then fun _ => meetsE_versionStored.then fun _ => meetsE_pure.2 trivial
  | deleteObjectVersion b k vid => exact meetsE_deleteObjectVersion fun _ h => h
  | listObjectVersions b pre delimiter keyMarker versionIdMarker maxKeys =>
      exact meetsE_listObjectVersions
  | copyObject sb sk b k encrypt => exact meetsE_copyChecked fun _ h => h
  | listObjectsV2 b pre delimiter token startAfter maxKeys => exact meetsE_listObjectsV2
  | createMultipart b k contentType userMetadata encrypt => exact meetsE_stageUpload ⟨_, rfl⟩
  | uploadPart b k u number body => exact meetsE_uploadPart
  | completeMultipart b k u parts => exact meetsE_completeMultipart
  | abortMultipart b k u => exact meetsE_abortMultipart
  | listParts b k u => exact meetsE_listParts
  | getBucketEncryption b => exact meetsE_getBucketCfg
  | setBucketEncryption b sseType => exact meetsE_setBucketCfg rfl fun h h0 => by cases h0
  | deleteBucketEncryption b => exact meetsE_deleteBucketCfg rfl
  | getBucketPolicy b => exact meetsE_getBucketCfg
  | setBucketPolicy b policy => exact meetsE_setBucketCfg rfl fun h h0 => by cases h0
  | deleteBucketPolicy b => exact meetsE_deleteBucketCfg rfl
  | getBucketTags b => exact meetsE_getBucketCfg
  | setBucketTags b tags => exact meetsE_setBucketCfg rfl fun h h0 => by cases h0
  | deleteBucketTags b => exact meetsE_deleteBucketCfg rfl
  | getBucketVersioning b => exact meetsE_getBucketCfg.then fun _ => meetsE_pure.2 trivial
  | setBucketVersioning b status => exact meetsE_setBucketVersioning rfl
  | getBucketLifecycle b => exact meetsE_getBucketCfg
  | setBucketLifecycle b xml => exact meetsE_setBucketCfg rfl fun h h0 => by cases h0
  | deleteBucketLifecycle b => exact meetsE_deleteBucketCfg rfl
  | getObjectTags b k => exact meetsE_getSidecar
  | setObjectTags b k tags =>
      exact meetsE_setSidecar (fun _ h => h) (by decide) fun h h0 => by cases h0
  | deleteObjectTags b k => exact meetsE_deleteObjectTags fun _ h => h
  | getObjectRetention b k => exact meetsE_getSidecar
  | setObjectRetention b k data =>
      exact meetsE_setSidecar (fun _ h => h) (by decide) fun h h0 => by cases h0
  | getObjectLegalHold b k => exact meetsE_getSidecar
  | setObjectLegalHold b k status =>
      exact meetsE_setSidecar (fun _ h => h) (by decide) fun h h0 => by cases h0

/-! ## The trees of a bucket -/

/-- The directories that are a bucket's own. -/
def trees (bucket : Str) : List (List Str) :=
  [[bucket], [SYS_DIR, META, bucket], [SYS_DIR, MULTIPART, bucket], [SYS_DIR, BUCKETS, bucket],
    [SYS_DIR, VERSIONS, bucket]]

/-- A path lies in a bucket. -/
def InBucket (root : List Str) (bucket : Str) (q : List Str) : Prop :=
  ∃ tree ∈ trees bucket, root ++ tree <+: q

/-- The names a call gives without a check are such as the validators accept: the key, and the
upload's id is one component. -/
def Tame : TraitCall → Prop
  | .deleteObject _ k => validateKey k = .ok ()
  | .getObjectVersion _ k _ => validateKey k = .ok ()
  | .headObjectVersion _ k _ => validateKey k = .ok ()
  | .deleteObjectVersion _ k _ => validateKey k = .ok ()
  | .uploadPart _ _ u _ _ => Atom u
  | .completeMultipart _ k u _ => validateKey k = .ok () ∧ Atom u
  | .abortMultipart _ _ u => Atom u
  | .setObjectTags _ k _ => validateKey k = .ok ()
  | .deleteObjectTags _ k => validateKey k = .ok ()
  | .setObjectRetention _ k _ => validateKey k = .ok ()
  | .setObjectLegalHold _ k _ => validateKey k = .ok ()
  | _ => True

theorem inBucket_of_eq {root : List Str} {p : UnixPath} (tree rest : List Str)
    (htree : tree ∈ trees bucket) (h : p.resolve root = root ++ tree ++ rest) :
    InBucket root bucket (p.resolve root) := ⟨tree, htree, h ▸ List.prefix_append _ _⟩

theorem home_of_key (hb : validateBucketName bucket = .ok ()) (hk : validateKey key = .ok ())
    {root : List Str} {p : UnixPath} (hp : KeyWrites bucket key p) :
    InBucket root bucket (p.resolve root) ∨ ∃ id : Uuid, p = tmpFile id := by
  rcases hp with ⟨kind, hkind, rfl⟩ | htmp
  · refine .inl (inBucket_of_eq (treeOf bucket kind) _ ?_
      (resolve_keyPath (validateBucketName_atom hb) hk hkind root))
    cases kind <;> simp [treeOf, trees]
  · exact .inr htmp

theorem home_of_upload (hb : validateBucketName bucket = .ok ()) {u x : Str} (hu : Atom u)
    (hx : Atom x) (root : List Str) :
    InBucket root bucket (((uploadDir bucket u).joinStr x).resolve root) := by
  refine inBucket_of_eq [SYS_DIR, MULTIPART, bucket] [u, x] (by simp [trees]) ?_
  rw [resolve_joinStr_atom hx, resolve_uploadDir (validateBucketName_atom hb) hu]
  simp

theorem home_of_cfg (hb : validateBucketName bucket = .ok ()) {file : Str} (hf : Atom file)
    (root : List Str) : InBucket root bucket ((bucketCfgFile bucket file).resolve root) := by
  refine inBucket_of_eq [SYS_DIR, BUCKETS, bucket] [file] (by simp [trees]) ?_
  rw [bucketCfgFile, bucketCfgDir, resolve_joinStr_atom hf,
    resolve_joinStr_atom (validateBucketName_atom hb), resolve_joinStr_atom (by decide),
    resolve_ofStr atom_sysDir.descends, atom_sysDir.compsOf]
  simp

/-- What a tame call on a bucket may change lies in the bucket, or is a temporary file. -/
theorem changes_home {root : List Str} {c : TraitCall} {p : UnixPath}
    (hb : validateBucketName bucket = .ok ()) (hc : c.bucket = some bucket) (htame : Tame c)
    (hp : Changes c p) : InBucket root bucket (p.resolve root) ∨ ∃ id : Uuid, p = tmpFile id := by
  have hatom := validateBucketName_atom hb
  have hparts {u : Str} {number : Nat} (hu : Atom u) (hp : PartWrites bucket u number p) :
      InBucket root bucket (p.resolve root) ∨ ∃ id : Uuid, p = tmpFile id := by
    rcases hp with htmp | rfl | rfl
    · exact .inr htmp
    · exact .inl (home_of_upload hb hu (atom_partFile number) root)
    · exact .inl (home_of_upload hb hu (atom_partMetaFile number) root)
  have hdir {u : Str} (hu : Atom u) (hp : p = uploadDir bucket u) :
      InBucket root bucket (p.resolve root) := by
    subst hp
    exact inBucket_of_eq [SYS_DIR, MULTIPART, bucket] [u] (by simp [trees])
      ((resolve_uploadDir hatom hu root).trans (by simp))
  have hcfg {file : Str} (hf : Atom file) (hp : p = bucketCfgFile bucket file) :
      InBucket root bucket (p.resolve root) := hp ▸ home_of_cfg hb hf root
  have hhistory {k : Str} (hk : validateKey k = .ok ()) (hp : p = historyPath bucket k) :
      InBucket root bucket (p.resolve root) ∨ ∃ id : Uuid, p = tmpFile id :=
    home_of_key hb hk (.inl ⟨.history, trivial, hp⟩)
  cases c with
  | listBuckets => cases hc
  | createBucket b =>
      obtain rfl := Option.some.inj hc
      obtain rfl : p = (bucketPath b).joinStr TMP := hp
      refine .inl (inBucket_of_eq [b] [TMP] (by simp [trees]) ?_)
      rw [resolve_joinStr_atom (by decide), resolve_bucketPath hatom]
  | deleteBucket b =>
      obtain rfl := Option.some.inj hc
      have hp : p ∈ [bucketPath b, metaRoot.joinStr b, multipartRoot.joinStr b,
        bucketCfgDir b, versionsRoot.joinStr b] := hp
      have hsys (x : Str) (hx : Atom x) : (((ofStr SYS_DIR).joinStr x).joinStr b).resolve root =
          root ++ [SYS_DIR, x, b] ++ [] := by
        rw [resolve_joinStr_atom hatom, resolve_joinStr_atom hx,
          resolve_ofStr atom_sysDir.descends, atom_sysDir.compsOf]
        simp
      simp only [List.mem_cons, List.not_mem_nil, or_false] at hp
      rcases hp with rfl | rfl | rfl | rfl | rfl
      · refine .inl (inBucket_of_eq [b] [] (by simp [trees]) ?_)
        rw [resolve_bucketPath hatom, List.append_nil]
      · exact .inl (inBucket_of_eq _ _ (by simp [trees]) (hsys META (by decide)))
      · exact .inl (inBucket_of_eq _ _ (by simp [trees]) (hsys MULTIPART (by decide)))
      · exact .inl (inBucket_of_eq _ _ (by simp [trees]) (hsys BUCKETS (by decide)))
      · exact .inl (inBucket_of_eq _ _ (by simp [trees]) (hsys VERSIONS (by decide)))
  | putObject b k body contentType userMetadata encrypt =>
      obtain rfl := Option.some.inj hc
      exact home_of_key hb hp.1 hp.2
  | copyObject sb sk b k encrypt =>
      obtain rfl := Option.some.inj hc
      exact home_of_key hb hp.1 hp.2
  | deleteObject b k =>
      obtain rfl := Option.some.inj hc
      exact home_of_key hb htame hp
  | getObjectVersion b k vid =>
      obtain rfl := Option.some.inj hc
      exact hhistory htame hp
  | headObjectVersion b k vid =>
      obtain rfl := Option.some.inj hc
      exact hhistory htame hp
  | deleteObjectVersion b k vid =>
      obtain rfl := Option.some.inj hc
      exact home_of_key hb htame hp
  | createMultipart b k contentType userMetadata encrypt =>
      obtain rfl := Option.some.inj hc
      obtain ⟨id, rfl⟩ := hp
      have hmanifest : Atom MANIFEST := by decide
      exact .inl (home_of_upload hb id.atom hmanifest root)
  | uploadPart b k u number body =>
      obtain rfl := Option.some.inj hc
      exact hparts htame hp
  | completeMultipart b k u parts =>
      obtain rfl := Option.some.inj hc
      rcases hp with hp | hp
      · exact home_of_key hb htame.1 hp
      · exact .inl (hdir htame.2 hp)
  | abortMultipart b k u =>
      obtain rfl := Option.some.inj hc
      exact .inl (hdir htame hp)
  | setBucketEncryption b sseType =>
      obtain rfl := Option.some.inj hc
      exact .inl (hcfg (by decide) hp)
  | deleteBucketEncryption b =>
      obtain rfl := Option.some.inj hc
      exact .inl (hcfg (by decide) hp)
  | setBucketPolicy b policy =>
      obtain rfl := Option.some.inj hc
      exact .inl (hcfg (by decide) hp)
  | deleteBucketPolicy b =>
      obtain rfl := Option.some.inj hc
      exact .inl (hcfg (by decide) hp)
  | setBucketTags b tags =>
      obtain rfl := Option.some.inj hc
      exact .inl (hcfg (by decide) hp)
  | deleteBucketTags b =>
      obtain rfl := Option.some.inj hc
      exact .inl (hcfg (by decide) hp)
  | setBucketVersioning b status =>
      obtain rfl := Option.some.inj hc
      exact .inl (hcfg (by decide) hp)
  | setBucketLifecycle b xml =>
      obtain rfl := Option.some.inj hc
      exact .inl (hcfg (by decide) hp)
  | deleteBucketLifecycle b =>
      obtain rfl := Option.some.inj hc
      exact .inl (hcfg (by decide) hp)
  | setObjectTags b k tags =>
      obtain rfl := Option.some.inj hc
      exact home_of_key hb htame hp
  | deleteObjectTags b k =>
      obtain rfl := Option.some.inj hc
      exact home_of_key hb htame hp
  | setObjectRetention b k data =>
      obtain rfl := Option.some.inj hc
      exact home_of_key hb htame hp
  | setObjectLegalHold b k status =>
      obtain rfl := Option.some.inj hc
      exact home_of_key hb htame hp
  | _ => exact hp.elim

/-- A path in one bucket is above no path in another, and neither is a temporary file. -/
theorem apart_of_home {root q : List Str} {p : UnixPath} {bucket' : Str}
    (hb : validateBucketName bucket = .ok ()) (hb' : validateBucketName bucket' = .ok ())
    (hne : bucket ≠ bucket')
    (hp : InBucket root bucket (p.resolve root) ∨ ∃ id : Uuid, p = tmpFile id)
    (hq : InBucket root bucket' q) : ¬ p.resolve root <+: q := by
  have hsys : bucket ≠ SYS_DIR := ne_sysDir hb
  have hsys' : bucket' ≠ SYS_DIR := ne_sysDir hb'
  have htrees : META ≠ MULTIPART ∧ META ≠ BUCKETS ∧ META ≠ VERSIONS ∧ MULTIPART ≠ BUCKETS ∧
      MULTIPART ≠ VERSIONS ∧ BUCKETS ≠ VERSIONS ∧ TMP ≠ META ∧ TMP ≠ MULTIPART ∧ TMP ≠ BUCKETS ∧
      TMP ≠ VERSIONS := by decide
  obtain ⟨tree', htree', hq⟩ := hq
  intro hpre
  rcases hp with ⟨tree, htree, hp⟩ | ⟨id, rfl⟩
  · -- Both trees are above `q`.
    rcases List.prefix_or_prefix_of_prefix (hp.trans hpre) hq with h | h
    all_goals
      rw [List.prefix_append_right_inj] at h
      simp only [trees, List.mem_cons, List.not_mem_nil, or_false] at htree htree'
      rcases htree with rfl | rfl | rfl | rfl | rfl <;>
        rcases htree' with rfl | rfl | rfl | rfl | rfl <;>
        simp_all [hsys.symm, hsys'.symm, hne.symm]
  · rw [resolve_tmpFile] at hpre
    rcases List.prefix_or_prefix_of_prefix hpre hq with h | h
    all_goals
      rw [List.prefix_append_right_inj] at h
      simp only [trees, List.mem_cons, List.not_mem_nil, or_false] at htree'
      rcases htree' with rfl | rfl | rfl | rfl | rfl <;>
        simp_all [hsys'.symm]

/-! ## Behind the handlers -/

/-- The store behind the trait: its files, and how many calls it took. -/
def backend (S : FsStore) (root : List Str) (envs : Nat → FsEnv) (c : TraitCall)
    (s : Tree FsDoc × Nat) : c.Ans × (Tree FsDoc × Nat) :=
  let r := runE (LocalDrive.step root) (S.call (envs s.2) c) s.1
  (r.1, r.2, s.2 + 1)

theorem step_files {root : List Str} {envs : Nat → FsEnv} (c : TraitCall) {s : Tree FsDoc × Nat}
    (hs : DocsIn ProperFsDoc s.1) :
    DocsIn ProperFsDoc (S.backend root envs c s).2.1 ∧
      ∀ q, (∀ p, Changes c p → ¬ p.resolve root <+: q) →
        (S.backend root envs c s).2.1.file? q = s.1.file? q :=
  LocalDrive.run_writes (meetsE_call (envs s.2) c) hs

theorem exec_files {root : List Str} {envs : Nat → FsEnv} {α : Type} (p : Api α)
    (s : Tree FsDoc × Nat) (hs : DocsIn ProperFsDoc s.1) :
    DocsIn ProperFsDoc (Prog.exec (S.backend root envs) p s).2.1 ∧
      ∀ q, (∀ e ∈ Prog.log (S.backend root envs) p s, ∀ f, Changes e.1 f →
        ¬ f.resolve root <+: q) →
        (Prog.exec (S.backend root envs) p s).2.1.file? q = s.1.file? q := by
  induction p generalizing s with
  | ret a => exact ⟨hs, fun _ _ => rfl⟩
  | call c k ih =>
      obtain ⟨hmid, hsame⟩ := step_files c hs
      obtain ⟨hdocs, hfiles⟩ := ih _ (S.backend root envs c s).2 hmid
      refine ⟨hdocs, fun q hq => (hfiles q fun e he => ?_).trans (hsame q ?_)⟩
      · exact hq e (List.mem_cons_of_mem _ he)
      · exact hq _ List.mem_cons_self

end FsStore

end Kerplace
