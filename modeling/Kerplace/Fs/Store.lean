/-
# `Kerplace.Fs.Store` — the object operations of the filesystem store

The store's calls, as programs over one directory tree.  A result the source throws away
is thrown away here.  Locks are left out: within one call they change nothing.
-/
import Kerplace.Fs.Layout
import Kerplace.Erasure.Store

namespace Kerplace

/-- Store calls of a filesystem store. -/
abbrev FStore (α : Type) := ExceptT S3Error (Prog (DriveOp FsDoc) DriveOp.Ans) α

namespace FsStore

variable (S : FsStore)

/-- File operations, as part of a call. -/
def onDisk {α : Type} (p : DriveProg FsDoc α) : FStore α := ExceptT.lift p

/-- Fail with `e` unless `p` succeeds. -/
def orFail (e : S3Error) (p : DriveProg FsDoc Bool) : FStore Unit := do
  if ← onDisk p then pure () else throw e

/-- A call's result as a value, so that what follows happens either way. -/
def outcome {α : Type} (p : FStore α) : FStore (Except S3Error α) := ExceptT.lift p.run

/-! ## Files -/

/-- `create_dir_all` of a path's parent. -/
def mkParent (p : UnixPath) : DriveProg FsDoc Bool :=
  match p.parent with
  | some dir => Drive.createDirAll dir
  | none => pure true

/-- A document written to its path, with its directory. -/
def writeDoc (mkdirErr writeErr : S3Error) (p : UnixPath) (doc : FsDoc) : FStore Unit := do
  orFail mkdirErr (mkParent p)
  orFail writeErr (Drive.write p (.doc doc))

/-- `stream_to_temp`: the ETag and the length of what was written. -/
def streamToTemp (env : CallEnv) (tmp : UnixPath) (body : Body) (needMd5 : Bool) :
    FStore (Str × Nat) := do
  orFail (.internal "create temp") (Drive.create tmp)
  orFail (.internal "write temp") (Drive.append tmp body.data)
  orFail (.internal "read body") (pure !body.err)
  orFail (.internal "flush temp") (Drive.shutdown tmp)
  pure (if needMd5 then hexEncode (S.md5 body.data) else env.opaqueEtag.text,
    body.data.length)

/-- `move_into_place`. -/
def moveIntoPlace (tmp dest : UnixPath) : FStore Unit := do
  orFail (.internal "mkdir") (mkParent dest)
  orFail (.internal "rename") (Drive.rename tmp dest)

/-- `prune_empty_dirs`. -/
def pruneEmptyDirs (dir stop : UnixPath) : FStore Unit :=
  onDisk (Drive.pruneEmpty stop (dir.comps.length + 1) dir)

/-- `FsStore::new`: the directories every call relies on. -/
def new : FStore Unit := do
  orFail (.internal "init") (Drive.createDirAll tmpDir)
  orFail (.internal "init") (Drive.createDirAll metaRoot)
  orFail (.internal "init") (Drive.createDirAll multipartRoot)

/-! ## Buckets and their configurations -/

/-- `head_bucket`. -/
def headBucket (bucket : Str) : FStore Unit :=
  orFail .noSuchBucket do
    let st ← Drive.stat (bucketPath bucket)
    pure (st.any DriveStat.isDir)

/-- `create_bucket`. -/
def createBucket (bucket : Str) : FStore Unit := do
  MonadExcept.ofExcept (validateBucketName bucket)
  let st ← onDisk (Drive.stat (bucketPath bucket))
  if st.isSome then throw .bucketAlreadyOwnedByYou
  else orFail (.internal "create bucket") (Drive.createDirAll (bucketPath bucket))

/-- Remove directories with all they hold, whether or not they are there. -/
def removeTrees : List UnixPath → FStore Unit
  | [] => pure ()
  | dir :: dirs => do
      let _ ← onDisk (Drive.removeDirAll dir)
      removeTrees dirs

/-- `delete_bucket`: a bucket with a file below its directory is not empty. -/
def deleteBucket (bucket : Str) : FStore Unit := do
  match ← onDisk (Drive.stat (bucketPath bucket)) with
  | none => throw .noSuchBucket
  | some st => do
      let entries ← onDisk (Drive.walk (bucketPath bucket))
      if !st.isDir || (entries.getD []).any Prod.snd then throw .bucketNotEmpty
      else do
        orFail (.internal "remove bucket") (Drive.removeDirAll (bucketPath bucket))
        removeTrees [metaRoot.joinStr bucket, multipartRoot.joinStr bucket,
          bucketCfgDir bucket, versionsRoot.joinStr bucket]

/-- `write_bucket_cfg`. -/
def writeBucketCfg (bucket file : Str) (doc : FsDoc) : FStore Unit :=
  writeDoc (.internal "mkdir bucket cfg") (.internal "write bucket cfg")
    (bucketCfgFile bucket file) doc

/-- `set_bucket_versioning`. -/
def setBucketVersioning (bucket status : Str) : FStore Unit := do
  headBucket bucket
  writeBucketCfg bucket VERSIONING (.status status)

/-- `versioning_mode`. -/
def versioningMode (bucket : Str) : FStore VMode := do
  let doc ← onDisk (Drive.readDoc (bucketCfgFile bucket VERSIONING))
  let status := (doc.bind FsDoc.status?).getD []
  pure (if status = "Enabled".toList then .enabled
    else if status = "Suspended".toList then .suspended
    else .off)

/-! ## Metadata -/

/-- `write_meta`. -/
def writeMeta (bucket key : Str) (m : StoredMeta) : FStore Unit :=
  writeDoc (.internal "mkdir meta") (.internal "write meta") (metaPath bucket key) (.stored m)

/-- What the store makes of a payload without metadata. -/
def reconstructed (size : Nat) (modified : Int) (versionId : Option Str) : StoredMeta :=
  ⟨[], size, "application/octet-stream".toList, [], modified, false, versionId⟩

/-- `read_stored`. -/
def readStored (bucket key : Str) : FStore StoredMeta := do
  match ← onDisk (Drive.read (objectPath bucket key)) with
  | none => throw .noSuchKey
  | some payload => do
      let doc ← onDisk (Drive.readDoc (metaPath bucket key))
      match doc.bind FsDoc.stored? with
      | some m => pure m
      | none =>
          pure (reconstructed (S.fileLen payload) (S.modified (objectPath bucket key)) none)

/-- `stored_to_meta`. -/
def storedToMeta (key : Str) (m : StoredMeta) : ObjectMeta :=
  ⟨key, m.size, m.etag, stampOf m.lastModified, m.contentType, m.userMetadata, m.encrypted,
    m.versionId, none⟩

/-- `load_meta`, `head_object`. -/
def headObject (bucket key : Str) : FStore ObjectMeta := do
  let m ← S.readStored bucket key
  pure (storedToMeta key m)

/-! ## Version bookkeeping -/

/-- `read_history`. -/
def readHistory (bucket key : Str) : FStore VersionHistory := do
  let doc ← onDisk (Drive.readDoc (historyPath bucket key))
  pure ((doc.bind FsDoc.history?).getD ⟨[]⟩)

/-- `write_history`. -/
def writeHistory (bucket key : Str) (h : VersionHistory) : FStore Unit :=
  writeDoc (.internal "mkdir versions") (.internal "write history") (historyPath bucket key)
    (.history h)

/-- `has_history`. -/
def hasHistory (bucket key : Str) : FStore Bool :=
  onDisk (Option.isSome <$> Drive.stat (historyPath bucket key))

/-- `"null"`. -/
def NULL : Str := ErasureStore.NULL

/-- The entry that stands for a current object without a history. -/
def legacyEntry (m : StoredMeta) : VersionEntry :=
  ⟨NULL, false, m.lastModified, m.etag, m.size⟩

/-- `seed_legacy_history`. -/
def seedLegacyHistory (bucket key : Str) : FStore Unit := do
  if ← hasHistory bucket key then pure ()
  else
    match ← outcome (S.readStored bucket key) with
    | .ok m => writeHistory bucket key ⟨[legacyEntry m]⟩
    | .error _ => pure ()

/-- `demote_canonical_to_archive`. -/
def demoteCanonical (bucket key vid : Str) : FStore Unit := do
  orFail (.internal "mkdir archive") (mkParent (versionDataPath bucket key vid))
  orFail (.internal "archive payload")
    (Drive.rename (objectPath bucket key) (versionDataPath bucket key vid))
  let _ ← onDisk (Drive.rename (metaPath bucket key) (versionMetaPath bucket key vid))

/-- `promote_archive_to_canonical`. -/
def promoteArchive (bucket key vid : Str) : FStore Unit := do
  orFail (.internal "mkdir bucket") (mkParent (objectPath bucket key))
  orFail (.internal "promote payload")
    (Drive.rename (versionDataPath bucket key vid) (objectPath bucket key))
  let _ ← onDisk (Drive.rename (versionMetaPath bucket key vid) (metaPath bucket key))

/-- `discard_canonical`. -/
def discardCanonical (bucket key : Str) : FStore Unit := do
  let _ ← onDisk (Drive.removeFile (objectPath bucket key))
  let _ ← onDisk (Drive.removeFile (metaPath bucket key))

/-- `remove_archive`. -/
def removeArchive (bucket key vid : Str) : FStore Unit := do
  let _ ← onDisk (Drive.removeFile (versionDataPath bucket key vid))
  let _ ← onDisk (Drive.removeFile (versionMetaPath bucket key vid))

/-- Whether the newest entry stands at the current slot. -/
def canonicalOccupied (h : VersionHistory) : Bool :=
  (h.versions.head?.map fun v => !v.deleteMarker).getD false

/-- Under `Suspended`, drop a prior `"null"` version from the history and from where it is
stored; the flag says whether the current slot is still taken. -/
def purgeNull (bucket key : Str) (mode : VMode) (hist : VersionHistory) :
    FStore (VersionHistory × Bool) := do
  let occupied := canonicalOccupied hist
  if mode ≠ .suspended then pure (hist, occupied)
  else
    match hist.versions.findIdx? (fun v => v.versionId = NULL) with
    | none => pure (hist, occupied)
    | some idx => do
        let isMarker := (hist.versions[idx]?.map VersionEntry.deleteMarker).getD false
        let rest : VersionHistory := ⟨hist.versions.eraseIdx idx⟩
        if idx = 0 && occupied then
          discardCanonical bucket key
          pure (rest, false)
        else if !isMarker then
          removeArchive bucket key NULL
          pure (rest, occupied)
        else pure (rest, occupied)

/-- Make room for a new newest entry: purge a prior `"null"`, then archive what is at the
current slot under its id. -/
def makeRoom (bucket key : Str) (mode : VMode) (hist : VersionHistory) :
    FStore VersionHistory := do
  let (hist, occupied) ← purgeNull bucket key mode hist
  match occupied, hist.versions with
  | true, v :: _ => do
      demoteCanonical bucket key v.versionId
      pure hist
  | _, _ => pure hist

/-- The id of a version written under a versioned mode. -/
def newVersionId (env : CallEnv) : VMode → Str
  | .suspended => NULL
  | _ => env.freshId.text

/-- `begin_versioned_write`. -/
def beginVersionedWrite (env : CallEnv) (bucket key : Str) (mode : VMode) :
    FStore (Str × VersionHistory) := do
  S.seedLegacyHistory bucket key
  let hist ← readHistory bucket key
  let hist ← makeRoom bucket key mode hist
  pure (newVersionId env mode, hist)

/-- `finish_versioned_write`. -/
def finishVersionedWrite (bucket key : Str) (hist : VersionHistory) (vid etag : Str)
    (size : Nat) (lastModified : Int) : FStore Unit :=
  writeHistory bucket key ⟨⟨vid, false, lastModified, etag, size⟩ :: hist.versions⟩

/-- `read_version_stored`. -/
def readVersionStored (env : CallEnv) (bucket key vid : Str) : FStore StoredMeta := do
  let doc ← onDisk (Drive.readDoc (versionMetaPath bucket key vid))
  match doc.bind FsDoc.stored? with
  | some m => pure m
  | none =>
      match ← onDisk (Drive.read (versionDataPath bucket key vid)) with
      | none => throw .noSuchVersion
      | some payload => pure (reconstructed (S.fileLen payload) env.now (some vid))

/-! ## Objects -/

/-- The source of a write: the body, encrypted if it is to be. -/
def writeSource (env : CallEnv) (body : Body) (encrypted : Bool) : FStore Body :=
  if encrypted then
    match S.crypto.encryptingReader env body with
    | some src => pure src
    | none => throw (.internal "encrypt object")
  else pure body

/-- The logical size of a stored payload. -/
def logicalSize (encrypted : Bool) (stored : Nat) : Nat :=
  if encrypted then plaintextLen stored S.crypto.headerLen else stored

/-- The version a write begins in a versioned bucket; none in another. -/
def beginWrite (env : CallEnv) (bucket key : Str) (mode : VMode) :
    FStore (Option (Str × VersionHistory)) :=
  if mode = .off then pure none
  else some <$> S.beginVersionedWrite env bucket key mode

/-- Record the version a write began. -/
def finishWrite (bucket key : Str) (pending : Option (Str × VersionHistory)) (etag : Str)
    (size : Nat) (lastModified : Int) : FStore Unit :=
  match pending with
  | some (vid, hist) => finishVersionedWrite bucket key hist vid etag size lastModified
  | none => pure ()

/-- From a staged payload to the current object: archive the prior current version if the
bucket is versioned, move the payload into place, write its metadata, run `cleanup`, and
record the version last. -/
def install (env : CallEnv) (bucket key : Str) (tmp : UnixPath) (etag : Str) (size : Nat)
    (contentType : Str) (userMetadata : UserMeta) (encrypted : Bool)
    (cleanup : DriveProg FsDoc Unit) : FStore ObjectMeta := do
  let mode ← versioningMode bucket
  let pending ← S.beginWrite env bucket key mode
  moveIntoPlace tmp (objectPath bucket key)
  let stored : StoredMeta :=
    ⟨etag, size, contentType, userMetadata, env.now, encrypted, pending.map Prod.fst⟩
  writeMeta bucket key stored
  onDisk cleanup
  finishWrite bucket key pending etag size env.now
  pure (storedToMeta key stored)

/-- `put_object`. -/
def putObject (env : FsEnv) (bucket key : Str) (body : Body) (contentType : Str)
    (userMetadata : UserMeta) (encrypt : Bool) : FStore ObjectMeta := do
  headBucket bucket
  MonadExcept.ofExcept (validateKey key)
  let encrypted := S.shouldEncrypt encrypt
  let src ← S.writeSource env.toCallEnv body encrypted
  let (etag, stored) ← S.streamToTemp env.toCallEnv (tmpFile env.tmpId) src (!encrypted)
  S.install env.toCallEnv bucket key (tmpFile env.tmpId) etag (S.logicalSize encrypted stored)
    contentType userMetadata encrypted (pure ())

/-- The plaintext of a payload; `none` when its key cannot be had. -/
def plainBytes (encrypted : Bool) (raw : Bytes) : Option Bytes :=
  if encrypted then S.crypto.decryptingReader raw else some raw

/-- The bytes of the payload at a path, read to its end and decrypted if they are encrypted. -/
def readPayload (p : UnixPath) (missing decryptErr : S3Error) (encrypted : Bool) :
    FStore Bytes := do
  match ← onDisk (Drive.read p) with
  | none => throw missing
  | some c =>
      match S.plainBytes encrypted (c.bytes?.getD []) with
      | some plain => pure plain
      | none => throw decryptErr

/-- `get_object`, the body read to its end. -/
def getObject (bucket key : Str) : FStore (ObjectMeta × Bytes) := do
  let m ← S.readStored bucket key
  let body ← S.readPayload (objectPath bucket key) .noSuchKey (.internal "decrypt object")
    m.encrypted
  pure (storedToMeta key m, body)

/-- Where a version is in its key's history. -/
def findVersion (bucket key versionId : Str) : FStore Nat := do
  headBucket bucket
  S.seedLegacyHistory bucket key
  let hist ← readHistory bucket key
  match hist.versions.findIdx? (fun v => v.versionId = versionId) with
  | none => throw .noSuchVersion
  | some idx =>
      if (hist.versions[idx]?.map VersionEntry.deleteMarker).getD false then
        throw .methodNotAllowed
      else pure idx

/-- The metadata of the version at `idx`: of the current object for the newest. -/
def versionStored (env : CallEnv) (bucket key versionId : Str) (idx : Nat) :
    FStore StoredMeta :=
  if idx = 0 then S.readStored bucket key else S.readVersionStored env bucket key versionId

/-- `get_object_version`, the body read to its end. -/
def getObjectVersion (env : CallEnv) (bucket key versionId : Str) :
    FStore (ObjectMeta × Bytes) := do
  let idx ← S.findVersion bucket key versionId
  let m ← S.versionStored env bucket key versionId idx
  let path := if idx = 0 then objectPath bucket key else versionDataPath bucket key versionId
  let body ← S.readPayload path .noSuchVersion (.internal "decrypt object") m.encrypted
  pure ({ storedToMeta key m with versionId := some versionId }, body)

/-- `head_object_version`. -/
def headObjectVersion (env : CallEnv) (bucket key versionId : Str) : FStore ObjectMeta := do
  let idx ← S.findVersion bucket key versionId
  let m ← S.versionStored env bucket key versionId idx
  pure { storedToMeta key m with versionId := some versionId }

/-- The sidecars of an object. -/
def SIDECARS : List Str := [TAGS, RETENTION, LEGALHOLD]

/-- Remove the sidecars of an object. -/
def removeSidecars (bucket key : Str) : List Str → FStore Unit
  | [] => pure ()
  | suffix :: suffixes => do
      let _ ← onDisk (Drive.removeFile (objectSidecar bucket key suffix))
      removeSidecars bucket key suffixes

/-- `prune_empty_dirs` from a path's parent. -/
def pruneParent (p stop : UnixPath) : FStore Unit :=
  match p.parent with
  | some dir => pruneEmptyDirs dir stop
  | none => pure ()

/-- `delete_object`. -/
def deleteObject (env : CallEnv) (bucket key : Str) : FStore DeleteOutcome := do
  headBucket bucket
  let mode ← versioningMode bucket
  if mode ≠ .off then
    S.seedLegacyHistory bucket key
    let hist ← readHistory bucket key
    let hist ← makeRoom bucket key mode hist
    writeHistory bucket key ⟨⟨newVersionId env mode, true, env.now, [], 0⟩ :: hist.versions⟩
    pure ⟨some (newVersionId env mode), true⟩
  else
    let _ ← onDisk (Drive.removeFile (objectPath bucket key))
    let _ ← onDisk (Drive.removeFile (metaPath bucket key))
    removeSidecars bucket key SIDECARS
    pruneParent (objectPath bucket key) (bucketPath bucket)
    pruneParent (metaPath bucket key) (metaRoot.joinStr bucket)
    pure ⟨none, false⟩

/-- When the newest entry went, bring the next one to the current slot. -/
def promoteNext (bucket key : Str) : Nat → List VersionEntry → FStore Unit
  | 0, next :: _ =>
      if next.deleteMarker then pure () else promoteArchive bucket key next.versionId
  | _, _ => pure ()

/-- Remove what is stored of the entry at `idx`. -/
def dropStored (bucket key versionId : Str) (idx : Nat) (marker : Bool) : FStore Unit :=
  if marker then pure ()
  else if idx = 0 then discardCanonical bucket key
  else removeArchive bucket key versionId

/-- Keep what is left of a history, or remove its file with its last entry. -/
def settleHistory (bucket key : Str) (rest : List VersionEntry) : FStore Unit :=
  if rest.isEmpty then do
    let _ ← onDisk (Drive.removeFile (historyPath bucket key))
    pruneEmptyDirs (versionDir bucket key) versionsRoot
  else writeHistory bucket key ⟨rest⟩

/-- `delete_object_version`. -/
def deleteObjectVersion (bucket key versionId : Str) : FStore DeleteOutcome := do
  headBucket bucket
  S.seedLegacyHistory bucket key
  let hist ← readHistory bucket key
  match hist.versions.findIdx? (fun v => v.versionId = versionId) with
  | none => throw .noSuchVersion
  | some idx => do
      let marker := (hist.versions[idx]?.map VersionEntry.deleteMarker).getD false
      dropStored bucket key versionId idx marker
      let rest := hist.versions.eraseIdx idx
      promoteNext bucket key idx rest
      settleHistory bucket key rest
      pure ⟨some versionId, marker⟩

/-- `copy_object`. -/
def copyObject (env : FsEnv) (srcBucket srcKey dstBucket dstKey : Str) (encrypt : Bool) :
    FStore ObjectMeta := do
  let src ← S.readStored srcBucket srcKey
  headBucket dstBucket
  MonadExcept.ofExcept (validateKey dstKey)
  let plain ← S.readPayload (objectPath srcBucket srcKey) .noSuchKey (.internal "decrypt source")
    src.encrypted
  let encrypted := S.shouldEncrypt encrypt
  let toWrite ← S.writeSource env.toCallEnv (.ofBytes plain) encrypted
  let (etag, stored) ← S.streamToTemp env.toCallEnv (tmpFile env.tmpId) toWrite (!encrypted)
  S.install env.toCallEnv dstBucket dstKey (tmpFile env.tmpId) etag
    (S.logicalSize encrypted stored) src.contentType src.userMetadata encrypted (pure ())

/-! ## Per-object sidecars -/

/-- Read a sidecar of an existing object. -/
def getSidecar {α : Type} (bucket key suffix : Str) (decode : FsDoc → Option α) :
    FStore (Option α) := do
  let _ ← S.headObject bucket key
  let doc ← onDisk (Drive.readDoc (objectSidecar bucket key suffix))
  pure (doc.bind decode)

/-- Write a sidecar of an existing object. -/
def setSidecar (bucket key suffix : Str) (doc : FsDoc) : FStore Unit := do
  let _ ← S.headObject bucket key
  writeDoc (.internal "mkdir sidecar") (.internal "write sidecar")
    (objectSidecar bucket key suffix) doc

/-- `get_object_tags`. -/
def getObjectTags (bucket key : Str) : FStore (Option UserMeta) :=
  S.getSidecar bucket key TAGS FsDoc.tags?

/-- `set_object_tags`. -/
def setObjectTags (bucket key : Str) (tags : UserMeta) : FStore Unit :=
  S.setSidecar bucket key TAGS (.tags tags)

/-- `delete_object_tags`. -/
def deleteObjectTags (bucket key : Str) : FStore Unit := do
  let _ ← S.headObject bucket key
  let _ ← onDisk (Drive.removeFile (objectSidecar bucket key TAGS))

/-- `get_object_retention`. -/
def getObjectRetention (bucket key : Str) : FStore (Option Str) :=
  S.getSidecar bucket key RETENTION FsDoc.text?

/-- `set_object_retention`. -/
def setObjectRetention (bucket key data : Str) : FStore Unit :=
  S.setSidecar bucket key RETENTION (.text data)

/-- `get_object_legal_hold`. -/
def getObjectLegalHold (bucket key : Str) : FStore (Option Str) :=
  S.getSidecar bucket key LEGALHOLD FsDoc.status?

/-- `set_object_legal_hold`. -/
def setObjectLegalHold (bucket key status : Str) : FStore Unit :=
  S.setSidecar bucket key LEGALHOLD (.status status)

end FsStore

end Kerplace
