/-
# `Kerplace.Erasure.Store` — the object operations of the erasure store

The store's calls, as programs over its drives: replicated metadata, the
sharded write, reconstruction, the version bookkeeping, and the object,
bucket and configuration operations built from them.  A loop of the source
over all drives is one `eachDrive`, a loop that returns at the first success
one `anyDrive`; results the source throws away are thrown away here.
-/
import Kerplace.Erasure.Layout

namespace Kerplace

namespace ErasureStore

variable {n : Nat} (S : ErasureStore n)

/-! ## Replicated metadata -/

/-- `meta_read_any`. -/
def metaReadAny (rel : UnixPath) : EStore n (Option (Content Doc)) :=
  anyDrive fun _ => Drive.read rel

/-- `meta_write_all`. -/
def metaWriteAll (rel : UnixPath) (doc : Doc) : EStore n Unit := do
  let ok ← eachDrive fun _ => do
    match rel.parent with
    | some p => let _ ← Drive.createDirAll p
    | none => pure ()
    Drive.write rel (.doc doc)
  if tally ok = 0 then throw (.internal "metadata write: no drive reachable")

/-- `meta_del_all`. -/
def metaDelAll (rel : UnixPath) : EStore n Unit := do
  let _ ← eachDrive fun _ => Drive.removeFile rel

/-- `meta_stat_any`. -/
def metaStatAny (rel : UnixPath) : EStore n Bool := do
  let hit ← anyDrive fun _ => Drive.stat rel
  pure hit.isSome

/-- A document read through `meta_read_any` and decoded. -/
def readCfg {α : Type} (rel : UnixPath) (decode : Doc → Option α) : EStore n (Option α) := do
  let c ← metaReadAny rel
  pure ((c.bind Content.doc?).bind decode)

/-- `read_xl_v`: the metadata of the first drive that has a valid copy. -/
def readXlV (bucket key : Str) (vid : Option Str) : EStore n XlMeta := do
  let hit ← anyDrive fun _ => do
    let doc ← Drive.readDoc ((rObjV bucket key vid).joinStr XL_META)
    pure (doc.bind Doc.xl?)
  match hit with
  | some m => pure m
  | none => throw .noSuchKey

/-- `read_xl`. -/
def readXl (bucket key : Str) : EStore n XlMeta := readXlV bucket key none

/-- `meta_to_object`. -/
def metaToObject (key : Str) (m : XlMeta) : ObjectMeta where
  key := key
  size := m.size
  etag := m.etag
  lastModified := stampOf m.lastModified
  contentType := m.contentType
  userMetadata := m.userMetadata
  encrypted := m.encrypted
  versionId := none
  audit := VersionAudit.orNone ⟨m.owner, m.srcIp⟩

/-! ## Reading shards -/

/-- The lengths of an object's blocks. -/
def blockLens (stored blockSize : Nat) : List Nat :=
  let nblocks := if stored = 0 then 1 else (stored + blockSize - 1) / blockSize
  (List.range nblocks).map fun b =>
    if stored = 0 then 0
    else if b = nblocks - 1 then stored - b * blockSize
    else blockSize

/-- A shard of block `b` on drive `d`, if it can be read and its checksum is
the recorded one. -/
def readShard (partRel : UnixPath) (checksums : List (List Str)) (b offset slen : Nat)
    (d : Fin n) : DriveProg Doc (Option Bytes) := do
  let buf ← Drive.readAt partRel offset slen
  pure (buf.filter fun x =>
    (checksums[d.val]?).bind (fun sums => sums[b]?) = some (S.checksum x))

/-- `reconstruct_into` from block `b` at `offset` on: the bytes written before
the first block that cannot be rebuilt. -/
def reconstructFrom (partRel : UnixPath) (codec : Codec) (checksums : List (List Str)) :
    Nat → Nat → List Nat → EStore n Bytes
  | _, _, [] => pure []
  | b, offset, len :: lens => do
      let slen := codec.shardLen len
      let shards ← eachDrive (S.readShard partRel checksums b offset slen)
      match codec.reconstructBlock (List.ofFn shards) len with
      | .ok block => do
          let rest ← reconstructFrom partRel codec checksums (b + 1) (offset + slen) lens
          pure (block ++ rest)
      | .error _ => pure []

/-- `streaming_body`, read to its end. -/
def streamingBody (bucket key : Str) (vid : Option Str) (m : XlMeta) : EStore n Bytes :=
  match Codec.new S.codec.rs m.data m.parity with
  | .error _ => throw (.internal "erasure codec")
  | .ok codec =>
      S.reconstructFrom ((rObjV bucket key vid).joinStr PART) codec m.checksums 0 0
        (blockLens m.storedSize m.blockSize)

/-! ## The sharded write -/

/-- The buffers `read_block` fills from a body, and whether a fill ended in an
error.  A body that ends is cut into blocks, one empty block if it has no
bytes; of a body that breaks off only the full blocks arrive.  A buffer of no
bytes never reads. -/
def bodyBlocks (blockSize : Nat) (body : Body) : List Bytes × Bool :=
  if blockSize = 0 then ([[]], false)
  else if body.err then
    ((chunks blockSize body.data).filter fun b => decide (b.length = blockSize), true)
  else (if body.data = [] then [[]] else chunks blockSize body.data, false)

/-- The block loop of `write_sharded`: every drive still written to gets its
shard, and every drive's checksum is recorded. -/
def writeBlocks (tmpRel : UnixPath) : List Bytes → (Fin n → Bool) → (Fin n → List Str) →
    EStore n ((Fin n → Bool) × (Fin n → List Str))
  | [], ok, sums => pure (ok, sums)
  | block :: blocks, ok, sums =>
      match S.codec.encodeBlock block with
      | .error _ => throw (.internal "erasure encode")
      | .ok shards => do
          let ok' ← eachDrive fun d =>
            if ok d then Drive.append tmpRel (shards.getD d.val []) else pure false
          writeBlocks tmpRel blocks ok' fun d => sums d ++ [S.checksum (shards.getD d.val [])]

/-- The metadata `write_sharded` records for the blocks it stored. -/
def writtenXl (env : CallEnv) (blocks : List Bytes) (checksums : Fin n → List Str)
    (contentType : Str) (userMetadata : UserMeta) (encrypted : Bool)
    (etagOverride : Option Str) : XlMeta where
  version := 1
  data := S.codec.data
  parity := S.codec.parity
  blockSize := S.blockSize
  storedSize := blocks.flatten.length
  size :=
    if encrypted then plaintextLen blocks.flatten.length S.crypto.headerLen
    else blocks.flatten.length
  etag :=
    match etagOverride with
    | some e => e
    | none =>
        if encrypted then env.opaqueEtag.text else hexEncode (S.md5 blocks.flatten)
  contentType := contentType
  userMetadata := userMetadata
  encrypted := encrypted
  lastModified := env.now
  owner := env.accessKey
  srcIp := env.remoteIp
  checksums := List.ofFn checksums

/-- The second half of `write_sharded`: publish the shard files and the metadata
on the drives still written to, and roll back below the write quorum. -/
def publishShards (bucket key : Str) (ok : Fin n → Bool) (xl : XlMeta) (audit : VersionAudit) :
    EStore n ObjectMeta := do
  let quorum := S.codec.data + 1
  let relDir := rObject bucket key
  let tmpRel := relDir.joinStr PART_TMP
  let partRel := relDir.joinStr PART
  let metaRel := relDir.joinStr XL_META
  let ok ← eachDrive fun d => if ok d then Drive.shutdown tmpRel else pure false
  let ok ← eachDrive fun d => if ok d then Drive.rename tmpRel partRel else pure false
  let ok ← eachDrive fun d =>
    if ok d then Drive.write metaRel (.doc (.xl xl)) else pure false
  if tally ok < quorum then
    let _ ← eachDrive fun _ => Drive.removeDirAll relDir
    throw (.internal "write quorum not met")
  pure
    { key := key
      size := xl.size
      etag := xl.etag
      lastModified := stampOf xl.lastModified
      contentType := xl.contentType
      userMetadata := xl.userMetadata
      encrypted := xl.encrypted
      versionId := none
      audit := audit.orNone }

/-- `write_sharded`. -/
def writeSharded (env : CallEnv) (bucket key : Str) (src : Body) (contentType : Str)
    (userMetadata : UserMeta) (encrypted : Bool) (etagOverride : Option Str) :
    EStore n ObjectMeta := do
  let relDir := rObject bucket key
  let tmpRel := relDir.joinStr PART_TMP
  let ok ← eachDrive fun _ => do
    if ← Drive.createDirAll relDir then Drive.create tmpRel else pure false
  let blocks := bodyBlocks S.blockSize src
  let (ok, checksums) ← S.writeBlocks tmpRel blocks.1 ok fun _ => []
  if blocks.2 then throw (.internal "read body")
  let xl := S.writtenXl env blocks.1 checksums contentType userMetadata encrypted
    etagOverride
  S.publishShards bucket key ok xl env.audit

/-! ## Version bookkeeping -/

/-- The rank of a versioning status, the most protective highest. -/
def statusRank (s : Str) : Nat :=
  if s = "Enabled".toList then 2 else if s = "Suspended".toList then 1 else 0

/-- `get_bucket_versioning`: the most protective status on any drive. -/
def getBucketVersioning (bucket : Str) : EStore n Str := do
  let found ← eachDrive fun _ => do
    let doc ← Drive.readDoc (rBucketCfg bucket VERSIONING)
    pure (doc.bind Doc.status?)
  pure ((List.ofFn found).foldl (fun best s? =>
    match s? with
    | some s => if statusRank s > statusRank best then s else best
    | none => best) [])

/-- `vmode`. -/
def vmode (bucket : Str) : EStore n VMode := do
  let status ← getBucketVersioning bucket
  pure (if status = "Enabled".toList then .enabled
    else if status = "Suspended".toList then .suspended
    else .off)

/-- The copy with the highest epoch, the first of several. -/
def bestHistory (found : List (Option VHistory)) : Option VHistory :=
  found.foldl (fun best h? =>
    match h?, best with
    | some h, some x => if h.epoch > x.epoch then some h else some x
    | some h, none => some h
    | none, best => best) none

/-- What `bestHistory` keeps of the best so far and the next found. -/
def newer (best h? : Option VHistory) : Option VHistory :=
  match h?, best with
  | some h, some x => if h.epoch > x.epoch then some h else some x
  | some h, none => some h
  | none, best => best

theorem bestHistory_eq_foldl (found : List (Option VHistory)) :
    bestHistory found = found.foldl newer none := rfl

/-- `read_history`. -/
def readHistory (bucket key : Str) : EStore n VHistory := do
  let found ← eachDrive fun _ => do
    let doc ← Drive.readDoc (rHistory bucket key)
    pure (doc.bind Doc.history?)
  pure ((bestHistory (List.ofFn found)).getD ⟨[], 0⟩)

/-- `write_history`. -/
def writeHistory (bucket key : Str) (h : VHistory) : EStore n Unit :=
  metaWriteAll (rHistory bucket key) (.history { h with epoch := h.epoch + 1 })

/-- `has_history`. -/
def hasHistory (bucket key : Str) : EStore n Bool := metaStatAny (rHistory bucket key)

/-- The version id of unversioned writes. -/
def NULL : Str := "null".toList

/-- The `"null"` entry that stands for a current object without a history. -/
def legacyEntry (m : XlMeta) : VEntry :=
  ⟨NULL, false, m.lastModified, m.etag, m.size, m.owner, m.srcIp⟩

/-- `seed_legacy_history`. -/
def seedLegacyHistory (bucket key : Str) : EStore n Unit := do
  if ← hasHistory bucket key then pure ()
  else
    match ← outcome (readXl bucket key) with
    | .ok m => writeHistory bucket key ⟨[legacyEntry m], 0⟩
    | .error _ => pure ()

/-- `demote_current`. -/
def demoteCurrent (bucket key vid : Str) : EStore n Unit := do
  let arch := rObjV bucket key (some vid)
  let cur := rObject bucket key
  let _ ← eachDrive fun _ => do
    let _ ← Drive.createDirAll arch
    let _ ← Drive.rename (cur.joinStr XL_META) (arch.joinStr XL_META)
    Drive.rename (cur.joinStr PART) (arch.joinStr PART)

/-- `promote_archive`. -/
def promoteArchive (bucket key vid : Str) : EStore n Unit := do
  let arch := rObjV bucket key (some vid)
  let cur := rObject bucket key
  let _ ← eachDrive fun _ => do
    let _ ← Drive.rename (arch.joinStr XL_META) (cur.joinStr XL_META)
    let _ ← Drive.rename (arch.joinStr PART) (cur.joinStr PART)
    Drive.removeDir arch

/-- `discard_current`. -/
def discardCurrent (bucket key : Str) : EStore n Unit := do
  let cur := rObject bucket key
  let _ ← eachDrive fun _ => do
    let _ ← Drive.removeFile (cur.joinStr XL_META)
    Drive.removeFile (cur.joinStr PART)

/-- `remove_archive`. -/
def removeArchive (bucket key vid : Str) : EStore n Unit := do
  let _ ← eachDrive fun _ => Drive.removeDirAll (rObjV bucket key (some vid))

/-- Whether the newest entry stands at the current slot. -/
def canonicalOccupied (h : VHistory) : Bool :=
  (h.versions.head?.map fun v => !v.deleteMarker).getD false

/-- Under `Suspended`, drop a prior `"null"` version from the history and from
where it is stored; the flag says whether the current slot is still taken. -/
def purgeNull (bucket key : Str) (mode : VMode) (hist : VHistory) :
    EStore n (VHistory × Bool) := do
  let occupied := canonicalOccupied hist
  if mode ≠ .suspended then pure (hist, occupied)
  else
    match hist.versions.findIdx? (fun v => v.versionId = NULL) with
    | none => pure (hist, occupied)
    | some idx => do
        let isMarker := (hist.versions[idx]?.map VEntry.deleteMarker).getD false
        let rest := { hist with versions := hist.versions.eraseIdx idx }
        if idx = 0 && occupied then
          discardCurrent bucket key
          pure (rest, false)
        else if !isMarker then
          removeArchive bucket key NULL
          pure (rest, occupied)
        else pure (rest, occupied)

/-- Make room for a new newest entry: purge a prior `"null"`, then archive what
is at the current slot under its id. -/
def makeRoom (bucket key : Str) (mode : VMode) (hist : VHistory) : EStore n VHistory := do
  let (hist, occupied) ← purgeNull bucket key mode hist
  match occupied, hist.versions with
  | true, v :: _ => do
      demoteCurrent bucket key v.versionId
      pure hist
  | _, _ => pure hist

/-- The id of a version written under a versioned mode. -/
def newVersionId (env : CallEnv) : VMode → Str
  | .suspended => NULL
  | _ => env.freshId.text

/-- `begin_versioned_write`. -/
def beginVersionedWrite (env : CallEnv) (bucket key : Str) (mode : VMode) :
    EStore n (Str × VHistory) := do
  seedLegacyHistory bucket key
  let hist ← readHistory bucket key
  let hist ← makeRoom bucket key mode hist
  pure (newVersionId env mode, hist)

/-- `finish_versioned_write`. -/
def finishVersionedWrite (env : CallEnv) (bucket key : Str) (hist : VHistory)
    (vid etag : Str) (size : Nat) (lastModified : Int) : EStore n Unit :=
  writeHistory bucket key
    { hist with versions :=
        ⟨vid, false, lastModified, etag, size, env.accessKey, env.remoteIp⟩ ::
          hist.versions }

/-! ## Buckets -/

/-- `head_bucket`. -/
def headBucket (bucket : Str) : EStore n Unit := do
  let hit ← anyDrive fun _ => do
    let st ← Drive.stat (rBucket bucket)
    pure (st.filter DriveStat.isDir)
  if hit.isSome then pure () else throw .noSuchBucket

/-- `create_bucket`. -/
def createBucket (bucket : Str) : EStore n Unit := do
  MonadExcept.ofExcept (validateBucketName bucket)
  if ← metaStatAny (rBucket bucket) then throw .bucketAlreadyOwnedByYou
  let ok ← eachDrive fun _ => Drive.createDirAll (rBucket bucket)
  if tally ok = 0 then throw (.internal "create bucket: no drive reachable")

/-- `set_bucket_versioning`. -/
def setBucketVersioning (bucket status : Str) : EStore n Unit := do
  headBucket bucket
  metaWriteAll (rBucketCfg bucket VERSIONING) (.status status)

/-! ## Objects -/

/-- The name of an object's lock. -/
def lockName (bucket key : Str) : Str := bucket ++ '/' :: key

/-- The source of a write: the body, encrypted if it is to be. -/
def writeSource (env : CallEnv) (body : Body) (encrypted : Bool) : EStore n Body :=
  if encrypted then
    match S.crypto.encryptingReader env body with
    | some src => pure src
    | none => throw (.internal "encrypt object")
  else pure body

/-- A write into a versioned bucket: archive the prior current version first, and
record the new one last. -/
def writeVersioned (env : CallEnv) (bucket key : Str) (mode : VMode) (src : Body)
    (contentType : Str) (userMetadata : UserMeta) (encrypted : Bool) :
    EStore n ObjectMeta := do
  let (vid, hist) ← beginVersionedWrite env bucket key mode
  let om ← S.writeSharded env bucket key src contentType userMetadata encrypted none
  finishVersionedWrite env bucket key hist vid om.etag om.size om.lastModified
  pure { om with versionId := some vid }

/-- `put_object`. -/
def putObject (env : CallEnv) (bucket key : Str) (body : Body) (contentType : Str)
    (userMetadata : UserMeta) (encrypt : Bool) : EStore n ObjectMeta := do
  headBucket bucket
  MonadExcept.ofExcept (validateKey key)
  withLock (lockName bucket key) do
    let encrypted := S.shouldEncrypt encrypt
    let src ← S.writeSource env body encrypted
    let mode ← vmode bucket
    if mode = .off then
      S.writeSharded env bucket key src contentType userMetadata encrypted none
    else S.writeVersioned env bucket key mode src contentType userMetadata encrypted

/-- The payload of a stored version, decrypted if it is encrypted. -/
def readBody (bucket key : Str) (vid : Option Str) (m : XlMeta) : EStore n Bytes := do
  let raw ← S.streamingBody bucket key vid m
  if m.encrypted then
    match S.crypto.decryptingReader raw with
    | some plain => pure plain
    | none => throw (.internal "decrypt object")
  else pure raw

/-- `get_object`, the body read to its end. -/
def getObject (bucket key : Str) : EStore n (ObjectMeta × Bytes) := do
  let m ← readXl bucket key
  let body ← S.readBody bucket key none m
  pure (metaToObject key m, body)

/-- `head_object`. -/
def headObject (bucket key : Str) : EStore n ObjectMeta := do
  let m ← readXl bucket key
  pure (metaToObject key m)

/-- What deleting an object or its last version does on one drive. -/
def removeObjectDir (bucket key : Str) : DriveProg Doc Unit := do
  let rel := rObject bucket key
  let _ ← Drive.removeDirAll rel
  match rel.parent with
  | some p => Drive.pruneEmpty (rBucket bucket) (p.comps.length + 1) p
  | none => pure ()

/-- `delete_object`. -/
def deleteObject (env : CallEnv) (bucket key : Str) : EStore n DeleteOutcome := do
  headBucket bucket
  withLock (lockName bucket key) do
    let mode ← vmode bucket
    if mode ≠ .off then
      seedLegacyHistory bucket key
      let hist ← readHistory bucket key
      let markerVid := newVersionId env mode
      let hist ← makeRoom bucket key mode hist
      writeHistory bucket key
        { hist with versions :=
            ⟨markerVid, true, env.now, [], 0, env.accessKey, env.remoteIp⟩ ::
              hist.versions }
      pure ⟨some markerVid, true⟩
    else
      let _ ← eachDrive fun _ => removeObjectDir bucket key
      pure ⟨none, false⟩

/-- `copy_object`. -/
def copyObject (env : CallEnv) (srcBucket srcKey dstBucket dstKey : Str)
    (encrypt : Bool) : EStore n ObjectMeta := do
  let (srcMeta, bytes) ← S.getObject srcBucket srcKey
  S.putObject env dstBucket dstKey (.ofBytes bytes) srcMeta.contentType
    srcMeta.userMetadata encrypt

/-- Where the bytes of a version are that is not a delete marker: the newest at
the current slot, an older one in the archive. -/
def findVersion (bucket key versionId : Str) : EStore n (Option Str) := do
  seedLegacyHistory bucket key
  let hist ← readHistory bucket key
  match hist.versions.findIdx? (fun v => v.versionId = versionId) with
  | none => throw .noSuchVersion
  | some idx =>
      if (hist.versions[idx]?.map VEntry.deleteMarker).getD false then
        throw .methodNotAllowed
      else pure (if idx = 0 then none else some versionId)

/-- `findVersion` in a bucket that exists. -/
def locateVersion (bucket key versionId : Str) : EStore n (Option Str) := do
  headBucket bucket
  findVersion bucket key versionId

/-- `get_object_version`, the body read to its end. -/
def getObjectVersion (bucket key versionId : Str) : EStore n (ObjectMeta × Bytes) := do
  let vopt ← locateVersion bucket key versionId
  let m ← readXlV bucket key vopt
  let body ← S.readBody bucket key vopt m
  pure ({ metaToObject key m with versionId := some versionId }, body)

/-- `head_object_version`. -/
def headObjectVersion (bucket key versionId : Str) : EStore n ObjectMeta := do
  let vopt ← locateVersion bucket key versionId
  let m ← readXlV bucket key vopt
  pure { metaToObject key m with versionId := some versionId }

/-- Remove what is stored of the entry at `idx`. -/
def dropStored (bucket key versionId : Str) (idx : Nat) (marker : Bool) : EStore n Unit :=
  if marker then pure ()
  else if idx = 0 then discardCurrent bucket key
  else removeArchive bucket key versionId

/-- When the newest entry went, bring the next one to the current slot. -/
def promoteNext (bucket key : Str) : Nat → List VEntry → EStore n Unit
  | 0, next :: _ =>
      if next.deleteMarker then pure () else promoteArchive bucket key next.versionId
  | _, _ => pure ()

/-- Keep what is left of a history, or remove the key with its last entry. -/
def settleHistory (bucket key : Str) (rest : VHistory) : EStore n Unit :=
  if rest.versions.isEmpty then do
    let _ ← eachDrive fun _ => removeObjectDir bucket key
  else writeHistory bucket key rest

/-- `delete_object_version`. -/
def deleteObjectVersion (bucket key versionId : Str) : EStore n DeleteOutcome := do
  headBucket bucket
  withLock (lockName bucket key) do
    seedLegacyHistory bucket key
    let hist ← readHistory bucket key
    match hist.versions.findIdx? (fun v => v.versionId = versionId) with
    | none => throw .noSuchVersion
    | some idx => do
        let marker := (hist.versions[idx]?.map VEntry.deleteMarker).getD false
        dropStored bucket key versionId idx marker
        let rest := { hist with versions := hist.versions.eraseIdx idx }
        promoteNext bucket key idx rest.versions
        settleHistory bucket key rest
        pure ⟨some versionId, marker⟩

/-! ## Per-object sidecars -/

/-- Read a sidecar of an existing object. -/
def getSidecar {α : Type} (bucket key file : Str) (decode : Doc → Option α) :
    EStore n (Option α) := do
  let _ ← headObject bucket key
  readCfg (rObjSidecar bucket key file) decode

/-- Write a sidecar of an existing object. -/
def setSidecar (bucket key file : Str) (doc : Doc) : EStore n Unit := do
  let _ ← headObject bucket key
  metaWriteAll (rObjSidecar bucket key file) doc

/-- `get_object_tags`. -/
def getObjectTags (bucket key : Str) : EStore n (Option UserMeta) :=
  getSidecar bucket key TAGS Doc.tags?

/-- `set_object_tags`. -/
def setObjectTags (bucket key : Str) (tags : UserMeta) : EStore n Unit :=
  setSidecar bucket key TAGS (.tags tags)

/-- `delete_object_tags`. -/
def deleteObjectTags (bucket key : Str) : EStore n Unit := do
  let _ ← headObject bucket key
  metaDelAll (rObjSidecar bucket key TAGS)

/-- `get_object_retention`. -/
def getObjectRetention (bucket key : Str) : EStore n (Option Str) :=
  getSidecar bucket key RETENTION Doc.text?

/-- `set_object_retention`. -/
def setObjectRetention (bucket key data : Str) : EStore n Unit :=
  setSidecar bucket key RETENTION (.text data)

/-- `get_object_legal_hold`. -/
def getObjectLegalHold (bucket key : Str) : EStore n (Option Str) :=
  getSidecar bucket key LEGALHOLD Doc.status?

/-- `set_object_legal_hold`. -/
def setObjectLegalHold (bucket key status : Str) : EStore n Unit :=
  setSidecar bucket key LEGALHOLD (.status status)

end ErasureStore

end Kerplace
