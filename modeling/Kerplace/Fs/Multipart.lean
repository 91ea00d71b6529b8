/-
# `Kerplace.Fs.Multipart` — multipart uploads on the filesystem store

An upload is staged below its bucket's multipart directory, in a directory named by its id.
The manifest has the key but not the bucket, and completion goes by the key of the request.
-/
import Kerplace.Fs.Store
import Kerplace.Erasure.Multipart

namespace Kerplace

namespace FsStore

variable (S : FsStore)

open ErasureStore (partFile partMetaFile MANIFEST trimQuotes recordNumber partInfo)

/-- `create_multipart`. -/
def createMultipart (env : CallEnv) (bucket key contentType : Str) (userMetadata : UserMeta)
    (encrypt : Bool) : FStore Str := do
  headBucket bucket
  MonadExcept.ofExcept (validateKey key)
  let uploadId := env.freshId.text
  let dir := uploadDir bucket uploadId
  orFail (.internal "mkdir upload") (Drive.createDirAll dir)
  let manifest : StagedUpload :=
    ⟨key, contentType, userMetadata, env.now, S.shouldEncrypt encrypt⟩
  orFail (.internal "write manifest") (Drive.write (dir.joinStr MANIFEST) (.doc (.upload manifest)))
  pure uploadId

/-- `upload_part`. -/
def uploadPart (env : FsEnv) (bucket uploadId : Str) (number : Nat) (body : Body) :
    FStore Str := do
  let dir := uploadDir bucket uploadId
  orFail .noSuchUpload (Option.isSome <$> Drive.stat (dir.joinStr MANIFEST))
  let (etag, size) ← S.streamToTemp env.toCallEnv (tmpFile env.tmpId) body true
  moveIntoPlace (tmpFile env.tmpId) (dir.joinStr (partFile number))
  orFail (.internal "write part meta")
    (Drive.write (dir.joinStr (partMetaFile number)) (.doc (.part ⟨etag, size, env.now⟩)))
  pure etag

/-- One listed part: check it against its record and append it to the assembly.
The result is the part's MD5 and its recorded size. -/
def assemblePart (dir tmp : UnixPath) (part : CompletedPart) : FStore (Bytes × Nat) := do
  match ← onDisk (Drive.read (dir.joinStr (partMetaFile part.partNumber))) with
  | none => throw .invalidPart
  | some c =>
      match c.doc?.bind FsDoc.part? with
      | none => throw (.internal "decode part meta")
      | some record =>
          if trimQuotes part.etag ≠ record.etag then throw .invalidPart
          else
            match hexDecode record.etag with
            | none => throw (.internal "bad part etag")
            | some digest => do
                match ← onDisk (Drive.read (dir.joinStr (partFile part.partNumber))) with
                | none => throw .invalidPart
                | some payload =>
                    orFail (.internal "assemble part")
                      (Drive.append tmp (payload.bytes?.getD []))
                    pure (digest, record.size)

/-- All listed parts in order: their MD5s end to end, and the sum of their sizes. -/
def assembleParts (dir tmp : UnixPath) : List CompletedPart → FStore (Bytes × Nat)
  | [] => pure ([], 0)
  | part :: parts => do
      let (digest, size) ← assemblePart dir tmp part
      let (digests, sizes) ← assembleParts dir tmp parts
      pure (digest ++ digests, size + sizes)

/-- The manifest of an upload. -/
def readManifest (dir : UnixPath) : FStore StagedUpload := do
  match ← onDisk (Drive.read (dir.joinStr MANIFEST)) with
  | none => throw .noSuchUpload
  | some c =>
      match c.doc?.bind FsDoc.upload? with
      | none => throw (.internal "decode manifest")
      | some manifest => pure manifest

/-- The payload of a completion, staged: the assembly itself, or its encryption in a second
temporary file. -/
def sealAssembly (env : FsEnv) (encrypt : Bool) : FStore UnixPath :=
  if encrypt then do
    match ← onDisk (Drive.read (tmpFile env.tmpId)) with
    | none => throw (.internal "reopen assembly")
    | some plain => do
        let src ← S.writeSource env.toCallEnv (.ofBytes (plain.bytes?.getD [])) true
        let _ ← S.streamToTemp env.toCallEnv (tmpFile env.sealedId) src false
        let _ ← onDisk (Drive.removeFile (tmpFile env.tmpId))
        pure (tmpFile env.sealedId)
  else pure (tmpFile env.tmpId)

/-- `complete_multipart` up to the point where the payload is staged: the manifest, the path
of the payload, its ETag and its size. -/
def stageCompletion (env : FsEnv) (bucket uploadId : Str) (parts : List CompletedPart) :
    FStore (StagedUpload × UnixPath × Str × Nat) := do
  let dir := uploadDir bucket uploadId
  let manifest ← readManifest dir
  orFail (.internal "create assembly") (Drive.create (tmpFile env.tmpId))
  let (digests, size) ← assembleParts dir (tmpFile env.tmpId) parts
  orFail (.internal "flush assembly") (Drive.shutdown (tmpFile env.tmpId))
  let etag := hexEncode (S.md5 digests) ++ '-' :: Nat.toDigits 10 parts.length
  let tmp ← S.sealAssembly env manifest.encrypt
  pure (manifest, tmp, etag, size)

/-- `complete_multipart`. -/
def completeMultipart (env : FsEnv) (bucket key uploadId : Str) (parts : List CompletedPart) :
    FStore ObjectMeta := do
  let (manifest, tmp, etag, size) ← S.stageCompletion env bucket uploadId parts
  S.install env.toCallEnv bucket key tmp etag size manifest.contentType manifest.userMetadata
    manifest.encrypt (do
      let _ ← Drive.removeDirAll (uploadDir bucket uploadId)
      pure ())

/-- `abort_multipart`. -/
def abortMultipart (bucket uploadId : Str) : FStore Unit := do
  let dir := uploadDir bucket uploadId
  orFail .noSuchUpload (Option.isSome <$> Drive.stat dir)
  orFail (.internal "abort") (Drive.removeDirAll dir)

/-- The records among a directory's entries, those that decode. -/
def listRecords (dir : UnixPath) : List (Str × Bool) → FStore (List PartInfo)
  | [] => pure []
  | (name, _) :: entries =>
      match recordNumber name with
      | none => listRecords dir entries
      | some number => do
          match ← onDisk (Drive.read (dir.joinStr name)) with
          | none => throw (.internal "read part")
          | some c => do
              let parts ← listRecords dir entries
              pure ((c.doc?.bind FsDoc.part?).elim parts fun record =>
                partInfo number record :: parts)

/-- `list_parts`. -/
def listParts (bucket uploadId : Str) : FStore (List PartInfo) := do
  let dir := uploadDir bucket uploadId
  match ← onDisk (Drive.readDir dir) with
  | none => throw .noSuchUpload
  | some entries => do
      let parts ← listRecords dir entries
      pure (parts.mergeSort fun a b => a.partNumber ≤ b.partNumber)

end FsStore

end Kerplace
