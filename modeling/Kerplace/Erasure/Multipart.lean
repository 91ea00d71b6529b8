/-
# `Kerplace.Erasure.Multipart` — multipart uploads on the erasure store

An upload is staged on one drive, chosen when it is created and written into
the first two characters of its id.  Completion checks the listed parts
against their staged records, lays them end to end and hands the result to
the sharded write.
-/
import Kerplace.Erasure.Store

namespace Kerplace

namespace ErasureStore

variable {n : Nat} (S : ErasureStore n)

/-- `first_online_drive`. -/
def firstOnlineDrive : EStore n (Option (Fin n)) :=
  anyDrive fun d => do
    let up ← Drive.online
    pure (if up then some d else none)

/-- `usize::from_str_radix(s, 16)` on the first two characters of an id. -/
def parseHex2 : Str → Option Nat
  | '+' :: b :: _ => hexVal b
  | a :: b :: _ =>
      match hexVal a, hexVal b with
      | some x, some y => some (16 * x + y)
      | _, _ => none
  | _ => none

/-- `upload_drive`. -/
def uploadDrive (uploadId : Str) : Fin n :=
  match parseHex2 uploadId with
  | some i => if h : i < n then ⟨i, h⟩ else S.drive0
  | none => S.drive0

/-- `part.{n}`. -/
def partFile (number : Nat) : Str := "part.".toList ++ Nat.toDigits 10 number

/-- `part.{n}.json`. -/
def partMetaFile (number : Nat) : Str := partFile number ++ ".json".toList

/-- `manifest.json`. -/
def MANIFEST : Str := "manifest.json".toList

/-- `assembly.tmp`. -/
def ASSEMBLY : Str := "assembly.tmp".toList

/-- `create_multipart`. -/
def createMultipart (env : CallEnv) (bucket key contentType : Str)
    (userMetadata : UserMeta) (encrypt : Bool) : EStore n Str := do
  headBucket bucket
  MonadExcept.ofExcept (validateKey key)
  match ← firstOnlineDrive with
  | none => throw (.internal "multipart: no drive reachable")
  | some stage => do
      let uploadId :=
        hexDigit (stage.val / 16) :: hexDigit (stage.val % 16) :: env.freshId.text
      let dir := rUpload uploadId
      orFail (.internal "mkdir upload") (atDrive stage (Drive.createDirAll dir))
      let manifest : UploadManifest :=
        ⟨bucket, key, contentType, userMetadata, env.now, S.shouldEncrypt encrypt⟩
      orFail (.internal "write manifest")
        (atDrive stage (Drive.write (dir.joinStr MANIFEST) (.doc (.manifest manifest))))
      pure uploadId

/-- `upload_part`, with `stream_to_part`: a body that breaks off leaves what
arrived in the part file and no record. -/
def uploadPart (env : CallEnv) (uploadId : Str) (number : Nat) (body : Body) :
    EStore n Str := do
  let sd := S.uploadDrive uploadId
  let dir := rUpload uploadId
  let dest := dir.joinStr (partFile number)
  orFail .noSuchUpload (Option.isSome <$> atDrive sd (Drive.stat (dir.joinStr MANIFEST)))
  orFail (.internal "create part") (atDrive sd (Drive.create dest))
  orFail (.internal "write part") (atDrive sd (Drive.append dest body.data))
  orFail (.internal "read part") (pure !body.err)
  orFail (.internal "finish part") (atDrive sd (Drive.shutdown dest))
  let etag := hexEncode (S.md5 body.data)
  let record : PartMeta := ⟨etag, body.data.length, env.now⟩
  orFail (.internal "write part meta")
    (atDrive sd (Drive.write (dir.joinStr (partMetaFile number)) (.doc (.part record))))
  pure etag

/-- `trim_matches('"')`. -/
def trimQuotes (s : Str) : Str :=
  ((s.dropWhile (· == '"')).reverse.dropWhile (· == '"')).reverse

/-- One listed part: check it against its record and append it to the assembly.
The result is the part's MD5. -/
def assemblePart (sd : Fin n) (dir : UnixPath) (part : CompletedPart) : EStore n Bytes := do
  match ← atDrive sd (Drive.read (dir.joinStr (partMetaFile part.partNumber))) with
  | none => throw .invalidPart
  | some c =>
      match c.doc?.bind Doc.part? with
      | none => throw (.internal "decode part meta")
      | some pm =>
          if trimQuotes part.etag ≠ pm.etag then throw .invalidPart
          else
            match hexDecode pm.etag with
            | none => throw (.internal "bad part etag")
            | some digest => do
                match ← atDrive sd (Drive.read (dir.joinStr (partFile part.partNumber))) with
                | none => throw .invalidPart
                | some payload =>
                    orFail (.internal "assemble part") (atDrive sd
                      (Drive.append (dir.joinStr ASSEMBLY) (payload.bytes?.getD [])))
                    pure digest

/-- All listed parts in order: their MD5s end to end. -/
def assembleParts (sd : Fin n) (dir : UnixPath) : List CompletedPart → EStore n Bytes
  | [] => pure []
  | part :: parts => do
      let digest ← assemblePart sd dir part
      let rest ← assembleParts sd dir parts
      pure (digest ++ rest)

/-- The ETag of a multipart object: `hex(md5(concat(part md5s)))-<count>`. -/
def multipartEtag (digests : Bytes) (count : Nat) : Str :=
  hexEncode (S.md5 digests) ++ '-' :: Nat.toDigits 10 count

/-- Lay the listed parts end to end in the assembly file: the object's bytes and
its ETag. -/
def assemble (sd : Fin n) (dir : UnixPath) (parts : List CompletedPart) :
    EStore n (Bytes × Str) := do
  let assembly := dir.joinStr ASSEMBLY
  orFail (.internal "create assembly") (atDrive sd (Drive.create assembly))
  let digests ← assembleParts sd dir parts
  orFail (.internal "finish assembly") (atDrive sd (Drive.shutdown assembly))
  match ← atDrive sd (Drive.read assembly) with
  | none => throw (.internal "reopen assembly")
  | some plain => pure (plain.bytes?.getD [], S.multipartEtag digests parts.length)

/-- The manifest of an upload, on its staging drive. -/
def readManifest (sd : Fin n) (dir : UnixPath) : EStore n UploadManifest := do
  match ← atDrive sd (Drive.read (dir.joinStr MANIFEST)) with
  | none => throw .noSuchUpload
  | some c =>
      match c.doc?.bind Doc.manifest? with
      | none => throw (.internal "decode manifest")
      | some manifest => pure manifest

/-- The part of `complete_multipart` below the lock of the manifest's object. -/
def completeWith (env : CallEnv) (uploadId : Str) (parts : List CompletedPart)
    (manifest : UploadManifest) : EStore n ObjectMeta := do
  let sd := S.uploadDrive uploadId
  let dir := rUpload uploadId
  withLock (lockName manifest.bucket manifest.key) do
    let (plain, etag) ← S.assemble sd dir parts
    let src ← S.writeSource env (.ofBytes plain) manifest.encrypt
    let om ← S.writeSharded env manifest.bucket manifest.key src manifest.contentType
      manifest.userMetadata manifest.encrypt (some etag)
    let _ ← atDrive sd (Drive.removeDirAll dir)
    pure om

/-- `complete_multipart`.  Bucket and key are the manifest's. -/
def completeMultipart (env : CallEnv) (uploadId : Str) (parts : List CompletedPart) :
    EStore n ObjectMeta := do
  let manifest ← readManifest (S.uploadDrive uploadId) (rUpload uploadId)
  S.completeWith env uploadId parts manifest

/-- `abort_multipart`. -/
def abortMultipart (uploadId : Str) : EStore n Unit := do
  let sd := S.uploadDrive uploadId
  let dir := rUpload uploadId
  orFail .noSuchUpload (Option.isSome <$> atDrive sd (Drive.stat dir))
  orFail (.internal "abort") (atDrive sd (Drive.removeDirAll dir))

/-- `str::parse::<u32>`. -/
def parseU32 (s : Str) : Option Nat :=
  let digits := if s.head? = some '+' then s.tail else s
  if digits ≠ [] ∧ digits.all Char.isDigit = true then
    let value := digits.foldl (fun v c => 10 * v + (c.toNat - '0'.toNat)) 0
    if value < 2 ^ 32 then some value else none
  else none

/-- The number in the name of a part's record. -/
def recordNumber (name : Str) : Option Nat :=
  if "part.".toList.isPrefixOf name && ".json".toList.isSuffixOf (name.drop 5) then
    parseU32 ((name.drop 5).take (name.length - 10))
  else none

/-- What a listing shows of a record. -/
def partInfo (number : Nat) (record : PartMeta) : PartInfo :=
  ⟨number, record.etag, record.size, stampOf record.created⟩

/-- The records among a directory's entries, those that decode. -/
def listRecords (sd : Fin n) (dir : UnixPath) : List (Str × Bool) → EStore n (List PartInfo)
  | [] => pure []
  | (name, _) :: entries =>
      match recordNumber name with
      | none => listRecords sd dir entries
      | some number => do
          let doc ← atDrive sd (Drive.readDoc (dir.joinStr name))
          let parts ← listRecords sd dir entries
          pure ((doc.bind Doc.part?).elim parts fun record => partInfo number record :: parts)

/-- `list_parts`. -/
def listParts (uploadId : Str) : EStore n (List PartInfo) := do
  let sd := S.uploadDrive uploadId
  let dir := rUpload uploadId
  match ← atDrive sd (Drive.readDir dir) with
  | none => throw .noSuchUpload
  | some entries => do
      let parts ← listRecords sd dir entries
      pure (parts.mergeSort fun a b => a.partNumber ≤ b.partNumber)

end ErasureStore

end Kerplace
