/-
# `Kerplace.Handlers.ObjectApi` — the object handlers

`PUT`, `GET`, `HEAD`, `DELETE` and `POST` of an object, with the multipart handlers behind
them, as programs over the store's trait.  An empty key means the bucket.
-/
import Kerplace.Handlers.BucketApi
import Kerplace.Handlers.Ranges

namespace Kerplace

/-- What the lock check reads of texts. -/
def ApiEnv.lockText (E : ApiEnv) : LockText where
  retainUntilDate raw := (E.xml.retention raw).toOption.map ObjectRetention.retainUntilDate
  rfc3339 := E.rfc3339

namespace Api

variable (E : ApiEnv)

/-- A body of at most a mebibyte read into a document, or the answer to one that cannot be. -/
def withSmallDoc {α : Type} (body : Body) (resource : Str) (unreadable : String)
    (read : Str → Except String α) (complaint : String) (k : α → Api HttpResponse) :
    Api HttpResponse :=
  match toBytes 1048576 body with
  | none => pure (errorResponse (.invalidArgument unreadable) resource)
  | some bytes =>
      match read (E.fromUtf8Lossy bytes) with
      | .error e => pure (errorResponse (.invalidArgument (complaint ++ e)) resource)
      | .ok doc => k doc

/-! ## Multipart uploads -/

/-- `multipart::create`. -/
def createMultipart (bucket key : Str) (req : Request) : Api HttpResponse := do
  let sse ← bucketSse bucket
  answer (.createMultipart bucket key (contentTypeOf req) (extractUserMetadata req)
      (sseRequested req || sse || E.encryptionEnabled)) (objectResource bucket key)
    fun uploadId => xmlResponse (.initiateMultipart bucket key uploadId)

/-- `multipart::upload_part`. -/
def uploadPart (bucket key uploadId partNumber : Str) (body : Body) : Api HttpResponse :=
  match (ErasureStore.parseU32 partNumber).filter fun n => decide (1 ≤ n ∧ n ≤ 10000) with
  | none =>
      pure (errorResponse (.invalidArgument "invalid partNumber") (objectResource bucket key))
  | some n =>
      answer (.uploadPart bucket key uploadId n body) (objectResource bucket key) fun etag =>
        statusWith 200 ETAG (quoteEtag etag)

/-- `multipart::complete`. -/
def completeMultipart (bucket key uploadId : Str) (body : Body) : Api HttpResponse :=
  withSmallDoc E body (objectResource bucket key) "could not read body" E.xml.completeMultipart
    "malformed CompleteMultipartUpload: " fun parts =>
      answer (.completeMultipart bucket key uploadId parts) (objectResource bucket key) fun m =>
        xmlResponse (.completeMultipart (objectResource bucket key) bucket key (quoteEtag m.etag))

/-- `multipart::abort`. -/
def abortMultipart (bucket key uploadId : Str) : Api HttpResponse :=
  answer (.abortMultipart bucket key uploadId) (objectResource bucket key) fun _ => statusOnly 204

/-- `multipart::list_parts`. -/
def listParts (bucket key uploadId : Str) : Api HttpResponse :=
  answer (.listParts bucket key uploadId) (objectResource bucket key) fun parts =>
    xmlResponse (.listParts bucket key uploadId
      (parts.map fun p => { p with etag := quoteEtag p.etag }))

/-! ## Tags and locks -/

/-- `handle_object_tagging` for `GET`. -/
def getObjectTagging (bucket key : Str) : Api HttpResponse :=
  answer (.getObjectTags bucket key) (objectResource bucket key) fun tags =>
    xmlResponse (.tagging (tags.getD []))

/-- `handle_object_tagging` for `PUT`. -/
def putObjectTagging (bucket key : Str) (body : Body) : Api HttpResponse :=
  withSmallDoc E body (objectResource bucket key) "bad body" E.xml.tagging "bad Tagging: "
    fun tags =>
      answer (.setObjectTags bucket key (collectMap tags)) (objectResource bucket key) fun _ =>
        statusOnly 200

/-- `handle_object_tagging` for `DELETE`. -/
def deleteObjectTagging (bucket key : Str) : Api HttpResponse :=
  answer (.deleteObjectTags bucket key) (objectResource bucket key) fun _ => statusOnly 204

/-- `check_object_lock`: a lock that cannot be read is none. -/
def checkObjectLock (bucket key : Str) : Api (Except S3Error Unit) := do
  match ← Prog.op (TraitCall.getObjectLegalHold bucket key) with
  | .ok (some status) =>
      if eqIgnoreAsciiCase status ON then pure (.error .objectLocked) else retention
  | _ => retention
where
  /-- The part about the retention. -/
  retention : Api (Except S3Error Unit) := do
    match ← Prog.op (TraitCall.getObjectRetention bucket key) with
    | .ok (some raw) =>
        pure (if E.lockText.retains E.now raw then .error .objectLocked else .ok ())
    | _ => pure (.ok ())

/-- `get_object_retention`: what cannot be read is shown as none. -/
def getObjectRetention (bucket key : Str) : Api HttpResponse :=
  answer (.getObjectRetention bucket key) (objectResource bucket key) fun raw =>
    xmlResponse (.retention (((raw.map E.xml.retention).bind Except.toOption).getD .default))

/-- `put_object_retention`. -/
def putObjectRetention (bucket key : Str) (body : Body) : Api HttpResponse :=
  withSmallDoc E body (objectResource bucket key) "bad body" E.xml.retention
    "bad Retention XML: " fun r =>
      answer (.setObjectRetention bucket key (E.xml.writeRetention r)) (objectResource bucket key)
        fun _ => statusOnly 200

/-- `get_object_legal_hold`. -/
def getObjectLegalHold (bucket key : Str) : Api HttpResponse :=
  answer (.getObjectLegalHold bucket key) (objectResource bucket key) fun status =>
    xmlResponse (.legalHold (status.getD "OFF".toList))

/-- `put_object_legal_hold`. -/
def putObjectLegalHold (bucket key : Str) (body : Body) : Api HttpResponse :=
  withSmallDoc E body (objectResource bucket key) "bad body" E.xml.legalHold
    "bad LegalHold XML: " fun parsed =>
      let status := E.toUppercase parsed
      if status ≠ ON ∧ status ≠ "OFF".toList then
        pure (errorResponse (.invalidArgument "LegalHold Status must be ON or OFF")
          (objectResource bucket key))
      else
        answer (.setObjectLegalHold bucket key status) (objectResource bucket key) fun _ =>
          statusOnly 200

/-! ## Writes -/

/-- The answer to a write. -/
def putResponse (m : ObjectMeta) : HttpResponse :=
  ⟨200, ((Headers.set [] ETAG (quoteEtag m.etag)).setSse m.encrypted).setOpt X_AMZ_VERSION_ID
    m.versionId, .empty⟩

/-- The bucket and the key of `x-amz-copy-source`. -/
def copySource (source : Str) : Option (Str × Str) :=
  splitOnceAt '/' (E.percent.percentDecode
    ((source.dropWhile (· == '/')).takeWhile (· ≠ '?')))

/-- `copy_object`. -/
def copyObject (bucket key source : Str) (req : Request) : Api HttpResponse :=
  match copySource E source with
  | none =>
      pure (errorResponse (.invalidArgument "malformed x-amz-copy-source")
        (objectResource bucket key))
  | some (srcBucket, srcKey) => do
      let sse ← bucketSse bucket
      answer (.copyObject srcBucket srcKey bucket key
          (sseRequested req || sse || E.encryptionEnabled)) (objectResource bucket key) fun m =>
        xmlResponse (.copyObject m.lastModified (quoteEtag m.etag))

/-- The plain write of `put_object_dispatch`. -/
def putObject (bucket key : Str) (req : Request) (body : Body) : Api HttpResponse := do
  let sse ← bucketSse bucket
  answer (.putObject bucket key body (contentTypeOf req) (extractUserMetadata req)
    (sseRequested req || sse || E.encryptionEnabled)) (objectResource bucket key) putResponse

/-- `put_object_dispatch`. -/
def putObjectDispatch (bucket key : Str) (req : Request) (params : Str → Option Str)
    (body : Body) : Api HttpResponse :=
  if key = [] then createBucketInner bucket
  else
    match params "partNumber".toList, params "uploadId".toList with
    | some partNumber, some uploadId => uploadPart bucket key uploadId partNumber body
    | _, _ =>
        if (params "tagging".toList).isSome then putObjectTagging E bucket key body
        else if (params "retention".toList).isSome then putObjectRetention E bucket key body
        else if (params "legal-hold".toList).isSome then putObjectLegalHold E bucket key body
        else
          match req.readable "x-amz-copy-source".toList with
          | some source => copyObject E bucket key source req
          | none => putObject E bucket key req body

/-! ## Reads -/

/-- A whole object. -/
def objectResponse (m : ObjectMeta) (data : Bytes) : HttpResponse :=
  ⟨200, (objectHeaders E.httpDate m).set CONTENT_LENGTH (Nat.toDigits 10 m.size), .bytes data⟩

/-- `bytes {first}-{last}/{size}`. -/
def contentRange (first last size : Nat) : Str :=
  "bytes ".toList ++ Nat.toDigits 10 first ++ '-' :: Nat.toDigits 10 last ++
    '/' :: Nat.toDigits 10 size

/-- The range branch of `get_object_dispatch`. -/
def getObjectRange (bucket key : Str) (bounds : Option Nat × Option Nat) : Api HttpResponse := do
  match ← Prog.op (TraitCall.headObject bucket key) with
  | .error e => pure (errorResponse e (objectResource bucket key))
  | .ok headed =>
      let (absStart, absLast) := absoluteRange headed.size bounds
      answer (.getObjectRange bucket key absStart (some absLast)) (objectResource bucket key)
        fun r => ⟨206, ((objectHeaders E.httpDate r.1).set CONTENT_LENGTH
          (Nat.toDigits 10 r.2.1)).set CONTENT_RANGE (contentRange absStart absLast headed.size),
          .bytes r.2.2⟩

/-- `get_object_version_response`. -/
def getObjectVersion (bucket key versionId : Str) : Api HttpResponse :=
  answer (.getObjectVersion bucket key versionId) (objectResource bucket key) fun r =>
    objectResponse E r.1 r.2

/-- `get_object_dispatch`. -/
def getObjectDispatch (bucket key : Str) (req : Request) (params : Str → Option Str) :
    Api HttpResponse :=
  if key = [] then listObjectsInner E bucket params
  else
    match params "uploadId".toList with
    | some uploadId => listParts bucket key uploadId
    | none =>
        if (params "tagging".toList).isSome then getObjectTagging bucket key
        else if (params "retention".toList).isSome then getObjectRetention E bucket key
        else if (params "legal-hold".toList).isSome then getObjectLegalHold bucket key
        else
          match params "versionId".toList with
          | some versionId => getObjectVersion E bucket key versionId
          | none =>
              match (req.readable "range".toList).bind parseRange with
              | some bounds => getObjectRange E bucket key bounds
              | none =>
                  answer (.getObject bucket key) (objectResource bucket key) fun r =>
                    objectResponse E r.1 r.2

/-- The answer to a `HEAD`. -/
def headResponse (m : ObjectMeta) : HttpResponse :=
  ⟨200, (objectHeaders E.httpDate m).set CONTENT_LENGTH (Nat.toDigits 10 m.size), .empty⟩

/-- `head_object`. -/
def headObject (bucket key : Str) (params : Str → Option Str) : Api HttpResponse :=
  if key = [] then headBucketInner bucket
  else
    match params "versionId".toList with
    | some versionId =>
        answer (.headObjectVersion bucket key versionId) (objectResource bucket key)
          (headResponse E)
    | none => answer (.headObject bucket key) (objectResource bucket key) (headResponse E)

/-! ## `DELETE` and `POST` -/

/-- A delete, unless the object is locked. -/
def deleteUnlocked (bucket key : Str) (c : TraitCall) (f : c.Gives → HttpResponse) :
    Api HttpResponse := do
  match ← checkObjectLock E bucket key with
  | .error e => pure (errorResponse e (objectResource bucket key))
  | .ok _ => answer c (objectResource bucket key) f

/-- `delete_object_dispatch`. -/
def deleteObjectDispatch (bucket key : Str) (params : Str → Option Str) : Api HttpResponse :=
  if key = [] then deleteBucketInner bucket
  else
    match params "uploadId".toList with
    | some uploadId => abortMultipart bucket key uploadId
    | none =>
        if (params "tagging".toList).isSome then deleteObjectTagging bucket key
        else
          match params "versionId".toList with
          | some versionId =>
              deleteUnlocked E bucket key (.deleteObjectVersion bucket key versionId)
                deleteResponse
          | none => deleteUnlocked E bucket key (.deleteObject bucket key) deleteResponse

/-- `post_object_dispatch`. -/
def postObjectDispatch (bucket key : Str) (req : Request) (params : Str → Option Str)
    (body : Body) : Api HttpResponse :=
  if key = [] then postBucketInner E bucket params (bodyText E body)
  else if (params "uploads".toList).isSome then createMultipart E bucket key req
  else
    match params "uploadId".toList with
    | some uploadId => completeMultipart E bucket key uploadId body
    | none =>
        if (params "tagging".toList).isSome then putObjectTagging E bucket key body
        else pure (errorResponse .notImplemented (objectResource bucket key))

end Api

end Kerplace
