/-
# `Kerplace.Handlers.BucketApi` — the bucket handlers

`GET`, `PUT`, `DELETE`, `HEAD` and `POST` of a bucket, as programs over the store's trait.
The query of a request says which of its sub-resources is meant: the first that it names, in
the handler's order.

What libraries read of a body, and the text of what they complain of, is a parameter.
-/
import Kerplace.Handlers.Responses
import Kerplace.Auth.Signing

namespace Kerplace

/-! ## What a request brings -/

/-- What `quick_xml` reads, or says of what it cannot read. -/
structure XmlReader where
  completeMultipart : Str → Except String (List CompletedPart)
  delete : Str → Except String (List Str × Bool)
  encryption : Str → Except String Str
  tagging : Str → Except String (List (Str × Str))
  versioning : Str → Except String (Option Str)
  lifecycle : Str → Except String Unit
  retention : Str → Except String ObjectRetention
  legalHold : Str → Except String Str
  writeRetention : ObjectRetention → Str

/-- One field of a form: its name, the name of its file, its text where that can be read, and
its bytes. -/
structure FormField where
  name : Option Str
  fileName : Option Str
  text : Option Str
  content : Body

/-- What the handlers take from their surroundings: the libraries, the configuration and the
clock. -/
structure ApiEnv where
  percent : PercentCoding
  xml : XmlReader
  rfc3339 : Str → Option Int
  httpDate : Int → Str
  fromUtf8Lossy : Bytes → Str
  bodyError : Body → String
  toUppercase : Str → Str
  form : Str → Option (Body → List FormField)
  decodePath : Str → Option Str
  encryptionEnabled : Bool
  now : Int

/-- `axum::body::to_bytes`. -/
def toBytes (limit : Nat) (body : Body) : Option Bytes :=
  if body.err || decide (limit < body.data.length) then none else some body.data

/-- `/{bucket}`. -/
def bucketResource (bucket : Str) : Str := '/' :: bucket

/-- `/{bucket}/{key}`. -/
def objectResource (bucket key : Str) : Str := '/' :: bucket ++ '/' :: key

/-- `BTreeMap::insert`. -/
def mapInsert (name value : Str) : UserMeta → UserMeta
  | [] => [(name, value)]
  | p :: m =>
      if name < p.1 then (name, value) :: p :: m
      else if name = p.1 then (name, value) :: m
      else p :: mapInsert name value m

/-- A map of pairs, the last of a name. -/
def collectMap (pairs : List (Str × Str)) : UserMeta :=
  pairs.foldl (fun m p => mapInsert p.1 p.2 m) []

/-- `content_type_of`. -/
def contentTypeOf (req : Request) : Str :=
  (req.readable CONTENT_TYPE).getD "application/octet-stream".toList

/-- `sse_requested`. -/
def sseRequested (req : Request) : Bool :=
  ((req.readable X_AMZ_SSE).map fun v => eqIgnoreAsciiCase v "AES256".toList).getD false

/-- The user header of a name. -/
def userHeader (h : Str × Option Str) : Option (Str × Str) := do
  let suffix ← h.1.dropPrefix? X_AMZ_META
  let v ← h.2
  pure (suffix, v)

/-- `extract_user_metadata`. -/
def extractUserMetadata (req : Request) : UserMeta :=
  collectMap (req.headers.filterMap userHeader)

/-- `str::replace`, past the characters of a match. -/
def replaceFrom (pat text : Str) : Nat → Str → Str
  | _, [] => []
  | n + 1, _ :: s => replaceFrom pat text n s
  | 0, c :: s =>
      if pat.isPrefixOf (c :: s) then text ++ replaceFrom pat text (pat.length - 1) s
      else c :: replaceFrom pat text 0 s

namespace Api

/-- Call the store, and answer with what it gives, or with its error. -/
def answer (c : TraitCall) (resource : Str) (f : c.Gives → HttpResponse) : Api HttpResponse := do
  match ← Prog.op c with
  | .ok a => pure (f a)
  | .error e => pure (errorResponse e resource)

/-- Whether the bucket encrypts by default; one that cannot be asked does not. -/
def bucketSse (bucket : Str) : Api Bool := do
  match ← Prog.op (TraitCall.getBucketEncryption bucket) with
  | .ok sse => pure sse.isSome
  | .error _ => pure false

variable (E : ApiEnv)

/-- `read_body`. -/
def readBody (body : Body) : Except S3Error Bytes :=
  match toBytes (8 * 1048576) body with
  | some bytes => .ok bytes
  | none => .error (.invalidArgument ("body read error: " ++ E.bodyError body))

/-- A body read into a document, or the answer to one that cannot be. -/
def withDoc {α : Type} (body : Body) (resource : Str) (read : Str → Except String α)
    (complaint : String → String) (k : α → Api HttpResponse) : Api HttpResponse :=
  match readBody E body with
  | .error e => pure (errorResponse e resource)
  | .ok bytes =>
      match read (E.fromUtf8Lossy bytes) with
      | .error e => pure (errorResponse (.invalidArgument (complaint e)) resource)
      | .ok doc => k doc

/-! ## Buckets -/

/-- `list_buckets`: a scoped identity sees its buckets only. -/
def listBuckets (identity : Option Identity) : Api HttpResponse :=
  answer .listBuckets [] fun buckets =>
    xmlResponse (.listAllMyBuckets (buckets.filter fun b =>
      (identity.map fun i => i.allowsBucket (some b.name)).getD true))

/-- `create_bucket_inner`. -/
def createBucketInner (bucket : Str) : Api HttpResponse :=
  answer (.createBucket bucket) (bucketResource bucket) fun _ =>
    statusWith 200 LOCATION (bucketResource bucket)

/-- `delete_bucket_inner`. -/
def deleteBucketInner (bucket : Str) : Api HttpResponse :=
  answer (.deleteBucket bucket) (bucketResource bucket) fun _ => statusOnly 204

/-- `head_bucket_inner`. -/
def headBucketInner (bucket : Str) : Api HttpResponse :=
  answer (.headBucket bucket) (bucketResource bucket) fun _ => statusOnly 200

/-! ## Sub-resources -/

/-- `get_bucket_encryption`. -/
def getBucketEncryption (bucket : Str) : Api HttpResponse :=
  answer (.getBucketEncryption bucket) (bucketResource bucket) fun sse =>
    match sse with
    | none => errorResponse .noSuchBucketEncryption (bucketResource bucket)
    | some sseType => xmlResponse (.encryption sseType)

/-- `put_bucket_encryption`. -/
def putBucketEncryption (bucket : Str) (body : Body) : Api HttpResponse :=
  withDoc E body (bucketResource bucket) E.xml.encryption ("bad SSE XML: " ++ ·) fun sseType =>
    answer (.setBucketEncryption bucket sseType) (bucketResource bucket) fun _ => statusOnly 200

/-- `get_bucket_policy`. -/
def getBucketPolicy (bucket : Str) : Api HttpResponse :=
  answer (.getBucketPolicy bucket) (bucketResource bucket) fun policy =>
    match policy with
    | none => errorResponse .noSuchBucketPolicy (bucketResource bucket)
    | some policy => ⟨200, [(CONTENT_TYPE, "application/json".toList)], .json policy⟩

/-- `put_bucket_policy`: any text. -/
def putBucketPolicy (bucket : Str) (body : Body) : Api HttpResponse :=
  withDoc E body (bucketResource bucket) .ok id fun policy =>
    answer (.setBucketPolicy bucket policy) (bucketResource bucket) fun _ => statusOnly 204

/-- `get_bucket_tagging`. -/
def getBucketTagging (bucket : Str) : Api HttpResponse :=
  answer (.getBucketTags bucket) (bucketResource bucket) fun tags =>
    xmlResponse (.tagging (tags.getD []))

/-- `put_bucket_tagging`. -/
def putBucketTagging (bucket : Str) (body : Body) : Api HttpResponse :=
  withDoc E body (bucketResource bucket) E.xml.tagging ("bad Tagging XML: " ++ ·) fun tags =>
    answer (.setBucketTags bucket (collectMap tags)) (bucketResource bucket) fun _ =>
      statusOnly 200

/-- `get_bucket_versioning`. -/
def getBucketVersioning (bucket : Str) : Api HttpResponse :=
  answer (.getBucketVersioning bucket) (bucketResource bucket) fun status =>
    xmlResponse (.versioning (if status = [] then none else some status))

/-- `put_bucket_versioning`. -/
def putBucketVersioning (bucket : Str) (body : Body) : Api HttpResponse :=
  withDoc E body (bucketResource bucket) E.xml.versioning ("bad VersioningConfiguration: " ++ ·)
    fun status =>
      answer (.setBucketVersioning bucket (status.getD [])) (bucketResource bucket) fun _ =>
        statusOnly 200

/-- `get_bucket_lifecycle`. -/
def getBucketLifecycle (bucket : Str) : Api HttpResponse :=
  answer (.getBucketLifecycle bucket) (bucketResource bucket) fun raw =>
    match raw with
    | none => errorResponse .noSuchLifecycleConfiguration (bucketResource bucket)
    | some raw => xmlResponse (.lifecycle raw)

/-- `put_bucket_lifecycle`: the document is stored as it came. -/
def putBucketLifecycle (bucket : Str) (body : Body) : Api HttpResponse :=
  withDoc E body (bucketResource bucket) (fun raw => (E.xml.lifecycle raw).map fun _ => raw)
    (fun _ => "bad LifecycleConfiguration XML") fun raw =>
      answer (.setBucketLifecycle bucket raw) (bucketResource bucket) fun _ => statusOnly 200

/-- `get_bucket_object_lock`: a fixed document. -/
def getBucketObjectLock (bucket : Str) : Api HttpResponse :=
  answer (.headBucket bucket) (bucketResource bucket) fun _ =>
    xmlResponse (.objectLock "Disabled".toList)

/-- `put_bucket_object_lock`: accepted and not stored. -/
def putBucketObjectLock (bucket : Str) : Api HttpResponse :=
  answer (.headBucket bucket) (bucketResource bucket) fun _ => statusOnly 200

/-! ## Listings -/

/-- `list_objects_inner`. -/
def listObjectsInner (bucket : Str) (params : Str → Option Str) : Api HttpResponse := do
  let pre := (params "prefix".toList).getD []
  let delimiter := (params "delimiter".toList).filter fun d => decide (d ≠ [])
  let continuation := params "continuation-token".toList
  let startAfter := params "start-after".toList
  let maxKeys := min (((params "max-keys".toList).bind parseUsize).getD 1000) 1000
  let listed ← Prog.op
    (TraitCall.listObjectsV2 bucket pre delimiter continuation startAfter maxKeys)
  match Kerplace.listObjectsInner E.percent (fun _ _ _ _ _ => listed) bucket params with
  | .ok result => pure (xmlResponse (.listBucket result))
  | .error e => pure (errorResponse e (bucketResource bucket))

/-- A row of a version listing, where it is a version. -/
def versionXml (v : ObjectVersion) : VersionXml where
  key := v.key
  versionId := v.versionId
  isLatest := v.isLatest
  lastModified := v.lastModified
  etag := quoteEtag v.etag
  size := v.size
  storageClass := "STANDARD".toList
  owner := v.audit.bind VersionAudit.author

/-- A row of a version listing, where it is a delete marker. -/
def deleteMarkerXml (v : ObjectVersion) : DeleteMarkerXml :=
  ⟨v.key, v.versionId, v.isLatest, v.lastModified⟩

/-- `list_object_versions_handler`. -/
def listObjectVersionsHandler (bucket : Str) (params : Str → Option Str) : Api HttpResponse :=
  let pre := (params "prefix".toList).getD []
  let delimiter := (params "delimiter".toList).filter fun d => decide (d ≠ [])
  let keyMarker := params "key-marker".toList
  let versionIdMarker := params "version-id-marker".toList
  let maxKeys := min (((params "max-keys".toList).bind parseUsize).getD 1000) 1000
  answer (.listObjectVersions bucket pre delimiter keyMarker versionIdMarker maxKeys)
    (bucketResource bucket) fun listing =>
      xmlResponse (.listVersions
        { name := bucket
          pre := pre
          keyMarker := keyMarker.getD []
          versionIdMarker := versionIdMarker.getD []
          maxKeys := maxKeys
          delimiter := delimiter
          isTruncated := listing.isTruncated
          nextKeyMarker := listing.nextKeyMarker
          nextVersionIdMarker := listing.nextVersionIdMarker
          version := (listing.versions.filter fun v => !v.isDeleteMarker).map versionXml
          deleteMarker := (listing.versions.filter fun v => v.isDeleteMarker).map deleteMarkerXml
          commonPrefixes := listing.commonPrefixes })

/-! ## `GET`, `PUT`, `DELETE` -/

/-- `list_objects`. -/
def listObjects (bucket : Str) (params : Str → Option Str) : Api HttpResponse :=
  if (params "versions".toList).isSome then listObjectVersionsHandler bucket params
  else if (params "encryption".toList).isSome then getBucketEncryption bucket
  else if (params "policy".toList).isSome then getBucketPolicy bucket
  else if (params "tagging".toList).isSome then getBucketTagging bucket
  else if (params "versioning".toList).isSome then getBucketVersioning bucket
  else if (params "lifecycle".toList).isSome then getBucketLifecycle bucket
  else if (params "object-lock".toList).isSome then getBucketObjectLock bucket
  else listObjectsInner E bucket params

/-- `create_bucket`. -/
def createBucket (bucket : Str) (params : Str → Option Str) (body : Body) : Api HttpResponse :=
  if (params "encryption".toList).isSome then putBucketEncryption E bucket body
  else if (params "policy".toList).isSome then putBucketPolicy E bucket body
  else if (params "tagging".toList).isSome then putBucketTagging E bucket body
  else if (params "versioning".toList).isSome then putBucketVersioning E bucket body
  else if (params "lifecycle".toList).isSome then putBucketLifecycle E bucket body
  else if (params "object-lock".toList).isSome then putBucketObjectLock bucket
  else createBucketInner bucket

/-- `delete_bucket`. -/
def deleteBucket (bucket : Str) (params : Str → Option Str) : Api HttpResponse :=
  let cleared (c : TraitCall) := answer c (bucketResource bucket) fun _ => statusOnly 204
  if (params "encryption".toList).isSome then cleared (.deleteBucketEncryption bucket)
  else if (params "policy".toList).isSome then cleared (.deleteBucketPolicy bucket)
  else if (params "tagging".toList).isSome then cleared (.deleteBucketTags bucket)
  else if (params "lifecycle".toList).isSome then cleared (.deleteBucketLifecycle bucket)
  else deleteBucketInner bucket

/-! ## `POST` -/

/-- The loop of a batch delete: the keys that are gone, and the errors. -/
def deleteEach (bucket : Str) (quiet : Bool) : List Str → Api (List Str × List DeleteError)
  | [] => pure ([], [])
  | key :: keys => do
      let r ← Prog.op (TraitCall.deleteObject bucket key)
      let (deleted, errors) ← deleteEach bucket quiet keys
      match r with
      | .ok _ => pure (if quiet then deleted else key :: deleted, errors)
      | .error e => pure (deleted, ⟨key, e.code, e.message⟩ :: errors)

/-- `post_bucket_inner`. -/
def postBucketInner (bucket : Str) (params : Str → Option Str) (body : Str) :
    Api HttpResponse := do
  if (params "delete".toList).isNone then
    pure (errorResponse .notImplemented (bucketResource bucket))
  else
    match E.xml.delete body with
    | .error e =>
        pure (errorResponse (.invalidArgument ("malformed Delete body: " ++ e))
          (bucketResource bucket))
    | .ok (objects, quiet) => do
        let (deleted, errors) ← deleteEach bucket quiet objects
        pure (xmlResponse (.deleteResult deleted errors))

/-- The fields of a form before its file. -/
structure FormState where
  key : Option Str
  contentType : Str
  redirect : Option Str
  status : Option Str

/-- No field yet. -/
def FormState.start : FormState := ⟨none, "application/octet-stream".toList, none, none⟩

/-- One text field; others are accepted and not looked at. -/
def FormState.field (s : FormState) (name value : Str) : FormState :=
  if name = "key".toList then { s with key := some value }
  else if name = "Content-Type".toList then { s with contentType := value }
  else if name = "success_action_redirect".toList then { s with redirect := some value }
  else if name = "success_action_status".toList then { s with status := some value }
  else s

/-- The key of an upload: the name of its file takes the place of `${filename}`. -/
def resolveKey (key : Str) (fileName : Option Str) : Str :=
  replaceFrom ['$', '\x7b', 'f', 'i', 'l', 'e', 'n', 'a', 'm', 'e', '\x7d']
    (fileName.getD "upload".toList) 0 key

/-- The file of a form, stored under its key. -/
def storeFile (bucket key : Str) (s : FormState) (content : Body) : Api HttpResponse := do
  let sse ← bucketSse bucket
  answer (.putObject bucket key content s.contentType [] (sse || E.encryptionEnabled))
    (objectResource bucket key) fun m =>
      buildPostResponse E.percent bucket key m.etag s.redirect s.status

/-- The loop of `post_form_object` over the fields. -/
def formFields (bucket : Str) : FormState → List FormField → Api HttpResponse
  | _, [] =>
      pure (errorResponse (.invalidArgument "missing 'file' field in multipart form")
        (bucketResource bucket))
  | s, field :: fields =>
      let name := field.name.getD []
      if name = "file".toList then
        match s.key with
        | none =>
            pure (errorResponse (.invalidArgument "missing 'key' field") (bucketResource bucket))
        | some key => storeFile E bucket (resolveKey key field.fileName) s field.content
      else
        match field.text with
        | none => formFields bucket s fields
        | some value => formFields bucket (s.field name value) fields

/-- `post_form_object`. -/
def postFormObject (bucket contentType : Str) (body : Body) : Api HttpResponse :=
  match E.form contentType with
  | none =>
      pure (errorResponse (.invalidArgument "missing multipart boundary") (bucketResource bucket))
  | some fields => formFields E bucket .start (fields body)

/-- A body as text, and nothing where it cannot be read. -/
def bodyText (body : Body) : Str :=
  ((toBytes (16 * 1048576) body).map E.fromUtf8Lossy).getD []

/-- `post_bucket`. -/
def postBucket (bucket : Str) (req : Request) (params : Str → Option Str) (body : Body) :
    Api HttpResponse :=
  let contentType := (req.readable CONTENT_TYPE).getD []
  if (params "delete".toList).isNone && decide ("multipart/form-data".toList <:+: contentType) then
    postFormObject E bucket contentType body
  else postBucketInner E bucket params (bodyText E body)

end Api

end Kerplace
