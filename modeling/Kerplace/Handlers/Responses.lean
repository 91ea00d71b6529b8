/-
# `Kerplace.Handlers.Responses` — what the handlers answer

An answer is a status, headers and a body.  Documents are kept as what they hold, before they
are put into XML; an error is kept with the resource it names, beside the text it is sent as.
A header that cannot be sent, since its text has control characters, is left out.
-/
import Kerplace.Handlers.Listing
import Kerplace.Handlers.Trait

namespace Kerplace

/-! ## Errors -/

namespace S3Error

/-- `code`. -/
def code : S3Error → Str
  | .noSuchBucket => "NoSuchBucket".toList
  | .noSuchKey => "NoSuchKey".toList
  | .bucketAlreadyOwnedByYou => "BucketAlreadyOwnedByYou".toList
  | .bucketNotEmpty => "BucketNotEmpty".toList
  | .invalidBucketName => "InvalidBucketName".toList
  | .noSuchUpload => "NoSuchUpload".toList
  | .invalidPart => "InvalidPart".toList
  | .entityTooSmall => "EntityTooSmall".toList
  | .accessDenied => "AccessDenied".toList
  | .signatureDoesNotMatch => "SignatureDoesNotMatch".toList
  | .invalidAccessKeyId => "InvalidAccessKeyId".toList
  | .authorizationHeaderMalformed => "AuthorizationHeaderMalformed".toList
  | .invalidArgument _ => "InvalidArgument".toList
  | .notImplemented => "NotImplemented".toList
  | .internal _ => "InternalError".toList
  | .noSuchBucketEncryption => "ServerSideEncryptionConfigurationNotFoundError".toList
  | .noSuchBucketPolicy => "NoSuchBucketPolicy".toList
  | .noSuchLifecycleConfiguration => "NoSuchLifecycleConfiguration".toList
  | .objectLocked => "ObjectLocked".toList
  | .noSuchVersion => "NoSuchVersion".toList
  | .methodNotAllowed => "MethodNotAllowed".toList

/-- `message`. -/
def message : S3Error → Str
  | .noSuchBucket => "The specified bucket does not exist.".toList
  | .noSuchKey => "The specified key does not exist.".toList
  | .bucketAlreadyOwnedByYou =>
      "The bucket you tried to create already exists, and you own it.".toList
  | .bucketNotEmpty => "The bucket you tried to delete is not empty.".toList
  | .invalidBucketName => "The specified bucket is not valid.".toList
  | .noSuchUpload => "The specified multipart upload does not exist.".toList
  | .invalidPart => "One or more of the specified parts could not be found.".toList
  | .entityTooSmall =>
      "Your proposed upload is smaller than the minimum allowed object size.".toList
  | .accessDenied => "Access Denied.".toList
  | .signatureDoesNotMatch =>
      "The request signature we calculated does not match the signature you provided.".toList
  | .invalidAccessKeyId =>
      "The access key Id you provided does not exist in our records.".toList
  | .authorizationHeaderMalformed =>
      "The authorization header that you provided is not valid.".toList
  | .invalidArgument m => m.toList
  | .notImplemented => "A header or operation you provided is not implemented.".toList
  | .internal m => "We encountered an internal error: ".toList ++ m.toList
  | .noSuchBucketEncryption =>
      "The server side encryption configuration was not found.".toList
  | .noSuchBucketPolicy => "The bucket policy does not exist.".toList
  | .noSuchLifecycleConfiguration => "The lifecycle configuration does not exist.".toList
  | .objectLocked =>
      "Object is protected by an active lock and cannot be deleted or modified.".toList
  | .noSuchVersion => "The specified version does not exist.".toList
  | .methodNotAllowed =>
      "The specified method is not allowed against this resource.".toList

/-- `status`. -/
def status : S3Error → Nat
  | .noSuchBucket => 404
  | .noSuchKey => 404
  | .noSuchUpload => 404
  | .bucketAlreadyOwnedByYou => 409
  | .bucketNotEmpty => 409
  | .invalidBucketName => 400
  | .invalidPart => 400
  | .entityTooSmall => 400
  | .authorizationHeaderMalformed => 400
  | .invalidArgument _ => 400
  | .accessDenied => 403
  | .signatureDoesNotMatch => 403
  | .invalidAccessKeyId => 403
  | .notImplemented => 501
  | .internal _ => 500
  | .noSuchBucketEncryption => 404
  | .noSuchBucketPolicy => 404
  | .noSuchLifecycleConfiguration => 404
  | .objectLocked => 403
  | .noSuchVersion => 404
  | .methodNotAllowed => 405

theorem status_le (e : S3Error) : 400 ≤ e.status := by
  cases e <;> simp [status]

end S3Error

/-- One of the replacements of `xml_escape`. -/
def replaceChar (c : Char) (text : Str) (s : Str) : Str :=
  s.flatMap fun x => if x = c then text else [x]

/-- `xml_escape`. -/
def xmlEscape (s : Str) : Str :=
  replaceChar '\'' "&apos;".toList (replaceChar '"' "&quot;".toList
    (replaceChar '>' "&gt;".toList (replaceChar '<' "&lt;".toList
      (replaceChar '&' "&amp;".toList s))))

/-- The text of an error, as `into_response_with_resource` sends it. -/
def errorDocument (e : S3Error) (resource : Str) (requestId : Uuid) : Str :=
  "<?xml version=\"1.0\" encoding=\"UTF-8\"?><Error><Code>".toList ++ e.code ++
    "</Code><Message>".toList ++ xmlEscape e.message ++ "</Message><Resource>".toList ++
    xmlEscape resource ++ "</Resource><RequestId>".toList ++ requestId.text ++
    "</RequestId></Error>".toList

/-! ## Documents -/

/-- `ObjectRetention`. -/
structure ObjectRetention where
  mode : Option Str
  retainUntilDate : Option Str
  deriving DecidableEq

/-- `ObjectRetention::default`. -/
def ObjectRetention.default : ObjectRetention := ⟨none, none⟩

/-- `VersionXml`; the owner's two names are one. -/
structure VersionXml where
  key : Str
  versionId : Str
  isLatest : Bool
  lastModified : Int
  etag : Str
  size : Nat
  storageClass : Str
  owner : Option Str
  deriving DecidableEq

/-- `DeleteMarkerXml`. -/
structure DeleteMarkerXml where
  key : Str
  versionId : Str
  isLatest : Bool
  lastModified : Int
  deriving DecidableEq

/-- `ListVersionsResult`. -/
structure ListVersionsResult where
  name : Str
  pre : Str
  keyMarker : Str
  versionIdMarker : Str
  maxKeys : Nat
  delimiter : Option Str
  isTruncated : Bool
  nextKeyMarker : Option Str
  nextVersionIdMarker : Option Str
  version : List VersionXml
  deleteMarker : List DeleteMarkerXml
  commonPrefixes : List Str
  deriving DecidableEq

/-- `DeleteError`. -/
structure DeleteError where
  key : Str
  code : Str
  message : Str
  deriving DecidableEq

/-- The documents of the answers; of a date its value, not its text. -/
inductive XmlDoc where
  | listAllMyBuckets (buckets : List BucketInfo)
  | listBucket (r : ListBucketResult)
  | listVersions (r : ListVersionsResult)
  | deleteResult (deleted : List Str) (errors : List DeleteError)
  | encryption (sseAlgorithm : Str)
  | tagging (tags : List (Str × Str))
  | versioning (status : Option Str)
  | lifecycle (raw : Str)
  | objectLock (enabled : Str)
  | initiateMultipart (bucket key uploadId : Str)
  | completeMultipart (location bucket key etag : Str)
  | listParts (bucket key uploadId : Str) (parts : List PartInfo)
  | copyObject (lastModified : Int) (etag : Str)
  | retention (r : ObjectRetention)
  | legalHold (status : Str)
  | postResponse (text : Str)
  deriving DecidableEq

/-- The body of an answer. -/
inductive Payload where
  | empty
  | error (e : S3Error) (resource : Str)
  | xml (doc : XmlDoc)
  | json (text : Str)
  | bytes (data : Bytes)
  | rejection
  deriving DecidableEq

/-! ## Headers -/

/-- `HeaderMap` of an answer: one text to a name. -/
abbrev Headers := List (Str × Str)

/-- `HeaderValue::from_str`: control characters spoil it. -/
def headerValue (s : Str) : Option Str :=
  if s.all fun c => c = '\t' || (decide (32 ≤ c.toNat) && decide (c.toNat ≠ 127)) then some s
  else none

/-- The characters of a header name. -/
def isTokenChar (c : Char) : Bool := c.isAlphanum || "!#$%&'*+-.^_`|~".toList.contains c

/-- `HeaderName::from_bytes`: letters become small ones. -/
def headerName (s : Str) : Option Str :=
  if decide (s ≠ []) && s.all isTokenChar then some (s.map Char.toLower) else none

/-- `insert`: the new text takes the place of an old one. -/
def Headers.insert (h : Headers) (name text : Str) : Headers :=
  h.filter (fun p => decide (p.1 ≠ name)) ++ [(name, text)]

/-- Insert a text that can be sent. -/
def Headers.set (h : Headers) (name text : Str) : Headers :=
  match headerValue text with
  | some v => h.insert name v
  | none => h

/-- Insert a text that can be sent, where there is one. -/
def Headers.setOpt (h : Headers) (name : Str) (text : Option Str) : Headers :=
  match text with
  | some v => h.set name v
  | none => h

/-- The text of a name. -/
def Headers.get (h : Headers) (name : Str) : Option Str :=
  (h.find? fun p => decide (p.1 = name)).map Prod.snd

/-- An answer. -/
structure HttpResponse where
  status : Nat
  headers : Headers
  body : Payload
  deriving DecidableEq

def CONTENT_TYPE : Str := "content-type".toList
def CONTENT_LENGTH : Str := "content-length".toList
def CONTENT_RANGE : Str := "content-range".toList
def ETAG : Str := "etag".toList
def LOCATION : Str := "location".toList
def X_AMZ_SSE : Str := "x-amz-server-side-encryption".toList
def X_AMZ_VERSION_ID : Str := "x-amz-version-id".toList
def X_AMZ_META : Str := "x-amz-meta-".toList

/-- A status alone. -/
def statusOnly (status : Nat) : HttpResponse := ⟨status, [], .empty⟩

/-- `xml_response` with the status 200. -/
def xmlResponse (doc : XmlDoc) : HttpResponse :=
  ⟨200, [(CONTENT_TYPE, "application/xml".toList)], .xml doc⟩

/-- A status and one header; a text that cannot be sent is a failure of the server. -/
def statusWith (status : Nat) (name text : Str) : HttpResponse :=
  match headerValue text with
  | some v => ⟨status, [(name, v)], .empty⟩
  | none => ⟨500, [], .rejection⟩

/-- `into_response_with_resource`. -/
def errorResponse (e : S3Error) (resource : Str) : HttpResponse :=
  ⟨e.status, [(CONTENT_TYPE, "application/xml".toList)], .error e resource⟩

/-- The SSE header of an object. -/
def Headers.setSse (h : Headers) (encrypted : Bool) : Headers :=
  if encrypted then h.insert X_AMZ_SSE "AES256".toList else h

/-- One user header. -/
def Headers.setUser (h : Headers) (entry : Str × Str) : Headers :=
  match headerName (X_AMZ_META ++ entry.1), headerValue entry.2 with
  | some name, some v => h.insert name v
  | _, _ => h

/-- `object_headers`; `httpDate` renders the date. -/
def objectHeaders (httpDate : Int → Str) (m : ObjectMeta) : Headers :=
  let h := ((Headers.set [] CONTENT_TYPE m.contentType).set ETAG (quoteEtag m.etag)).set
    "last-modified".toList (httpDate m.lastModified)
  let h := (h.insert "accept-ranges".toList "bytes".toList).setSse m.encrypted
  let h := h.setOpt X_AMZ_VERSION_ID m.versionId
  let h := h.setOpt "x-kerplace-author".toList (m.audit.bind VersionAudit.author)
  let h := h.setOpt "x-kerplace-source-ip".toList (m.audit.bind VersionAudit.sourceIp)
  m.userMetadata.foldl Headers.setUser h

/-- `delete_response`. -/
def deleteResponse (outcome : DeleteOutcome) : HttpResponse :=
  let h := Headers.setOpt [] X_AMZ_VERSION_ID outcome.versionId
  ⟨204, if outcome.deleteMarker then h.insert "x-amz-delete-marker".toList "true".toList else h,
    .empty⟩

/-- `build_post_response`; the texts go into the document and the redirect as they are, but
for the ETag. -/
def buildPostResponse (P : PercentCoding) (bucket key etag : Str) (redirect status : Option Str) :
    HttpResponse :=
  let quoted := '"' :: etag ++ ['"']
  match redirect with
  | some url =>
      let sep := if '?' ∈ url then '&' else '?'
      statusWith 303 LOCATION (url ++ sep :: "bucket=".toList ++ bucket ++ "&key=".toList ++ key ++
        "&etag=".toList ++ P.utf8PercentEncode NON_ALPHANUMERIC quoted)
  | none =>
      if status = some "200".toList ∨ status = some "201".toList then
        ⟨if status = some "201".toList then 201 else 200,
          [(CONTENT_TYPE, "application/xml".toList)], .xml (.postResponse
            ("<?xml version=\"1.0\" encoding=\"UTF-8\"?><PostResponse><Location>/".toList ++
              bucket ++ '/' :: key ++ "</Location><Bucket>".toList ++ bucket ++
              "</Bucket><Key>".toList ++ key ++ "</Key><ETag>".toList ++ quoted ++
              "</ETag></PostResponse>".toList))⟩
      else statusOnly 204

end Kerplace
