/-
# `Kerplace.Handlers.Trait` — the storage seam as the handlers see it

The handlers know the store by the `ObjectStore` trait only.  A handler is a program over the
trait's calls: what a call answers is not said here, so what is shown of a handler holds of it
over every store, and over either backend in particular.

An answer carries what the handlers read of it; a stream is its bytes.
-/
import Kerplace.Erasure.Listing
import Kerplace.Lib.Prog
import Kerplace.Storage.VersionPaging

namespace Kerplace

/-- `BucketInfo`. -/
structure BucketInfo where
  name : Str
  creationDate : Int
  deriving DecidableEq

/-- The calls of the `ObjectStore` trait that the S3 handlers make. -/
inductive TraitCall where
  | createBucket (bucket : Str)
  | deleteBucket (bucket : Str)
  | listBuckets
  | headBucket (bucket : Str)
  | putObject (bucket key : Str) (body : Body) (contentType : Str) (userMetadata : UserMeta)
      (encrypt : Bool)
  | getObject (bucket key : Str)
  | getObjectRange (bucket key : Str) (start : Nat) (end_ : Option Nat)
  | headObject (bucket key : Str)
  | deleteObject (bucket key : Str)
  | getObjectVersion (bucket key versionId : Str)
  | headObjectVersion (bucket key versionId : Str)
  | deleteObjectVersion (bucket key versionId : Str)
  | listObjectVersions (bucket pre : Str) (delimiter keyMarker versionIdMarker : Option Str)
      (maxKeys : Nat)
  | copyObject (srcBucket srcKey dstBucket dstKey : Str) (encrypt : Bool)
  | listObjectsV2 (bucket pre : Str) (delimiter continuationToken startAfter : Option Str)
      (maxKeys : Nat)
  | createMultipart (bucket key contentType : Str) (userMetadata : UserMeta) (encrypt : Bool)
  | uploadPart (bucket key uploadId : Str) (partNumber : Nat) (body : Body)
  | completeMultipart (bucket key uploadId : Str) (parts : List CompletedPart)
  | abortMultipart (bucket key uploadId : Str)
  | listParts (bucket key uploadId : Str)
  | getBucketEncryption (bucket : Str)
  | setBucketEncryption (bucket sseType : Str)
  | deleteBucketEncryption (bucket : Str)
  | getBucketPolicy (bucket : Str)
  | setBucketPolicy (bucket policy : Str)
  | deleteBucketPolicy (bucket : Str)
  | getBucketTags (bucket : Str)
  | setBucketTags (bucket : Str) (tags : UserMeta)
  | deleteBucketTags (bucket : Str)
  | getBucketVersioning (bucket : Str)
  | setBucketVersioning (bucket status : Str)
  | getBucketLifecycle (bucket : Str)
  | setBucketLifecycle (bucket xml : Str)
  | deleteBucketLifecycle (bucket : Str)
  | getObjectTags (bucket key : Str)
  | setObjectTags (bucket key : Str) (tags : UserMeta)
  | deleteObjectTags (bucket key : Str)
  | getObjectRetention (bucket key : Str)
  | setObjectRetention (bucket key data : Str)
  | getObjectLegalHold (bucket key : Str)
  | setObjectLegalHold (bucket key status : Str)
  deriving DecidableEq

namespace TraitCall

/-- What a call gives when it succeeds. -/
abbrev Gives : TraitCall → Type
  | .listBuckets => List BucketInfo
  | .putObject .. => ObjectMeta
  | .getObject .. => ObjectMeta × Bytes
  | .getObjectRange .. => ObjectMeta × Nat × Bytes
  | .headObject .. => ObjectMeta
  | .deleteObject .. => DeleteOutcome
  | .getObjectVersion .. => ObjectMeta × Bytes
  | .headObjectVersion .. => ObjectMeta
  | .deleteObjectVersion .. => DeleteOutcome
  | .listObjectVersions .. => VersionPage
  | .copyObject .. => ObjectMeta
  | .listObjectsV2 .. => Listing
  | .createMultipart .. => Str
  | .uploadPart .. => Str
  | .completeMultipart .. => ObjectMeta
  | .listParts .. => List PartInfo
  | .getBucketEncryption _ => Option Str
  | .getBucketPolicy _ => Option Str
  | .getBucketTags _ => Option UserMeta
  | .getBucketVersioning _ => Str
  | .getBucketLifecycle _ => Option Str
  | .getObjectTags .. => Option UserMeta
  | .getObjectRetention .. => Option Str
  | .getObjectLegalHold .. => Option Str
  | _ => Unit

/-- A call's answer. -/
abbrev Ans (c : TraitCall) : Type := Except S3Error c.Gives

/-- The bucket a call acts on: of a copy, where it goes. -/
def bucket : TraitCall → Option Str
  | .listBuckets => none
  | .createBucket b => some b
  | .deleteBucket b => some b
  | .headBucket b => some b
  | .putObject b .. => some b
  | .getObject b _ => some b
  | .getObjectRange b .. => some b
  | .headObject b _ => some b
  | .deleteObject b _ => some b
  | .getObjectVersion b .. => some b
  | .headObjectVersion b .. => some b
  | .deleteObjectVersion b .. => some b
  | .listObjectVersions b .. => some b
  | .copyObject _ _ b .. => some b
  | .listObjectsV2 b .. => some b
  | .createMultipart b .. => some b
  | .uploadPart b .. => some b
  | .completeMultipart b .. => some b
  | .abortMultipart b .. => some b
  | .listParts b .. => some b
  | .getBucketEncryption b => some b
  | .setBucketEncryption b _ => some b
  | .deleteBucketEncryption b => some b
  | .getBucketPolicy b => some b
  | .setBucketPolicy b _ => some b
  | .deleteBucketPolicy b => some b
  | .getBucketTags b => some b
  | .setBucketTags b _ => some b
  | .deleteBucketTags b => some b
  | .getBucketVersioning b => some b
  | .setBucketVersioning b _ => some b
  | .getBucketLifecycle b => some b
  | .setBucketLifecycle b _ => some b
  | .deleteBucketLifecycle b => some b
  | .getObjectTags b _ => some b
  | .setObjectTags b .. => some b
  | .deleteObjectTags b _ => some b
  | .getObjectRetention b _ => some b
  | .setObjectRetention b .. => some b
  | .getObjectLegalHold b _ => some b
  | .setObjectLegalHold b .. => some b

/-- The bucket a copy reads from. -/
def source : TraitCall → Option Str
  | .copyObject b .. => some b
  | _ => none

/-- The calls that only look. -/
def reads : TraitCall → Bool
  | .listBuckets => true
  | .headBucket _ => true
  | .getObject .. => true
  | .getObjectRange .. => true
  | .headObject .. => true
  | .getObjectVersion .. => true
  | .headObjectVersion .. => true
  | .listObjectVersions .. => true
  | .listObjectsV2 .. => true
  | .listParts .. => true
  | .getBucketEncryption _ => true
  | .getBucketPolicy _ => true
  | .getBucketTags _ => true
  | .getBucketVersioning _ => true
  | .getBucketLifecycle _ => true
  | .getObjectTags .. => true
  | .getObjectRetention .. => true
  | .getObjectLegalHold .. => true
  | _ => false

/-- What a writing request looks at on its way: whether the bucket encrypts, whether an object
is locked, whether the bucket is there. -/
def asks : TraitCall → Bool
  | .headBucket _ => true
  | .getBucketEncryption _ => true
  | .getObjectRetention .. => true
  | .getObjectLegalHold .. => true
  | _ => false

/-- Whether a call stores an object or opens an upload, and is told to encrypt it. -/
def encrypts : TraitCall → Option Bool
  | .putObject _ _ _ _ _ encrypt => some encrypt
  | .copyObject _ _ _ _ encrypt => some encrypt
  | .createMultipart _ _ _ _ encrypt => some encrypt
  | _ => none

end TraitCall

/-- Programs over the trait. -/
abbrev Api (α : Type) := Prog TraitCall TraitCall.Ans α

end Kerplace
