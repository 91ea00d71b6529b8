/-
# `Kerplace.Fs.Layout` — what the filesystem store keeps below its root

The records the filesystem store serializes, its configuration and its path
helpers.  Payloads of current objects stand below their bucket's directory;
everything else stands in the system directory, in trees that repeat the
bucket and the key: metadata and sidecars by appending a suffix to the key,
archived versions and the history in a directory named after it.
-/
import Kerplace.Erasure.Layout

namespace Kerplace

/-! ## Records -/

/-- `StoredMeta`. -/
structure StoredMeta where
  etag : Str
  size : Nat
  contentType : Str
  userMetadata : UserMeta
  lastModified : Int
  encrypted : Bool
  versionId : Option Str
  deriving DecidableEq

/-- `VersionEntry`. -/
structure VersionEntry where
  versionId : Str
  deleteMarker : Bool
  lastModified : Int
  etag : Str
  size : Nat
  deriving DecidableEq

/-- `VersionHistory`, newest entry first. -/
structure VersionHistory where
  versions : List VersionEntry
  deriving DecidableEq

/-- `UploadManifest` of the filesystem store: the key, but not the bucket, which is in the
upload's path. -/
structure StagedUpload where
  key : Str
  contentType : Str
  userMetadata : UserMeta
  created : Int
  encrypt : Bool
  deriving DecidableEq

/-- The documents of a filesystem store; `status`, `sse` and `text` as on the erasure
store. -/
inductive FsDoc where
  | stored (m : StoredMeta)
  | history (h : VersionHistory)
  | upload (m : StagedUpload)
  | part (m : PartMeta)
  | tags (m : UserMeta)
  | status (s : Str)
  | sse (s : Str)
  | text (s : Str)
  deriving DecidableEq

namespace FsDoc

def stored? : FsDoc → Option StoredMeta
  | .stored m => some m
  | _ => none

def history? : FsDoc → Option VersionHistory
  | .history h => some h
  | _ => none

def upload? : FsDoc → Option StagedUpload
  | .upload m => some m
  | _ => none

def part? : FsDoc → Option PartMeta
  | .part m => some m
  | _ => none

def tags? : FsDoc → Option UserMeta
  | .tags m => some m
  | _ => none

def status? : FsDoc → Option Str
  | .status s => some s
  | _ => none

def text? : FsDoc → Option Str
  | .text s => some s
  | _ => none

end FsDoc

/-! ## Configuration -/

/-- `FsStore`, with the MD5 digest, the length of a document as it is encoded, and the
modification time the file system has for a path. -/
structure FsStore where
  crypto : Crypto
  encryptAll : Bool
  md5 : Bytes → Bytes
  encodedLen : FsDoc → Nat
  modified : UnixPath → Int

/-- What one call takes from its surroundings: as on the erasure store, and the names of
the temporary files it creates. -/
structure FsEnv extends CallEnv where
  tmpId : Uuid
  sealedId : Uuid

namespace FsStore

/-- `should_encrypt`. -/
def shouldEncrypt (S : FsStore) (encrypt : Bool) : Bool := encrypt || S.encryptAll

/-- The length of a file. -/
def fileLen (S : FsStore) : Content FsDoc → Nat
  | .raw b => b.length
  | .doc j => S.encodedLen j

end FsStore

/-! ## Paths -/

/-- `DIR_MARKER`. -/
def DIR_MARKER : Str := ".kerplace.dirobject".toList

/-- The trees of the system directory. -/
def TMP : Str := "tmp".toList
def META : Str := "meta".toList
def VERSIONS : Str := "versions".toList

/-- The suffixes of metadata and of archived payloads. -/
def JSON : Str := ".json".toList
def DATA : Str := ".data".toList

namespace FsStore

/-- `tmp_dir`. -/
def tmpDir : UnixPath := (UnixPath.ofStr SYS_DIR).joinStr TMP

/-- `meta_root`. -/
def metaRoot : UnixPath := (UnixPath.ofStr SYS_DIR).joinStr META

/-- `multipart_root`. -/
def multipartRoot : UnixPath := (UnixPath.ofStr SYS_DIR).joinStr MULTIPART

/-- `bucket_cfg_dir`. -/
def bucketCfgDir (bucket : Str) : UnixPath :=
  ((UnixPath.ofStr SYS_DIR).joinStr BUCKETS).joinStr bucket

/-- `bucket_path`. -/
def bucketPath (bucket : Str) : UnixPath := .ofStr bucket

/-- `key.strip_suffix('/')`. -/
def stripSlash (key : Str) : Option Str :=
  if key.getLast? = some '/' then some key.dropLast else none

/-- `object_path`. -/
def objectPath (bucket key : Str) : UnixPath :=
  match stripSlash key with
  | some dir => ((bucketPath bucket).joinStr dir).joinStr DIR_MARKER
  | none => (bucketPath bucket).joinStr key

/-- `meta_path`. -/
def metaPath (bucket key : Str) : UnixPath :=
  match stripSlash key with
  | some dir => ((metaRoot.joinStr bucket).joinStr dir).joinStr (DIR_MARKER ++ JSON)
  | none => (metaRoot.joinStr bucket).joinStr (key ++ JSON)

/-- `upload_dir`. -/
def uploadDir (bucket uploadId : Str) : UnixPath :=
  (multipartRoot.joinStr bucket).joinStr uploadId

/-- `bucket_cfg_file`. -/
def bucketCfgFile (bucket file : Str) : UnixPath := (bucketCfgDir bucket).joinStr file

/-- `object_sidecar`. -/
def objectSidecar (bucket key suffix : Str) : UnixPath :=
  (metaRoot.joinStr bucket).joinStr (key ++ '.' :: suffix)

/-- `versions_root`. -/
def versionsRoot : UnixPath := (UnixPath.ofStr SYS_DIR).joinStr VERSIONS

/-- `version_dir`. -/
def versionDir (bucket key : Str) : UnixPath := (versionsRoot.joinStr bucket).joinStr key

/-- `version_data_path`. -/
def versionDataPath (bucket key vid : Str) : UnixPath :=
  (versionDir bucket key).joinStr (vid ++ DATA)

/-- `version_meta_path`. -/
def versionMetaPath (bucket key vid : Str) : UnixPath :=
  (versionDir bucket key).joinStr (vid ++ JSON)

/-- `history_path`. -/
def historyPath (bucket key : Str) : UnixPath := (versionDir bucket key).joinStr HISTORY

/-- A temporary file. -/
def tmpFile (id : Uuid) : UnixPath := tmpDir.joinStr id.text

end FsStore

end Kerplace
