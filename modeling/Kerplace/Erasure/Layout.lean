/-
# `Kerplace.Erasure.Layout` — what an erasure store keeps on a drive

The records the store serializes, the store's own configuration, and the
path helpers that lay objects, archived versions, histories, sidecars and
staged uploads out below a drive root.
-/
import Kerplace.Crypto.Container
import Kerplace.Erasure.Codec
import Kerplace.Erasure.Cluster

namespace Kerplace

/-! ## Records -/

/-- `XlMeta`, the per-object metadata replicated on every drive. -/
structure XlMeta where
  version : Nat
  data : Nat
  parity : Nat
  blockSize : Nat
  storedSize : Nat
  size : Nat
  etag : Str
  contentType : Str
  userMetadata : UserMeta
  encrypted : Bool
  lastModified : Int
  owner : Option Str
  srcIp : Option Str
  checksums : List (List Str)
  deriving DecidableEq

/-- `UploadManifest` of a multipart upload. -/
structure UploadManifest where
  bucket : Str
  key : Str
  contentType : Str
  userMetadata : UserMeta
  created : Int
  encrypt : Bool
  deriving DecidableEq

/-- `PartMeta` of a staged part. -/
structure PartMeta where
  etag : Str
  size : Nat
  created : Int
  deriving DecidableEq

/-- `VMode`, a bucket's effective versioning mode. -/
inductive VMode where
  | off
  | enabled
  | suspended
  deriving DecidableEq

/-- `VEntry`, one entry of a version history. -/
structure VEntry where
  versionId : Str
  deleteMarker : Bool
  lastModified : Int
  etag : Str
  size : Nat
  owner : Option Str
  srcIp : Option Str
  deriving DecidableEq

/-- `VHistory`, newest entry first. -/
structure VHistory where
  versions : List VEntry
  epoch : Nat
  deriving DecidableEq

/-- The documents of an erasure store.  `status` is `{"status": …}`, `sse` is
`{"sse": …}`; `text` is a policy, a lifecycle or a retention document, kept as
the text it is. -/
inductive Doc where
  | xl (m : XlMeta)
  | history (h : VHistory)
  | manifest (m : UploadManifest)
  | part (m : PartMeta)
  | tags (m : UserMeta)
  | status (s : Str)
  | sse (s : Str)
  | text (s : Str)
  deriving DecidableEq

namespace Doc

def xl? : Doc → Option XlMeta
  | .xl m => some m
  | _ => none

def history? : Doc → Option VHistory
  | .history h => some h
  | _ => none

def manifest? : Doc → Option UploadManifest
  | .manifest m => some m
  | _ => none

def part? : Doc → Option PartMeta
  | .part m => some m
  | _ => none

def tags? : Doc → Option UserMeta
  | .tags m => some m
  | _ => none

def status? : Doc → Option Str
  | .status s => some s
  | _ => none

def sse? : Doc → Option Str
  | .sse s => some s
  | _ => none

def text? : Doc → Option Str
  | .text s => some s
  | _ => none

end Doc

/-- Store calls of an erasure store. -/
abbrev EStore (n : Nat) (α : Type) := Store n Doc α

/-! ## Configuration -/

/-- `ErasureStore` with its one `Pool`: the codec covers exactly the drives.
`checksum` is the hex BLAKE3 of a shard, `md5` the MD5 digest. -/
structure ErasureStore (n : Nat) where
  codec : Codec
  total_eq : codec.total = n
  blockSize : Nat
  crypto : Crypto
  encryptAll : Bool
  checksum : Bytes → Str
  md5 : Bytes → Bytes

namespace ErasureStore

variable {n : Nat}

/-- `ErasureStore::with_drives` over `n` drives. -/
def withDrives (rs : ShardCode UInt8) (checksum : Bytes → Str) (md5 : Bytes → Bytes)
    (n : Nat) (crypto : Crypto) (encryptAll : Bool) (parity blockSize : Nat) :
    Except S3Error (ErasureStore n) :=
  if n < 2 ∨ parity = 0 ∨ parity ≥ n then
    .error (.internal "erasure: need ≥2 drives and 1 ≤ parity < drives")
  else
    match Codec.new rs (n - parity) parity with
    | .error _ => .error (.internal "erasure codec")
    | .ok codec =>
        if h : codec.total = n then
          .ok ⟨codec, h, blockSize, crypto, encryptAll, checksum, md5⟩
        else .error (.internal "erasure codec")

theorem pos (S : ErasureStore n) : 0 < n := by
  have h1 := S.codec.data_pos
  have h2 := S.total_eq
  unfold Codec.total at h2
  omega

/-- The first shard slot. -/
def drive0 (S : ErasureStore n) : Fin n := ⟨0, S.pos⟩

/-- `should_encrypt`. -/
def shouldEncrypt (S : ErasureStore n) (encrypt : Bool) : Bool := encrypt || S.encryptAll

end ErasureStore

/-! ## Paths -/

/-- `SYS_DIR`. -/
def SYS_DIR : Str := ".kerplace.sys".toList

/-- `XL_META`. -/
def XL_META : Str := "kp.meta".toList

/-- `PART`. -/
def PART : Str := "kp.part".toList

/-- `{PART}.tmp`. -/
def PART_TMP : Str := "kp.part.tmp".toList

/-- The directory of archived versions inside an object directory. -/
def VDIR : Str := ".v".toList

/-- The history file inside `.v`. -/
def HISTORY : Str := "kp.history.json".toList

/-- The system area's directories of bucket configurations and of uploads. -/
def BUCKETS : Str := "buckets".toList
def MULTIPART : Str := "multipart".toList

/-- The configuration sidecar of a bucket's versioning status. -/
def VERSIONING : Str := "versioning.json".toList

/-- The sidecars inside an object's directory. -/
def TAGS : Str := "tags.json".toList
def RETENTION : Str := "retention.json".toList
def LEGALHOLD : Str := "legalhold.json".toList

/-- `r_bucket`. -/
def rBucket (bucket : Str) : UnixPath := .ofStr bucket

/-- `r_object`. -/
def rObject (bucket key : Str) : UnixPath := (UnixPath.ofStr bucket).joinStr key

/-- `r_obj_v`. -/
def rObjV (bucket key : Str) : Option Str → UnixPath
  | some v => ((rObject bucket key).joinStr VDIR).joinStr v
  | none => rObject bucket key

/-- The directory of a bucket's configuration sidecars. -/
def rCfgDir (bucket : Str) : UnixPath :=
  ((UnixPath.ofStr SYS_DIR).joinStr BUCKETS).joinStr bucket

/-- `r_bucket_cfg`. -/
def rBucketCfg (bucket file : Str) : UnixPath := (rCfgDir bucket).joinStr file

/-- `r_obj_sidecar`. -/
def rObjSidecar (bucket key file : Str) : UnixPath := (rObject bucket key).joinStr file

/-- `r_history`. -/
def rHistory (bucket key : Str) : UnixPath :=
  ((rObject bucket key).joinStr VDIR).joinStr HISTORY

/-- `r_upload`. -/
def rUpload (uploadId : Str) : UnixPath :=
  ((UnixPath.ofStr SYS_DIR).joinStr MULTIPART).joinStr uploadId

/-! ## Hexadecimal -/

/-- The digit of a value below sixteen. -/
def hexDigit (v : Nat) : Char := Nat.digitChar v

/-- `hex::encode`. -/
def hexEncode (b : Bytes) : Str :=
  b.flatMap fun x => [hexDigit (x.toNat / 16), hexDigit (x.toNat % 16)]

/-- The value of a hexadecimal digit of either case. -/
def hexVal (c : Char) : Option Nat :=
  if '0' ≤ c ∧ c ≤ '9' then some (c.toNat - '0'.toNat)
  else if 'a' ≤ c ∧ c ≤ 'f' then some (c.toNat - 'a'.toNat + 10)
  else if 'A' ≤ c ∧ c ≤ 'F' then some (c.toNat - 'A'.toNat + 10)
  else none

/-- `hex::decode`. -/
def hexDecode : Str → Option Bytes
  | [] => some []
  | [_] => none
  | a :: b :: s =>
      match hexVal a, hexVal b, hexDecode s with
      | some x, some y, some bs => some (UInt8.ofNat (16 * x + y) :: bs)
      | _, _, _ => none

end Kerplace
