/-
# `Kerplace.Storage.Types` — what both backends share

The error type, the records that cross the storage seam, what a call takes
from its surroundings, and the two validators.  Strings are lists of
characters, sizes and counters are natural numbers, times are seconds since
the epoch.  A record field that only the HTTP layer renders is kept, since
the storage layer fills it in.
-/
import Kerplace.Lib.UnixPath

namespace Kerplace

/-- Payload bytes. -/
abbrev Bytes := List UInt8

/-! ## Errors -/

/-- `S3Error`.  The text of `internal` is the fixed part of the message; what
an I/O error appends to it is left out. -/
inductive S3Error where
  | noSuchBucket
  | noSuchKey
  | bucketAlreadyOwnedByYou
  | bucketNotEmpty
  | invalidBucketName
  | noSuchUpload
  | invalidPart
  | entityTooSmall
  | accessDenied
  | signatureDoesNotMatch
  | invalidAccessKeyId
  | authorizationHeaderMalformed
  | invalidArgument (msg : String)
  | notImplemented
  | internal (msg : String)
  | noSuchBucketEncryption
  | noSuchBucketPolicy
  | noSuchLifecycleConfiguration
  | objectLocked
  | noSuchVersion
  | methodNotAllowed
  deriving DecidableEq

instance decidableEqAnswer {α : Type} [DecidableEq α] : DecidableEq (Except S3Error α)
  | .ok a, .ok b => decidable_of_iff (a = b) ⟨congrArg Except.ok, Except.ok.inj⟩
  | .error e, .error f => decidable_of_iff (e = f) ⟨congrArg Except.error, Except.error.inj⟩
  | .ok _, .error _ => isFalse nofun
  | .error _, .ok _ => isFalse nofun

/-- Whether a call came back with an error. -/
def isErr {α : Type} : Except S3Error α → Bool
  | .ok _ => false
  | .error _ => true

/-! ## Records -/

/-- `VersionAudit`: who wrote a version, and from where. -/
structure VersionAudit where
  author : Option Str
  sourceIp : Option Str
  deriving DecidableEq

/-- `audit.is_some().then_some(audit)`. -/
def VersionAudit.orNone (a : VersionAudit) : Option VersionAudit :=
  if a.author.isSome || a.sourceIp.isSome then some a else none

/-- User metadata, in key order. -/
abbrev UserMeta := List (Str × Str)

/-- `ObjectMeta`. -/
structure ObjectMeta where
  key : Str
  size : Nat
  etag : Str
  lastModified : Int
  contentType : Str
  userMetadata : UserMeta
  encrypted : Bool
  versionId : Option Str
  audit : Option VersionAudit
  deriving DecidableEq

/-- `DeleteOutcome`. -/
structure DeleteOutcome where
  versionId : Option Str
  deleteMarker : Bool
  deriving DecidableEq

/-- `ObjectVersion`, one row of a version listing. -/
structure ObjectVersion where
  key : Str
  versionId : Str
  isLatest : Bool
  lastModified : Int
  etag : Str
  size : Nat
  isDeleteMarker : Bool
  audit : Option VersionAudit
  deriving DecidableEq

/-- `CompletedPart`, one part of a completion request. -/
structure CompletedPart where
  partNumber : Nat
  etag : Str
  deriving DecidableEq

/-- `PartInfo`, one part of a listing. -/
structure PartInfo where
  partNumber : Nat
  etag : Str
  size : Nat
  lastModified : Int
  deriving DecidableEq

/-- `OffsetDateTime::from_unix_timestamp(t).unwrap_or(UNIX_EPOCH)`: the years
-9999 to 9999 are representable. -/
def stampOf (t : Int) : Int :=
  if -377705116800 ≤ t ∧ t ≤ 253402300799 then t else 0

@[simp] theorem stampOf_stampOf (t : Int) : stampOf (stampOf t) = stampOf t := by
  unfold stampOf
  split <;> simp_all

/-- A request body: the bytes it delivers, and whether it then breaks off with
an error instead of ending. -/
structure Body where
  data : Bytes
  err : Bool
  deriving DecidableEq

/-- A body that ends cleanly. -/
def Body.ofBytes (data : Bytes) : Body := ⟨data, false⟩

instance two_ne : NeZero 2 := ⟨by decide⟩

instance three_ne : NeZero 3 := ⟨by decide⟩

/-- A lowercase hexadecimal digit. -/
def isHexLower (c : Char) : Bool :=
  ('0' ≤ c && c ≤ '9') || ('a' ≤ c && c ≤ 'f')

theorem isHexLower_a : isHexLower 'a' = true := rfl

theorem isHexLower_b : isHexLower 'b' = true := rfl

theorem isHexLower_c : isHexLower 'c' = true := rfl

theorem isHexLower_d : isHexLower 'd' = true := rfl

theorem length_digits (digit : Char) : (List.replicate 32 digit).length = 32 :=
  List.length_replicate

theorem isHexLower_digits (digit : Char) (h : isHexLower digit = true) :
    (List.replicate 32 digit).all isHexLower = true := by
  simp [h]

/-- `Uuid::new_v4().simple()`: thirty-two lowercase hexadecimal digits. -/
structure Uuid where
  text : Str
  length_eq : text.length = 32
  hex : text.all isHexLower = true
  deriving DecidableEq

/-- The `[u8; 8]` base nonce of an encrypted object. -/
structure BaseNonce where
  bytes : Bytes
  length_eq : bytes.length = 8
  deriving DecidableEq

/-- What one call takes from its surroundings: the fresh identifiers and
randomness it draws, the clock, and the audit context of its request. -/
structure CallEnv where
  freshId : Uuid
  opaqueEtag : Uuid
  keyRand : Bytes
  baseNonce : BaseNonce
  now : Int
  accessKey : Option Str
  remoteIp : Option Str
  deriving DecidableEq

/-- The surroundings of a call at second `now` that draws the digit `digit`. -/
def callAt (digit : Char) (now : Int) (h : isHexLower digit = true) : CallEnv where
  freshId := ⟨List.replicate 32 digit, length_digits digit, isHexLower_digits digit h⟩
  opaqueEtag := ⟨List.replicate 32 digit, length_digits digit, isHexLower_digits digit h⟩
  keyRand := []
  baseNonce := ⟨List.replicate 8 0, rfl⟩
  now := now
  accessKey := none
  remoteIp := none

/-- The audit record of a call. -/
def CallEnv.audit (env : CallEnv) : VersionAudit := ⟨env.accessKey, env.remoteIp⟩

theorem Uuid.atom (u : Uuid) : UnixPath.Atom u.text := by
  have hlen := u.length_eq
  have hhex := List.all_eq_true.1 u.hex
  refine ⟨fun hs => absurd (hhex _ hs) (by decide), ?_, ?_, ?_⟩ <;> intro he <;>
    simp [he] at hlen

theorem Uuid.ne_of_length (u : Uuid) {s : Str} (hs : s.length ≠ 32) : u.text ≠ s :=
  fun h => hs (h ▸ u.length_eq)

/-! ## Validators -/

def isLowerAlnum (c : Char) : Bool :=
  ('a' ≤ c && c ≤ 'z') || ('0' ≤ c && c ≤ '9')

/-- `p.parse::<u8>().is_ok()` on a string of lowercase letters, digits and
hyphens. -/
def parsesU8 (p : Str) : Bool :=
  !p.isEmpty && p.all (fun c => '0' ≤ c && c ≤ '9') &&
    decide (p.foldl (fun n c => 10 * n + (c.toNat - '0'.toNat)) 0 ≤ 255)

/-- Whether two dots stand next to each other. -/
def hasDotDot : Str → Bool
  | '.' :: '.' :: _ => true
  | _ :: s => hasDotDot s
  | [] => false

/-- `validate_bucket_name`. -/
def validateBucketName (name : Str) : Except S3Error Unit :=
  if !(3 ≤ name.length && name.length ≤ 63) then .error .invalidBucketName
  else if !(name.head?.any isLowerAlnum) || !(name.getLast?.any isLowerAlnum) then
    .error .invalidBucketName
  else if !(name.all fun c => isLowerAlnum c || c == '-' || c == '.') then
    .error .invalidBucketName
  else if hasDotDot name then .error .invalidBucketName
  else if (name.splitOn '.').length == 4 && (name.splitOn '.').all parsesU8 then
    .error .invalidBucketName
  else .ok ()

/-- `validate_key`. -/
def validateKey (key : Str) : Except S3Error Unit :=
  if key.isEmpty then .error (.invalidArgument "object key is empty")
  else if key.head? == some '/' || key.contains '\\' then
    .error (.invalidArgument "invalid object key")
  else if (key.splitOn '/').any fun seg => seg == ['.', '.'] || seg == ['.'] then
    .error (.invalidArgument "invalid object key")
  else .ok ()

theorem validateKey_ok {key : Str} :
    validateKey key = .ok () ↔
      key ≠ [] ∧ key.head? ≠ some '/' ∧ '\\' ∉ key ∧
        ∀ seg ∈ key.splitOn '/', seg ≠ ['.', '.'] ∧ seg ≠ ['.'] := by
  unfold validateKey
  split
  · simp_all
  · split
    · rename_i hne hbad
      simp only [Bool.or_eq_true, beq_iff_eq, List.contains_iff_mem] at hbad
      simp only [reduceCtorEq, false_iff]
      rintro ⟨-, h1, h2, -⟩
      exact hbad.elim h1 h2
    · rename_i hne hok
      simp only [Bool.or_eq_true, beq_iff_eq, List.contains_iff_mem, not_or] at hok
      simp only [List.isEmpty_iff] at hne
      simp only [ite_eq_right_iff, reduceCtorEq, imp_false, List.any_eq_true,
        Bool.or_eq_true, beq_iff_eq, not_exists, not_and, not_or, ne_eq, hne, hok.1,
        hok.2, not_false_eq_true, true_and]

theorem validateKey_plain {key : Str} (h : validateKey key = .ok ()) :
    (UnixPath.ofStr key).Plain := by
  obtain ⟨-, hhead, -, hseg⟩ := validateKey_ok.1 h
  refine ⟨by simp [UnixPath.ofStr, hhead], fun hmem => ?_⟩
  exact (hseg _ (UnixPath.mem_compsOf hmem).2.2).1 rfl

theorem validateBucketName_chars {name : Str} (h : validateBucketName name = .ok ()) :
    3 ≤ name.length ∧ name.head?.any isLowerAlnum = true ∧
      ∀ c ∈ name, (isLowerAlnum c || c == '-' || c == '.') = true := by
  unfold validateBucketName at h
  split at h
  · cases h
  · split at h
    · cases h
    · split at h
      · cases h
      · rename_i h1 h2 h3
        simp only [Bool.not_eq_true', Bool.not_eq_false, Bool.and_eq_true,
          decide_eq_true_eq] at h1
        simp only [Bool.or_eq_true, Bool.not_eq_true', not_or, Bool.not_eq_false] at h2
        simp only [Bool.not_eq_true', Bool.not_eq_false, List.all_eq_true] at h3
        exact ⟨h1.1, h2.1, h3⟩

theorem validateBucketName_atom {name : Str} (h : validateBucketName name = .ok ()) :
    UnixPath.Atom name := by
  obtain ⟨hlen, hhead, hall⟩ := validateBucketName_chars h
  refine ⟨fun hs => absurd (hall _ hs) (by decide), ?_, ?_, ?_⟩ <;> rintro rfl
  · simp at hlen
  · simp at hlen
  · exact absurd hhead (by decide)

theorem validateBucketName_head {name : Str} (h : validateBucketName name = .ok ()) :
    name.head? ≠ some '.' := by
  intro hd
  have := (validateBucketName_chars h).2.1
  rw [hd] at this
  exact absurd this (by decide)

end Kerplace
