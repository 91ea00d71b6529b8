/-
# `Kerplace.Auth.Presigned` — presigned requests and their expiry

A presigned request carries its date, its lifetime and its signature in the query, all as the
client wrote them.  The lifetime is read as an `i64` and added to the date before the
signature is looked at; the sum is a date-time again, and where that would lie outside the
years -9999 to 9999 the addition panics.  The sum is compared with the current time, the date
itself is not.

The hashes, the percent-encoding and the parsing of dates are those of libraries.  Seconds
and nanoseconds are counted from the epoch.
-/
import Kerplace.Auth.Query
import Kerplace.Auth.Tokens

namespace Kerplace

/-! ## The request -/

/-- What the verification takes from libraries. -/
structure SigV4 where
  percent : PercentCoding
  sha256 : Bytes → Bytes
  hmacSha256 : Bytes → Bytes → Bytes
  parseDateTime : Str → Option Int

/-- `OffsetDateTime::MIN` and `MAX`, in seconds: the years -9999 to 9999. -/
def Representable (seconds : Int) : Prop := -377705116800 ≤ seconds ∧ seconds ≤ 253402300799

instance (seconds : Int) : Decidable (Representable seconds) :=
  inferInstanceAs (Decidable (_ ∧ _))

/-- A time in seconds, in nanoseconds. -/
def nanos (seconds : Int) : Int := seconds * 1000000000

/-- `Method::as_str`. -/
def Method.asStr : Method → Str
  | .get => "GET".toList
  | .head => "HEAD".toList
  | .put => "PUT".toList
  | .post => "POST".toList
  | .delete => "DELETE".toList
  | .patch => "PATCH".toList
  | .other token => token

/-- `raw_pairs`. -/
def rawPairs (query : Str) : List (Str × Str) :=
  ((query.splitOn '&').filter fun s => decide (s ≠ [])).map splitOnce

/-- The signing parameters of a presigned request. -/
structure PresignedParams where
  accessKey : Str
  date : Str
  region : Str
  service : Str
  amzDate : Str
  expires : Int
  signedHeaders : Str
  signature : Str
  deriving DecidableEq

namespace SigV4

variable (L : SigV4)

/-- `get`: the first pair of a name, its value decoded. -/
def get (query key : Str) : Option Str :=
  ((rawPairs query).find? fun p => decide (p.1 = key)).map fun p => L.percent.percentDecode p.2

/-- The parameters, as `verify_presigned` reads them. -/
def presignedParams (query : Str) : Except S3Error PresignedParams := do
  let credential ← (L.get query "X-Amz-Credential".toList).elim (.error .accessDenied) .ok
  let amzDate ← (L.get query "X-Amz-Date".toList).elim (.error .authorizationHeaderMalformed) .ok
  let expires ← ((L.get query "X-Amz-Expires".toList).bind parseI64).elim
    (.error .authorizationHeaderMalformed) .ok
  let signedHeaders ← (L.get query "X-Amz-SignedHeaders".toList).elim
    (.error .authorizationHeaderMalformed) .ok
  let signature ← (L.get query X_AMZ_SIGNATURE).elim (.error .accessDenied) .ok
  match credential.splitOn '/' with
  | [accessKey, date, region, service, _] =>
      .ok ⟨accessKey, date, region, service, amzDate, expires, signedHeaders, signature⟩
  | _ => .error .authorizationHeaderMalformed

/-- `sha256_hex`. -/
def sha256Hex (data : Bytes) : Str := hexEncode (L.sha256 data)

/-- `derive_signing_key`. -/
def deriveSigningKey (secret date region service : Str) : Bytes :=
  let kDate := L.hmacSha256 (utf8 ("AWS4".toList ++ secret)) (utf8 date)
  let kRegion := L.hmacSha256 kDate (utf8 region)
  let kService := L.hmacSha256 kRegion (utf8 service)
  L.hmacSha256 kService (utf8 "aws4_request".toList)

/-- The signature that the request should carry. -/
def presignedSignature (req : Request) (p : PresignedParams) (secret : Str) : Str :=
  let signedHeaders := ((p.signedHeaders.splitOn ';').map fun h =>
    (trim h).map Char.toLower).insertionSort (· ≤ ·)
  let canonicalHeaders := signedHeaders.flatMap fun name =>
    name ++ ':' :: trim (((req.header name).bind id).getD []) ++ ['\n']
  let canonicalRequest := ['\n'].intercalate [req.method.asStr, req.path,
    presignedCanonicalQuery L.percent (req.query.getD []), canonicalHeaders,
    [';'].intercalate signedHeaders, "UNSIGNED-PAYLOAD".toList]
  let scope := ['/'].intercalate [p.date, p.region, p.service, "aws4_request".toList]
  let stringToSign := ['\n'].intercalate ["AWS4-HMAC-SHA256".toList, p.amzDate, scope,
    L.sha256Hex (utf8 canonicalRequest)]
  hexEncode (L.hmacSha256 (L.deriveSigningKey secret p.date p.region p.service)
    (utf8 stringToSign))

/-- `verify_presigned`; nothing where it panics.  `resolve` is the identity store's, and
`now` in nanoseconds. -/
def verifyPresigned (resolve : Str → Option Identity) (req : Request) (now : Int) :
    Option (Except S3Error Identity) :=
  match L.presignedParams (req.query.getD []) with
  | .error e => some (.error e)
  | .ok p =>
      match resolve p.accessKey with
      | none => some (.error .invalidAccessKeyId)
      | some identity =>
          if identity.enabled = false then some (.error .accessDenied)
          else
            match L.parseDateTime p.amzDate with
            | none => some (.error .authorizationHeaderMalformed)
            | some signedTime =>
                -- `signed_time + Duration::seconds(expires)`
                if ¬ Representable (signedTime + p.expires) then none
                else if nanos (signedTime + p.expires) < now then some (.error .accessDenied)
                else if L.presignedSignature req p identity.secretKey = p.signature then
                  some (.ok identity)
                else some (.error .signatureDoesNotMatch)

/-! ## What holds of the expiry -/

/-- The request is answered, and accepted only between its date and its expiry. -/
structure ExpiryKept (resolve : Str → Option Identity) (req : Request) (now : Int) : Prop where
  answered : L.verifyPresigned resolve req now ≠ none
  within : ∀ identity, L.verifyPresigned resolve req now = some (.ok identity) →
    ∃ p signedTime, L.presignedParams (req.query.getD []) = .ok p ∧
      L.parseDateTime p.amzDate = some signedTime ∧ nanos signedTime ≤ now ∧
      now ≤ nanos (signedTime + p.expires)

/-- Of a request whose key belongs to an enabled identity and whose date is one, the expiry is
a date-time; and the date is not to come, unless the request is too old all the same or its
signature is not the one it should be. -/
def DatesInOrder (resolve : Str → Option Identity) (req : Request) (now : Int) : Prop :=
  ∀ p identity signedTime, L.presignedParams (req.query.getD []) = .ok p →
    resolve p.accessKey = some identity → identity.enabled = true →
    L.parseDateTime p.amzDate = some signedTime →
    Representable (signedTime + p.expires) ∧
      (nanos signedTime ≤ now ∨ nanos (signedTime + p.expires) < now ∨
        L.presignedSignature req p identity.secretKey ≠ p.signature)

variable {L} {resolve : Str → Option Identity} {req : Request} {now : Int}

theorem verifyPresigned_dated {p : PresignedParams} {identity : Identity} {signedTime : Int}
    (hp : L.presignedParams (req.query.getD []) = .ok p)
    (hid : resolve p.accessKey = some identity) (henabled : identity.enabled = true)
    (hdate : L.parseDateTime p.amzDate = some signedTime) :
    L.verifyPresigned resolve req now =
      if ¬ Representable (signedTime + p.expires) then none
      else if nanos (signedTime + p.expires) < now then some (.error .accessDenied)
      else if L.presignedSignature req p identity.secretKey = p.signature then
        some (.ok identity)
      else some (.error .signatureDoesNotMatch) := by
  rw [verifyPresigned, hp]
  dsimp only
  rw [hid]
  dsimp only
  rw [if_neg (by rw [henabled]; decide), hdate]

/-- Any other request is refused before. -/
theorem verifyPresigned_undated
    (hnone : ∀ p identity signedTime, L.presignedParams (req.query.getD []) = .ok p →
      resolve p.accessKey = some identity → identity.enabled = true →
      L.parseDateTime p.amzDate ≠ some signedTime) :
    ∃ e, L.verifyPresigned resolve req now = some (.error e) := by
  unfold verifyPresigned
  split
  · exact ⟨_, rfl⟩
  rename_i p hp
  split
  · exact ⟨_, rfl⟩
  rename_i identity hid
  split
  · exact ⟨_, rfl⟩
  rename_i henabled
  split
  · exact ⟨_, rfl⟩
  · rename_i signedTime hdate
    exact absurd hdate (hnone p identity signedTime hp hid (Bool.eq_true_of_not_eq_false henabled))

/-- A presigned request is answered, and accepted within its lifetime only, just when its
dates are in order. -/
theorem presigned_expiry_kept_iff (L : SigV4) (resolve : Str → Option Identity) (req : Request)
    (now : Int) : L.ExpiryKept resolve req now ↔ L.DatesInOrder resolve req now := by
  constructor
  · intro h p identity signedTime hp hid henabled hdate
    have hrun := @verifyPresigned_dated L resolve req now _ _ _ hp hid henabled hdate
    have hrep : Representable (signedTime + p.expires) := by
      by_contra hout
      exact h.answered (hrun.trans (if_pos hout))
    refine ⟨hrep, ?_⟩
    by_contra hnot
    obtain ⟨hfuture, hnot⟩ := not_or.1 hnot
    obtain ⟨hfresh, hsigned⟩ := not_or.1 hnot
    rw [if_neg (not_not.2 hrep), if_neg hfresh, if_pos (not_not.1 hsigned)] at hrun
    obtain ⟨p', signedTime', hp', hdate', hstart, -⟩ := h.within identity hrun
    rw [hp] at hp'
    obtain rfl := Except.ok.inj hp'
    rw [hdate] at hdate'
    obtain rfl := Option.some.inj hdate'
    exact hfuture hstart
  · intro h
    by_cases hdated : ∃ p identity signedTime, L.presignedParams (req.query.getD []) = .ok p ∧
        resolve p.accessKey = some identity ∧ identity.enabled = true ∧
        L.parseDateTime p.amzDate = some signedTime
    · obtain ⟨p, identity, signedTime, hp, hid, henabled, hdate⟩ := hdated
      have hrun := @verifyPresigned_dated L resolve req now _ _ _ hp hid henabled hdate
      obtain ⟨hrep, horder⟩ := h p identity signedTime hp hid henabled hdate
      rw [if_neg (not_not.2 hrep)] at hrun
      constructor
      · rw [hrun]
        split
        · exact Option.some_ne_none _
        · split <;> exact Option.some_ne_none _
      · intro identity' haccept
        rw [hrun] at haccept
        split at haccept
        · cases haccept
        rename_i hfresh
        split at haccept
        · rename_i hsigned
          refine ⟨p, signedTime, hp, hdate, ?_, not_lt.1 hfresh⟩
          rcases horder with hstart | hold | hwrong
          · exact hstart
          · exact absurd hold hfresh
          · exact absurd hsigned hwrong
        · cases haccept
    · obtain ⟨e, he⟩ := @verifyPresigned_undated L resolve req now
        fun p identity signedTime hp hid henabled hdate =>
          hdated ⟨p, identity, signedTime, hp, hid, henabled, hdate⟩
      constructor
      · rw [he]
        exact Option.some_ne_none _
      · intro identity haccept
        rw [he] at haccept
        cases haccept

/-- Hashes of one byte, and two dates. -/
def oneByte : SigV4 where
  percent := percentCoding
  sha256 _ := [7]
  hmacSha256 _ _ := [7]
  parseDateTime s :=
    if s = "20260101T000000Z".toList then some 1767225600
    else if s = "20990101T000000Z".toList then some 4070908800
    else none

/-- The only identity. -/
def onlyRoot (accessKey : Str) : Option Identity :=
  if accessKey = "root".toList then
    some ⟨"root".toList, "secret".toList, "consoleAdmin".toList, true, none⟩
  else none

/-- A request of the root, presigned. -/
def presignedGet (amzDate expires : String) : Request :=
  ⟨.get, "/b/k".toList, some ("X-Amz-Credential=root/20260101/us-east-1/s3/aws4_request".toList ++
    "&X-Amz-Date=".toList ++ amzDate.toList ++ "&X-Amz-Expires=".toList ++ expires.toList ++
    "&X-Amz-SignedHeaders=host&X-Amz-Signature=07".toList), [("host".toList, some "h".toList)],
    none⟩

/-- The parameters of such a request. -/
def presignedGetParams (amzDate : String) (expires : Int) : PresignedParams :=
  ⟨"root".toList, "20260101".toList, "us-east-1".toList, "s3".toList, amzDate.toList, expires,
    "host".toList, "07".toList⟩

/-- At the start of 2026, a request of that moment with the longest lifetime is not answered,
and one of 2099 is accepted. -/
theorem presigned_expiry_not_kept :
    oneByte.verifyPresigned onlyRoot (presignedGet "20260101T000000Z" "9223372036854775807")
        (nanos 1767225600) = none ∧
      ¬ oneByte.ExpiryKept onlyRoot
        (presignedGet "20260101T000000Z" "9223372036854775807") (nanos 1767225600) ∧
      ¬ oneByte.ExpiryKept onlyRoot (presignedGet "20990101T000000Z" "60") (nanos 1767225600) := by
  have hroot : onlyRoot "root".toList =
      some ⟨"root".toList, "secret".toList, "consoleAdmin".toList, true, none⟩ := if_pos rfl
  have hlong : oneByte.presignedParams
      ((presignedGet "20260101T000000Z" "9223372036854775807").query.getD []) =
      .ok (presignedGetParams "20260101T000000Z" 9223372036854775807) := by decide +kernel
  have hfuture : oneByte.presignedParams
      ((presignedGet "20990101T000000Z" "60").query.getD []) =
      .ok (presignedGetParams "20990101T000000Z" 60) := by decide +kernel
  have hpanic : oneByte.verifyPresigned onlyRoot
      (presignedGet "20260101T000000Z" "9223372036854775807") (nanos 1767225600) = none := by
    have hdate : oneByte.parseDateTime "20260101T000000Z".toList = some 1767225600 := by
      decide +kernel
    rw [verifyPresigned_dated hlong hroot rfl hdate]
    exact if_pos (by decide)
  refine ⟨hpanic, fun h => h.answered hpanic, fun h => ?_⟩
  have hdate : oneByte.parseDateTime "20990101T000000Z".toList = some 4070908800 := by
    decide +kernel
  have haccepted := @verifyPresigned_dated _ _ _ (nanos 1767225600) _ _ _ hfuture hroot rfl hdate
  have hsignature (req : Request) (p : PresignedParams) (secret : Str) :
      oneByte.presignedSignature req p secret = "07".toList := rfl
  rw [if_neg (by decide), if_neg (by decide)] at haccepted
  have haccepted := haccepted.trans (if_pos (hsignature _ _ _))
  obtain ⟨p, signedTime, hp, hsigned, hstart, -⟩ := h.within _ haccepted
  obtain rfl := Except.ok.inj (hfuture.symm.trans hp)
  obtain rfl := Option.some.inj (hdate.symm.trans hsigned)
  exact absurd hstart (by decide)

end SigV4

end Kerplace
