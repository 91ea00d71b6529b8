/-
# `Kerplace.Auth.Signing` — signed requests, and what a signature covers

A request that carries an `Authorization` header is verified by rebuilding the text the
client signed: the method, the path, the canonical query, the headers that the client names
with their values, and the hash that the client declares of the body.  Of the rest of the
request nothing enters the text, nor does the current time: a signed request is good for as
long as its credential is.

The text is made of lines, and the method, the path and the header values of a request as
HTTP delivers it have no newline; so the parts are read back from the text, and a request that
shows a header accepted once is accepted again just when all of the parts are the same.  The
same holds of a presigned request, until its expiry.
-/
import Mathlib.Data.Bool.AllAny
import Kerplace.Auth.Presigned
import Kerplace.Crypto.KeyStarts
import Kerplace.Lib.Fallible
import Kerplace.Lib.Lines

namespace Kerplace

/-! ## The header -/

/-- `ParsedAuth`. -/
structure ParsedAuth where
  accessKey : Str
  date : Str
  region : Str
  service : Str
  signedHeaders : List Str
  signature : Str
  deriving DecidableEq

/-- The fields found so far while the parts of the header are gone through. -/
structure AuthFields where
  credential : Option Str
  signedHeaders : Option Str
  signature : Option Str
  deriving DecidableEq

/-- The first fields. -/
def AuthFields.empty : AuthFields := ⟨none, none, none⟩

/-- One part of the header: a later field takes the place of an earlier one. -/
def AuthFields.part (f : AuthFields) (part : Str) : AuthFields :=
  match (trim part).dropPrefix? "Credential=".toList with
  | some v => { f with credential := some v }
  | none =>
      match (trim part).dropPrefix? "SignedHeaders=".toList with
      | some v => { f with signedHeaders := some v }
      | none =>
          match (trim part).dropPrefix? "Signature=".toList with
          | some v => { f with signature := some v }
          | none => f

/-- The names that a client signed: in lower case and sorted. -/
def signedNames (signedHeaders : Str) : List Str :=
  ((signedHeaders.splitOn ';').map fun h => (trim h).map Char.toLower).insertionSort (· ≤ ·)

/-- `parse_authorization`. -/
def parseAuthorization (value : Str) : Except S3Error ParsedAuth := do
  let rest ← (value.dropPrefix? "AWS4-HMAC-SHA256".toList).elim
    (.error .authorizationHeaderMalformed) .ok
  let fields := ((rest.dropWhile isWhitespace).splitOn ',').foldl AuthFields.part .empty
  let credential ← fields.credential.elim (.error .authorizationHeaderMalformed) .ok
  let signedHeaders ← fields.signedHeaders.elim (.error .authorizationHeaderMalformed) .ok
  let signature ← fields.signature.elim (.error .authorizationHeaderMalformed) .ok
  match credential.splitOn '/' with
  | [accessKey, date, region, service, _] =>
      .ok ⟨accessKey, date, region, service, signedNames signedHeaders, signature⟩
  | _ => .error .authorizationHeaderMalformed

/-! ## The signature -/

/-- The text of a signed header: its value trimmed, or nothing. -/
def Request.signedValue (req : Request) (name : Str) : Str :=
  trim (((req.header name).bind id).getD [])

/-- The hash of the body that the client declares. -/
def Request.payloadHash (req : Request) : Str :=
  ((req.header "x-amz-content-sha256".toList).bind id).getD "UNSIGNED-PAYLOAD".toList

/-- A header value that can be read. -/
def Request.readable (req : Request) (name : Str) : Option Str := (req.header name).bind id

/-- The canonical request. -/
def requestText (method path query : Str) (names : List Str) (value : Str → Str)
    (payload : Str) : Str :=
  let canonicalHeaders := names.flatMap fun name => name ++ ':' :: value name ++ ['\n']
  ['\n'].intercalate [method, path, query, canonicalHeaders, [';'].intercalate names, payload]

namespace SigV4

variable (L : SigV4)

/-- The string to sign. -/
def textToSign (amzDate date region service text : Str) : Str :=
  let scope := ['/'].intercalate [date, region, service, "aws4_request".toList]
  ['\n'].intercalate ["AWS4-HMAC-SHA256".toList, amzDate, scope, L.sha256Hex (utf8 text)]

/-- The canonical request of `verify`. -/
def canonicalRequest (req : Request) (signedHeaders : List Str) : Str :=
  requestText req.method.asStr req.path (buildCanonicalQuery L.percent req.query) signedHeaders
    req.signedValue req.payloadHash

/-- The string to sign of `verify`. -/
def stringToSign (req : Request) (p : ParsedAuth) (amzDate : Str) : Str :=
  L.textToSign amzDate p.date p.region p.service (L.canonicalRequest req p.signedHeaders)

/-- The signature that the request should carry. -/
def expectedSignature (req : Request) (p : ParsedAuth) (amzDate secret : Str) : Str :=
  hexEncode (L.hmacSha256 (L.deriveSigningKey secret p.date p.region p.service)
    (utf8 (L.stringToSign req p amzDate)))

/-- `verify`.  `resolve` is the identity store's. -/
def verify (resolve : Str → Option Identity) (req : Request) : Except S3Error Identity := do
  let authValue ← (req.readable "authorization".toList).elim (.error .accessDenied) .ok
  let parsed ← parseAuthorization authValue
  let identity ← (resolve parsed.accessKey).elim (.error .invalidAccessKeyId) .ok
  if identity.enabled = false then .error .accessDenied
  else do
    let amzDate ← (req.readable "x-amz-date".toList).elim
      (.error .authorizationHeaderMalformed) .ok
    if L.expectedSignature req parsed amzDate identity.secretKey = parsed.signature then
      .ok identity
    else .error .signatureDoesNotMatch

/-! ## What is read back from the texts -/

/-- The header as clients write it. -/
def authorizationValue (p : ParsedAuth) : Str :=
  let scope := [p.accessKey, p.date, p.region, p.service, "aws4_request".toList]
  [','].intercalate ["AWS4-HMAC-SHA256 Credential=".toList ++ ['/'].intercalate scope,
    " SignedHeaders=".toList ++ [';'].intercalate p.signedHeaders,
    " Signature=".toList ++ p.signature]

/-- What can be written: no separator stands in a part, and the names are in order. -/
structure Writable (p : ParsedAuth) : Prop where
  scope : ∀ s ∈ [p.accessKey, p.date, p.region, p.service], '/' ∉ s ∧ ',' ∉ s
  some_name : p.signedHeaders ≠ []
  names : ∀ name ∈ p.signedHeaders, ∀ c ∈ name,
    c ≠ ';' ∧ c ≠ ',' ∧ isWhitespace c = false ∧ c.toLower = c
  sorted : p.signedHeaders.Pairwise (· ≤ ·)
  signature : ∀ c ∈ p.signature, c ≠ ',' ∧ isWhitespace c = false

/-- What the HTTP library promises of a request: no newline in its method, its path or the
text of a header. -/
structure Delivered (req : Request) : Prop where
  method : '\n' ∉ req.method.asStr
  path : '\n' ∉ req.path
  header : ∀ name v, req.header name = some (some v) → '\n' ∉ v

/-- The parts of two requests that a signature under the names covers are the same. -/
structure SameSigned (L : SigV4) (names : List Str) (req req' : Request) : Prop where
  method : req'.method.asStr = req.method.asStr
  path : req'.path = req.path
  query : buildCanonicalQuery L.percent req'.query = buildCanonicalQuery L.percent req.query
  headers : ∀ name ∈ names, req'.signedValue name = req.signedValue name
  payload : req'.payloadHash = req.payloadHash
  date : req'.readable "x-amz-date".toList = req.readable "x-amz-date".toList

/-- The hashes tell the texts of two requests apart, where the texts differ. -/
structure ToldApart (L : SigV4) (p : ParsedAuth) (secret : Str) (req req' : Request) :
    Prop where
  sha256 : L.sha256 (utf8 (L.canonicalRequest req' p.signedHeaders)) =
      L.sha256 (utf8 (L.canonicalRequest req p.signedHeaders)) →
    L.canonicalRequest req' p.signedHeaders = L.canonicalRequest req p.signedHeaders
  hmac : ∀ amzDate amzDate',
    L.hmacSha256 (L.deriveSigningKey secret p.date p.region p.service)
        (utf8 (L.stringToSign req' p amzDate')) =
      L.hmacSha256 (L.deriveSigningKey secret p.date p.region p.service)
        (utf8 (L.stringToSign req p amzDate)) →
    L.stringToSign req' p amzDate' = L.stringToSign req p amzDate

end SigV4

theorem mem_trim {c : Char} {s : Str} (h : c ∈ trim s) : c ∈ s := by
  rw [trim, trimEndMatches, List.mem_reverse] at h
  have hend := (List.dropWhile_suffix _).subset h
  exact (List.dropWhile_suffix _).subset (List.mem_reverse.1 hend)

theorem hexEncode_injective {b b' : Bytes} (h : hexEncode b = hexEncode b') : b = b' := by
  have hback := congrArg hexDecode h
  rw [hexDecode_hexEncode, hexDecode_hexEncode] at hback
  exact Option.some.inj hback

theorem mem_hexEncode {b : Bytes} {c : Char} (h : c ∈ hexEncode b) : ∃ v < 16, c = hexDigit v := by
  obtain ⟨x, -, hc⟩ := List.mem_flatMap.1 h
  have hx := x.toNat_lt
  rcases List.mem_cons.1 hc with rfl | hc
  · exact ⟨_, by omega, rfl⟩
  · exact ⟨_, by omega, List.mem_singleton.1 hc⟩

namespace SigV4

variable {L : SigV4} {req req' : Request}

theorem newline_fromPairs {P : PercentCoding} (hP : P.Lawful) (pairs : List (Str × Str)) :
    '\n' ∉ canonicalQueryFromPairs P pairs := by
  have htoken (token : Str) : '\n' ∉ sigv4EncodeToken P token := by
    intro hmem
    rcases hP.encode_chars SIGV4_UNRESERVED _ _ hmem with h | h | h
    · exact absurd h (by decide)
    · exact absurd h (by decide)
    · exact absurd h (by decide)
  intro hmem
  rcases Lines.mem_intercalate hmem with h | ⟨l, hl, hc⟩
  · exact absurd h (by decide)
  obtain ⟨p, hp, rfl⟩ := List.mem_map.1 hl
  obtain ⟨q, -, rfl⟩ := List.mem_map.1 ((List.mem_insertionSort PairLe).1 hp)
  rcases List.mem_append.1 hc with hc | hc
  · exact htoken _ hc
  · rcases List.mem_cons.1 hc with hc | hc
    · exact absurd hc (by decide)
    · exact htoken _ hc

theorem newline_canonicalQuery {P : PercentCoding} (hP : P.Lawful) (query : Option Str) :
    '\n' ∉ buildCanonicalQuery P query := by
  cases query with
  | none => exact List.not_mem_nil
  | some q =>
      rw [buildCanonicalQuery]
      split
      · exact List.not_mem_nil
      · exact newline_fromPairs hP _

theorem newline_presignedQuery {P : PercentCoding} (hP : P.Lawful) (query : Str) :
    '\n' ∉ presignedCanonicalQuery P query := newline_fromPairs hP _

theorem newline_signedValue (h : Delivered req) (name : Str) : '\n' ∉ req.signedValue name := by
  intro hmem
  have hmem := mem_trim hmem
  cases hread : req.header name with
  | none =>
    rw [hread] at hmem
    exact List.not_mem_nil hmem
  | some text =>
    rw [hread] at hmem
    cases text with
    | none => exact List.not_mem_nil hmem
    | some v => exact h.header name v hread hmem

theorem newline_readable (h : Delivered req) {name v : Str} (hv : req.readable name = some v) :
    '\n' ∉ v := by
  obtain ⟨text, hread, rfl⟩ := Option.bind_eq_some_iff.1 hv
  exact h.header name v hread

theorem headers_injective {names : List Str} {value value' : Str → Str} {rest rest' : Str}
    (hvalue : ∀ name, '\n' ∉ value name) (hvalue' : ∀ name, '\n' ∉ value' name)
    (h : (names.flatMap fun name => name ++ ':' :: (value' name ++ ['\n'])) ++ rest' =
      (names.flatMap fun name => name ++ ':' :: (value name ++ ['\n'])) ++ rest) :
    (∀ name ∈ names, value' name = value name) ∧ rest' = rest := by
  induction names with
  | nil => exact ⟨fun _ hname => absurd hname List.not_mem_nil, h⟩
  | cons name names ih =>
      simp only [List.flatMap_cons, List.append_assoc, List.cons_append, List.nil_append] at h
      have hline := (List.cons.inj (List.append_cancel_left h)).2
      obtain ⟨hname, hrest⟩ := Lines.line_injective (hvalue' name) (hvalue name) hline
      obtain ⟨hnames, hrest⟩ := ih hrest
      exact ⟨List.forall_mem_cons.2 ⟨hname, hnames⟩, hrest⟩

theorem requestText_congr {method method' path path' query query' payload payload' : Str}
    {names : List Str} {value value' : Str → Str} (hmethod : method' = method)
    (hpath : path' = path) (hquery : query' = query)
    (hvalue : ∀ name ∈ names, value' name = value name) (hpayload : payload' = payload) :
    requestText method' path' query' names value' payload' =
      requestText method path query names value payload := by
  rw [requestText, requestText, hmethod, hpath, hquery, hpayload,
    List.flatMap_congr fun name hname => by rw [hvalue name hname]]

/-- A canonical request gives its parts back. -/
theorem requestText_injective {method method' path path' query query' payload payload' : Str}
    {names : List Str} {value value' : Str → Str} (hmethod : '\n' ∉ method)
    (hmethod' : '\n' ∉ method') (hpath : '\n' ∉ path) (hpath' : '\n' ∉ path')
    (hquery : '\n' ∉ query) (hquery' : '\n' ∉ query') (hvalue : ∀ name, '\n' ∉ value name)
    (hvalue' : ∀ name, '\n' ∉ value' name)
    (h : requestText method' path' query' names value' payload' =
      requestText method path query names value payload) :
    method' = method ∧ path' = path ∧ query' = query ∧
      (∀ name ∈ names, value' name = value name) ∧ payload' = payload := by
  simp only [requestText, List.intercalate_cons_cons, List.intercalate_singleton,
    List.append_assoc, List.cons_append, List.nil_append] at h
  obtain ⟨hm, h⟩ := Lines.line_injective hmethod' hmethod h
  obtain ⟨hp, h⟩ := Lines.line_injective hpath' hpath h
  obtain ⟨hq, h⟩ := Lines.line_injective hquery' hquery h
  obtain ⟨hv, h⟩ := headers_injective hvalue hvalue' h
  exact ⟨hm, hp, hq, hv, (List.cons.inj (List.append_cancel_left (List.cons.inj h).2)).2⟩

theorem textToSign_injective {amzDate amzDate' date region service text text' : Str}
    (hdate : '\n' ∉ amzDate) (hdate' : '\n' ∉ amzDate')
    (h : L.textToSign amzDate' date region service text' =
      L.textToSign amzDate date region service text) :
    amzDate' = amzDate ∧ L.sha256 (utf8 text') = L.sha256 (utf8 text) := by
  simp only [textToSign, List.intercalate_cons_cons, List.intercalate_singleton,
    List.append_assoc, List.cons_append, List.nil_append] at h
  have h := (List.cons.inj (List.append_cancel_left h)).2
  obtain ⟨hsame, h⟩ := Lines.line_injective hdate' hdate h
  simp only [List.append_cancel_left_eq, List.cons.injEq, true_and] at h
  exact ⟨hsame, hexEncode_injective h⟩

/-! ## What is read of a header -/

/-- What is read from a header. -/
theorem parseAuthorization_eq_ok {value : Str} {p : ParsedAuth} :
    parseAuthorization value = .ok p ↔ ∃ rest credential signedHeaders last,
      value.dropPrefix? "AWS4-HMAC-SHA256".toList = some rest ∧
      ((rest.dropWhile isWhitespace).splitOn ',').foldl AuthFields.part .empty =
        ⟨some credential, some signedHeaders, some p.signature⟩ ∧
      p.signedHeaders = signedNames signedHeaders ∧
      credential.splitOn '/' = [p.accessKey, p.date, p.region, p.service, last] := by
  rw [parseAuthorization, Fallible.bind_eq_ok]
  simp only [Fallible.bind_eq_ok, Fallible.elim_eq_ok]
  constructor
  · rintro ⟨rest, hrest, credential, hcredential, signedHeaders, hheaders, signature,
      hsignature, h⟩
    split at h
    · rename_i accessKey date region service last hscope
      obtain rfl := Except.ok.inj h
      refine ⟨rest, credential, signedHeaders, last, hrest, ?_, rfl, hscope⟩
      rw [← hcredential, ← hheaders, ← hsignature]
    · cases h
  · rintro ⟨rest, credential, signedHeaders, last, hrest, hfields, hnames, hscope⟩
    refine ⟨rest, hrest, credential, by rw [hfields], signedHeaders, by rw [hfields], p.signature,
      by rw [hfields], ?_⟩
    rw [hscope, ← hnames]

/-! ## What clients write -/

theorem trim_of_ends {s : Str} {c d : Char} (hhead : s.head? = some c)
    (hlast : s.getLast? = some d) (hc : isWhitespace c = false) (hd : isWhitespace d = false) :
    trim s = s := by
  obtain ⟨back, hfront⟩ := List.head?_eq_some_iff.1 hhead
  obtain ⟨front, hback⟩ := List.getLast?_eq_some_iff.1 hlast
  have hstart : s.dropWhile isWhitespace = s := by
    rw [hfront, List.dropWhile_cons_of_neg (by rw [hc]; decide)]
  rw [trim, hstart, trimEndMatches, hback, List.reverse_append, List.reverse_singleton,
    List.singleton_append, List.dropWhile_cons_of_neg (by rw [hd]; decide), List.reverse_cons,
    List.reverse_reverse]

theorem trim_of_not {s : Str} (h : ∀ c ∈ s, isWhitespace c = false) : trim s = s := by
  have hstart : s.dropWhile isWhitespace = s := by
    cases s with
    | nil => rfl
    | cons c s => rw [List.dropWhile_cons_of_neg (by rw [h c List.mem_cons_self]; decide)]
  rw [trim, hstart, trimEndMatches_of_not h]

theorem trim_space (s : Str) : trim (' ' :: s) = trim s := by
  rw [trim, trim, List.dropWhile_cons_of_pos (by decide)]

theorem dropPrefix_append (pre s : Str) : (pre ++ s).dropPrefix? pre = some s :=
  List.dropPrefix?_append_of_beq s (beq_self_eq_true pre)

theorem dropPrefix_other {pre pre' : Str} (s : Str) (hne : ¬ pre <+: pre')
    (hne' : ¬ pre' <+: pre) : (pre' ++ s).dropPrefix? pre = none := by
  rw [Option.eq_none_iff_forall_ne_some]
  intro v hv
  obtain ⟨front, hsplit, hfront⟩ := List.dropPrefix?_eq_some_iff.1 hv
  obtain rfl := eq_of_beq hfront
  have hpre : front <+: pre' ++ s := ⟨v, hsplit.symm⟩
  rcases List.prefix_or_prefix_of_prefix hpre (List.prefix_append pre' s) with h | h
  · exact hne h
  · exact hne' h

theorem signedNames_written {p : ParsedAuth} (hp : Writable p) :
    signedNames ([';'].intercalate p.signedHeaders) = p.signedHeaders := by
  have hsplit := List.splitOn_intercalate ';'
    (fun name hname hmem => (hp.names name hname _ hmem).1 rfl) hp.some_name
  have hmap : (p.signedHeaders.map fun h => (trim h).map Char.toLower) = p.signedHeaders := by
    refine (List.map_congr_left fun name hname => ?_).trans (List.map_id _)
    rw [trim_of_not fun c hc => (hp.names name hname c hc).2.2.1]
    exact (List.map_congr_left fun c hc => (hp.names name hname c hc).2.2.2).trans (List.map_id _)
  rw [signedNames, hsplit, hmap]
  exact hp.sorted.insertionSort_eq

/-- The parts of a header. -/
def writtenParts (p : ParsedAuth) : List Str :=
  ["Credential=".toList ++
      ['/'].intercalate [p.accessKey, p.date, p.region, p.service, "aws4_request".toList],
    " SignedHeaders=".toList ++ [';'].intercalate p.signedHeaders,
    " Signature=".toList ++ p.signature]

theorem authorizationValue_eq (p : ParsedAuth) : authorizationValue p =
    "AWS4-HMAC-SHA256".toList ++ ' ' :: [','].intercalate (writtenParts p) := by
  simp [authorizationValue, writtenParts]

theorem scope_written {p : ParsedAuth} (hp : Writable p) :
    ∀ s ∈ [p.accessKey, p.date, p.region, p.service, "aws4_request".toList],
      '/' ∉ s ∧ ',' ∉ s := by
  intro s hs
  rcases List.mem_append.1 (show s ∈ [p.accessKey, p.date, p.region, p.service] ++
    ["aws4_request".toList] from hs) with hs | hs
  · exact hp.scope s hs
  · rw [List.mem_singleton.1 hs]
    decide

theorem comma_writtenParts {p : ParsedAuth} (hp : Writable p) :
    ∀ part ∈ writtenParts p, ',' ∉ part := by
  intro part hpart hmem
  simp only [writtenParts, List.mem_cons, List.not_mem_nil, or_false] at hpart
  rcases hpart with rfl | rfl | rfl
  · rcases List.mem_append.1 hmem with hmem | hmem
    · exact absurd hmem (by decide)
    rcases Lines.mem_intercalate hmem with hmem | ⟨s, hs, hmem⟩
    · exact absurd hmem (by decide)
    · exact (scope_written hp s hs).2 hmem
  · rcases List.mem_append.1 hmem with hmem | hmem
    · exact absurd hmem (by decide)
    rcases Lines.mem_intercalate hmem with hmem | ⟨name, hname, hmem⟩
    · exact absurd hmem (by decide)
    · exact (hp.names name hname _ hmem).2.1 rfl
  · rcases List.mem_append.1 hmem with hmem | hmem
    · exact absurd hmem (by decide)
    · exact (hp.signature _ hmem).1 rfl

theorem fields_written {p : ParsedAuth} (hp : Writable p) :
    (writtenParts p).foldl AuthFields.part .empty =
      ⟨some (['/'].intercalate [p.accessKey, p.date, p.region, p.service,
          "aws4_request".toList]), some ([';'].intercalate p.signedHeaders),
        some p.signature⟩ := by
  have hnames : trim (" SignedHeaders=".toList ++ [';'].intercalate p.signedHeaders) =
      "SignedHeaders=".toList ++ [';'].intercalate p.signedHeaders := by
    refine (trim_space _).trans (trim_of_not fun c hc => ?_)
    rcases List.mem_append.1 hc with hc | hc
    · have hall : "SignedHeaders=".toList.all fun c => decide (isWhitespace c = false) := by decide
      exact List.all_iff_forall_prop.1 hall c hc
    rcases Lines.mem_intercalate hc with rfl | ⟨name, hname, hc⟩
    · decide
    · exact (hp.names name hname c hc).2.2.1
  have hsignature : trim (" Signature=".toList ++ p.signature) =
      "Signature=".toList ++ p.signature := by
    refine (trim_space _).trans (trim_of_not fun c hc => ?_)
    rcases List.mem_append.1 hc with hc | hc
    · have hall : "Signature=".toList.all fun c => decide (isWhitespace c = false) := by decide
      exact List.all_iff_forall_prop.1 hall c hc
    · exact (hp.signature c hc).2
  have hcredential : trim ("Credential=".toList ++ ['/'].intercalate [p.accessKey, p.date,
      p.region, p.service, "aws4_request".toList]) = "Credential=".toList ++
        ['/'].intercalate [p.accessKey, p.date, p.region, p.service, "aws4_request".toList] :=
    trim_of_ends (by rfl) (List.getLast?_eq_some_iff.2 ⟨"Credential=".toList ++ ['/'].intercalate
      [p.accessKey, p.date, p.region, p.service, "aws4_reques".toList], by simp⟩)
      (by decide : isWhitespace 'C' = false) (by decide : isWhitespace 't' = false)
  have hpart (f : AuthFields) : f.part (" SignedHeaders=".toList ++
      [';'].intercalate p.signedHeaders) =
      { f with signedHeaders := some ([';'].intercalate p.signedHeaders) } := by
    rw [AuthFields.part, hnames, dropPrefix_other _ (by decide) (by decide), dropPrefix_append]
  have hpart' (f : AuthFields) : f.part (" Signature=".toList ++ p.signature) =
      { f with signature := some p.signature } := by
    rw [AuthFields.part, hsignature, dropPrefix_other _ (by decide) (by decide),
      dropPrefix_other _ (by decide) (by decide), dropPrefix_append]
  rw [writtenParts, List.foldl_cons, List.foldl_cons, List.foldl_cons, List.foldl_nil, hpart',
    hpart, AuthFields.part, hcredential, dropPrefix_append]

/-- A header that is written is read back. -/
theorem parseAuthorization_written {p : ParsedAuth} (hp : Writable p) :
    parseAuthorization (authorizationValue p) = .ok p := by
  have hrest : (authorizationValue p).dropPrefix? "AWS4-HMAC-SHA256".toList =
      some (' ' :: [','].intercalate (writtenParts p)) := by
    rw [authorizationValue_eq]
    exact dropPrefix_append _ _
  have hstart : (' ' :: [','].intercalate (writtenParts p)).dropWhile isWhitespace =
      [','].intercalate (writtenParts p) := by
    rw [List.dropWhile_cons_of_pos (by decide)]
    exact List.dropWhile_cons_of_neg (by decide)
  have hfields := fields_written hp
  rw [← List.splitOn_intercalate ',' (comma_writtenParts hp) (List.cons_ne_nil _ _),
    ← hstart] at hfields
  have hscope := List.splitOn_intercalate '/' (fun s hs => (scope_written hp s hs).1)
    (List.cons_ne_nil _ _)
  exact parseAuthorization_eq_ok.2
    ⟨_, _, _, _, hrest, hfields, (signedNames_written hp).symm, hscope⟩

theorem verify_written {resolve : Str → Option Identity} {p : ParsedAuth} {identity : Identity}
    {amzDate : Str} (hp : Writable p) (hresolve : resolve p.accessKey = some identity)
    (henabled : identity.enabled = true)
    (hauth : req.readable "authorization".toList = some (authorizationValue p))
    (hdate : req.readable "x-amz-date".toList = some amzDate) :
    L.verify resolve req =
      if L.expectedSignature req p amzDate identity.secretKey = p.signature then .ok identity
      else .error .signatureDoesNotMatch := by
  simp only [verify, hauth, hdate, Option.elim_some, bind, Except.bind,
    parseAuthorization_written hp, hresolve]
  rw [if_neg (by rw [henabled]; decide)]

/-! ## Requests with a header -/

theorem verify_eq_ok_iff {resolve : Str → Option Identity} {identity : Identity} :
    L.verify resolve req = .ok identity ↔ ∃ value p amzDate,
      req.readable "authorization".toList = some value ∧ parseAuthorization value = .ok p ∧
      resolve p.accessKey = some identity ∧ identity.enabled = true ∧
      req.readable "x-amz-date".toList = some amzDate ∧
      L.expectedSignature req p amzDate identity.secretKey = p.signature := by
  simp only [verify, Fallible.bind_eq_ok, Fallible.elim_eq_ok]
  constructor
  · rintro ⟨value, hauth, p, hparse, identity', hresolve, h⟩
    split at h
    · cases h
    rename_i henabled
    obtain ⟨amzDate, hdate, h⟩ := Fallible.bind_eq_ok.1 h
    split at h
    · rename_i hsigned
      obtain rfl := Except.ok.inj h
      exact ⟨value, p, amzDate, hauth, hparse, hresolve, Bool.eq_true_of_not_eq_false henabled,
        Fallible.elim_eq_ok.1 hdate, hsigned⟩
    · cases h
  · rintro ⟨value, p, amzDate, hauth, hparse, hresolve, henabled, hdate, hsigned⟩
    refine ⟨value, hauth, p, hparse, identity, hresolve, ?_⟩
    rw [if_neg (by rw [henabled]; decide), hdate]
    exact if_pos hsigned

/-- Hashes that keep the text. -/
def openHashes : SigV4 where
  percent := percentCoding
  sha256 := id
  hmacSha256 _ m := m
  parseDateTime := oneByte.parseDateTime

/-- A request of the root with a header. -/
def signedGet (path : Str) (authorization : Str) : Request :=
  ⟨.get, path, none, [("host".toList, some "h".toList),
    ("x-amz-date".toList, some "20260101T000000Z".toList),
    ("authorization".toList, some authorization)], none⟩

/-- The header of a request for a path, with a signature. -/
def rootAuth (signature : Str) : ParsedAuth :=
  ⟨"root".toList, "20260101".toList, "us-east-1".toList, "s3".toList, ["host".toList],
    signature⟩

/-- The signature of the request for `/b/k`. -/
def keySignature : Str :=
  openHashes.expectedSignature (signedGet "/b/k".toList []) (rootAuth [])
    "20260101T000000Z".toList "secret".toList

/-- The header of the request for `/b/k`. -/
def keyAuth : ParsedAuth := rootAuth keySignature

theorem delivered_signedGet {path : Str} {p : ParsedAuth} (hpath : '\n' ∉ path)
    (hvalue : '\n' ∉ authorizationValue p) :
    Delivered (signedGet path (authorizationValue p)) where
  method := (by decide : '\n' ∉ "GET".toList)
  path := hpath
  header name v hv := by
    rw [Request.header, Option.map_eq_some_iff] at hv
    obtain ⟨h, hfind, hv⟩ := hv
    have hmem := List.mem_of_find?_eq_some hfind
    simp only [signedGet, List.mem_cons, List.not_mem_nil, or_false] at hmem
    rcases hmem with rfl | rfl | rfl
    · rw [← Option.some.inj hv]
      decide
    · rw [← Option.some.inj hv]
      decide
    · rw [← Option.some.inj hv]
      exact hvalue

theorem writable_rootAuth {signature : Str}
    (h : signature.all fun c => decide (c ≠ ',' ∧ isWhitespace c = false)) :
    Writable (rootAuth signature) where
  scope := (by decide : ∀ s ∈ ["root".toList, "20260101".toList, "us-east-1".toList,
    "s3".toList], '/' ∉ s ∧ ',' ∉ s)
  some_name := List.cons_ne_nil _ _
  names name hname := by
    obtain rfl := List.mem_singleton.1 hname
    have hall : "host".toList.all fun c =>
        decide (c ≠ ';' ∧ c ≠ ',' ∧ isWhitespace c = false ∧ c.toLower = c) := by decide
    exact List.all_iff_forall_prop.1 hall
  sorted := List.pairwise_singleton _ _
  signature := List.all_iff_forall_prop.1 h

theorem writable_keyAuth : Writable keyAuth := writable_rootAuth (by decide +kernel)

/-- A request with the header that signs it. -/
def sign (L : SigV4) (req : Request) (p : ParsedAuth) (amzDate secret : Str) : Request :=
  { req with headers := ("authorization".toList, some (authorizationValue
      { p with signature := L.expectedSignature req p amzDate secret })) :: req.headers }

theorem header_sign {p : ParsedAuth} {amzDate secret name : Str}
    (hname : name ≠ "authorization".toList) :
    (L.sign req p amzDate secret).header name = req.header name := by
  rw [Request.header, sign, List.find?_cons_of_neg]
  · rfl
  · exact fun h => hname (of_decide_eq_true h).symm

theorem hex_plain (b : Bytes) : ∀ c ∈ hexEncode b, c ≠ ',' ∧ isWhitespace c = false := by
  intro c hmem
  obtain ⟨v, hv, rfl⟩ := mem_hexEncode hmem
  have hplain : ∀ v < 16, hexDigit v ≠ ',' ∧ isWhitespace (hexDigit v) = false := by decide
  exact hplain v hv

/-- What an enabled identity signs is accepted: the header in which the signature travels is
no part of what it covers, as long as the client does not name it. -/
theorem sign_verify {resolve : Str → Option Identity} {p : ParsedAuth} {identity : Identity}
    {amzDate : Str} (hp : Writable p) (hself : "authorization".toList ∉ p.signedHeaders)
    (hresolve : resolve p.accessKey = some identity) (henabled : identity.enabled = true)
    (hdate : req.readable "x-amz-date".toList = some amzDate) :
    L.verify resolve (L.sign req p amzDate identity.secretKey) = .ok identity := by
  let signed := { p with signature := L.expectedSignature req p amzDate identity.secretKey }
  have hsigned : Writable signed :=
    { scope := hp.scope, some_name := hp.some_name, names := hp.names, sorted := hp.sorted
      signature := hex_plain _ }
  have hdate' : (L.sign req p amzDate identity.secretKey).readable "x-amz-date".toList =
      some amzDate := by
    rw [Request.readable, header_sign (by decide)]
    exact hdate
  have hvalue : ∀ name ∈ p.signedHeaders,
      (L.sign req p amzDate identity.secretKey).signedValue name = req.signedValue name := by
    intro name hname
    rw [Request.signedValue, header_sign (fun h => hself (h ▸ hname))]
    rfl
  have hpayload : (L.sign req p amzDate identity.secretKey).payloadHash = req.payloadHash := by
    rw [Request.payloadHash, header_sign (by decide)]
    rfl
  have htext : L.canonicalRequest (L.sign req p amzDate identity.secretKey) p.signedHeaders =
      L.canonicalRequest req p.signedHeaders :=
    requestText_congr rfl rfl rfl hvalue hpayload
  refine (verify_written hsigned hresolve henabled rfl hdate').trans (if_pos ?_)
  show hexEncode (L.hmacSha256 _ (utf8 (L.textToSign amzDate p.date p.region p.service
    (L.canonicalRequest (L.sign req p amzDate identity.secretKey) p.signedHeaders)))) = _
  rw [htext]
  rfl

/-- The root signs a request for `/b/k`. -/
theorem sign_verify_root :
    openHashes.verify onlyRoot (openHashes.sign ⟨.get, "/b/k".toList, none,
        [("host".toList, some "h".toList), ("x-amz-date".toList, some "20260101T000000Z".toList)],
        none⟩ (rootAuth []) "20260101T000000Z".toList "secret".toList) =
      .ok ⟨"root".toList, "secret".toList, "consoleAdmin".toList, true, none⟩ := by
  have hp : Writable (rootAuth []) := writable_rootAuth rfl
  have hresolve : onlyRoot (rootAuth []).accessKey =
    some ⟨"root".toList, "secret".toList, "consoleAdmin".toList, true, none⟩ := if_pos rfl
  exact sign_verify hp (by decide) hresolve rfl rfl

/-- Of the requests that carry a header accepted once, just those are accepted again whose
signed parts are all the same; whatever else they carry, and whenever they come. -/
theorem verify_replay_iff {resolve : Str → Option Identity} {value : Str} {p : ParsedAuth}
    {identity : Identity} (hP : L.percent.Lawful) (hreq : Delivered req)
    (hreq' : Delivered req') (hapart : ToldApart L p identity.secretKey req req')
    (hauth : req.readable "authorization".toList = some value)
    (hauth' : req'.readable "authorization".toList = some value)
    (hparse : parseAuthorization value = .ok p)
    (hok : L.verify resolve req = .ok identity) :
    L.verify resolve req' = .ok identity ↔ SameSigned L p.signedHeaders req req' := by
  obtain ⟨value', p', amzDate, hread, hread', hresolve, henabled, hdate, hsigned⟩ :=
    verify_eq_ok_iff.1 hok
  obtain rfl := Option.some.inj (hauth.symm.trans hread)
  obtain rfl := Except.ok.inj (hparse.symm.trans hread')
  constructor
  · intro hok'
    obtain ⟨value', p', amzDate', hread, hread', -, -, hdate', hsigned'⟩ :=
      verify_eq_ok_iff.1 hok'
    obtain rfl := Option.some.inj (hauth'.symm.trans hread)
    obtain rfl := Except.ok.inj (hparse.symm.trans hread')
    have hmac := hexEncode_injective (hsigned'.trans hsigned.symm)
    obtain ⟨rfl, hhash⟩ := textToSign_injective (newline_readable hreq hdate)
      (newline_readable hreq' hdate') (hapart.hmac _ _ hmac)
    obtain ⟨hmethod, hpath, hquery, hheaders, hpayload⟩ := requestText_injective hreq.method
      hreq'.method hreq.path hreq'.path (newline_canonicalQuery hP _) (newline_canonicalQuery hP _)
      (newline_signedValue hreq) (newline_signedValue hreq') (hapart.sha256 hhash)
    exact ⟨hmethod, hpath, hquery, hheaders, hpayload, hdate'.trans hdate.symm⟩
  · intro hsame
    refine verify_eq_ok_iff.2 ⟨value, p, amzDate, hauth', hparse, hresolve, henabled,
      hsame.date.trans hdate, ?_⟩
    have htext : L.canonicalRequest req' p.signedHeaders =
        L.canonicalRequest req p.signedHeaders := by
      exact requestText_congr hsame.method hsame.path hsame.query hsame.headers hsame.payload
    rw [← hsigned, expectedSignature, expectedSignature, stringToSign, stringToSign, htext]

/-- The root's request is accepted, and its header shown for another key is not. -/
theorem verify_replay_iff_other_key :
    openHashes.verify onlyRoot (signedGet "/b/k".toList (authorizationValue keyAuth)) =
        .ok ⟨"root".toList, "secret".toList, "consoleAdmin".toList, true, none⟩ ∧
      openHashes.verify onlyRoot (signedGet "/b/l".toList (authorizationValue keyAuth)) ≠
        .ok ⟨"root".toList, "secret".toList, "consoleAdmin".toList, true, none⟩ := by
  have hok : openHashes.verify onlyRoot (signedGet "/b/k".toList (authorizationValue keyAuth)) =
      .ok ⟨"root".toList, "secret".toList, "consoleAdmin".toList, true, none⟩ := by
    have hresolve : onlyRoot keyAuth.accessKey =
      some ⟨"root".toList, "secret".toList, "consoleAdmin".toList, true, none⟩ := if_pos rfl
    exact (verify_written writable_keyAuth hresolve rfl rfl rfl).trans (if_pos (by decide +kernel))
  have hplain : '\n' ∉ authorizationValue keyAuth := by decide +kernel
  refine ⟨hok, fun hother => ?_⟩
  have hsame := (verify_replay_iff percentCoding_lawful (delivered_signedGet (by decide) hplain)
    (delivered_signedGet (by decide) hplain) ⟨fun h => IamStore.utf8_injective h,
      fun _ _ h => IamStore.utf8_injective h⟩ rfl rfl
      (parseAuthorization_written writable_keyAuth) hok).1 hother
  exact absurd hsame.path (by decide)

/-! ## Requests with a presigned query -/

/-- The canonical request of `verify_presigned`. -/
def presignedText (L : SigV4) (req : Request) (p : PresignedParams) : Str :=
  requestText req.method.asStr req.path
    (presignedCanonicalQuery L.percent (req.query.getD [])) (signedNames p.signedHeaders)
    req.signedValue "UNSIGNED-PAYLOAD".toList

theorem presignedSignature_eq (p : PresignedParams) (secret : Str) :
    L.presignedSignature req p secret =
      hexEncode (L.hmacSha256 (L.deriveSigningKey secret p.date p.region p.service)
        (utf8 (L.textToSign p.amzDate p.date p.region p.service (presignedText L req p)))) := rfl

/-- The parts of two requests that a presigned signature covers are the same. -/
structure SamePresigned (L : SigV4) (p : PresignedParams) (req req' : Request) : Prop where
  method : req'.method.asStr = req.method.asStr
  path : req'.path = req.path
  query : presignedCanonicalQuery L.percent (req'.query.getD []) =
    presignedCanonicalQuery L.percent (req.query.getD [])
  headers : ∀ name ∈ signedNames p.signedHeaders, req'.signedValue name = req.signedValue name

/-- The hashes tell the texts of two presigned requests apart, where the texts differ. -/
structure PresignedApart (L : SigV4) (p : PresignedParams) (secret : Str)
    (req req' : Request) : Prop where
  sha256 : L.sha256 (utf8 (presignedText L req' p)) = L.sha256 (utf8 (presignedText L req p)) →
    presignedText L req' p = presignedText L req p
  hmac : L.hmacSha256 (L.deriveSigningKey secret p.date p.region p.service)
        (utf8 (L.textToSign p.amzDate p.date p.region p.service (presignedText L req' p))) =
      L.hmacSha256 (L.deriveSigningKey secret p.date p.region p.service)
        (utf8 (L.textToSign p.amzDate p.date p.region p.service (presignedText L req p))) →
    L.textToSign p.amzDate p.date p.region p.service (presignedText L req' p) =
      L.textToSign p.amzDate p.date p.region p.service (presignedText L req p)

theorem verifyPresigned_eq_ok_iff {resolve : Str → Option Identity} {now signedTime : Int}
    {p : PresignedParams} {identity : Identity}
    (hp : L.presignedParams (req.query.getD []) = .ok p)
    (hdate : L.parseDateTime p.amzDate = some signedTime) :
    L.verifyPresigned resolve req now = some (.ok identity) ↔
      resolve p.accessKey = some identity ∧ identity.enabled = true ∧
        Representable (signedTime + p.expires) ∧ now ≤ nanos (signedTime + p.expires) ∧
        L.presignedSignature req p identity.secretKey = p.signature := by
  constructor
  · intro h
    rw [verifyPresigned, hp] at h
    dsimp only at h
    split at h
    · cases h
    rename_i identity' hresolve
    split at h
    · cases h
    rename_i henabled
    rw [hdate] at h
    dsimp only at h
    split at h
    · cases h
    rename_i hrep
    split at h
    · cases h
    rename_i hfresh
    split at h
    · rename_i hsigned
      obtain rfl := Except.ok.inj (Option.some.inj h)
      exact ⟨hresolve, Bool.eq_true_of_not_eq_false henabled, not_not.1 hrep, not_lt.1 hfresh,
        hsigned⟩
    · cases h
  · rintro ⟨hresolve, henabled, hrep, hfresh, hsigned⟩
    rw [verifyPresigned_dated hp hresolve henabled hdate, if_neg (not_not.2 hrep),
      if_neg (not_lt.2 hfresh), if_pos hsigned]

/-- Of the requests that carry the parameters of one accepted once, just those are accepted
at another time whose signed parts are all the same, as long as it is not past the expiry. -/
theorem presigned_replay_iff {resolve : Str → Option Identity} {now signedTime : Int}
    {p : PresignedParams} {identity : Identity} (hP : L.percent.Lawful) (hreq : Delivered req)
    (hreq' : Delivered req') (hapart : PresignedApart L p identity.secretKey req req')
    (hp : L.presignedParams (req.query.getD []) = .ok p)
    (hp' : L.presignedParams (req'.query.getD []) = .ok p)
    (hdate : L.parseDateTime p.amzDate = some signedTime)
    (hok : L.verifyPresigned resolve req now = some (.ok identity)) (later : Int) :
    L.verifyPresigned resolve req' later = some (.ok identity) ↔
      later ≤ nanos (signedTime + p.expires) ∧ SamePresigned L p req req' := by
  obtain ⟨hresolve, henabled, hrep, -, hsigned⟩ := (verifyPresigned_eq_ok_iff hp hdate).1 hok
  rw [verifyPresigned_eq_ok_iff hp' hdate]
  constructor
  · rintro ⟨-, -, -, hfresh, hsigned'⟩
    refine ⟨hfresh, ?_⟩
    rw [← hsigned, presignedSignature_eq, presignedSignature_eq] at hsigned'
    have htext := hapart.hmac (hexEncode_injective hsigned')
    simp only [textToSign, List.intercalate_cons_cons, List.intercalate_singleton,
      List.append_cancel_left_eq] at htext
    obtain ⟨hmethod, hpath, hquery, hheaders, -⟩ := requestText_injective hreq.method
      hreq'.method hreq.path hreq'.path (newline_presignedQuery hP _)
      (newline_presignedQuery hP _) (newline_signedValue hreq) (newline_signedValue hreq')
      (hapart.sha256 (hexEncode_injective htext))
    exact ⟨hmethod, hpath, hquery, hheaders⟩
  · rintro ⟨hfresh, hsame⟩
    refine ⟨hresolve, henabled, hrep, hfresh, ?_⟩
    have htext : presignedText L req' p = presignedText L req p :=
      requestText_congr hsame.method hsame.path hsame.query hsame.headers rfl
    rw [← hsigned, presignedSignature_eq, presignedSignature_eq, htext]

/-- A presigned request for `/b/k`, sent again with a header that it does not sign. -/
def replayedGet (date expires : String) : Request :=
  { presignedGet date expires with
    headers := (presignedGet date expires).headers ++
      [("range".toList, some "bytes=0-0".toList)] }

/-- At the start of 2026 it is good for a minute, and so is the one with another header. -/
theorem presigned_replay_iff_minute :
    oneByte.verifyPresigned onlyRoot (replayedGet "20260101T000000Z" "60")
        (nanos 1767225660) =
      some (.ok ⟨"root".toList, "secret".toList, "consoleAdmin".toList, true, none⟩) := by
  have hp : oneByte.presignedParams ((presignedGet "20260101T000000Z" "60").query.getD []) =
      .ok (presignedGetParams "20260101T000000Z" 60) := by decide +kernel
  have hdate : oneByte.parseDateTime "20260101T000000Z".toList = some 1767225600 := by
    decide +kernel
  have hroot : onlyRoot "root".toList =
    some ⟨"root".toList, "secret".toList, "consoleAdmin".toList, true, none⟩ := if_pos rfl
  have hdelivered : Delivered (presignedGet "20260101T000000Z" "60") :=
    { method := (by decide : '\n' ∉ "GET".toList)
      path := (by decide : '\n' ∉ "/b/k".toList)
      header := fun name v hv => by
        obtain ⟨h, hfind, hv⟩ := Option.map_eq_some_iff.1 hv
        have hmem := List.mem_singleton.1 (List.mem_of_find?_eq_some hfind)
        rw [hmem] at hv
        rw [← Option.some.inj hv]
        decide }
  have hreplayed : Delivered (replayedGet "20260101T000000Z" "60") :=
    { method := (by decide : '\n' ∉ "GET".toList)
      path := (by decide : '\n' ∉ "/b/k".toList)
      header := fun name v hv => by
        obtain ⟨h, hfind, hv⟩ := Option.map_eq_some_iff.1 hv
        have hmem := List.mem_of_find?_eq_some hfind
        simp only [replayedGet, presignedGet, List.mem_append, List.mem_singleton] at hmem
        rcases hmem with hmem | hmem
        · rw [hmem] at hv
          rw [← Option.some.inj hv]
          decide
        · rw [hmem] at hv
          rw [← Option.some.inj hv]
          decide }
  have hok : oneByte.verifyPresigned onlyRoot (presignedGet "20260101T000000Z" "60")
      (nanos 1767225600) =
      some (.ok ⟨"root".toList, "secret".toList, "consoleAdmin".toList, true, none⟩) :=
    (verifyPresigned_eq_ok_iff hp hdate).2
      ⟨hroot, rfl, by decide, by decide, by decide +kernel⟩
  have hsame : SamePresigned oneByte (presignedGetParams "20260101T000000Z" 60)
      (presignedGet "20260101T000000Z" "60") (replayedGet "20260101T000000Z" "60") := by
    refine ⟨rfl, rfl, rfl, fun name hname => ?_⟩
    have hnames : signedNames (presignedGetParams "20260101T000000Z" 60).signedHeaders =
        ["host".toList] := by decide +kernel
    rw [hnames] at hname
    rw [List.mem_singleton.1 hname]
    decide +kernel
  have htext : presignedText oneByte (replayedGet "20260101T000000Z" "60")
      (presignedGetParams "20260101T000000Z" 60) =
      presignedText oneByte (presignedGet "20260101T000000Z" "60")
        (presignedGetParams "20260101T000000Z" 60) :=
    requestText_congr hsame.method hsame.path hsame.query hsame.headers rfl
  exact (presigned_replay_iff percentCoding_lawful hdelivered hreplayed ⟨fun _ => htext,
    fun _ => by rw [htext]⟩ hp hp hdate hok (nanos 1767225660)).2 ⟨by decide, hsame⟩

end SigV4

end Kerplace
