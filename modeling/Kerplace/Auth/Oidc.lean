/-
# `Kerplace.Auth.Oidc` — the identities of another provider

An ID token is checked under one of the provider's keys, and its groups are mapped to a
policy.  The library that checks the token's signature, issuer, audience and expiry is a
parameter here, and so is the provider itself.

Which key a token is checked under is the token's own choice; where the provider has one key
only, that one is taken whatever the token names.
-/
import Kerplace.Auth.Chunked
import Kerplace.Auth.Identity
import Kerplace.Handlers.Listing
import Kerplace.Lib.Fallible

namespace Kerplace

/-! ## JSON values -/

/-- `serde_json::Value`.  An object has each name once. -/
inductive JsonValue where
  | null
  | bool (b : Bool)
  | number (n : Str)
  | string (s : Str)
  | array (items : List JsonValue)
  | object (members : List (Str × JsonValue))

namespace JsonValue

/-- `Value::get`, with a name. -/
def get : JsonValue → Str → Option JsonValue
  | .object members, key => members.lookup key
  | _, _ => none

/-- `Value::as_str`. -/
def asStr : JsonValue → Option Str
  | .string s => some s
  | _ => none

/-- `Value::as_array`. -/
def asArray : JsonValue → Option (List JsonValue)
  | .array items => some items
  | _ => none

/-- The text under a name. -/
def text (v : JsonValue) (key : Str) : Option Str := (v.get key).bind asStr

end JsonValue

/-! ## The configuration -/

/-- `OidcError`. -/
inductive OidcError where
  | discovery (s : Str)
  | network (s : Str)
  | invalidToken (s : Str)

/-- The error as text. -/
def OidcError.toText : OidcError → Str
  | .discovery s => "OIDC discovery failed: ".toList ++ s
  | .network s => "OIDC request failed: ".toList ++ s
  | .invalidToken s => "invalid OIDC token: ".toList ++ s

/-- `OidcConfig`. -/
structure OidcConfig where
  issuer : Str
  clientId : Str
  clientSecret : Str
  redirectUrl : Str
  groupsClaim : Str
  adminGroup : Str
  readwriteGroup : Str

/-- `OidcConfig::from_env`, with `config::env_var`. -/
def OidcConfig.fromEnv (envVar : Str → Option Str) : Option OidcConfig :=
  let set (k : Str) : Option Str := (envVar k).filter fun s => decide (trim s ≠ [])
  let get (k default : Str) : Str := (set k).getD default
  (set "OIDC_ISSUER".toList).map fun issuer =>
    { issuer := trimEndMatches (· = '/') issuer
      clientId := get "OIDC_CLIENT_ID".toList []
      clientSecret := get "OIDC_CLIENT_SECRET".toList []
      redirectUrl := get "OIDC_REDIRECT_URL".toList []
      groupsClaim := get "OIDC_GROUPS_CLAIM".toList "groups".toList
      adminGroup := get "OIDC_ADMIN_GROUP".toList "kerplace-admins".toList
      readwriteGroup := get "OIDC_READWRITE_GROUP".toList "kerplace-writers".toList }

/-- `OidcClaims`. -/
structure OidcClaims where
  subject : Str
  username : Str
  groups : List Str
  deriving DecidableEq

/-- `RsaJwk`. -/
structure RsaJwk where
  kid : Str
  n : Str
  e : Str
  deriving DecidableEq

/-- `Oidc`, less its HTTP client. -/
structure Oidc where
  config : OidcConfig
  authorizeEndpoint : Str
  tokenEndpoint : Str
  jwks : List RsaJwk

/-- The library of JSON web tokens: the key that a token names, a key from its two numbers, and
the claims of a token that is signed under the key and is for now, of the issuer and for the
audience. -/
structure Jwt (Key : Type) where
  decodeHeader : Str → Except Str (Option Str)
  fromRsaComponents : Str → Str → Except Str Key
  decode (now : Int) (token : Str) (key : Key) (issuer audience : Str) : Except Str JsonValue

/-- What comes of a request to the provider. -/
inductive Fetched where
  | sendFailed (e : Str)
  | notJson (e : Str)
  | answered (v : JsonValue)

/-! ## Discovery -/

/-- `str_field`. -/
def strField (v : JsonValue) (key : Str) : Except OidcError Str :=
  match v.text key with
  | some s => .ok s
  | none => .error (.discovery ("discovery doc missing `".toList ++ key ++ ['`']))

/-- `parse_jwks`. -/
def parseJwks (doc : JsonValue) : List RsaJwk :=
  (((doc.get "keys".toList).bind JsonValue.asArray).map fun keys =>
    (keys.filter fun k => decide (k.text "kty".toList = some "RSA".toList)).filterMap fun k =>
      (k.text "n".toList).bind fun n => (k.text "e".toList).map fun e =>
        ⟨(k.text "kid".toList).getD [], n, e⟩).getD []

namespace Oidc

/-- The JSON of an answer, or the error that its failure is. -/
def fetched (bad : Str → OidcError) : Fetched → Except OidcError JsonValue
  | .sendFailed e => .error (.network e)
  | .notJson e => .error (bad e)
  | .answered v => .ok v

/-- `Oidc::discover`. -/
def discover (http : Str → Fetched) (config : OidcConfig) : Except OidcError Oidc := do
  let discoUrl := config.issuer ++ "/.well-known/openid-configuration".toList
  let disco ← fetched (fun e => .discovery ("discovery doc: ".toList ++ e)) (http discoUrl)
  let authorizeEndpoint ← strField disco "authorization_endpoint".toList
  let tokenEndpoint ← strField disco "token_endpoint".toList
  let jwksUri ← strField disco "jwks_uri".toList
  let jwksDoc ← fetched (fun e => .discovery ("jwks: ".toList ++ e)) (http jwksUri)
  let jwks := parseJwks jwksDoc
  if jwks = [] then .error (.discovery "JWKS contained no usable RSA keys".toList)
  else .ok ⟨config, authorizeEndpoint, tokenEndpoint, jwks⟩

variable (o : Oidc)

/-- `Oidc::authorize_url`. -/
def authorizeUrl (P : PercentCoding) (state nonce : Str) : Str :=
  let enc := P.utf8PercentEncode NON_ALPHANUMERIC
  o.authorizeEndpoint ++ "?response_type=code&client_id=".toList ++ enc o.config.clientId ++
    "&redirect_uri=".toList ++ enc o.config.redirectUrl ++
    "&scope=openid%20email%20profile&state=".toList ++ enc state ++
    "&nonce=".toList ++ enc nonce

/-- `Oidc::exchange_code`; the provider answers the form it is posted. -/
def exchangeCode (post : Str → List (Str × Str) → Fetched) (code : Str) : Except OidcError Str :=
  let params :=
    [("grant_type".toList, "authorization_code".toList), ("code".toList, code),
      ("redirect_uri".toList, o.config.redirectUrl), ("client_id".toList, o.config.clientId),
      ("client_secret".toList, o.config.clientSecret)]
  match fetched (fun e => .invalidToken ("token response: ".toList ++ e))
      (post o.tokenEndpoint params) with
  | .error e => .error e
  | .ok resp =>
      match resp.text "id_token".toList with
      | some idToken => .ok idToken
      | none => .error (.invalidToken "token response had no id_token".toList)

/-! ## Validation -/

/-- The key that a token is checked under. -/
def jwkFor (kid : Str) : Option RsaJwk :=
  (o.jwks.find? fun k => decide (k.kid = kid)).or
    (if o.jwks.length = 1 then o.jwks.head? else none)

/-- What is kept of the claims of a token. -/
def claimsOf (claims : JsonValue) : OidcClaims :=
  let subject := (claims.text "sub".toList).getD []
  { subject
    -- `preferred_username` hides `email` also where it is no text
    username := (((claims.get "preferred_username".toList).or
      (claims.get "email".toList)).bind JsonValue.asStr).getD subject
    groups := (((claims.get o.config.groupsClaim).bind JsonValue.asArray).map
      (·.filterMap JsonValue.asStr)).getD [] }

variable {Key : Type} (J : Jwt Key)

/-- `Oidc::validate`. -/
def validate (now : Int) (idToken : Str) (expectedNonce : Option Str) :
    Except OidcError OidcClaims := do
  let header ← (J.decodeHeader idToken).mapError .invalidToken
  let kid := header.getD []
  let jwk ← (o.jwkFor kid).elim
    (.error (.invalidToken ("no JWKS key for kid `".toList ++ kid ++ ['`']))) .ok
  let key ← (J.fromRsaComponents jwk.n jwk.e).mapError fun e =>
    .invalidToken ("bad JWKS key: ".toList ++ e)
  let claims ← (J.decode now idToken key o.config.issuer o.config.clientId).mapError .invalidToken
  match expectedNonce with
  | some expected =>
      if claims.text "nonce".toList ≠ some expected then
        .error (.invalidToken "nonce mismatch".toList)
      else .ok (o.claimsOf claims)
  | none => .ok (o.claimsOf claims)

/-- The user is in a group of the name, which the provider may write with slashes before it. -/
def inGroup (claims : OidcClaims) (name : Str) : Bool :=
  claims.groups.any fun g => decide (g = name) || decide (g.dropWhile (· = '/') = name)

/-- `Oidc::policy_for`. -/
def policyFor (claims : OidcClaims) : Policy :=
  if inGroup claims o.config.adminGroup then .admin
  else if inGroup claims o.config.readwriteGroup then .readWrite
  else .readOnly

/-! ## What a token must be -/

/-- An ID token with these claims: signed under a key of the provider's, of its issuer, for this
client and for now, and with the nonce where one is expected. -/
structure Valid (now : Int) (idToken : Str) (expectedNonce : Option Str) (claims : JsonValue) :
    Prop where
  signed : ∃ jwk ∈ o.jwks, ∃ key, J.fromRsaComponents jwk.n jwk.e = .ok key ∧
    J.decode now idToken key o.config.issuer o.config.clientId = .ok claims
  nonce : ∀ expected, expectedNonce = some expected → claims.text "nonce".toList = some expected

variable {o J}

theorem mem_jwkFor {kid : Str} {jwk : RsaJwk} (h : o.jwkFor kid = some jwk) : jwk ∈ o.jwks := by
  rcases Option.or_eq_some_iff.1 h with hfound | ⟨-, hsole⟩
  · exact List.mem_of_find?_eq_some hfound
  · exact List.mem_of_head? (Option.ite_none_right_eq_some.1 hsole).2

/-- A provider that is discovered has keys: those of the document that it names for them. -/
theorem keys_of_discover {http : Str → Fetched} {config : OidcConfig}
    (h : discover http config = .ok o) :
    o.config = config ∧ o.jwks ≠ [] ∧ ∃ disco jwksUri jwksDoc,
      http (config.issuer ++ "/.well-known/openid-configuration".toList) = .answered disco ∧
      disco.text "jwks_uri".toList = some jwksUri ∧ http jwksUri = .answered jwksDoc ∧
      o.jwks = parseJwks jwksDoc := by
  have hfetched {bad : Str → OidcError} {f : Fetched} {v : JsonValue}
      (hf : fetched bad f = .ok v) : f = .answered v := by
    cases f with
    | sendFailed e => cases hf
    | notJson e => cases hf
    | answered v => exact congrArg Fetched.answered (Except.ok.inj hf)
  obtain ⟨disco, hdisco, h⟩ := Fallible.bind_eq_ok.1 h
  obtain ⟨authorizeEndpoint, -, h⟩ := Fallible.bind_eq_ok.1 h
  obtain ⟨tokenEndpoint, -, h⟩ := Fallible.bind_eq_ok.1 h
  obtain ⟨jwksUri, huri, h⟩ := Fallible.bind_eq_ok.1 h
  obtain ⟨jwksDoc, hdoc, h⟩ := Fallible.bind_eq_ok.1 h
  have htext : disco.text "jwks_uri".toList = some jwksUri := by
    unfold strField at huri
    split at huri
    · rename_i s hs
      rw [hs, Except.ok.inj huri]
    · cases huri
  dsimp only at h
  split at h
  · cases h
  · rename_i hkeys
    cases h
    exact ⟨rfl, hkeys, disco, jwksUri, jwksDoc, hfetched hdisco, htext, hfetched hdoc, rfl⟩

/-- A token that is validated is valid, and what is kept of its claims is what is answered. -/
theorem valid_of_validate {now : Int} {idToken : Str} {expectedNonce : Option Str}
    {kept : OidcClaims} (h : o.validate J now idToken expectedNonce = .ok kept) :
    ∃ claims, o.Valid J now idToken expectedNonce claims ∧ kept = o.claimsOf claims := by
  obtain ⟨header, -, h⟩ := Fallible.bind_eq_ok.1 h
  obtain ⟨jwk, hjwk, h⟩ := Fallible.bind_eq_ok.1 h
  obtain ⟨key, hkey, h⟩ := Fallible.bind_eq_ok.1 h
  obtain ⟨claims, hclaims, h⟩ := Fallible.bind_eq_ok.1 h
  have hsigned : ∃ jwk ∈ o.jwks, ∃ key, J.fromRsaComponents jwk.n jwk.e = .ok key ∧
      J.decode now idToken key o.config.issuer o.config.clientId = .ok claims :=
    ⟨jwk, mem_jwkFor (Fallible.elim_eq_ok.1 hjwk), key, Fallible.mapError_eq_ok.1 hkey,
      Fallible.mapError_eq_ok.1 hclaims⟩
  cases expectedNonce with
  | none =>
      cases h
      refine ⟨claims, ⟨hsigned, ?_⟩, rfl⟩
      intro expected hexpected
      cases hexpected
  | some expected =>
      dsimp only at h
      split at h
      · cases h
      rename_i hnonce
      cases h
      refine ⟨claims, ⟨hsigned, ?_⟩, rfl⟩
      intro expected' hexpected
      cases hexpected
      exact Decidable.not_not.1 hnonce

/-! ## The authorize URL -/

/-- The query of `authorize_url`. -/
def authorizeParams (o : Oidc) (P : PercentCoding) (state nonce : Str) : List (Str × Str) :=
  let enc := P.utf8PercentEncode NON_ALPHANUMERIC
  [("response_type".toList, "code".toList), ("client_id".toList, enc o.config.clientId),
    ("redirect_uri".toList, enc o.config.redirectUrl),
    ("scope".toList, "openid%20email%20profile".toList), ("state".toList, enc state),
    ("nonce".toList, enc nonce)]

theorem authorizeUrl_eq (o : Oidc) (P : PercentCoding) (state nonce : Str) :
    o.authorizeUrl P state nonce = o.authorizeEndpoint ++ '?' ::
      ['&'].intercalate ((o.authorizeParams P state nonce).map fun p => p.1 ++ '=' :: p.2) := by
  have hquery : ['&'].intercalate ((o.authorizeParams P state nonce).map fun p =>
      p.1 ++ '=' :: p.2) = "response_type=code&client_id=".toList ++
        (P.utf8PercentEncode NON_ALPHANUMERIC o.config.clientId ++ ("&redirect_uri=".toList ++
          (P.utf8PercentEncode NON_ALPHANUMERIC o.config.redirectUrl ++
            ("&scope=openid%20email%20profile&state=".toList ++
              (P.utf8PercentEncode NON_ALPHANUMERIC state ++ ("&nonce=".toList ++
                (P.utf8PercentEncode NON_ALPHANUMERIC nonce ++ []))))))) := rfl
  rw [hquery, List.append_nil]
  unfold authorizeUrl
  simp only [List.append_assoc]
  rfl

theorem plain_authorizeParams {P : PercentCoding} (hP : P.Lawful) (o : Oidc)
    (state nonce : Str) : ∀ p ∈ o.authorizeParams P state nonce, PlainName p.1 ∧ '&' ∉ p.2 := by
  have henc (s : Str) : '&' ∉ P.utf8PercentEncode NON_ALPHANUMERIC s := by
    intro hmem
    rcases hP.encode_chars NON_ALPHANUMERIC s _ hmem with h | h | h
    · exact absurd h (by decide)
    · exact absurd h (by decide)
    · exact absurd h (by decide)
  simp only [authorizeParams, List.forall_mem_cons, List.not_mem_nil, false_implies, implies_true,
    and_true]
  refine ⟨⟨by decide, by decide⟩, ⟨by decide, henc _⟩, ⟨by decide, henc _⟩,
    ⟨by decide, by decide⟩, ⟨by decide, henc _⟩, ⟨by decide, henc _⟩⟩

theorem found_authorizeParams {P : PercentCoding} (hP : P.Lawful) (o : Oidc)
    (state nonce : Str) (front : List (Str × Str)) (name value : Str)
    (back : List (Str × Str))
    (hparams : o.authorizeParams P state nonce = front ++ (name, value) :: back) :
    parseQuery P (some (['&'].intercalate ((o.authorizeParams P state nonce).map fun p =>
      p.1 ++ '=' :: p.2))) name = some (P.percentDecode value) := by
  have hplain := plain_authorizeParams hP o state nonce
  have hnames : ((o.authorizeParams P state nonce).map Prod.fst).Nodup := by
    have hsix : ["response_type".toList, "client_id".toList, "redirect_uri".toList,
        "scope".toList, "state".toList, "nonce".toList].Nodup := by decide
    exact hsix
  rw [hparams, List.map_append, List.map_cons] at hnames
  rw [hparams] at hplain ⊢
  exact parseQuery_named hP hplain (List.nodup_cons.1 (List.nodup_append.1 hnames).2.1).1

end Oidc

end Kerplace
