/-
# `Kerplace.Auth.SignOn` — signing on to the console, and temporary credentials

A session of the console begins with the root credentials, or with an ID token that the
provider hands out for a code; a temporary credential is issued for an ID token that the client
brings.  The server keeps no record of either: what it hands out carries a tag under the root
secret, and so does the state that the browser brings back from the provider.

Each handler is given with what it does under the root secret: the text it is shown, and what it
issues.  An event of a request says how the request was answered.
-/
import Kerplace.Auth.Oidc
import Kerplace.Auth.Signing
import Kerplace.Auth.Tokens

namespace Kerplace

/-! ## States -/

namespace IamStore

variable (S : IamStore)

/-- `sign_state`. -/
def signState (nonce : Str) : Str :=
  nonce ++ '.' :: hexEncode (S.hmacSha256 S.rootSecret (utf8 nonce))

/-- `verify_state`. -/
def verifyState (state : Str) : Option Str :=
  match splitOnceAt '.' state with
  | none => none
  | some (nonce, _) => if S.signState nonce = state then some nonce else none

variable {S}

theorem verifyState_eq_some {state nonce : Str} :
    S.verifyState state = some nonce ↔ '.' ∉ nonce ∧ state = S.signState nonce := by
  constructor
  · intro h
    unfold verifyState at h
    split at h
    · cases h
    rename_i nonce' sig hsplit
    obtain ⟨hsigned, heq⟩ := Option.ite_none_right_eq_some.1 h
    cases heq
    refine ⟨?_, hsigned.symm⟩
    intro hdot
    obtain ⟨-, hparts⟩ := Option.ite_none_right_eq_some.1 hsplit
    rw [← (Prod.mk.inj (Option.some.inj hparts)).1] at hdot
    exact absurd (List.mem_takeWhile_imp hdot) (by decide)
  · rintro ⟨hdot, rfl⟩
    have hsplit : splitOnceAt '.' (S.signState nonce) =
        some (nonce, hexEncode (S.hmacSha256 S.rootSecret (utf8 nonce))) :=
      splitOnceAt_append hdot _
    unfold verifyState
    rw [hsplit]
    exact if_pos rfl

theorem issueToken_eq (now : Int) :
    S.issueToken now = S.signState (decimal (now + TOKEN_TTL_SECONDS)) := rfl

theorem dot_decimal (i : Int) : '.' ∉ decimal i := by
  intro hmem
  exact absurd (mem_decimal hmem) (by decide)

theorem signState_stsSecret (h : S.Coded) (accessKey : Str) :
    ∃ tag, S.decode (S.stsSecret accessKey) = some tag ∧
      S.signState accessKey = accessKey ++ '.' :: hexEncode tag :=
  ⟨_, h.decode_encode _, rfl⟩

/-- What a token that is accepted is made of. -/
theorem parts_of_verifyToken {token : Str} {t : Int} (h : S.verifyToken token t = true) :
    ∃ text expiry, splitOnceAt '.' token = some (text, S.sign expiry) ∧
      parseI64 text = some expiry ∧ t < expiry ∧ S.sign expiry <:+: token := by
  unfold verifyToken at h
  split at h
  · cases h
  rename_i text signature hsplit
  split at h
  · cases h
  rename_i expiry hparse
  split at h
  · cases h
  rename_i hexp
  obtain rfl := of_decide_eq_true h
  refine ⟨text, expiry, hsplit, hparse, not_le.1 hexp, ?_⟩
  obtain ⟨-, hparts⟩ := Option.ite_none_right_eq_some.1 hsplit
  rw [← (Prod.mk.inj (Option.some.inj hparts)).2]
  exact ((List.drop_suffix _ _).trans (List.dropWhile_suffix _)).isInfix

variable (S) in
/-- A header with the token of a session that began then: its tag, behind a text of its expiry. -/
def Bears (authorization : Option Str) (began : Int) : Prop :=
  ∃ token text, authorization = some ("Bearer ".toList ++ token) ∧
    splitOnceAt '.' token = some (text, S.sign (began + TOKEN_TTL_SECONDS)) ∧
    parseI64 text = some (began + TOKEN_TTL_SECONDS)

end IamStore

/-! ## The handlers -/

/-- A reading of the clock: `OffsetDateTime::unix_timestamp`, between the years -9999 and
9999. -/
structure UnixTime where
  secs : Int
  low : -377705116800 ≤ secs
  high : secs ≤ 253402300799

/-- The server, as far as it signs users on. -/
structure SignOn (Key : Type) where
  iam : IamStore
  jwt : Jwt Key
  percent : PercentCoding
  oidc : Option Oidc

namespace SignOn

/-- A request. -/
inductive Call where
  /-- To a handler behind `require_auth`, with the text of the `Authorization` header. -/
  | api (authorization : Option Str)
  | login (accessKey secretKey : Str)
  | oidcLogin
  | oidcCallback (q : Str → Option Str)
  /-- `POST /`. -/
  | sts (params : Str → Option Str)
  /-- A temporary access key is looked up for a signed request. -/
  | lookup (accessKey : Str)

/-- A request, and what there is around it: the clock when an ID token is checked and when
something is issued or looked at, what is drawn at random, and the provider's answers. -/
structure Turn where
  call : Call
  checked : UnixTime
  now : UnixTime
  nonce : LoginNonce
  stsNonce : StsNonce
  post : Str → List (Str × Str) → Fetched

/-- What a request is answered. -/
inductive Answer where
  /-- By the handler behind `require_auth`. -/
  | handled
  | token (token : Str)
  | redirect (url : Str)
  | credentials (subject accessKey secretKey sessionToken : Str) (expiry : Int)
  | identity (id : Option Identity)
  /-- A status with a code and a message, as JSON or XML. -/
  | refused (status : Nat) (code message : Str)
  /-- A status with a text. -/
  | text (status : Nat) (body : Str)
  deriving DecidableEq

variable {Key : Type} (S : SignOn Key)

/-- `require_auth`. -/
def requireAuth (t : Turn) (authorization : Option Str) : Answer × List IamStore.Event :=
  let unauthorized := Answer.refused 401 "Unauthorized".toList "Login required".toList
  match authorization.bind (·.dropPrefix? "Bearer ".toList) with
  | none => (unauthorized, [])
  | some token =>
      (if S.iam.verifyToken token t.now.secs then .handled else unauthorized, [.present token])

/-- `api::login`. -/
def login (t : Turn) (accessKey secretKey : Str) : Answer × List IamStore.Event :=
  if accessKey = S.iam.rootKey ∧ secretKey = S.iam.rootSecret then
    (.token (S.iam.issueToken t.now.secs), [.token t.now.secs])
  else (.refused 401 "AccessDenied".toList "Invalid credentials".toList, [])

/-- `oidc::login`. -/
def oidcLogin (t : Turn) : Answer × List IamStore.Event :=
  match S.oidc with
  | none => (.text 404 "OIDC is not enabled".toList, [])
  | some o =>
      let nonce := hexEncode t.nonce.bytes
      let state := S.iam.signState nonce
      (.redirect (o.authorizeUrl S.percent state nonce), [.login t.nonce])

/-- `oidc::callback`. -/
def callback (t : Turn) (q : Str → Option Str) : Answer × List IamStore.Event :=
  match S.oidc with
  | none => (.text 404 "OIDC is not enabled".toList, [])
  | some o =>
      match q "error".toList with
      | some err => (.text 401 ("IdP returned error: ".toList ++ err), [])
      | none =>
          match q "code".toList, q "state".toList with
          | some code, some state =>
              match S.iam.verifyState state with
              | none => (.text 400 "invalid OAuth state".toList, [.present state])
              | some nonce =>
                  match o.exchangeCode t.post code with
                  | .error e =>
                      (.text 502 ("OIDC token exchange failed: ".toList ++ e.toText),
                        [.present state])
                  | .ok idToken =>
                      match o.validate S.jwt t.checked.secs idToken (some nonce) with
                      | .error e =>
                          (.text 401 ("OIDC token rejected: ".toList ++ e.toText),
                            [.present state])
                      | .ok claims =>
                          -- the console is for the provider's administrators only
                          if o.policyFor claims ≠ .admin then
                            (.text 403 ("user `".toList ++ claims.username ++
                              "` is not in the console admin group".toList), [.present state])
                          else
                            (.redirect ("/#token=".toList ++ S.iam.issueToken t.now.secs),
                              [.present state, .token t.now.secs])
          | _, _ => (.text 400 "missing code/state".toList, [])

/-- For how long a credential is issued. -/
def ttlSecs (params : Str → Option Str) : Int :=
  max 900 (min 43200 (((params "DurationSeconds".toList).bind parseI64).getD 3600))

/-- `assume_role_with_web_identity`. -/
def assumeRoleWithWebIdentity (t : Turn) (params : Str → Option Str) :
    Answer × List IamStore.Event :=
  match S.oidc with
  | none =>
      (.refused 501 "STSNotEnabled".toList
        "OIDC is not configured (set KP_OIDC_ISSUER)".toList, [])
  | some o =>
      match params "WebIdentityToken".toList with
      | none =>
          (.refused 400 "InvalidParameterValue".toList "WebIdentityToken is required".toList, [])
      | some token =>
          match o.validate S.jwt t.checked.secs token none with
          | .error e =>
              (.refused 403 "AccessDenied".toList ("token rejected: ".toList ++ e.toText), [])
          | .ok claims =>
              let policy := o.policyFor claims
              let issued := S.iam.issueTemp t.now.secs t.stsNonce policy (ttlSecs params)
              (.credentials claims.subject issued.1 issued.2.1
                ("KPSTSTOKEN.".toList ++ issued.1) issued.2.2,
                [.temp t.now.secs t.stsNonce policy (ttlSecs params)])

/-- `sts::dispatch`. -/
def dispatch (t : Turn) (params : Str → Option Str) : Answer × List IamStore.Event :=
  match params "Action".toList with
  | none => (.refused 400 "MissingAction".toList "missing Action parameter".toList, [])
  | some action =>
      if action = "AssumeRoleWithWebIdentity".toList then S.assumeRoleWithWebIdentity t params
      else
        (.refused 400 "InvalidAction".toList
          ("unsupported STS action `".toList ++ action ++ ['`']), [])

/-- A request, handled. -/
def handle (t : Turn) : Answer × List IamStore.Event :=
  match t.call with
  | .api authorization => S.requireAuth t authorization
  | .login accessKey secretKey => S.login t accessKey secretKey
  | .oidcLogin => S.oidcLogin t
  | .oidcCallback q => S.callback t q
  | .sts params => S.dispatch t params
  | .lookup accessKey =>
      (.identity (S.iam.resolveSts t.now.secs accessKey), [.present accessKey])

/-- What is shown and issued over a run. -/
def trace (turns : List Turn) : List IamStore.Event := turns.flatMap fun t => (S.handle t).2

/-! ## How things are issued -/

/-- A session begins: with the root credentials, or with a code that the provider hands out an
ID token for, valid for the nonce of the state and of a user in the group of administrators. -/
inductive Begins (t : Turn) : Option Str → Prop
  | root (hcall : t.call = .login S.iam.rootKey S.iam.rootSecret)
      (hhandle : S.handle t = (.token (S.iam.issueToken t.now.secs), [.token t.now.secs])) :
      Begins t none
  | provider {q : Str → Option Str} {o : Oidc} {code state nonce idToken : Str}
      {claims : JsonValue} (hcall : t.call = .oidcCallback q) (hoidc : S.oidc = some o)
      (hcode : q "code".toList = some code) (hstate : q "state".toList = some state)
      (hnonce : S.iam.verifyState state = some nonce)
      (hexchanged : o.exchangeCode t.post code = .ok idToken)
      (hvalid : o.Valid S.jwt t.checked.secs idToken (some nonce) claims)
      (hadmin : o.policyFor (o.claimsOf claims) = .admin)
      (hhandle : S.handle t = (.redirect ("/#token=".toList ++ S.iam.issueToken t.now.secs),
        [.present state, .token t.now.secs])) : Begins t (some nonce)

/-- A temporary credential is issued: for an ID token, with the policy of its groups, for between
a quarter of an hour and half a day. -/
structure Issues (t : Turn) (policy : Policy) (ttl : Int) : Prop where
  asked : ∃ params, t.call = .sts params ∧ ttl = ttlSecs params ∧
    params "Action".toList = some "AssumeRoleWithWebIdentity".toList ∧
    ∃ o token claims, S.oidc = some o ∧ params "WebIdentityToken".toList = some token ∧
      o.Valid S.jwt t.checked.secs token none claims ∧ policy = o.policyFor (o.claimsOf claims)
  answer : ∃ subject,
    let issued := S.iam.issueTemp t.now.secs t.stsNonce policy ttl
    (S.handle t).1 = .credentials subject issued.1 issued.2.1
      ("KPSTSTOKEN.".toList ++ issued.1) issued.2.2
  low : 900 ≤ ttl
  high : ttl ≤ 43200

/-- What can be the nonce of a state: a login's, the expiry of a session, or what is hashed for a
temporary credential. -/
inductive Stated (before : List Turn) (nonce : Str) : Prop
  | login {l : Turn} (hl : l ∈ before) (hcall : l.call = .oidcLogin)
      (heq : nonce = hexEncode l.nonce.bytes)
  | session {b : Turn} {n : Option Str} (hb : b ∈ before) (hbegins : S.Begins b n)
      (heq : nonce = decimal (b.now.secs + TOKEN_TTL_SECONDS))
  | credential {b : Turn} {policy : Policy} {ttl : Int} (hb : b ∈ before)
      (hissues : S.Issues b policy ttl)
      (heq : nonce = (S.iam.issueTemp b.now.secs b.stsNonce policy ttl).1 ∨
        utf8 nonce = stsPayload policy (b.now.secs + ttl) b.stsNonce)

variable {S}

/-- A callback is shown a state at most, unless a session begins. -/
theorem callback_events (t : Turn) {q : Str → Option Str} (hcall : t.call = .oidcCallback q) :
    (∀ e ∈ (S.callback t q).2, ∃ s, e = .present s) ∨
      (∃ state, (S.callback t q).2 = [.present state, .token t.now.secs]) ∧
        ∃ nonce, S.Begins t (some nonce) := by
  have hhandle : S.handle t = S.callback t q := by rw [handle, hcall]
  have hquiet {a : Answer} : ∀ e ∈ (a, ([] : List IamStore.Event)).2, ∃ s, e = .present s := by
    intro e he
    exact absurd he List.not_mem_nil
  have hshown {a : Answer} {state : Str} :
      ∀ e ∈ (a, [IamStore.Event.present state]).2, ∃ s, e = .present s := by
    intro e he
    exact ⟨state, List.mem_singleton.1 he⟩
  unfold callback at hhandle ⊢
  cases hoidc : S.oidc with
  | none => exact .inl hquiet
  | some o =>
  rw [hoidc] at hhandle
  dsimp only at hhandle ⊢
  cases herror : q "error".toList with
  | some err => exact .inl hquiet
  | none =>
  rw [herror] at hhandle
  dsimp only at hhandle ⊢
  cases hcode : q "code".toList with
  | none => exact .inl hquiet
  | some code =>
  cases hstate : q "state".toList with
  | none => exact .inl hquiet
  | some state =>
  rw [hcode, hstate] at hhandle
  dsimp only at hhandle ⊢
  cases hnonce : S.iam.verifyState state with
  | none => exact .inl hshown
  | some nonce =>
  rw [hnonce] at hhandle
  dsimp only at hhandle ⊢
  cases hexchanged : o.exchangeCode t.post code with
  | error e => exact .inl hshown
  | ok idToken =>
  rw [hexchanged] at hhandle
  dsimp only at hhandle ⊢
  cases hkept : o.validate S.jwt t.checked.secs idToken (some nonce) with
  | error e => exact .inl hshown
  | ok kept =>
  rw [hkept] at hhandle
  dsimp only at hhandle ⊢
  by_cases hadmin : o.policyFor kept ≠ .admin
  · rw [if_pos hadmin]
    exact .inl hshown
  · rw [if_neg hadmin] at hhandle ⊢
    obtain ⟨claims, hvalid, rfl⟩ := Oidc.valid_of_validate hkept
    exact .inr ⟨⟨state, rfl⟩, nonce, .provider hcall hoidc hcode
      hstate hnonce hexchanged hvalid (Decidable.not_not.1 hadmin) hhandle⟩

theorem ttlSecs_range (params : Str → Option Str) :
    900 ≤ ttlSecs params ∧ ttlSecs params ≤ 43200 := by
  unfold ttlSecs
  omega

/-- What the STS endpoint issues. -/
theorem dispatch_events (t : Turn) {params : Str → Option Str} (hcall : t.call = .sts params) :
    (S.dispatch t params).2 = [] ∨ ∃ policy,
      (S.dispatch t params).2 = [.temp t.now.secs t.stsNonce policy (ttlSecs params)] ∧
        S.Issues t policy (ttlSecs params) := by
  have hhandle : S.handle t = S.dispatch t params := by rw [handle, hcall]
  cases haction : params "Action".toList with
  | none => exact .inl (by rw [dispatch, haction])
  | some action =>
  by_cases hassume : action = "AssumeRoleWithWebIdentity".toList
  swap
  · exact .inl (by rw [dispatch, haction]; exact congrArg Prod.snd (if_neg hassume))
  have hdispatch : S.dispatch t params = S.assumeRoleWithWebIdentity t params := by
    rw [dispatch, haction]
    exact if_pos hassume
  rw [hdispatch] at hhandle ⊢
  cases hoidc : S.oidc with
  | none => exact .inl (by rw [assumeRoleWithWebIdentity, hoidc])
  | some o =>
  cases htoken : params "WebIdentityToken".toList with
  | none => exact .inl (by rw [assumeRoleWithWebIdentity, hoidc]; dsimp only; rw [htoken])
  | some token =>
  cases hkept : o.validate S.jwt t.checked.secs token none with
  | error e =>
      refine .inl ?_
      rw [assumeRoleWithWebIdentity, hoidc]
      dsimp only
      rw [htoken]
      dsimp only
      rw [hkept]
  | ok kept =>
      obtain ⟨claims, hvalid, rfl⟩ := Oidc.valid_of_validate hkept
      have hanswer : S.assumeRoleWithWebIdentity t params =
          let issued := S.iam.issueTemp t.now.secs t.stsNonce (o.policyFor (o.claimsOf claims))
            (ttlSecs params)
          (.credentials (o.claimsOf claims).subject issued.1 issued.2.1
            ("KPSTSTOKEN.".toList ++ issued.1) issued.2.2,
            [.temp t.now.secs t.stsNonce (o.policyFor (o.claimsOf claims)) (ttlSecs params)]) := by
        rw [assumeRoleWithWebIdentity, hoidc]
        dsimp only
        rw [htoken]
        dsimp only
        rw [hkept]
      refine .inr ⟨o.policyFor (o.claimsOf claims), by rw [hanswer], ?_⟩
      exact
        { asked := ⟨params, hcall, rfl, hassume ▸ haction, o, token, claims, hoidc, htoken,
            hvalid, rfl⟩
          answer := ⟨_, congrArg Prod.fst (hhandle.trans hanswer)⟩
          low := (ttlSecs_range params).1
          high := (ttlSecs_range params).2 }

/-- The event of each kind, and the request it comes of. -/
theorem of_event_mem {t : Turn} {e : IamStore.Event} (he : e ∈ (S.handle t).2) :
    (∃ s, e = .present s) ∨
    (e = .token t.now.secs ∧ ∃ n, S.Begins t n) ∨
    (e = .login t.nonce ∧ t.call = .oidcLogin) ∨
    ∃ policy ttl, e = .temp t.now.secs t.stsNonce policy ttl ∧ S.Issues t policy ttl := by
  unfold handle at he
  split at he
  · rename_i authorization hcall
    unfold requireAuth at he
    dsimp only at he
    split at he
    · exact absurd he List.not_mem_nil
    · exact .inl ⟨_, List.mem_singleton.1 he⟩
  · rename_i accessKey secretKey hcall
    unfold login at he
    split at he
    · rename_i hroot
      obtain ⟨rfl, rfl⟩ := hroot
      have hhandle : S.handle t = (.token (S.iam.issueToken t.now.secs), [.token t.now.secs]) := by
        rw [handle, hcall]
        exact if_pos ⟨rfl, rfl⟩
      exact .inr (.inl ⟨List.mem_singleton.1 he, none, .root hcall hhandle⟩)
    · exact absurd he List.not_mem_nil
  · rename_i hcall
    unfold oidcLogin at he
    split at he
    · exact absurd he List.not_mem_nil
    · exact .inr (.inr (.inl ⟨List.mem_singleton.1 he, hcall⟩))
  · rename_i q hcall
    rcases callback_events (S := S) t hcall with hshown | ⟨⟨state, hbegun⟩, nonce, hbegins⟩
    · exact .inl (hshown e he)
    · rw [hbegun] at he
      rcases List.mem_cons.1 he with rfl | he
      · exact .inl ⟨_, rfl⟩
      · exact .inr (.inl ⟨List.mem_singleton.1 he, _, hbegins⟩)
  · rename_i params hcall
    rcases dispatch_events (S := S) t hcall with hnone | ⟨policy, hissued, hissues⟩
    · rw [hnone] at he
      exact absurd he List.not_mem_nil
    · rw [hissued] at he
      exact .inr (.inr (.inr ⟨policy, _, List.mem_singleton.1 he, hissues⟩))
  · exact .inl ⟨_, List.mem_singleton.1 he⟩

end SignOn

end Kerplace
