/-
# `Kerplace.Auth.Sessions` — what a session rests on

The server keeps no record of sessions, of logins or of temporary credentials, so who is let in
is a matter of the whole run: a token that is accepted was made when a session began, a temporary
key when it was issued, and a state before the provider sent the browser back with it.

What is not so is that a state is a login's only.  A session's token is a state too, and who has
a temporary credential can make one; what keeps the uses apart is that the nonce of neither has
the shape of a login's.
-/
import Kerplace.Auth.SignOn

namespace Kerplace

namespace SignOn

variable {Key : Type} {S : SignOn Key}

/-! ## Runs -/

theorem exists_of_tagged {before : List Turn} {p : IamStore.Purpose} {m : Bytes}
    (h : (p, m) ∈ (S.trace before).flatMap S.iam.tagged) :
    ∃ b ∈ before, ∃ e ∈ (S.handle b).2, (p, m) ∈ S.iam.tagged e := by
  obtain ⟨e, he, hm⟩ := List.mem_flatMap.1 h
  obtain ⟨b, hb, he⟩ := List.mem_flatMap.1 he
  exact ⟨b, hb, e, he, hm⟩

theorem hashed_of_shown {turns : List Turn} (hunforgeable : S.iam.Unforgeable (S.trace turns))
    {before after : List Turn} {t : Turn} (hturns : turns = before ++ t :: after) {s : Str}
    {rest : List IamStore.Event} (hevents : (S.handle t).2 = .present s :: rest) {m tag : Bytes}
    (hlen : stsTagLen ≤ tag.length) (htag : tag <+: S.iam.hmacSha256 S.iam.rootSecret m)
    (hshows : S.iam.Shows s tag) :
    ∃ b ∈ before, ∃ e ∈ (S.handle b).2, ∃ p, (p, m) ∈ S.iam.tagged e := by
  have htrace : S.trace turns = S.trace before ++ .present s :: (rest ++ S.trace after) := by
    rw [trace, hturns, List.flatMap_append, List.flatMap_cons, hevents]
    rfl
  obtain ⟨p, hp⟩ := hunforgeable _ _ _ htrace m tag hlen htag hshows
  obtain ⟨b, hb, e, he, hm⟩ := exists_of_tagged hp
  exact ⟨b, hb, e, he, p, hm⟩

theorem stated_of_tagged {before : List Turn} {b : Turn} (hb : b ∈ before) {e : IamStore.Event}
    (he : e ∈ (S.handle b).2) {p : IamStore.Purpose} {nonce : Str}
    (hm : (p, utf8 nonce) ∈ S.iam.tagged e) : S.Stated before nonce := by
  rcases of_event_mem he with ⟨s, rfl⟩ | ⟨rfl, n, hbegins⟩ | ⟨rfl, hcall⟩ |
    ⟨policy, ttl, rfl, hissues⟩
  · exact absurd hm List.not_mem_nil
  · obtain ⟨-, heq⟩ := Prod.mk.inj (List.mem_singleton.1 hm)
    exact .session hb hbegins (IamStore.utf8_injective heq)
  · obtain ⟨-, heq⟩ := Prod.mk.inj (List.mem_singleton.1 hm)
    exact .login hb hcall (IamStore.utf8_injective heq)
  · rcases List.mem_cons.1 hm with heq | hm
    · exact .credential hb hissues (.inr (Prod.mk.inj heq).2)
    · obtain ⟨-, heq⟩ := Prod.mk.inj (List.mem_singleton.1 hm)
      exact .credential hb hissues (.inl (IamStore.utf8_injective heq))

/-- The hexadecimal digits of a login's nonce are no other message. -/
theorem Stated.login_of_hex {before : List Turn} {n : LoginNonce}
    (h : S.Stated before (hexEncode n.bytes)) : ∃ l ∈ before, l.call = .oidcLogin ∧
      l.nonce.bytes = n.bytes := by
  have hlen : (hexEncode n.bytes).length = 32 := by
    rw [IamStore.length_hexEncode, n.length_eq]
  cases h with
  | login hl hcall heq => exact ⟨_, hl, hcall, (hexEncode_injective heq).symm⟩
  | @session b _ _ _ heq =>
      have hlow := b.now.low
      have hhigh := b.now.high
      have htwelve : TOKEN_TTL_SECONDS = 43200 := rfl
      have hshort := IamStore.length_decimal_le (i := b.now.secs + TOKEN_TTL_SECONDS)
        (by omega) (by omega)
      rw [← heq, hlen] at hshort
      omega
  | @credential b policy ttl _ _ heq =>
      cases hhex : hexEncode n.bytes with
      | nil =>
          rw [hhex] at hlen
          cases hlen
      | cons c s =>
          have hplain : ∀ v < 16, (4 < (hexDigit v).toNat ∧ (hexDigit v).toNat ≤ 127) ∧
              hexDigit v ≠ 'K' := by decide
          obtain ⟨v, hv, rfl⟩ := mem_hexEncode (hhex ▸ List.mem_cons_self : c ∈ _)
          obtain ⟨hascii, hletter⟩ := hplain v hv
          rw [hhex] at heq
          rcases heq with heq | heq
          · exact absurd (List.cons.inj heq).1 hletter
          · have hnone := IamStore.policyFromId_utf8 s hascii.1 hascii.2
            rw [heq] at hnone
            exact absurd ((policyFromId_toId policy).symm.trans hnone)
              (Option.some_ne_none _)

theorem stated_of_accepted (hcoded : S.iam.Coded) {turns : List Turn}
    (hunforgeable : S.iam.Unforgeable (S.trace turns)) {before after : List Turn} {t : Turn}
    (hturns : turns = before ++ t :: after) {state : Str} {rest : List IamStore.Event}
    (hevents : (S.handle t).2 = .present state :: rest) {nonce : Str}
    (haccepted : S.iam.verifyState state = some nonce) : S.Stated before nonce := by
  obtain ⟨-, rfl⟩ := IamStore.verifyState_eq_some.1 haccepted
  have hshows : S.iam.Shows (S.iam.signState nonce)
      (S.iam.hmacSha256 S.iam.rootSecret (utf8 nonce)) :=
    .inr ((List.suffix_cons _ _).trans (List.suffix_append _ _)).isInfix
  obtain ⟨b, hb, e, he, p, hm⟩ := hashed_of_shown hunforgeable hturns hevents
    (hcoded.tagged _ _) List.prefix_rfl hshows
  exact stated_of_tagged hb he hm

/-! ## A server to try -/

/-- The tag of one message told apart from all others. -/
def oneTag (message : Bytes) (_secret : Str) (m : Bytes) : Bytes :=
  List.replicate stsTagLen (if m = message then 8 else 9)

/-- A store with such tags. -/
def oneTagStore (message : Bytes) : IamStore :=
  IamStore.latinStore (oneTag message) "root".toList

theorem coded_oneTagStore (message : Bytes) : (oneTagStore message).Coded :=
  IamStore.coded_latinStore (fun _ _ => List.length_replicate.ge) _

/-- A text that shows no nines makes no tag up where the message was hashed before. -/
theorem unforgeable_once {message : Bytes} {before : List IamStore.Event} {s : Str}
    {p : IamStore.Purpose}
    (hbefore : ∀ e ∈ before, ∀ x, e ≠ .present x)
    (hm : (p, message) ∈ before.flatMap (oneTagStore message).tagged)
    (hs : s.all (fun c => decide (c ≠ '9' ∧ c ≠ Char.ofNat 9)) = true) :
    (oneTagStore message).Unforgeable (before ++ [.present s]) := by
  have hnines {c : Char} (hc : c ∈ s) : c ≠ '9' ∧ c ≠ Char.ofNat 9 :=
    of_decide_eq_true (List.all_eq_true.1 hs c hc)
  intro pre s' post htrace m tag hlen htag hshows
  obtain ⟨rfl, rfl⟩ : pre = before ∧ s' = s := by
    rcases List.append_eq_append_iff.1 htrace with ⟨mid, rfl, hmid⟩ | ⟨mid, rfl, hmid⟩
    · cases mid with
      | nil =>
          cases hmid
          exact ⟨(List.append_nil _), rfl⟩
      | cons e mid => exact absurd (List.cons.inj hmid).2.symm (by simp)
    · cases mid with
      | nil =>
          cases hmid
          exact ⟨(List.append_nil _).symm, rfl⟩
      | cons e mid =>
          cases hmid
          exact absurd rfl (hbefore _ (List.mem_append_right _ List.mem_cons_self) s')
  by_cases hmessage : m = message
  · exact ⟨p, hmessage ▸ hm⟩
  -- the tag of any other message is nines
  have hother : (oneTagStore message).hmacSha256 (oneTagStore message).rootSecret m =
      List.replicate stsTagLen 9 := congrArg (List.replicate stsTagLen) (if_neg hmessage)
  rw [hother] at htag
  obtain rfl := htag.eq_of_length_le (List.length_replicate.trans_le hlen)
  rcases hshows with ⟨piece, b, hpiece, hb, hin⟩ | hin
  · obtain ⟨hlatin, heq⟩ := Option.ite_none_right_eq_some.1 hb
    rw [Option.some.inj heq] at hlatin
    have hnine : Char.ofNat 9 ∈ piece := hlatin ▸ List.mem_map.2
      ⟨9, hin.subset (List.mem_replicate.2 ⟨by decide, rfl⟩), rfl⟩
    exact absurd rfl (hnines (hpiece.subset hnine)).2
  · have hnine : '9' ∈ hexEncode (List.replicate stsTagLen 9) := by decide
    exact absurd rfl (hnines (hin.subset hnine)).1

/-- A library that takes a text for the token of an administrator with that text for a nonce. -/
def echoJwt : Jwt Unit where
  decodeHeader _ := .ok none
  fromRsaComponents _ _ := .ok ()
  decode _ token _ _ _ := .ok (.object [("nonce".toList, .string token),
    ("groups".toList, .array [.string "/kerplace-admins".toList])])

/-- A provider with one key. -/
def oneKey : Oidc where
  config := ⟨"https://idp.example".toList, "kerplace".toList, "secret".toList,
    "https://kp.example/api/oidc/callback".toList, "groups".toList, "kerplace-admins".toList,
    "kerplace-writers".toList⟩
  authorizeEndpoint := "https://idp.example/authorize".toList
  tokenEndpoint := "https://idp.example/token".toList
  jwks := [⟨"k".toList, "n".toList, "AQAB".toList⟩]

/-- A server that relies on it. -/
def echoServer (message : Bytes) : SignOn Unit :=
  ⟨oneTagStore message, echoJwt, percentCoding, some oneKey⟩

/-- A request at some time, to a provider that answers the code for a token. -/
def turnAt (now : UnixTime) (call : Call) : Turn where
  call := call
  checked := now
  now := now
  nonce := ⟨List.replicate 16 0, rfl⟩
  stsNonce := IamStore.minuteNonce
  post _ params := .answered (.object [("id_token".toList,
    .string ((params.lookup "code".toList).getD []))])

/-- A time. -/
def early : UnixTime := ⟨1000, by decide, by decide⟩

/-- A while after it. -/
def later : UnixTime := ⟨2000, by decide, by decide⟩

/-! ## States and sessions -/

/-- What a state can be.  Over any run in which no tag is made up, a text that is accepted as a
state carries a nonce that was hashed before: a login's, the expiry of a session, or what is
hashed for a temporary credential.  The session's own token is such a text, and the secret key
of a credential gives one. -/
theorem states_accepted (hcoded : S.iam.Coded) {turns : List Turn}
    (hunforgeable : S.iam.Unforgeable (S.trace turns)) {pre post : List Turn} {t : Turn}
    (hturns : turns = pre ++ t :: post) {shown : Str} {rest : List IamStore.Event}
    (hevents : (S.handle t).2 = .present shown :: rest) :
    (∀ nonce, S.iam.verifyState shown = some nonce → S.Stated pre nonce) ∧
    (∀ b n, S.Begins b n → S.iam.verifyState (S.iam.issueToken b.now.secs) =
      some (decimal (b.now.secs + TOKEN_TTL_SECONDS))) ∧
    ∀ b policy ttl, S.Issues b policy ttl →
      let issued := S.iam.issueTemp b.now.secs b.stsNonce policy ttl
      '.' ∉ issued.1 → ∃ tag, S.iam.decode issued.2.1 = some tag ∧
        S.iam.verifyState (issued.1 ++ '.' :: hexEncode tag) = some issued.1 := by
  refine ⟨?_, ?_, ?_⟩
  · intro nonce haccepted
    exact stated_of_accepted hcoded hunforgeable hturns hevents haccepted
  · intro b n _
    exact IamStore.verifyState_eq_some.2 ⟨IamStore.dot_decimal _, IamStore.issueToken_eq _⟩
  · intro b policy ttl _ issued hdot
    obtain ⟨tag, htag, hstate⟩ := IamStore.signState_stsSecret hcoded issued.1
    exact ⟨tag, htag, IamStore.verifyState_eq_some.2 ⟨hdot, hstate.symm⟩⟩

/-- The nonce of the login below, in hexadecimal. -/
def zeros : Str := hexEncode (List.replicate 16 0)

/-- Someone goes to the provider. -/
def goesOut : Turn := turnAt early .oidcLogin

/-- And comes back, with a state and a code. -/
def comesBack (state code : Str) : Turn :=
  turnAt later (.oidcCallback fun name =>
    if name = "state".toList then some state
    else if name = "code".toList then some code else none)

/-- The state that comes back is the login's. -/
theorem states_accepted_login : (echoServer (utf8 zeros)).Stated [goesOut] zeros := by
  have htrace : (echoServer (utf8 zeros)).trace
      [goesOut, comesBack ((oneTagStore (utf8 zeros)).signState zeros) []] =
      [.login goesOut.nonce] ++ [.present ((oneTagStore (utf8 zeros)).signState zeros)] := rfl
  have hquiet : ∀ e ∈ [IamStore.Event.login goesOut.nonce], ∀ x, e ≠ .present x := by
    intro e he x hx
    rw [List.mem_singleton.1 he] at hx
    cases hx
  have hhashed : (IamStore.Purpose.login, utf8 zeros) ∈
      [IamStore.Event.login goesOut.nonce].flatMap (oneTagStore (utf8 zeros)).tagged :=
    List.mem_cons_self
  have hunforgeable : (oneTagStore (utf8 zeros)).Unforgeable ((echoServer (utf8 zeros)).trace
      [goesOut, comesBack ((oneTagStore (utf8 zeros)).signState zeros) []]) := by
    rw [htrace]
    exact unforgeable_once hquiet hhashed (by decide +kernel)
  have hturns : [goesOut, comesBack ((oneTagStore (utf8 zeros)).signState zeros) []] =
      [goesOut] ++ comesBack ((oneTagStore (utf8 zeros)).signState zeros) [] :: [] := rfl
  have haccepted : (oneTagStore (utf8 zeros)).verifyState
      ((oneTagStore (utf8 zeros)).signState zeros) = some zeros :=
    IamStore.verifyState_eq_some.2 ⟨by decide, rfl⟩
  exact (states_accepted (coded_oneTagStore _) hunforgeable hturns rfl).1 zeros haccepted

theorem callback_ne_handled (t : Turn) (q : Str → Option Str) :
    (S.callback t q).1 ≠ .handled := by
  intro h
  unfold callback at h
  split at h
  · cases h
  split at h
  · cases h
  split at h
  · split at h
    · cases h
    split at h
    · cases h
    split at h
    · cases h
    split at h
    · cases h
    · cases h
  · cases h

theorem dispatch_ne_handled (t : Turn) (params : Str → Option Str) :
    (S.dispatch t params).1 ≠ .handled := by
  intro h
  unfold dispatch at h
  split at h
  · cases h
  split at h
  swap
  · cases h
  unfold assumeRoleWithWebIdentity at h
  split at h
  · cases h
  split at h
  · cases h
  split at h
  · cases h
  · cases h

/-- What a handler behind `require_auth` answers, it was shown a token for. -/
theorem shown_of_handled {t : Turn} (h : (S.handle t).1 = .handled) :
    ∃ token, t.call = .api (some ("Bearer ".toList ++ token)) ∧
      S.iam.verifyToken token t.now.secs = true ∧ (S.handle t).2 = [.present token] := by
  cases hcall : t.call with
  | api authorization =>
      have hhandle : S.handle t = S.requireAuth t authorization := by rw [handle, hcall]
      rw [hhandle] at h ⊢
      unfold requireAuth at h ⊢
      dsimp only at h ⊢
      cases hbearer : authorization.bind (·.dropPrefix? "Bearer ".toList) with
      | none =>
          rw [hbearer] at h
          cases h
      | some token =>
          rw [hbearer] at h
          dsimp only at h ⊢
          obtain ⟨value, rfl, hvalue⟩ := Option.bind_eq_some_iff.1 hbearer
          obtain ⟨bearer, rfl, hfront⟩ := List.dropPrefix?_eq_some_iff.1 hvalue
          obtain rfl := eq_of_beq hfront
          refine ⟨token, rfl, ?_, rfl⟩
          by_contra haccept
          rw [if_neg haccept] at h
          cases h
  | login accessKey secretKey =>
      have hhandle : S.handle t = S.login t accessKey secretKey := by rw [handle, hcall]
      rw [hhandle, login] at h
      split at h
      · cases h
      · cases h
  | oidcLogin =>
      have hhandle : S.handle t = S.oidcLogin t := by rw [handle, hcall]
      rw [hhandle, oidcLogin] at h
      split at h
      · cases h
      · cases h
  | oidcCallback q =>
      have hhandle : S.handle t = S.callback t q := by rw [handle, hcall]
      rw [hhandle] at h
      exact absurd h (callback_ne_handled t q)
  | sts params =>
      have hhandle : S.handle t = S.dispatch t params := by rw [handle, hcall]
      rw [hhandle] at h
      exact absurd h (dispatch_ne_handled t params)
  | lookup accessKey =>
      have hhandle : S.handle t = (.identity (S.iam.resolveSts t.now.secs accessKey),
          [.present accessKey]) := by rw [handle, hcall]
      rw [hhandle] at h
      cases h

/-- Whoever is let in shows the token of a session that began before. -/
theorem began_of_handled (hcoded : S.iam.Coded) {turns : List Turn}
    (hunforgeable : S.iam.Unforgeable (S.trace turns)) {pre post : List Turn} {t : Turn}
    (hturns : turns = pre ++ t :: post) (hhandled : (S.handle t).1 = .handled) :
    ∃ before b after n authorization, pre = before ++ b :: after ∧ S.Begins b n ∧
      t.call = .api authorization ∧ S.iam.Bears authorization b.now.secs ∧
      t.now.secs < b.now.secs + TOKEN_TTL_SECONDS := by
  obtain ⟨token, hcall, haccept, hevents⟩ := shown_of_handled hhandled
  obtain ⟨text, expiry, hsplit, hparse, hlate, hshown⟩ := IamStore.parts_of_verifyToken haccept
  obtain ⟨hlow, hhigh⟩ := IamStore.parseI64_range hparse
  obtain ⟨b, hb, e, he, p, hm⟩ := hashed_of_shown hunforgeable hturns hevents
    (hcoded.tagged _ _) List.prefix_rfl (.inr hshown)
  obtain ⟨-, now, rfl, rfl⟩ := IamStore.purpose_of_decimal hlow hhigh hm
  obtain ⟨before, after, rfl⟩ := List.append_of_mem hb
  rcases of_event_mem he with ⟨s, hs⟩ | ⟨htoken, n, hbegins⟩ | ⟨hlogin, -⟩ | ⟨policy, ttl, htemp, -⟩
  · cases hs
  · cases htoken
    have hbears : S.iam.Bears (some ("Bearer ".toList ++ token)) b.now.secs :=
      ⟨token, text, rfl, hsplit, hparse⟩
    exact ⟨before, b, after, n, _, rfl, hbegins, hcall, hbears, hlate⟩
  · cases hlogin
  · cases htemp

/-- What a console session rests on.  Over any run in which no tag is made up, whoever is let in
to the console shows the token of a session that began less than twelve hours before, its tag and
its expiry: with the root credentials, or with a code for which the provider handed out an ID
token of an administrator, valid then and for the nonce of the state that came with it.  That
state was made before: its nonce, where it is a login's thirty-two digits, is the one of an
earlier login. -/
theorem sessions_grounded (hcoded : S.iam.Coded) {turns : List Turn}
    (hunforgeable : S.iam.Unforgeable (S.trace turns)) {pre post : List Turn} {t : Turn}
    (hturns : turns = pre ++ t :: post) (hhandled : (S.handle t).1 = .handled) :
    ∃ before b after n authorization, pre = before ++ b :: after ∧ S.Begins b n ∧
      t.call = .api authorization ∧ S.iam.Bears authorization b.now.secs ∧
      t.now.secs < b.now.secs + TOKEN_TTL_SECONDS ∧
      ∀ nonce, n = some nonce → S.Stated before nonce ∧
        ∀ l : LoginNonce, nonce = hexEncode l.bytes →
          ∃ earlier ∈ before, earlier.call = .oidcLogin ∧ earlier.nonce.bytes = l.bytes := by
  obtain ⟨before, b, after, n, authorization, rfl, hbegins, hcall, hbears, hlate⟩ :=
    began_of_handled hcoded hunforgeable hturns hhandled
  refine ⟨before, b, after, n, authorization, rfl, hbegins, hcall, hbears, hlate, ?_⟩
  rintro nonce rfl
  have hstated : S.Stated before nonce := by
    cases hbegins with
    | provider _ _ _ _ hnonce _ _ _ hhandle =>
        have hshown := congrArg Prod.snd hhandle
        rw [List.append_assoc, List.cons_append] at hturns
        exact stated_of_accepted hcoded hunforgeable hturns hshown hnonce
  refine ⟨hstated, ?_⟩
  rintro l rfl
  exact hstated.login_of_hex

/-- Root signs on. -/
def rootLogin : Turn := turnAt early (.login "root".toList "secret".toList)

/-- And is let in. -/
def rootEnters : Turn :=
  turnAt later (.api (some ("Bearer ".toList ++
    (oneTagStore (utf8 (decimal 44200))).issueToken 1000)))

/-- What root shows is the token of the session. -/
theorem sessions_grounded_root :
    ∃ before b after n, [rootLogin] = before ++ b :: after ∧
      (echoServer (utf8 (decimal 44200))).Begins b n ∧
      (oneTagStore (utf8 (decimal 44200))).Bears (some ("Bearer ".toList ++
        (oneTagStore (utf8 (decimal 44200))).issueToken 1000)) b.now.secs ∧
      (2000 : Int) < b.now.secs + TOKEN_TTL_SECONDS := by
  have hhandled : ((echoServer (utf8 (decimal 44200))).handle rootEnters).1 = .handled := by
    decide +kernel
  have htrace : (echoServer (utf8 (decimal 44200))).trace [rootLogin, rootEnters] =
      [.token 1000] ++ [.present ((oneTagStore (utf8 (decimal 44200))).issueToken 1000)] := rfl
  have hquiet : ∀ e ∈ [IamStore.Event.token 1000], ∀ x, e ≠ .present x := by
    intro e he x hx
    rw [List.mem_singleton.1 he] at hx
    cases hx
  have hhashed : (IamStore.Purpose.session, utf8 (decimal 44200)) ∈
      [IamStore.Event.token 1000].flatMap (oneTagStore (utf8 (decimal 44200))).tagged :=
    List.mem_cons_self
  have hunforgeable : (oneTagStore (utf8 (decimal 44200))).Unforgeable
      ((echoServer (utf8 (decimal 44200))).trace [rootLogin, rootEnters]) := by
    rw [htrace]
    exact unforgeable_once hquiet hhashed (by decide +kernel)
  have hturns : [rootLogin, rootEnters] = [rootLogin] ++ rootEnters :: [] := rfl
  obtain ⟨before, b, after, n, authorization, hpre, hbegins, hcall, hbears, hlate, -⟩ :=
    sessions_grounded (coded_oneTagStore _) hunforgeable hturns hhandled
  obtain rfl := Call.api.inj hcall
  exact ⟨before, b, after, n, hpre, hbegins, hbears, hlate⟩

/-! ## Temporary keys -/

theorem resolveSts_of_issues (hcoded : S.iam.Coded) {b : Turn} {policy : Policy} {ttl : Int}
    (hissues : S.Issues b policy ttl) (now : Int) :
    let issued := S.iam.issueTemp b.now.secs b.stsNonce policy ttl
    S.iam.resolveSts now issued.1 = if now < b.now.secs + ttl then
      some ⟨issued.1, issued.2.1, policy.name, true, none⟩ else none := by
  have hearly := b.now.low
  have hlate := b.now.high
  have hlow := hissues.low
  have hhigh := hissues.high
  exact IamStore.resolveSts_issueTemp hcoded policy b.stsNonce (by omega) (by omega) now

/-- A key that stands for a temporary credential was issued before. -/
theorem issued_of_resolveSts (hcoded : S.iam.Coded) {turns : List Turn}
    (hunforgeable : S.iam.Unforgeable (S.trace turns)) {pre post : List Turn} {t : Turn}
    (hturns : turns = pre ++ t :: post) {accessKey : Str} (hcall : t.call = .lookup accessKey)
    {id : Identity} (hid : S.iam.resolveSts t.now.secs accessKey = some id) :
    ∃ b ∈ pre, ∃ policy ttl, S.Issues b policy ttl ∧ t.now.secs < b.now.secs + ttl ∧
      let issued := S.iam.issueTemp b.now.secs b.stsNonce policy ttl
      accessKey = issued.1 ∧ id = ⟨issued.1, issued.2.1, policy.name, true, none⟩ := by
  have hhandle : S.handle t = (.identity (S.iam.resolveSts t.now.secs accessKey),
      [.present accessKey]) := by rw [handle, hcall]
  obtain ⟨payload, policy, rfl, -, hpolicy, -, -⟩ :=
    (IamStore.resolveSts_eq_some_iff hcoded).1 hid
  have hshows : S.iam.Shows (S.iam.stsKey payload) (S.iam.stsTag payload) :=
    .inl ⟨_, _, (List.suffix_append _ _).isInfix, hcoded.decode_encode _,
      (List.suffix_append _ _).isInfix⟩
  obtain ⟨b, hb, e, he, p, hm⟩ := hashed_of_shown hunforgeable hturns
    (congrArg Prod.snd hhandle) (IamStore.length_stsTag hcoded payload).ge
    (List.take_prefix _ _) hshows
  obtain rfl := IamStore.purpose_of_payload hm hpolicy
  rcases of_event_mem he with ⟨s, rfl⟩ | ⟨rfl, -⟩ | ⟨rfl, -⟩ | ⟨policy', ttl, rfl, hissues⟩
  · exact absurd hm List.not_mem_nil
  · exact absurd (Prod.mk.inj (List.mem_singleton.1 hm)).1 (by decide)
  · exact absurd (Prod.mk.inj (List.mem_singleton.1 hm)).1 (by decide)
  · rcases List.mem_cons.1 hm with heq | hm
    · obtain ⟨-, rfl⟩ := Prod.mk.inj heq
      have hissued := (resolveSts_of_issues hcoded hissues t.now.secs).symm.trans hid
      obtain ⟨hlate, hid⟩ := Option.ite_none_right_eq_some.1 hissued
      exact ⟨b, hb, policy', ttl, hissues, hlate, rfl, (Option.some.inj hid).symm⟩
    · exact absurd (Prod.mk.inj (List.mem_singleton.1 hm)).1 (by decide)

/-- A temporary access key is accepted just when it was issued, for an ID token, and has not
expired: with the policy of the groups that the token named and the secret key that was handed
out. -/
theorem temporary_keys_exact (hcoded : S.iam.Coded) {turns : List Turn}
    (hunforgeable : S.iam.Unforgeable (S.trace turns)) {pre post : List Turn} {t : Turn}
    (hturns : turns = pre ++ t :: post) {accessKey : Str} (hcall : t.call = .lookup accessKey)
    (id : Identity) :
    (S.handle t).1 = .identity (some id) ↔ ∃ b ∈ pre, ∃ policy ttl, S.Issues b policy ttl ∧
      t.now.secs < b.now.secs + ttl ∧
      let issued := S.iam.issueTemp b.now.secs b.stsNonce policy ttl
      accessKey = issued.1 ∧ id = ⟨issued.1, issued.2.1, policy.name, true, none⟩ := by
  have hhandle : S.handle t = (.identity (S.iam.resolveSts t.now.secs accessKey),
      [.present accessKey]) := by rw [handle, hcall]
  rw [hhandle]
  constructor
  · intro hid
    have hid : S.iam.resolveSts t.now.secs accessKey = some id := by
      injection hid
    exact issued_of_resolveSts hcoded hunforgeable hturns hcall hid
  · rintro ⟨b, -, policy, ttl, hissues, hlate, rfl, rfl⟩
    rw [resolveSts_of_issues hcoded hissues, if_pos hlate]

/-- The payload of the credential below. -/
def hourPayload : Bytes := stsPayload .admin 4600 IamStore.minuteNonce

/-- A credential for an hour is asked for. -/
def hourAsked : Turn :=
  turnAt early (.sts fun name =>
    if name = "Action".toList then some "AssumeRoleWithWebIdentity".toList
    else if name = "WebIdentityToken".toList then some "anyone".toList else none)

/-- Its access key is looked up. -/
def hourKey : Turn := turnAt later (.lookup ((oneTagStore hourPayload).stsKey hourPayload))

/-- The key is the one that was issued. -/
theorem temporary_keys_exact_hour :
    ∃ b ∈ [hourAsked], ∃ policy ttl, (echoServer hourPayload).Issues b policy ttl ∧
      (2000 : Int) < b.now.secs + ttl := by
  have htrace : (echoServer hourPayload).trace [hourAsked, hourKey] =
      [.temp 1000 IamStore.minuteNonce .admin 3600] ++
        [.present ((oneTagStore hourPayload).stsKey hourPayload)] := rfl
  have hquiet : ∀ e ∈ [IamStore.Event.temp 1000 IamStore.minuteNonce .admin 3600], ∀ x,
      e ≠ .present x := by
    intro e he x hx
    rw [List.mem_singleton.1 he] at hx
    cases hx
  have hhashed : (IamStore.Purpose.accessKey, hourPayload) ∈
      [IamStore.Event.temp 1000 IamStore.minuteNonce .admin 3600].flatMap
        (oneTagStore hourPayload).tagged := List.mem_cons_self
  have hunforgeable : (oneTagStore hourPayload).Unforgeable
      ((echoServer hourPayload).trace [hourAsked, hourKey]) := by
    rw [htrace]
    exact unforgeable_once hquiet hhashed (by decide +kernel)
  have hturns : [hourAsked, hourKey] = [hourAsked] ++ hourKey :: [] := rfl
  have hfound : ((echoServer hourPayload).handle hourKey).1 = .identity (some
      ⟨(oneTagStore hourPayload).stsKey hourPayload,
        (oneTagStore hourPayload).stsSecret ((oneTagStore hourPayload).stsKey hourPayload),
        Policy.admin.name, true, none⟩) := by
    decide +kernel
  obtain ⟨b, hb, policy, ttl, hissues, hlate, -⟩ :=
    (temporary_keys_exact (coded_oneTagStore _) hunforgeable hturns rfl _).1 hfound
  exact ⟨b, hb, policy, ttl, hissues, hlate⟩

/-! ## Signing on -/

/-- A login at the provider goes through.  The browser is sent to the provider with a state and a
nonce; whenever the provider sends it back with that state and a code for which it hands out an ID
token with that nonce, of an administrator, the browser is given a token that lets it in for the
twelve hours that follow, and no longer. -/
theorem sign_on (hP : S.percent.Lawful) {o : Oidc} (hoidc : S.oidc = some o) {l : Turn}
    (hlogin : l.call = .oidcLogin) :
    ∃ query state nonce, (S.handle l).1 = .redirect (o.authorizeEndpoint ++ '?' :: query) ∧
      (let param := parseQuery S.percent (some query)
       param "response_type".toList = some "code".toList ∧
       param "client_id".toList = some o.config.clientId ∧
       param "redirect_uri".toList = some o.config.redirectUrl ∧
       param "state".toList = some state ∧ param "nonce".toList = some nonce) ∧
      ∀ (b : Turn) (q : Str → Option Str) (code idToken : Str) (claims : OidcClaims),
        b.call = .oidcCallback q → q "error".toList = none → q "code".toList = some code →
        q "state".toList = some state → o.exchangeCode b.post code = .ok idToken →
        o.validate S.jwt b.checked.secs idToken (some nonce) = .ok claims →
        o.policyFor claims = .admin →
        ∃ token, (S.handle b).1 = .redirect ("/#token=".toList ++ token) ∧
          ∀ t : Turn, t.call = .api (some ("Bearer ".toList ++ token)) →
            ((S.handle t).1 = .handled ↔ t.now.secs < b.now.secs + TOKEN_TTL_SECONDS) := by
  have hdecode (s : Str) : S.percent.percentDecode
      (S.percent.utf8PercentEncode NON_ALPHANUMERIC s) = s := hP.decode_encode _ s (by decide)
  have hfound := Oidc.found_authorizeParams hP o (S.iam.signState (hexEncode l.nonce.bytes))
    (hexEncode l.nonce.bytes)
  refine ⟨['&'].intercalate ((o.authorizeParams S.percent
      (S.iam.signState (hexEncode l.nonce.bytes)) (hexEncode l.nonce.bytes)).map fun p =>
        p.1 ++ '=' :: p.2), S.iam.signState (hexEncode l.nonce.bytes), hexEncode l.nonce.bytes,
    ?_, ⟨?_, ?_, ?_, ?_, ?_⟩, ?_⟩
  · rw [handle, hlogin]
    dsimp only
    rw [oidcLogin, hoidc]
    dsimp only
    rw [Oidc.authorizeUrl_eq]
  · rw [hfound [] _ _ _ rfl]
    exact congrArg some (hP.decode_plain _ (by decide))
  · rw [hfound [_] _ _ _ rfl, hdecode]
  · rw [hfound [_, _] _ _ _ rfl, hdecode]
  · rw [hfound [_, _, _, _] _ _ _ rfl, hdecode]
  · rw [hfound [_, _, _, _, _] _ _ _ rfl, hdecode]
  · intro b q code idToken claims hcall herror hcode hstate hexchanged hvalidated hadmin
    have hnonce : S.iam.verifyState (S.iam.signState (hexEncode l.nonce.bytes)) =
        some (hexEncode l.nonce.bytes) := by
      refine IamStore.verifyState_eq_some.2 ⟨?_, rfl⟩
      intro hdot
      obtain ⟨v, hv, heq⟩ := mem_hexEncode hdot
      have hnodot : ∀ v < 16, '.' ≠ hexDigit v := by decide
      exact hnodot v hv heq
    refine ⟨S.iam.issueToken b.now.secs, ?_, ?_⟩
    · rw [handle, hcall]
      dsimp only
      unfold callback
      rw [hoidc]
      dsimp only
      rw [herror]
      dsimp only
      rw [hcode, hstate]
      dsimp only
      rw [hnonce]
      dsimp only
      rw [hexchanged]
      dsimp only
      rw [hvalidated]
      dsimp only
      rw [if_neg (Decidable.not_not.2 hadmin)]
    · intro t hcall
      have hbearer : ("Bearer ".toList ++ S.iam.issueToken b.now.secs).dropPrefix?
          "Bearer ".toList = some (S.iam.issueToken b.now.secs) :=
        List.dropPrefix?_eq_some_iff.2 ⟨_, rfl, beq_self_eq_true _⟩
      have hlow := b.now.low
      have hhigh := b.now.high
      have htwelve : TOKEN_TTL_SECONDS = 43200 := rfl
      rw [handle, hcall]
      dsimp only
      rw [requireAuth, Option.bind_some, hbearer]
      dsimp only
      rw [IamStore.verifyToken_issueToken _ (by omega) (by omega)]
      by_cases hlate : t.now.secs < b.now.secs + TOKEN_TTL_SECONDS
      · rw [decide_eq_true hlate, if_pos rfl]
        exact iff_of_true rfl hlate
      · rw [decide_eq_false hlate, if_neg Bool.false_ne_true]
        refine iff_of_false ?_ hlate
        intro h
        cases h

/-- An administrator goes to the provider, comes back and is let in until half a day later. -/
theorem sign_on_echo :
    ∃ state nonce token, ((echoServer []).handle (comesBack state nonce)).1 =
        .redirect ("/#token=".toList ++ token) ∧
      (((echoServer []).handle
          (turnAt later (.api (some ("Bearer ".toList ++ token))))).1 = .handled ↔
        (2000 : Int) < 2000 + TOKEN_TTL_SECONDS) := by
  obtain ⟨query, state, nonce, -, -, hback⟩ :=
    sign_on (S := echoServer []) percentCoding_lawful rfl (l := goesOut) rfl
  have hadmin : oneKey.policyFor ⟨[], [], ["/kerplace-admins".toList]⟩ = .admin := by decide
  have hvalidated : oneKey.validate echoJwt 2000 nonce (some nonce) =
      .ok ⟨[], [], ["/kerplace-admins".toList]⟩ := if_neg (Decidable.not_not.2 rfl)
  obtain ⟨token, hredirect, hlet⟩ := hback (comesBack state nonce) _ nonce nonce _ rfl rfl rfl rfl
    rfl hvalidated hadmin
  exact ⟨state, nonce, token, hredirect, hlet (turnAt later _) rfl⟩

end SignOn

end Kerplace
