/-
# `Kerplace.Auth.Tokens` — what the root secret signs

Four kinds of message are hashed under the root secret: the payload of a temporary access
key, the key itself (for its secret), the expiry of a console session and the nonce of a
console login.  Nothing in the messages names their kind, so what keeps the uses apart is
that no message of one kind is one of another.

The keyed hash is taken as unforgeable: a client shows the tag of a message only when the
server made one of that very message.
-/
import Kerplace.Auth.Temporary
import Kerplace.Auth.Framing
import Kerplace.Erasure.Layout

namespace Kerplace

/-! ## Numbers as text -/

/-- `i64::to_string`. -/
def decimal (i : Int) : Str :=
  if i < 0 then '-' :: Nat.toDigits 10 i.natAbs else Nat.toDigits 10 i.natAbs

/-- The value of a sign and digits, in the range of an `i64`. -/
def signedDigits (negative : Bool) (digits : Str) : Option Int :=
  if digits = [] ∨ digits.any (fun c => !c.isDigit) then none
  else
    let n : Nat := Nat.ofDigitChars 10 digits 0
    (some (if negative then -(n : Int) else n)).filter fun i =>
      decide (-2 ^ 63 ≤ i ∧ i < 2 ^ 63)

/-- `str::parse::<i64>`. -/
def parseI64 (s : Str) : Option Int :=
  match s with
  | '-' :: digits => signedDigits true digits
  | '+' :: digits => signedDigits false digits
  | _ => signedDigits false s

/-- `split_once`. -/
def splitOnceAt (sep : Char) (s : Str) : Option (Str × Str) :=
  if sep ∈ s then some (s.takeWhile (· ≠ sep), (s.dropWhile (· ≠ sep)).drop 1) else none

theorem isDigit_of_mem_digits {n : Nat} {c : Char} (h : c ∈ Nat.toDigits 10 n) : c.isDigit :=
  Nat.isDigit_of_mem_toDigits (by decide) (by decide) h

theorem decimal_injective {i j : Int} (h : decimal i = decimal j) : i = j := by
  have hminus (n : Nat) : ∀ s : Str, '-' :: s ≠ Nat.toDigits 10 n := by
    intro s hs
    have hdigit := isDigit_of_mem_digits (hs ▸ List.mem_cons_self : '-' ∈ Nat.toDigits 10 n)
    exact absurd hdigit (by decide)
  have habs {m n : Nat} (hmn : Nat.toDigits 10 m = Nat.toDigits 10 n) : m = n := by
    have hval : Nat.ofDigitChars 10 (Nat.toDigits 10 m) 0 =
        Nat.ofDigitChars 10 (Nat.toDigits 10 n) 0 := by rw [hmn]
    rwa [Nat.ofDigitChars_ten_toDigits, Nat.ofDigitChars_ten_toDigits] at hval
  unfold decimal at h
  split at h <;> split at h
  · have := habs (List.tail_eq_of_cons_eq h)
    omega
  · exact absurd h (hminus _ _)
  · exact absurd h.symm (hminus _ _)
  · have := habs h
    omega

/-- A number reads back from its text. -/
theorem parseI64_decimal {i : Int} (hlow : -2 ^ 63 ≤ i) (hhigh : i < 2 ^ 63) :
    parseI64 (decimal i) = some i := by
  have hdigits (neg : Bool) (hval : (if neg then -(i.natAbs : Int) else i.natAbs) = i) :
      signedDigits neg (Nat.toDigits 10 i.natAbs) = some i := by
    have hall : ¬ (Nat.toDigits 10 i.natAbs = [] ∨
        (Nat.toDigits 10 i.natAbs).any (fun c => !c.isDigit)) := by
      rintro (hnil | hany)
      · exact Nat.toDigits_ne_nil hnil
      · obtain ⟨c, hc, hno⟩ := List.any_eq_true.1 hany
        rw [isDigit_of_mem_digits hc] at hno
        exact absurd hno (by decide)
    rw [signedDigits, if_neg hall, Nat.ofDigitChars_ten_toDigits]
    dsimp only
    rw [hval]
    exact Option.filter_eq_some_iff.2 ⟨rfl, decide_eq_true ⟨hlow, hhigh⟩⟩
  unfold decimal
  split
  · exact hdigits true (by rw [if_pos rfl]; omega)
  · have hplain : parseI64 (Nat.toDigits 10 i.natAbs) =
        signedDigits false (Nat.toDigits 10 i.natAbs) := by
      unfold parseI64
      split
      · rename_i digits heq
        exact absurd (isDigit_of_mem_digits (heq ▸ List.mem_cons_self :
          '-' ∈ Nat.toDigits 10 i.natAbs)) (by decide)
      · rename_i digits heq
        exact absurd (isDigit_of_mem_digits (heq ▸ List.mem_cons_self :
          '+' ∈ Nat.toDigits 10 i.natAbs)) (by decide)
      · rfl
    rw [hplain]
    exact hdigits false (by rw [if_neg Bool.false_ne_true]; omega)

theorem splitOnceAt_append {sep : Char} {s : Str} (h : sep ∉ s) (rest : Str) :
    splitOnceAt sep (s ++ sep :: rest) = some (s, rest) := by
  have hpass : ∀ c ∈ s, decide (c ≠ sep) = true := fun c hc =>
    decide_eq_true fun heq => h (heq ▸ hc)
  rw [splitOnceAt, if_pos (List.mem_append_right _ List.mem_cons_self),
    List.takeWhile_append_of_pos hpass, List.dropWhile_append_of_pos hpass,
    List.takeWhile_cons_of_neg (by simp), List.dropWhile_cons_of_neg (by simp),
    List.append_nil, List.drop_one, List.tail_cons]

/-! ## Session tokens -/

/-- `TOKEN_TTL_SECONDS`. -/
def TOKEN_TTL_SECONDS : Int := 12 * 3600

/-- The nonce of a login, which `sign_state` hashes in hexadecimal. -/
structure LoginNonce where
  bytes : Bytes
  length_eq : bytes.length = 16

namespace IamStore

variable (S : IamStore)

/-- `sign`. -/
def sign (expiry : Int) : Str := hexEncode (S.hmacSha256 S.rootSecret (utf8 (decimal expiry)))

/-- `issue_token`. -/
def issueToken (now : Int) : Str :=
  let expiry := now + TOKEN_TTL_SECONDS
  decimal expiry ++ '.' :: S.sign expiry

/-- `verify_token`. -/
def verifyToken (token : Str) (now : Int) : Bool :=
  match splitOnceAt '.' token with
  | none => false
  | some (expiryStr, signature) =>
      match parseI64 expiryStr with
      | none => false
      | some expiry => if expiry ≤ now then false else S.sign expiry = signature

/-- A session token is accepted until it expires. -/
theorem verifyToken_issueToken {now : Int} (hlow : -2 ^ 63 ≤ now + TOKEN_TTL_SECONDS)
    (hhigh : now + TOKEN_TTL_SECONDS < 2 ^ 63) (t : Int) :
    S.verifyToken (S.issueToken now) t = decide (t < now + TOKEN_TTL_SECONDS) := by
  have hdot : '.' ∉ decimal (now + TOKEN_TTL_SECONDS) := by
    intro hmem
    unfold decimal at hmem
    split at hmem
    · rcases List.mem_cons.1 hmem with heq | hmem
      · exact absurd heq (by decide)
      · exact absurd (isDigit_of_mem_digits hmem) (by decide)
    · exact absurd (isDigit_of_mem_digits hmem) (by decide)
  have hsplit : splitOnceAt '.' (S.issueToken now) =
      some (decimal (now + TOKEN_TTL_SECONDS), S.sign (now + TOKEN_TTL_SECONDS)) :=
    splitOnceAt_append hdot _
  rw [verifyToken, hsplit]
  dsimp only
  rw [parseI64_decimal hlow hhigh]
  dsimp only
  split
  · rename_i hle
    exact (decide_eq_false (not_lt.2 hle)).symm
  · rename_i hlt
    rw [decide_eq_true (not_le.1 hlt), decide_eq_true rfl]

/-! ## What is issued, and what is presented -/

/-- What a message is hashed for. -/
inductive Purpose where
  | accessKey
  | secretKey
  | session
  | login
  deriving DecidableEq

/-- An issue, or a text a client presents. -/
inductive Event where
  | temp (now : Int) (nonce : StsNonce) (policy : Policy) (ttlSecs : Int)
  | token (now : Int)
  | login (nonce : LoginNonce)
  | present (s : Str)

/-- The messages an event hashes, whose tags it hands out. -/
def tagged : Event → List (Purpose × Bytes)
  | .temp now nonce policy ttlSecs =>
      [(.accessKey, stsPayload policy (now + ttlSecs) nonce),
        (.secretKey, utf8 (S.issueTemp now nonce policy ttlSecs).1)]
  | .token now => [(.session, utf8 (decimal (now + TOKEN_TTL_SECONDS)))]
  | .login nonce => [(.login, utf8 (hexEncode nonce.bytes))]
  | .present _ => []

/-- Some piece of a text shows the bytes, decoded or in hexadecimal. -/
def Shows (s : Str) (t : Bytes) : Prop :=
  (∃ piece b, piece <:+: s ∧ S.decode piece = some b ∧ t <:+: b) ∨ hexEncode t <:+: s

/-- The keyed hash as an unforgeable tag: whoever presents a text that shows the tag of a
message, or sixteen bytes of it, presents it after the server hashed that message. -/
def Unforgeable (trace : List Event) : Prop :=
  ∀ pre s post, trace = pre ++ .present s :: post → ∀ m t, stsTagLen ≤ t.length →
    t <+: S.hmacSha256 S.rootSecret m → S.Shows s t → ∃ p, (p, m) ∈ pre.flatMap S.tagged

variable {S}

/-! ## Messages of different kinds -/

theorem utf8_injective {s s' : Str} (h : utf8 s = utf8 s') : s = s' :=
  Option.some.inj ((fromUtf8_encoded s).symm.trans
    ((congrArg fromUtf8 h).trans (fromUtf8_encoded s')))

theorem policyFromId_utf8 {c : Char} (s : Str) (hlow : 4 < c.toNat) (hhigh : c.toNat ≤ 127) :
    policyFromId ((utf8 (c :: s)).headD 0) = none := by
  have hchar : String.utf8EncodeChar c = [UInt8.ofNat c.toNat] := by
    unfold String.utf8EncodeChar
    dsimp only
    exact if_pos hhigh
  have hhead : (utf8 (c :: s)).headD 0 = UInt8.ofNat c.toNat := by
    rw [utf8, List.flatMap_cons, hchar]
    rfl
  refine Option.eq_none_iff_forall_not_mem.2 fun policy hpolicy => ?_
  rw [hhead] at hpolicy
  have hval := congrArg UInt8.toNat (policyFromId_some hpolicy)
  rw [UInt8.toNat_ofNat', Nat.mod_eq_of_lt (by omega)] at hval
  have hid : (policyToId policy).toNat ≤ 4 := by cases policy <;> decide
  omega

theorem toNat_of_isDigit {c : Char} (h : c.isDigit) : 4 < c.toNat ∧ c.toNat ≤ 127 := by
  have hrange : 48 ≤ c.toNat ∧ c.toNat ≤ 57 := by
    simpa [Char.isDigit, UInt32.le_iff_toNat_le] using h
  omega

theorem mem_decimal {i : Int} {c : Char} (h : c ∈ decimal i) : c = '-' ∨ c.isDigit := by
  unfold decimal at h
  split at h
  · exact (List.mem_cons.1 h).imp id isDigit_of_mem_digits
  · exact .inr (isDigit_of_mem_digits h)

theorem decimal_ne_nil (i : Int) : decimal i ≠ [] := by
  unfold decimal
  split
  · exact List.cons_ne_nil _ _
  · exact Nat.toDigits_ne_nil

theorem length_decimal_le {i : Int} (hlow : -2 ^ 63 ≤ i) (hhigh : i < 2 ^ 63) :
    (decimal i).length ≤ 20 := by
  have hdigits : (Nat.toDigits 10 i.natAbs).length ≤ 19 :=
    (Nat.length_toDigits_le_iff (by decide) (by decide)).2 (by omega)
  unfold decimal
  split
  · exact Nat.succ_le_succ hdigits
  · exact Nat.le_succ_of_le hdigits

theorem length_hexEncode (b : Bytes) : (hexEncode b).length = 2 * b.length := by
  induction b with
  | nil => rfl
  | cons x b ih =>
    have hcons : (hexEncode (x :: b)).length = (hexEncode b).length + 2 := rfl
    rw [hcons, ih, List.length_cons, Nat.mul_succ]

theorem parseI64_range {s : Str} {i : Int} (h : parseI64 s = some i) :
    -2 ^ 63 ≤ i ∧ i < 2 ^ 63 := by
  have hdigits (neg : Bool) (digits : Str) (h : signedDigits neg digits = some i) :
      -2 ^ 63 ≤ i ∧ i < 2 ^ 63 := by
    unfold signedDigits at h
    split at h
    · cases h
    · exact of_decide_eq_true (Option.filter_eq_some_iff.1 h).2
  unfold parseI64 at h
  split at h
  · exact hdigits _ _ h
  · exact hdigits _ _ h
  · exact hdigits _ _ h

/-- What begins like a payload was hashed for an access key. -/
theorem purpose_of_payload {e : Event} {p : Purpose} {m : Bytes} {policy : Policy}
    (hm : (p, m) ∈ S.tagged e) (hpolicy : policyFromId (m.headD 0) = some policy) :
    p = .accessKey := by
  have hnot {c : Char} {s : Str} (hc : 4 < c.toNat ∧ c.toNat ≤ 127) (heq : m = utf8 (c :: s)) :
      False := by
    rw [heq, policyFromId_utf8 s hc.1 hc.2] at hpolicy
    cases hpolicy
  cases e with
  | temp now nonce policy ttlSecs =>
    rcases List.mem_cons.1 hm with heq | hm
    · exact (Prod.mk.inj heq).1
    · obtain ⟨rfl, heq⟩ := Prod.mk.inj (List.mem_singleton.1 hm)
      exact (hnot (c := 'K') (by decide) heq).elim
  | token now =>
    obtain ⟨rfl, heq⟩ := Prod.mk.inj (List.mem_singleton.1 hm)
    obtain ⟨c, s, hcs⟩ := List.exists_cons_of_ne_nil (decimal_ne_nil (now + TOKEN_TTL_SECONDS))
    have hc : c = '-' ∨ c.isDigit := mem_decimal (hcs ▸ List.mem_cons_self)
    rw [hcs] at heq
    refine (hnot ?_ heq).elim
    rcases hc with rfl | hc
    · decide
    · exact toNat_of_isDigit hc
  | login nonce =>
    obtain ⟨rfl, heq⟩ := Prod.mk.inj (List.mem_singleton.1 hm)
    have hdigit : ∀ v < 16, 4 < (hexDigit v).toNat ∧ (hexDigit v).toNat ≤ 127 := by decide
    cases hb : nonce.bytes with
    | nil => exact absurd nonce.length_eq (by rw [hb]; decide)
    | cons x b =>
      rw [hb, hexEncode, List.flatMap_cons] at heq
      have hx := x.toNat_lt
      exact (hnot (hdigit _ (by omega)) heq).elim
  | present s => exact absurd hm List.not_mem_nil

/-- The text of a number was hashed for a session. -/
theorem purpose_of_decimal {e : Event} {p : Purpose} {i : Int} (hlow : -2 ^ 63 ≤ i)
    (hhigh : i < 2 ^ 63) (hm : (p, utf8 (decimal i)) ∈ S.tagged e) :
    p = .session ∧ ∃ now, e = .token now ∧ i = now + TOKEN_TTL_SECONDS := by
  cases e with
  | temp now nonce policy ttlSecs =>
    rcases List.mem_cons.1 hm with heq | hm
    · obtain ⟨c, s, hcs⟩ := List.exists_cons_of_ne_nil (decimal_ne_nil i)
      have hc : 4 < c.toNat ∧ c.toNat ≤ 127 := by
        rcases mem_decimal (hcs ▸ List.mem_cons_self : c ∈ decimal i) with rfl | hc
        · decide
        · exact toNat_of_isDigit hc
      have hnone := policyFromId_utf8 s hc.1 hc.2
      rw [← hcs, (Prod.mk.inj heq).2] at hnone
      exact absurd (hnone.symm.trans (policyFromId_toId policy)) (Option.some_ne_none _).symm
    · obtain ⟨rfl, heq⟩ := Prod.mk.inj (List.mem_singleton.1 hm)
      have hkey : 'K' ∈ decimal i := utf8_injective heq ▸ List.mem_cons_self
      exact absurd (mem_decimal hkey) (by decide)
  | token now =>
    obtain ⟨rfl, heq⟩ := Prod.mk.inj (List.mem_singleton.1 hm)
    exact ⟨rfl, now, rfl, decimal_injective (utf8_injective heq)⟩
  | login nonce =>
    obtain ⟨rfl, heq⟩ := Prod.mk.inj (List.mem_singleton.1 hm)
    have hlen := length_decimal_le hlow hhigh
    rw [utf8_injective heq, length_hexEncode, nonce.length_eq] at hlen
    omega
  | present s => exact absurd hm List.not_mem_nil

/-! ## What is accepted -/

/-- The uses of the root secret are kept apart: whatever a client presents, an access key
that is accepted is one that was issued before, with its policy and secret, and a session
token that is accepted is a session's that was begun before; and neither carries the tag of
a message hashed for any other purpose. -/
theorem root_secret_uses_separated (h : S.Coded) {trace : List Event}
    (hunforgeable : S.Unforgeable trace) {pre post : List Event} {s : Str}
    (htrace : trace = pre ++ .present s :: post) (t : Int) :
    (∀ id, S.resolveSts t s = some id →
      (∃ now nonce policy ttlSecs, .temp now nonce policy ttlSecs ∈ pre ∧
        s = (S.issueTemp now nonce policy ttlSecs).1 ∧
        S.carried s = some (stsPayload policy (now + ttlSecs) nonce ++
          S.stsTag (stsPayload policy (now + ttlSecs) nonce)) ∧
        id = ⟨s, (S.issueTemp now nonce policy ttlSecs).2.1, policy.name, true, none⟩) ∧
      ∀ p m, (p, m) ∈ pre.flatMap S.tagged → S.carried s = some (m ++ S.stsTag m) →
        p = .accessKey) ∧
    (S.verifyToken s t = true →
      ∃ now text, .token now ∈ pre ∧
        splitOnceAt '.' s = some (text, S.sign (now + TOKEN_TTL_SECONDS)) ∧
        parseI64 text = some (now + TOKEN_TTL_SECONDS) ∧ t < now + TOKEN_TTL_SECONDS ∧
        ∀ p, (p, utf8 (decimal (now + TOKEN_TTL_SECONDS))) ∈ pre.flatMap S.tagged →
          p = .session) := by
  constructor
  · intro id hid
    obtain ⟨payload, policy, rfl, hlen, hpolicy, -, rfl⟩ := (resolveSts_eq_some_iff h).1 hid
    have hcarried := carried_stsKey h payload
    -- the text behind the prefix shows the tag of the payload
    have hshows : S.Shows (S.stsKey payload) (S.stsTag payload) :=
      .inl ⟨_, _, (List.suffix_append _ _).isInfix, h.decode_encode _,
        (List.suffix_append _ _).isInfix⟩
    obtain ⟨p, hp⟩ := hunforgeable pre _ post htrace payload (S.stsTag payload)
      (length_stsTag h payload).ge (List.take_prefix _ _) hshows
    obtain ⟨e, he, hm⟩ := List.mem_flatMap.1 hp
    constructor
    · obtain rfl := purpose_of_payload hm hpolicy
      cases e with
      | temp now nonce policy' ttlSecs =>
        rcases List.mem_cons.1 hm with heq | hm
        · obtain ⟨-, rfl⟩ := Prod.mk.inj heq
          obtain rfl : policy' = policy :=
            Option.some.inj ((policyFromId_toId policy').symm.trans hpolicy)
          exact ⟨now, nonce, policy', ttlSecs, he, rfl, hcarried, rfl⟩
        · exact absurd (Prod.mk.inj (List.mem_singleton.1 hm)).1 (by decide)
      | token now => exact absurd (Prod.mk.inj (List.mem_singleton.1 hm)).1 (by decide)
      | login nonce => exact absurd (Prod.mk.inj (List.mem_singleton.1 hm)).1 (by decide)
      | present s => exact absurd hm List.not_mem_nil
    · intro p' m hm' hcarried'
      obtain ⟨e', -, hm'⟩ := List.mem_flatMap.1 hm'
      have hsame := List.append_inj' (Option.some.inj (hcarried'.symm.trans hcarried))
        ((length_stsTag h m).trans (length_stsTag h payload).symm)
      exact purpose_of_payload (hsame.1 ▸ hm') hpolicy
  · intro haccept
    unfold verifyToken at haccept
    split at haccept
    · cases haccept
    rename_i text signature hsplit
    split at haccept
    · cases haccept
    rename_i expiry hparse
    split at haccept
    · cases haccept
    rename_i hexp
    obtain rfl := of_decide_eq_true haccept
    obtain ⟨hlow, hhigh⟩ := parseI64_range hparse
    have hpieces : S.sign expiry <:+: s := by
      obtain ⟨-, hparts⟩ := Option.ite_none_right_eq_some.1 hsplit
      rw [← (Prod.mk.inj (Option.some.inj hparts)).2]
      exact ((List.drop_suffix _ _).trans (List.dropWhile_suffix _)).isInfix
    obtain ⟨p, hp⟩ := hunforgeable pre s post htrace (utf8 (decimal expiry))
      (S.hmacSha256 S.rootSecret (utf8 (decimal expiry))) (h.tagged _ _) List.prefix_rfl
      (.inr hpieces)
    obtain ⟨e, he, hm⟩ := List.mem_flatMap.1 hp
    obtain ⟨-, now, rfl, rfl⟩ := purpose_of_decimal hlow hhigh hm
    refine ⟨now, text, he, hsplit, hparse, not_le.1 hexp, fun p' hp' => ?_⟩
    obtain ⟨e', -, hm'⟩ := List.mem_flatMap.1 hp'
    exact (purpose_of_decimal hlow hhigh hm').1

/-- The nonce of the credential below. -/
def minuteNonce : StsNonce := ⟨[1, 2, 3, 4, 5, 6, 7, 8], rfl⟩

/-- Tags of three messages told apart: a payload, an expiry, and any other. -/
def threeTags (_secret : Str) (m : Bytes) : Bytes :=
  if m = stsPayload .readOnly 1060 minuteNonce then List.replicate stsTagLen 7
  else if m = utf8 (decimal 44200) then List.replicate stsTagLen 8
  else List.replicate stsTagLen 9

theorem length_threeTags (secret : Str) (m : Bytes) :
    stsTagLen ≤ (threeTags secret m).length := by
  unfold threeTags
  split
  · exact List.length_replicate.ge
  · split
    · exact List.length_replicate.ge
    · exact List.length_replicate.ge

/-- A credential and a session are issued, and the session's token comes back. -/
theorem root_secret_uses_separated_session :
    ∃ now text, Event.token now ∈ [.temp 1000 minuteNonce .readOnly 60, .token 1000] ∧
      splitOnceAt '.' ((latinStore threeTags "root".toList).issueToken 1000) =
        some (text, (latinStore threeTags "root".toList).sign (now + TOKEN_TTL_SECONDS)) ∧
      parseI64 text = some (now + TOKEN_TTL_SECONDS) := by
  have hunforgeable : (latinStore threeTags "root".toList).Unforgeable
      [.temp 1000 minuteNonce .readOnly 60, .token 1000,
        .present ((latinStore threeTags "root".toList).issueToken 1000)] := by
    intro pre s post htrace m t hlen htag hshows
    obtain ⟨rfl, rfl⟩ : s = (latinStore threeTags "root".toList).issueToken 1000 ∧
        pre = [.temp 1000 minuteNonce .readOnly 60, .token 1000] := by
      rcases pre with _ | ⟨e, _ | ⟨e', _ | ⟨e'', pre⟩⟩⟩ <;> simp_all
    by_cases hpayload : m = stsPayload .readOnly 1060 minuteNonce
    · exact ⟨.accessKey, by rw [hpayload]; exact List.mem_cons_self⟩
    by_cases hexpiry : m = utf8 (decimal 44200)
    · exact ⟨.session, by rw [hexpiry]; exact List.mem_append_right _ List.mem_cons_self⟩
    -- the tag of any other message is nines, and the token has none
    have hother : (latinStore threeTags "root".toList).hmacSha256 "secret".toList m =
        List.replicate stsTagLen 9 := (if_neg hpayload).trans (if_neg hexpiry)
    have hnines : t = List.replicate stsTagLen 9 := by
      have hpre : t <+: List.replicate stsTagLen 9 := hother ▸ htag
      exact hpre.eq_of_length_le (List.length_replicate.trans_le hlen)
    subst hnines
    rcases hshows with ⟨piece, b, hpiece, hb, hin⟩ | hin
    · obtain ⟨hlatin, heq⟩ := Option.ite_none_right_eq_some.1 hb
      rw [Option.some.inj heq] at hlatin
      have hnine : Char.ofNat 9 ∈ piece := hlatin ▸ List.mem_map.2
        ⟨9, hin.subset (List.mem_replicate.2 ⟨by decide, rfl⟩), rfl⟩
      exact absurd (hpiece.subset hnine) (by decide +kernel)
    · exact absurd (hin.subset (by decide : '9' ∈ hexEncode (List.replicate stsTagLen 9)))
        (by decide +kernel)
  have htrace : [.temp 1000 minuteNonce .readOnly 60, .token 1000,
      .present ((latinStore threeTags "root".toList).issueToken 1000)] =
      [.temp 1000 minuteNonce .readOnly 60, .token 1000] ++
        Event.present ((latinStore threeTags "root".toList).issueToken 1000) :: [] := rfl
  have haccept : (latinStore threeTags "root".toList).verifyToken
      ((latinStore threeTags "root".toList).issueToken 1000) 2000 = true := by
    rw [verifyToken_issueToken _ (by decide) (by decide)]
    decide
  obtain ⟨now, text, hmem, hsplit, hparse, -⟩ :=
    (root_secret_uses_separated (coded_latinStore length_threeTags _) hunforgeable
      htrace 2000).2 haccept
  exact ⟨now, text, hmem, hsplit, hparse⟩

end IamStore

end Kerplace
