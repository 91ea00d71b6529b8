/-
# `Kerplace.Auth.Temporary` — temporary credentials

A temporary access key is its own record: a payload of policy, expiry and nonce, and a tag of
it, as text behind a prefix.  Whoever has the root secret can take it apart again, and the
secret key is the keyed hash of the access key itself.

The keyed hash is an arbitrary function here; of the text encoding it is relied on that a
text decodes to what was encoded, and that no two texts decode to the same bytes.
-/
import Kerplace.Auth.Users

namespace Kerplace

/-! ## Issuing -/

/-- `policy_to_id`. -/
def policyToId : Policy → UInt8
  | .admin => 1
  | .readWrite => 2
  | .readOnly => 3
  | .writeOnly => 4

/-- The eight bytes of a number below `2^64`, the highest first. -/
def u64ToBeBytes (n : Nat) : Bytes :=
  [n / 2 ^ 56, n / 2 ^ 48, n / 2 ^ 40, n / 2 ^ 32, n / 2 ^ 24, n / 2 ^ 16, n / 2 ^ 8, n].map
    UInt8.ofNat

/-- `i64::to_be_bytes`. -/
def i64ToBeBytes (i : Int) : Bytes := u64ToBeBytes (BitVec.ofInt 64 i).toNat

/-- The nonce of a temporary credential. -/
structure StsNonce where
  bytes : Bytes
  length_eq : bytes.length = 8

/-- The payload of a temporary credential. -/
def stsPayload (policy : Policy) (expiry : Int) (nonce : StsNonce) : Bytes :=
  policyToId policy :: i64ToBeBytes expiry ++ nonce.bytes

namespace IamStore

variable (S : IamStore)

/-- The tag of a payload. -/
def stsTag (payload : Bytes) : Bytes := (S.hmacSha256 S.rootSecret payload).take stsTagLen

/-- The access key of a payload. -/
def stsKey (payload : Bytes) : Str := stsPrefix ++ S.encode (payload ++ S.stsTag payload)

/-- The secret key of an access key. -/
def stsSecret (accessKey : Str) : Str :=
  S.encode (S.hmacSha256 S.rootSecret (accessKey.flatMap String.utf8EncodeChar))

/-- What the text behind the prefix of a key decodes to. -/
def carried (accessKey : Str) : Option Bytes := (accessKey.dropPrefix? stsPrefix).bind S.decode

/-- `issue_temp`: the access key, the secret key and the expiry. -/
def issueTemp (now : Int) (nonce : StsNonce) (policy : Policy) (ttlSecs : Int) :
    Str × Str × Int :=
  let expiry := now + ttlSecs
  let accessKey := S.stsKey (stsPayload policy expiry nonce)
  (accessKey, S.stsSecret accessKey, expiry)

/-- What the library functions are relied on for. -/
structure Coded : Prop where
  decode_encode : ∀ b, S.decode (S.encode b) = some b
  decode_inj : ∀ s s' b, S.decode s = some b → S.decode s' = some b → s = s'
  tagged : ∀ secret m, stsTagLen ≤ (S.hmacSha256 secret m).length

/-- Two stores with the same root secret. -/
structure SameSecret (S S' : IamStore) : Prop where
  secret : S'.rootSecret = S.rootSecret
  hmac : S'.hmacSha256 = S.hmacSha256
  encode : S'.encode = S.encode
  decode : S'.decode = S.decode

end IamStore

/-! ## Taking a key apart -/

theorem policyFromId_toId (p : Policy) : policyFromId (policyToId p) = some p := by
  cases p <;> rfl

theorem policyFromId_some {id : UInt8} {p : Policy} (h : policyFromId id = some p) :
    id = policyToId p := by
  unfold policyFromId at h
  split at h
  · rename_i hid
    cases h
    exact hid
  split at h
  · rename_i hid
    cases h
    exact hid
  split at h
  · rename_i hid
    cases h
    exact hid
  split at h
  · rename_i hid
    cases h
    exact hid
  · cases h

theorem i64FromBeBytes_toBeBytes {i : Int} (hlow : -2 ^ 63 ≤ i) (hhigh : i < 2 ^ 63) :
    i64FromBeBytes (i64ToBeBytes i) = i := by
  have hlt := (BitVec.ofInt 64 i).isLt
  have hfold : (i64ToBeBytes i).foldl (fun n x => 256 * n + x.toNat) 0 =
      (BitVec.ofInt 64 i).toNat := by
    simp only [i64ToBeBytes, u64ToBeBytes, List.map_cons, List.map_nil, List.foldl_cons,
      List.foldl_nil, UInt8.toNat_ofNat']
    omega
  rw [i64FromBeBytes, hfold, BitVec.ofNat_toNat, BitVec.setWidth_eq, BitVec.toInt_ofInt,
    Int.bmod_eq_of_le]
  · exact hlow
  · exact hhigh

theorem length_stsPayload (policy : Policy) (expiry : Int) (nonce : StsNonce) :
    (stsPayload policy expiry nonce).length = stsPayloadLen := by
  rw [stsPayload, List.cons_append, List.length_cons, List.length_append, nonce.length_eq]
  rfl

namespace IamStore

variable {S S' : IamStore}

theorem length_stsTag (h : S.Coded) (payload : Bytes) :
    (S.stsTag payload).length = stsTagLen := by
  rw [stsTag, List.length_take, Nat.min_eq_left (h.tagged _ _)]

/-- A key is accepted just when it is the key of a payload of a policy that has not
expired. -/
theorem resolveSts_eq_some_iff (h : S.Coded) {now : Int} {k : Str} {id : Identity} :
    S.resolveSts now k = some id ↔ ∃ payload policy, k = S.stsKey payload ∧
      payload.length = stsPayloadLen ∧ policyFromId (payload.headD 0) = some policy ∧
      now < i64FromBeBytes ((payload.drop 1).take 8) ∧
      id = ⟨k, S.stsSecret k, policy.name, true, none⟩ := by
  constructor
  · intro hid
    obtain ⟨b64, hb64, hid⟩ := Option.bind_eq_some_iff.1 hid
    obtain ⟨blob, hblob, hid⟩ := Option.bind_eq_some_iff.1 hid
    obtain ⟨p, rfl, hp⟩ := List.dropPrefix?_eq_some_iff.1 hb64
    obtain rfl := eq_of_beq hp
    split at hid
    · cases hid
    rename_i hlen
    rw [Decidable.not_not] at hlen
    dsimp only at hid
    split at hid
    · cases hid
    rename_i htag
    rw [Decidable.not_not] at htag
    obtain ⟨policy, hpolicy, hid⟩ := Option.bind_eq_some_iff.1 hid
    split at hid
    · cases hid
    rename_i hexp
    cases hid
    refine ⟨blob.take stsPayloadLen, policy, ?_, ?_, hpolicy, by omega, rfl⟩
    · have hparts : blob.take stsPayloadLen ++ S.stsTag (blob.take stsPayloadLen) = blob := by
        rw [stsTag, htag, List.take_append_drop]
      rw [stsKey, hparts, h.decode_inj _ _ _ hblob (h.decode_encode blob)]
    · rw [List.length_take, hlen]
      exact Nat.min_eq_left (Nat.le_add_right _ _)
  · rintro ⟨payload, policy, rfl, hlen, hpolicy, hexp, rfl⟩
    have hdrop : (S.stsKey payload).dropPrefix? stsPrefix =
        some (S.encode (payload ++ S.stsTag payload)) :=
      List.dropPrefix?_eq_some_iff.2 ⟨stsPrefix, rfl, beq_self_eq_true _⟩
    have hblob : (payload ++ S.stsTag payload).length = stsPayloadLen + stsTagLen := by
      rw [List.length_append, hlen, length_stsTag h]
    have htake : (payload ++ S.stsTag payload).take stsPayloadLen = payload :=
      List.take_left' hlen
    have htag : (payload ++ S.stsTag payload).drop stsPayloadLen = S.stsTag payload :=
      List.drop_left' hlen
    have hverified : (S.hmacSha256 S.rootSecret payload).take stsTagLen = S.stsTag payload :=
      rfl
    rw [resolveSts, hdrop]
    simp only [Option.bind_eq_bind, Option.bind_some, h.decode_encode, hblob, ne_eq,
      not_true_eq_false, if_false, htake, htag, hverified, hpolicy, if_neg (not_le.2 hexp)]
    rfl

theorem carried_stsKey (h : S.Coded) (payload : Bytes) :
    S.carried (S.stsKey payload) = some (payload ++ S.stsTag payload) := by
  have hdrop : (S.stsKey payload).dropPrefix? stsPrefix =
      some (S.encode (payload ++ S.stsTag payload)) :=
    List.dropPrefix?_eq_some_iff.2 ⟨stsPrefix, rfl, beq_self_eq_true _⟩
  rw [carried, hdrop, Option.bind_some, h.decode_encode]

theorem stsKey_injective (h : S.Coded) {payload payload' : Bytes}
    (hlen : payload.length = stsPayloadLen) (hlen' : payload'.length = stsPayloadLen)
    (heq : S.stsKey payload = S.stsKey payload') : payload = payload' := by
  have hblob := Option.some.inj ((carried_stsKey h payload).symm.trans
    ((congrArg S.carried heq).trans (carried_stsKey h payload')))
  exact (List.append_inj hblob (hlen.trans hlen'.symm)).1

theorem carried_injective (h : S.Coded) {k k' : Str} {blob : Bytes}
    (hk : S.carried k = some blob) (hk' : S.carried k' = some blob) : k = k' := by
  obtain ⟨b64, hb64, hblob⟩ := Option.bind_eq_some_iff.1 hk
  obtain ⟨b64', hb64', hblob'⟩ := Option.bind_eq_some_iff.1 hk'
  obtain ⟨p, rfl, hp⟩ := List.dropPrefix?_eq_some_iff.1 hb64
  obtain ⟨p', rfl, hp'⟩ := List.dropPrefix?_eq_some_iff.1 hb64'
  rw [eq_of_beq hp, eq_of_beq hp', h.decode_inj _ _ _ hblob hblob']

theorem Coded.of_same (h : S.Coded) (same : SameSecret S S') : S'.Coded where
  decode_encode b := by
    rw [same.decode, same.encode]
    exact h.decode_encode b
  decode_inj s s' b := by
    rw [same.decode]
    exact h.decode_inj s s' b
  tagged secret m := by
    rw [same.hmac]
    exact h.tagged secret m

theorem SameSecret.stsTag_eq (same : SameSecret S S') (payload : Bytes) :
    S'.stsTag payload = S.stsTag payload := by
  rw [stsTag, stsTag, same.hmac, same.secret]

theorem SameSecret.stsKey_eq (same : SameSecret S S') (payload : Bytes) :
    S'.stsKey payload = S.stsKey payload := by
  rw [stsKey, stsKey, same.stsTag_eq, same.encode]

theorem SameSecret.stsSecret_eq (same : SameSecret S S') (accessKey : Str) :
    S'.stsSecret accessKey = S.stsSecret accessKey := by
  rw [stsSecret, stsSecret, same.encode, same.hmac, same.secret]

theorem resolve_sts_key (hroot : ¬ stsPrefix <+: S.rootKey) (now : Int) (users : Users)
    {k : Str} (hk : stsPrefix <+: k) : S.resolve now users k = S.resolveSts now k := by
  have hne : k ≠ S.rootKey := fun heq => hroot (heq ▸ hk)
  rw [resolve, if_neg hne, if_pos (List.isPrefixOf_iff_prefix.2 hk)]

/-- An issued key is accepted until it expires. -/
theorem resolveSts_issueTemp (h : S.Coded) (policy : Policy) (nonce : StsNonce)
    {issued ttlSecs : Int} (hlow : -2 ^ 63 ≤ issued + ttlSecs)
    (hhigh : issued + ttlSecs < 2 ^ 63) (now : Int) :
    S.resolveSts now (S.issueTemp issued nonce policy ttlSecs).1 =
      if now < issued + ttlSecs then
        some ⟨(S.issueTemp issued nonce policy ttlSecs).1,
          (S.issueTemp issued nonce policy ttlSecs).2.1, policy.name, true, none⟩
      else none := by
  have hexpiry : i64FromBeBytes (((stsPayload policy (issued + ttlSecs) nonce).drop 1).take 8)
      = issued + ttlSecs := by
    have hparts : ((stsPayload policy (issued + ttlSecs) nonce).drop 1).take 8 =
        i64ToBeBytes (issued + ttlSecs) := List.take_left' rfl
    rw [hparts, i64FromBeBytes_toBeBytes hlow hhigh]
  split
  · rename_i hnow
    refine (resolveSts_eq_some_iff h).2 ⟨_, policy, rfl, length_stsPayload _ _ _,
      policyFromId_toId policy, ?_, rfl⟩
    rw [hexpiry]
    exact hnow
  · rename_i hnow
    refine Option.eq_none_iff_forall_not_mem.2 fun id hid => hnow ?_
    obtain ⟨payload, policy', hkey, hlen, -, hexp, -⟩ := (resolveSts_eq_some_iff h).1 hid
    obtain rfl := stsKey_injective h (length_stsPayload _ _ _) hlen hkey
    rw [hexpiry] at hexp
    exact hexp

/-- Temporary credentials are sound and complete: whoever has the root secret accepts an
issued key with its policy and its secret just until it expires, and any key accepted in
the temporary branch carries a payload and its tag, which no other key carries. -/
theorem temporary_credentials_exact (h : S.Coded) (same : SameSecret S S')
    (hroot : ¬ stsPrefix <+: S'.rootKey) (users : Users) :
    (∀ (policy : Policy) (nonce : StsNonce) (issued ttlSecs now : Int),
      -2 ^ 63 ≤ issued + ttlSecs → issued + ttlSecs < 2 ^ 63 →
      let (accessKey, secretKey, expiry) := S.issueTemp issued nonce policy ttlSecs
      S'.resolve now users accessKey =
        if now < expiry then some ⟨accessKey, secretKey, policy.name, true, none⟩
        else none) ∧
    ∀ (now : Int) (k : Str) (id : Identity), stsPrefix <+: k →
      S'.resolve now users k = some id →
      ∃ payload policy, payload.length = stsPayloadLen ∧
        policyFromId (payload.headD 0) = some policy ∧
        now < i64FromBeBytes ((payload.drop 1).take 8) ∧
        S'.carried k = some (payload ++ S.stsTag payload) ∧ k = S.stsKey payload ∧
        id = ⟨k, S.stsSecret k, policy.name, true, none⟩ ∧
        ∀ k', S'.carried k' = some (payload ++ S.stsTag payload) → k' = k := by
  have h' := h.of_same same
  constructor
  · intro policy nonce issued ttlSecs now hlow hhigh
    have hissue : S.issueTemp issued nonce policy ttlSecs =
        S'.issueTemp issued nonce policy ttlSecs := by
      simp only [issueTemp, same.stsKey_eq, same.stsSecret_eq]
    rw [hissue]
    exact (resolve_sts_key hroot now users (List.prefix_append _ _)).trans
      (resolveSts_issueTemp h' policy nonce hlow hhigh now)
  · intro now k id hk hid
    rw [resolve_sts_key hroot now users hk] at hid
    obtain ⟨payload, policy, rfl, hlen, hpolicy, hexp, rfl⟩ :=
      (resolveSts_eq_some_iff h').1 hid
    have hcarried := carried_stsKey h' payload
    rw [same.stsTag_eq] at hcarried
    refine ⟨payload, policy, hlen, hpolicy, hexp, hcarried, same.stsKey_eq payload, ?_,
      fun k' hk' => carried_injective h' hk' hcarried⟩
    rw [same.stsSecret_eq]

/-- A text of one character a byte. -/
def latin (b : Bytes) : Str := b.map fun x => Char.ofNat x.toNat

/-- The bytes of such a text. -/
def ofLatin (s : Str) : Option Bytes :=
  if latin (s.map fun c => UInt8.ofNat c.toNat) = s then
    some (s.map fun c => UInt8.ofNat c.toNat)
  else none

/-- A store with such a text encoding. -/
def latinStore (hmacSha256 : Str → Bytes → Bytes) (rootKey : Str) : IamStore :=
  ⟨rootKey, "secret".toList, hmacSha256, latin, ofLatin⟩

theorem coded_latinStore {hmacSha256 : Str → Bytes → Bytes}
    (htag : ∀ secret m, stsTagLen ≤ (hmacSha256 secret m).length) (rootKey : Str) :
    (latinStore hmacSha256 rootKey).Coded where
  decode_encode b := by
    have hbyte : ∀ x : UInt8, UInt8.ofNat (Char.ofNat x.toNat).toNat = x := by
      intro x
      have hvalid : x.toNat.isValidChar := Or.inl (lt_trans x.toNat_lt (by norm_num))
      have htoNat : (Char.ofNat x.toNat).toNat = x.toNat := by
        rw [Char.ofNat, dif_pos hvalid]
        rfl
      rw [htoNat, UInt8.ofNat_toNat]
    have hbytes : ((latin b).map fun c => UInt8.ofNat c.toNat) = b := by
      rw [latin, List.map_map]
      exact (List.map_congr_left fun x _ => hbyte x).trans (List.map_id b)
    show ofLatin (latin b) = some b
    rw [ofLatin, hbytes, if_pos rfl]
  decode_inj s s' b hs hs' := by
    obtain ⟨hs, heq⟩ := Option.ite_none_right_eq_some.1 hs
    obtain ⟨hs', heq'⟩ := Option.ite_none_right_eq_some.1 hs'
    rw [Option.some.inj heq] at hs
    rw [Option.some.inj heq'] at hs'
    exact hs.symm.trans hs'
  tagged := htag

/-- The message itself, filled up, in place of a keyed hash. -/
def echoTag (_secret : Str) (m : Bytes) : Bytes := m ++ List.replicate stsTagLen 0

theorem length_echoTag (secret : Str) (m : Bytes) :
    stsTagLen ≤ (echoTag secret m).length := by
  rw [echoTag, List.length_append, List.length_replicate]
  exact Nat.le_add_left _ _

/-- A read-only credential for a minute, looked up a second later by a store with another
root key. -/
theorem temporary_credentials_exact_minute :
    let (accessKey, secretKey, expiry) := (latinStore echoTag "root".toList).issueTemp 1000
      ⟨[1, 2, 3, 4, 5, 6, 7, 8], rfl⟩ .readOnly 60
    (latinStore echoTag "admin".toList).resolve 1001 ∅ accessKey =
      if 1001 < expiry then some ⟨accessKey, secretKey, Policy.readOnly.name, true, none⟩
      else none :=
  (temporary_credentials_exact (coded_latinStore length_echoTag _) ⟨rfl, rfl, rfl, rfl⟩
    (by decide) ∅).1
    .readOnly ⟨[1, 2, 3, 4, 5, 6, 7, 8], rfl⟩ 1000 60 1001 (by decide) (by decide)

end IamStore

end Kerplace
