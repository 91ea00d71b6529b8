/-
# `Kerplace.Crypto.Minting` — data keys of changing length

A KMS provider keeps the length of the wrapped key it minted last, and a write asks for it
only when it computes the logical size of what it has stored.  Between the two, other
writes may have minted keys of another length.
-/
import Kerplace.Crypto.Container
import Kerplace.Lib.Machine

namespace Kerplace

/-- `KMS_WRAPPED_LEN_HINT`. -/
def KMS_WRAPPED_LEN_HINT : Nat := 96

/-- A KMS provider, with the keys that writes minted and the lengths they asked for. -/
structure Minting where
  wrappedLen : Nat
  minted : Nat → Option (Bytes × WrappedDek)
  loaded : Nat → Option Nat

/-- What writes ask a provider: to mint a key, which it may fail to do, and later for the
length of a wrapped key. -/
inductive ProviderCall where
  | newWrappedDek (i : Nat) (answer : Option (Bytes × WrappedDek))
  | wrappedDekLen (i : Nat)

namespace Minting

/-- A provider before any write; `len` is left from earlier ones. -/
def start (len : Nat) : Minting := ⟨len, fun _ => none, fun _ => none⟩

/-- `wrapped_dek_len`. -/
def wrappedDekLen (K : Minting) : Nat :=
  match K.wrappedLen with
  | 0 => KMS_WRAPPED_LEN_HINT
  | len => len

/-- A write mints one key, and asks for one length after that. -/
def step (K : Minting) : ProviderCall → Minting
  | .newWrappedDek i answer =>
      match K.minted i, answer with
      | none, some (dek, w) =>
          { K with wrappedLen := w.bytes.length,
                   minted := Function.update K.minted i (some (dek, w)) }
      | _, _ => K
  | .wrappedDekLen i =>
      if K.minted i ≠ none ∧ K.loaded i = none then
        { K with loaded := Function.update K.loaded i (some K.wrappedDekLen) }
      else K

/-- The provider and the cipher as write `i` meets them. -/
def seenBy (c : Crypto) (K : Minting) (i : Nat) : Crypto :=
  { c with newWrappedDek := fun _ => K.minted i,
           wrappedDekLen := (K.loaded i).getD K.wrappedDekLen }

end Minting

/-- Writes that ask one provider. -/
def mintingMachine : Machine Minting ProviderCall Unit := ⟨fun K call => ((), K.step call)⟩

/-! ## Sizes under a wrong length -/

/-- The size of `n` bytes survives being computed with `l` for the length `w` of the wrapped
key. -/
def SizeSurvives (n w l : Nat) : Prop :=
  w = l ∨ (n = 0 ∧ w ≤ l + TAG_LEN) ∨ (CHUNK_SIZE ∣ n ∧ l ≤ w ∧ w ≤ l + TAG_LEN)

instance (n w l : Nat) : Decidable (SizeSurvives n w l) :=
  inferInstanceAs (Decidable (_ ∨ _ ∧ _ ∨ _ ∧ _ ∧ _))

/-- The size formula with a wrong header length is right in these cases only. -/
theorem plaintextLen_eq_iff (n w l : Nat) :
    plaintextLen (8 + w + BASE_NONCE_LEN + (n + (n + CHUNK_SIZE - 1) / CHUNK_SIZE * TAG_LEN))
      (8 + l + BASE_NONCE_LEN) = n ↔ SizeSurvives n w l := by
  have hn := Nat.div_add_mod n CHUNK_SIZE
  have hlt : n % CHUNK_SIZE < CHUNK_SIZE := Nat.mod_lt _ (by decide)
  unfold SizeSurvives
  rw [Nat.dvd_iff_mod_eq_zero]
  generalize n / CHUNK_SIZE = q at hn
  generalize hr : n % CHUNK_SIZE = r at hn hlt
  subst hn
  have hsize : CHUNK_SIZE = 65536 := rfl
  have hblock : CHUNK_BLOCK = 65552 := rfl
  have htag : TAG_LEN = 16 := rfl
  have hbase : BASE_NONCE_LEN = 8 := rfl
  simp only [plaintextLen, hsize, hblock, htag, hbase] at hlt ⊢
  have hceil : (65536 * q + r + 65536 - 1) / 65536 = if r = 0 then q else q + 1 := by
    split <;> omega
  rw [hceil]
  split <;> split <;> try split
  all_goals omega

namespace Crypto

/-- The length of a container. -/
theorem length_encrypting {c : Crypto}
    (hseal : ∀ k n p, (c.sealWith k n p).length = p.length + TAG_LEN) {env : CallEnv}
    {body out : Body} {dek : Bytes} {w : WrappedDek}
    (hw : c.newWrappedDek env.keyRand = some (dek, w))
    (h : c.encryptingReader env body = some out) :
    out.data.length = 8 + w.bytes.length + BASE_NONCE_LEN + ((sealable body).length +
      ((sealable body).length + CHUNK_SIZE - 1) / CHUNK_SIZE * TAG_LEN) := by
  simp only [encryptingReader, hw, Option.some.injEq] at h
  subst h
  have hpos : 0 < CHUNK_SIZE := by decide
  have hlen := length_sealed hseal dek (chunkNonce env.baseNonce.bytes)
    (chunks CHUNK_SIZE (sealable body))
  rw [flatten_chunks hpos, length_chunks hpos] at hlen
  have hhead : (header w env.baseNonce.bytes).length = 8 + w.bytes.length + BASE_NONCE_LEN := by
    simp only [header, MAGIC, u16BE, List.length_append, List.length_cons, List.length_nil,
      env.baseNonce.length_eq, BASE_NONCE_LEN]
  simp only [Body.ofBytes, List.length_append, hhead, hlen]

end Crypto

/-! ## The size a write records -/

/-- What an encrypted write brings. -/
structure EncryptedPut where
  env : CallEnv
  body : Body

/-- Its plaintext. -/
def EncryptedPut.plain (put : EncryptedPut) : Bytes := Crypto.sealable put.body

namespace Minting

/-- The size write `i` records once it has asked for a length. -/
def recordedSize (c : Crypto) (K : Minting) (i : Nat) (put : EncryptedPut) : Option Nat := do
  let len ← K.loaded i
  let src ← (K.seenBy c i).encryptingReader put.env put.body
  pure (plaintextLen src.data.length (8 + len + BASE_NONCE_LEN))

/-- Every size recorded is the length of the plaintext. -/
def SizesRight (c : Crypto) (put : Nat → EncryptedPut) (K : Minting) : Prop :=
  ∀ i size, recordedSize c K i (put i) = some size → size = (put i).plain.length

/-- A length asked for by a write that has minted a key is one its size survives. -/
def Survives (put : Nat → EncryptedPut) (v : Visit Minting ProviderCall Unit) : Prop :=
  ∀ i, v.call = .wrappedDekLen i → v.before.loaded i = none →
    ∀ dek w, v.before.minted i = some (dek, w) →
      SizeSurvives (put i).plain.length w.bytes.length v.before.wrappedDekLen

/-- The lengths asked for, as the record of a run has them. -/
def Recorded (vs : List (Visit Minting ProviderCall Unit)) (K : Minting) : Prop :=
  (∀ i, K.loaded i ≠ none → K.minted i ≠ none) ∧
  ∀ i len key, (K.loaded i = some len ∧ K.minted i = some key) ↔
    ∃ v ∈ vs, v.call = .wrappedDekLen i ∧ v.before.loaded i = none ∧
      v.before.minted i = some key ∧ v.before.wrappedDekLen = len

theorem Recorded.step {vs : List (Visit Minting ProviderCall Unit)} {K : Minting}
    (h : Recorded vs K) (call : ProviderCall) :
    Recorded (vs ++ [mintingMachine.visit K call]) (K.step call) := by
  obtain ⟨hminted, hvs⟩ := h
  have hsnoc : ∀ i len key, (∃ v ∈ vs ++ [mintingMachine.visit K call],
      v.call = .wrappedDekLen i ∧ v.before.loaded i = none ∧ v.before.minted i = some key ∧
        v.before.wrappedDekLen = len) ↔
      (K.loaded i = some len ∧ K.minted i = some key) ∨
        (call = .wrappedDekLen i ∧ K.loaded i = none ∧ K.minted i = some key ∧
          K.wrappedDekLen = len) := by
    intro i len key
    rw [hvs]
    simp only [List.mem_append, List.mem_singleton, or_and_right, exists_or, exists_eq_left]
    rfl
  unfold Recorded
  simp only [hsnoc]
  cases call with
  | newWrappedDek j answer =>
      simp only [Minting.step]
      split
      · rename_i dek w hj
        -- a write that has a length has its key
        have hload : K.loaded j = none := by
          by_contra hne
          exact hminted j hne hj
        refine ⟨fun i hi => ?_, fun i len key => ?_⟩
        · by_cases hij : i = j
          · simp [hij]
          · simpa [Function.update_of_ne hij] using hminted i hi
        · by_cases hij : i = j
          · subst hij
            simp [hload]
          · simp [Function.update_of_ne hij]
      · exact ⟨hminted, fun i len key => by simp⟩
  | wrappedDekLen j =>
      simp only [Minting.step, ProviderCall.wrappedDekLen.injEq]
      split
      · rename_i hj
        refine ⟨fun i hi => ?_, fun i len key => ?_⟩
        · by_cases hij : i = j
          · exact hij ▸ hj.1
          · exact hminted i (by simpa [Function.update_of_ne hij] using hi)
        · by_cases hij : i = j
          · subst hij
            simp [hj.2, and_comm]
          · simp [Function.update_of_ne hij, Ne.symm hij]
      · rename_i hj
        refine ⟨hminted, fun i len key => (or_iff_left ?_).symm⟩
        rintro ⟨rfl, hload, hkey, -⟩
        exact hj ⟨by simp [hkey], hload⟩

theorem recorded_run (len : Nat) (calls : List ProviderCall) :
    Recorded (mintingMachine.visits (start len) calls)
      (mintingMachine.final (start len) calls) := by
  have hgood : ∀ v ∈ mintingMachine.visits (start len) calls, True := fun _ _ => trivial
  refine Machine.invariant ⟨fun i hi => absurd rfl hi, fun i len key => ?_⟩
    (fun _ _ call h _ => h.step call) calls hgood
  simp [start]

theorem exists_of_recordedSize {c : Crypto} {K : Minting} {i : Nat} {put : EncryptedPut}
    {size : Nat} (h : recordedSize c K i put = some size) :
    ∃ src, (K.seenBy c i).encryptingReader put.env put.body = some src ∧
      size = plaintextLen src.data.length (K.seenBy c i).headerLen := by
  obtain ⟨len, hlen, h⟩ := Option.bind_eq_some_iff.1 h
  obtain ⟨src, hsrc, h⟩ := Option.bind_eq_some_iff.1 h
  refine ⟨src, hsrc, ?_⟩
  rw [← Option.some.inj h, Crypto.headerLen, seenBy, hlen]
  rfl

theorem recordedSize_eq_some {c : Crypto}
    (hseal : ∀ k n p, (c.sealWith k n p).length = p.length + TAG_LEN) {K : Minting} {i : Nat}
    {put : EncryptedPut} {size : Nat} :
    recordedSize c K i put = some size ↔ ∃ len dek w, K.loaded i = some len ∧
      K.minted i = some (dek, w) ∧
      size = plaintextLen (8 + w.bytes.length + BASE_NONCE_LEN + (put.plain.length +
        (put.plain.length + CHUNK_SIZE - 1) / CHUNK_SIZE * TAG_LEN))
          (8 + len + BASE_NONCE_LEN) := by
  have hlength : ∀ dek w, K.minted i = some (dek, w) →
      ∀ src, (K.seenBy c i).encryptingReader put.env put.body = some src →
      src.data.length = 8 + w.bytes.length + BASE_NONCE_LEN + (put.plain.length +
        (put.plain.length + CHUNK_SIZE - 1) / CHUNK_SIZE * TAG_LEN) :=
    fun dek w hw src hsrc => Crypto.length_encrypting (c := K.seenBy c i) hseal
      (show (K.seenBy c i).newWrappedDek put.env.keyRand = _ from hw) hsrc
  unfold recordedSize
  constructor
  · intro h
    obtain ⟨len, hlen, h⟩ := Option.bind_eq_some_iff.1 h
    obtain ⟨src, hsrc, h⟩ := Option.bind_eq_some_iff.1 h
    cases hkey : K.minted i with
    | none => simp [Crypto.encryptingReader, seenBy, hkey] at hsrc
    | some key =>
        refine ⟨len, key.1, key.2, hlen, rfl, ?_⟩
        rw [← Option.some.inj h, hlength key.1 key.2 hkey src hsrc]
  · rintro ⟨len, dek, w, hlen, hkey, rfl⟩
    have hsrc : ∃ src, (K.seenBy c i).encryptingReader put.env put.body = some src := by
      simp [Crypto.encryptingReader, seenBy, hkey]
    obtain ⟨src, hsrc⟩ := hsrc
    rw [hlen, Option.bind_eq_bind, Option.bind_some, hsrc, Option.bind_eq_bind, Option.bind_some,
      hlength dek w hkey src hsrc]
    rfl

/-- In a run all sizes recorded are right just when all survive the lengths asked for. -/
theorem sizes_right_iff {c : Crypto}
    (hseal : ∀ k n p, (c.sealWith k n p).length = p.length + TAG_LEN)
    (put : Nat → EncryptedPut) (len : Nat) (calls : List ProviderCall) :
    SizesRight c put (mintingMachine.final (start len) calls) ↔
    ∀ v ∈ mintingMachine.visits (start len) calls, Survives put v := by
  obtain ⟨-, hvs⟩ := recorded_run len calls
  constructor
  · intro h v hv i hcall hload dek w hkey
    obtain ⟨hlen, hminted⟩ := (hvs i v.before.wrappedDekLen (dek, w)).2
      ⟨v, hv, hcall, hload, hkey, rfl⟩
    exact (plaintextLen_eq_iff _ _ _).1
      (h i _ ((recordedSize_eq_some hseal).2 ⟨_, dek, w, hlen, hminted, rfl⟩))
  · intro h i size hsize
    obtain ⟨len, dek, w, hlen, hkey, rfl⟩ := (recordedSize_eq_some hseal).1 hsize
    obtain ⟨v, hv, hcall, hload, hminted, rfl⟩ := (hvs i len (dek, w)).1 ⟨hlen, hkey⟩
    exact (plaintextLen_eq_iff _ _ _).2 (h v hv i hcall hload dek w hminted)

end Minting

end Kerplace
