/-
# `Kerplace.Crypto.Container` — the encrypted object container

The byte layout and the two streaming loops of the `KPE1` container:
magic, version, algorithm, wrapped key length and bytes, base nonce, then the
payload in sealed chunks of 64 KiB.  AES-256-GCM and the key provider are not
in the repository; they are fields of `Crypto`, and `Crypto.Lawful` is what
the container relies on of them.
-/
import Kerplace.Lib.Chunks
import Kerplace.Storage.Types

namespace Kerplace

/-- `WrappedDek`: a data key as the provider stores it in a header. -/
structure WrappedDek where
  alg : UInt8
  bytes : Bytes
  deriving DecidableEq

/-- The key provider and the cipher of a `CryptoContext`.  A provider that is
out of reach mints and unwraps nothing. -/
structure Crypto where
  newWrappedDek : Bytes → Option (Bytes × WrappedDek)
  unwrapDek : WrappedDek → Option Bytes
  wrappedDekLen : Nat
  sealWith : (key nonce plaintext : Bytes) → Bytes
  openWith : (key nonce ciphertext : Bytes) → Option Bytes

/-- `MAGIC`. -/
def MAGIC : Bytes := [0x4b, 0x50, 0x45, 0x01]

/-- `CHUNK_SIZE`. -/
def CHUNK_SIZE : Nat := 64 * 1024

/-- `TAG_LEN`. -/
def TAG_LEN : Nat := 16

/-- `BASE_NONCE_LEN`. -/
def BASE_NONCE_LEN : Nat := 8

/-- `CHUNK_BLOCK`. -/
def CHUNK_BLOCK : Nat := CHUNK_SIZE + TAG_LEN

/-- `u16::to_be_bytes`. -/
def u16BE (n : Nat) : Bytes := [UInt8.ofNat (n / 256), UInt8.ofNat n]

/-- `u32::to_be_bytes`. -/
def u32BE (n : Nat) : Bytes :=
  [UInt8.ofNat (n / 16777216), UInt8.ofNat (n / 65536), UInt8.ofNat (n / 256),
    UInt8.ofNat n]

/-- `chunk_nonce`. -/
def chunkNonce (base : Bytes) (counter : Nat) : Bytes := base ++ u32BE counter

namespace Crypto

/-- What the container relies on: an unwrapped key is the one that was wrapped,
its blob has the announced length, which the header field can hold, and
opening undoes sealing, and a tag is what the two lengths differ by. -/
structure Lawful (c : Crypto) : Prop where
  unwrap_new : ∀ r dek w, c.newWrappedDek r = some (dek, w) → c.unwrapDek w = some dek
  new_length : ∀ r dek w, c.newWrappedDek r = some (dek, w) →
    w.bytes.length = c.wrappedDekLen
  length_lt : c.wrappedDekLen < 65536
  open_seal : ∀ k n p, c.openWith k n (c.sealWith k n p) = some p
  seal_length : ∀ k n p, (c.sealWith k n p).length = p.length + TAG_LEN
  open_length : ∀ k n b p, c.openWith k n b = some p → p.length + TAG_LEN = b.length

/-- `CryptoContext::header_len`. -/
def headerLen (c : Crypto) : Nat := 8 + c.wrappedDekLen + BASE_NONCE_LEN

/-- The container header. -/
def header (w : WrappedDek) (baseNonce : Bytes) : Bytes :=
  MAGIC ++ [1] ++ [w.alg] ++ u16BE w.bytes.length ++ w.bytes ++ baseNonce

/-- What of a body reaches the cipher: all of it when it ends cleanly; when it
breaks off, the chunk being filled is dropped and the container just ends. -/
def sealable (b : Body) : Bytes :=
  if b.err then b.data.take (b.data.length / CHUNK_SIZE * CHUNK_SIZE) else b.data

/-- `encrypting_reader`: the whole container, or nothing when no key could be
minted.  The stream it yields never reports an error. -/
def encryptingReader (c : Crypto) (env : CallEnv) (body : Body) : Option Body :=
  match c.newWrappedDek env.keyRand with
  | none => none
  | some (dek, w) =>
      let sealed := (chunks CHUNK_SIZE (sealable body)).mapIdx fun i p =>
        c.sealWith dek (chunkNonce env.baseNonce.bytes i) p
      some (.ofBytes (header w env.baseNonce.bytes ++ sealed.flatten))

/-- `open_stream_header`: the data key, the base nonce and what follows. -/
def openStreamHeader (c : Crypto) (raw : Bytes) : Option (Bytes × Bytes × Bytes) :=
  if raw.length < 8 ∨ raw.take 4 ≠ MAGIC then none
  else
    let alg := raw.getD 5 0
    let wrappedLen := 256 * (raw.getD 6 0).toNat + (raw.getD 7 0).toNat
    let rest := (raw.drop 8).take (wrappedLen + BASE_NONCE_LEN)
    if rest.length < wrappedLen + BASE_NONCE_LEN then none
    else
      match c.unwrapDek ⟨alg, rest.take wrappedLen⟩ with
      | none => none
      | some dek =>
          some (dek, rest.drop wrappedLen, raw.drop (8 + wrappedLen + BASE_NONCE_LEN))

/-- `stream_chunks`: open chunk after chunk, ending at the first that fails. -/
def streamChunks (c : Crypto) (dek baseNonce : Bytes) : Nat → List Bytes → Bytes
  | _, [] => []
  | counter, b :: bs =>
      match c.openWith dek (chunkNonce baseNonce counter) b with
      | none => []
      | some p => p ++ streamChunks c dek baseNonce (counter + 1) bs

/-- `decrypting_reader_checked`: an error up to the data key, after that the
bytes of the chunks that open. -/
def decryptingReader (c : Crypto) (raw : Bytes) : Option Bytes :=
  match c.openStreamHeader raw with
  | none => none
  | some (dek, baseNonce, rest) =>
      some (c.streamChunks dek baseNonce 0 (chunks CHUNK_BLOCK rest))

end Crypto

/-- `plaintext_len`. -/
def plaintextLen (ciphertextLen headerLen : Nat) : Nat :=
  if ciphertextLen ≤ headerLen then 0
  else
    let body := ciphertextLen - headerLen
    let full := body / CHUNK_BLOCK
    let rem := body % CHUNK_BLOCK
    if rem = 0 then full * CHUNK_SIZE else full * CHUNK_SIZE + (rem - TAG_LEN)

/-! ## Round trip -/

namespace Crypto

theorem sealable_ofBytes (data : Bytes) : sealable (.ofBytes data) = data := rfl

theorem sealable_clean {b : Body} (h : b.err = false) : sealable b = b.data := by
  simp [sealable, h]

theorem streamChunks_sealed {c : Crypto}
    (hopen : ∀ k n p, c.openWith k n (c.sealWith k n p) = some p) (dek base : Bytes) :
    ∀ (ps : List Bytes) (start : Nat),
      c.streamChunks dek base start
        (ps.mapIdx fun i p => c.sealWith dek (chunkNonce base (start + i)) p) =
        ps.flatten := by
  intro ps
  induction ps with
  | nil => intro start; rfl
  | cons p ps ih =>
      intro start
      have hshift : (ps.mapIdx fun i q =>
          c.sealWith dek (chunkNonce base (start + (i + 1))) q) =
          ps.mapIdx fun i q => c.sealWith dek (chunkNonce base (start + 1 + i)) q := by
        congr 1
        funext i q
        congr 2
        omega
      rw [List.mapIdx_cons, hshift, streamChunks]
      simp only [Nat.add_zero, hopen, List.flatten_cons]
      rw [ih]

/-- Opening a header gives back the key that unwraps and the nonce. -/
theorem openStreamHeader_wrapped {c : Crypto} {dek : Bytes} {w : WrappedDek}
    (hw : c.unwrapDek w = some dek) (hlt : w.bytes.length < 65536) {base : Bytes}
    (hbase : base.length = BASE_NONCE_LEN) (rest : Bytes) :
    c.openStreamHeader (header w base ++ rest) = some (dek, base, rest) := by
  have hwl : 256 * (UInt8.ofNat (w.bytes.length / 256)).toNat +
      (UInt8.ofNat w.bytes.length).toNat = w.bytes.length := by
    simp only [UInt8.toNat_ofNat']
    omega
  have hraw : header w base ++ rest =
      0x4b :: 0x50 :: 0x45 :: 0x01 :: 1 :: w.alg ::
        UInt8.ofNat (w.bytes.length / 256) :: UInt8.ofNat w.bytes.length ::
          (w.bytes ++ (base ++ rest)) := by
    simp [header, MAGIC, u16BE]
  rw [hraw, openStreamHeader, if_neg (by simp [MAGIC])]
  have htake : (w.bytes ++ (base ++ rest)).take (w.bytes.length + BASE_NONCE_LEN) =
      w.bytes ++ base := by
    rw [← hbase, ← List.length_append, ← List.append_assoc, List.take_left]
  have hdrop : (w.bytes ++ (base ++ rest)).drop (w.bytes.length + BASE_NONCE_LEN) =
      rest := by
    rw [← hbase, ← List.length_append, ← List.append_assoc, List.drop_left]
  simp only [List.getD_cons_succ, List.getD_cons_zero, hwl, List.drop_succ_cons,
    List.drop_zero, htake, List.length_append, hbase, Nat.lt_irrefl, if_false,
    List.take_left, List.drop_left, hw]
  rw [show 8 + w.bytes.length + BASE_NONCE_LEN = w.bytes.length + BASE_NONCE_LEN + 8 by
    omega]
  simp only [List.drop_succ_cons, hdrop]

theorem openStreamHeader_header {c : Crypto} (hc : c.Lawful) {r dek : Bytes}
    {w : WrappedDek} (hw : c.newWrappedDek r = some (dek, w)) {base : Bytes}
    (hbase : base.length = BASE_NONCE_LEN) (rest : Bytes) :
    c.openStreamHeader (header w base ++ rest) = some (dek, base, rest) :=
  openStreamHeader_wrapped (hc.unwrap_new _ _ _ hw)
    (hc.new_length _ _ _ hw ▸ hc.length_lt) hbase rest

/-- What was sealed is what is read back. -/
theorem decrypting_encrypting {c : Crypto} (hc : c.Lawful) {env : CallEnv}
    {body out : Body}
    (h : c.encryptingReader env body = some out) :
    c.decryptingReader out.data = some (sealable body) := by
  unfold encryptingReader at h
  split at h
  · cases h
  · rename_i dek w hw
    cases h
    have hpos : 0 < CHUNK_SIZE := by decide
    have hblocked : Blocked (CHUNK_SIZE + TAG_LEN) ((chunks CHUNK_SIZE (sealable body)).mapIdx
        fun i p => c.sealWith dek (chunkNonce env.baseNonce.bytes i) p) :=
      (blocked_chunks hpos (sealable body)).map_grow fun _ _ => hc.seal_length _ _ _
    have hstream := streamChunks_sealed hc.open_seal dek env.baseNonce.bytes
      (chunks CHUNK_SIZE (sealable body)) 0
    simp only [Nat.zero_add] at hstream
    simp only [decryptingReader, Body.ofBytes,
    openStreamHeader_header hc hw env.baseNonce.length_eq]
    rw [chunks_flatten (by decide : 0 < CHUNK_BLOCK) hblocked, hstream,
      flatten_chunks hpos]

theorem length_sealed {c : Crypto}
    (hlen : ∀ k n p, (c.sealWith k n p).length = p.length + TAG_LEN) (dek : Bytes)
    (nonce : Nat → Bytes) (ps : List Bytes) :
    (ps.mapIdx fun i p => c.sealWith dek (nonce i) p).flatten.length =
      ps.flatten.length + ps.length * TAG_LEN := by
  induction ps generalizing nonce with
  | nil => rfl
  | cons p ps ih =>
      rw [List.mapIdx_cons, List.flatten_cons, List.length_append, hlen,
        ih fun i => nonce (i + 1), List.flatten_cons, List.length_append,
        List.length_cons, Nat.succ_mul]
      omega

/-- The size formula inverts the growth of `n` bytes by one tag a chunk. -/
theorem plaintextLen_grown (hlen n : Nat) :
    plaintextLen (hlen + (n + (n + CHUNK_SIZE - 1) / CHUNK_SIZE * TAG_LEN)) hlen = n := by
  have hn := Nat.div_add_mod n CHUNK_SIZE
  have hlt : n % CHUNK_SIZE < CHUNK_SIZE := Nat.mod_lt _ (by decide)
  generalize n / CHUNK_SIZE = q at hn
  generalize n % CHUNK_SIZE = r at hn hlt
  subst hn
  have hsize : CHUNK_SIZE = 65536 := rfl
  have hblock : CHUNK_BLOCK = 65552 := rfl
  have htag : TAG_LEN = 16 := rfl
  simp only [plaintextLen, hsize, hblock, htag] at hlt ⊢
  by_cases hr : r = 0
  · subst hr
    have hceil : (65536 * q + 0 + 65536 - 1) / 65536 = q := by omega
    rw [hceil]
    by_cases hq : q = 0
    · simp [hq]
    · have hbody : hlen + (65536 * q + 0 + q * 16) - hlen = 65552 * q := by omega
      rw [if_neg (by omega), hbody, Nat.mul_mod_right, if_pos rfl,
        Nat.mul_div_cancel_left _ (by omega), Nat.mul_comm, Nat.add_zero]
  · have hceil : (65536 * q + r + 65536 - 1) / 65536 = q + 1 := by omega
    have hbody : hlen + (65536 * q + r + (q + 1) * 16) - hlen = (r + 16) + 65552 * q := by
      omega
    rw [hceil, if_neg (by omega), hbody, Nat.add_mul_mod_self_left,
      Nat.mod_eq_of_lt (by omega), if_neg (by omega),
      Nat.add_mul_div_left _ _ (by omega), Nat.div_eq_of_lt (by omega)]
    omega

/-- The size recovered from a container is the size of what was sealed. -/
theorem plaintextLen_encrypting {c : Crypto} (hc : c.Lawful) {env : CallEnv}
    {body out : Body}
    (h : c.encryptingReader env body = some out) :
    plaintextLen out.data.length c.headerLen = (sealable body).length := by
  unfold encryptingReader at h
  split at h
  · cases h
  · rename_i dek w hw
    cases h
    have hpos : 0 < CHUNK_SIZE := by decide
    have hlen := length_sealed hc.seal_length dek (chunkNonce env.baseNonce.bytes)
      (chunks CHUNK_SIZE (sealable body))
    rw [flatten_chunks hpos, length_chunks hpos] at hlen
    have hhead : (header w env.baseNonce.bytes).length = c.headerLen := by
      simp only [header, headerLen, MAGIC, u16BE, List.length_append, List.length_cons,
        List.length_nil, hc.new_length _ _ _ hw, env.baseNonce.length_eq, BASE_NONCE_LEN]
    simp only [Body.ofBytes, List.length_append, hhead, hlen]
    exact plaintextLen_grown _ _

/-! ## Truncation -/

/-- No more comes out of a chunk stream than its size formula says. -/
theorem length_streamChunks_le {c : Crypto} (hc : c.Lawful) (dek base : Bytes)
    (raw : Bytes) : ∀ counter,
    (c.streamChunks dek base counter (chunks CHUNK_BLOCK raw)).length ≤
      plaintextLen raw.length 0 := by
  have hpos : 0 < CHUNK_BLOCK := by decide
  have hsize : CHUNK_SIZE = 65536 := rfl
  have hblock : CHUNK_BLOCK = 65552 := rfl
  have htag : TAG_LEN = 16 := rfl
  induction raw using chunks_induction hpos with
  | nil => intro counter; simp [streamChunks]
  | step raw hraw ih =>
      intro counter
      have hlen := List.length_pos_iff.2 hraw
      rw [chunks_of_ne hpos hraw, streamChunks]
      split
      · simp
      · rename_i p hp
        have hplen := hc.open_length _ _ _ _ hp
        have hrest := ih (counter + 1)
        rw [List.length_take] at hplen
        rw [List.length_drop] at hrest
        rw [List.length_append]
        simp only [plaintextLen, hsize, hblock, htag, Nat.sub_zero] at hrest hplen ⊢
        by_cases hle : raw.length ≤ 65552
        · rw [Nat.min_eq_right hle] at hplen
          rw [Nat.sub_eq_zero_of_le hle, if_pos (le_refl 0)] at hrest
          rw [if_neg (by omega)]
          split <;> omega
        · rw [Nat.min_eq_left (by omega)] at hplen
          rw [if_neg (by omega)] at hrest
          rw [if_neg (by omega)]
          have hdiv : raw.length / 65552 = (raw.length - 65552) / 65552 + 1 := by omega
          have hmod : raw.length % 65552 = (raw.length - 65552) % 65552 := by omega
          rw [hdiv, hmod]
          split at hrest
          · rename_i hzero
            rw [if_pos hzero]
            omega
          · rename_i hzero
            rw [if_neg hzero]
            omega

theorem plaintextLen_lt {x n : Nat}
    (h : x < n + (n + CHUNK_SIZE - 1) / CHUNK_SIZE * TAG_LEN) : plaintextLen x 0 < n := by
  have hsize : CHUNK_SIZE = 65536 := rfl
  have hblock : CHUNK_BLOCK = 65552 := rfl
  have htag : TAG_LEN = 16 := rfl
  simp only [plaintextLen, hsize, hblock, htag, Nat.sub_zero] at h ⊢
  split
  · omega
  · split <;> omega

/-- A header cut short opens to nothing. -/
theorem openStreamHeader_cut {c : Crypto} (hc : c.Lawful) {r dek : Bytes}
    {w : WrappedDek} (hw : c.newWrappedDek r = some (dek, w)) {base raw rest : Bytes}
    (hbase : base.length = BASE_NONCE_LEN) (hcut : raw ++ rest = header w base)
    (hrest : rest ≠ []) : c.openStreamHeader raw = none := by
  have hlt := hc.length_lt
  have hlen := hc.new_length _ _ _ hw
  have hwl : 256 * (UInt8.ofNat (w.bytes.length / 256)).toNat +
      (UInt8.ofNat w.bytes.length).toNat = w.bytes.length := by
    simp only [UInt8.toNat_ofNat']
    omega
  have hhead : header w base =
      0x4b :: 0x50 :: 0x45 :: 0x01 :: 1 :: w.alg ::
        UInt8.ofNat (w.bytes.length / 256) :: UInt8.ofNat w.bytes.length ::
          (w.bytes ++ base) := by
    simp [header, MAGIC, u16BE]
  have hlong := congrArg List.length hcut
  rw [hhead] at hcut hlong
  simp only [List.length_append, List.length_cons, hbase] at hlong
  have hpos := List.length_pos_iff.2 hrest
  unfold openStreamHeader
  by_cases hshort : raw.length < 8
  · rw [if_pos (Or.inl hshort)]
  · split
    · rfl
    have hget : ∀ i, i < raw.length → raw.getD i 0 = (raw ++ rest).getD i 0 := fun i hi => by
      rw [List.getD_eq_getElem?_getD, List.getD_eq_getElem?_getD,
        List.getElem?_append_left hi]
    rw [hget 6 (by omega), hget 7 (by omega), hcut]
    simp only [List.getD_cons_succ, List.getD_cons_zero, hwl]
    rw [if_pos]
    rw [List.length_take, List.length_drop]
    omega

/-- A container cut short gives, if anything, fewer bytes than were sealed. -/
theorem decrypting_cut {c : Crypto} (hc : c.Lawful) {env : CallEnv} {body out : Body}
    (h : c.encryptingReader env body = some out) {raw p : Bytes} {rest : Bytes}
    (hcut : raw ++ rest = out.data) (hrest : rest ≠ [])
    (hp : c.decryptingReader raw = some p) : p.length < (sealable body).length := by
  unfold encryptingReader at h
  split at h
  · cases h
  rename_i dek w hw
  cases h
  have hpos := List.length_pos_iff.2 hrest
  have hsealed := length_sealed hc.seal_length dek (chunkNonce env.baseNonce.bytes)
    (chunks CHUNK_SIZE (sealable body))
  rw [flatten_chunks (by decide), length_chunks (by decide)] at hsealed
  generalize hpay : ((chunks CHUNK_SIZE (sealable body)).mapIdx fun i p =>
    c.sealWith dek (chunkNonce env.baseNonce.bytes i) p).flatten = payload at hsealed hcut
  simp only [Body.ofBytes] at hcut
  by_cases hhead : (header w env.baseNonce.bytes).length ≤ raw.length
  · -- The header is whole, so the chunks are what is short.
    obtain ⟨tail, rfl⟩ : ∃ tail, raw = header w env.baseNonce.bytes ++ tail := by
      refine ⟨raw.drop (header w env.baseNonce.bytes).length, ?_⟩
      have := congrArg (List.take (header w env.baseNonce.bytes).length) hcut
      rw [List.take_append_of_le_length hhead, List.take_left] at this
      conv_lhs => rw [← List.take_append_drop (header w env.baseNonce.bytes).length raw]
      rw [this]
    rw [List.append_assoc, List.append_cancel_left_eq] at hcut
    rw [decryptingReader, openStreamHeader_header hc hw env.baseNonce.length_eq] at hp
    have hlen := congrArg List.length hcut
    rw [List.length_append, hsealed] at hlen
    cases hp
    exact lt_of_le_of_lt (length_streamChunks_le hc dek _ tail 0)
      (plaintextLen_lt (by omega))
  · -- The header itself is cut: nothing is opened.
    obtain ⟨more, hmore⟩ : ∃ more, raw ++ more = header w env.baseNonce.bytes := by
      refine ⟨(header w env.baseNonce.bytes).drop raw.length, ?_⟩
      have := congrArg (List.take raw.length) hcut
      rw [List.take_left, List.take_append_of_le_length (by omega)] at this
      conv_lhs => rw [this, List.length_take, Nat.min_eq_left (by omega)]
      exact List.take_append_drop _ _
    have hne : more ≠ [] := by
      rintro rfl
      rw [List.append_nil] at hmore
      exact hhead (by rw [hmore])
    rw [decryptingReader,
      openStreamHeader_cut hc hw env.baseNonce.length_eq hmore hne] at hp
    cases hp

end Crypto

/-- A cipher that appends an empty tag, under a key of no bytes. -/
def Crypto.tagged : Crypto where
  newWrappedDek _ := some ([], ⟨1, []⟩)
  unwrapDek _ := some []
  wrappedDekLen := 0
  sealWith _ _ p := p ++ List.replicate TAG_LEN 0
  openWith _ _ b := if TAG_LEN ≤ b.length then some (b.take (b.length - TAG_LEN)) else none

theorem Crypto.tagged_lawful : Crypto.tagged.Lawful where
  unwrap_new _ _ _ h := by
    cases h
    rfl
  new_length _ _ _ h := by
    cases h
    rfl
  length_lt := by decide
  open_seal _ _ p := by
    have hlen : (p ++ List.replicate TAG_LEN (0 : UInt8)).length = p.length + TAG_LEN := by
      simp
    simp only [tagged, hlen, Nat.le_add_left, if_true, Nat.add_sub_cancel, List.take_left]
  seal_length _ _ p := by simp [tagged]
  open_length _ _ b p h := by
    simp only [tagged, Option.ite_none_right_eq_some, Option.some.injEq] at h
    obtain ⟨hle, rfl⟩ := h
    rw [List.length_take]
    omega

end Kerplace
