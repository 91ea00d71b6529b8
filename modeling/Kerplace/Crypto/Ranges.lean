/-
# `Kerplace.Crypto.Ranges` — reading a range out of a container

The filesystem store opens only the chunks a range touches, each at its place in the
container, and cuts the range out of their plaintext.  The arithmetic is its own; what comes
out is the range of the whole plaintext.
-/
import Kerplace.Crypto.Readers

namespace Kerplace

/-- The first and the last byte of a range that is kept within a size, as the stores compute
them, and how many bytes there are. -/
structure ByteRange where
  start : Nat
  last : Nat
  len : Nat
  deriving DecidableEq

/-- `start`, `last` and `len` of `get_object_range`. -/
def byteRange (size start : Nat) (end? : Option Nat) : ByteRange :=
  let start := min start size
  let last := (end?.map fun e => min e (size - 1)).getD (size - 1)
  ⟨start, last, if size = 0 ∨ last < start then 0 else last - start + 1⟩

namespace Crypto

/-- The header of a container: eight bytes, and as many more as they say. -/
def readHeader (raw : Bytes) : Option Bytes :=
  if raw.length < 8 then none
  else
    let wrappedLen := 256 * (raw.getD 6 0).toNat + (raw.getD 7 0).toNat
    if raw.length < 8 + wrappedLen + 8 then none else some (raw.take (8 + wrappedLen + 8))

/-- The loop over the chunks a range touches. -/
def rangeChunks (c : Crypto) (o : ObjectCipher) (raw : Bytes) (ctSize headerLen : Nat) :
    List Nat → Except S3Error Bytes
  | [] => .ok []
  | ci :: cis =>
      let off := headerLen + ci * CHUNK_BLOCK
      if off ≥ ctSize then .ok []
      else
        let blockLen := min (ctSize - off) CHUNK_BLOCK
        let block := (raw.drop off).take blockLen
        if block.length < blockLen then .error (.internal "read chunk")
        else
          match c.decryptChunk o ci block with
          | none => .error (.internal "decrypt chunk")
          | some plain =>
              (rangeChunks c o raw ctSize headerLen cis).map fun more => plain ++ more

/-- What is cut out of the chunks: nothing if they are too short. -/
def rangeSlice (plain : Bytes) (localStart len : Nat) : Bytes :=
  let localEnd := min (localStart + len) plain.length
  if localStart ≤ localEnd then (plain.drop localStart).take (localEnd - localStart) else []

/-- A range of an encrypted payload. -/
def readRange (c : Crypto) (raw : Bytes) (ctSize : Nat) (r : ByteRange) :
    Except S3Error Bytes :=
  match readHeader raw with
  | none => .error (.internal "read header")
  | some header =>
      match c.openCipher header with
      | none => .error (.internal "open header")
      | some (cipher, _) =>
          let firstChunk := r.start / CHUNK_SIZE
          let lastChunk := r.last / CHUNK_SIZE
          (c.rangeChunks cipher raw ctSize header.length
            (List.range' firstChunk (lastChunk + 1 - firstChunk))).map fun plain =>
              rangeSlice plain (r.start - firstChunk * CHUNK_SIZE) r.len

/-! ## Opening a fresh header -/

theorem readHeader_header {w : WrappedDek} (hlt : w.bytes.length < 65536) {base : Bytes}
    (hbase : base.length = BASE_NONCE_LEN) (rest : Bytes) :
    readHeader (header w base ++ rest) = some (header w base) := by
  have hwl : 256 * (UInt8.ofNat (w.bytes.length / 256)).toNat +
      (UInt8.ofNat w.bytes.length).toNat = w.bytes.length := by
    simp only [UInt8.toNat_ofNat']
    omega
  have hraw : header w base =
      0x4b :: 0x50 :: 0x45 :: 0x01 :: 1 :: w.alg ::
        UInt8.ofNat (w.bytes.length / 256) :: UInt8.ofNat w.bytes.length ::
          (w.bytes ++ base) := by
    simp [header, MAGIC, u16BE]
  have hlen : (header w base).length = 8 + w.bytes.length + 8 := by
    rw [hraw]
    simp only [List.length_cons, List.length_append, hbase, BASE_NONCE_LEN]
    omega
  have hget : ∀ i, i < 8 → (header w base ++ rest).getD i 0 = (header w base).getD i 0 := by
    intro i hi
    rw [List.getD_eq_getElem?_getD, List.getD_eq_getElem?_getD,
      List.getElem?_append_left (by omega)]
  unfold readHeader
  rw [if_neg (by rw [List.length_append]; omega), hget 6 (by omega), hget 7 (by omega)]
  simp only [hraw, List.getD_cons_succ, List.getD_cons_zero, hwl]
  rw [← hraw, if_neg (by rw [List.length_append]; omega), ← hlen, List.take_left]

theorem openCipher_header {c : Crypto} {dek : Bytes} {w : WrappedDek}
    (hw : c.unwrapDek w = some dek) (hlt : w.bytes.length < 65536) {base : Bytes}
    (hbase : base.length = BASE_NONCE_LEN) :
    c.openCipher (header w base) = some (⟨dek, base⟩, (header w base).length) := by
  have hopen := openStreamHeader_wrapped hw hlt hbase []
  rw [List.append_nil] at hopen
  rw [openCipher_eq, hopen]
  rfl

/-! ## The chunks of a container -/

/-- The loop opens the chunks it is given, up to the last there is. -/
theorem rangeChunks_sealed {c : Crypto}
    (hopen : ∀ k n p, c.openWith k n (c.sealWith k n p) = some p)
    (hseal : ∀ k n p, (c.sealWith k n p).length = p.length + TAG_LEN)
    (dek base head plain : Bytes) :
    ∀ (k f : Nat),
      let body := ((chunks CHUNK_SIZE plain).mapIdx fun i p =>
        c.sealWith dek (chunkNonce base i) p).flatten
      c.rangeChunks ⟨dek, base⟩ (head ++ body) (head ++ body).length head.length
          (List.range' f k) =
        .ok ((plain.drop (f * CHUNK_SIZE)).take (k * CHUNK_SIZE)) := by
  intro k f body
  have hsize : 0 < CHUNK_SIZE := by decide
  have hblock : 0 < CHUNK_BLOCK := by decide
  have hsealed : chunks CHUNK_BLOCK body = (chunks CHUNK_SIZE plain).mapIdx fun i p =>
      c.sealWith dek (chunkNonce base i) p :=
    chunks_flatten hblock ((blocked_chunks hsize plain).map_grow fun _ _ =>
      hseal _ _ _)
  have hchunks : ∀ i, (chunks CHUNK_BLOCK body)[i]? =
      (chunks CHUNK_SIZE plain)[i]?.map fun p => c.sealWith dek (chunkNonce base i) p := by
    intro i
    rw [hsealed, List.getElem?_mapIdx]
  simp only [getElem?_chunks hblock, getElem?_chunks hsize] at hchunks
  induction k generalizing f with
  | zero =>
      rw [Nat.zero_mul]
      rfl
  | succ k ih =>
      have hf := hchunks f
      rw [List.range'_succ]
      by_cases hlt : f * CHUNK_SIZE < plain.length
      · rw [if_pos hlt, Option.map_some] at hf
        by_cases hoff : f * CHUNK_BLOCK < body.length
        · rw [if_pos hoff, Option.some.injEq] at hf
          have hread : ((head ++ body).drop (head.length + f * CHUNK_BLOCK)).take
              (min ((head ++ body).length - (head.length + f * CHUNK_BLOCK)) CHUNK_BLOCK) =
              (body.drop (f * CHUNK_BLOCK)).take CHUNK_BLOCK := by
            rw [← List.drop_drop, List.drop_left, List.length_append]
            by_cases hle : CHUNK_BLOCK ≤ body.length - f * CHUNK_BLOCK
            · rw [Nat.min_eq_right (by omega)]
            · rw [Nat.min_eq_left (by omega), List.take_of_length_le
                (by rw [List.length_drop]; omega), List.take_of_length_le
                (by rw [List.length_drop]; omega)]
          have hlen : ((body.drop (f * CHUNK_BLOCK)).take CHUNK_BLOCK).length =
              min ((head ++ body).length - (head.length + f * CHUNK_BLOCK)) CHUNK_BLOCK := by
            rw [← hread, List.length_take, List.length_drop]
            omega
          have hih := ih (f + 1)
          unfold rangeChunks
          dsimp only
          rw [if_neg (by rw [List.length_append]; omega), hread, if_neg (by omega), decryptChunk,
            hf, hopen, hih]
          dsimp only [Except.map]
          rw [Nat.succ_mul, Nat.succ_mul, Nat.add_comm (k * CHUNK_SIZE), List.take_add,
            List.drop_drop]
        · rw [if_neg hoff] at hf
          cases hf
      · rw [if_neg hlt, Option.map_none] at hf
        have hoff : ¬ f * CHUNK_BLOCK < body.length := by
          intro hoff
          rw [if_pos hoff] at hf
          cases hf
        unfold rangeChunks
        dsimp only
        rw [if_pos (by rw [List.length_append]; omega), List.drop_eq_nil_of_le (by omega),
          List.take_nil]

/-- The range cut out of the chunks it touches is the range of the whole. -/
theorem rangeSlice_chunks {plain : Bytes} {start last : Nat} (hle : start ≤ last)
    (hlast : last < plain.length) :
    rangeSlice ((plain.drop (start / CHUNK_SIZE * CHUNK_SIZE)).take
        ((last / CHUNK_SIZE + 1 - start / CHUNK_SIZE) * CHUNK_SIZE))
      (start - start / CHUNK_SIZE * CHUNK_SIZE) (last - start + 1) =
      (plain.drop start).take (last - start + 1) := by
  have hpos : 0 < CHUNK_SIZE := by decide
  have hstart := Nat.div_mul_le_self start CHUNK_SIZE
  have hend : last < (last / CHUNK_SIZE + 1) * CHUNK_SIZE := by
    rw [Nat.succ_mul]
    have := Nat.lt_div_mul_add hpos (a := last)
    omega
  have hdiv : start / CHUNK_SIZE ≤ last / CHUNK_SIZE := Nat.div_le_div_right hle
  have hroom : (last / CHUNK_SIZE + 1 - start / CHUNK_SIZE) * CHUNK_SIZE =
      (last / CHUNK_SIZE + 1) * CHUNK_SIZE - start / CHUNK_SIZE * CHUNK_SIZE :=
    Nat.sub_mul ..
  generalize start / CHUNK_SIZE * CHUNK_SIZE = a at *
  generalize (last / CHUNK_SIZE + 1 - start / CHUNK_SIZE) * CHUNK_SIZE = m at *
  have hlen : ((plain.drop a).take m).length = min m (plain.length - a) := by
    rw [List.length_take, List.length_drop]
  have hmin : min (start - a + (last - start + 1)) ((plain.drop a).take m).length =
      start - a + (last - start + 1) := by
    rw [hlen]
    omega
  unfold rangeSlice
  dsimp only
  rw [hmin, if_pos (by omega), Nat.add_sub_cancel_left, List.drop_take, List.drop_drop,
    List.take_take, Nat.min_eq_left (by omega)]
  congr 2
  omega

/-- A container of some plaintext: its header names a key that unwraps, and its chunks are
sealed with that key. -/
def Contains (c : Crypto) (raw plain : Bytes) : Prop :=
  ∃ dek w base, c.unwrapDek w = some dek ∧ w.bytes.length < 65536 ∧
    base.length = BASE_NONCE_LEN ∧
    raw = header w base ++ ((chunks CHUNK_SIZE plain).mapIdx fun i p =>
      c.sealWith dek (chunkNonce base i) p).flatten

section

variable {c : Crypto} {raw plain : Bytes}

theorem Contains.decrypting (h : c.Contains raw plain)
    (hopen : ∀ k n p, c.openWith k n (c.sealWith k n p) = some p)
    (hseal : ∀ k n p, (c.sealWith k n p).length = p.length + TAG_LEN) :
    c.decryptingReader raw = some plain := by
  obtain ⟨dek, w, base, hw, hlt, hbase, rfl⟩ := h
  have hpos : 0 < CHUNK_SIZE := by decide
  have hblocked : Blocked (CHUNK_SIZE + TAG_LEN) ((chunks CHUNK_SIZE plain).mapIdx fun i p =>
      c.sealWith dek (chunkNonce base i) p) :=
    (blocked_chunks hpos plain).map_grow fun _ _ => hseal _ _ _
  have hstream := streamChunks_sealed hopen dek base (chunks CHUNK_SIZE plain) 0
  simp only [Nat.zero_add] at hstream
  rw [decryptingReader, openStreamHeader_wrapped hw hlt hbase]
  dsimp only
  rw [chunks_flatten (by decide : 0 < CHUNK_BLOCK) hblocked, hstream, flatten_chunks hpos]

/-- A range read out of a container is the range of its plaintext. -/
theorem Contains.readRange (h : c.Contains raw plain)
    (hopen : ∀ k n p, c.openWith k n (c.sealWith k n p) = some p)
    (hseal : ∀ k n p, (c.sealWith k n p).length = p.length + TAG_LEN) {start last : Nat}
    (hle : start ≤ last) (hlast : last < plain.length) :
    c.readRange raw raw.length ⟨start, last, last - start + 1⟩ =
      .ok ((plain.drop start).take (last - start + 1)) := by
  obtain ⟨dek, w, base, hw, hlt, hbase, rfl⟩ := h
  unfold Crypto.readRange
  rw [readHeader_header hlt hbase]
  dsimp only
  rw [openCipher_header hw hlt hbase]
  dsimp only
  have hloop := rangeChunks_sealed hopen hseal dek base (header w base) plain
    (last / CHUNK_SIZE + 1 - start / CHUNK_SIZE) (start / CHUNK_SIZE)
  dsimp only at hloop
  rw [hloop]
  exact congrArg Except.ok (rangeSlice_chunks hle hlast)

end

end Crypto

/-! ## The bounds of a range -/

/-- The bytes of a body from `start`, up to and with the one at `end?` where there is one. -/
def sliceOf (plain : Bytes) (start : Nat) (end? : Option Nat) : Bytes :=
  match end? with
  | none => plain.drop start
  | some e => (plain.drop start).take (e + 1 - start)

/-- Of a range that starts in a body, what the stores compute from its size. -/
theorem byteRange_inside {plain : Bytes} {start : Nat} {end? : Option Nat}
    (hstart : start < plain.length) (hend : ∀ e, end? = some e → start ≤ e) :
    ∃ last, start ≤ last ∧ last < plain.length ∧
      byteRange plain.length start end? = ⟨start, last, last - start + 1⟩ ∧
      (plain.drop start).take (last - start + 1) = sliceOf plain start end? := by
  cases end? with
  | none =>
      refine ⟨plain.length - 1, by omega, by omega, ?_, ?_⟩
      · simp only [byteRange, Option.map_none, Option.getD_none]
        rw [Nat.min_eq_left (by omega), if_neg (by omega)]
      · rw [sliceOf, List.take_of_length_le (by rw [List.length_drop]; omega)]
  | some e =>
      have he := hend e rfl
      refine ⟨min e (plain.length - 1), by omega, by omega, ?_, ?_⟩
      · simp only [byteRange, Option.map_some, Option.getD_some]
        rw [Nat.min_eq_left (by omega : start ≤ plain.length), if_neg (by omega)]
      · rw [sliceOf]
        by_cases hle : e ≤ plain.length - 1
        · rw [Nat.min_eq_left hle]
          congr 1
          omega
        · rw [Nat.min_eq_right (by omega), List.take_of_length_le
            (by rw [List.length_drop]; omega), List.take_of_length_le
            (by rw [List.length_drop]; omega)]

theorem byteRange_whole (size : Nat) : (byteRange size 0 none).len = size := by
  simp only [byteRange, Option.map_none, Option.getD_none, Nat.zero_min]
  split <;> omega

end Kerplace
