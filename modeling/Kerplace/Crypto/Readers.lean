/-
# `Kerplace.Crypto.Readers` — the container, read and written piece by piece

The streaming loops take what their reader has ready, a piece at a time, until a
buffer is full.  Where the pieces are cut makes no difference to them: the loop
over a reader is the loop over its bytes, which `Kerplace.Crypto.Container` is
about.  Beside it stand the other two ways into a container, a whole one in
memory and one chunk by its number, and the result that all of them agree.
-/
import Kerplace.Crypto.Container
import Mathlib.Data.List.Nodup

namespace Kerplace

/-- A reader: the pieces it delivers, none of them empty, and whether it then fails
instead of ending. -/
structure Reader where
  pieces : List Bytes
  nonempty : ∀ p ∈ pieces, p ≠ []
  err : Bool

namespace Reader

/-- The bytes of a reader, taken together. -/
def bytes (r : Reader) : Bytes := r.pieces.flatten

/-- A reader as the body it delivers. -/
def body (r : Reader) : Body := ⟨r.bytes, r.err⟩

/-- Read until `room` bytes are there or nothing comes any more: those bytes, and what
the reader has left. -/
def fill : Nat → List Bytes → Bytes × List Bytes
  | _, [] => ([], [])
  | room, p :: ps =>
      if p.length ≤ room then
        let r := fill (room - p.length) ps
        (p ++ r.1, r.2)
      else (p.take room, p.drop room :: ps)

/-- A buffer is filled with the bytes that come next. -/
theorem fill_eq (ps : List Bytes) : ∀ room, (fill room ps).1 = ps.flatten.take room ∧
    (fill room ps).2.flatten = ps.flatten.drop room := by
  induction ps with
  | nil => simp [fill]
  | cons p ps ih =>
      intro room
      rw [fill]
      split
      · rename_i hle
        obtain ⟨hbuf, hleft⟩ := ih (room - p.length)
        constructor
        · show p ++ (fill (room - p.length) ps).1 = _
          rw [List.flatten_cons, List.take_append, List.take_of_length_le hle, hbuf]
        · show (fill (room - p.length) ps).2.flatten = _
          rw [List.flatten_cons, List.drop_append, List.drop_of_length_le hle, hleft,
            List.nil_append]
      · rename_i hlt
        constructor
        · rw [List.flatten_cons, List.take_append_of_le_length (by omega)]
        · rw [List.flatten_cons, List.flatten_cons, List.drop_append_of_le_length (by omega)]

theorem fill_fst (room : Nat) (ps : List Bytes) : (fill room ps).1 = ps.flatten.take room :=
  (fill_eq ps room).1

theorem fill_snd (room : Nat) (ps : List Bytes) :
    (fill room ps).2.flatten = ps.flatten.drop room :=
  (fill_eq ps room).2

end Reader

namespace Crypto

open Reader

/-! ## Writing -/

/-- The loop of `encrypting_reader`: the nonces and chunks it seals.  A read that fails
ends it, and the chunk being filled is lost. -/
def sealLoop (baseNonce : Bytes) (err : Bool) : Nat → Nat → List Bytes →
    List (Bytes × Bytes)
  | 0, _, _ => []
  | fuel + 1, counter, ps =>
      let r := fill CHUNK_SIZE ps
      if r.1.length < CHUNK_SIZE && err then []
      else if r.1 = [] then []
      else if r.1.length < CHUNK_SIZE then [(chunkNonce baseNonce counter, r.1)]
      else (chunkNonce baseNonce counter, r.1) :: sealLoop baseNonce err fuel (counter + 1) r.2

/-- What `encrypting_reader` seals of a reader. -/
def sealCalls (env : CallEnv) (r : Reader) : List (Bytes × Bytes) :=
  sealLoop env.baseNonce.bytes r.err (r.bytes.length + 1) 0 r.pieces

/-- The blocks that seal calls make. -/
def blocksOf (c : Crypto) (dek : Bytes) (calls : List (Bytes × Bytes)) : List Bytes :=
  calls.map fun call => c.sealWith dek call.1 call.2

/-- `encrypting_reader`: the container, or nothing when no key could be minted. -/
def encryptingFrom (c : Crypto) (env : CallEnv) (r : Reader) : Option Bytes :=
  match c.newWrappedDek env.keyRand with
  | none => none
  | some (dek, w) =>
      some (header w env.baseNonce.bytes ++ (blocksOf c dek (sealCalls env r)).flatten)

/-- The calls that seal a list of chunks, from a counter on. -/
def callsFor (baseNonce : Bytes) (counter : Nat) (ps : List Bytes) : List (Bytes × Bytes) :=
  ps.mapIdx fun i p => (chunkNonce baseNonce (counter + i), p)

theorem callsFor_cons (baseNonce : Bytes) (counter : Nat) (p : Bytes) (ps : List Bytes) :
    callsFor baseNonce counter (p :: ps) =
      (chunkNonce baseNonce counter, p) :: callsFor baseNonce (counter + 1) ps := by
  simp only [callsFor, List.mapIdx_cons, Nat.add_zero]
  congr 2
  funext i q
  congr 2
  omega

theorem sealable_nil_of_short {b : Body} (hshort : b.data.length < CHUNK_SIZE)
    (herr : b.err = true) : sealable b = [] := by
  rw [sealable, if_pos herr, Nat.div_eq_of_lt hshort, Nat.zero_mul, List.take_zero]

theorem sealable_full {b : Body} (hfull : CHUNK_SIZE ≤ b.data.length) :
    sealable b = b.data.take CHUNK_SIZE ++ sealable ⟨b.data.drop CHUNK_SIZE, b.err⟩ := by
  unfold sealable
  dsimp only
  split
  · have hpos : 0 < CHUNK_SIZE := by decide
    have hdiv : b.data.length / CHUNK_SIZE = (b.data.length - CHUNK_SIZE) / CHUNK_SIZE + 1 := by
      rw [Nat.div_eq_sub_div hpos hfull]
    rw [List.length_drop, hdiv, Nat.succ_mul, Nat.add_comm _ CHUNK_SIZE, List.take_add]
  · exact (List.take_append_drop _ _).symm

/-- The loop seals the chunks of what reaches it, however that was delivered. -/
theorem sealLoop_eq (baseNonce : Bytes) (err : Bool) (fuel : Nat) : ∀ (counter : Nat)
    (ps : List Bytes), ps.flatten.length < fuel →
    sealLoop baseNonce err fuel counter ps =
      callsFor baseNonce counter (chunks CHUNK_SIZE (sealable ⟨ps.flatten, err⟩)) := by
  have hpos : 0 < CHUNK_SIZE := by decide
  induction fuel with
  | zero => exact fun _ ps h => absurd h (Nat.not_lt_zero _)
  | succ fuel ih =>
      intro counter ps hfuel
      simp only [sealLoop, fill_fst, List.length_take, Bool.and_eq_true, decide_eq_true_eq]
      by_cases hfull : CHUNK_SIZE ≤ ps.flatten.length
      · -- The buffer was filled: one chunk, and the loop goes on.
        have hne : ps.flatten.take CHUNK_SIZE ≠ [] := by
          rw [ne_eq, List.take_eq_nil_iff, not_or]
          exact ⟨by omega, List.length_pos_iff.1 (by omega)⟩
        have hrest : (fill CHUNK_SIZE ps).2.flatten.length < fuel := by
          rw [fill_snd, List.length_drop]
          omega
        rw [Nat.min_eq_left hfull, if_neg (by omega), if_neg hne, if_neg (by omega),
          ih _ _ hrest, fill_snd, sealable_full (b := ⟨ps.flatten, err⟩) hfull,
          chunks_of_ne hpos fun h0 => hne (List.append_eq_nil_iff.1 h0).1]
        have hlen : (ps.flatten.take CHUNK_SIZE).length = CHUNK_SIZE := by
          rw [List.length_take]
          omega
        rw [List.take_left' hlen, List.drop_left' hlen, callsFor_cons]
      · rw [Nat.min_eq_right (by omega), List.take_of_length_le (by omega)]
        cases err with
        | true =>
            rw [if_pos ⟨by omega, rfl⟩, sealable_nil_of_short (by simpa using hfull) rfl]
            rfl
        | false =>
            rw [if_neg (by simp), sealable_clean rfl]
            split
            · rename_i hnil
              rw [hnil]
              rfl
            · rename_i hne
              rw [if_pos (by omega), chunks_of_ne hpos hne, List.take_of_length_le (by omega),
                List.drop_of_length_le (by omega), chunks_nil]
              rfl

theorem sealCalls_eq (env : CallEnv) (r : Reader) :
    sealCalls env r = callsFor env.baseNonce.bytes 0 (chunks CHUNK_SIZE (sealable r.body)) :=
  sealLoop_eq _ _ _ _ _ (Nat.lt_succ_self _)

theorem blocksOf_callsFor (c : Crypto) (dek baseNonce : Bytes) (counter : Nat)
    (ps : List Bytes) :
    blocksOf c dek (callsFor baseNonce counter ps) =
      ps.mapIdx fun i p => c.sealWith dek (chunkNonce baseNonce (counter + i)) p := by
  refine List.ext_getElem? fun i => ?_
  simp only [blocksOf, callsFor, List.getElem?_map, List.getElem?_mapIdx, Option.map_map]
  rfl

/-! ## Reading -/

/-- `open_stream_header`: both reads must be filled. -/
def openHeaderFrom (c : Crypto) (ps : List Bytes) : Option (Bytes × Bytes × List Bytes) :=
  let prefix8 := fill 8 ps
  if prefix8.1.length < 8 ∨ prefix8.1.take 4 ≠ MAGIC then none
  else
    let alg := prefix8.1.getD 5 0
    let wrappedLen := 256 * (prefix8.1.getD 6 0).toNat + (prefix8.1.getD 7 0).toNat
    let rest := fill (wrappedLen + BASE_NONCE_LEN) prefix8.2
    if rest.1.length < wrappedLen + BASE_NONCE_LEN then none
    else
      match c.unwrapDek ⟨alg, rest.1.take wrappedLen⟩ with
      | none => none
      | some dek => some (dek, rest.1.drop wrappedLen, rest.2)

/-- `stream_chunks`: a read or a chunk that fails ends it. -/
def openLoop (c : Crypto) (dek baseNonce : Bytes) (err : Bool) : Nat → Nat → List Bytes →
    Bytes
  | 0, _, _ => []
  | fuel + 1, counter, ps =>
      let r := fill CHUNK_BLOCK ps
      if r.1.length < CHUNK_BLOCK && err then []
      else if r.1 = [] then []
      else
        match c.openWith dek (chunkNonce baseNonce counter) r.1 with
        | none => []
        | some p =>
            if r.1.length < CHUNK_BLOCK then p
            else p ++ openLoop c dek baseNonce err fuel (counter + 1) r.2

/-- `decrypting_reader_checked`. -/
def decryptingFrom (c : Crypto) (r : Reader) : Option Bytes :=
  match c.openHeaderFrom r.pieces with
  | none => none
  | some (dek, baseNonce, ps) =>
      some (c.openLoop dek baseNonce r.err (ps.flatten.length + 1) 0 ps)

/-- `decrypt_object_with_ctx`'s loop: a chunk that fails is an error. -/
def openAll (c : Crypto) (dek baseNonce : Bytes) : Nat → List Bytes → Option Bytes
  | _, [] => some []
  | counter, b :: bs =>
      match c.openWith dek (chunkNonce baseNonce counter) b with
      | none => none
      | some p => (openAll c dek baseNonce (counter + 1) bs).map (p ++ ·)

/-- `decrypt_object_with_ctx`. -/
def decryptObjectWithCtx (c : Crypto) (data : Bytes) : Option Bytes :=
  if data.length < 8 ∨ data.take 4 ≠ MAGIC then none
  else
    let alg := data.getD 5 0
    let wrappedLen := 256 * (data.getD 6 0).toNat + (data.getD 7 0).toNat
    if data.length < 8 + wrappedLen + BASE_NONCE_LEN then none
    else
      let wrapped := (data.drop 8).take wrappedLen
      let baseNonce := (data.drop (8 + wrappedLen)).take BASE_NONCE_LEN
      match c.unwrapDek ⟨alg, wrapped⟩ with
      | none => none
      | some dek =>
          c.openAll dek baseNonce 0
            (chunks CHUNK_BLOCK (data.drop (8 + wrappedLen + BASE_NONCE_LEN)))

/-- `ObjectCipher`. -/
structure ObjectCipher where
  cipher : Bytes
  baseNonce : Bytes

/-- `ObjectCipher::open`: the cipher and the length of the header. -/
def openCipher (c : Crypto) (head : Bytes) : Option (ObjectCipher × Nat) :=
  if head.length < 8 ∨ head.take 4 ≠ MAGIC then none
  else
    let alg := head.getD 5 0
    let wrappedLen := 256 * (head.getD 6 0).toNat + (head.getD 7 0).toNat
    let headerLen := 8 + wrappedLen + BASE_NONCE_LEN
    if head.length < headerLen then none
    else
      let wrapped := (head.drop 8).take wrappedLen
      let baseNonce := (head.take headerLen).drop (8 + wrappedLen)
      match c.unwrapDek ⟨alg, wrapped⟩ with
      | none => none
      | some dek => some (⟨dek, baseNonce⟩, headerLen)

/-- `ObjectCipher::decrypt_chunk`. -/
def decryptChunk (c : Crypto) (o : ObjectCipher) (counter : Nat) (block : Bytes) :
    Option Bytes :=
  c.openWith o.cipher (chunkNonce o.baseNonce counter) block

/-! ## However the bytes come -/

/-- Reading a header from pieces is reading it from their bytes. -/
theorem openHeaderFrom_eq (c : Crypto) (ps : List Bytes) :
    (c.openHeaderFrom ps).map (fun t => (t.1, t.2.1, t.2.2.flatten)) =
      c.openStreamHeader ps.flatten := by
  have hlen : (ps.flatten.take 8).length < 8 ↔ ps.flatten.length < 8 := by
    rw [List.length_take]
    omega
  unfold openHeaderFrom openStreamHeader
  simp only [fill_fst, fill_snd, hlen, List.take_take, Nat.reduceLeDiff, inf_of_le_left]
  split
  · rfl
  · rename_i h
    have hget : ∀ i, i < 8 → (ps.flatten.take 8).getD i 0 = ps.flatten.getD i 0 := by
      intro i hi
      rw [List.getD_eq_getElem?_getD, List.getD_eq_getElem?_getD, List.getElem?_take_of_lt hi]
    rw [hget 5 (by omega), hget 6 (by omega), hget 7 (by omega)]
    generalize 256 * (ps.flatten.getD 6 0).toNat + (ps.flatten.getD 7 0).toNat = len
    rw [Nat.min_eq_left (Nat.le_add_right len BASE_NONCE_LEN)]
    split
    · rfl
    · cases c.unwrapDek ⟨ps.flatten.getD 5 0, (ps.flatten.drop 8).take len⟩ with
      | none => rfl
      | some dek =>
          simp only [Option.map_some, fill_snd, List.drop_drop, Nat.add_assoc]

/-- Opening chunks from pieces is opening the chunks of their bytes. -/
theorem openLoop_eq (c : Crypto) (dek baseNonce : Bytes) (fuel : Nat) : ∀ (counter : Nat)
    (ps : List Bytes), ps.flatten.length < fuel →
    c.openLoop dek baseNonce false fuel counter ps =
      c.streamChunks dek baseNonce counter (chunks CHUNK_BLOCK ps.flatten) := by
  have hpos : 0 < CHUNK_BLOCK := by decide
  induction fuel with
  | zero => exact fun _ ps h => absurd h (Nat.not_lt_zero _)
  | succ fuel ih =>
      intro counter ps hfuel
      simp only [openLoop, fill_fst, Bool.and_false, Bool.false_eq_true, if_false]
      by_cases hnil : ps.flatten = []
      · rw [hnil, List.take_nil, if_pos rfl]
        rfl
      · have hne : ps.flatten.take CHUNK_BLOCK ≠ [] := by
          rw [ne_eq, List.take_eq_nil_iff, not_or]
          exact ⟨by omega, hnil⟩
        rw [if_neg hne, chunks_of_ne hpos hnil, streamChunks]
        cases c.openWith dek (chunkNonce baseNonce counter) (ps.flatten.take CHUNK_BLOCK) with
        | none => rfl
        | some p =>
          dsimp only
          have hrest : (fill CHUNK_BLOCK ps).2.flatten.length < fuel := by
            have := List.length_pos_iff.2 hnil
            rw [fill_snd, List.length_drop]
            omega
          rw [ih _ _ hrest, fill_snd]
          split
          · rename_i hshort
            rw [List.length_take] at hshort
            rw [List.drop_of_length_le (by omega), chunks_nil, streamChunks, List.append_nil]
          · rfl

theorem decryptingFrom_eq (c : Crypto) {r : Reader} (hr : r.err = false) :
    c.decryptingFrom r = c.decryptingReader r.bytes := by
  have hhead := openHeaderFrom_eq c r.pieces
  unfold decryptingFrom decryptingReader Reader.bytes
  rw [← hhead]
  cases c.openHeaderFrom r.pieces with
  | none => rfl
  | some t =>
      simp only [Option.map_some, hr]
      rw [openLoop_eq c _ _ _ _ _ (Nat.lt_succ_self _)]

/-- The three ways in read one header. -/
theorem decryptObjectWithCtx_eq (c : Crypto) (data : Bytes) :
    c.decryptObjectWithCtx data =
      (c.openStreamHeader data).bind fun t =>
        c.openAll t.1 t.2.1 0 (chunks CHUNK_BLOCK t.2.2) := by
  unfold decryptObjectWithCtx openStreamHeader
  split
  · rfl
  · rename_i h
    simp only [not_or, Nat.not_lt] at h
    dsimp only
    generalize 256 * (data.getD 6 0).toNat + (data.getD 7 0).toNat = len
    have hlen : ((data.drop 8).take (len + BASE_NONCE_LEN)).length < len + BASE_NONCE_LEN ↔
        data.length < 8 + len + BASE_NONCE_LEN := by
      rw [List.length_take, List.length_drop]
      omega
    rw [List.take_take, Nat.min_eq_left (Nat.le_add_right _ _)]
    simp only [hlen]
    split
    · rfl
    · cases c.unwrapDek ⟨data.getD 5 0, (data.drop 8).take len⟩ with
      | none => rfl
      | some dek =>
          simp only [Option.bind_some, List.drop_take, List.drop_drop, Nat.add_sub_cancel_left]

theorem openCipher_eq (c : Crypto) (head : Bytes) :
    c.openCipher head =
      (c.openStreamHeader head).map fun t =>
        (⟨t.1, t.2.1⟩, head.length - t.2.2.length) := by
  unfold openCipher openStreamHeader
  split
  · rfl
  · rename_i h
    dsimp only
    generalize 256 * (head.getD 6 0).toNat + (head.getD 7 0).toNat = len
    have hlen : ((head.drop 8).take (len + BASE_NONCE_LEN)).length < len + BASE_NONCE_LEN ↔
        head.length < 8 + len + BASE_NONCE_LEN := by
      rw [List.length_take, List.length_drop]
      omega
    rw [List.take_take, Nat.min_eq_left (Nat.le_add_right _ _)]
    simp only [hlen]
    split
    · rfl
    · rename_i hlong
      cases c.unwrapDek ⟨head.getD 5 0, (head.drop 8).take len⟩ with
      | none => rfl
      | some dek =>
          have hrest : head.length - (head.length - (8 + len + BASE_NONCE_LEN)) =
              8 + len + BASE_NONCE_LEN := by omega
          simp only [Option.map_some, List.drop_take, List.drop_drop, List.length_drop, hrest,
            Nat.add_sub_cancel_left]

/-! ## Round trip -/

/-- What a provider owes a container: what it minted it unwraps, and its blobs fit the
header's length field. -/
structure Wraps (c : Crypto) : Prop where
  unwrap_new : ∀ r dek w, c.newWrappedDek r = some (dek, w) → c.unwrapDek w = some dek
  length_lt : ∀ r dek w, c.newWrappedDek r = some (dek, w) → w.bytes.length < 65536

/-- A provider and a cipher that undo what they do. -/
structure Correct (c : Crypto) : Prop extends c.Wraps where
  open_seal : ∀ k n p, c.openWith k n (c.sealWith k n p) = some p
  seal_length : ∀ k n p, (c.sealWith k n p).length = p.length + TAG_LEN

theorem Lawful.correct {c : Crypto} (hc : c.Lawful) : c.Correct where
  unwrap_new := hc.unwrap_new
  length_lt r dek w h := hc.new_length r dek w h ▸ hc.length_lt
  open_seal := hc.open_seal
  seal_length := hc.seal_length

theorem chunkNonce_inj {base : Bytes} {i j : Nat} (hi : i < 2 ^ 32) (hj : j < 2 ^ 32)
    (h : chunkNonce base i = chunkNonce base j) : i = j := by
  have hbe := List.append_cancel_left h
  simp only [u32BE, List.cons.injEq, and_true] at hbe
  obtain ⟨h₃, h₂, h₁, h₀⟩ := hbe
  have h₃ := congrArg UInt8.toNat h₃
  have h₂ := congrArg UInt8.toNat h₂
  have h₁ := congrArg UInt8.toNat h₁
  have h₀ := congrArg UInt8.toNat h₀
  simp only [UInt8.toNat_ofNat'] at h₃ h₂ h₁ h₀
  omega

theorem nodup_callsFor {base : Bytes} {ps : List Bytes} (h : ps.length < 2 ^ 32) :
    ((callsFor base 0 ps).map Prod.fst).Nodup := by
  have hmap : (callsFor base 0 ps).map Prod.fst = (List.range ps.length).map (chunkNonce base) := by
    refine List.ext_getElem? fun i => ?_
    by_cases hi : i < ps.length
    · simp [callsFor, List.getElem?_range hi, List.getElem?_eq_getElem hi]
    · simp [callsFor, hi]
  rw [hmap]
  refine List.Nodup.map_on (fun i hi j hj hij => ?_) List.nodup_range
  rw [List.mem_range] at hi hj
  exact chunkNonce_inj (by omega) (by omega) hij

theorem openAll_sealed {c : Crypto}
    (hopen : ∀ k n p, c.openWith k n (c.sealWith k n p) = some p) (dek base : Bytes)
    (ps : List Bytes) : ∀ counter,
    c.openAll dek base counter (blocksOf c dek (callsFor base counter ps)) =
      some ps.flatten := by
  induction ps with
  | nil => exact fun _ => rfl
  | cons p ps ih =>
      intro counter
      rw [callsFor_cons]
      show (match c.openWith dek (chunkNonce base counter)
          (c.sealWith dek (chunkNonce base counter) p) with
        | none => none
        | some q => (c.openAll dek base (counter + 1)
            (blocksOf c dek (callsFor base (counter + 1) ps))).map (q ++ ·)) = _
      rw [hopen]
      simp only [ih, Option.map_some, List.flatten_cons]

theorem encryptingFrom_some {c : Crypto} {env : CallEnv} {r : Reader} {container : Bytes}
    (h : c.encryptingFrom env r = some container) :
    ∃ dek w, c.newWrappedDek env.keyRand = some (dek, w) ∧
      container = header w env.baseNonce.bytes ++
        (blocksOf c dek (callsFor env.baseNonce.bytes 0
          (chunks CHUNK_SIZE (sealable r.body)))).flatten := by
  unfold encryptingFrom at h
  split at h
  · cases h
  · rename_i dek w hw
    exact ⟨dek, w, hw, by rw [← sealCalls_eq]; exact (Option.some.inj h).symm⟩

theorem chunks_blocksOf {c : Crypto}
    (hlen : ∀ k n p, (c.sealWith k n p).length = p.length + TAG_LEN) (dek base plain : Bytes) :
    chunks CHUNK_BLOCK (blocksOf c dek (callsFor base 0 (chunks CHUNK_SIZE plain))).flatten =
      blocksOf c dek (callsFor base 0 (chunks CHUNK_SIZE plain)) := by
  rw [blocksOf_callsFor]
  exact chunks_flatten (by decide)
    ((blocked_chunks (by decide) plain).map_grow fun _ _ => hlen _ _ _)

end Crypto

open Crypto in
/-- The container round trip: whatever way the plaintext came in, the container is read
back by the streaming reader, however that gets it, by the decryption in memory and
chunk by chunk; its length gives the length of the plaintext; and its chunks were sealed
under nonces of their own. -/
theorem container_roundTrip {c : Crypto} (hc : c.Correct) (env : CallEnv) (r : Reader)
    (hr : r.err = false) (hcount : (chunks CHUNK_SIZE r.bytes).length < 2 ^ 32)
    {container : Bytes} (h : c.encryptingFrom env r = some container) :
    (∀ q : Reader, q.err = false → q.bytes = container → c.decryptingFrom q = some r.bytes) ∧
    c.decryptObjectWithCtx container = some r.bytes ∧
    (∃ o headerLen,
      (∀ m, headerLen ≤ m → c.openCipher (container.take m) = some (o, headerLen)) ∧
      ((chunks CHUNK_BLOCK (container.drop headerLen)).mapIdx fun i b => c.decryptChunk o i b) =
        (chunks CHUNK_SIZE r.bytes).map some ∧
      plaintextLen container.length headerLen = r.bytes.length) ∧
    ((sealCalls env r).map Prod.fst).Nodup := by
  obtain ⟨dek, w, hw, rfl⟩ := encryptingFrom_some h
  have hplain : sealable r.body = r.bytes := sealable_clean hr
  have hhead : ∀ rest, c.openStreamHeader (header w env.baseNonce.bytes ++ rest) =
      some (dek, env.baseNonce.bytes, rest) :=
    openStreamHeader_wrapped (hc.unwrap_new _ _ _ hw) (hc.length_lt _ _ _ hw)
      env.baseNonce.length_eq
  have hchunks := chunks_blocksOf hc.seal_length dek env.baseNonce.bytes r.bytes
  rw [hplain]
  refine ⟨fun q hq hbytes => ?_, ?_,
    ⟨⟨dek, env.baseNonce.bytes⟩, (header w env.baseNonce.bytes).length, ?_, ?_, ?_⟩, ?_⟩
  · rw [decryptingFrom_eq c hq, hbytes, decryptingReader, hhead]
    have hstream := streamChunks_sealed hc.open_seal dek env.baseNonce.bytes
      (chunks CHUNK_SIZE r.bytes) 0
    rw [← blocksOf_callsFor] at hstream
    simp only [hchunks, hstream, flatten_chunks (by decide : 0 < CHUNK_SIZE)]
  · rw [decryptObjectWithCtx_eq, hhead, Option.bind_some, hchunks, openAll_sealed hc.open_seal,
      flatten_chunks (by decide)]
  · intro m hm
    rw [List.take_append, List.take_of_length_le hm, openCipher_eq, hhead, Option.map_some,
      List.length_append, Nat.add_sub_cancel]
  · rw [List.drop_left, hchunks, blocksOf_callsFor, List.mapIdx_mapIdx]
    refine List.ext_getElem? fun i => ?_
    simp only [List.getElem?_mapIdx, List.getElem?_map, Function.comp_def, decryptChunk,
      Nat.zero_add, hc.open_seal]
  · have hlen := length_sealed hc.seal_length dek (chunkNonce env.baseNonce.bytes)
      (chunks CHUNK_SIZE r.bytes)
    rw [flatten_chunks (by decide), length_chunks (by decide)] at hlen
    have hblocks := blocksOf_callsFor c dek env.baseNonce.bytes 0 (chunks CHUNK_SIZE r.bytes)
    simp only [Nat.zero_add] at hblocks
    rw [List.length_append, hblocks, hlen]
    exact plaintextLen_grown _ _
  · rw [sealCalls_eq, hplain]
    exact nodup_callsFor hcount

/-- Three bytes that come in two pieces. -/
def twoPieces : Reader where
  pieces := [[1], [2, 3]]
  nonempty := by decide
  err := false

theorem container_roundTrip_twoPieces : ∃ container,
    Crypto.tagged.encryptingFrom (callAt 'a' 0 rfl) twoPieces = some container ∧
      Crypto.tagged.decryptObjectWithCtx container = some [1, 2, 3] :=
  ⟨_, rfl, (container_roundTrip Crypto.tagged_lawful.correct (callAt 'a' 0 rfl) twoPieces rfl
    (by decide +kernel) rfl).2.1⟩

end Kerplace
