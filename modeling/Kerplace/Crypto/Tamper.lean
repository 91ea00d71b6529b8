/-
# `Kerplace.Crypto.Tamper` — what a changed container is read back as

The cipher is taken as ideal: under the container's key, and under no other, it
opens the blocks that were sealed in making the container, each under its nonce,
and nothing else.  So what opens of a changed container is a run of its own
chunks from the first on, and the question is where that run ends.  Nothing in
the container says how many chunks there are.  The streaming reader ends with
the run, wherever that is, as it ends after the last chunk; the decryption in
memory refuses a chunk that fails, but not a chunk that is missing.
-/
import Kerplace.Crypto.Readers

namespace Kerplace

namespace Crypto

/-- An ideal cipher, of which only `calls` were made, under one key. -/
structure Ideal (c : Crypto) (dek : Bytes) (calls : List (Bytes × Bytes)) : Prop where
  open_iff : ∀ k n b p, c.openWith k n b = some p ↔
    k = dek ∧ (n, p) ∈ calls ∧ b = c.sealWith dek n p
  seal_length : ∀ k n p, (c.sealWith k n p).length = p.length + TAG_LEN

/-- Read as a container, `raw` gives an error or `plain`, in memory and by the streaming
reader, however that gets it. -/
def Detects (c : Crypto) (plain raw : Bytes) : Prop :=
  (c.decryptObjectWithCtx raw = none ∨ c.decryptObjectWithCtx raw = some plain) ∧
    ∀ q : Reader, q.err = false → q.bytes = raw →
      c.decryptingFrom q = none ∨ c.decryptingFrom q = some plain

/-- No key comes out of the header of `raw`; or after it come all the chunks of the
container, under its key and nonce if there are any, and a chunk that follows them does
not open. -/
def Whole (c : Crypto) (container raw : Bytes) : Prop :=
  ∀ key nonce rest key₀ nonce₀ rest₀,
    c.openStreamHeader raw = some (key, nonce, rest) →
    c.openStreamHeader container = some (key₀, nonce₀, rest₀) →
    (rest₀ ≠ [] → key = key₀ ∧ nonce = nonce₀) ∧
      ∃ extra, chunks CHUNK_BLOCK rest = chunks CHUNK_BLOCK rest₀ ++ extra ∧
        ∀ b ∈ extra.head?,
          c.openWith key (chunkNonce nonce (chunks CHUNK_BLOCK rest₀).length) b = none

/-! ## The run of chunks that open -/

/-- The chunks that open, from the first up to one that does not. -/
def opened (c : Crypto) (key nonce : Bytes) : Nat → List Bytes → List Bytes
  | _, [] => []
  | counter, b :: bs =>
      match c.openWith key (chunkNonce nonce counter) b with
      | none => []
      | some p => p :: opened c key nonce (counter + 1) bs

variable {c : Crypto} {key nonce dek base : Bytes} {calls : List (Bytes × Bytes)}

theorem streamChunks_eq_opened (bs : List Bytes) : ∀ counter,
    c.streamChunks key nonce counter bs = (c.opened key nonce counter bs).flatten := by
  induction bs with
  | nil => exact fun _ => rfl
  | cons b bs ih =>
      intro counter
      rw [streamChunks, opened]
      cases c.openWith key (chunkNonce nonce counter) b with
      | none => rfl
      | some p =>
          dsimp only
          rw [ih, List.flatten_cons]

/-- Beyond the run there is nothing, or a block that does not open. -/
theorem opened_append (hopen : ∀ n p, (n, p) ∈ calls → c.openWith key n (c.sealWith dek n p) =
    some p) {extra : List Bytes} (ps : List Bytes) : ∀ counter,
    (∀ call ∈ callsFor nonce counter ps, call ∈ calls) →
    (∀ b ∈ extra.head?, c.openWith key (chunkNonce nonce (counter + ps.length)) b = none) →
    c.opened key nonce counter (blocksOf c dek (callsFor nonce counter ps) ++ extra) = ps ∧
      c.openAll key nonce counter (blocksOf c dek (callsFor nonce counter ps) ++ extra) =
        if extra = [] then some ps.flatten else none := by
  induction ps with
  | nil =>
      intro counter _ hend
      cases extra with
      | nil => exact ⟨rfl, rfl⟩
      | cons b bs =>
          have hb := hend b rfl
          simp only [List.length_nil, Nat.add_zero] at hb
          show c.opened key nonce counter (b :: bs) = [] ∧
            c.openAll key nonce counter (b :: bs) = none
          rw [opened, openAll, hb]
          exact ⟨rfl, rfl⟩
  | cons p ps ih =>
      intro counter hcalls hend
      rw [callsFor_cons] at hcalls ⊢
      have hp := hopen _ _ (hcalls _ (List.mem_cons_self ..))
      obtain ⟨hrun, hall⟩ := ih (counter + 1)
        (fun call hcall => hcalls call (List.mem_cons_of_mem _ hcall))
        (by rw [Nat.add_assoc, Nat.add_comm 1]; exact hend)
      show c.opened key nonce counter (c.sealWith dek (chunkNonce nonce counter) p ::
          (blocksOf c dek (callsFor nonce (counter + 1) ps) ++ extra)) = _ ∧
        c.openAll key nonce counter (c.sealWith dek (chunkNonce nonce counter) p ::
          (blocksOf c dek (callsFor nonce (counter + 1) ps) ++ extra)) = _
      rw [opened, openAll, hp]
      dsimp only
      rw [hrun, hall]
      refine ⟨rfl, ?_⟩
      split <;> rfl

/-- With an ideal cipher the run consists of blocks that were sealed, each under its
nonce, and ends where a block was not. -/
theorem opened_spec (hc : c.Ideal dek calls) (bs : List Bytes) : ∀ counter,
    (∀ call ∈ callsFor nonce counter (c.opened key nonce counter bs), call ∈ calls) ∧
    (c.opened key nonce counter bs ≠ [] → key = dek) ∧
    ∃ extra, bs = blocksOf c dek (callsFor nonce counter (c.opened key nonce counter bs)) ++
        extra ∧
      ∀ b ∈ extra.head?, c.openWith key
        (chunkNonce nonce (counter + (c.opened key nonce counter bs).length)) b = none := by
  induction bs with
  | nil =>
      intro counter
      refine ⟨fun call h => absurd h (List.not_mem_nil), fun h => absurd rfl h, [], rfl, ?_⟩
      intro b hb
      cases hb
  | cons b bs ih =>
      intro counter
      rw [opened]
      cases hb : c.openWith key (chunkNonce nonce counter) b with
      | none =>
          refine ⟨fun call h => absurd h (List.not_mem_nil), fun h => absurd rfl h,
            b :: bs, rfl, ?_⟩
          intro b' hb'
          cases hb'
          exact hb
      | some p =>
          obtain ⟨hkey, hmem, hseal⟩ := (hc.open_iff _ _ _ _).1 hb
          obtain ⟨hcalls, -, extra, hbs, hend⟩ := ih (counter + 1)
          dsimp only
          rw [callsFor_cons]
          refine ⟨?_, fun _ => hkey, extra, ?_, ?_⟩
          · intro call hcall
            rcases List.mem_cons.1 hcall with rfl | hcall
            · exact hmem
            · exact hcalls call hcall
          · show b :: bs = c.sealWith dek (chunkNonce nonce counter) p ::
              (blocksOf c dek (callsFor nonce (counter + 1) _) ++ extra)
            rw [← hbs, ← hseal]
          · rw [List.length_cons, ← Nat.add_assoc, Nat.add_right_comm]
            exact hend

/-- What opens of full blocks are full chunks. -/
theorem blocked_opened (hc : c.Ideal dek calls) (hne : ∀ call ∈ calls, call.2 ≠ [])
    {bs : List Bytes} (hbs : Blocked CHUNK_BLOCK bs) : ∀ counter,
    Blocked CHUNK_SIZE (c.opened key nonce counter bs) := by
  have hlen : ∀ {n b p}, c.openWith key n b = some p → b.length = p.length + TAG_LEN ∧ p ≠ [] := by
    intro n b p h
    obtain ⟨-, hmem, rfl⟩ := (hc.open_iff _ _ _ _).1 h
    exact ⟨hc.seal_length _ _ _, hne _ hmem⟩
  have hblock : CHUNK_BLOCK = CHUNK_SIZE + TAG_LEN := rfl
  induction hbs with
  | nil => exact fun _ => .nil
  | @last b _ hle =>
      intro counter
      rw [opened]
      cases hb : c.openWith key (chunkNonce nonce counter) b with
      | none => exact .nil
      | some p =>
          obtain ⟨hb, hp⟩ := hlen hb
          exact .last hp (by omega)
  | @cons b bs hfull _ ih =>
      intro counter
      rw [opened]
      cases hb : c.openWith key (chunkNonce nonce counter) b with
      | none => exact .nil
      | some p =>
          obtain ⟨hb, hp⟩ := hlen hb
          exact .cons (by omega) (ih _)

/-! ## The headers -/

/-- The nonce of a header has the length of one. -/
theorem length_of_openStreamHeader {raw rest : Bytes}
    (h : c.openStreamHeader raw = some (key, nonce, rest)) : nonce.length = BASE_NONCE_LEN := by
  unfold openStreamHeader at h
  split at h
  · cases h
  · dsimp only at h
    split at h
    · cases h
    · rename_i hlong
      split at h
      · cases h
      · simp only [Option.some.injEq, Prod.mk.injEq] at h
        obtain ⟨-, rfl, -⟩ := h
        rw [List.length_drop]
        simp only [List.length_take] at hlong ⊢
        omega

theorem base_eq_of_chunkNonce {i j : Nat} (hlen : nonce.length = base.length)
    (h : chunkNonce nonce i = chunkNonce base j) : nonce = base :=
  (List.append_inj h hlen).1

theorem mem_callsFor {counter : Nat} {ps : List Bytes} {call : Bytes × Bytes} :
    call ∈ callsFor base counter ps ↔
      ∃ i, ps[i]? = some call.2 ∧ call.1 = chunkNonce base (counter + i) := by
  simp only [callsFor, List.mem_iff_getElem?, List.getElem?_mapIdx, Option.map_eq_some_iff]
  constructor
  · rintro ⟨i, p, hp, rfl⟩
    exact ⟨i, hp, rfl⟩
  · rintro ⟨i, hp, hn⟩
    exact ⟨i, call.2, hp, by rw [← hn]⟩

/-- A reader that has the bytes in one piece. -/
def readerOf (b : Bytes) : Reader where
  pieces := if b = [] then [] else [b]
  nonempty := by
    intro p hp
    split at hp
    · cases hp
    · rename_i hne
      rw [List.mem_singleton.1 hp]
      exact hne
  err := false

theorem bytes_readerOf (b : Bytes) : (readerOf b).bytes = b := by
  by_cases hb : b = []
  · simp [readerOf, Reader.bytes, hb]
  · simp [readerOf, Reader.bytes, hb]

theorem detects_iff {plain raw : Bytes} : c.Detects plain raw ↔
    (c.decryptObjectWithCtx raw = none ∨ c.decryptObjectWithCtx raw = some plain) ∧
      (c.decryptingReader raw = none ∨ c.decryptingReader raw = some plain) := by
  refine and_congr_right fun _ => ⟨fun h => ?_, fun h q hq hraw => ?_⟩
  · have := h (readerOf raw) rfl (bytes_readerOf raw)
    rwa [decryptingFrom_eq c rfl, bytes_readerOf] at this
  · rwa [decryptingFrom_eq c hq, hraw]

/-! ## What is detected -/

/-- The chunks of a plaintext are sealed under the container's key and, where there are
any, its nonce: so if they come first and nothing that opens comes next, that is what is
read. -/
theorem read_whole {plain : Bytes} {bs extra : List Bytes}
    (hc : c.Ideal dek (callsFor base 0 (chunks CHUNK_SIZE plain)))
    (hkey : chunks CHUNK_SIZE plain ≠ [] → key = dek ∧ nonce = base)
    (hbs : bs = blocksOf c dek (callsFor base 0 (chunks CHUNK_SIZE plain)) ++ extra)
    (hend : ∀ b ∈ extra.head?,
      c.openWith key (chunkNonce nonce (chunks CHUNK_SIZE plain).length) b = none) :
    c.streamChunks key nonce 0 bs = plain ∧
      (c.openAll key nonce 0 bs = none ∨ c.openAll key nonce 0 bs = some plain) := by
  have hcalls : callsFor base 0 (chunks CHUNK_SIZE plain) =
      callsFor nonce 0 (chunks CHUNK_SIZE plain) := by
    by_cases hnil : chunks CHUNK_SIZE plain = []
    · rw [hnil]
      rfl
    · rw [(hkey hnil).2]
  have hopen : ∀ n p, (n, p) ∈ callsFor base 0 (chunks CHUNK_SIZE plain) →
      c.openWith key n (c.sealWith dek n p) = some p := by
    intro n p hmem
    refine (hc.open_iff _ _ _ _).2 ⟨(hkey fun hnil => ?_).1, hmem, rfl⟩
    rw [hnil] at hmem
    cases hmem
  obtain ⟨hrun, hall⟩ := opened_append hopen (chunks CHUNK_SIZE plain) 0
    (fun call hcall => hcalls ▸ hcall) (by rw [Nat.zero_add]; exact hend)
  rw [hbs, hcalls]
  constructor
  · rw [streamChunks_eq_opened, hrun, flatten_chunks (by decide)]
  · rw [hall, flatten_chunks (by decide)]
    split
    · exact .inr rfl
    · exact .inl rfl

/-- Conversely, a stream that yields the whole plaintext consumed all its chunks. -/
theorem whole_of_read {plain rest : Bytes}
    (hc : c.Ideal dek (callsFor base 0 (chunks CHUNK_SIZE plain)))
    (hlen : nonce.length = base.length)
    (hread : c.streamChunks key nonce 0 (chunks CHUNK_BLOCK rest) = plain) :
    (chunks CHUNK_SIZE plain ≠ [] → key = dek ∧ nonce = base) ∧
      ∃ extra, chunks CHUNK_BLOCK rest =
          blocksOf c dek (callsFor base 0 (chunks CHUNK_SIZE plain)) ++ extra ∧
        ∀ b ∈ extra.head?,
          c.openWith key (chunkNonce nonce (chunks CHUNK_SIZE plain).length) b = none := by
  obtain ⟨hcalls, hkey, extra, hbs, hend⟩ := opened_spec hc
    (chunks CHUNK_BLOCK rest) 0
  have hne : ∀ call ∈ callsFor base 0 (chunks CHUNK_SIZE plain), call.2 ≠ [] := by
    intro call hcall
    obtain ⟨i, hi, -⟩ := mem_callsFor.1 hcall
    have hpos := (mem_chunks_length (by decide) (List.mem_of_getElem? hi)).1
    exact List.length_pos_iff.1 hpos
  -- The run is cut as the plaintext is, so it is all of the plaintext's chunks.
  have hrun : c.opened key nonce 0 (chunks CHUNK_BLOCK rest) = chunks CHUNK_SIZE plain := by
    rw [← hread, streamChunks_eq_opened]
    exact (chunks_flatten (by decide)
      (blocked_opened hc hne (blocked_chunks (by decide) rest) 0)).symm
  rw [hrun] at hcalls hkey hbs hend
  have hnonce : chunks CHUNK_SIZE plain ≠ [] → nonce = base := by
    intro hnil
    obtain ⟨p, hp⟩ := List.exists_mem_of_ne_nil _ hnil
    obtain ⟨i, hi⟩ := List.mem_iff_getElem?.1 hp
    have hcall : (chunkNonce nonce (0 + i), p) ∈ callsFor nonce 0 (chunks CHUNK_SIZE plain) :=
      mem_callsFor.2 ⟨i, hi, rfl⟩
    obtain ⟨j, -, hj⟩ := mem_callsFor.1 (hcalls _ hcall)
    exact base_eq_of_chunkNonce hlen hj
  refine ⟨fun hnil => ⟨hkey hnil, hnonce hnil⟩, extra, ?_, ?_⟩
  · by_cases hnil : chunks CHUNK_SIZE plain = []
    · rw [hnil] at hbs ⊢
      exact hbs
    · rw [← hnonce hnil]
      exact hbs
  · rw [Nat.zero_add] at hend
    exact hend

end Crypto

open Crypto in
/-- A changed container is found out, in memory and by the streaming reader, exactly when
no key comes out of its header, or the chunks of the container stand whole at its start
and what follows them, if anything, does not open. -/
theorem tamper_detected_iff {c : Crypto} (hw : c.Wraps) {env : CallEnv} {r : Reader}
    {dek : Bytes} {w : WrappedDek} (hkey : c.newWrappedDek env.keyRand = some (dek, w))
    (hc : c.Ideal dek (sealCalls env r)) {container : Bytes}
    (h : c.encryptingFrom env r = some container) (raw : Bytes) :
    c.Detects (sealable r.body) raw ↔ c.Whole container raw := by
  obtain ⟨dek', w', hkey', rfl⟩ := encryptingFrom_some h
  obtain ⟨rfl, rfl⟩ : dek = dek' ∧ w = w' := by
    rw [hkey] at hkey'
    simpa using hkey'
  rw [sealCalls_eq] at hc
  have hpos : 0 < CHUNK_SIZE := by decide
  have hhead : c.openStreamHeader (header w env.baseNonce.bytes ++
      (blocksOf c dek (callsFor env.baseNonce.bytes 0
        (chunks CHUNK_SIZE (sealable r.body)))).flatten) = some (dek, env.baseNonce.bytes, _) :=
    openStreamHeader_wrapped (hw.unwrap_new _ _ _ hkey) (hw.length_lt _ _ _ hkey)
      env.baseNonce.length_eq _
  have hchunks := chunks_blocksOf hc.seal_length dek env.baseNonce.bytes (sealable r.body)
  have hcount : (blocksOf c dek (callsFor env.baseNonce.bytes 0
      (chunks CHUNK_SIZE (sealable r.body)))).length =
      (chunks CHUNK_SIZE (sealable r.body)).length := by
    rw [blocksOf_callsFor, List.length_mapIdx]
  have hnil : (blocksOf c dek (callsFor env.baseNonce.bytes 0
      (chunks CHUNK_SIZE (sealable r.body)))).flatten ≠ [] ↔
      chunks CHUNK_SIZE (sealable r.body) ≠ [] := by
    rw [ne_eq, ← chunks_eq_nil (by decide : 0 < CHUNK_BLOCK), hchunks, blocksOf_callsFor,
      List.mapIdx_eq_nil_iff]
  rw [detects_iff, decryptObjectWithCtx_eq, decryptingReader]
  constructor
  · rintro ⟨-, hread⟩ key nonce rest key₀ nonce₀ rest₀ hraw hcontainer
    rw [hhead] at hcontainer
    cases hcontainer
    rw [hraw] at hread
    have hread := (hread.resolve_left (by simp))
    obtain ⟨hsame, extra, hbs, hend⟩ := whole_of_read hc
      ((length_of_openStreamHeader hraw).trans env.baseNonce.length_eq.symm)
      (Option.some.inj hread)
    rw [hchunks, hcount]
    exact ⟨fun h0 => hsame (hnil.1 h0), extra, hbs, hend⟩
  · intro hwhole
    cases hraw : c.openStreamHeader raw with
    | none => exact ⟨.inl rfl, .inl rfl⟩
    | some t =>
        obtain ⟨key, nonce, rest⟩ := t
        obtain ⟨hsame, extra, hbs, hend⟩ := hwhole _ _ _ _ _ _ hraw hhead
        rw [hchunks] at hbs
        rw [hchunks, hcount] at hend
        obtain ⟨hstream, hall⟩ := read_whole hc (fun h0 => hsame (hnil.2 h0)) hbs hend
        refine ⟨hall, .inr ?_⟩
        show some (c.streamChunks key nonce 0 (chunks CHUNK_BLOCK rest)) = _
        rw [hstream]

/-- A cipher that opens what it is recorded to have sealed, under a key of no bytes. -/
def Crypto.recorded (calls : List (Bytes × Bytes)) : Crypto where
  newWrappedDek _ := some ([], ⟨1, []⟩)
  unwrapDek _ := some []
  wrappedDekLen := 0
  sealWith _ _ p := p ++ List.replicate TAG_LEN 0
  openWith k n b :=
    if k = [] then
      (calls.find? fun call => call.1 = n ∧ call.2 ++ List.replicate TAG_LEN 0 = b).map Prod.snd
    else none

theorem Crypto.recorded_wraps (calls : List (Bytes × Bytes)) : (recorded calls).Wraps where
  unwrap_new _ _ _ h := by
    cases h
    rfl
  length_lt _ _ _ h := by
    cases h
    decide

theorem Crypto.recorded_ideal (calls : List (Bytes × Bytes)) :
    (recorded calls).Ideal [] calls where
  open_iff k n b p := by
    simp only [recorded, Option.ite_none_right_eq_some, Option.map_eq_some_iff]
    refine and_congr_right fun _ => ⟨?_, ?_⟩
    · rintro ⟨call, hfind, rfl⟩
      have hcall := List.find?_some hfind
      simp only [decide_eq_true_eq] at hcall
      obtain ⟨rfl, rfl⟩ := hcall
      exact ⟨List.mem_of_find?_eq_some hfind, rfl⟩
    · rintro ⟨hmem, rfl⟩
      have hsome : (calls.find? fun call => decide (call.1 = n ∧
          call.2 ++ List.replicate TAG_LEN 0 = p ++ List.replicate TAG_LEN 0)).isSome := by
        rw [List.find?_isSome]
        exact ⟨(n, p), hmem, by simp⟩
      obtain ⟨call, hfind⟩ := Option.isSome_iff_exists.1 hsome
      have hcall := List.find?_some hfind
      simp only [decide_eq_true_eq] at hcall
      exact ⟨call, hfind, List.append_cancel_right hcall.2⟩
  seal_length _ _ p := by simp [recorded]

/-- The container of three bytes, and what is left of it without its chunk. -/
theorem tamper_detected_iff_recorded :
    (Crypto.recorded (Crypto.sealCalls (callAt 'a' 0 rfl) twoPieces)).Detects [1, 2, 3]
        (Crypto.header ⟨1, []⟩ (List.replicate 8 0)) ↔
      (Crypto.recorded (Crypto.sealCalls (callAt 'a' 0 rfl) twoPieces)).Whole
        (Crypto.header ⟨1, []⟩ (List.replicate 8 0) ++ [1, 2, 3] ++ List.replicate 16 0)
        (Crypto.header ⟨1, []⟩ (List.replicate 8 0)) :=
  tamper_detected_iff (Crypto.recorded_wraps _) (r := twoPieces) rfl
    (Crypto.recorded_ideal _) rfl _

/-- The container's header alone is decrypted to nothing, without an error. -/
theorem cut_container_accepted :
    (Crypto.recorded (Crypto.sealCalls (callAt 'a' 0 rfl) twoPieces)).Ideal []
        (Crypto.sealCalls (callAt 'a' 0 rfl) twoPieces) ∧
      (Crypto.recorded (Crypto.sealCalls (callAt 'a' 0 rfl) twoPieces)).encryptingFrom
          (callAt 'a' 0 rfl) twoPieces =
        some (Crypto.header ⟨1, []⟩ (List.replicate 8 0) ++ [1, 2, 3] ++ List.replicate 16 0) ∧
      (Crypto.recorded (Crypto.sealCalls (callAt 'a' 0 rfl) twoPieces)).decryptObjectWithCtx
        (Crypto.header ⟨1, []⟩ (List.replicate 8 0)) = some [] ∧
      ¬ (Crypto.recorded (Crypto.sealCalls (callAt 'a' 0 rfl) twoPieces)).Detects [1, 2, 3]
        (Crypto.header ⟨1, []⟩ (List.replicate 8 0)) := by
  refine ⟨Crypto.recorded_ideal _, rfl, rfl, fun h => ?_⟩
  rcases h.1 with h | h <;> exact absurd h (by decide +kernel)

end Kerplace
