/-
# `Kerplace.Auth.Framing` — the chunk decoder over a reader

`pump` reads lines, counts of bytes and line ends through a buffer that its reader fills a
piece at a time.  Where the pieces are cut makes no difference: over a reader the pump does
what it does over the reader's bytes, and each of its rounds uses some of them up, so it
comes to an end.

Over it, the whole of a framed body: chunks with hexadecimal sizes and extensions of any
text, a last chunk of size zero, and whatever trails it.
-/
import Kerplace.Auth.Chunked
import Kerplace.Crypto.Readers

namespace Kerplace

/-! ## The pump over a reader -/

namespace Reader

/-- `read_line` from the pieces a reader has left. -/
def line : List Bytes → Bytes × List Bytes
  | [] => ([], [])
  | p :: ps =>
      if 10 ∈ p then ((readLine p).1, (readLine p).2 :: ps)
      else (p ++ (line ps).1, (line ps).2)

end Reader

/-- `pump` over the pieces its reader has left; nothing when the rounds run out. -/
def pumpFrom (err : Bool) : Nat → List Bytes → Option (Bytes × Bool)
  | 0, _ => none
  | rounds + 1, ps =>
      let line := (Reader.line ps).1
      let ps := (Reader.line ps).2
      -- a reader that fails does so in the middle of a line
      if err && !line.contains 10 then some ([], false)
      else if line = [] then some ([], true)
      else
        match fromUtf8 line with
        | none => some ([], false)
        | some text =>
            if sizeField text = [] then pumpFrom err rounds ps
            else
              match u64FromHex (sizeField text) with
              | none => some ([], false)
              | some size =>
                  if size = 0 then some ([], true)
                  else
                    let data := (Reader.fill size ps).1
                    let ps := (Reader.fill size ps).2
                    if err && decide (data.length < size) then some (data, false)
                    else (pumpFrom err rounds (Reader.fill 2 ps).2).map fun more =>
                      (data ++ more.1, more.2)

/-! ## Lines -/

theorem readLine_of_mem {p : Bytes} (h : 10 ∈ p) (rest : Bytes) :
    readLine (p ++ rest) = ((readLine p).1, (readLine p).2 ++ rest) := by
  induction p with
  | nil => exact absurd h List.not_mem_nil
  | cons b p ih =>
      rw [List.cons_append, readLine, readLine]
      by_cases hb : b = 10
      · rw [if_pos hb, if_pos hb]
      · rw [if_neg hb, if_neg hb, ih ((List.mem_cons.1 h).resolve_left (Ne.symm hb))]

theorem readLine_of_notMem {p : Bytes} (h : 10 ∉ p) (rest : Bytes) :
    readLine (p ++ rest) = (p ++ (readLine rest).1, (readLine rest).2) := by
  induction p with
  | nil => rfl
  | cons b p ih =>
      rw [List.mem_cons, not_or] at h
      rw [List.cons_append, readLine, if_neg (Ne.symm h.1), ih h.2]
      rfl

theorem contains_readLine (rest : Bytes) : (readLine rest).1.contains 10 = rest.contains 10 := by
  induction rest with
  | nil => rfl
  | cons b rest ih =>
      rw [readLine]
      split
      · rename_i hb
        subst hb
        simp
      · rw [List.contains_cons, List.contains_cons, ih]

theorem Reader.line_eq (ps : List Bytes) : (Reader.line ps).1 = (readLine ps.flatten).1 ∧
    (Reader.line ps).2.flatten = (readLine ps.flatten).2 := by
  induction ps with
  | nil => exact ⟨rfl, rfl⟩
  | cons p ps ih =>
      rw [Reader.line, List.flatten_cons]
      split
      · rename_i h
        rw [readLine_of_mem h]
        exact ⟨rfl, rfl⟩
      · rename_i h
        rw [readLine_of_notMem h, ih.1]
        exact ⟨rfl, ih.2⟩

/-- The rounds of a pump over a reader are those over its bytes. -/
theorem pumpFrom_eq (err : Bool) : ∀ (rounds : Nat) (ps : List Bytes),
    ps.flatten.length < rounds → pumpFrom err rounds ps = some (pump err rounds ps.flatten) := by
  intro rounds
  induction rounds with
  | zero => exact fun ps h => absurd h (Nat.not_lt_zero _)
  | succ rounds ih =>
      intro ps hlen
      obtain ⟨hline, hrest⟩ := Reader.line_eq ps
      rw [pumpFrom, pump]
      simp only [hline, contains_readLine]
      split
      · rfl
      split
      · rfl
      · rename_i hne
        -- a line takes bytes, so a round less is enough for what is left
        have hsplit := congrArg List.length (readLine_split ps.flatten)
        rw [List.length_append] at hsplit
        have hpos := List.length_pos_iff.2 hne
        cases fromUtf8 (readLine ps.flatten).1 with
        | none => rfl
        | some text =>
            dsimp only
            by_cases hfield : sizeField text = []
            · rw [if_pos hfield, if_pos hfield]
              refine (ih _ ?_).trans (by rw [hrest])
              rw [hrest]
              omega
            rw [if_neg hfield, if_neg hfield]
            cases u64FromHex (sizeField text) with
            | none => rfl
            | some size =>
                dsimp only
                have hfill := Reader.fill_fst size (Reader.line ps).2
                have hafter : (Reader.fill 2 (Reader.fill size (Reader.line ps).2).2).2.flatten =
                    (readLine ps.flatten).2.drop (size + 2) := by
                  rw [Reader.fill_snd 2, Reader.fill_snd size, hrest, List.drop_drop]
                rw [hrest] at hfill
                by_cases hzero : size = 0
                · rw [if_pos hzero, if_pos hzero]
                rw [if_neg hzero, if_neg hzero]
                have hshort : (Reader.fill size (Reader.line ps).2).1.length < size ↔
                    (readLine ps.flatten).2.length < size := by
                  rw [hfill, List.length_take]
                  omega
                simp only [hshort]
                split
                · rename_i hbroke
                  rw [Bool.and_eq_true, decide_eq_true_eq] at hbroke
                  rw [hfill, List.take_of_length_le (by omega)]
                · rw [ih _ (by rw [hafter, List.length_drop]; omega), hafter, hfill,
                    Option.map_some]

theorem pumpFrom_reader (r : Reader) {rounds : Nat} (h : r.bytes.length < rounds) :
    pumpFrom r.err rounds r.pieces = some (pump r.err rounds r.bytes) :=
  pumpFrom_eq r.err rounds r.pieces h

/-! ## Framed bodies -/

/-- The UTF-8 of a text. -/
def utf8 (s : Str) : Bytes := s.flatMap String.utf8EncodeChar

/-- A size line's text, less its line end: digits that give the size, and an extension or
none, of any characters but line breaks. -/
structure SizeText (size : Nat) where
  digits : Str
  ext : Str
  digits_ne : digits ≠ []
  number : hexNumber 0 digits = some size
  ext_eq : ext = [] ∨ ∃ rest, ext = ';' :: rest
  unbroken : ∀ c ∈ ext, c ≠ '\r' ∧ c ≠ '\n'

/-- The bytes of a size line. -/
def SizeText.bytes {size : Nat} (l : SizeText size) : Bytes :=
  utf8 (l.digits ++ l.ext ++ ['\r', '\n'])

/-- A chunk with its size line.  Its length is a `u64`. -/
structure Chunk where
  data : Bytes
  nonempty : data ≠ []
  length_lt : data.length < 2 ^ 64
  line : SizeText data.length

/-- Chunks, the last chunk's line, and what trails it. -/
def framing (chunks : List Chunk) (last : SizeText 0) (trailer : Bytes) : Bytes :=
  (chunks.flatMap fun c => c.line.bytes ++ (c.data ++ [13, 10])) ++ (last.bytes ++ trailer)

theorem ten_mem_utf8EncodeChar {c : Char} (h : 10 ∈ String.utf8EncodeChar c) : c = '\n' := by
  have hlow : ∀ v : Nat, v < 256 → 10 = UInt8.ofNat v → v = 10 := by
    intro v hv h10
    have hval := congrArg UInt8.toNat h10
    rw [UInt8.toNat_ofNat', Nat.mod_eq_of_lt hv] at hval
    exact hval.symm
  have hhigh : ∀ v : Nat, v < 256 → 128 ≤ v → 10 ≠ UInt8.ofNat v := by
    intro v hv hle h10
    have := hlow v hv h10
    omega
  unfold String.utf8EncodeChar at h
  dsimp only at h
  split at h
  · have hten := hlow _ (by omega) (List.mem_singleton.1 h)
    exact Char.toNat_inj.1 hten
  -- a character of more bytes has none below 128
  · split at h
    · simp only [List.mem_cons, List.not_mem_nil, or_false] at h
      rcases h with h | h <;> exact absurd h (hhigh _ (by omega) (by omega))
    · split at h
      · simp only [List.mem_cons, List.not_mem_nil, or_false] at h
        rcases h with h | h | h <;> exact absurd h (hhigh _ (by omega) (by omega))
      · simp only [List.mem_cons, List.not_mem_nil, or_false] at h
        rcases h with h | h | h | h <;> exact absurd h (hhigh _ (by omega) (by omega))

theorem ten_notMem_utf8 {s : Str} (h : '\n' ∉ s) : 10 ∉ utf8 s := by
  intro hmem
  obtain ⟨c, hc, h10⟩ := List.mem_flatMap.1 hmem
  exact h (ten_mem_utf8EncodeChar h10 ▸ hc)

/-- What the pump makes of a size line. -/
theorem SizeText.read {size : Nat} (l : SizeText size) (hlt : size < 2 ^ 64) (rest : Bytes) :
    readLine (l.bytes ++ rest) = (l.bytes, rest) ∧ l.bytes ≠ [] ∧ 10 ∈ l.bytes ∧
      ∃ text, fromUtf8 l.bytes = some text ∧ sizeField text ≠ [] ∧
        u64FromHex (sizeField text) = some size := by
  have hsplit : l.bytes = utf8 (l.digits ++ l.ext ++ ['\r']) ++ [10] := by
    have hchars : l.digits ++ l.ext ++ ['\r', '\n'] =
        (l.digits ++ l.ext ++ ['\r']) ++ ['\n'] := by
      simp
    rw [SizeText.bytes, hchars, utf8, List.flatMap_append]
    rfl
  have hnone : (10 : UInt8) ∉ utf8 (l.digits ++ l.ext ++ ['\r']) := by
    refine ten_notMem_utf8 fun hmem => ?_
    simp only [List.mem_append, List.mem_singleton] at hmem
    rcases hmem with (hmem | hmem) | hmem
    · obtain ⟨d, hd⟩ := hexDigit_of_mem l.number hmem
      exact absurd (isWhitespace_hexDigit hd).1 (by decide)
    · exact (l.unbroken _ hmem).2 rfl
    · exact absurd hmem (by decide)
  have hfield := sizeField_line l.number l.ext_eq l.unbroken
  refine ⟨?_, ?_, ?_, _, fromUtf8_encoded _, ?_, ?_⟩
  · rw [hsplit, List.append_assoc]
    exact readLine_append hnone rest
  · rw [hsplit]
    exact List.append_ne_nil_of_right_ne_nil _ (List.cons_ne_nil _ _)
  · rw [hsplit]
    exact List.mem_append_right _ (List.mem_singleton_self _)
  · rw [hfield]
    exact l.digits_ne
  · rw [hfield]
    exact u64FromHex_digits l.digits_ne l.number hlt

/-- A round of the pump at a chunk. -/
theorem pump_chunk (err : Bool) (c : Chunk) (rounds : Nat) (more : Bytes) :
    pump err (rounds + 1) (c.line.bytes ++ (c.data ++ [13, 10]) ++ more) =
      (c.data ++ (pump err rounds more).1, (pump err rounds more).2) := by
  obtain ⟨hread, hlne, hmem, text, htext, hfield, hnum⟩ :=
    c.line.read c.length_lt (c.data ++ ([13, 10] ++ more))
  have hbytes : c.line.bytes ++ (c.data ++ [13, 10]) ++ more =
      c.line.bytes ++ (c.data ++ ([13, 10] ++ more)) := by
    simp only [List.append_assoc]
  have hten : (c.line.bytes ++ (c.data ++ ([13, 10] ++ more))).contains 10 = true :=
    List.contains_iff_mem.2 (List.mem_append_left _ hmem)
  have hpos := List.length_pos_iff.2 c.nonempty
  have hdrop : (c.data ++ ([13, 10] ++ more)).drop (c.data.length + 2) = more := by
    rw [List.drop_append, List.drop_of_length_le (by omega)]
    simp
  rw [hbytes, pump, hten]
  simp only [Bool.not_true, Bool.and_false, Bool.false_eq_true, if_false, hread, hlne, htext,
    hfield, hnum, if_neg hpos.ne', hdrop, List.take_left]
  rw [if_neg]
  simp

theorem pump_last (err : Bool) (last : SizeText 0) (rounds : Nat) (trailer : Bytes) :
    pump err (rounds + 1) (last.bytes ++ trailer) = ([], true) := by
  obtain ⟨hread, hne, hmem, text, htext, hfield, hnum⟩ := last.read (by decide) trailer
  have hten : (last.bytes ++ trailer).contains 10 = true :=
    List.contains_iff_mem.2 (List.mem_append_left _ hmem)
  rw [pump, hten]
  simp [hread, hne, htext, hfield, hnum]

/-- Of framed bytes the pump writes the data of the chunks. -/
theorem pump_framing (err : Bool) (last : SizeText 0) (trailer : Bytes) :
    ∀ (chunks : List Chunk) (rounds : Nat), chunks.length < rounds →
      pump err rounds (framing chunks last trailer) = (chunks.flatMap Chunk.data, true) := by
  intro chunks
  induction chunks with
  | nil =>
      intro rounds hrounds
      obtain ⟨rounds, rfl⟩ := Nat.exists_eq_succ_of_ne_zero hrounds.ne'
      exact pump_last err last rounds trailer
  | cons c chunks ih =>
      intro rounds hrounds
      obtain ⟨rounds, rfl⟩ := Nat.exists_eq_succ_of_ne_zero (Nat.ne_zero_of_lt hrounds)
      have hbytes : framing (c :: chunks) last trailer =
          c.line.bytes ++ (c.data ++ [13, 10]) ++ framing chunks last trailer := by
        rw [framing, framing, List.flatMap_cons, List.append_assoc]
      rw [hbytes, pump_chunk, ih rounds (Nat.lt_of_succ_lt_succ hrounds), List.flatMap_cons]

theorem length_chunks_lt (chunks : List Chunk) (last : SizeText 0) (trailer : Bytes) :
    chunks.length < (framing chunks last trailer).length + 1 := by
  induction chunks with
  | nil => exact Nat.succ_pos _
  | cons c chunks ih =>
      have hpos := List.length_pos_iff.2 c.nonempty
      simp only [framing, List.flatMap_cons, List.length_append, List.length_cons] at ih ⊢
      omega

/-- Whatever the pieces it is read in, a framed body decodes to the data of its chunks; and
of any reader at all the pump comes to an end. -/
theorem chunked_inverts_framing :
    (∀ (chunks : List Chunk) (last : SizeText 0) (trailer : Bytes) (r : Reader),
      r.bytes = framing chunks last trailer → ∀ rounds, r.bytes.length < rounds →
        pumpFrom r.err rounds r.pieces = some (chunks.flatMap Chunk.data, true)) ∧
    ∀ r : Reader, ∃ out, ∀ rounds, r.bytes.length < rounds →
      pumpFrom r.err rounds r.pieces = some out := by
  constructor
  · intro chunks last trailer r hbytes rounds hrounds
    rw [pumpFrom_reader r hrounds, hbytes, pump_framing r.err last trailer chunks rounds]
    have := length_chunks_lt chunks last trailer
    rw [← hbytes] at this
    omega
  · intro r
    refine ⟨pump r.err (r.bytes.length + 1) r.bytes, fun rounds hrounds => ?_⟩
    rw [pumpFrom_reader r hrounds, pump_enough r.err _ _ hrounds (Nat.lt_succ_self _)]

/-- One chunk of two bytes, with an extension. -/
def oneChunk : Chunk where
  data := [7, 10]
  nonempty := by decide
  length_lt := by decide
  line := ⟨['2'], ";chunk-signature=é".toList, by decide, rfl, .inr ⟨_, rfl⟩, fun c hc =>
    of_decide_eq_true (List.all_eq_true.1 (by decide : ";chunk-signature=é".toList.all
      (fun c => decide (c ≠ '\r' ∧ c ≠ '\n')) = true) c hc)⟩

/-- The line of the last chunk. -/
def lastChunk : SizeText 0 := ⟨['0'], [], by decide, rfl, .inl rfl,
  fun _ hc => absurd hc List.not_mem_nil⟩

/-- It comes a byte at a time. -/
theorem chunked_inverts_framing_bytewise :
    pumpFrom false 40 ((framing [oneChunk] lastChunk [13, 10]).map fun b => [b]) =
      some ([7, 10], true) := by
  have hbytes : ((framing [oneChunk] lastChunk [13, 10]).map fun b => [b]).flatten =
      framing [oneChunk] lastChunk [13, 10] := by
    rw [← List.flatMap_def, List.flatMap_singleton']
  refine chunked_inverts_framing.1 [oneChunk] lastChunk [13, 10]
    ⟨(framing [oneChunk] lastChunk [13, 10]).map fun b => [b], ?_, false⟩ hbytes 40 ?_
  · intro p hp
    obtain ⟨b, -, rfl⟩ := List.mem_map.1 hp
    exact List.cons_ne_nil _ _
  · rw [Reader.bytes, hbytes]
    decide +kernel

end Kerplace
