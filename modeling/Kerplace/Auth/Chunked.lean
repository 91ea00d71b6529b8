/-
# `Kerplace.Auth.Chunked` — the decoder of `aws-chunked` bodies

`pump` strips the framing of a streamed upload and writes what it frames into a
pipe.  Its own result goes to the log: whoever reads the pipe sees it end when
the pump does, for whatever reason.

Over it, what the framing is: chunks of a hexadecimal size, an optional
extension, a line end, that many bytes and a line end, up to a chunk of size
zero.  Of a body so framed the pump writes exactly what it frames.
-/
import Kerplace.Storage.Types

namespace Kerplace

/-! ## Texts -/

/-- The characters with the Unicode property `White_Space`: `char::is_whitespace`. -/
def isWhitespace (c : Char) : Bool :=
  let n := c.toNat
  (9 ≤ n && n ≤ 13) || n = 0x20 || n = 0x85 || n = 0xa0 || n = 0x1680 ||
    (0x2000 ≤ n && n ≤ 0x200a) || n = 0x2028 || n = 0x2029 || n = 0x202f || n = 0x205f ||
    n = 0x3000

/-- Drop from the end: `trim_end_matches`. -/
def trimEndMatches (p : Char → Bool) (s : Str) : Str := (s.reverse.dropWhile p).reverse

/-- `str::trim`. -/
def trim (s : Str) : Str := trimEndMatches isWhitespace (s.dropWhile isWhitespace)

/-- `String::from_utf8`. -/
def fromUtf8 (b : Bytes) : Option Str := (ByteArray.mk b.toArray).utf8Decode?.map Array.toList

/-- `char::to_digit(16)`. -/
def hexDigit? (c : Char) : Option Nat :=
  if '0' ≤ c ∧ c ≤ '9' then some (c.toNat - '0'.toNat)
  else if 'a' ≤ c ∧ c ≤ 'f' then some (c.toNat - 'a'.toNat + 10)
  else if 'A' ≤ c ∧ c ≤ 'F' then some (c.toNat - 'A'.toNat + 10)
  else none

/-- The number that hexadecimal digits after `acc` give. -/
def hexNumber : Nat → Str → Option Nat
  | acc, [] => some acc
  | acc, c :: cs =>
      match hexDigit? c with
      | some d => hexNumber (16 * acc + d) cs
      | none => none

/-- `u64::from_str_radix(s, 16)`: a leading plus sign is allowed. -/
def u64FromHex (s : Str) : Option Nat :=
  let digits := match s with
    | '+' :: cs => cs
    | _ => s
  if digits = [] then none
  else (hexNumber 0 digits).filter fun n => decide (n < 2 ^ 64)

/-! ## The pump -/

/-- `read_line`: up to and with the next newline, and what follows. -/
def readLine : Bytes → Bytes × Bytes
  | [] => ([], [])
  | b :: bs => if b = 10 then ([b], bs) else (b :: (readLine bs).1, (readLine bs).2)

/-- The size field of a size line. -/
def sizeField (line : Str) : Str :=
  trim ((trimEndMatches (fun c => c = '\r' || c = '\n') line).takeWhile fun c => c ≠ ';')

/-- `pump`, with `rest` still to be read: what it writes, and whether it returns `Ok`.
A round reads a line, so the number of bytes bounds the rounds.  A source that broke
off stays broken. -/
def pump (err : Bool) : Nat → Bytes → Bytes × Bool
  | 0, _ => ([], true)
  | rounds + 1, rest =>
      if err && !rest.contains 10 then ([], false)
      else
        let line := (readLine rest).1
        let rest := (readLine rest).2
        if line = [] then ([], true)
        else
          match fromUtf8 line with
          | none => ([], false)
          | some text =>
              if sizeField text = [] then pump err rounds rest
              else
                match u64FromHex (sizeField text) with
                | none => ([], false)
                | some size =>
                    if size = 0 then ([], true)
                    else if err && decide (rest.length < size) then (rest, false)
                    else
                      -- the two bytes after the data are not looked at
                      let more := pump err rounds (rest.drop (size + 2))
                      (rest.take size ++ more.1, more.2)

/-- `decode_aws_chunked`: what comes out of the pipe.  A pipe has no errors to
report. -/
def decodeAwsChunked (b : Body) : Body := .ofBytes (pump b.err (b.data.length + 1) b.data).1

/-! ## The framing -/

/-- Characters as single bytes. -/
def asciiBytes (s : Str) : Bytes := s.map fun c => UInt8.ofNat c.toNat

/-- A size line: hexadecimal digits, an extension or none, and a line end. -/
inductive SizeLine : Bytes → Nat → Prop where
  | mk {digits ext : Str} {size : Nat} (hne : digits ≠ [])
      (hsize : hexNumber 0 digits = some size) (hlt : size < 2 ^ 64)
      (hext : ext = [] ∨ ∃ rest, ext = ';' :: rest)
      (hprint : ∀ c ∈ ext, 32 ≤ c.toNat ∧ c.toNat < 127) :
      SizeLine (asciiBytes (digits ++ ext ++ ['\r', '\n'])) size

/-- Chunked bytes and the payload they frame.  What follows the last chunk's size line
is not part of the payload. -/
inductive Framed : Bytes → Bytes → Prop where
  | last {line rest : Bytes} (hline : SizeLine line 0) : Framed (line ++ rest) []
  | chunk {line data more payload : Bytes} (hline : SizeLine line data.length)
      (hne : data ≠ []) (hmore : Framed more payload) :
      Framed (line ++ (data ++ ([13, 10] ++ more))) (data ++ payload)

/-! ## Reading a size line -/

theorem isWhitespace_hexDigit {c : Char} {d : Nat} (h : hexDigit? c = some d) :
    isWhitespace c = false ∧ c ≠ ';' ∧ c ≠ '+' ∧ 32 ≤ c.toNat ∧ c.toNat < 127 := by
  have hrange : (48 ≤ c.toNat ∧ c.toNat ≤ 57) ∨ (97 ≤ c.toNat ∧ c.toNat ≤ 102) ∨
      (65 ≤ c.toNat ∧ c.toNat ≤ 70) := by
    unfold hexDigit? at h
    split at h
    · rename_i h0
      exact .inl h0
    · split at h
      · rename_i h0
        exact .inr (.inl h0)
      · split at h
        · rename_i h0
          exact .inr (.inr h0)
        · cases h
  refine ⟨?_, ?_, ?_, by omega, by omega⟩
  · simp only [isWhitespace, Bool.or_eq_false_iff, Bool.and_eq_false_iff, decide_eq_false_iff_not]
    omega
  · rintro rfl
    revert hrange
    decide
  · rintro rfl
    revert hrange
    decide

theorem hexDigit_of_mem {c : Char} : ∀ {cs : Str} {acc size : Nat},
    hexNumber acc cs = some size → c ∈ cs → ∃ d, hexDigit? c = some d := by
  intro cs
  induction cs with
  | nil => exact fun _ h => nomatch h
  | cons x cs ih =>
      intro acc size h hc
      rw [hexNumber] at h
      split at h
      · rename_i d hd
        rcases List.mem_cons.1 hc with rfl | hc
        · exact ⟨d, hd⟩
        · exact ih h hc
      · cases h

theorem readLine_split (rest : Bytes) : (readLine rest).1 ++ (readLine rest).2 = rest := by
  induction rest with
  | nil => rfl
  | cons b rest ih =>
      rw [readLine]
      split
      · rfl
      · rw [List.cons_append, ih]

theorem readLine_append {l : Bytes} (hl : 10 ∉ l) (rest : Bytes) :
    readLine (l ++ 10 :: rest) = (l ++ [10], rest) := by
  induction l with
  | nil => rfl
  | cons b l ih =>
      have hb : b ≠ 10 := fun h => hl (h ▸ List.mem_cons_self)
      rw [List.cons_append, readLine, if_neg hb, ih fun h => hl (List.mem_cons_of_mem _ h)]
      rfl

theorem fromUtf8_encoded (s : Str) : fromUtf8 (s.flatMap String.utf8EncodeChar) = some s := by
  have hbytes : ByteArray.mk (s.flatMap String.utf8EncodeChar).toArray = s.utf8Encode := by
    refine ByteArray.ext (Array.toList_inj.1 ?_)
    rw [List.utf8Encode, List.toList_data_toByteArray]
  rw [fromUtf8, hbytes, List.utf8Decode?_utf8Encode, Option.map_some]

theorem flatMap_utf8EncodeChar {s : Str} (hs : ∀ c ∈ s, c.toNat < 128) :
    s.flatMap String.utf8EncodeChar = asciiBytes s := by
  induction s with
  | nil => rfl
  | cons c s ih =>
      have hc : c.val.toNat ≤ 0x7f := Nat.le_of_lt_succ (hs c List.mem_cons_self)
      rw [List.flatMap_cons, ih fun x hx => hs x (List.mem_cons_of_mem _ hx),
        String.utf8EncodeChar, if_pos hc]
      rfl

theorem fromUtf8_ascii {s : Str} (hs : ∀ c ∈ s, c.toNat < 128) :
    fromUtf8 (asciiBytes s) = some s := by
  rw [← flatMap_utf8EncodeChar hs, fromUtf8_encoded]

theorem dropWhile_of_not {p : Char → Bool} {s : Str} (hs : ∀ c ∈ s, p c = false) :
    s.dropWhile p = s := by
  cases s with
  | nil => rfl
  | cons c s => rw [List.dropWhile_cons_of_neg (by simp [hs c List.mem_cons_self])]

theorem trimEndMatches_of_not {p : Char → Bool} {s : Str} (hs : ∀ c ∈ s, p c = false) :
    trimEndMatches p s = s := by
  rw [trimEndMatches, dropWhile_of_not fun c hc => hs c (List.mem_reverse.1 hc),
    List.reverse_reverse]

/-- Of a size line the size field is the digits. -/
theorem sizeField_line {digits ext : Str} {size : Nat}
    (hsize : hexNumber 0 digits = some size) (hext : ext = [] ∨ ∃ rest, ext = ';' :: rest)
    (hunbroken : ∀ c ∈ ext, c ≠ '\r' ∧ c ≠ '\n') :
    sizeField (digits ++ ext ++ ['\r', '\n']) = digits := by
  have hdigit : ∀ c ∈ digits, isWhitespace c = false ∧ c ≠ ';' ∧ c ≠ '\r' ∧ c ≠ '\n' := by
    intro c hc
    obtain ⟨d, hd⟩ := hexDigit_of_mem hsize hc
    obtain ⟨hw, hsemi, -⟩ := isWhitespace_hexDigit hd
    refine ⟨hw, hsemi, ?_, ?_⟩ <;> rintro rfl <;> exact absurd hw (by decide)
  have hline : ∀ c ∈ digits ++ ext, c ≠ '\r' ∧ c ≠ '\n' := by
    intro c hc
    rcases List.mem_append.1 hc with hc | hc
    · exact (hdigit c hc).2.2
    · exact hunbroken c hc
  have htrim : trimEndMatches (fun c => c = '\r' || c = '\n')
      (digits ++ ext ++ ['\r', '\n']) = digits ++ ext := by
    rw [trimEndMatches, List.reverse_append]
    refine (congrArg List.reverse (dropWhile_of_not (s := (digits ++ ext).reverse) ?_)).trans
      (List.reverse_reverse _)
    intro c hc
    rw [Bool.or_eq_false_iff, decide_eq_false_iff_not, decide_eq_false_iff_not]
    exact hline c (List.mem_reverse.1 hc)
  have htake : (digits ++ ext).takeWhile (fun c => c ≠ ';') = digits := by
    rw [List.takeWhile_append_of_pos fun c hc => decide_eq_true (hdigit c hc).2.1]
    rcases hext with rfl | ⟨rest, rfl⟩
    · simp
    · simp
  rw [sizeField, htrim, htake, trim, dropWhile_of_not fun c hc => (hdigit c hc).1,
    trimEndMatches_of_not fun c hc => (hdigit c hc).1]

theorem u64FromHex_digits {digits : Str} {size : Nat} (hne : digits ≠ [])
    (hsize : hexNumber 0 digits = some size) (hlt : size < 2 ^ 64) :
    u64FromHex digits = some size := by
  have hplus : ∀ cs, digits ≠ '+' :: cs := by
    rintro cs rfl
    obtain ⟨d, hd⟩ := hexDigit_of_mem hsize List.mem_cons_self
    exact (isWhitespace_hexDigit hd).2.2.1 rfl
  rw [u64FromHex]
  · simp only [if_neg hne, hsize, Option.filter_some, decide_eq_true_eq, if_pos hlt]
  · exact hplus

/-- What the pump makes of a size line. -/
theorem SizeLine.read {line : Bytes} {size : Nat} (h : SizeLine line size) (rest : Bytes) :
    readLine (line ++ rest) = (line, rest) ∧ line ≠ [] ∧ 10 ∈ line ∧
      ∃ text, fromUtf8 line = some text ∧ sizeField text ≠ [] ∧
        u64FromHex (sizeField text) = some size := by
  cases h with
  | mk hne hsize hlt hext hprint =>
      rename_i digits ext
      have hlow : ∀ c ∈ digits ++ ext, 32 ≤ c.toNat ∧ c.toNat < 127 := by
        intro c hc
        rcases List.mem_append.1 hc with hc | hc
        · obtain ⟨d, hd⟩ := hexDigit_of_mem hsize hc
          exact (isWhitespace_hexDigit hd).2.2.2
        · exact hprint c hc
      have hsplit : asciiBytes (digits ++ ext ++ ['\r', '\n']) =
          asciiBytes (digits ++ ext ++ ['\r']) ++ [10] := by
        simp [asciiBytes]
      have hnone : (10 : UInt8) ∉ asciiBytes (digits ++ ext ++ ['\r']) := by
        intro h10
        obtain ⟨c, hc, hc10⟩ := List.mem_map.1 h10
        rcases List.mem_append.1 hc with hc | hc
        · have hbyte := congrArg UInt8.toNat hc10
          have hrange := hlow c hc
          rw [UInt8.toNat_ofNat', Nat.mod_eq_of_lt (by omega)] at hbyte
          have h10 : UInt8.toNat 10 = 10 := rfl
          omega
        · rw [List.mem_singleton.1 hc] at hc10
          exact absurd hc10 (by decide)
      have hascii : ∀ c ∈ digits ++ ext ++ ['\r', '\n'], c.toNat < 128 := by
        intro c hc
        rcases List.mem_append.1 hc with hc | hc
        · exact Nat.lt_trans (hlow c hc).2 (by omega)
        · simp only [List.mem_cons, List.not_mem_nil, or_false] at hc
          rcases hc with rfl | rfl <;> decide
      have hunbroken : ∀ c ∈ ext, c ≠ '\r' ∧ c ≠ '\n' := by
        intro c hc
        have hlow := (hprint c hc).1
        constructor <;> rintro rfl <;> exact absurd hlow (by decide)
      refine ⟨?_, ?_, ?_, _, fromUtf8_ascii hascii, ?_, ?_⟩
      · rw [hsplit, List.append_assoc]
        exact readLine_append hnone rest
      · rw [hsplit]
        exact List.append_ne_nil_of_right_ne_nil _ (List.cons_ne_nil _ _)
      · rw [hsplit]
        exact List.mem_append_right _ (List.mem_singleton_self _)
      · rw [sizeField_line hsize hext hunbroken]
        exact hne
      · rw [sizeField_line hsize hext hunbroken]
        exact u64FromHex_digits hne hsize hlt

/-- More rounds than there are bytes make no difference. -/
theorem pump_enough (err : Bool) : ∀ (rounds rounds' : Nat) {rest : Bytes},
    rest.length < rounds → rest.length < rounds' →
      pump err rounds rest = pump err rounds' rest := by
  intro rounds
  induction rounds with
  | zero => exact fun _ _ h => absurd h (Nat.not_lt_zero _)
  | succ rounds ih =>
      intro rounds' rest h h'
      obtain ⟨rounds', rfl⟩ : ∃ k, rounds' = k + 1 := ⟨rounds' - 1, by omega⟩
      rw [pump, pump]
      dsimp only
      split
      · rfl
      split
      · rfl
      · rename_i hne
        -- the line read was not empty
        have hsplit := congrArg List.length (readLine_split rest)
        rw [List.length_append] at hsplit
        have hpos := List.length_pos_iff.2 hne
        have hsame : pump err rounds (readLine rest).2 = pump err rounds' (readLine rest).2 :=
          ih rounds' (by omega) (by omega)
        have hafter : ∀ size, pump err rounds ((readLine rest).2.drop (size + 2)) =
            pump err rounds' ((readLine rest).2.drop (size + 2)) := fun size =>
          ih rounds' (by rw [List.length_drop]; omega) (by rw [List.length_drop]; omega)
        simp only [hsame, hafter]

/-- Of framed bytes the pump writes the payload, and returns at the last chunk. -/
theorem pump_framed {data payload : Bytes} (h : Framed data payload) (err : Bool) :
    ∀ rounds, data.length < rounds → pump err rounds data = (payload, true) := by
  induction h with
  | last hline =>
      rename_i line rest
      intro rounds hrounds
      obtain ⟨hread, hne, hmem, text, htext, hfield, hnum⟩ := hline.read rest
      obtain ⟨rounds, rfl⟩ : ∃ k, rounds = k + 1 := ⟨rounds - 1, by omega⟩
      have hten : (line ++ rest).contains 10 = true :=
        List.contains_iff_mem.2 (List.mem_append_left _ hmem)
      rw [pump, hten]
      simp [hread, hne, htext, hfield, hnum]
  | chunk hline hne hmore ih =>
      rename_i line data more payload
      intro rounds hrounds
      obtain ⟨hread, hlne, hmem, text, htext, hfield, hnum⟩ :=
        hline.read (data ++ ([13, 10] ++ more))
      obtain ⟨rounds, rfl⟩ : ∃ k, rounds = k + 1 := ⟨rounds - 1, by omega⟩
      have hten : (line ++ (data ++ ([13, 10] ++ more))).contains 10 = true :=
        List.contains_iff_mem.2 (List.mem_append_left _ hmem)
      have hpos := List.length_pos_iff.2 hne
      have hlpos := List.length_pos_iff.2 hlne
      have hdrop : (data ++ ([13, 10] ++ more)).drop (data.length + 2) = more := by
        rw [List.drop_append, List.drop_of_length_le (by omega)]
        simp
      have hlen : more.length < rounds := by
        simp only [List.length_append, List.length_cons, List.length_nil] at hrounds
        omega
      rw [pump, hten]
      simp only [Bool.not_true, Bool.and_false, Bool.false_eq_true, if_false, hread, hlne, htext,
        hfield, hnum, if_neg hpos.ne', hdrop, ih rounds hlen, List.take_left]
      rw [if_neg]
      simp

theorem decodeAwsChunked_framed {b : Body} {payload : Bytes} (h : Framed b.data payload) :
    decodeAwsChunked b = .ofBytes payload := by
  rw [decodeAwsChunked, pump_framed h b.err _ (Nat.lt_succ_self _)]

end Kerplace
