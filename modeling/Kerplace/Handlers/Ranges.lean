/-
# `Kerplace.Handlers.Ranges` — the Range header

The handler takes a header apart, resolves the bounds against the size that `head_object`
gives, and asks the store for the interval.  It clamps whatever it is given into the object
and answers 206 every time, so a range that reaches no byte of the object, or that ends
before it begins, comes back as an interval that is none.

What the header means is stated apart, as RFC 9110 has it for a single byte range.
-/
import Kerplace.Auth.Tokens
import Kerplace.Fs.Ranges
import Kerplace.Handlers.Listing

namespace Kerplace

/-! ## What a range means -/

/-- Digits, and nothing else. -/
def decimalDigits (s : Str) : Option Nat :=
  if s = [] ∨ s.any (fun c => !c.isDigit) then none
  else some (s.foldl (fun n c => 10 * n + (c.toNat - '0'.toNat)) 0)

/-- A range of bytes as a client asks for it: from a first position, up to a last where there
is one, or the last so many. -/
inductive RangeSpec where
  | int (first : Nat) (last? : Option Nat)
  | suffix (length : Nat)

/-- The range a text stands for; one that ends before it begins is invalid. -/
def RangeSpec.ofText (s : Str) : Option RangeSpec :=
  match splitOnceAt '-' s with
  | none => none
  | some (first, last) =>
      if first = [] then (decimalDigits last).map .suffix
      else
        match decimalDigits first with
        | none => none
        | some f =>
            if last = [] then some (.int f none)
            else
              match decimalDigits last with
              | none => none
              | some l => if f ≤ l then some (.int f (some l)) else none

/-- The range of a header: a range unit, in any case, and one range. -/
def rfcRange (value : Str) : Option RangeSpec :=
  match splitOnceAt '=' value with
  | none => none
  | some (unit, s) =>
      if unit.map Char.toLower = "bytes".toList then RangeSpec.ofText s else none

/-- No byte of an object is in the range, whatever it holds. -/
def RangeSpec.Unsatisfiable (size : Nat) : RangeSpec → Prop
  | .int first _ => size ≤ first
  | .suffix length => length = 0

/-- The first and the last byte of a range in an object, where it has any. -/
def RangeSpec.interval (size : Nat) : RangeSpec → Option (Nat × Nat)
  | .int first last? =>
      if first < size then some (first, min (last?.getD (size - 1)) (size - 1)) else none
  | .suffix length =>
      if 0 < length ∧ 0 < size then some (size - min length size, size - 1) else none

/-! ## The handler -/

/-- `str::parse::<u64>`. -/
def parseU64 (s : Str) : Option Nat := parseUsize s

/-- A bound that may be left out; one that does not parse spoils the header. -/
def parseBound (s : Str) : Option (Option Nat) :=
  if s = [] then some none else (parseU64 s).map some

/-- `parse_range`. -/
def parseRange (value : Str) : Option (Option Nat × Option Nat) := do
  let spec ← value.dropPrefix? "bytes=".toList
  if ',' ∈ spec then none
  else do
    let (start, stop) ← splitOnceAt '-' spec
    let start ← parseBound start
    let stop ← parseBound stop
    if start = none ∧ stop = none then none else some (start, stop)

/-- What a store answers for an object: `head_object`, `get_object` and
`get_object_range`. -/
structure ObjectReads where
  head : Except S3Error ObjectMeta
  full : Except S3Error (ObjectMeta × Bytes)
  range : Nat → Option Nat → Except S3Error (ObjectMeta × Nat × Bytes)

/-- `Content-Range`. -/
structure ContentRange where
  first : Nat
  last : Nat
  size : Nat

/-- What is answered to a read: 200, 206 or an error.  Of the headers, `Content-Length` and
`Content-Range`. -/
inductive GetResponse where
  | ok (m : ObjectMeta) (contentLength : Nat) (body : Bytes)
  | partialContent (m : ObjectMeta) (contentLength : Nat) (contentRange : ContentRange)
      (body : Bytes)
  | error (e : S3Error)

/-- `abs_start` and `abs_last`. -/
def absoluteRange (size : Nat) : Option Nat × Option Nat → Nat × Nat
  | (some s, some e) => (min s size, min e (size - 1))
  | (some s, none) => (min s size, size - 1)
  | (none, some n) => (size - min n size, size - 1)
  | (none, none) => (0, size - 1)

/-- The range branch of `get_object_dispatch`, and the full read without a range. -/
def getObjectResponse (reads : ObjectReads) (rangeHeader : Option Str) : GetResponse :=
  match rangeHeader.bind parseRange with
  | some bounds =>
      match reads.head with
      | .error e => .error e
      | .ok headed =>
          let (absStart, absLast) := absoluteRange headed.size bounds
          match reads.range absStart (some absLast) with
          | .error e => .error e
          | .ok (m, len, body) => .partialContent m len ⟨absStart, absLast, headed.size⟩ body
  | none =>
      match reads.full with
      | .error e => .error e
      | .ok (m, body) => .ok m m.size body

/-- The store holds `plain`, with its size on record, and reads ranges of it. -/
structure ObjectReads.Serves (reads : ObjectReads) (m : ObjectMeta) (plain : Bytes) : Prop where
  size_eq : m.size = plain.length
  head_eq : reads.head = .ok m
  full_eq : reads.full = .ok (m, plain)
  range_eq : ∀ start end?, reads.range start end? =
    let r := byteRange m.size start end?
    .ok (m, r.len, (plain.drop r.start).take r.len)

/-- The reads of the sharded store. -/
def ErasureStore.reads {n : Nat} (S : ErasureStore n) (site : Site n) (s : Cluster n Doc)
    (bucket key : Str) : ObjectReads :=
  ⟨(site.run (ErasureStore.headObject bucket key) s).1,
    (site.run (S.getObject bucket key) s).1,
    fun start end? => (site.run (S.getObjectRange bucket key start end?) s).1⟩

/-- The reads of the filesystem store. -/
def FsStore.reads (S : FsStore) (root : List Str) (t : Tree FsDoc) (bucket key : Str) :
    ObjectReads :=
  ⟨FsStore.result root (S.headObject bucket key) t, FsStore.result root (S.getObject bucket key) t,
    fun start end? => FsStore.result root (S.getObjectRange bucket key start end?) t⟩

/-! ## Headers that parse -/

theorem parseUsize_plain {s : Str} (hplus : '+' ∉ s) (n : Nat) :
    parseUsize s = some n ↔ decimalDigits s = some n ∧ n < 2 ^ 64 := by
  have hbare : parseUsize s = (decimalDigits s).filter fun n => decide (n < 2 ^ 64) := by
    unfold parseUsize decimalDigits
    cases s with
    | nil => rfl
    | cons c cs =>
      have hc : c ≠ '+' := fun h => hplus (h ▸ List.mem_cons_self)
      dsimp only
      split
      · exact absurd (List.cons.inj (by assumption)).1 hc
      · split <;> rfl
  rw [hbare, Option.filter_eq_some_iff, decide_eq_true_iff]

theorem decimalDigits_plus {s : Str} (hplus : '+' ∈ s) : decimalDigits s = none :=
  if_pos (.inr (List.any_eq_true.2 ⟨'+', hplus, by decide⟩))

theorem splitOnceAt_eq_some {sep : Char} {s : Str} {parts : Str × Str}
    (h : splitOnceAt sep s = some parts) : s = parts.1 ++ sep :: parts.2 ∧ sep ∉ parts.1 := by
  obtain ⟨hmem, -⟩ := Option.ite_none_right_eq_some.1 h
  obtain ⟨front, back, rfl, hfront⟩ := List.eq_append_cons_of_mem hmem
  rw [splitOnceAt_append hfront] at h
  rw [← Option.some.inj h]
  exact ⟨rfl, hfront⟩

theorem parseBound_plain {s : Str} {b : Option Nat} (hplus : '+' ∉ s)
    (h : parseBound s = some b) :
    s = [] ∧ b = none ∨ ∃ n, s ≠ [] ∧ decimalDigits s = some n ∧ b = some n := by
  unfold parseBound at h
  split at h
  · rename_i hnil
    exact .inl ⟨hnil, (Option.some.inj h).symm⟩
  · rename_i hne
    obtain ⟨n, hn, hb⟩ := Option.map_eq_some_iff.1 h
    exact .inr ⟨n, hne, ((parseUsize_plain hplus n).1 hn).1, hb.symm⟩

/-- The parts of a header that parses. -/
theorem parseRange_some {value : Str} {bounds : Option Nat × Option Nat}
    (h : parseRange value = some bounds) : ∃ first last,
      value = "bytes".toList ++ '=' :: (first ++ '-' :: last) ∧ '-' ∉ first ∧
      parseBound first = some bounds.1 ∧ parseBound last = some bounds.2 ∧
      ¬ (bounds.1 = none ∧ bounds.2 = none) := by
  obtain ⟨spec, hspec, hbounds⟩ := Option.bind_eq_some_iff.1 h
  obtain ⟨front, rfl, hfront⟩ := List.dropPrefix?_eq_some_iff.1 hspec
  obtain rfl := eq_of_beq hfront
  split at hbounds
  · cases hbounds
  obtain ⟨⟨first, last⟩, hparts, hbounds⟩ := Option.bind_eq_some_iff.1 hbounds
  obtain ⟨start, hstart, hbounds⟩ := Option.bind_eq_some_iff.1 hbounds
  obtain ⟨stop, hstop, hbounds⟩ := Option.bind_eq_some_iff.1 hbounds
  split at hbounds
  · cases hbounds
  · rename_i hboth
    cases hbounds
    obtain ⟨rfl, hdash⟩ := splitOnceAt_eq_some hparts
    exact ⟨first, last, rfl, hdash, hstart, hstop, hboth⟩

/-- The range of bounds that were read from digits alone. -/
def RangeSpec.ofBounds : Option Nat × Option Nat → Option RangeSpec
  | (some s, some e) => if s ≤ e then some (.int s (some e)) else none
  | (some s, none) => some (.int s none)
  | (none, some n) => some (.suffix n)
  | (none, none) => none

/-- What a header that parses means: a plus is no digit. -/
theorem rfcRange_of_parseRange {value : Str} {bounds : Option Nat × Option Nat}
    (h : parseRange value = some bounds) :
    rfcRange value = if '+' ∈ value then none else RangeSpec.ofBounds bounds := by
  obtain ⟨first, last, rfl, hdash, hfirst, hlast, hboth⟩ := parseRange_some h
  have hvalue : rfcRange ("bytes".toList ++ '=' :: (first ++ '-' :: last)) =
      RangeSpec.ofText (first ++ '-' :: last) := by
    rw [rfcRange, splitOnceAt_append (by decide)]
    exact if_pos (by decide)
  have hplus : '+' ∈ "bytes".toList ++ '=' :: (first ++ '-' :: last) ↔
      '+' ∈ first ∨ '+' ∈ last := by
    simp
  rw [hvalue, RangeSpec.ofText, splitOnceAt_append hdash]
  dsimp only
  by_cases hp : '+' ∈ first ∨ '+' ∈ last
  · rw [if_pos (hplus.2 hp)]
    rcases hp with hp | hp
    · rw [if_neg (List.ne_nil_of_mem hp), decimalDigits_plus hp]
    · rw [decimalDigits_plus hp]
      split
      · rfl
      · cases decimalDigits first with
        | none => rfl
        | some f => exact if_neg (List.ne_nil_of_mem hp)
  · rw [if_neg fun hmem => hp (hplus.1 hmem)]
    obtain ⟨hp₁, hp₂⟩ := not_or.1 hp
    obtain ⟨start, stop⟩ := bounds
    rcases parseBound_plain hp₁ hfirst with ⟨rfl, rfl⟩ | ⟨s, hne, hs, rfl⟩
    · rcases parseBound_plain hp₂ hlast with ⟨rfl, rfl⟩ | ⟨e, hne', he, rfl⟩
      · exact absurd ⟨rfl, rfl⟩ hboth
      · rw [if_pos rfl, he]
        rfl
    · rw [if_neg hne, hs]
      rcases parseBound_plain hp₂ hlast with ⟨rfl, rfl⟩ | ⟨e, hne', he, rfl⟩
      · rfl
      · dsimp only
        rw [if_neg hne', he]
        rfl

/-! ## What is answered -/

/-- The answer is right: what comes back as a 206 is the interval that the header means for
this object, with its bytes and their number; and a range without a byte is an error. -/
structure RangeAnswered (reads : ObjectReads) (value : Str) (plain : Bytes) : Prop where
  inside : ∀ m len cr body,
    getObjectResponse reads (some value) = .partialContent m len cr body →
    cr.first ≤ cr.last ∧ cr.last < plain.length ∧ cr.size = plain.length ∧
      len = body.length ∧ body = (plain.drop cr.first).take (cr.last + 1 - cr.first) ∧
      (rfcRange value).bind (RangeSpec.interval plain.length) = some (cr.first, cr.last)
  refused : ∀ spec, rfcRange value = some spec → spec.Unsatisfiable plain.length →
    ∃ e, getObjectResponse reads (some value) = .error e

/-- The header and the size go together: a header that parses has no plus and reaches a byte
of the object, and one that does not parse means no range, or one that reaches a byte. -/
def RangeFits (value : Str) (size : Nat) : Prop :=
  match parseRange value with
  | none => ∀ spec, rfcRange value = some spec → ¬ spec.Unsatisfiable size
  | some (some s, e?) => '+' ∉ value ∧ s < size ∧ ∀ e, e? = some e → s ≤ e
  | some (none, n?) => '+' ∉ value ∧ 0 < n?.getD 0 ∧ 0 < size

section

variable {reads : ObjectReads} {m : ObjectMeta} {plain : Bytes}

theorem getObjectResponse_range (h : reads.Serves m plain) {value : Str}
    {bounds : Option Nat × Option Nat} (hparse : parseRange value = some bounds) :
    getObjectResponse reads (some value) =
      let first := (absoluteRange plain.length bounds).1
      let last := (absoluteRange plain.length bounds).2
      let r := byteRange plain.length first (some last)
      .partialContent m r.len ⟨first, last, plain.length⟩ ((plain.drop r.start).take r.len) := by
  unfold getObjectResponse
  rw [Option.bind_some, hparse]
  dsimp only
  rw [h.head_eq]
  dsimp only
  rw [h.range_eq, h.size_eq]

/-- An interval inside the object is read as it is. -/
theorem byteRange_interval {first last : Nat} (hle : first ≤ last) (hlt : last < plain.length) :
    (byteRange plain.length first (some last)).len =
        ((plain.drop (byteRange plain.length first (some last)).start).take
          (byteRange plain.length first (some last)).len).length ∧
      (plain.drop (byteRange plain.length first (some last)).start).take
        (byteRange plain.length first (some last)).len =
          (plain.drop first).take (last + 1 - first) := by
  obtain ⟨last', hle', hlt', hrange, hslice⟩ := byteRange_inside (lt_of_le_of_lt hle hlt)
    (fun e he => (Option.some.inj he) ▸ hle : ∀ e, some last = some e → first ≤ e)
  rw [hrange]
  dsimp only
  rw [hslice]
  constructor
  · rw [← hslice, List.length_take, List.length_drop]
    omega
  · rfl

theorem RangeSpec.interval_unsatisfiable {spec : RangeSpec} {size : Nat}
    (h : spec.Unsatisfiable size) : spec.interval size = none := by
  cases spec with
  | int first last? => exact if_neg (not_lt.2 h)
  | suffix length => exact if_neg fun hpos => absurd h hpos.1.ne'

/-- A header that parses is answered right when the clamped bounds are its interval. -/
theorem range_answered_of_parse (h : reads.Serves m plain) {value : Str}
    {bounds : Option Nat × Option Nat} (hparse : parseRange value = some bounds) :
    RangeAnswered reads value plain ↔
      (rfcRange value).bind (RangeSpec.interval plain.length) =
          some (absoluteRange plain.length bounds) ∧
        (absoluteRange plain.length bounds).1 ≤ (absoluteRange plain.length bounds).2 ∧
        (absoluteRange plain.length bounds).2 < plain.length := by
  have hresponse := getObjectResponse_range h hparse
  dsimp only at hresponse
  constructor
  · intro hanswer
    obtain ⟨hle, hlt, -, -, -, hinterval⟩ := hanswer.inside _ _ _ _ hresponse
    exact ⟨hinterval, hle, hlt⟩
  · rintro ⟨hinterval, hle, hlt⟩
    obtain ⟨hlen, hbody⟩ := byteRange_interval hle hlt
    constructor
    · intro m' len cr body hpartial
      rw [hresponse] at hpartial
      cases hpartial
      exact ⟨hle, hlt, rfl, hlen, hbody, hinterval⟩
    · intro spec hspec hnone
      rw [hspec, Option.bind_some, RangeSpec.interval_unsatisfiable hnone] at hinterval
      cases hinterval

/-- The handler answers a range header as RFC 9110 has it just when header and size fit. -/
theorem range_answered_iff (h : reads.Serves m plain) (value : Str) :
    RangeAnswered reads value plain ↔ RangeFits value plain.length := by
  unfold RangeFits
  split
  · -- the header is ignored, and the whole object answered
    rename_i hparse
    have hresponse : getObjectResponse reads (some value) = .ok m m.size plain := by
      unfold getObjectResponse
      rw [Option.bind_some, hparse]
      dsimp only
      rw [h.full_eq]
    constructor
    · intro hanswer spec hspec hnone
      obtain ⟨e, he⟩ := hanswer.refused spec hspec hnone
      rw [hresponse] at he
      cases he
    · intro hfits
      constructor
      · intro m' len cr body hpartial
        rw [hresponse] at hpartial
        cases hpartial
      · exact fun spec hspec hnone => absurd hnone (hfits spec hspec)
  · rename_i s e? hparse
    rw [range_answered_of_parse h hparse, rfcRange_of_parseRange hparse]
    by_cases hplus : '+' ∈ value
    · simp [hplus]
    · cases e? with
      | none =>
        simp only [if_neg hplus, RangeSpec.ofBounds, Option.bind_some, RangeSpec.interval,
          absoluteRange, Option.getD_none]
        grind
      | some e =>
        by_cases hle : s ≤ e
        · simp only [if_neg hplus, RangeSpec.ofBounds, if_pos hle, Option.bind_some,
            RangeSpec.interval, absoluteRange, Option.getD_some]
          grind
        · simp only [if_neg hplus, RangeSpec.ofBounds, if_neg hle, Option.bind_none]
          grind
  · rename_i n? hparse
    rw [range_answered_of_parse h hparse, rfcRange_of_parseRange hparse]
    by_cases hplus : '+' ∈ value
    · simp [hplus]
    · cases n? with
      | none =>
        simp only [if_neg hplus, RangeSpec.ofBounds, Option.bind_none]
        grind
      | some n =>
        simp only [if_neg hplus, RangeSpec.ofBounds, Option.bind_some, RangeSpec.interval,
          absoluteRange, Option.getD_some]
        grind

/-- A read of the sharded store, with the size on record that the body has. -/
theorem ErasureStore.serves {n : Nat} {S : ErasureStore n} {site : Site n} {s : Cluster n Doc}
    {bucket key : Str} (hget : (site.run (S.getObject bucket key) s).1 = .ok (m, plain))
    (hsize : m.size = plain.length) : (S.reads site s bucket key).Serves m plain where
  size_eq := hsize
  head_eq := by
    show (site.run (ErasureStore.headObject bucket key) s).1 = _
    rw [ErasureStore.getObject, Site.run_bind] at hget
    rw [ErasureStore.headObject, Site.run_bind]
    generalize site.run (ErasureStore.readXl bucket key) s = out at hget ⊢
    obtain ⟨x, s'⟩ := out
    cases x with
    | error e => cases hget
    | ok x =>
      rw [Prog.andThen_ok, Site.run_bind] at hget
      rw [Prog.andThen_ok]
      generalize site.run (S.readBody bucket key none x) s' = out at hget
      obtain ⟨body, s''⟩ := out
      cases body with
      | error e => cases hget
      | ok body => exact congrArg Except.ok (Prod.mk.inj (Except.ok.inj hget)).1
  full_eq := hget
  range_eq start end? := by
    have hlong : ¬ (plain.drop (byteRange m.size start end?).start).length <
        (byteRange m.size start end?).len := by
      rw [List.length_drop, ← hsize]
      unfold byteRange
      dsimp only
      cases end? <;> simp only [Option.map_none, Option.map_some, Option.getD_none,
        Option.getD_some] <;> split <;> omega
    exact (ErasureStore.run_getObjectRange hget start end?).trans (if_neg hlong)

/-- A read of the filesystem store of a payload that is not encrypted. -/
theorem FsStore.serves {S : FsStore} {root : List Str} {bucket key : Str} {t : Tree FsDoc}
    {sm : StoredMeta} (hm : FsStore.storedIn S root bucket key t = .ok sm)
    (hraw : t.file? ((FsStore.objectPath bucket key).resolve root) = some (.raw plain))
    (hplain : sm.encrypted = false) (hsize : sm.size = plain.length) :
    (S.reads root t bucket key).Serves (FsStore.storedToMeta key sm) plain where
  size_eq := hsize
  head_eq := by
    show (Prog.runE _ (S.headObject bucket key) t).1 = _
    rw [FsStore.run_headObject, hm]
    rfl
  full_eq := by
    show FsStore.result root (S.getObject bucket key) t = _
    rw [FsStore.result_getObject, hm]
    dsimp only [Except.bind]
    rw [hraw]
    dsimp only [Content.bytes?, Option.getD_some]
    rw [FsStore.plainBytes, hplain]
    rfl
  range_eq start end? := by
    refine (FsStore.result_getObjectRange hm hraw start end?).trans ?_
    rw [hplain]
    rfl

/-- A store of ten bytes, and one of none. -/
def readsOf (plain : Bytes) : ObjectReads :=
  let m : ObjectMeta := ⟨"a".toList, plain.length, [], 0, [], ∅, false, none, none⟩
  ⟨.ok m, .ok (m, plain), fun start end? =>
    let r := byteRange m.size start end?
    .ok (m, r.len, (plain.drop r.start).take r.len)⟩

theorem readsOf_serves (plain : Bytes) : (readsOf plain).Serves
    ⟨"a".toList, plain.length, [], 0, [], ∅, false, none, none⟩ plain :=
  ⟨rfl, rfl, rfl, fun _ _ => rfl⟩

/-- Three bytes of ten. -/
theorem range_answered_iff_inner :
    RangeAnswered (readsOf (List.replicate 10 7)) "bytes=2-4".toList (List.replicate 10 7) :=
  (range_answered_iff (readsOf_serves _) _).2 (by
    have hparse : parseRange "bytes=2-4".toList = some (some 2, some 4) := by decide +kernel
    unfold RangeFits
    rw [hparse]
    refine ⟨by decide +kernel, by decide, fun e he => ?_⟩
    obtain rfl := Option.some.inj he
    decide)

/-- A range past the end, one that ends before it begins, one of no bytes, and any of an empty
object come back as a 206. -/
theorem ranges_without_interval_answered :
    ¬ RangeAnswered (readsOf (List.replicate 10 7)) "bytes=20-".toList (List.replicate 10 7) ∧
    ¬ RangeAnswered (readsOf (List.replicate 10 7)) "bytes=5-3".toList (List.replicate 10 7) ∧
    ¬ RangeAnswered (readsOf (List.replicate 10 7)) "bytes=-0".toList (List.replicate 10 7) ∧
    ¬ RangeAnswered (readsOf []) "bytes=0-".toList [] := by
  have hanswer (plain : Bytes) {value : Str} {bounds : Option Nat × Option Nat}
      (hparse : parseRange value = some bounds)
      (hout : ¬ ((absoluteRange plain.length bounds).1 ≤ (absoluteRange plain.length bounds).2 ∧
        (absoluteRange plain.length bounds).2 < plain.length)) :
      ¬ RangeAnswered (readsOf plain) value plain := fun h =>
    hout ((range_answered_of_parse (readsOf_serves plain) hparse).1 h).2
  refine ⟨hanswer _ (by decide +kernel : _ = some (some 20, none)) (by decide),
    hanswer _ (by decide +kernel : _ = some (some 5, some 3)) (by decide),
    hanswer _ (by decide +kernel : _ = some (none, some 0)) (by decide),
    hanswer _ (by decide +kernel : _ = some (some 0, none)) (by decide)⟩

end

end Kerplace
