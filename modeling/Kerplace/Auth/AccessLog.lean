/-
# `Kerplace.Auth.AccessLog` — the file of the access log

A record is one line of JSON.  The lines pass through a channel to a task that appends them
to a file and goes on when a write fails, whatever part of the line the failed write left; a
process that ends takes the lines in its channel with it, and the next one appends to the
same file.

Whatever a client sends stands in the strings of a record, so no record has a line break in
it and none stands inside another line: what a failed write left spoils the line it is in and
no more.
-/
import Kerplace.Auth.Presigned
import Kerplace.Auth.Tokens
import Kerplace.Lib.Json
import Kerplace.Lib.Lines

namespace Kerplace

/-! ## Records -/

/-- `AccessEntry`. -/
structure AccessEntry where
  ts : Str
  accessKey : Option Str
  remoteIp : Option Str
  method : Str
  op : Str
  bucket : Option Str
  key : Option Str
  versionId : Option Str
  status : Nat
  deriving DecidableEq

/-- `AuditContext`. -/
structure AuditContext where
  accessKey : Option Str
  remoteIp : Option Str
  deriving DecidableEq

/-- `key_for`. -/
def keyFor (path : Str) : Option Str :=
  ((splitOnceAt '/' (path.dropWhile (· == '/'))).map Prod.snd).filter fun key =>
    decide (key ≠ [])

/-- `version_id_from_query`. -/
def versionIdFromQuery (query : Option Str) : Option Str :=
  query.bind fun q => (q.splitOn '&').findSome? fun p => p.dropPrefix? "versionId=".toList

/-- `op_for`. -/
def opFor (method : Method) (hasBucket hasKey : Bool) (path : Str) : Str :=
  if "/kerplace/admin".toList.isPrefixOf path || "/minio/admin".toList.isPrefixOf path then
    "AdminRequest".toList
  else
    match hasBucket, hasKey with
    | false, _ =>
        match method with
        | .get => "ListBuckets".toList
        | .post => "AssumeRole".toList
        | _ => "Other".toList
    | true, false =>
        match method with
        | .get => "ListObjects".toList
        | .head => "HeadBucket".toList
        | .put => "CreateBucket".toList
        | .delete => "DeleteBucket".toList
        | .post => "PostBucket".toList
        | _ => "Other".toList
    | true, true =>
        match method with
        | .get => "GetObject".toList
        | .head => "HeadObject".toList
        | .put => "PutObject".toList
        | .delete => "DeleteObject".toList
        | .post => "PostObject".toList
        | _ => "Other".toList

/-- `entry_for`, with the time as it is rendered. -/
def entryFor (ts : Str) (req : Request) (ctx : AuditContext) (status : Nat) : AccessEntry where
  ts := ts
  accessKey := ctx.accessKey
  remoteIp := ctx.remoteIp
  method := req.method.asStr
  op := opFor req.method (bucketFor req.path).isSome (keyFor req.path).isSome req.path
  bucket := bucketFor req.path
  key := keyFor req.path
  versionId := versionIdFromQuery req.query
  status := status

namespace AccessEntry

/-- An optional text. -/
def optional : Option Str → Json.Value
  | none => .null
  | some s => .text s

/-- The members after the first. -/
def members (e : AccessEntry) : List (Str × Json.Value) :=
  [("access_key".toList, optional e.accessKey), ("remote_ip".toList, optional e.remoteIp),
    ("method".toList, .text e.method), ("op".toList, .text e.op),
    ("bucket".toList, optional e.bucket), ("key".toList, optional e.key),
    ("version_id".toList, optional e.versionId), ("status".toList, .number e.status)]

/-- `serde_json::to_string`. -/
def toJson (e : AccessEntry) : Str := Json.object (['t', 's'], .text e.ts) e.members

/-- The bytes of a record. -/
def bytes (e : AccessEntry) : Bytes := utf8 e.toJson

theorem optional_injective {a b : Option Str} (h : optional a = optional b) : a = b := by
  cases a <;> cases b <;> simp_all [optional]

theorem toJson_injective {d e : AccessEntry} (h : d.toJson = e.toJson) : d = e := by
  obtain ⟨hts, hmembers⟩ := Json.object_injective h
  simp only [members, List.cons.injEq, Prod.mk.injEq, Json.Value.text.injEq,
    Json.Value.number.injEq, true_and, and_true] at hts hmembers
  obtain ⟨hkey, hip, hmethod, hop, hbucket, hobject, hversion, hstatus⟩ := hmembers
  cases d
  cases e
  simp only [AccessEntry.mk.injEq]
  exact ⟨hts, optional_injective hkey, optional_injective hip, hmethod, hop,
    optional_injective hbucket, optional_injective hobject, optional_injective hversion, hstatus⟩

theorem bytes_injective {d e : AccessEntry} (h : d.bytes = e.bytes) : d = e :=
  toJson_injective (IamStore.utf8_injective h)

end AccessEntry

/-! ## Single bytes in UTF-8 -/

/-- A character is one byte, or several that are none of a single one. -/
theorem utf8EncodeChar_cases (c : Char) :
    (c.toNat < 128 ∧ String.utf8EncodeChar c = [UInt8.ofNat c.toNat]) ∨
      ∀ b ∈ String.utf8EncodeChar c, 128 ≤ b.toNat := by
  unfold String.utf8EncodeChar
  dsimp only
  split
  · rename_i h
    exact .inl ⟨Nat.lt_succ_of_le h, rfl⟩
  · right
    split
    · simp only [List.mem_cons, List.not_mem_nil, or_false]
      rintro b (rfl | rfl) <;> rw [UInt8.toNat_ofNat'] <;> omega
    · split
      · simp only [List.mem_cons, List.not_mem_nil, or_false]
        rintro b (rfl | rfl | rfl) <;> rw [UInt8.toNat_ofNat'] <;> omega
      · simp only [List.mem_cons, List.not_mem_nil, or_false]
        rintro b (rfl | rfl | rfl | rfl) <;> rw [UInt8.toNat_ofNat'] <;> omega

theorem utf8_cons (c : Char) (s : Str) : utf8 (c :: s) = String.utf8EncodeChar c ++ utf8 s :=
  List.flatMap_cons

/-- Where a single byte stands in a text, a character begins. -/
theorem utf8_split {t : Str} {p q : Bytes} {b : UInt8} (hb : b.toNat < 128)
    (h : utf8 t = p ++ b :: q) : ∃ s u, t = s ++ u ∧ p = utf8 s ∧ utf8 u = b :: q := by
  induction t generalizing p with
  | nil =>
      cases p with
      | nil => cases h
      | cons a p => cases h
  | cons c t ih =>
      rw [utf8_cons] at h
      rcases utf8EncodeChar_cases c with ⟨-, hc⟩ | hc
      · rw [hc, List.singleton_append] at h
        cases p with
        | nil => exact ⟨[], c :: t, rfl, rfl, by rw [utf8_cons, hc]; exact h⟩
        | cons a p =>
            obtain ⟨rfl, hrest⟩ := List.cons.inj h
            obtain ⟨s, u, rfl, rfl, hu⟩ := ih hrest
            exact ⟨c :: s, u, rfl, by rw [utf8_cons, hc]; rfl, hu⟩
      · -- the single byte is behind all bytes of the character
        rcases List.append_eq_append_iff.1 h with ⟨m, rfl, hm⟩ | ⟨m, hm, hrest⟩
        · obtain ⟨s, u, rfl, rfl, hu⟩ := ih hm
          exact ⟨c :: s, u, rfl, (utf8_cons c s).symm, hu⟩
        · cases m with
          | nil =>
              rw [List.append_nil] at hm
              obtain ⟨s, u, rfl, hs, hu⟩ := ih (p := []) hrest.symm
              refine ⟨c :: s, u, rfl, ?_, hu⟩
              rw [utf8_cons, ← hs, hm, List.append_nil]
          | cons a m =>
              obtain ⟨rfl, -⟩ := List.cons.inj hrest
              exact absurd (hc b (hm ▸ List.mem_append_right _ List.mem_cons_self))
                (Nat.not_le.2 hb)

/-! ## Lines of the file -/

/-- The byte of a line break. -/
def NEWLINE : UInt8 := 10

/-- The line that `log` sends. -/
def AccessEntry.line (e : AccessEntry) : Bytes := e.bytes ++ [NEWLINE]

/-- A line that is a record. -/
def IsRecord (l : Bytes) : Prop := ∃ e : AccessEntry, l = e.bytes

theorem newline_record {l : Bytes} (h : IsRecord l) : NEWLINE ∉ l := by
  obtain ⟨e, rfl⟩ := h
  intro hmem
  obtain ⟨p, q, hsplit⟩ := List.append_of_mem hmem
  obtain ⟨s, u, ht, -, hu⟩ := utf8_split (by decide) hsplit
  cases u with
  | nil => cases hu
  | cons c u =>
      have hc : c ∈ e.toJson := ht ▸ List.mem_append_right _ List.mem_cons_self
      have hprint := Json.printable_object _ _ c hc
      rw [utf8_cons] at hu
      rcases utf8EncodeChar_cases c with ⟨hlow, hc⟩ | hc
      · rw [hc] at hu
        have hbyte := congrArg UInt8.toNat (List.cons.inj hu).1
        rw [UInt8.toNat_ofNat', Nat.mod_eq_of_lt (by omega)] at hbyte
        rw [hbyte] at hprint
        exact absurd hprint (by decide)
      · obtain ⟨b, rest, hb⟩ := List.exists_cons_of_ne_nil (String.utf8EncodeChar_ne_nil (c := c))
        rw [hb] at hu hc
        have hbig := hc b List.mem_cons_self
        rw [(List.cons.inj hu).1] at hbig
        exact absurd hbig (by decide)

theorem not_isRecord_append {before : Bytes} (hne : before ≠ []) (e : AccessEntry) :
    ¬ IsRecord (before ++ e.bytes) := by
  rintro ⟨d, h⟩
  have hbrace : e.bytes = 123 :: utf8 (e.toJson.tail) := rfl
  rw [hbrace] at h
  obtain ⟨s, u, ht, rfl, hu⟩ := utf8_split (by decide) h.symm
  rw [← hbrace] at hu
  rw [IamStore.utf8_injective hu] at ht
  refine Json.append_object_ne ?_ (by decide) (by decide) ht.symm
  rintro rfl
  exact hne rfl

/-! ## The logger -/

/-- `AccessLogger`: the lines in the channel, and the file. -/
structure AccessLogger where
  queue : List Bytes
  file : Bytes

/-- What happens to the logger. -/
inductive LogStep where
  /-- `log`. -/
  | log (e : AccessEntry)
  /-- The task takes a line, and so many bytes of it get to the file. -/
  | write (n : Nat)
  /-- The process ends, and another opens the file. -/
  | restart

namespace AccessLogger

/-- A step of the logger. -/
def step (s : AccessLogger) : LogStep → AccessLogger
  | .log e => { s with queue := s.queue ++ [e.line] }
  | .write n =>
      match s.queue with
      | [] => s
      | l :: queue => ⟨queue, s.file ++ l.take n⟩
  | .restart => { s with queue := [] }

/-- The logger as a machine. -/
def machine : Machine AccessLogger LogStep Unit where
  step s c := ((), s.step c)

/-- A logger before anything is logged. -/
def start : AccessLogger := ⟨[], []⟩

/-- The lines of the file that are ended and are records. -/
noncomputable def records (file : Bytes) : List Bytes :=
  open Classical in (file.splitOn NEWLINE).dropLast.filter fun l => decide (IsRecord l)

/-- A line begins at the end of the file. -/
def LineStart (file : Bytes) : Prop := file.getLast?.getD NEWLINE = NEWLINE

instance (file : Bytes) : Decidable (LineStart file) := inferInstanceAs (Decidable (_ = _))

/-- A write that fails part way. -/
def torn (v : Visit AccessLogger LogStep Unit) : Bool :=
  match v.call, v.before.queue with
  | .write n, l :: _ => decide (n < l.length)
  | _, _ => false

/-- The record of a line that is written whole where a line begins. -/
def kept (v : Visit AccessLogger LogStep Unit) : Option Bytes :=
  match v.call, v.before.queue with
  | .write n, l :: _ => if l.length ≤ n ∧ LineStart v.before.file then some l.dropLast else none
  | _, _ => none

/-- The record that a step logs. -/
def sent : LogStep → Option Bytes
  | .log e => some e.bytes
  | _ => none

/-- The records of the lines in the channel. -/
def waiting (s : AccessLogger) : List Bytes := s.queue.map List.dropLast

/-- Every line in the channel is a record's. -/
def Lined (s : AccessLogger) : Prop := ∀ l ∈ s.queue, ∃ e : AccessEntry, l = e.line

theorem Lined.step {s : AccessLogger} (h : s.Lined) (c : LogStep) : (s.step c).Lined := by
  cases c with
  | log e =>
      intro l hl
      rcases List.mem_append.1 hl with hl | hl
      · exact h l hl
      · exact ⟨e, List.mem_singleton.1 hl⟩
  | write n =>
      cases hq : s.queue with
      | nil =>
          rw [AccessLogger.step, hq]
          exact h
      | cons l queue =>
          rw [AccessLogger.step, hq]
          exact fun l' hl' => h l' (hq ▸ List.mem_cons_of_mem _ hl')
  | restart => exact fun l hl => absurd hl List.not_mem_nil

/-! ### What a write does -/

/-- The lines of a file, and what is left of one behind them. -/
structure Reads (file : Bytes) (ls : List Bytes) (tail : Bytes) : Prop where
  eq : file = Lines.ended NEWLINE ls ++ tail
  lines : ∀ l ∈ ls, NEWLINE ∉ l
  tail : NEWLINE ∉ tail

theorem exists_reads (file : Bytes) : ∃ ls tail, Reads file ls tail := by
  obtain ⟨ls, tail, heq, hls, htail⟩ := Lines.exists_ended NEWLINE file
  exact ⟨ls, tail, heq, hls, htail⟩

open Classical in
theorem Reads.records {file : Bytes} {ls : List Bytes} {tail : Bytes} (h : Reads file ls tail) :
    records file = ls.filter fun l => decide (IsRecord l) := by
  rw [AccessLogger.records, h.eq, Lines.splitOn_ended h.lines h.tail, List.dropLast_concat]

theorem Reads.lineStart {file : Bytes} {ls : List Bytes} {tail : Bytes} (h : Reads file ls tail) :
    LineStart file ↔ tail = [] := by
  rw [LineStart, h.eq]
  constructor
  · intro hlast
    by_contra hne
    rw [List.getLast?_append, List.getLast?_eq_getLast_of_ne_nil hne] at hlast
    exact h.tail (hlast ▸ List.getLast_mem hne)
  · rintro rfl
    rw [List.append_nil]
    induction ls using List.reverseRecOn with
    | nil => rfl
    | append_singleton ls l => rw [Lines.ended_snoc, List.getLast?_concat]; rfl

theorem records_torn {file : Bytes} {e : AccessEntry} {n : Nat} (hn : n < e.line.length) :
    records (file ++ e.line.take n) = records file := by
  obtain ⟨ls, tail, h⟩ := exists_reads file
  have htake : e.line.take n = e.bytes.take n := by
    rw [AccessEntry.line, List.length_append] at hn
    rw [AccessEntry.line, List.take_append_of_le_length (Nat.le_of_lt_succ hn)]
  have hafter : Reads (file ++ e.line.take n) ls (tail ++ e.bytes.take n) := by
    refine ⟨by rw [h.eq, htake, List.append_assoc], h.lines, fun hmem => ?_⟩
    rcases List.mem_append.1 hmem with hmem | hmem
    · exact h.tail hmem
    · exact newline_record ⟨e, rfl⟩ (List.mem_of_mem_take hmem)
  rw [hafter.records, h.records]

open Classical in
/-- A line written whole is a record of the file where a line begins, and nowhere else. -/
theorem records_whole (file : Bytes) (e : AccessEntry) :
    records (file ++ e.line) = records file ++ if LineStart file then [e.bytes] else [] := by
  obtain ⟨ls, tail, h⟩ := exists_reads file
  have hafter : Reads (file ++ e.line) (ls ++ [tail ++ e.bytes]) [] := by
    refine ⟨?_, ?_, List.not_mem_nil⟩
    · rw [h.eq, AccessEntry.line, Lines.ended_snoc, List.append_nil, List.append_assoc,
        List.append_assoc, List.append_assoc]
    · intro l hl
      rcases List.mem_append.1 hl with hl | hl
      · exact h.lines l hl
      · rw [List.mem_singleton.1 hl]
        intro hmem
        exact (List.mem_append.1 hmem).elim h.tail (newline_record ⟨e, rfl⟩)
  rw [hafter.records, h.records, List.filter_append]
  congr 1
  by_cases htail : tail = []
  · rw [if_pos (h.lineStart.2 htail), htail, List.nil_append, List.filter_cons_of_pos]
    · rfl
    · exact decide_eq_true ⟨e, rfl⟩
  · rw [if_neg (mt h.lineStart.1 htail), List.filter_cons_of_neg]
    · rfl
    · exact fun hrec => not_isRecord_append htail e (of_decide_eq_true hrec)

theorem lineStart_line (file : Bytes) (e : AccessEntry) : LineStart (file ++ e.line) := by
  rw [LineStart, AccessEntry.line, ← List.append_assoc, List.getLast?_concat]
  rfl

/-! ### Runs -/

/-- Whether the next record is to be lost. -/
def pending (file : Bytes) : Nat := if LineStart file then 0 else 1

/-- What one step makes of the file, of what waits and of what it loses. -/
structure Stepped (s : AccessLogger) (c : LogStep) : Prop where
  records : records (s.step c).file = records s.file ++ (kept (machine.visit s c)).toList
  order : ((kept (machine.visit s c)).toList ++ (s.step c).waiting).Sublist
    (s.waiting ++ (sent c).toList)
  losses : c ≠ .restart → s.waiting.length + (sent c).toList.length +
      pending (s.step c).file ≤
    (kept (machine.visit s c)).toList.length + (s.step c).waiting.length +
      2 * (torn (machine.visit s c)).toNat + pending s.file

theorem stepped_log (s : AccessLogger) (e : AccessEntry) : Stepped s (.log e) := by
  have hwaiting : (s.step (.log e)).waiting = s.waiting ++ [e.bytes] := by
    rw [waiting, waiting, step, List.map_append, List.map_singleton, AccessEntry.line,
      List.dropLast_concat]
  refine ⟨(List.append_nil _).symm, ?_, fun _ => ?_⟩
  · rw [hwaiting]
    exact List.Sublist.refl _
  · have hlogged : (sent (.log e)).toList.length = 1 := rfl
    have hfile : (s.step (.log e)).file = s.file := rfl
    rw [hwaiting, hlogged, hfile, List.length_append, List.length_singleton]
    omega

theorem stepped_write_nil {s : AccessLogger} (hq : s.queue = []) (n : Nat) :
    Stepped s (.write n) := by
  have hsent : (sent (.write n)).toList = [] := rfl
  have hstep : s.step (.write n) = s := by rw [step, hq]
  have hkept : kept (machine.visit s (.write n)) = none := by
    simp only [kept, Machine.visit, hq]
  refine ⟨?_, ?_, fun _ => ?_⟩
  · rw [hstep, hkept]
    exact (List.append_nil _).symm
  · rw [hstep, hkept, hsent, List.append_nil]
    exact List.Sublist.refl _
  · rw [hstep, hsent, List.length_nil]
    omega

section

variable {s : AccessLogger} {e : AccessEntry} {queue : List Bytes} {n : Nat}

theorem waiting_write (hq : s.queue = e.line :: queue) (n : Nat) :
    s.waiting = e.bytes :: (s.step (.write n)).waiting := by
  rw [waiting, waiting, step, hq, List.map_cons, AccessEntry.line, List.dropLast_concat]

theorem stepped_write_whole (hq : s.queue = e.line :: queue) (hn : e.line.length ≤ n) :
    Stepped s (.write n) := by
  have hsent : (sent (.write n)).toList = [] := rfl
  have hfile : (s.step (.write n)).file = s.file ++ e.line := by
    rw [step, hq]
    dsimp only
    rw [List.take_of_length_le hn]
  have hkept : (kept (machine.visit s (.write n))).toList =
      if LineStart s.file then [e.bytes] else [] := by
    simp only [kept, Machine.visit, hq, hn, true_and]
    split
    · rw [AccessEntry.line, List.dropLast_concat]
      rfl
    · rfl
  have hclean : pending (s.step (.write n)).file = 0 := by
    rw [hfile]
    exact if_pos (lineStart_line _ _)
  refine ⟨by rw [hfile, records_whole, hkept], ?_, fun _ => ?_⟩
  · rw [hkept, waiting_write hq n, hsent, List.append_nil]
    split
    · exact List.Sublist.refl _
    · exact List.sublist_cons_self _ _
  · rw [hkept, waiting_write hq n, hclean, hsent, pending]
    split
    · simp only [List.length_cons, List.length_nil]
      omega
    · simp only [List.length_cons, List.length_nil]
      omega

theorem stepped_write_torn (hq : s.queue = e.line :: queue) (hn : n < e.line.length) :
    Stepped s (.write n) := by
  have hsent : (sent (.write n)).toList = [] := rfl
  have hfile : (s.step (.write n)).file = s.file ++ e.line.take n := by rw [step, hq]
  have hkept : kept (machine.visit s (.write n)) = none := by
    simp only [kept, Machine.visit, hq, Nat.not_le.2 hn, false_and, if_false]
  have htorn : (torn (machine.visit s (.write n))).toNat = 1 := by
    simp only [torn, Machine.visit, hq, decide_eq_true hn, Bool.toNat_true]
  refine ⟨?_, ?_, fun _ => ?_⟩
  · rw [hfile, records_torn hn, hkept]
    exact (List.append_nil _).symm
  · rw [hkept, waiting_write hq n, hsent, List.append_nil]
    exact List.sublist_cons_self _ _
  · -- the record of the failed write is lost, and maybe the next
    have hone : pending (s.step (.write n)).file ≤ 1 := by
      rw [pending]
      split <;> omega
    rw [waiting_write hq n, hsent, htorn, List.length_cons, List.length_nil]
    omega

end

theorem stepped {s : AccessLogger} (hs : s.Lined) (c : LogStep) : Stepped s c := by
  cases c with
  | log e => exact stepped_log s e
  | write n =>
      cases hq : s.queue with
      | nil => exact stepped_write_nil hq n
      | cons l queue =>
          obtain ⟨e, rfl⟩ := hs l (hq ▸ List.mem_cons_self)
          by_cases hn : e.line.length ≤ n
          · exact stepped_write_whole hq hn
          · exact stepped_write_torn hq (Nat.not_le.1 hn)
  | restart =>
      refine ⟨(List.append_nil _).symm, ?_, fun h => absurd rfl h⟩
      exact List.nil_sublist _

theorem filterMap_cons_toList {α β : Type} (f : α → Option β) (a : α) (l : List α) :
    (a :: l).filterMap f = (f a).toList ++ l.filterMap f := by
  rw [List.filterMap_eq_flatMap_toList, List.filterMap_eq_flatMap_toList, List.flatMap_cons]

theorem run_records {s : AccessLogger} (hs : s.Lined) (cs : List LogStep) :
    records (machine.final s cs).file =
      records s.file ++ (machine.visits s cs).filterMap kept := by
  induction cs generalizing s with
  | nil => exact (List.append_nil _).symm
  | cons c cs ih =>
      rw [Machine.visits_cons, filterMap_cons_toList, ← List.append_assoc,
        ← (stepped hs c).records]
      exact ih (hs.step c)

theorem run_order {s : AccessLogger} (hs : s.Lined) (cs : List LogStep) :
    ((machine.visits s cs).filterMap kept ++ (machine.final s cs).waiting).Sublist
      (s.waiting ++ cs.filterMap sent) := by
  induction cs generalizing s with
  | nil => exact (List.append_nil s.waiting).symm ▸ List.Sublist.refl _
  | cons c cs ih =>
      rw [Machine.final_cons, Machine.visits_cons, filterMap_cons_toList, filterMap_cons_toList,
        List.append_assoc, ← List.append_assoc s.waiting]
      refine ((ih (hs.step c)).append_left _).trans ?_
      rw [← List.append_assoc]
      exact (stepped hs c).order.append_right _

theorem run_losses {s : AccessLogger} (hs : s.Lined) (cs : List LogStep)
    (hcs : .restart ∉ cs) :
    s.waiting.length + (cs.filterMap sent).length + pending (machine.final s cs).file ≤
      ((machine.visits s cs).filterMap kept).length + (machine.final s cs).waiting.length +
        2 * (machine.visits s cs).countP torn + pending s.file := by
  induction cs generalizing s with
  | nil => simp
  | cons c cs ih =>
      have hfirst := (stepped hs c).losses fun h => hcs (h ▸ List.mem_cons_self)
      have hrest := ih (hs.step c) fun h => hcs (List.mem_cons_of_mem _ h)
      rw [Machine.final_cons, Machine.visits_cons, filterMap_cons_toList, filterMap_cons_toList,
        List.length_append, List.length_append, List.countP_cons]
      have hbool : (if torn (machine.visit s c) = true then 1 else 0) =
          (torn (machine.visit s c)).toNat := by
        cases torn (machine.visit s c) <;> rfl
      rw [hbool]
      have hsame : (machine.step s c).2 = s.step c := rfl
      rw [hsame]
      omega

theorem lined_start : start.Lined := fun _ h => absurd h List.not_mem_nil

theorem records_final (cs : List LogStep) :
    records (machine.final start cs).file = (machine.visits start cs).filterMap kept := by
  have hreads : Reads start.file [] [] :=
    ⟨rfl, fun l hl => absurd hl List.not_mem_nil, List.not_mem_nil⟩
  have hempty : records start.file = [] := by rw [hreads.records, List.filter_nil]
  rw [run_records lined_start cs, hempty, List.nil_append]

/-- What the file holds after any run of the logger that begins with an empty file, whatever is
logged and however the writes end: its records are just those of the lines that were written
whole where a line begins; they and those that wait are in the order in which they were logged,
each once and none besides; and, as long as the process does not end, a write that fails costs
the record it was to write and at most one more. -/
theorem log_file_exact (cs : List LogStep) :
    records (machine.final start cs).file = (machine.visits start cs).filterMap kept ∧
    (records (machine.final start cs).file ++ (machine.final start cs).waiting).Sublist
      (cs.filterMap sent) ∧
    (.restart ∉ cs → (cs.filterMap sent).length ≤
      (records (machine.final start cs).file).length + (machine.final start cs).waiting.length +
        2 * (machine.visits start cs).countP torn) := by
  rw [records_final]
  refine ⟨rfl, run_order lined_start cs, fun hcs => ?_⟩
  have hlosses := run_losses lined_start cs hcs
  have hclean : pending start.file = 0 := rfl
  have hnone : start.waiting.length = 0 := rfl
  omega

end AccessLogger

end Kerplace
