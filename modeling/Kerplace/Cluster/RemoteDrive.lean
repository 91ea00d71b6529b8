/-
# `Kerplace.Cluster.RemoteDrive` — the drive of another node, beside one of our own

`RemoteDrive` sends each operation of the `Drive` trait to a drive server and reads the
answer.  "To `ErasureStore` it is indistinguishable from a `LocalDrive`": here is when
that holds of one operation on one drive.  Three things get in the way.  The health of a
remote drive does not look at the drive; a walk sends paths as text, so that a name that
is not UTF-8 arrives as another; a time before the epoch is not sent.
-/
import Kerplace.Cluster.DriveServer

namespace Kerplace

/-! ## The operations of a drive -/

/-- The operations of `Drive` with what they are given.  A streaming read goes to its end, a
streaming write through `shutdown`. -/
inductive DriveCall where
  | online
  | read (rel : Str)
  | write (rel : Str) (data : Bytes)
  | openRead (rel : Str)
  | readAt (rel : Str) (offset len : Nat)
  | createWrite (rel : Str) (chunks : List Bytes)
  | rename (src dst : Str)
  | removeFile (rel : Str)
  | removeDir (rel : Str)
  | removeDirAll (rel : Str)
  | createDirAll (rel : Str)
  | stat (rel : Str)
  | readDir (rel : Str)
  | walk (rel : Str)

/-- What they give. -/
inductive DriveReply where
  | up (b : Bool)
  | done
  | octets (b : Bytes)
  | stat (s : FileStat)
  | entries (es : List DriveEntry)
  | walked (es : List WalkEntry)
  deriving DecidableEq

/-- The outcome of a change. -/
def changed (t : HostTree) : Except IoKind HostTree → Except IoKind DriveReply × HostTree
  | .ok t' => (.ok .done, t')
  | .error e => (.error e, t)

/-- An operation on a drive of our own. -/
def LocalDrive.call (h : Host) (root : List Bytes) :
    DriveCall → HostTree → Except IoKind DriveReply × HostTree
  | .online, t => (.ok (.up (online root t)), t)
  | .read rel, t => ((read h root rel t).map .octets, t)
  | .write rel data, t => changed t (write h root rel data t)
  | .openRead rel, t => ((read h root rel t).map .octets, t)
  | .readAt rel offset len, t => ((readAt h root rel offset len t).map .octets, t)
  | .createWrite rel chunks, t =>
      match create h root rel t with
      | .error e => (.error e, t)
      | .ok t₁ =>
          match writeAll h root rel chunks t₁ with
          | (.ok (), t₂) => (.ok .done, t₂)
          | (.error e, t₂) => (.error e, t₂)
  | .rename src dst, t => changed t (rename h root src dst t)
  | .removeFile rel, t => changed t (removeFile h root rel t)
  | .removeDir rel, t => changed t (removeDir h root rel t)
  | .removeDirAll rel, t => changed t (removeDirAll h root rel t)
  | .createDirAll rel, t => changed t (createDirAll h root rel t)
  | .stat rel, t => ((stat h root rel t).map .stat, t)
  | .readDir rel, t => ((readDir h root rel t).map .entries, t)
  | .walk rel, t => (.ok (.walked (walk root rel t)), t)

/-! ## `RemoteDrive` -/

/-- `is_success`. -/
def RpcResponse.success (r : RpcResponse) : Bool := decide (200 ≤ r.status ∧ r.status < 300)

/-- `bytes`, and a stream read to its end. -/
def RpcResponse.bytes (r : RpcResponse) : Except IoKind Bytes :=
  match r.body with
  | .octets b => .ok b
  | .empty => .ok []
  | .broken => .error .other
  -- no request for bytes is answered with a document
  | .json _ => .error .other

/-- The document of a response, of one of its types. -/
def WireDoc.stat? : WireDoc → Option FileStat
  | .stat s => some s
  | _ => none

def WireDoc.entries? : WireDoc → Option (List DirEntryDto)
  | .entries es => some es
  | _ => none

def WireDoc.walk? : WireDoc → Option (List WalkEntryDto)
  | .walk es => some es
  | _ => none

/-- `json`. -/
def RpcResponse.json {α : Type} (as? : WireDoc → Option α) (r : RpcResponse) :
    Except IoKind α :=
  match r.body with
  | .json doc => LocalDrive.orKind .other (as? doc)
  | _ => .error .other

/-- The answer to a request that is not told apart from other failures by 404. -/
def RpcResponse.accepted {α : Type} (r : RpcResponse) (k : RpcResponse → Except IoKind α) :
    Except IoKind α :=
  if r.success then k r else .error .other

/-- The answer to a request for something that may not be there. -/
def RpcResponse.found {α : Type} (r : RpcResponse) (k : RpcResponse → Except IoKind α) :
    Except IoKind α :=
  if r.status = 404 then .error .notFound else r.accepted k

/-- `RemoteDrive`: the shared secret, and the token that `fence_for` finds for this node. -/
structure RemoteDrive where
  secret : Str
  fence : Option (Str × Nat)

namespace RemoteDrive

variable (w : Wire) (d : RemoteDrive)

/-- A request with the bearer secret. -/
def request (m : Method) (e : Endpoint) (params : List (Str × Str))
    (headers : List (HeaderName × Str)) (body : List Bytes) : RpcRequest :=
  ⟨m, e, w.encodeQuery params, (.authorization, "Bearer ".toList ++ d.secret) :: headers, body⟩

/-- `fenced`: the headers with the token. -/
def fenced : List (HeaderName × Str) :=
  match d.fence with
  | some (res, tok) => [(.fenceRes, res), (.fenceTok, Nat.toDigits 10 tok)]
  | none => []

/-- `rel_str`: a path that is UTF-8, as it is. -/
def relStr (rel : Str) : Str := rel

/-- The `Range` of `len` bytes from `offset`; the last is computed as a `u64`. -/
def rangeHeader (offset len : Nat) : Str :=
  "bytes=".toList ++ (Nat.toDigits 10 offset ++
    '-' :: Nat.toDigits 10 ((offset + len + (2 ^ 64 - 1)) % 2 ^ 64))

/-- The request of an operation. -/
def send : DriveCall → RpcRequest
  | .online => d.request w .get .health [] [] []
  | .read rel => d.request w .get .file [("p".toList, relStr rel)] [] []
  | .write rel data =>
      d.request w .put .file [("p".toList, relStr rel)] d.fenced (w.frames data)
  | .openRead rel => d.request w .get .file [("p".toList, relStr rel)] [] []
  | .readAt rel offset len => d.request w .get .file [("p".toList, relStr rel)]
      [(.range, rangeHeader offset len)] []
  | .createWrite rel chunks =>
      d.request w .put .file [("p".toList, relStr rel)] d.fenced (w.frames chunks.flatten)
  | .rename src dst => d.request w .post .rename
      [("from".toList, relStr src), ("to".toList, relStr dst)] d.fenced []
  | .removeFile rel => d.request w .delete .file
      [("p".toList, relStr rel), ("kind".toList, "file".toList)] d.fenced []
  | .removeDir rel => d.request w .delete .file
      [("p".toList, relStr rel), ("kind".toList, "dir".toList)] d.fenced []
  | .removeDirAll rel => d.request w .delete .file
      [("p".toList, relStr rel), ("kind".toList, "tree".toList)] d.fenced []
  | .createDirAll rel => d.request w .post .mkdir [("p".toList, relStr rel)] d.fenced []
  | .stat rel => d.request w .get .stat [("p".toList, relStr rel)] [] []
  | .readDir rel => d.request w .get .readdir [("p".toList, relStr rel)] [] []
  | .walk rel => d.request w .get .walk [("p".toList, relStr rel)] [] []

/-- What an operation makes of the response. -/
def receive (r : RpcResponse) : DriveCall → Except IoKind DriveReply
  | .online => .ok (.up r.success)
  | .read _ => r.found fun r => r.bytes.map .octets
  | .write _ _ => r.accepted fun _ => .ok .done
  | .openRead _ => r.found fun r => r.bytes.map .octets
  | .readAt _ _ len => r.found fun r =>
      r.bytes.bind fun b => if b.length = len then .ok (.octets b) else .error .other
  | .createWrite _ _ => r.accepted fun _ => .ok .done
  | .rename _ _ => r.accepted fun _ => .ok .done
  | .removeFile _ => r.found fun _ => .ok .done
  | .removeDir _ => r.found fun _ => .ok .done
  | .removeDirAll _ => r.found fun _ => .ok .done
  | .createDirAll _ => r.accepted fun _ => .ok .done
  | .stat _ => r.found fun r => (r.json WireDoc.stat?).map .stat
  | .readDir _ => r.accepted fun r => (r.json WireDoc.entries?).map fun dto =>
      .entries (dto.map fun e => ⟨e.name, e.isDir,
        (e.createdUnix.filter fun s => decide (0 ≤ s)).map fun s => s * 10 ^ 9⟩)
  | .walk _ => r.accepted fun r => (r.json WireDoc.walk?).map fun dto =>
      .walked (dto.map fun e => ⟨utf8 e.rel, e.isFile⟩)

/-- An operation on the drive behind a server. -/
def call (h : Host) (st : DriveServer) (c : DriveCall) (t : HostTree) :
    Except IoKind DriveReply × HostTree :=
  (receive (st.serve h w (d.send w c) t).1 c, (st.serve h w (d.send w c) t).2)

end RemoteDrive

/-! ## Behaving alike -/

/-- A listing with its times in whole seconds. -/
def wholeSeconds (es : List DriveEntry) : List (Str × Bool × Option Int) :=
  es.map fun e => (e.name, e.isDir, e.created.map fun ns => ns / 10 ^ 9)

/-- The same data, up to whole-second creation times. -/
def DriveReply.Same : DriveReply → DriveReply → Prop
  | .entries es, .entries es' => wholeSeconds es = wholeSeconds es'
  | r, r' => r = r'

/-- Both succeed with the same data, or both fail. -/
def SameOutcome : Except IoKind DriveReply → Except IoKind DriveReply → Prop
  | .ok r, .ok r' => r.Same r'
  | .error _, .error _ => True
  | _, _ => False

/-- The operation through the server, without a fencing token, does what it does on the
drive itself. -/
def BehavesLocally (h : Host) (w : Wire) (st : DriveServer) (c : DriveCall) (t : HostTree) :
    Prop :=
  SameOutcome (LocalDrive.call h st.root c t).1 (RemoteDrive.call w ⟨st.secret, none⟩ h st c t).1 ∧
    (RemoteDrive.call w ⟨st.secret, none⟩ h st c t).2 = (LocalDrive.call h st.root c t).2

/-- Relative paths of normal components; a positioned read of at least one byte, up to an
offset of 63 bits. -/
def DriveCall.Regular : DriveCall → Prop
  | .online => True
  | .rename src dst => (UnixPath.ofStr src).Plain ∧ (UnixPath.ofStr dst).Plain
  | .readAt rel offset len => (UnixPath.ofStr rel).Plain ∧ 1 ≤ len ∧ offset + len < 2 ^ 63
  | .read rel | .write rel _ | .openRead rel | .createWrite rel _ | .removeFile rel
  | .removeDir rel | .removeDirAll rel | .createDirAll rel | .stat rel | .readDir rel
  | .walk rel => (UnixPath.ofStr rel).Plain

/-- Where a drive behind a server shows what the drive itself shows: it is asked for its
health while its root is there, walked where every path is UTF-8, and listed where nothing
is older than the epoch. -/
def DriveCall.Shown (h : Host) (root : List Bytes) (t : HostTree) : DriveCall → Prop
  | .online => (t.look root).isSome = true
  | .walk rel => ∀ p names n, LocalDrive.abs root rel = some p → names ≠ [] →
      t.look (p ++ names) = some n → ∃ s, fromUtf8 (joinNames names) = some s
  | .readDir rel => ∀ p x n ns, LocalDrive.abs root rel = some p →
      t.look (p ++ [x]) = some n → h.created t (p ++ [x]) = some ns → 0 ≤ ns
  | _ => True

/-! ## What arrives -/

namespace DriveServer

variable {h : Host} {w : Wire} {st : DriveServer} {d : RemoteDrive} {m : Method} {e : Endpoint}
  {params : List (Str × Str)} {headers : List (HeaderName × Str)} {body : List Bytes}
  {t : HostTree}

theorem safeRel_plain {rel : Str} (hrel : (UnixPath.ofStr rel).Plain) :
    safeRel rel = .ok rel := if_pos hrel

theorem auth_request (htext : HeaderText ("Bearer ".toList ++ st.secret))
    (hsecret : d.secret = st.secret) :
    st.auth w (d.request w m e params headers body) = true := by
  have hheader : (d.request w m e params headers body).header w .authorization =
      some ("Bearer ".toList ++ st.secret) := by
    rw [← w.header_text _ htext, ← hsecret]
    rfl
  have hdrop : ("Bearer ".toList ++ st.secret).dropPrefix? "Bearer ".toList = some st.secret :=
    List.dropPrefix?_eq_some_iff.2 ⟨"Bearer ".toList, rfl, beq_self_eq_true _⟩
  rw [auth, hheader, Option.bind_some, hdrop]
  exact decide_eq_true rfl

theorem fencedOut_request : st.fencedOut w (d.request w m e params [] body) = false := rfl

theorem withField_request {name v : Str} (hfield : queryField params name = some v)
    (k : Str → RpcResponse × HostTree) :
    withField w (d.request w m e params headers body) t name k = k v := by
  have hquery : w.decodeQuery (d.request w m e params headers body).query = some params :=
    w.decodeQuery_encodeQuery params
  rw [withField, hquery, Option.bind_some, hfield]

theorem queryField_one (name v : Str) : queryField [(name, v)] name = some v := by
  simp [queryField]

theorem queryField_first {name name' : Str} (hne : name' ≠ name) (v v' : Str) :
    queryField [(name, v), (name', v')] name = some v := by
  simp [queryField, hne]

theorem queryField_second {name name' : Str} (hne : name ≠ name') (v v' : Str) :
    queryField [(name, v), (name', v')] name' = some v' := by
  simp [queryField, hne]

end DriveServer

namespace LocalDrive

variable {t : HostTree}

theorem shown_of_error {h : Host} {root : List Bytes} {rel : Str} {e : IoKind}
    (hread : readDir h root rel t = .error e) : DriveCall.Shown h root t (.readDir rel) := by
  intro p x n ns hp hlook _
  cases hchildren : t.children p with
  | none =>
      rw [FileTree.children_eq_none hchildren] at hlook
      cases hlook
  | some cs => simp [readDir, onPath, hp, hchildren, orKind] at hread

/-- The times of a listing are those of what stands in the directory. -/
theorem shown_of_ok {h : Host} {root : List Bytes} {rel : Str} {es : List DriveEntry}
    (hread : readDir h root rel t = .ok es) :
    (∀ e ∈ es, ∀ ns, e.created = some ns → 0 ≤ ns) ↔
      DriveCall.Shown h root t (.readDir rel) := by
  cases habs : abs root rel with
  | none => simp [readDir, onPath, habs] at hread
  | some p =>
      cases hchildren : t.children p with
      | none => simp [readDir, onPath, habs, hchildren, orKind] at hread
      | some cs =>
          simp only [readDir, onPath, habs, hchildren, orKind, Option.map_some,
            Except.ok.injEq] at hread
          subst hread
          constructor
          · intro htimes q x n ns hq hlook hns
            rw [habs, Option.some.injEq] at hq
            subst hq
            exact htimes _ (List.mem_map.2
              ⟨(x, t.isDir (p ++ [x])), (FileTree.mem_children hchildren).2 ⟨n, hlook, rfl⟩,
                rfl⟩) ns hns
          · intro htimes e he ns hns
            obtain ⟨⟨x, d⟩, hx, rfl⟩ := List.mem_map.1 he
            obtain ⟨n, hlook, -⟩ := (FileTree.mem_children hchildren).1 hx
            exact htimes p x n ns habs hlook hns

theorem changed_accepted (x : Except IoKind HostTree) :
    SameOutcome (changed t x).1 ((DriveServer.report t x).1.accepted fun _ => .ok .done) ∧
      (DriveServer.report t x).2 = (changed t x).2 := by
  rcases x with (_ | _) | t' <;> exact ⟨by trivial, rfl⟩

theorem changed_found (x : Except IoKind HostTree) :
    SameOutcome (changed t x).1 ((DriveServer.report t x).1.found fun _ => .ok .done) ∧
      (DriveServer.report t x).2 = (changed t x).2 := by
  rcases x with (_ | _) | t' <;> exact ⟨by trivial, rfl⟩

end LocalDrive

/-! ## The range of a positioned read -/

theorem decimalDigits_toDigits (n : Nat) : decimalDigits (Nat.toDigits 10 n) = some n := by
  have hall : ¬ (Nat.toDigits 10 n = [] ∨ (Nat.toDigits 10 n).any fun c => !c.isDigit) := by
    rintro (hnil | hany)
    · exact Nat.toDigits_ne_nil hnil
    · obtain ⟨c, hc, hnot⟩ := List.any_eq_true.1 hany
      rw [isDigit_of_mem_digits hc] at hnot
      cases hnot
  rw [decimalDigits, if_neg hall]
  exact congrArg some (Nat.ofDigitChars_ten_toDigits (n := n))

theorem parseU64_toDigits {n : Nat} (hn : n < 2 ^ 64) : parseU64 (Nat.toDigits 10 n) = some n :=
  (parseUsize_plain (fun h => absurd (isDigit_of_mem_digits h) (by decide)) n).2
    ⟨decimalDigits_toDigits n, hn⟩

theorem printable_of_isDigit {c : Char} (h : c.isDigit = true) :
    32 ≤ c.toNat ∧ c.toNat < 127 := by
  simp only [Char.isDigit, Bool.and_eq_true, decide_eq_true_eq] at h
  have hlow : 48 ≤ c.toNat := h.1
  have hhigh : c.toNat ≤ 57 := h.2
  omega

namespace RemoteDrive

variable {offset len : Nat}

theorem rangeHeader_eq (hlen : 1 ≤ len) (hsum : offset + len < 2 ^ 63) :
    rangeHeader offset len = "bytes=".toList ++ (Nat.toDigits 10 offset ++
      '-' :: Nat.toDigits 10 (offset + len - 1)) := by
  have hstop : (offset + len + (2 ^ 64 - 1)) % 2 ^ 64 = offset + len - 1 := by omega
  show "bytes=".toList ++ (Nat.toDigits 10 offset ++
    '-' :: Nat.toDigits 10 ((offset + len + (2 ^ 64 - 1)) % 2 ^ 64)) = _
  rw [hstop]

/-- The server reads the range that the client asks for. -/
theorem parseRange_rangeHeader (hlen : 1 ≤ len) (hsum : offset + len < 2 ^ 63) :
    DriveServer.parseRange (rangeHeader offset len) = some (offset, len) := by
  have hdash : '-' ∉ Nat.toDigits 10 offset := fun h =>
    absurd (isDigit_of_mem_digits h) (by decide)
  have hdrop : (rangeHeader offset len).dropPrefix? "bytes=".toList =
      some (Nat.toDigits 10 offset ++ '-' :: Nat.toDigits 10 (offset + len - 1)) := by
    rw [rangeHeader_eq hlen hsum]
    exact List.dropPrefix?_eq_some_iff.2 ⟨"bytes=".toList, rfl, beq_self_eq_true _⟩
  have hstart : parseU64 (Nat.toDigits 10 offset) = some offset :=
    parseU64_toDigits (by omega)
  have hstop : parseU64 (Nat.toDigits 10 (offset + len - 1)) = some (offset + len - 1) :=
    parseU64_toDigits (by omega)
  have hcount : (offset + len - 1 - offset + 1) % 2 ^ 64 = len := by omega
  simp only [DriveServer.parseRange, hdrop, splitOnceAt_append hdash, hstart, hstop,
    Option.bind_eq_bind, Option.bind_some, hcount]
  rw [if_neg (by omega)]

/-- A range can be sent in a header. -/
theorem headerText_rangeHeader (hlen : 1 ≤ len) (hsum : offset + len < 2 ^ 63) :
    HeaderText (rangeHeader offset len) := by
  rw [rangeHeader_eq hlen hsum]
  refine ⟨fun c hc => ?_, by simp, fun hlast => ?_⟩
  · rcases List.mem_append.1 hc with hunit | hrest
    · have hall : ("bytes=".toList.all fun c => decide (32 ≤ c.toNat ∧ c.toNat < 127)) = true := by
        decide
      exact of_decide_eq_true (List.all_eq_true.1 hall c hunit)
    rcases List.mem_append.1 hrest with hstart | hstop
    · exact printable_of_isDigit (isDigit_of_mem_digits hstart)
    · rcases List.mem_cons.1 hstop with rfl | hdigit
      · decide
      · exact printable_of_isDigit (isDigit_of_mem_digits hdigit)
  · have hmem : ' ' ∈ Nat.toDigits 10 (offset + len - 1) := by
      rw [← List.append_assoc, ← List.singleton_append, ← List.append_assoc,
        List.getLast?_append_of_ne_nil _ Nat.toDigits_ne_nil] at hlast
      exact List.mem_of_getLast? hlast
    exact absurd (isDigit_of_mem_digits hmem) (by decide)

end RemoteDrive

/-! ## One operation at a time -/

namespace RemoteDrive

open DriveServer

variable {h : Host} {w : Wire} {st : DriveServer} {t : HostTree}
  (htext : HeaderText ("Bearer ".toList ++ st.secret))

theorem getFile_found {rel : Str} (hrel : (UnixPath.ofStr rel).Plain)
    {r : RpcRequest} (hrange : r.header w .range = none) :
    ((st.getFile h w rel r t).found fun r => r.bytes.map .octets) =
      (LocalDrive.read h st.root rel t).map DriveReply.octets := by
  simp only [getFile, safeRel_plain hrel, hrange, Option.bind_none, LocalDrive.read]
  rcases LocalDrive.openFile h st.root rel t with (_ | _) | (_ | b) <;> rfl

theorem getFile_range {rel : Str} {offset len : Nat} (hrel : (UnixPath.ofStr rel).Plain)
    {r : RpcRequest} (hrange : (r.header w .range).bind DriveServer.parseRange =
      some (offset, len)) :
    SameOutcome ((LocalDrive.readAt h st.root rel offset len t).map DriveReply.octets)
      ((st.getFile h w rel r t).found fun r =>
        r.bytes.bind fun b => if b.length = len then .ok (.octets b) else .error .other) := by
  simp only [getFile, safeRel_plain hrel, hrange]
  cases hread : LocalDrive.readAt h st.root rel offset len t with
  | ok b =>
      show SameOutcome (.ok (.octets b))
        (if b.length = len then .ok (.octets b) else .error .other)
      rw [if_pos (LocalDrive.readAt_length hread)]
      rfl
  | error e => cases e <;> trivial

/-- A stream of pieces into a file of the server. -/
theorem putFile_accepted {rel : Str} (hrel : (UnixPath.ofStr rel).Plain)
    {m : Method} {e : Endpoint} {params : List (Str × Str)} {body : List Bytes} {data : Bytes}
    (hdata : body.flatten = data) :
    SameOutcome (changed t (LocalDrive.write h st.root rel data t)).1
        ((st.putFile h w rel (request w ⟨st.secret, none⟩ m e params [] body) t).1.accepted
          fun _ => .ok .done) ∧
      (st.putFile h w rel (request w ⟨st.secret, none⟩ m e params [] body) t).2 =
        (changed t (LocalDrive.write h st.root rel data t)).2 := by
  subst hdata
  simp only [putFile, fencedOut_request, Bool.false_eq_true, if_false, safeRel_plain hrel]
  cases hcreate : LocalDrive.create h st.root rel t with
  | error e =>
      rw [LocalDrive.create_error hcreate]
      cases e <;> exact ⟨trivial, rfl⟩
  | ok t₁ =>
      obtain ⟨t₂, hall, hwhole⟩ := LocalDrive.create_ok hcreate body
      have hbody : (request w ⟨st.secret, none⟩ m e params [] body).body = body := rfl
      rw [hwhole, hbody]
      simp only [hall]
      exact ⟨rfl, rfl⟩

theorem call_createWrite (rel : Str) (chunks : List Bytes) :
    LocalDrive.call h st.root (.createWrite rel chunks) t =
      changed t (LocalDrive.write h st.root rel chunks.flatten t) := by
  simp only [LocalDrive.call]
  cases hcreate : LocalDrive.create h st.root rel t with
  | error e => rw [LocalDrive.create_error hcreate]; rfl
  | ok t₁ =>
      obtain ⟨t₂, hall, hwhole⟩ := LocalDrive.create_ok hcreate chunks
      rw [hwhole]
      simp only [hall]
      rfl

theorem sameOutcome_refl (x : Except IoKind DriveReply) : SameOutcome x x := by
  rcases x with e | (b | _ | b | s | es | es) <;> trivial

theorem found_document {β : Type} (g : FileStat → β) (x : Except IoKind FileStat) :
    ((document .stat x).found fun r => (r.json WireDoc.stat?).map g) = x.map g := by
  rcases x with (_ | _) | a <;> rfl

theorem accepted_document {α β γ : Type} (doc : β → WireDoc) (as? : WireDoc → Option β)
    (hdoc : ∀ b, as? (doc b) = some b) (f : α → β) (g : β → γ) (x : Except IoKind α) :
    ((document (fun a => doc (f a)) x).accepted fun r => (r.json as?).map g) =
      match x with
      | .ok a => .ok (g (f a))
      | .error _ => .error .other := by
  rcases x with (_ | _) | a
  · rfl
  · rfl
  · show (LocalDrive.orKind .other (as? (doc (f a)))).map g = .ok (g (f a))
    rw [hdoc]
    rfl

/-- An entry as it arrives: its time in whole seconds, and none before the epoch. -/
def sentEntry (e : DriveEntry) : DriveEntry :=
  ⟨e.name, e.isDir, ((e.created.bind unixSecs).filter fun s => decide (0 ≤ s)).map fun s =>
    s * 10 ^ 9⟩

theorem sentEntry_seconds (e : DriveEntry) :
    (e.name, e.isDir, e.created.map fun ns => ns / 10 ^ 9) =
        ((sentEntry e).name, (sentEntry e).isDir,
          (sentEntry e).created.map fun ns => ns / 10 ^ 9) ↔
      ∀ ns, e.created = some ns → 0 ≤ ns := by
  rcases e with ⟨name, isDir, _ | ns⟩
  · exact ⟨fun _ ns h => (by cases h), fun _ => rfl⟩
  by_cases hns : 0 ≤ ns
  · have hsecs : 0 ≤ ns / 10 ^ 9 := Int.ediv_nonneg hns (by decide)
    refine ⟨fun _ ns' h => (by cases h; exact hns), fun _ => ?_⟩
    simp only [sentEntry, Option.bind_some, unixSecs, if_pos hns, Option.filter,
      decide_eq_true hsecs, if_true, Option.map_some]
    rw [Int.mul_ediv_cancel _ (by decide)]
  · refine ⟨fun h => ?_, fun h => absurd (h ns rfl) hns⟩
    simp only [sentEntry, Option.bind_some, unixSecs, if_neg hns, Option.filter,
      Option.map_some, Option.map_none] at h
    cases h

theorem wholeSeconds_sent (es : List DriveEntry) :
    wholeSeconds es = wholeSeconds (es.map sentEntry) ↔
      ∀ e ∈ es, ∀ ns, e.created = some ns → 0 ≤ ns := by
  rw [wholeSeconds, wholeSeconds, List.map_map, List.map_inj_left]
  exact forall₂_congr fun e _ => sentEntry_seconds e

theorem utf8_lossy {b : Bytes} : utf8 (h.lossy b) = b ↔ ∃ s, fromUtf8 b = some s := by
  constructor
  · intro heq
    exact ⟨h.lossy b, by rw [← heq]; exact (fromUtf8_encoded _).trans (by rw [heq])⟩
  · rintro ⟨s, hs⟩
    rw [h.lossy_of_utf8 b s hs]
    exact utf8_of_fromUtf8 hs

theorem walk_sent (h : Host) (es : List WalkEntry) :
    (es = es.map fun e => ⟨utf8 (h.lossy e.rel), e.isFile⟩) ↔
      ∀ e ∈ es, ∃ s, fromUtf8 e.rel = some s := by
  have hsent (e : WalkEntry) :
      id e = ⟨utf8 (h.lossy e.rel), e.isFile⟩ ↔ ∃ s, fromUtf8 e.rel = some s := by
    have hrel : utf8 (h.lossy e.rel) = e.rel ↔ ∃ s, fromUtf8 e.rel = some s := utf8_lossy
    rw [← hrel]
    rcases e with ⟨rel, isFile⟩
    simp [eq_comm]
  calc (es = es.map fun e => ⟨utf8 (h.lossy e.rel), e.isFile⟩)
      ↔ es.map id = es.map fun e => ⟨utf8 (h.lossy e.rel), e.isFile⟩ := by rw [List.map_id]
    _ ↔ ∀ e ∈ es, ∃ s, fromUtf8 e.rel = some s := by
        rw [List.map_inj_left]
        exact forall₂_congr fun e _ => hsent e

include htext

theorem alike_online : BehavesLocally h w st .online t ↔ (t.look st.root).isSome = true := by
  have hserve : st.serve h w (send w ⟨st.secret, none⟩ .online) t =
      (⟨200, .octets (utf8 "ok".toList)⟩, t) := if_pos (auth_request htext rfl)
  rw [BehavesLocally, call, hserve]
  refine ⟨fun hsame => ?_, fun hroot => ⟨?_, rfl⟩⟩
  · have hup : DriveReply.up (LocalDrive.online st.root t) = .up true := hsame.1
    exact DriveReply.up.inj hup
  · show DriveReply.up (LocalDrive.online st.root t) = .up true
    rw [LocalDrive.online, hroot]

theorem alike_read {rel : Str} (hrel : (UnixPath.ofStr rel).Plain) :
    BehavesLocally h w st (.read rel) t := by
  have hserve : st.serve h w (send w ⟨st.secret, none⟩ (.read rel)) t =
      (st.getFile h w rel (send w ⟨st.secret, none⟩ (.read rel)) t, t) :=
    (if_pos (auth_request htext rfl)).trans (withField_request (queryField_one _ _) _)
  rw [BehavesLocally, call, hserve]
  refine ⟨?_, rfl⟩
  show SameOutcome _ ((st.getFile h w rel _ t).found _)
  rw [getFile_found hrel rfl]
  exact sameOutcome_refl _

theorem alike_openRead {rel : Str} (hrel : (UnixPath.ofStr rel).Plain) :
    BehavesLocally h w st (.openRead rel) t :=
  alike_read htext hrel

theorem alike_readAt {rel : Str} {offset len : Nat} (hrel : (UnixPath.ofStr rel).Plain)
    (hlen : 1 ≤ len) (hsum : offset + len < 2 ^ 63) :
    BehavesLocally h w st (.readAt rel offset len) t := by
  have hserve : st.serve h w (send w ⟨st.secret, none⟩ (.readAt rel offset len)) t =
      (st.getFile h w rel (send w ⟨st.secret, none⟩ (.readAt rel offset len)) t, t) :=
    (if_pos (auth_request htext rfl)).trans (withField_request (queryField_one _ _) _)
  have hheader : (send w ⟨st.secret, none⟩ (.readAt rel offset len)).header w .range =
      some (rangeHeader offset len) := by
    rw [← w.header_text _ (headerText_rangeHeader hlen hsum)]
    rfl
  rw [BehavesLocally, call, hserve]
  refine ⟨getFile_range hrel ?_, rfl⟩
  rw [hheader, Option.bind_some, parseRange_rangeHeader hlen hsum]

theorem alike_write {rel : Str} (data : Bytes) (hrel : (UnixPath.ofStr rel).Plain) :
    BehavesLocally h w st (.write rel data) t := by
  have hserve : st.serve h w (send w ⟨st.secret, none⟩ (.write rel data)) t =
      st.putFile h w rel (send w ⟨st.secret, none⟩ (.write rel data)) t :=
    (if_pos (auth_request htext rfl)).trans (withField_request (queryField_one _ _) _)
  rw [BehavesLocally, call, hserve]
  exact putFile_accepted hrel (w.flatten_frames data)

theorem alike_createWrite {rel : Str} (chunks : List Bytes)
    (hrel : (UnixPath.ofStr rel).Plain) :
    BehavesLocally h w st (.createWrite rel chunks) t := by
  rw [BehavesLocally, call_createWrite]
  exact alike_write htext chunks.flatten hrel

theorem alike_rename {src dst : Str} (hsrc : (UnixPath.ofStr src).Plain)
    (hdst : (UnixPath.ofStr dst).Plain) : BehavesLocally h w st (.rename src dst) t := by
  have hserve : st.serve h w (send w ⟨st.secret, none⟩ (.rename src dst)) t =
      st.rename h w src dst (send w ⟨st.secret, none⟩ (.rename src dst)) t :=
    (if_pos (auth_request htext rfl)).trans
      ((withField_request (queryField_first (by decide) _ _) _).trans
        (withField_request (queryField_second (by decide) _ _) _))
  have hrename : st.rename h w src dst (send w ⟨st.secret, none⟩ (.rename src dst)) t =
      report t (LocalDrive.rename h st.root src dst t) := by
    rw [DriveServer.rename, safeRel_plain hsrc, safeRel_plain hdst]
    rfl
  rw [BehavesLocally, call, hserve, hrename]
  exact LocalDrive.changed_accepted _

/-- The three ways to remove. -/
theorem serve_remove {rel kind : Str} {c : DriveCall}
    (hsend : send w ⟨st.secret, none⟩ c = request w ⟨st.secret, none⟩ .delete .file
      [("p".toList, rel), ("kind".toList, kind)] [] [])
    (hrel : (UnixPath.ofStr rel).Plain) :
    st.serve h w (send w ⟨st.secret, none⟩ c) t =
      if kind = "file".toList then report t (LocalDrive.removeFile h st.root rel t)
      else if kind = "dir".toList then report t (LocalDrive.removeDir h st.root rel t)
      else if kind = "tree".toList then report t (LocalDrive.removeDirAll h st.root rel t)
      else (.bare 400, t) := by
  have hserve : st.serve h w (send w ⟨st.secret, none⟩ c) t =
      st.delFile h w rel kind (send w ⟨st.secret, none⟩ c) t := by
    rw [hsend]
    exact (if_pos (auth_request htext rfl)).trans
      ((withField_request (queryField_first (by decide) _ _) _).trans
        (withField_request (queryField_second (by decide) _ _) _))
  rw [hserve, hsend, delFile, fencedOut_request, safeRel_plain hrel]
  rfl

theorem alike_removeFile {rel : Str} (hrel : (UnixPath.ofStr rel).Plain) :
    BehavesLocally h w st (.removeFile rel) t := by
  have hserve : st.serve h w (send w ⟨st.secret, none⟩ (.removeFile rel)) t =
      report t (LocalDrive.removeFile h st.root rel t) :=
    (serve_remove htext rfl hrel).trans (if_pos rfl)
  rw [BehavesLocally, call, hserve]
  exact LocalDrive.changed_found _

theorem alike_removeDir {rel : Str} (hrel : (UnixPath.ofStr rel).Plain) :
    BehavesLocally h w st (.removeDir rel) t := by
  have hserve : st.serve h w (send w ⟨st.secret, none⟩ (.removeDir rel)) t =
      report t (LocalDrive.removeDir h st.root rel t) :=
    (serve_remove htext rfl hrel).trans ((if_neg (by decide)).trans (if_pos rfl))
  rw [BehavesLocally, call, hserve]
  exact LocalDrive.changed_found _

theorem alike_removeDirAll {rel : Str} (hrel : (UnixPath.ofStr rel).Plain) :
    BehavesLocally h w st (.removeDirAll rel) t := by
  have hserve : st.serve h w (send w ⟨st.secret, none⟩ (.removeDirAll rel)) t =
      report t (LocalDrive.removeDirAll h st.root rel t) :=
    (serve_remove htext rfl hrel).trans
      ((if_neg (by decide)).trans ((if_neg (by decide)).trans (if_pos rfl)))
  rw [BehavesLocally, call, hserve]
  exact LocalDrive.changed_found _

theorem alike_createDirAll {rel : Str} (hrel : (UnixPath.ofStr rel).Plain) :
    BehavesLocally h w st (.createDirAll rel) t := by
  have hserve : st.serve h w (send w ⟨st.secret, none⟩ (.createDirAll rel)) t =
      st.mkdir h w rel (send w ⟨st.secret, none⟩ (.createDirAll rel)) t :=
    (if_pos (auth_request htext rfl)).trans (withField_request (queryField_one _ _) _)
  have hmkdir : st.mkdir h w rel (send w ⟨st.secret, none⟩ (.createDirAll rel)) t =
      report t (LocalDrive.createDirAll h st.root rel t) := by
    rw [DriveServer.mkdir, safeRel_plain hrel]
    rfl
  rw [BehavesLocally, call, hserve, hmkdir]
  exact LocalDrive.changed_accepted _

theorem alike_stat {rel : Str} (hrel : (UnixPath.ofStr rel).Plain) :
    BehavesLocally h w st (.stat rel) t := by
  have hserve : st.serve h w (send w ⟨st.secret, none⟩ (.stat rel)) t =
      (document .stat (LocalDrive.stat h st.root rel t), t) := by
    refine (if_pos (auth_request htext rfl)).trans
      ((withField_request (queryField_one _ _) _).trans ?_)
    rw [DriveServer.stat, relStr, safeRel_plain hrel]
  rw [BehavesLocally, call, hserve]
  refine ⟨?_, rfl⟩
  show SameOutcome _ ((document _ _).found _)
  rw [found_document]
  exact sameOutcome_refl _

/-- A listing arrives where nothing in it is from before the epoch. -/
theorem alike_readDir {rel : Str} (hrel : (UnixPath.ofStr rel).Plain) :
    BehavesLocally h w st (.readDir rel) t ↔ DriveCall.Shown h st.root t (.readDir rel) := by
  have hserve : st.serve h w (send w ⟨st.secret, none⟩ (.readDir rel)) t =
      (document (fun es => .entries (es.map fun e =>
        ⟨e.name, e.isDir, e.created.bind unixSecs⟩)) (LocalDrive.readDir h st.root rel t), t) := by
    refine (if_pos (auth_request htext rfl)).trans
      ((withField_request (queryField_one _ _) _).trans ?_)
    rw [DriveServer.readdir, relStr, safeRel_plain hrel]
  have hreply : receive (document (fun es => .entries (es.map fun e =>
        ⟨e.name, e.isDir, e.created.bind unixSecs⟩)) (LocalDrive.readDir h st.root rel t))
        (.readDir rel) =
      match LocalDrive.readDir h st.root rel t with
      | .ok es => .ok (.entries (es.map sentEntry))
      | .error _ => .error .other := by
    refine (accepted_document .entries WireDoc.entries? (fun _ => rfl) _ _ _).trans ?_
    cases LocalDrive.readDir h st.root rel t with
    | error e => rfl
    | ok es => simp only [List.map_map]; rfl
  rw [BehavesLocally, call, hserve, hreply, LocalDrive.call]
  cases hread : LocalDrive.readDir h st.root rel t with
  | error e => exact iff_of_true ⟨trivial, rfl⟩ (LocalDrive.shown_of_error hread)
  | ok es =>
      exact (and_iff_left rfl).trans
        ((wholeSeconds_sent es).trans (LocalDrive.shown_of_ok hread))

/-- A walk arrives where every path in it is UTF-8. -/
theorem alike_walk {rel : Str} (hrel : (UnixPath.ofStr rel).Plain) :
    BehavesLocally h w st (.walk rel) t ↔ DriveCall.Shown h st.root t (.walk rel) := by
  have hserve : st.serve h w (send w ⟨st.secret, none⟩ (.walk rel)) t =
      (document (fun es => .walk (es.map fun e => ⟨h.lossy e.rel, e.isFile⟩))
        (.ok (LocalDrive.walk st.root rel t)), t) := by
    refine (if_pos (auth_request htext rfl)).trans
      ((withField_request (queryField_one _ _) _).trans ?_)
    rw [DriveServer.walk, relStr, safeRel_plain hrel]
  have hreply : receive (document (fun es => .walk (es.map fun e =>
        ⟨h.lossy e.rel, e.isFile⟩)) (.ok (LocalDrive.walk st.root rel t))) (.walk rel) =
      .ok (.walked ((LocalDrive.walk st.root rel t).map fun e =>
        ⟨utf8 (h.lossy e.rel), e.isFile⟩)) := by
    refine (accepted_document .walk WireDoc.walk? (fun _ => rfl) _ _ _).trans ?_
    simp only [List.map_map]
    rfl
  have hsame : BehavesLocally h w st (.walk rel) t ↔
      ∀ e ∈ LocalDrive.walk st.root rel t, ∃ s, fromUtf8 e.rel = some s := by
    rw [BehavesLocally, call, hserve, hreply, LocalDrive.call]
    refine (and_iff_left rfl).trans (Iff.trans ?_ (walk_sent h _))
    exact ⟨DriveReply.walked.inj, congrArg DriveReply.walked⟩
  rw [hsame, LocalDrive.walk]
  cases habs : LocalDrive.abs st.root rel with
  | none =>
      simp only [DriveCall.Shown, habs]
      exact ⟨fun _ p names n hp => (by cases hp), fun _ e he => absurd he List.not_mem_nil⟩
  | some p =>
      simp only [DriveCall.Shown, habs]
      constructor
      · intro hutf q names n hq hnames hlook
        cases hq
        exact hutf _ (List.mem_map.2
          ⟨(names, (t.file? (p ++ names)).isSome), FileTree.mem_walk.2 ⟨hnames, n, hlook, rfl⟩,
            rfl⟩)
      · intro hutf e he
        obtain ⟨⟨names, f⟩, hmem, rfl⟩ := List.mem_map.1 he
        obtain ⟨hnames, n, hlook, -⟩ := FileTree.mem_walk.1 hmem
        exact hutf p names n rfl hnames hlook

end RemoteDrive

/-- A drive behind a server does what the drive itself does exactly where it shows what is
there. -/
theorem remote_behaves_locally_iff (h : Host) (w : Wire) (st : DriveServer)
    (htext : HeaderText ("Bearer ".toList ++ st.secret)) (c : DriveCall) (hc : c.Regular)
    (t : HostTree) : BehavesLocally h w st c t ↔ c.Shown h st.root t := by
  cases c with
  | online => exact RemoteDrive.alike_online htext
  | read rel => exact iff_of_true (RemoteDrive.alike_read htext hc) trivial
  | write rel data => exact iff_of_true (RemoteDrive.alike_write htext data hc) trivial
  | openRead rel => exact iff_of_true (RemoteDrive.alike_openRead htext hc) trivial
  | readAt rel offset len =>
      exact iff_of_true (RemoteDrive.alike_readAt htext hc.1 hc.2.1 hc.2.2) trivial
  | createWrite rel chunks =>
      exact iff_of_true (RemoteDrive.alike_createWrite htext chunks hc) trivial
  | rename src dst => exact iff_of_true (RemoteDrive.alike_rename htext hc.1 hc.2) trivial
  | removeFile rel => exact iff_of_true (RemoteDrive.alike_removeFile htext hc) trivial
  | removeDir rel => exact iff_of_true (RemoteDrive.alike_removeDir htext hc) trivial
  | removeDirAll rel => exact iff_of_true (RemoteDrive.alike_removeDirAll htext hc) trivial
  | createDirAll rel => exact iff_of_true (RemoteDrive.alike_createDirAll htext hc) trivial
  | stat rel => exact iff_of_true (RemoteDrive.alike_stat htext hc) trivial
  | readDir rel => exact RemoteDrive.alike_readDir htext hc
  | walk rel => exact RemoteDrive.alike_walk htext hc

/-! ## A machine, a wire, and a drive whose root is gone -/

/-- A machine: what is not there is missing, and every entry is from the epoch. -/
def plainHost : Host where
  kind t ps := if ps.all fun p => (t.look p).isSome then .other else .notFound
  dirLen _ _ := 4096
  created _ _ := some 0
  lossy b := (fromUtf8 b).getD [Char.ofNat 0xfffd]
  lossy_of_utf8 b s hs := by rw [hs]; rfl

/-- Names and values, percent-encoded. -/
def formQuery (params : List (Str × Str)) : Str :=
  List.intercalate ['&'] (params.map fun e =>
    percentCoding.utf8PercentEncode NON_ALPHANUMERIC e.1 ++
      '=' :: percentCoding.utf8PercentEncode NON_ALPHANUMERIC e.2)

/-- The names and values of a query. -/
def formParams (query : Str) : List (Str × Str) :=
  ((query.splitOn '&').filter fun s => decide (s ≠ [])).map fun s =>
    (percentCoding.percentDecode (splitOnce s).1, percentCoding.percentDecode (splitOnce s).2)

theorem not_mem_encoded {c : Char} (hset : NON_ALPHANUMERIC c = true) (hc : c ≠ '%')
    (halnum : c.isAlphanum = false) (s : Str) :
    c ∉ percentCoding.utf8PercentEncode NON_ALPHANUMERIC s := by
  intro hmem
  rcases percentCoding_lawful.encode_chars NON_ALPHANUMERIC s c hmem with h | h | h
  · rw [hset] at h
    cases h
  · exact hc h
  · rw [halnum] at h
    cases h

theorem formParams_formQuery (params : List (Str × Str)) :
    formParams (formQuery params) = params := by
  cases params with
  | nil => decide
  | cons e rest =>
      have hsplit : (formQuery (e :: rest)).splitOn '&' = (e :: rest).map fun e =>
          percentCoding.utf8PercentEncode NON_ALPHANUMERIC e.1 ++
            '=' :: percentCoding.utf8PercentEncode NON_ALPHANUMERIC e.2 := by
        refine List.splitOn_intercalate _ (fun s hs hamp => ?_) (by simp)
        obtain ⟨p, -, rfl⟩ := List.mem_map.1 hs
        rcases List.mem_append.1 hamp with hname | hvalue
        · exact not_mem_encoded (by decide) (by decide) (by decide) _ hname
        · rcases List.mem_cons.1 hvalue with heq | hvalue
          · exact absurd heq (by decide)
          · exact not_mem_encoded (by decide) (by decide) (by decide) _ hvalue
      rw [formParams, hsplit, List.filter_map, List.filter_eq_self.2 (fun p _ => by simp),
        List.map_map]
      conv_rhs => rw [← List.map_id (e :: rest)]
      refine List.map_congr_left fun p _ => ?_
      simp only [Function.comp_apply, id_eq]
      rw [splitOnce_append (not_mem_encoded (by decide) (by decide) (by decide) _),
        percentCoding_lawful.decode_encode _ _ (by decide),
        percentCoding_lawful.decode_encode _ _ (by decide)]

/-- A wire on which bodies arrive in one piece. -/
def plainWire : Wire where
  encodeQuery := formQuery
  decodeQuery query := some (formParams query)
  decodeQuery_encodeQuery params := by rw [formParams_formQuery]
  header s := some s
  header_text _ _ := rfl
  frames b := [b]
  flatten_frames b := by simp

/-- A server with its root at `/d`. -/
def plainServer : DriveServer := ⟨[[100]], "s3cret".toList, ∅⟩

theorem headerText_plainServer : HeaderText ("Bearer ".toList ++ plainServer.secret) := by
  refine ⟨fun c hc => ?_, by decide, by decide⟩
  have hall : (("Bearer ".toList ++ plainServer.secret).all fun c =>
      decide (32 ≤ c.toNat ∧ c.toNat < 127)) = true := by decide
  exact of_decide_eq_true (List.all_eq_true.1 hall c hc)

theorem remote_behaves_locally_readAt :
    BehavesLocally plainHost plainWire plainServer (.readAt "a/b".toList 3 4) .empty ↔
      DriveCall.Shown plainHost plainServer.root .empty (.readAt "a/b".toList 3 4) :=
  remote_behaves_locally_iff plainHost plainWire plainServer headerText_plainServer
    (.readAt "a/b".toList 3 4) ⟨by decide, by decide, by decide⟩ .empty

/-- A drive with one file at `b` below its root, whose name is not UTF-8. -/
def oddTree : HostTree := ((FileTree.empty.createDirAll [[100], [98]]).bind fun t =>
  t.write [[100], [98], [255]] []).getD .empty

/-- The health of a drive whose root is gone is reported as good, and the walk of a drive
with a name that is not UTF-8 names another file. -/
theorem remote_shows_otherwise :
    ¬ BehavesLocally plainHost plainWire plainServer .online .empty ∧
      ¬ BehavesLocally plainHost plainWire plainServer (.walk ['b']) oddTree := by
  constructor
  · rw [RemoteDrive.alike_online headerText_plainServer]
    decide
  · rw [RemoteDrive.alike_walk headerText_plainServer (by decide)]
    intro hutf
    obtain ⟨s, hs⟩ := hutf [[100], [98]] [[255]] (.file []) (by decide) (by decide) (by decide)
    have hnone : fromUtf8 (joinNames [[255]]) = none := by decide
    rw [hnone] at hs
    cases hs

end Kerplace
