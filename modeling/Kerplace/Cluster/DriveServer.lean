/-
# `Kerplace.Cluster.DriveServer` — a drive of one node, and the server that hands it out

`LocalDrive` down to the machine it runs on: names and contents are bytes, a failed
call says whether what it names was missing, entries have lengths and times.  The
drive server answers requests of the cluster by calls on such a drive.

What the machine decides beyond the tree of files, and what HTTP does with queries,
headers and bodies, are parameters.  A document on the wire is kept as the value it
encodes.
-/
import Kerplace.Auth.Framing
import Kerplace.Auth.Identity
import Kerplace.Cluster.LockTable
import Kerplace.Handlers.Ranges
import Kerplace.Lib.FileTree
import Kerplace.Lib.UnixPath

namespace Kerplace

/-! ## The machine -/

/-- The kinds of `io::Error` that the server tells apart. -/
inductive IoKind where
  | notFound
  | other
  deriving DecidableEq

/-- The files of a machine: names and contents as the bytes they are. -/
abbrev HostTree := FileTree Bytes Bytes

/-- What a machine decides beyond its files: of which kind the error of a call that fails on
some paths is, the length a directory shows, the creation time of an entry in nanoseconds
from the epoch, and how a name that is not UTF-8 is shown. -/
structure Host where
  kind : HostTree → List (List Bytes) → IoKind
  dirLen : HostTree → List Bytes → Nat
  created : HostTree → List Bytes → Option Int
  lossy : Bytes → Str
  lossy_of_utf8 : ∀ b s, fromUtf8 b = some s → lossy b = s

/-- `DriveStat`, and `StatDto`. -/
structure FileStat where
  len : Nat
  isDir : Bool
  deriving DecidableEq

/-- `DirEntry`; its time in nanoseconds from the epoch. -/
structure DriveEntry where
  name : Str
  isDir : Bool
  created : Option Int
  deriving DecidableEq

/-- `WalkEntry`; its path as the bytes of a `PathBuf`. -/
structure WalkEntry where
  rel : Bytes
  isFile : Bool
  deriving DecidableEq

/-- Names as one path. -/
def joinNames (names : List Bytes) : Bytes := (names.intersperse [47]).flatten

/-! ## `LocalDrive` -/

namespace LocalDrive

variable (h : Host) (root : List Bytes)

/-- One component of a path, from a directory. -/
def climb (dir : List Bytes) (c : Bytes) : List Bytes :=
  if c = utf8 ['.', '.'] then dir.dropLast else dir ++ [c]

/-- `abs`, as what the machine finds under that path; a path with a NUL byte names nothing. -/
def abs (rel : Str) : Option (List Bytes) :=
  if '\x00' ∈ rel then none
  else
    let path := UnixPath.ofStr rel
    some ((path.comps.map utf8).foldl climb (if path.abs then [] else root))

/-- A call on one path. -/
def onPath {α : Type} (rel : Str) (f : List Bytes → Except IoKind α) : Except IoKind α :=
  match abs root rel with
  | none => .error .other
  | some p => f p

/-- The result of a call, and of what kind its error is. -/
def orKind {α : Type} (kind : IoKind) : Option α → Except IoKind α
  | some a => .ok a
  | none => .error kind

/-- `online`. -/
def online (t : HostTree) : Bool := (t.look root).isSome

/-- `open`, as what reading to the end gives: nothing where the reader stands on a
directory. -/
def openFile (rel : Str) (t : HostTree) : Except IoKind (Option Bytes) :=
  onPath root rel fun p => orKind (h.kind t [p]) ((t.look p).map fun
    | .dir => none
    | .file b => some b)

/-- `read`. -/
def read (rel : Str) (t : HostTree) : Except IoKind Bytes :=
  match openFile h root rel t with
  | .ok (some b) => .ok b
  | .ok none => .error .other
  | .error e => .error e

/-- `read_at`: a seek, and exactly so many bytes. -/
def readAt (rel : Str) (offset len : Nat) (t : HostTree) : Except IoKind Bytes :=
  match openFile h root rel t with
  | .ok b? =>
      if 2 ^ 63 ≤ offset then .error .other
      else if len = 0 then .ok []
      else
        match b? with
        | some b => if offset + len ≤ b.length then .ok ((b.drop offset).take len)
            else .error .other
        | none => .error .other
  | .error e => .error e

/-- `write`. -/
def write (rel : Str) (data : Bytes) (t : HostTree) : Except IoKind HostTree :=
  onPath root rel fun p => orKind (h.kind t [p]) (t.write p data)

/-- `create`. -/
def create (rel : Str) (t : HostTree) : Except IoKind HostTree :=
  onPath root rel fun p => orKind (h.kind t [p]) (t.write p [])

/-- A write through the writer that `create` gave. -/
def append (rel : Str) (data : Bytes) (t : HostTree) : Except IoKind HostTree :=
  onPath root rel fun p => orKind (h.kind t [p]) (t.update p fun b => some (b ++ data))

/-- One write after another; `shutdown` has nothing left to do. -/
def writeAll (rel : Str) : List Bytes → HostTree → Except IoKind Unit × HostTree
  | [], t => (.ok (), t)
  | data :: rest, t =>
      match append h root rel data t with
      | .ok t' => writeAll rel rest t'
      | .error e => (.error e, t)

/-- `rename`. -/
def rename (src dst : Str) (t : HostTree) : Except IoKind HostTree :=
  onPath root src fun p => onPath root dst fun q =>
    orKind (h.kind t [p, q]) (t.rename p q)

/-- `remove_file`. -/
def removeFile (rel : Str) (t : HostTree) : Except IoKind HostTree :=
  onPath root rel fun p => orKind (h.kind t [p]) (t.removeFile p)

/-- `remove_dir`. -/
def removeDir (rel : Str) (t : HostTree) : Except IoKind HostTree :=
  onPath root rel fun p => orKind (h.kind t [p]) (t.removeDir p)

/-- `remove_dir_all`. -/
def removeDirAll (rel : Str) (t : HostTree) : Except IoKind HostTree :=
  onPath root rel fun p => orKind (h.kind t [p]) (t.removeDirAll p)

/-- `create_dir_all`. -/
def createDirAll (rel : Str) (t : HostTree) : Except IoKind HostTree :=
  onPath root rel fun p => orKind (h.kind t [p]) (t.createDirAll p)

/-- `stat`. -/
def stat (rel : Str) (t : HostTree) : Except IoKind FileStat :=
  onPath root rel fun p => orKind (h.kind t [p]) ((t.look p).map fun
    | .dir => ⟨h.dirLen t p, true⟩
    | .file b => ⟨b.length, false⟩)

/-- `read_dir`. -/
def readDir (rel : Str) (t : HostTree) : Except IoKind (List DriveEntry) :=
  onPath root rel fun p => orKind (h.kind t [p]) ((t.children p).map fun entries =>
    entries.map fun e => ⟨h.lossy e.1, e.2, h.created t (p ++ [e.1])⟩)

/-- `walk`; what cannot be walked has nothing in it. -/
def walk (rel : Str) (t : HostTree) : List WalkEntry :=
  match abs root rel with
  | none => []
  | some p => (t.walk p).map fun e => ⟨joinNames e.1, e.2⟩

end LocalDrive

/-! ## Names, children, and writing in pieces -/

theorem utf8_of_fromUtf8 {b : Bytes} {s : Str} (h : fromUtf8 b = some s) : utf8 s = b := by
  obtain ⟨cs, hcs, rfl⟩ := Option.map_eq_some_iff.1 h
  have hsome : (ByteArray.mk b.toArray).utf8Decode?.isSome = true := by rw [hcs]; rfl
  have hget : (ByteArray.mk b.toArray).utf8Decode?.get hsome = cs :=
    Option.get_of_eq_some hsome hcs
  have hbytes := ByteArray.utf8Encode_get_utf8Decode? (h := hsome)
  rw [hget] at hbytes
  have hlist := congrArg (fun a : ByteArray => a.data.toList) hbytes
  rw [List.utf8Encode, List.toList_data_toByteArray] at hlist
  exact hlist

namespace FileTree

variable {N C : Type} [Ord N] [Std.TransOrd N] [Std.LawfulEqOrd N] [DecidableEq N]

/-- The children of a directory are what stands one step below it. -/
theorem mem_children {t : FileTree N C} {p : List N} {entries : List (N × Bool)}
    (h : t.children p = some entries) {x : N} {d : Bool} :
    (x, d) ∈ entries ↔ ∃ n, t.look (p ++ [x]) = some n ∧ d = t.isDir (p ++ [x]) := by
  unfold children at h
  split at h
  · cases h
    simp only [List.mem_filterMap, Prod.exists,
      Std.ExtTreeMap.mem_toList_iff_getElem?_eq_some]
    constructor
    · rintro ⟨q, n, hq, hmatch⟩
      split at hmatch
      · rename_i y hlast
        split at hmatch
        · rename_i hparent
          cases hmatch
          have hsplit : p ++ [x] = q := by
            rw [← hparent]
            exact List.dropLast_append_getLast? x hlast
          refine ⟨n, ?_, by rw [hsplit]⟩
          rw [look_of_ne (by simp), hsplit, hq]
        · cases hmatch
      · cases hmatch
    · rintro ⟨n, hn, rfl⟩
      rw [look_of_ne (by simp)] at hn
      exact ⟨p ++ [x], n, hn, by simp⟩
  · cases h

theorem children_eq_none {t : FileTree N C} {p : List N} (h : t.children p = none) (x : N) :
    t.look (p ++ [x]) = none := by
  unfold children at h
  split at h
  · cases h
  · rename_i hdir
    exact look_below (fun hp => hdir (isDir_iff.2 hp)) (by simp)

/-- A file written twice holds what was written last. -/
theorem write_write {t t' : FileTree N C} {p : List N} {c : C} (h : t.write p c = some t')
    (c' : C) : t'.write p c' = t.write p c' := by
  have hlook := look_write h
  have hguard : p ≠ [] ∧ t.isDir p.dropLast = true ∧ t.isDir p = false := by
    by_contra hg
    rw [write, dif_neg hg] at h
    cases h
  have hparent : p.dropLast ≠ p := fun heq => by
    have hlen := congrArg List.length heq
    have hpos := List.length_pos_of_ne_nil hguard.1
    rw [List.length_dropLast] at hlen
    omega
  have hdir : t'.isDir p.dropLast = t.isDir p.dropLast :=
    isDir_congr (by rw [hlook, if_neg hparent])
  have hfile : t'.isDir p = false := by rw [isDir_eq_false, hlook, if_pos rfl]; simp
  have hnodes : t'.nodes = t.nodes.insert p (.file c) := by
    rw [write, dif_pos hguard] at h
    cases h
    rfl
  rw [write, dif_pos ⟨hguard.1, by rw [hdir]; exact hguard.2.1, hfile⟩, write, dif_pos hguard]
  simp only [put, Option.some.injEq, mk.injEq]
  refine Std.ExtTreeMap.ext_getElem? fun q => ?_
  rw [hnodes]
  simp only [Std.ExtTreeMap.getElem?_insert]
  split <;> rfl

end FileTree

namespace LocalDrive

variable {h : Host} {root : List Bytes} {rel : Str} {t t₁ : HostTree}

/-- A positioned read gives the bytes asked for, all of them. -/
theorem readAt_length {offset len : Nat} {b : Bytes}
    (hread : readAt h root rel offset len t = .ok b) : b.length = len := by
  simp only [readAt] at hread
  split at hread
  · split at hread
    · cases hread
    split at hread
    · rename_i hzero
      cases hread
      exact hzero.symm
    split at hread
    · split at hread
      · rename_i hfits
        cases hread
        rw [List.length_take, List.length_drop]
        omega
      · cases hread
    · cases hread
  · cases hread

/-- What is written piece by piece into a file stands there as one. -/
theorem writeAll_of_write {p : List Bytes} (hp : abs root rel = some p) :
    ∀ (chunks : List Bytes) (b : Bytes) (t₁ : HostTree), t.write p b = some t₁ →
      ∃ t₂, writeAll h root rel chunks t₁ = (.ok (), t₂) ∧
        t.write p (b ++ chunks.flatten) = some t₂ := by
  intro chunks
  induction chunks with
  | nil =>
      intro b t₁ hwrite
      exact ⟨t₁, rfl, by rw [List.flatten_nil, List.append_nil]; exact hwrite⟩
  | cons data rest ih =>
      intro b t₁ hwrite
      have hfile : t₁.file? p = some b :=
        FileTree.file?_eq_some.2 (by rw [FileTree.look_write hwrite, if_pos rfl])
      obtain ⟨t₂, hnext⟩ := FileTree.write_of_file? (b ++ data) hfile
      have happend : append h root rel data t₁ = .ok t₂ := by
        simp only [append, onPath, hp, FileTree.update, hfile, Option.bind_some, hnext, orKind]
      obtain ⟨t₃, hrest, hall⟩ :=
        ih (b ++ data) t₂ ((FileTree.write_write hwrite _).symm.trans hnext)
      refine ⟨t₃, ?_, ?_⟩
      · rw [writeAll, happend]
        exact hrest
      · rw [List.flatten_cons, ← List.append_assoc]
        exact hall

theorem create_ok (hcreate : create h root rel t = .ok t₁) (chunks : List Bytes) :
    ∃ t₂, writeAll h root rel chunks t₁ = (.ok (), t₂) ∧
      write h root rel chunks.flatten t = .ok t₂ := by
  cases hp : abs root rel with
  | none => simp [create, onPath, hp] at hcreate
  | some p =>
      cases hwrite : t.write p [] with
      | none => simp [create, onPath, hp, hwrite, orKind] at hcreate
      | some t' =>
          simp only [create, onPath, hp, hwrite, orKind, Except.ok.injEq] at hcreate
          subst hcreate
          obtain ⟨t₂, hall, hwhole⟩ := writeAll_of_write (h := h) hp chunks [] t' hwrite
          refine ⟨t₂, hall, ?_⟩
          rw [List.nil_append] at hwhole
          simp only [write, onPath, hp, hwhole, orKind]

theorem create_error {e : IoKind} (hcreate : create h root rel t = .error e) (data : Bytes) :
    write h root rel data t = .error e := by
  cases hp : abs root rel with
  | none => simpa [create, write, onPath, hp] using hcreate
  | some p =>
      have hsame : (t.write p data).isSome = (t.write p []).isSome := by
        unfold FileTree.write
        split <;> rfl
      cases hwrite : t.write p [] with
      | some t' => simp [create, onPath, hp, hwrite, orKind] at hcreate
      | none =>
          rw [hwrite, Option.isSome_none, Option.isSome_eq_false_iff, Option.isNone_iff_eq_none]
            at hsame
          simpa [create, write, onPath, hp, hwrite, hsame, orKind] using hcreate

end LocalDrive

/-! ## The wire -/

/-- `DirEntryDto`. -/
structure DirEntryDto where
  name : Str
  isDir : Bool
  createdUnix : Option Int
  deriving DecidableEq

/-- `WalkEntryDto`. -/
structure WalkEntryDto where
  rel : Str
  isFile : Bool
  deriving DecidableEq

/-- A text that a header carries: printable ASCII with no blank at its ends. -/
def HeaderText (s : Str) : Prop :=
  (∀ c ∈ s, 32 ≤ c.toNat ∧ c.toNat < 127) ∧ s.head? ≠ some ' ' ∧ s.getLast? ≠ some ' '

/-- A document: a `StatDto`, or a list of `DirEntryDto` or of `WalkEntryDto`. -/
inductive WireDoc where
  | stat (s : FileStat)
  | entries (es : List DirEntryDto)
  | walk (es : List WalkEntryDto)
  deriving DecidableEq

/-- What HTTP does with what is sent: query strings read back as they were written, header
texts arrive (`header` is what `to_str` reads of a value sent as that text), and bodies arrive
in frames. -/
structure Wire where
  encodeQuery : List (Str × Str) → Str
  decodeQuery : Str → Option (List (Str × Str))
  decodeQuery_encodeQuery : ∀ params, decodeQuery (encodeQuery params) = some params
  header : Str → Option Str
  header_text : ∀ s, HeaderText s → header s = some s
  frames : Bytes → List Bytes
  flatten_frames : ∀ b, (frames b).flatten = b

/-- The endpoints under `DRIVE_API`, the two of the locks aside. -/
inductive Endpoint where
  | health
  | file
  | mkdir
  | rename
  | stat
  | readdir
  | walk
  deriving DecidableEq

/-- The headers that the server reads: `AUTHORIZATION`, `RANGE`, `FENCE_RES` and
`FENCE_TOK`. -/
inductive HeaderName where
  | authorization
  | range
  | fenceRes
  | fenceTok
  deriving DecidableEq

/-- A request, its headers as they were sent and its body as it arrives. -/
structure RpcRequest where
  method : Method
  endpoint : Endpoint
  query : Str
  headers : List (HeaderName × Str)
  body : List Bytes

/-- The body of a response; a stream may break off. -/
inductive ResponseBody where
  | empty
  | octets (b : Bytes)
  | broken
  | json (doc : WireDoc)
  deriving DecidableEq

/-- A response. -/
structure RpcResponse where
  status : Nat
  body : ResponseBody
  deriving DecidableEq

/-- A status with no body. -/
def RpcResponse.bare (status : Nat) : RpcResponse := ⟨status, .empty⟩

/-- The text of a header, where it is there and readable. -/
def RpcRequest.header (r : RpcRequest) (w : Wire) (name : HeaderName) : Option Str :=
  (r.headers.find? fun e => decide (e.1 = name)).bind fun e => w.header e.2

/-- A field of `PQuery`, `RenameQuery` or `DelQuery`: there, and there once. -/
def queryField (params : List (Str × Str)) (name : Str) : Option Str :=
  match params.filter fun e => decide (e.1 = name) with
  | [e] => some e.2
  | _ => none

/-! ## The server -/

/-- `DriveState`. -/
structure DriveServer where
  root : List Bytes
  secret : Str
  locks : LockTable

namespace DriveServer

variable (h : Host) (w : Wire) (st : DriveServer)

/-- `safe_rel`: the path as it came, or 400. -/
def safeRel (p : Str) : Except Nat Str :=
  if (UnixPath.ofStr p).Plain then .ok p else .error 400

/-- `parse_range`. -/
def parseRange (v : Str) : Option (Nat × Nat) := do
  let spec ← v.dropPrefix? "bytes=".toList
  let (s, e) ← splitOnceAt '-' spec
  let start ← parseU64 s
  let stop ← parseU64 e
  if stop < start then none else some (start, (stop - start + 1) % 2 ^ 64)

/-- `auth`: the bearer secret. -/
def auth (r : RpcRequest) : Bool :=
  ((r.header w .authorization).bind fun v => v.dropPrefix? "Bearer ".toList) = some st.secret

/-- `fenced_out`: both headers are there, and their token is stale. -/
def fencedOut (r : RpcRequest) : Bool :=
  match r.header w .fenceRes, (r.header w .fenceTok).bind parseU64 with
  | some res, some tok => !st.locks.fenceOk res tok
  | _, _ => false

/-- `io_status`. -/
def ioStatus : IoKind → Nat
  | .notFound => 404
  | .other => 500

/-- A change of the drive, and the status that reports it. -/
def report (t : HostTree) : Except IoKind HostTree → RpcResponse × HostTree
  | .ok t' => (.bare 200, t')
  | .error e => (.bare (ioStatus e), t)

/-- A result of the drive as a document, and the status that reports its error. -/
def document {α : Type} (doc : α → WireDoc) : Except IoKind α → RpcResponse
  | .ok a => ⟨200, .json (doc a)⟩
  | .error e => .bare (ioStatus e)

/-- `get_file`: the whole file as a stream, or a slice of it. -/
def getFile (p : Str) (r : RpcRequest) (t : HostTree) : RpcResponse :=
  match safeRel p with
  | .error c => .bare c
  | .ok rel =>
      match (r.header w .range).bind parseRange with
      | some (offset, len) =>
          match LocalDrive.readAt h st.root rel offset len t with
          | .ok b => ⟨206, .octets b⟩
          | .error .notFound => .bare 404
          | .error .other => .bare 416
      | none =>
          match LocalDrive.openFile h st.root rel t with
          | .ok (some b) => ⟨200, .octets b⟩
          | .ok none => ⟨200, .broken⟩
          | .error e => .bare (ioStatus e)

/-- `put_file`: the body as it arrives, into a file. -/
def putFile (p : Str) (r : RpcRequest) (t : HostTree) : RpcResponse × HostTree :=
  if st.fencedOut w r then (.bare 412, t)
  else
    match safeRel p with
    | .error c => (.bare c, t)
    | .ok rel =>
        match LocalDrive.create h st.root rel t with
        | .error e => (.bare (ioStatus e), t)
        | .ok t₁ =>
            match LocalDrive.writeAll h st.root rel r.body t₁ with
            | (.ok (), t₂) => (.bare 200, t₂)
            | (.error _, t₂) => (.bare 500, t₂)

/-- `del_file`. -/
def delFile (p kind : Str) (r : RpcRequest) (t : HostTree) : RpcResponse × HostTree :=
  if st.fencedOut w r then (.bare 412, t)
  else
    match safeRel p with
    | .error c => (.bare c, t)
    | .ok rel =>
        if kind = "file".toList then report t (LocalDrive.removeFile h st.root rel t)
        else if kind = "dir".toList then report t (LocalDrive.removeDir h st.root rel t)
        else if kind = "tree".toList then report t (LocalDrive.removeDirAll h st.root rel t)
        else (.bare 400, t)

/-- `mkdir`. -/
def mkdir (p : Str) (r : RpcRequest) (t : HostTree) : RpcResponse × HostTree :=
  if st.fencedOut w r then (.bare 412, t)
  else
    match safeRel p with
    | .error c => (.bare c, t)
    | .ok rel => report t (LocalDrive.createDirAll h st.root rel t)

/-- `rename`. -/
def rename (src dst : Str) (r : RpcRequest) (t : HostTree) : RpcResponse × HostTree :=
  if st.fencedOut w r then (.bare 412, t)
  else
    match safeRel src, safeRel dst with
    | .ok src, .ok dst => report t (LocalDrive.rename h st.root src dst t)
    | _, _ => (.bare 400, t)

/-- `stat`. -/
def stat (p : Str) (t : HostTree) : RpcResponse :=
  match safeRel p with
  | .error c => .bare c
  | .ok rel => document .stat (LocalDrive.stat h st.root rel t)

/-- `unix_secs`: the time since the epoch in whole seconds, if it is since the epoch. -/
def unixSecs (t : Int) : Option Int := if 0 ≤ t then some (t / 10 ^ 9) else none

/-- `readdir`. -/
def readdir (p : Str) (t : HostTree) : RpcResponse :=
  match safeRel p with
  | .error c => .bare c
  | .ok rel =>
      document (fun entries => .entries (entries.map fun (e : DriveEntry) =>
        ⟨e.name, e.isDir, e.created.bind unixSecs⟩)) (LocalDrive.readDir h st.root rel t)

/-- `walk`. -/
def walk (p : Str) (t : HostTree) : RpcResponse :=
  match safeRel p with
  | .error c => .bare c
  | .ok rel =>
      document (fun entries => .walk (entries.map fun (e : WalkEntry) =>
        ⟨h.lossy e.rel, e.isFile⟩)) (.ok (LocalDrive.walk st.root rel t))

/-- A handler that takes one field of the query; 400 where there is none. -/
def withField (r : RpcRequest) (t : HostTree) (name : Str)
    (k : Str → RpcResponse × HostTree) : RpcResponse × HostTree :=
  match (w.decodeQuery r.query).bind fun params => queryField params name with
  | some v => k v
  | none => (.bare 400, t)

/-- `drive_router`, behind `auth`. -/
def serve (r : RpcRequest) (t : HostTree) : RpcResponse × HostTree :=
  if st.auth w r then
    match r.endpoint, r.method with
    | .health, .get => (⟨200, .octets (utf8 "ok".toList)⟩, t)
    | .file, .get => withField w r t "p".toList fun p => (st.getFile h w p r t, t)
    | .file, .put => withField w r t "p".toList fun p => st.putFile h w p r t
    | .file, .delete => withField w r t "p".toList fun p =>
        withField w r t "kind".toList fun kind => st.delFile h w p kind r t
    | .mkdir, .post => withField w r t "p".toList fun p => st.mkdir h w p r t
    | .rename, .post => withField w r t "from".toList fun src =>
        withField w r t "to".toList fun dst => st.rename h w src dst r t
    | .stat, .get => withField w r t "p".toList fun p => (st.stat h p t, t)
    | .readdir, .get => withField w r t "p".toList fun p => (st.readdir h p t, t)
    | .walk, .get => withField w r t "p".toList fun p => (st.walk h p t, t)
    | _, _ => (.bare 405, t)
  else (.bare 401, t)

end DriveServer

end Kerplace
