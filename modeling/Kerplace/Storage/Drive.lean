/-
# `Kerplace.Storage.Drive` — the file operations the stores are written in

`Drive` is the seam between a store and the bytes: a handful of file
operations on paths relative to a drive root.  Here it is a signature of
operations, and `LocalDrive` is the handler that runs them on a file tree.
A drive that cannot be reached fails every operation and keeps its tree.

A file holds raw bytes or a JSON document.  Documents are kept as the value
they encode: reading one back as the type it was written from gives that
value, and reading anything else fails to decode.
-/
import Kerplace.Lib.Prog
import Kerplace.Lib.FileTree
import Kerplace.Storage.Types

namespace Kerplace

/-- The content of a file over documents `J`. -/
inductive Content (J : Type) where
  | raw (bytes : Bytes)
  | doc (j : J)
  deriving DecidableEq

/-- The raw bytes of a file. -/
def Content.bytes? {J : Type} : Content J → Option Bytes
  | .raw b => some b
  | .doc _ => none

/-- The document of a file. -/
def Content.doc? {J : Type} : Content J → Option J
  | .raw _ => none
  | .doc j => some j

/-- What a positioned read gives: exactly the bytes asked for, or nothing. -/
def sliceAt (b : Bytes) (offset len : Nat) : Option Bytes :=
  if offset + len ≤ b.length then some ((b.drop offset).take len) else none

/-- The files of one drive's machine. -/
abbrev Tree (J : Type) := FileTree Str (Content J)

instance transOrdNodes : Std.TransOrd (List Str) := inferInstance

/-- `DriveStat`. -/
structure DriveStat where
  isDir : Bool
  deriving DecidableEq

/-- The stat of a node. -/
def DriveStat.of {C : Type} : Node C → DriveStat
  | .dir => ⟨true⟩
  | .file _ => ⟨false⟩

/-- The operations of the `Drive` trait.  A streaming writer is the three
operations `create`, `append` and `shutdown` on its path; a streaming reader
is one `read`. -/
inductive DriveOp (J : Type) where
  | online
  | read (rel : UnixPath)
  | write (rel : UnixPath) (c : Content J)
  | readAt (rel : UnixPath) (offset len : Nat)
  | create (rel : UnixPath)
  | append (rel : UnixPath) (data : Bytes)
  | shutdown (rel : UnixPath)
  | rename (src dst : UnixPath)
  | removeFile (rel : UnixPath)
  | removeDir (rel : UnixPath)
  | removeDirAll (rel : UnixPath)
  | createDirAll (rel : UnixPath)
  | stat (rel : UnixPath)
  | readDir (rel : UnixPath)
  | walk (rel : UnixPath)

namespace DriveOp

variable {J : Type}

/-- What an operation answers; of an I/O error only its presence is kept. -/
abbrev Ans : DriveOp J → Type
  | .read _ => Option (Content J)
  | .readAt _ _ _ => Option Bytes
  | .stat _ => Option DriveStat
  | .readDir _ => Option (List (Str × Bool))
  | .walk _ => Option (List (List Str × Bool))
  | _ => Bool

/-- The answer of a drive that cannot be reached. -/
def failed : (o : DriveOp J) → o.Ans
  | .read _ => none
  | .readAt _ _ _ => none
  | .stat _ => none
  | .readDir _ => none
  | .walk _ => none
  | .online => false
  | .write _ _ => false
  | .create _ => false
  | .append _ _ => false
  | .shutdown _ => false
  | .rename _ _ => false
  | .removeFile _ => false
  | .removeDir _ => false
  | .removeDirAll _ => false
  | .createDirAll _ => false

end DriveOp

/-- Programs over one drive. -/
abbrev DriveProg (J α : Type) := Prog (DriveOp J) DriveOp.Ans α

/-! ## One operation as a program -/

namespace Drive

variable {J : Type}

def online : DriveProg J Bool := Prog.op DriveOp.online
def read (rel : UnixPath) : DriveProg J (Option (Content J)) := Prog.op (DriveOp.read rel)
def write (rel : UnixPath) (c : Content J) : DriveProg J Bool := Prog.op (DriveOp.write rel c)
def readAt (rel : UnixPath) (offset len : Nat) : DriveProg J (Option Bytes) :=
  Prog.op (DriveOp.readAt rel offset len)
def create (rel : UnixPath) : DriveProg J Bool := Prog.op (DriveOp.create rel)
def append (rel : UnixPath) (data : Bytes) : DriveProg J Bool :=
  Prog.op (DriveOp.append rel data)
def shutdown (rel : UnixPath) : DriveProg J Bool := Prog.op (DriveOp.shutdown rel)
def rename (src dst : UnixPath) : DriveProg J Bool := Prog.op (DriveOp.rename src dst)
def removeFile (rel : UnixPath) : DriveProg J Bool := Prog.op (DriveOp.removeFile rel)
def removeDir (rel : UnixPath) : DriveProg J Bool := Prog.op (DriveOp.removeDir rel)
def removeDirAll (rel : UnixPath) : DriveProg J Bool := Prog.op (DriveOp.removeDirAll rel)
def createDirAll (rel : UnixPath) : DriveProg J Bool := Prog.op (DriveOp.createDirAll rel)
def stat (rel : UnixPath) : DriveProg J (Option DriveStat) := Prog.op (DriveOp.stat rel)
def readDir (rel : UnixPath) : DriveProg J (Option (List (Str × Bool))) :=
  Prog.op (DriveOp.readDir rel)
def walk (rel : UnixPath) : DriveProg J (Option (List (List Str × Bool))) :=
  Prog.op (DriveOp.walk rel)

/-- The document in a file, if it can be read and decoded. -/
def readDoc (rel : UnixPath) : DriveProg J (Option J) := do
  let c ← read rel
  pure (c.bind Content.doc?)

/-- `prune_empty`: remove empty directories upward from `rel` until `stop`.
Each round shortens the path, so its length bounds the rounds. -/
def pruneEmpty (stop : UnixPath) : Nat → UnixPath → DriveProg J Unit
  | 0, _ => pure ()
  | rounds + 1, rel =>
      if rel ≠ stop && rel.startsWith stop then do
        if ← removeDir rel then
          match rel.parent with
          | some p => pruneEmpty stop rounds p
          | none => pure ()
        else pure ()
      else pure ()

end Drive

namespace LocalDrive

variable {J : Type}

/-- The tree after a change that may fail, and whether it did not. -/
def attempt (t : Tree J) (r : Option (Tree J)) : Bool × Tree J := (r.isSome, r.getD t)

/-- `LocalDrive`: each operation on the file its path names below the root.
`append` is a write through the handle `create` returned. -/
def step (root : List Str) : (o : DriveOp J) → Tree J → o.Ans × Tree J
  | .online, t => (t.isDir root, t)
  | .read rel, t => (t.file? (rel.resolve root), t)
  | .write rel c, t => attempt t (t.write (rel.resolve root) c)
  | .readAt rel offset len, t =>
      (((t.file? (rel.resolve root)).bind Content.bytes?).bind fun b =>
        sliceAt b offset len, t)
  | .create rel, t => attempt t (t.write (rel.resolve root) (.raw []))
  | .append rel data, t =>
      attempt t (t.update (rel.resolve root) fun c =>
        c.bytes?.map fun b => .raw (b ++ data))
  | .shutdown _, t => (true, t)
  | .rename src dst, t => attempt t (t.rename (src.resolve root) (dst.resolve root))
  | .removeFile rel, t => attempt t (t.removeFile (rel.resolve root))
  | .removeDir rel, t => attempt t (t.removeDir (rel.resolve root))
  | .removeDirAll rel, t => attempt t (t.removeDirAll (rel.resolve root))
  | .createDirAll rel, t => attempt t (t.createDirAll (rel.resolve root))
  | .stat rel, t => ((t.look (rel.resolve root)).map DriveStat.of, t)
  | .readDir rel, t => (t.children (rel.resolve root), t)
  | .walk rel, t => (some (t.walk (rel.resolve root)), t)

/-! ## What each operation does -/

section Exec

variable {root : List Str} {t : Tree J}

@[simp] theorem exec_online :
    Drive.online.exec (step root) t = (t.isDir root, t) := rfl

@[simp] theorem exec_read (rel : UnixPath) :
    (Drive.read rel).exec (step root) t = (t.file? (rel.resolve root), t) := rfl

@[simp] theorem exec_readDoc (rel : UnixPath) :
    (Drive.readDoc rel).exec (step root) t =
      ((t.file? (rel.resolve root)).bind Content.doc?, t) := rfl

@[simp] theorem exec_write (rel : UnixPath) (c : Content J) :
    (Drive.write rel c).exec (step root) t =
      attempt t (t.write (rel.resolve root) c) := rfl

@[simp] theorem exec_create (rel : UnixPath) :
    (Drive.create rel).exec (step root) t =
      attempt t (t.write (rel.resolve root) (.raw [])) := rfl

@[simp] theorem exec_append (rel : UnixPath) (data : Bytes) :
    (Drive.append rel data).exec (step root) t =
      attempt t (t.update (rel.resolve root) fun c =>
        c.bytes?.map fun b => .raw (b ++ data)) := rfl

@[simp] theorem exec_shutdown (rel : UnixPath) :
    (Drive.shutdown rel).exec (step root) t = (true, t) := rfl

@[simp] theorem exec_rename (src dst : UnixPath) :
    (Drive.rename src dst).exec (step root) t =
      attempt t (t.rename (src.resolve root) (dst.resolve root)) := rfl

@[simp] theorem exec_removeFile (rel : UnixPath) :
    (Drive.removeFile rel).exec (step root) t =
      attempt t (t.removeFile (rel.resolve root)) := rfl

@[simp] theorem exec_removeDir (rel : UnixPath) :
    (Drive.removeDir rel).exec (step root) t =
      attempt t (t.removeDir (rel.resolve root)) := rfl

@[simp] theorem exec_removeDirAll (rel : UnixPath) :
    (Drive.removeDirAll rel).exec (step root) t =
      attempt t (t.removeDirAll (rel.resolve root)) := rfl

@[simp] theorem exec_createDirAll (rel : UnixPath) :
    (Drive.createDirAll rel).exec (step root) t =
      attempt t (t.createDirAll (rel.resolve root)) := rfl

@[simp] theorem exec_stat (rel : UnixPath) :
    (Drive.stat rel).exec (step root) t =
      ((t.look (rel.resolve root)).map DriveStat.of, t) := rfl

@[simp] theorem exec_walk (rel : UnixPath) :
    (Drive.walk rel).exec (step root) t =
      (some (t.walk (rel.resolve root)), t) := rfl

theorem attempt_some {t' : Tree J} {r : Option (Tree J)} (h : r = some t') :
    attempt t r = (true, t') := by
  rw [h]
  rfl

theorem attempt_none {r : Option (Tree J)} (h : r = none) : attempt t r = (false, t) := by
  rw [h]
  rfl

end Exec

/-- A drive that may be out of reach. -/
def stepIf (root : List Str) (up : Bool) (o : DriveOp J) (t : Tree J) :
    o.Ans × Tree J :=
  if up then step root o t else (o.failed, t)

@[simp] theorem stepIf_true (root : List Str) (o : DriveOp J) (t : Tree J) :
    stepIf root true o t = step root o t := rfl

@[simp] theorem stepIf_false (root : List Str) (o : DriveOp J) (t : Tree J) :
    stepIf root false o t = (o.failed, t) := rfl

@[simp] theorem exec_stepIf_false_snd {α : Type} (root : List Str) (p : DriveProg J α)
    (t : Tree J) : (p.exec (stepIf root false) t).2 = t := by
  induction p generalizing t with
  | ret a => rfl
  | call o k ih => exact ih _ _

end LocalDrive

end Kerplace
