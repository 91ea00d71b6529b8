/-
# `Kerplace.Lib.UnixPath` — path strings and what they name

A path string is read the way a Unix standard library reads it: by its
components, with repeated separators and `.` dropped and `..` kept, plus
whether it starts at the root.  Joining an absolute path onto another
replaces it.  `resolve` says which node of a file system the path names
from a given directory when `..` is taken lexically; symbolic links, and
the demand that what precedes a `..` exist, are not modelled.
-/
import Mathlib.Tactic.Linarith
import Mathlib.Data.List.Infix

namespace Kerplace

/-- Strings as their characters. -/
abbrev Str := List Char

instance lawfulBEqStr : LawfulBEq Str := inferInstance

instance lawfulBEqEntry : LawfulBEq (List Str × Bool) := inferInstance

/-- A path by its components. -/
structure UnixPath where
  abs : Bool
  comps : List Str
  deriving DecidableEq

namespace UnixPath

/-- The components of a string: what stands between separators, without the
empty ones and without `.`. -/
def compsOf (s : Str) : List Str :=
  (s.splitOn '/').filter fun c => decide (c ≠ []) && decide (c ≠ ['.'])

/-- The path a string denotes. -/
def ofStr (s : Str) : UnixPath := ⟨decide (s.head? = some '/'), compsOf s⟩

/-- Append `q`, or replace the path if `q` is absolute. -/
def join (p q : UnixPath) : UnixPath :=
  if q.abs then q else ⟨p.abs, p.comps ++ q.comps⟩

/-- Append a string read as a path. -/
def joinStr (p : UnixPath) (s : Str) : UnixPath := p.join (ofStr s)

/-- The path without its last component. -/
def parent (p : UnixPath) : Option UnixPath :=
  if p.comps = [] then none else some ⟨p.abs, p.comps.dropLast⟩

/-- Whether `q` is `p` or one of its ancestors, component by component. -/
def startsWith (p q : UnixPath) : Bool :=
  decide (p.abs = q.abs) && q.comps.isPrefixOf p.comps

/-- One component applied to a resolved directory. -/
def climb (dir : List Str) (c : Str) : List Str :=
  if c = ['.', '.'] then dir.dropLast else dir ++ [c]

/-- The node named by a path relative to `dir`. -/
def resolve (dir : List Str) (p : UnixPath) : List Str :=
  p.comps.foldl climb (if p.abs then [] else dir)

/-- A relative path that never mentions `..`. -/
def Plain (p : UnixPath) : Prop := p.abs = false ∧ ['.', '.'] ∉ p.comps

instance (p : UnixPath) : Decidable p.Plain := inferInstanceAs (Decidable (_ ∧ _))

theorem foldl_climb {cs : List Str} (h : ['.', '.'] ∉ cs) :
    ∀ dir, cs.foldl climb dir = dir ++ cs := by
  induction cs with
  | nil => simp
  | cons c cs ih =>
      intro dir
      simp only [List.mem_cons, not_or] at h
      rw [List.foldl_cons, ih h.2, climb, if_neg (Ne.symm h.1), List.append_assoc,
        List.singleton_append]

theorem Plain.resolve {p : UnixPath} (h : p.Plain) (dir : List Str) :
    p.resolve dir = dir ++ p.comps := by
  rw [UnixPath.resolve, h.1, foldl_climb h.2]
  rfl

theorem Plain.join {p q : UnixPath} (hp : p.Plain) (hq : q.Plain) :
    (p.join q).Plain := by
  simp only [UnixPath.join, hq.1, Bool.false_eq_true, if_false]
  exact ⟨hp.1, by simp [hp.2, hq.2]⟩

@[simp] theorem comps_join_of_rel {p q : UnixPath} (hq : q.abs = false) :
    (p.join q).comps = p.comps ++ q.comps := by
  simp [UnixPath.join, hq]

@[simp] theorem abs_join_of_rel {p q : UnixPath} (hq : q.abs = false) :
    (p.join q).abs = p.abs := by
  simp [UnixPath.join, hq]

theorem mem_compsOf {s c : Str} (h : c ∈ compsOf s) :
    c ≠ [] ∧ c ≠ ['.'] ∧ c ∈ s.splitOn '/' := by
  simp only [compsOf, List.mem_filter, Bool.and_eq_true, decide_eq_true_eq] at h
  exact ⟨h.2.1, h.2.2, h.1⟩

/-- A string that is one component. -/
def Atom (s : Str) : Prop := '/' ∉ s ∧ s ≠ [] ∧ s ≠ ['.'] ∧ s ≠ ['.', '.']

instance (s : Str) : Decidable (Atom s) := inferInstanceAs (Decidable (_ ∧ _))

theorem Atom.compsOf {s : Str} (h : Atom s) : compsOf s = [s] := by
  rw [UnixPath.compsOf, List.splitOn_eq_singleton h.1]
  simp [h.2.1, h.2.2.1]

theorem Atom.ofStr {s : Str} (h : Atom s) : ofStr s = ⟨false, [s]⟩ := by
  have hhead : s.head? ≠ some '/' := fun hs => h.1 (List.mem_of_mem_head? hs)
  simp [UnixPath.ofStr, h.compsOf, hhead]

theorem Atom.plain {s : Str} (h : Atom s) : (UnixPath.ofStr s).Plain := by
  rw [h.ofStr]
  exact ⟨rfl, by simp [Ne.symm h.2.2.2]⟩

/-- A string read as a relative path that never climbs. -/
def Descends (s : Str) : Prop := (ofStr s).Plain

theorem Atom.descends {s : Str} (h : Atom s) : Descends s := h.plain

theorem resolve_joinStr {p : UnixPath} {s : Str} (h : Descends s) (dir : List Str) :
    (p.joinStr s).resolve dir = p.resolve dir ++ compsOf s := by
  obtain ⟨habs, hcomps⟩ := h
  simp only [joinStr, UnixPath.join, habs, Bool.false_eq_true, if_false,
    UnixPath.resolve, List.foldl_append]
  exact foldl_climb hcomps _

theorem resolve_joinStr_atom {p : UnixPath} {s : Str} (h : Atom s) (dir : List Str) :
    (p.joinStr s).resolve dir = p.resolve dir ++ [s] := by
  rw [resolve_joinStr h.descends, h.compsOf]

theorem resolve_ofStr {s : Str} (h : Descends s) (dir : List Str) :
    (ofStr s).resolve dir = dir ++ compsOf s :=
  Plain.resolve h dir

theorem parent_joinStr_atom {p : UnixPath} {s : Str} (h : Atom s) :
    (p.joinStr s).parent = some p := by
  simp [joinStr, h.ofStr, UnixPath.join, parent]

end UnixPath

end Kerplace
