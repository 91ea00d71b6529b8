/-
# `Kerplace.Lib.Leaves` — files that do not stand in each other's way

A set of paths is set aside for files when no file of the tree stands above one of
them and none of them is a directory.  If none of the paths lies below another,
this stays so while just these files are written, with their directories, and
removed; and then every such write succeeds.
-/
import Kerplace.Lib.FileTree

namespace Kerplace

namespace FileTree

variable {N C : Type} [Ord N] [Std.TransOrd N] [Std.LawfulEqOrd N] [DecidableEq N]
variable {t t' : FileTree N C} {L : List N → Prop} {dir p q : List N} {x : N} {c : C}

/-- The paths of `L` are free for files. -/
def SetAside (L : List N → Prop) (t : FileTree N C) : Prop :=
  ∀ p, L p → t.look p ≠ some .dir ∧ ∀ q, q <+: p → q ≠ p → t.file? q = none

/-- No path of `L` lies below another. -/
def Antichain (L : List N → Prop) : Prop := ∀ p q, L p → L q → p <+: q → p = q

omit [DecidableEq N] in
theorem SetAside.dir_free (h : t.SetAside L) (hp : L (dir ++ [x])) :
    ∀ q, q <+: dir → t.file? q = none := by
  intro q hq
  refine (h _ hp).2 q (hq.trans (List.prefix_append _ _)) fun h0 => ?_
  have hlen := hq.length_le
  rw [h0, List.length_append, List.length_singleton] at hlen
  omega

theorem SetAside.mkdir_isSome (h : t.SetAside L) (hp : L (dir ++ [x])) :
    (t.createDirAll dir).isSome = true :=
  createDirAll_isSome.2 (h.dir_free hp)

theorem SetAside.mkdir (hL : Antichain L) (h : t.SetAside L) (hp : L (dir ++ [x]))
    (ht : t.createDirAll dir = some t') : t'.SetAside L := by
  intro q hq
  refine ⟨?_, fun r hr hne => by rw [file?_createDirAll ht]; exact (h q hq).2 r hr hne⟩
  rw [look_createDirAll ht]
  split
  · rename_i hpre
    have := hL _ _ hq hp (hpre.trans (List.prefix_append _ _))
    have hlen := hpre.length_le
    rw [this, List.length_append, List.length_singleton] at hlen
    omega
  · exact (h q hq).1

theorem file?_write (ht : t.write p c = some t') (q : List N) :
    t'.file? q = if q = p then some c else t.file? q := by
  by_cases hq : q = p
  · rw [if_pos hq, file?_eq_some, look_write ht, if_pos hq]
  · rw [if_neg hq]
    exact file?_congr ((look_write ht q).trans (if_neg hq))

theorem SetAside.write_isSome (hL : Antichain L) (h : t.SetAside L) (hp : L (dir ++ [x]))
    (ht : t.createDirAll dir = some t') : (t'.write (dir ++ [x]) c).isSome = true := by
  refine FileTree.write_isSome.2 ⟨?_, ((h.mkdir hL hp ht) _ hp).1⟩
  rw [look_createDirAll ht, if_pos (List.prefix_refl _)]

theorem SetAside.write (hL : Antichain L) (h : t.SetAside L) (hp : L p)
    (ht : t.write p c = some t') : t'.SetAside L := by
  intro q hq
  constructor
  · rw [look_write ht]
    split
    · exact fun h0 => by cases h0
    · exact (h q hq).1
  · intro r hr hne
    rw [file?_write ht]
    split
    · rename_i hrp
      subst hrp
      exact absurd (hL _ _ hp hq hr) hne
    · exact (h q hq).2 r hr hne

theorem SetAside.write_apart (h : t.SetAside L) (hp : ∀ q, L q → ¬ p <+: q)
    (ht : t.write p c = some t') : t'.SetAside L := by
  intro q hq
  constructor
  · have hqp : q ≠ p := fun h0 => hp q hq (h0 ▸ List.prefix_refl q)
    rw [look_write ht, if_neg hqp]
    exact (h q hq).1
  · intro r hr hne
    have hrp : r ≠ p := fun h0 => hp q hq (h0 ▸ hr)
    rw [file?_write ht, if_neg hrp]
    exact (h q hq).2 r hr hne

/-- A file can be moved to such a path, once its directory is there, and is then in no
other's way. -/
theorem SetAside.rename (hL : Antichain L) (h : t.SetAside L) (hp : L (dir ++ [x]))
    (hsrc : t.file? p = some c) (hdir : t.look dir = some .dir) (hne : p ≠ dir ++ [x]) :
    ∃ t', t.rename p (dir ++ [x]) = some t' ∧ t'.SetAside L ∧ ∀ q, t'.file? q =
      if q = dir ++ [x] then some c else if q = p then none else t.file? q := by
  obtain ⟨t', ht, hlook⟩ := rename_file hsrc hdir (h _ hp).1 hne
  have hfile : ∀ q, t'.file? q =
      if q = dir ++ [x] then some c else if q = p then none else t.file? q := by
    intro q
    by_cases hq : q = dir ++ [x]
    · rw [if_pos hq, file?_eq_some, hlook, if_pos hq]
    · by_cases hqp : q = p
      · rw [if_neg hq, if_pos hqp, file?, hlook, if_neg hq, if_pos hqp]
      · rw [if_neg hq, if_neg hqp]
        exact file?_congr ((hlook q).trans ((if_neg hq).trans (if_neg hqp)))
  refine ⟨t', ht, fun q hq => ⟨?_, fun r hr hne' => ?_⟩, hfile⟩
  · rw [hlook]
    split
    · exact fun h0 => by cases h0
    · split
      · exact fun h0 => by cases h0
      · exact (h q hq).1
  · rw [hfile]
    split
    · rename_i hrx
      subst hrx
      exact absurd (hL _ _ hp hq hr) hne'
    · split
      · rfl
      · exact (h q hq).2 r hr hne'

theorem file?_removeFile (ht : t.removeFile p = some t') (q : List N) :
    t'.file? q = if q = p then none else t.file? q := by
  by_cases hq : q = p
  · rw [if_pos hq, file?, look_removeFile ht, if_pos hq]
  · rw [if_neg hq]
    exact file?_congr ((look_removeFile ht q).trans (if_neg hq))

theorem file?_removeFile_getD (t : FileTree N C) (p q : List N) :
    ((t.removeFile p).getD t).file? q = if q = p then none else t.file? q := by
  cases ht : t.removeFile p with
  | some t' => exact file?_removeFile ht q
  | none =>
      rw [Option.getD_none]
      split
      · rename_i hq
        cases hfile : t.file? q with
        | none => rfl
        | some c =>
            rw [FileTree.removeFile, ← hq, hfile] at ht
            cases ht
      · rfl

theorem SetAside.removeFile (h : t.SetAside L) (ht : t.removeFile p = some t') :
    t'.SetAside L := by
  intro q hq
  constructor
  · rw [look_removeFile ht]
    split
    · exact fun h0 => by cases h0
    · exact (h q hq).1
  · intro r hr hne
    rw [file?_removeFile ht]
    split
    · rfl
    · exact (h q hq).2 r hr hne

theorem removeFile_isSome (h : t.file? p = some c) : (t.removeFile p).isSome = true := by
  unfold FileTree.removeFile
  rw [h]
  rfl

end FileTree

end Kerplace
