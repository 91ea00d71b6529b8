/-
# `Kerplace.Erasure.Key` — one key on one drive

What a drive has of a key, in the key's own terms: a copy at the current slot
and one under each archived version, the history, and the sidecars.  `Shelf`
says which file stands at each of these places, `Shows` that a drive's tree
has them, and every step the version bookkeeping takes on a drive is an
update of the shelf.
-/
import Kerplace.Erasure.Frame
import Kerplace.Erasure.Put
import Kerplace.Lib.Versions

namespace Kerplace

open FileTree ErasureStore Versions

/-! ## Places -/

/-- The files a key keeps on a drive, other than the temporary one; slot `none` is
the current one, slot `some v` the archive of version `v`. -/
inductive Place where
  | part (slot : Option Str)
  | xl (slot : Option Str)
  | history
  | side (file : Str)
  deriving DecidableEq

/-- The sidecars of an object. -/
def SIDECARS : List Str := [TAGS, RETENTION, LEGALHOLD]

/-- The directory of a slot, from the object's. -/
def slotDir : Option Str → List Str
  | none => []
  | some v => [VDIR, v]

namespace Place

/-- The directory of a place, from the object's. -/
def home : Place → List Str
  | part slot => slotDir slot
  | xl slot => slotDir slot
  | history => [VDIR]
  | side _ => []

/-- The file's name there. -/
def name : Place → Str
  | part _ => PART
  | xl _ => XL_META
  | history => HISTORY
  | side file => file

/-- Where a place lies, from the object's directory. -/
def rel (a : Place) : List Str := a.home ++ [a.name]

/-- The places calls reach. -/
def Proper : Place → Prop
  | part slot => ProperVersion slot
  | xl slot => ProperVersion slot
  | history => True
  | side file => file ∈ SIDECARS

end Place

theorem properVersion_some {v : Str} (h : ProperId v) : ProperVersion (some v) :=
  fun _ hw => Option.some.inj hw ▸ h

theorem ProperId.ne_history {v : Str} (h : ProperId v) : v ≠ HISTORY := by
  rcases h with rfl | ⟨u, rfl⟩
  · decide
  · exact u.ne_of_length (by decide)

theorem sidecar_ne {f : Str} (h : f ∈ SIDECARS) :
    f ≠ PART ∧ f ≠ XL_META ∧ f ≠ VDIR ∧ f ≠ PART_TMP := by
  revert f
  decide

namespace Place

variable {a b : Place}

/-- The place at a relative path. -/
def ofRel : List Str → Option Place
  | [f] => some (if f = PART then part none else if f = XL_META then xl none else side f)
  | [_, _] => some history
  | [_, v, f] => some (if f = PART then part (some v) else xl (some v))
  | _ => none

theorem xlMeta_ne_part : XL_META ≠ PART := by decide

theorem ofRel_rel (ha : a.Proper) : ofRel a.rel = some a := by
  cases a with
  | part slot => cases slot <;> rfl
  | xl slot => cases slot <;> simp [rel, home, name, slotDir, ofRel, xlMeta_ne_part]
  | history => rfl
  | side f =>
      obtain ⟨h1, h2, -, -⟩ := sidecar_ne ha
      simp [rel, home, name, ofRel, h1, h2]

theorem rel_inj (ha : a.Proper) (hb : b.Proper) (h : a.rel = b.rel) : a = b := by
  have := congrArg ofRel h
  rw [ofRel_rel ha, ofRel_rel hb] at this
  exact Option.some.inj this

theorem rel_ne_tmp (ha : a.Proper) : a.rel ≠ [PART_TMP] := by
  have h1 : PART ≠ PART_TMP := by decide
  have h2 : XL_META ≠ PART_TMP := by decide
  cases a with
  | part slot => cases slot <;> simp [rel, home, name, slotDir, h1]
  | xl slot => cases slot <;> simp [rel, home, name, slotDir, h2]
  | history => simp [rel, home, name]
  | side f => simp [rel, home, name, (sidecar_ne ha).2.2.2]

theorem rel_not_within (ha : a.Proper) {slot : Option Str} (hs : ProperVersion slot) :
    ¬ a.rel <+: slotDir slot := by
  have h1 : PART ≠ VDIR := by decide
  have h2 : XL_META ≠ VDIR := by decide
  intro h
  cases slot with
  | none => cases a <;> simp [rel, home, name, slotDir] at h
  | some v =>
      have hv := (hs v rfl).ne_history
      cases a with
      | part slot => cases slot <;> simp [rel, home, name, slotDir, h1] at h
      | xl slot => cases slot <;> simp [rel, home, name, slotDir, h2] at h
      | history => simp [rel, home, name, slotDir, hv.symm] at h
      | side f => simp [rel, home, name, slotDir, (sidecar_ne ha).2.2.1] at h

theorem rel_ne_nil (a : Place) : a.rel ≠ [] := by
  simp [rel]

end Place

/-! ## Shelves -/

/-- Which file stands at each place. -/
abbrev Shelf := Place → Option (Node (Content Doc))

/-- The tree has a key's files at `dir` as the shelf says, and no file in the way of
its directories. -/
structure Shows (dir : List Str) (F : Shelf) (t : Tree Doc) : Prop where
  dirs : ∀ slot, ProperVersion slot → ∀ q, q <+: dir ++ slotDir slot → t.file? q = none
  tmp : t.look (dir ++ [PART_TMP]) ≠ some .dir
  place : ∀ a : Place, a.Proper → t.look (dir ++ a.rel) = F a

/-- A path a key's files depend on. -/
def OnShelf (dir q : List Str) : Prop :=
  q = dir ++ [PART_TMP] ∨ ∃ a : Place, a.Proper ∧ q = dir ++ a.rel

/-- A shelf with nothing but files. -/
def Shelf.Files (F : Shelf) : Prop := ∀ a : Place, F a ≠ some .dir

/-- A key's files and no others, at a drive that has nothing of it. -/
def Shelf.bare : Shelf := fun _ => none

namespace Shows

variable {dir : List Str} {F : Shelf} {t t' : Tree Doc} {a b : Place} {slot : Option Str}

theorem path (h : Shows dir F t) : ∀ q, q <+: dir → t.file? q = none :=
  fun q hq => h.dirs none properVersion_none q (by simpa [slotDir] using hq)

/-- Changing one place. -/
theorem set (h : Shows dir F t) (ha : a.Proper) {x : Option (Node (Content Doc))}
    (hl : ∀ q, t'.look q = if q = dir ++ a.rel then x else t.look q) :
    Shows dir (Function.update F a x) t' where
  dirs slot hs q hq := by
    have hne : q ≠ dir ++ a.rel := by
      rintro rfl
      exact a.rel_not_within ha hs (List.prefix_append_right_inj dir |>.1 hq)
    rw [file?_congr ((hl q).trans (if_neg hne))]
    exact h.dirs slot hs q hq
  tmp := by
    rw [hl, if_neg fun h0 => a.rel_ne_tmp ha (List.append_cancel_left h0).symm]
    exact h.tmp
  place b hb := by
    rw [hl, Function.update_apply]
    by_cases hab : b = a
    · rw [if_pos (by rw [hab]), if_pos hab]
    · rw [if_neg fun h0 => hab (Place.rel_inj hb ha (List.append_cancel_left h0)),
        if_neg hab, h.place b hb]

/-- Making a directory of the key. -/
theorem mkdir (h : Shows dir F t) (hs : ProperVersion slot) {p : List Str}
    (hp : p <+: dir ++ slotDir slot) :
    ∃ t', t.createDirAll p = some t' ∧ Shows dir F t' ∧ t'.look p = some .dir := by
  obtain ⟨t', ht⟩ := Option.isSome_iff_exists.1
    (createDirAll_isSome.2 fun q hq => h.dirs slot hs q (hq.trans hp))
  have hl := look_createDirAll ht
  refine ⟨t', ht, ⟨fun slot' hs' q hq => ?_, ?_, fun a ha => ?_⟩, ?_⟩
  · by_cases hqp : q <+: p
    · rw [file?, hl, if_pos hqp]
    · rw [file?_congr ((hl q).trans (if_neg hqp))]
      exact h.dirs slot' hs' q hq
  · have htmp : PART_TMP ≠ VDIR := by decide
    have hnot : ¬ dir ++ [PART_TMP] <+: p := fun h0 => by
      have := (List.prefix_append_right_inj dir).1 (h0.trans hp)
      cases slot <;> simp [slotDir, htmp] at this
    rw [hl, if_neg hnot]
    exact h.tmp
  · have hnot : ¬ dir ++ a.rel <+: p := fun h0 =>
      a.rel_not_within ha hs ((List.prefix_append_right_inj dir).1 (h0.trans hp))
    rw [hl, if_neg hnot]
    exact h.place a ha
  · rw [hl, if_pos (List.prefix_refl p)]

theorem write (h : Shows dir F t) (ha : a.Proper) (hdir : t.look (dir ++ a.home) = some .dir)
    (hF : F a ≠ some .dir) (c : Content Doc) :
    ∃ t', t.write (dir ++ a.rel) c = some t' ∧
      Shows dir (Function.update F a (some (.file c))) t' := by
  have hrel : dir ++ a.rel = (dir ++ a.home) ++ [a.name] := (List.append_assoc _ _ _).symm
  obtain ⟨t', ht⟩ := Option.isSome_iff_exists.1 (show (t.write (dir ++ a.rel) c).isSome from by
    rw [hrel, write_isSome, ← hrel, h.place a ha]
    exact ⟨hdir, hF⟩)
  exact ⟨t', ht, h.set ha (look_write ht)⟩

/-- Moving the file of one place to another. -/
theorem move (h : Shows dir F t) (ha : a.Proper) (hb : b.Proper) (hne : a ≠ b)
    {c : Content Doc} (hFa : F a = some (.file c)) (hFb : F b ≠ some .dir)
    (hdir : t.look (dir ++ b.home) = some .dir) :
    ∃ t', t.rename (dir ++ a.rel) (dir ++ b.rel) = some t' ∧
      Shows dir (Function.update (Function.update F b (some (.file c))) a none) t' ∧
      ∀ q, t.look q = some .dir → t'.look q = some .dir := by
  have hrel : dir ++ b.rel = (dir ++ b.home) ++ [b.name] := (List.append_assoc _ _ _).symm
  have hsrc : t.file? (dir ++ a.rel) = some c := file?_eq_some.2 ((h.place a ha).trans hFa)
  have hab : dir ++ a.rel ≠ dir ++ b.rel := fun h0 =>
    hne (Place.rel_inj ha hb (List.append_cancel_left h0))
  have hdst : t.look (dir ++ b.rel) ≠ some .dir := by rwa [h.place b hb]
  rw [hrel] at hab hdst
  obtain ⟨t', ht, hl⟩ := rename_file hsrc hdir hdst hab
  rw [← hrel] at ht hl hab hdst
  refine ⟨t', ht, ?_, fun q hq => ?_⟩
  · refine ⟨fun slot hs q hq => ?_, ?_, fun e he => ?_⟩
    · have hq' : ∀ {e : Place}, e.Proper → q ≠ dir ++ e.rel := fun he h0 =>
        Place.rel_not_within he hs ((List.prefix_append_right_inj dir).1 (h0 ▸ hq))
      rw [file?_congr ((hl q).trans ((if_neg (hq' hb)).trans (if_neg (hq' ha))))]
      exact h.dirs slot hs q hq
    · have htmp : ∀ {e : Place}, e.Proper → dir ++ [PART_TMP] ≠ dir ++ e.rel := fun he h0 =>
        Place.rel_ne_tmp he (List.append_cancel_left h0).symm
      rw [hl, if_neg (htmp hb), if_neg (htmp ha)]
      exact h.tmp
    · have hiff : ∀ {e' : Place}, e'.Proper → (dir ++ e.rel = dir ++ e'.rel ↔ e = e') :=
        fun he' => ⟨fun h0 => Place.rel_inj he he' (List.append_cancel_left h0),
          fun h0 => by rw [h0]⟩
      simp only [hl, Function.update_apply, hiff ha, hiff hb, h.place e he]
      by_cases hea : e = a
      · subst hea
        simp [hne]
      · simp [hea]
  · have h1 : q ≠ dir ++ b.rel := fun h0 => hdst (h0 ▸ hq)
    have h2 : q ≠ dir ++ a.rel := by
      rintro rfl
      rw [file?_eq_some.1 hsrc] at hq
      cases hq
    rw [hl, if_neg h1, if_neg h2, hq]

/-- Removing the file of a place. -/
theorem remove (h : Shows dir F t) (ha : a.Proper) (hF : F a ≠ some .dir) :
    Shows dir (Function.update F a none) ((t.removeFile (dir ++ a.rel)).getD t) := by
  cases ht : t.removeFile (dir ++ a.rel) with
  | some t' => exact h.set ha (look_removeFile ht)
  | none =>
      have hnone : F a = none := by
        have hf : ¬ (t.file? (dir ++ a.rel)).isSome := fun h0 => by simp [removeFile, h0] at ht
        rw [Option.not_isSome_iff_eq_none, file?, h.place a ha] at hf
        cases hFa : F a with
        | none => rfl
        | some x =>
            cases x with
            | dir => exact absurd hFa hF
            | file c => simp [hFa] at hf
      rw [← hnone, Function.update_eq_self]
      exact h

/-- Removing the directory of an archived version, when it is empty. -/
theorem rmdir (h : Shows dir F t) (hfiles : F.Files) (slot : Option Str) :
    Shows dir F ((t.removeDir (dir ++ slotDir slot)).getD t) := by
  cases ht : t.removeDir (dir ++ slotDir slot) with
  | none => exact h
  | some t' =>
      have hl := look_removeDir ht
      have hdir := removeDir_dir ht
      refine ⟨fun slot' hs' q hq => ?_, ?_, fun a ha => ?_⟩
      · rw [Option.getD_some, file?_removeDir ht]
        exact h.dirs slot' hs' q hq
      · rw [Option.getD_some, hl]
        split
        · simp
        · exact h.tmp
      · have hne : dir ++ a.rel ≠ dir ++ slotDir slot := fun h0 => by
          rw [← h0, h.place a ha] at hdir
          exact hfiles a hdir
        rw [Option.getD_some, hl, if_neg hne]
        exact h.place a ha

theorem archive_covers {v : Str} (hv : ProperId v) (ha : a.Proper) :
    dir ++ slotDir (some v) <+: dir ++ a.rel ↔ a = .part (some v) ∨ a = .xl (some v) := by
  have hne := hv.ne_history
  rw [List.prefix_append_right_inj]
  cases a with
  | part slot => cases slot <;> simp [Place.rel, Place.home, Place.name, slotDir, eq_comm]
  | xl slot => cases slot <;> simp [Place.rel, Place.home, Place.name, slotDir, eq_comm]
  | history => simp [Place.rel, Place.home, Place.name, slotDir, hne]
  | side f => simp [Place.rel, Place.home, Place.name, slotDir]

/-- Removing an archived version with its directory. -/
theorem removeArchive (h : Shows dir F t) {v : Str} (hv : ProperId v) :
    Shows dir (Function.update (Function.update F (.part (some v)) none) (.xl (some v)) none)
      ((t.removeDirAll (dir ++ slotDir (some v))).getD t) := by
  have hF : ∀ e : Place, Function.update (Function.update F (.part (some v)) none)
      (.xl (some v)) none e = if e = .part (some v) ∨ e = .xl (some v) then none else F e := by
    intro e
    simp only [Function.update_apply]
    split <;> split <;> simp_all
  cases ht : t.removeDirAll (dir ++ slotDir (some v)) with
  | none =>
      refine ⟨h.dirs, h.tmp, fun a ha => ?_⟩
      rw [Option.getD_none, hF, h.place a ha]
      split
      · rename_i hin
        have hno : t.look (dir ++ slotDir (some v)) ≠ some .dir := fun h0 => by
          rw [removeDirAll, if_pos ⟨by simp [slotDir], isDir_iff.2 h0⟩] at ht
          cases ht
        have hcover : dir ++ slotDir (some v) <+: dir ++ a.rel :=
          (archive_covers hv ha).2 hin
        obtain ⟨rest, hrest⟩ := hcover
        have hne : rest ≠ [] := by
          rintro rfl
          rw [List.append_nil] at hrest
          have := List.append_cancel_left hrest
          rcases hin with rfl | rfl <;> simp [Place.rel, Place.home] at this
        rw [← h.place a ha, ← hrest, look_below hno hne]
      · rfl
  | some t' =>
      have hl := look_removeDirAll ht
      refine ⟨fun slot hs q hq => ?_, ?_, fun a ha => ?_⟩
      · exact file?_removeDirAll ht (h.dirs slot hs q hq)
      · rw [Option.getD_some, hl]
        split
        · simp
        · exact h.tmp
      · rw [Option.getD_some, hl, hF]
        simp only [archive_covers hv ha, h.place a ha]

/-- A tree from which only empty directories have gone. -/
def Thinner (t t' : Tree Doc) : Prop :=
  ∀ q, t'.look q = t.look q ∨ t.look q = some .dir ∧ t'.look q = none

theorem thin (h : Shows dir F t) (hfiles : F.Files) (ht : Thinner t t') :
    Shows dir F t' where
  dirs slot hs q hq := by
    have hold := h.dirs slot hs q hq
    rcases ht q with hl | ⟨-, hl⟩
    · rw [file?_congr hl, hold]
    · rw [file?, hl]
  tmp := by
    rcases ht (dir ++ [PART_TMP]) with hl | ⟨-, hl⟩ <;> rw [hl]
    · exact h.tmp
    · simp
  place a ha := by
    rcases ht (dir ++ a.rel) with hl | ⟨hd, -⟩
    · rw [hl, h.place a ha]
    · rw [h.place a ha] at hd
      exact absurd hd (hfiles a)

theorem removeAll (h : Shows dir F t) (hne : dir ≠ []) :
    Shows dir .bare ((t.removeDirAll dir).getD t) := by
  cases ht : t.removeDirAll dir with
  | none =>
      have hno : t.look dir ≠ some .dir := fun h0 => by
        simp [removeDirAll, isDir_iff.2 h0, hne] at ht
      exact ⟨h.dirs, h.tmp, fun a _ => look_below hno a.rel_ne_nil⟩
  | some t' =>
      have hl := look_removeDirAll ht
      refine ⟨fun slot hs q hq => ?_, ?_, fun a ha => ?_⟩
      · exact file?_removeDirAll ht (h.dirs slot hs q hq)
      · rw [Option.getD_some, hl, if_pos (List.prefix_append _ _)]
        simp
      · rw [Option.getD_some, hl, if_pos (List.prefix_append _ _)]
        rfl

theorem top_dir (h : Shows dir F t) (ha : a.Proper) (hF : F a ≠ none) :
    t.look dir = some .dir := by
  obtain ⟨x, hx⟩ := Option.ne_none_iff_exists'.1 hF
  rw [← h.place a ha] at hx
  exact look_ancestor a.rel_ne_nil hx

end Shows

/-! ## What a drive has of a key -/

/-- One copy of an object: the blocks its shards were cut from, and its metadata. -/
structure Copy where
  blocks : List Bytes
  xl : XlMeta
  deriving DecidableEq

/-- What one drive has of a key. -/
structure KeyState where
  slot : Option Str → Option Copy
  history : Option VHistory
  side : Str → Option (Content Doc)

namespace KeyState

variable {n : Nat}

/-- The files of a key on drive `d`. -/
def shelf (S : ErasureStore n) (d : Fin n) (K : KeyState) : Shelf
  | .part v => (K.slot v).map fun c => .file (.raw (S.partOf d c.blocks))
  | .xl v => (K.slot v).map fun c => .file (.doc (.xl c.xl))
  | .history => K.history.map fun h => .file (.doc (.history h))
  | .side f => (K.side f).map .file

/-- Nothing. -/
def bare : KeyState := ⟨fun _ => none, none, fun _ => none⟩

/-- Change what a slot has. -/
def setSlot (K : KeyState) (v : Option Str) (c : Option Copy) : KeyState :=
  { K with slot := Function.update K.slot v c }

/-- Move what a slot has. -/
def moveSlot (K : KeyState) (src dst : Option Str) : KeyState :=
  { K with slot := Versions.moveSlot K.slot src dst }

/-- Record a history. -/
def record (K : KeyState) (h : VHistory) : KeyState := { K with history := some h }

variable {S : ErasureStore n} {d : Fin n} {K : KeyState}

theorem shelf_files : (K.shelf S d).Files := by
  intro a
  cases a with
  | part v => cases h : K.slot v <;> simp [shelf, h]
  | xl v => cases h : K.slot v <;> simp [shelf, h]
  | history => cases h : K.history <;> simp [shelf, h]
  | side f => cases h : K.side f <;> simp [shelf, h]

theorem shelf_bare : bare.shelf S d = .bare := by
  funext a
  cases a <;> rfl

theorem shelf_setSlot (v : Option Str) (c : Option Copy) :
    (K.setSlot v c).shelf S d =
      Function.update (Function.update (K.shelf S d) (.part v)
        (c.map fun c => .file (.raw (S.partOf d c.blocks)))) (.xl v)
        (c.map fun c => .file (.doc (.xl c.xl))) := by
  funext a
  cases a <;> simp only [shelf, setSlot, Function.update_apply, Place.part.injEq,
    Place.xl.injEq, reduceCtorEq, if_false]
  · split <;> rfl
  · split <;> rfl

theorem shelf_record (h : VHistory) : (K.record h).shelf S d =
    Function.update (K.shelf S d) .history (some (.file (.doc (.history h)))) := by
  funext a
  cases a <;> simp only [shelf, record, Function.update_apply, reduceCtorEq, if_true,
    if_false]
  rfl

theorem slot_setSlot_self (v : Option Str) (c : Option Copy) : (K.setSlot v c).slot v = c := by
  simp only [setSlot, Function.update_self]

theorem slot_setSlot_of_ne {v w : Option Str} (h : w ≠ v) (c : Option Copy) :
    (K.setSlot v c).slot w = K.slot w := by
  simp only [setSlot, Function.update_of_ne h]

theorem moveSlot_eq_of_some {src : Option Str} {c : Copy} (h : K.slot src = some c)
    (dst : Option Str) : K.moveSlot src dst = (K.setSlot dst (some c)).setSlot src none := by
  rw [moveSlot, Versions.moveSlot_some h]
  rfl

theorem moveSlot_eq_of_none {src : Option Str} (h : K.slot src = none) (dst : Option Str) :
    K.moveSlot src dst = K := by
  rw [moveSlot, Versions.moveSlot_none h]

end KeyState

/-! ## The paths of the places -/

section

variable {bucket key : Str} {slot : Option Str}

theorem resolve_rObjV (hs : ProperVersion slot) (root : List Str) :
    (rObjV bucket key slot).resolve root =
      (rObject bucket key).resolve root ++ slotDir slot := by
  cases slot with
  | none => exact (List.append_nil _).symm
  | some v =>
      rw [rObjV, UnixPath.resolve_joinStr_atom (hs v rfl).atom,
        UnixPath.resolve_joinStr_atom atom_vdir, List.append_assoc]
      rfl

theorem resolve_part (hs : ProperVersion slot) (root : List Str) :
    ((rObjV bucket key slot).joinStr PART).resolve root =
      (rObject bucket key).resolve root ++ (Place.part slot).rel := by
  rw [UnixPath.resolve_joinStr_atom atom_part, resolve_rObjV hs, List.append_assoc]
  rfl

theorem resolve_xl (hs : ProperVersion slot) (root : List Str) :
    ((rObjV bucket key slot).joinStr XL_META).resolve root =
      (rObject bucket key).resolve root ++ (Place.xl slot).rel := by
  rw [UnixPath.resolve_joinStr_atom atom_xlMeta, resolve_rObjV hs, List.append_assoc]
  rfl

theorem resolve_vdir (root : List Str) :
    ((rObject bucket key).joinStr VDIR).resolve root =
      (rObject bucket key).resolve root ++ Place.history.home :=
  UnixPath.resolve_joinStr_atom atom_vdir root

theorem resolve_history (root : List Str) :
    (rHistory bucket key).resolve root =
      (rObject bucket key).resolve root ++ Place.history.rel := by
  rw [rHistory, UnixPath.resolve_joinStr_atom atom_history,
    UnixPath.resolve_joinStr_atom atom_vdir, List.append_assoc]
  rfl

end

/-! ## The steps of the bookkeeping on one drive -/

namespace Shows

variable {n : Nat} {S : ErasureStore n} {d : Fin n} {K : KeyState} {bucket key : Str}
  {root : List Str} {t : Tree Doc}

/-- Moving one slot's two files to another slot. -/
theorem exec_moveSlot (h : Shows ((rObject bucket key).resolve root) (K.shelf S d) t)
    {src dst : Option Str} (hsrc : ProperVersion src) (hdst : ProperVersion dst)
    (hne : src ≠ dst)
    (hdir : K.slot src ≠ none →
      t.look ((rObject bucket key).resolve root ++ slotDir dst) = some .dir) :
    Shows ((rObject bucket key).resolve root) ((K.moveSlot src dst).shelf S d)
      ((Drive.rename ((rObjV bucket key src).joinStr PART)
          ((rObjV bucket key dst).joinStr PART)).exec (LocalDrive.step root)
        ((Drive.rename ((rObjV bucket key src).joinStr XL_META)
          ((rObjV bucket key dst).joinStr XL_META)).exec (LocalDrive.step root) t).2).2 := by
  simp only [LocalDrive.exec_rename, LocalDrive.attempt, resolve_part hsrc,
    resolve_part hdst, resolve_xl hsrc, resolve_xl hdst]
  cases hc : K.slot src with
  | none =>
      have hgone : ∀ {t' : Tree Doc} {a b : Place}, a.Proper → a ≠ b →
          K.shelf S d a = none → Shows ((rObject bucket key).resolve root) (K.shelf S d) t' →
          t'.rename ((rObject bucket key).resolve root ++ a.rel)
            ((rObject bucket key).resolve root ++ b.rel) = none := by
        intro t' a b ha _ hF ht'
        cases hr : t'.rename _ _ with
        | none => rfl
        | some u => exact absurd ((ht'.place a ha).trans hF) (rename_src hr)
      rw [K.moveSlot_eq_of_none hc]
      rw [hgone (a := .xl src) (b := .xl dst) hsrc (by simpa using hne)
        (by simp [KeyState.shelf, hc]) h, Option.getD_none]
      rw [hgone (a := .part src) (b := .part dst) hsrc (by simpa using hne)
        (by simp [KeyState.shelf, hc]) h]
      exact h
  | some c =>
      obtain ⟨t₁, h₁, hs₁, hdirs⟩ := h.move (a := .xl src) (b := .xl dst) hsrc hdst
        (by simpa using hne) (c := .doc (.xl c.xl)) (by simp [KeyState.shelf, hc])
        (KeyState.shelf_files _) (hdir (by simp [hc]))
      obtain ⟨t₂, h₂, hs₂, -⟩ := hs₁.move (a := .part src) (b := .part dst) hsrc hdst
        (by simpa using hne) (c := .raw (S.partOf d c.blocks))
        (by simp [KeyState.shelf, hc])
        (by simp [KeyState.shelf_files (K := K) (S := S) (d := d) (.part dst)])
        (hdirs _ (hdir (by simp [hc])))
      rw [h₁, Option.getD_some, h₂, Option.getD_some, K.moveSlot_eq_of_some hc,
        KeyState.shelf_setSlot, KeyState.shelf_setSlot]
      convert hs₂ using 1
      funext a
      cases a <;> simp only [Function.update_apply, Option.map_some, Option.map_none,
        Place.part.injEq, Place.xl.injEq, reduceCtorEq, if_false]

theorem exec_demote (h : Shows ((rObject bucket key).resolve root) (K.shelf S d) t)
    {v : Str} (hv : ProperId v) :
    Shows ((rObject bucket key).resolve root) ((K.moveSlot none (some v)).shelf S d)
      ((do
        let _ ← Drive.createDirAll (rObjV bucket key (some v))
        let _ ← Drive.rename ((rObject bucket key).joinStr XL_META)
          ((rObjV bucket key (some v)).joinStr XL_META)
        Drive.rename ((rObject bucket key).joinStr PART)
          ((rObjV bucket key (some v)).joinStr PART) : DriveProg Doc Bool).exec
        (LocalDrive.step root) t).2 := by
  have hs := properVersion_some hv
  obtain ⟨t₁, h₁, hs₁, hdir⟩ := h.mkdir hs (List.prefix_refl _)
  simp only [Prog.exec_bind, LocalDrive.exec_createDirAll, resolve_rObjV hs, h₁,
    LocalDrive.attempt, Option.getD_some]
  exact hs₁.exec_moveSlot properVersion_none hs (by simp) fun _ => hdir

/-- `promote_archive` on one drive. -/
theorem exec_promote (h : Shows ((rObject bucket key).resolve root) (K.shelf S d) t)
    {v : Str} (hv : ProperId v) :
    Shows ((rObject bucket key).resolve root) ((K.moveSlot (some v) none).shelf S d)
      ((do
        let _ ← Drive.rename ((rObjV bucket key (some v)).joinStr XL_META)
          ((rObject bucket key).joinStr XL_META)
        let _ ← Drive.rename ((rObjV bucket key (some v)).joinStr PART)
          ((rObject bucket key).joinStr PART)
        Drive.removeDir (rObjV bucket key (some v)) : DriveProg Doc Bool).exec
        (LocalDrive.step root) t).2 := by
  have hs := properVersion_some hv
  have hmoved := h.exec_moveSlot hs properVersion_none (by simp) fun hc => by
    simpa [slotDir] using h.top_dir (a := .part (some v)) hs (by
      obtain ⟨c, hc⟩ := Option.ne_none_iff_exists'.1 hc
      simp [KeyState.shelf, hc])
  simp only [Prog.exec_bind, LocalDrive.exec_removeDir, resolve_rObjV hs,
    LocalDrive.attempt]
  exact hmoved.rmdir (KeyState.shelf_files) (some v)

/-- `discard_current` on one drive. -/
theorem exec_discard (h : Shows ((rObject bucket key).resolve root) (K.shelf S d) t) :
    Shows ((rObject bucket key).resolve root) ((K.setSlot none none).shelf S d)
      ((do
        let _ ← Drive.removeFile ((rObject bucket key).joinStr XL_META)
        Drive.removeFile ((rObject bucket key).joinStr PART) : DriveProg Doc Bool).exec
        (LocalDrive.step root) t).2 := by
  have hpart : ((rObject bucket key).joinStr PART).resolve root =
      (rObject bucket key).resolve root ++ (Place.part none).rel :=
    resolve_part properVersion_none root
  have hxl : ((rObject bucket key).joinStr XL_META).resolve root =
      (rObject bucket key).resolve root ++ (Place.xl none).rel :=
    resolve_xl properVersion_none root
  simp only [Prog.exec_bind, LocalDrive.exec_removeFile, LocalDrive.attempt, hpart, hxl]
  rw [KeyState.shelf_setSlot]
  have hgone := (h.remove (a := .xl none) properVersion_none (KeyState.shelf_files _)).remove
    (a := .part none) properVersion_none (by simp [KeyState.shelf_files (K := K) (.part none)])
  rwa [Function.update_comm (by simp)] at hgone

theorem exec_removeArchive (h : Shows ((rObject bucket key).resolve root) (K.shelf S d) t)
    {v : Str} (hv : ProperId v) :
    Shows ((rObject bucket key).resolve root) ((K.setSlot (some v) none).shelf S d)
      ((Drive.removeDirAll (rObjV bucket key (some v))).exec (LocalDrive.step root) t).2 := by
  rw [LocalDrive.exec_removeDirAll, resolve_rObjV (properVersion_some hv),
    KeyState.shelf_setSlot]
  exact h.removeArchive hv

/-- `write_history` on one drive. -/
theorem exec_record (h : Shows ((rObject bucket key).resolve root) (K.shelf S d) t)
    (hist : VHistory) :
    ∃ t', (do
        let _ ← Drive.createDirAll ((rObject bucket key).joinStr VDIR)
        Drive.write (rHistory bucket key) (.doc (.history hist)) : DriveProg Doc Bool).exec
        (LocalDrive.step root) t = (true, t') ∧
      Shows ((rObject bucket key).resolve root) ((K.record hist).shelf S d) t' := by
  obtain ⟨t₁, h₁, hs₁, hdir⟩ := h.mkdir (properVersion_some properId_null)
    (p := (rObject bucket key).resolve root ++ Place.history.home)
    ((List.prefix_append_right_inj _).2 ⟨[NULL], rfl⟩)
  obtain ⟨t₂, h₂, hs₂⟩ := hs₁.write (a := Place.history) trivial hdir (KeyState.shelf_files _)
    (.doc (.history hist))
  refine ⟨t₂, ?_, by rwa [KeyState.shelf_record]⟩
  simp only [Prog.exec_bind, LocalDrive.exec_createDirAll, LocalDrive.exec_write,
    resolve_vdir, resolve_history, h₁, LocalDrive.attempt, Option.getD_some, h₂,
    Option.isSome_some]

/-- Pruning takes empty directories only. -/
theorem thinner_pruneEmpty (root : List Str) (stop : UnixPath) (rounds : Nat) :
    ∀ (rel : UnixPath) (t : Tree Doc),
      Thinner t ((Drive.pruneEmpty stop rounds rel).exec (LocalDrive.step root) t).2 := by
  induction rounds with
  | zero => exact fun _ _ _ => .inl rfl
  | succ rounds ih =>
      intro rel t
      rw [Drive.pruneEmpty]
      split
      · rw [Prog.exec_bind, LocalDrive.exec_removeDir]
        cases hr : t.removeDir (rel.resolve root) with
        | none => exact fun _ => .inl rfl
        | some t₁ =>
            have hfirst : Thinner t t₁ := fun q => by
              rw [look_removeDir hr]
              split
              · rename_i hq
                exact .inr ⟨hq ▸ removeDir_dir hr, rfl⟩
              · exact .inl rfl
            rw [LocalDrive.attempt_some rfl, if_pos rfl]
            split
            · intro q
              rcases ih _ t₁ q with hl | ⟨hd, hl⟩
              · rw [hl]
                exact hfirst q
              · rcases hfirst q with hl' | ⟨-, hl'⟩
                · exact .inr ⟨hl' ▸ hd, hl⟩
                · rw [hl'] at hd
                  cases hd
            · exact hfirst
      · exact fun _ => .inl rfl

theorem exec_removeObjectDir
    (h : Shows ((rObject bucket key).resolve root) (K.shelf S d) t)
    (hne : (rObject bucket key).resolve root ≠ []) :
    Shows ((rObject bucket key).resolve root) (KeyState.bare.shelf S d)
      ((removeObjectDir bucket key).exec (LocalDrive.step root) t).2 := by
  have hall := h.removeAll hne
  rw [KeyState.shelf_bare]
  unfold removeObjectDir
  simp only [Prog.exec_bind, LocalDrive.exec_removeDirAll, LocalDrive.attempt]
  split
  · exact hall.thin (fun a => by simp [Shelf.bare]) (thinner_pruneEmpty _ _ _ _ _)
  · exact hall

/-! ## The sharded write on one drive -/

theorem open_ {dir : List Str} (h : Shows dir (K.shelf S d) t) : Open t dir where
  path := h.path
  tmp := h.tmp
  part := fun h0 => KeyState.shelf_files (S := S) (K := K) (d := d) (.part none)
    ((h.place (.part none) properVersion_none).symm.trans h0)
  xl := fun h0 => KeyState.shelf_files (S := S) (K := K) (d := d) (.xl none)
    ((h.place (.xl none) properVersion_none).symm.trans h0)

theorem home_not_within {dir : List Str} {a : Place} (ha : a.Proper) : ¬ dir ++ a.rel <+: dir :=
  fun h0 => a.rel_not_within ha properVersion_none
    ((List.prefix_append_right_inj dir).1 (by simpa [slotDir] using h0))

theorem below_ne {dir q : List Str} {slot : Option Str} (hs : ProperVersion slot)
    (hq : q <+: dir ++ slotDir slot) {f : Str} (hf : f ≠ VDIR) : q ≠ dir ++ [f] := by
  rintro rfl
  have := (List.prefix_append_right_inj dir).1 hq
  cases slot <;> simp [slotDir, hf] at this

theorem staged {dir : List Str} {F : Shelf} {t' : Tree Doc} {tmp : Bytes}
    (h : Shows dir F t) (hst : Staged t t' dir tmp) : Shows dir F t' where
  dirs slot hs q hq := by
    by_cases hqd : q <+: dir
    · rw [file?, hst, if_pos hqd]
    · rw [file?_congr ((hst q).trans ((if_neg hqd).trans
        (if_neg (below_ne hs hq (by decide)))))]
      exact h.dirs slot hs q hq
  tmp := by rw [hst, if_neg not_snoc_prefix, if_pos rfl]; simp
  place a ha := by
    rw [hst, if_neg (home_not_within ha),
      if_neg fun h0 => a.rel_ne_tmp ha (List.append_cancel_left h0)]
    exact h.place a ha

theorem published {dir : List Str} {t' : Tree Doc} {blocks : List Bytes} {xl : XlMeta}
    (h : Shows dir (K.shelf S d) t) (hp : Published t t' dir (S.partOf d blocks) xl) :
    Shows dir ((K.setSlot none (some ⟨blocks, xl⟩)).shelf S d) t' where
  dirs slot hs q hq := by
    by_cases hqd : q <+: dir
    · rw [file?, hp, if_pos hqd]
    · rw [file?_congr ((hp q).trans ((if_neg hqd).trans
        ((if_neg (below_ne hs hq (by decide))).trans
          ((if_neg (below_ne hs hq (by decide))).trans
            (if_neg (below_ne hs hq (by decide)))))))]
      exact h.dirs slot hs q hq
  tmp := by
    rw [hp, if_neg not_snoc_prefix,
      if_neg (by simp only [List.append_cancel_left_eq]; decide),
      if_neg (by simp only [List.append_cancel_left_eq]; decide), if_pos rfl]
    simp
  place a ha := by
    have hpart : dir ++ a.rel = dir ++ [PART] ↔ a = .part none :=
      ⟨fun h0 => Place.rel_inj ha (b := .part none) properVersion_none
        (List.append_cancel_left h0), fun h0 => by rw [h0]; rfl⟩
    have hxl : dir ++ a.rel = dir ++ [XL_META] ↔ a = .xl none :=
      ⟨fun h0 => Place.rel_inj ha (b := .xl none) properVersion_none
        (List.append_cancel_left h0), fun h0 => by rw [h0]; rfl⟩
    rw [hp, if_neg (home_not_within ha), KeyState.shelf_setSlot,
      if_neg (c := dir ++ a.rel = dir ++ [PART_TMP])
        fun h0 => a.rel_ne_tmp ha (List.append_cancel_left h0), h.place a ha]
    simp only [hpart, hxl, Function.update_apply]
    by_cases h1 : a = .part none
    · subst h1
      simp
    · simp [h1]

theorem wiped {dir : List Str} {F : Shelf} {t' : Tree Doc} (h : Shows dir F t)
    (hw : Wiped t t' dir) : Shows dir (KeyState.bare.shelf S d) t' where
  dirs slot hs q hq := by
    by_cases hdq : dir <+: q
    · rw [file?, hw, if_pos hdq]
    · by_cases hqd : q <+: dir
      · rw [file?, hw, if_neg hdq, if_pos hqd]
      · rw [file?_congr ((hw q).trans ((if_neg hdq).trans (if_neg hqd)))]
        exact h.dirs slot hs q hq
  tmp := by rw [hw, if_pos (List.prefix_append _ _)]; simp
  place a ha := by
    rw [hw, if_pos (List.prefix_append _ _), KeyState.shelf_bare]
    rfl

end Shows

end Kerplace
