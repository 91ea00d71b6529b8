/-
# `Kerplace.Storage.Files` — operations on files with no directory in the way

What an operation on a file answers and does is decided by the files alone, as long as the
way is free: no file stands above a directory that is to be made, and the directory a file is
put into is there.  Two programs that take turns on one tree, each with files of its own, then
come to the same results, and to the same files, as each of them alone.
-/
import Kerplace.Storage.Region
import Kerplace.Lib.Race
import Kerplace.Lib.Leaves

namespace Kerplace

open FileTree Prog

variable {J : Type}

/-- The files of a drive, without its directories. -/
abbrev FileMap (J : Type) := List Str → Option (Content J)

/-- What an operation answers and does when nothing is in its way; `home` is a directory that
is there. -/
def fileStep (root : List Str) (home : UnixPath) : (o : DriveOp J) → FileMap J →
    o.Ans × FileMap J
  | .read p, f => (f (p.resolve root), f)
  | .write p c, f => (true, Function.update f (p.resolve root) (some c))
  | .create p, f => (true, Function.update f (p.resolve root) (some (.raw [])))
  | .append p data, f =>
      match (f (p.resolve root)).bind Content.bytes? with
      | some b => (true, Function.update f (p.resolve root) (some (.raw (b ++ data))))
      | none => (false, f)
  | .shutdown _, f => (true, f)
  | .rename src dst, f =>
      match f (src.resolve root) with
      | some c => (true, Function.update (Function.update f (src.resolve root) none)
          (dst.resolve root) (some c))
      | none => (false, f)
  | .removeFile p, f =>
      ((f (p.resolve root)).isSome, Function.update f (p.resolve root) none)
  | .createDirAll _, f => (true, f)
  | .stat p, f =>
      (if p = home then some ⟨true⟩ else (f (p.resolve root)).map fun _ => ⟨false⟩, f)
  | o, f => (o.failed, f)

/-- Nothing is in the way of an operation. -/
def DriveOp.Free (root : List Str) (home : UnixPath) (t : Tree J) : DriveOp J → Prop
  | .write p _ => t.isDir (p.resolve root).dropLast = true ∧ t.isDir (p.resolve root) = false ∧
      p.resolve root ≠ []
  | .create p => t.isDir (p.resolve root).dropLast = true ∧ t.isDir (p.resolve root) = false ∧
      p.resolve root ≠ []
  | .rename src dst => t.isDir (src.resolve root) = false ∧
      t.isDir (dst.resolve root).dropLast = true ∧ t.isDir (dst.resolve root) = false ∧
      dst.resolve root ≠ []
  | .createDirAll p => ∀ q, q <+: p.resolve root → t.file? q = none
  | .stat p => t.isDir (p.resolve root) = decide (p = home)
  | _ => True

instance (root : List Str) (home : UnixPath) (t : Tree J) :
    (o : DriveOp J) → Decidable (o.Free root home t)
  | .write _ _ => inferInstanceAs (Decidable (_ ∧ _ ∧ _))
  | .create _ => inferInstanceAs (Decidable (_ ∧ _ ∧ _))
  | .rename _ _ => inferInstanceAs (Decidable (_ ∧ _ ∧ _ ∧ _))
  | .createDirAll p =>
      decidable_of_iff (∀ q ∈ (p.resolve root).inits, (t.file? q).isNone = true)
        (by simp [DriveOp.Free, List.mem_inits])
  | .stat _ => inferInstanceAs (Decidable (_ = _))
  | .online => inferInstanceAs (Decidable True)
  | .read _ => inferInstanceAs (Decidable True)
  | .readAt _ _ _ => inferInstanceAs (Decidable True)
  | .append _ _ => inferInstanceAs (Decidable True)
  | .shutdown _ => inferInstanceAs (Decidable True)
  | .removeFile _ => inferInstanceAs (Decidable True)
  | .removeDir _ => inferInstanceAs (Decidable True)
  | .removeDirAll _ => inferInstanceAs (Decidable True)
  | .readDir _ => inferInstanceAs (Decidable True)
  | .walk _ => inferInstanceAs (Decidable True)

/-- What an operation looks at: files of `F`, and whether `home` is there. -/
def DriveOp.Looks (home : UnixPath) (F : UnixPath → Prop) : DriveOp J → Prop
  | .read p => F p
  | .stat p => F p ∨ p = home
  | .readAt _ _ _ => False
  | .readDir _ => False
  | .walk _ => False
  | .online => False
  | .removeDir _ => False
  | .removeDirAll _ => False
  | _ => True

/-- The contract of programs that look at the files of `F` and change those of `W` alone. -/
def ownContract (home : UnixPath) (W F : UnixPath → Prop) (D : J → Prop) :
    Contract (DriveOp J) DriveOp.Ans where
  may o := o.Writes W D ∧ o.Looks home F
  gives := DriveOp.Holds D

namespace LocalDrive

variable {root : List Str} {home : UnixPath} {W F : UnixPath → Prop} {D : J → Prop}
  {o : DriveOp J} {t : Tree J} {f g : FileMap J}

theorem file?_write_eq {p : List Str} {c : Content J} {t' : Tree J}
    (h : t.write p c = some t') : t'.file? = Function.update t.file? p (some c) := by
  funext q
  rw [file?_write h]
  by_cases hq : q = p
  · rw [if_pos hq, hq, Function.update_self]
  · rw [if_neg hq, Function.update_of_ne hq]

theorem write_free {p : List Str} (c : Content J) (hdir : t.isDir p.dropLast = true)
    (hp : t.isDir p = false) (hne : p ≠ []) : ∃ t', t.write p c = some t' := by
  obtain ⟨q, x, rfl⟩ : ∃ q x, p = q ++ [x] :=
    ⟨p.dropLast, p.getLast hne, (List.dropLast_append_getLast hne).symm⟩
  rw [List.dropLast_concat] at hdir
  exact Option.isSome_iff_exists.1
    (write_isSome.2 ⟨isDir_iff.1 hdir, isDir_eq_false.1 hp⟩)

theorem look_of_not_dir {p : List Str} (h : t.isDir p = false) :
    t.look p = (t.file? p).map Node.file := by
  have hdir := isDir_eq_false.1 h
  unfold file?
  cases hlook : t.look p with
  | none => rfl
  | some n =>
      cases n with
      | dir => exact absurd hlook hdir
      | file c => rfl

theorem file?_removeFile_eq {p : List Str} {t' : Tree J} (h : t.removeFile p = some t') :
    t'.file? = Function.update t.file? p none := by
  funext q
  rw [file?_removeFile h]
  by_cases hq : q = p
  · rw [if_pos hq, hq, Function.update_self]
  · rw [if_neg hq, Function.update_of_ne hq]

/-- A file moves to a place in a directory, also if it is there already. -/
theorem file?_rename_eq {src q : List Str} {x : Str} {c : Content J}
    (hsrc : t.file? src = some c) (hdir : t.isDir q = true)
    (hdst : t.isDir (q ++ [x]) = false) :
    ∃ t', t.rename src (q ++ [x]) = some t' ∧
      t'.file? = Function.update (Function.update t.file? src none) (q ++ [x]) (some c) := by
  have hisDir := isDir_iff.1 hdir
  have hnotDir := isDir_eq_false.1 hdst
  by_cases heq : src = q ++ [x]
  · subst heq
    obtain ⟨t', h⟩ := Option.isSome_iff_exists.1 (rename_file_isSome hsrc hisDir hnotDir)
    refine ⟨t', h, ?_⟩
    rw [rename_self h, Function.update_idem, ← hsrc, Function.update_eq_self]
  · obtain ⟨t', h, hlook⟩ := rename_file hsrc hisDir hnotDir heq
    refine ⟨t', h, funext fun r => ?_⟩
    unfold file?
    rw [hlook r]
    by_cases hr : r = q ++ [x]
    · rw [if_pos hr, hr, Function.update_self]
    · rw [if_neg hr, Function.update_of_ne hr]
      by_cases hs : r = src
      · rw [if_pos hs, hs, Function.update_self]
      · rw [if_neg hs, Function.update_of_ne hs]

theorem update_append (p : List Str) (data : Bytes) :
    t.update p (fun c => c.bytes?.map fun b => Content.raw (b ++ data)) =
      ((t.file? p).bind Content.bytes?).bind fun b => t.write p (.raw (b ++ data)) := by
  unfold FileTree.update
  cases t.file? p with
  | none => rfl
  | some c =>
      cases c with
      | raw b => rfl
      | doc j => rfl

/-- With nothing in its way an operation does what it does to the files. -/
theorem step_free (hfree : o.Free root home t) (hlook : o.Looks home F) :
    (step root o t).1 = (fileStep root home o t.file?).1 ∧
      (step root o t).2.file? = (fileStep root home o t.file?).2 := by
  cases o with
  | read p => exact ⟨rfl, rfl⟩
  | shutdown p => exact ⟨rfl, rfl⟩
  | stat p =>
      refine ⟨?_, rfl⟩
      show (t.look (p.resolve root)).map DriveStat.of = if p = home then _ else _
      have hdir : t.isDir (p.resolve root) = decide (p = home) := hfree
      by_cases hp : p = home
      · rw [decide_eq_true hp] at hdir
        rw [if_pos hp, isDir_iff.1 hdir]
        rfl
      · rw [decide_eq_false hp] at hdir
        rw [if_neg hp, look_of_not_dir hdir, Option.map_map]
        rfl
  | write p c =>
      obtain ⟨t', h⟩ := write_free c hfree.1 hfree.2.1 hfree.2.2
      show (attempt t (t.write _ c)).1 = true ∧ (attempt t (t.write _ c)).2.file? = _
      rw [attempt_some h]
      exact ⟨rfl, file?_write_eq h⟩
  | create p =>
      obtain ⟨t', h⟩ := write_free (.raw []) hfree.1 hfree.2.1 hfree.2.2
      show (attempt t (t.write _ (.raw []))).1 = true ∧
        (attempt t (t.write _ (.raw []))).2.file? = _
      rw [attempt_some h]
      exact ⟨rfl, file?_write_eq h⟩
  | append p data =>
      simp only [step, fileStep, update_append]
      cases hb : (t.file? (p.resolve root)).bind Content.bytes? with
      | none => exact ⟨rfl, rfl⟩
      | some b =>
          obtain ⟨c, hc, -⟩ := Option.bind_eq_some_iff.1 hb
          obtain ⟨t', h⟩ := write_of_file? (.raw (b ++ data)) hc
          simp only [Option.bind_some, attempt_some h]
          exact ⟨trivial, file?_write_eq h⟩
  | rename src dst =>
      obtain ⟨hsrc, hdir, hdst, hne⟩ := hfree
      simp only [step, fileStep]
      cases hc : t.file? (src.resolve root) with
      | none =>
          have hnone : t.rename (src.resolve root) (dst.resolve root) = none := by
            by_contra hsome
            obtain ⟨t', h⟩ := Option.ne_none_iff_exists'.1 hsome
            exact rename_src h (by rw [look_of_not_dir hsrc, hc]; rfl)
          rw [attempt_none hnone]
          exact ⟨rfl, rfl⟩
      | some c =>
          obtain ⟨q, x, hq⟩ : ∃ q x, dst.resolve root = q ++ [x] :=
            ⟨_, _, (List.dropLast_append_getLast hne).symm⟩
          rw [hq, List.dropLast_concat] at hdir
          rw [hq] at hdst ⊢
          obtain ⟨t', h, hfiles⟩ := file?_rename_eq hc hdir hdst
          rw [attempt_some h]
          exact ⟨rfl, hfiles⟩
  | removeFile p =>
      simp only [step, fileStep]
      cases hc : t.file? (p.resolve root) with
      | none =>
          have hnone : t.removeFile (p.resolve root) = none := by
            rw [FileTree.removeFile, hc]
            rfl
          rw [attempt_none hnone]
          refine ⟨rfl, ?_⟩
          rw [← hc, Function.update_eq_self]
      | some c =>
          have hsome : (t.removeFile (p.resolve root)).isSome = true := by
            rw [FileTree.removeFile, hc]
            rfl
          obtain ⟨t', h⟩ := Option.isSome_iff_exists.1 hsome
          rw [attempt_some h]
          exact ⟨rfl, file?_removeFile_eq h⟩
  | createDirAll p =>
      obtain ⟨t', h⟩ := Option.isSome_iff_exists.1 (createDirAll_isSome.2 hfree)
      show (attempt t (t.createDirAll _)).1 = true ∧ (attempt t (t.createDirAll _)).2.file? = _
      rw [attempt_some h]
      exact ⟨rfl, funext (file?_createDirAll h)⟩
  | online => exact hlook.elim
  | readAt p off len => exact hlook.elim
  | readDir p => exact hlook.elim
  | walk p => exact hlook.elim
  | removeDir p => exact hlook.elim
  | removeDirAll p => exact hlook.elim

end LocalDrive

/-- Two drives have the same files at these paths. -/
def AgreeOn (root : List Str) (M : UnixPath → Prop) (f g : FileMap J) : Prop :=
  ∀ p, M p → f (p.resolve root) = g (p.resolve root)

/-- The paths a program looks at or changes. -/
def Meant (W F : UnixPath → Prop) (p : UnixPath) : Prop := W p ∨ F p

theorem AgreeOn.update {root : List Str} {M : UnixPath → Prop} {f g : FileMap J}
    (h : AgreeOn root M f g) (q : List Str) (v : Option (Content J)) :
    AgreeOn root M (Function.update f q v) (Function.update g q v) := by
  intro p hp
  by_cases hq : p.resolve root = q
  · rw [hq, Function.update_self, Function.update_self]
  · rw [Function.update_of_ne hq, Function.update_of_ne hq, h p hp]

section

variable {root : List Str} {home : UnixPath} {W F : UnixPath → Prop} {D : J → Prop}
  {o : DriveOp J} {f g : FileMap J}

/-- Files elsewhere make no difference. -/
theorem fileStep_congr (hmay : (ownContract home W F D).may o)
    (h : AgreeOn root (Meant W F) f g) :
    (fileStep root home o f).1 = (fileStep root home o g).1 ∧
      AgreeOn root (Meant W F) (fileStep root home o f).2 (fileStep root home o g).2 := by
  obtain ⟨hw, hl⟩ := hmay
  cases o with
  | read p => exact ⟨h p (.inr hl), h⟩
  | shutdown p => exact ⟨rfl, h⟩
  | stat p =>
      refine ⟨?_, h⟩
      simp only [fileStep]
      split
      · rfl
      · rename_i hp
        rw [h p (.inr (hl.resolve_right hp))]
  | write p c => exact ⟨rfl, h.update _ _⟩
  | create p => exact ⟨rfl, h.update _ _⟩
  | append p data =>
      simp only [fileStep]
      rw [h p (.inl hw)]
      split
      · exact ⟨rfl, h.update _ _⟩
      · exact ⟨rfl, h⟩
  | rename src dst =>
      simp only [fileStep]
      rw [h src (.inl hw.1)]
      split
      · exact ⟨rfl, (h.update _ _).update _ _⟩
      · exact ⟨rfl, h⟩
  | removeFile p =>
      simp only [fileStep]
      rw [h p (.inl hw)]
      exact ⟨rfl, h.update _ _⟩
  | createDirAll p => exact ⟨rfl, h⟩
  | online => exact hl.elim
  | readAt p off len => exact hl.elim
  | readDir p => exact hl.elim
  | walk p => exact hl.elim
  | removeDir p => exact hl.elim
  | removeDirAll p => exact hl.elim

end

/-! ## Programs that prune -/

section

variable {Op : Type} {Ans : Op → Type} {α β σ : Type}

/-- A program keeps to a contract, but for loose calls, whose answers make no difference to
what it comes to. -/
def Settles (C : Contract Op Ans) (loose : Op → Prop) (h : (o : Op) → σ → Ans o × σ) :
    Prog Op Ans α → Prop
  | .ret _ => True
  | .call o k => (C.may o ∨ loose o) ∧ (∀ a, C.gives o a → Settles C loose h (k a)) ∧
      (loose o → ∀ a b s, exec h (k a) s = exec h (k b) s)

variable {C : Contract Op Ans} {loose : Op → Prop} {h : (o : Op) → σ → Ans o × σ}

theorem Prog.Meets.settles (hC : ∀ o, C.may o → ¬ loose o) {p : Prog Op Ans α} {Q : α → Prop}
    (hp : Meets C p Q) {f : α → Prog Op Ans β} (hf : ∀ a, Q a → Settles C loose h (f a)) :
    Settles C loose h (p >>= f) := by
  induction p with
  | ret a => exact hf a hp
  | call o k ih =>
      exact ⟨.inl hp.1, fun a ha => ih a (hp.2 a ha), fun hl => absurd hl (hC o hp.1)⟩

theorem Prog.MeetsE.settles {ε : Type} (hC : ∀ o, C.may o → ¬ loose o)
    {p : ExceptT ε (Prog Op Ans) α} {Q : α → Prop} (hp : MeetsE C p Q)
    {f : α → ExceptT ε (Prog Op Ans) β} (hf : ∀ a, Q a → Settles C loose h (f a).run) :
    Settles C loose h (p >>= f).run := by
  refine Meets.settles (f := ExceptT.bindCont f) hC hp fun r hr => ?_
  cases r with
  | ok a => exact hf a (hr a rfl)
  | error e => trivial

end

/-- Removing a directory, which answers whether it was empty. -/
def DriveOp.IsPrune : DriveOp J → Prop
  | .removeDir _ => True
  | _ => False

section

variable {root : List Str} {home : UnixPath} {W F : UnixPath → Prop} {D : J → Prop}
  {α β : Type}

theorem own_not_prune (o : DriveOp J) (h : (ownContract home W F D).may o) : ¬ o.IsPrune := by
  cases o with
  | removeDir p => exact fun _ => h.2
  | _ => exact id

theorem exec_pruneEmpty (stop : UnixPath) (rounds : Nat) : ∀ (rel : UnixPath) (f : FileMap J),
    exec (fileStep root home) (Drive.pruneEmpty stop rounds rel) f = ((), f) := by
  induction rounds with
  | zero => exact fun _ _ => rfl
  | succ rounds ih =>
      intro rel f
      rw [Drive.pruneEmpty]
      split
      · rfl
      · rfl

theorem pruneEmpty_succ (stop : UnixPath) (rounds : Nat) (rel : UnixPath) :
    (Drive.pruneEmpty stop (rounds + 1) rel : DriveProg J Unit) =
      if rel ≠ stop && rel.startsWith stop then
        Drive.removeDir rel >>= fun ok =>
          if ok then rel.parent.elim (pure ()) (Drive.pruneEmpty stop rounds) else pure ()
      else pure () := by
  rw [Drive.pruneEmpty]
  cases rel.parent <;> rfl

/-- A program that prunes before it settles. -/
theorem settles_prune {q : Unit → Prog (DriveOp J) DriveOp.Ans β}
    (hq : Settles (ownContract home W F D) DriveOp.IsPrune (fileStep root home) (q ()))
    (stop : UnixPath) (rounds : Nat) : ∀ rel : UnixPath,
    Settles (ownContract home W F D) DriveOp.IsPrune (fileStep root home)
      (Drive.pruneEmpty stop rounds rel >>= q) := by
  induction rounds with
  | zero => exact fun _ => hq
  | succ rounds ih =>
      intro rel
      have hrest : ∀ ok : Bool,
          Settles (ownContract home W F D) DriveOp.IsPrune (fileStep root home)
            ((if ok then rel.parent.elim (pure ()) (Drive.pruneEmpty stop rounds)
              else pure ()) >>= q) := by
        intro ok
        split
        · cases rel.parent with
          | none => exact hq
          | some p => exact ih p
        · exact hq
      have hexec : ∀ (ok : Bool) (f : FileMap J), exec (fileStep root home)
          ((if ok then rel.parent.elim (pure ()) (Drive.pruneEmpty stop rounds)
            else pure ()) >>= q) f = exec (fileStep root home) (q ()) f := by
        intro ok f
        rw [exec_bind]
        split
        · cases rel.parent with
          | none => rfl
          | some p =>
              rw [show (some p).elim (pure ()) (Drive.pruneEmpty stop rounds) =
                Drive.pruneEmpty (J := J) stop rounds p from rfl, exec_pruneEmpty]
        · rfl
      rw [pruneEmpty_succ]
      split
      · exact ⟨.inr trivial, fun ok _ => hrest ok, fun _ a b f => (hexec a f).trans
          (hexec b f).symm⟩
      · exact hq

end

/-! ## A program beside another -/

section

variable {root : List Str} {home : UnixPath} {W F W' F' : UnixPath → Prop} {D : J → Prop}
  {α β : Type} {t t' : Tree J}

/-- Nothing is in the way of a program's next operation. -/
def FreeTurn (root : List Str) (home : UnixPath) (p : Prog (DriveOp J) DriveOp.Ans α)
    (t : Tree J) : Prop :=
  match p with
  | .ret _ => True
  | .call o _ => o.Free root home t

instance (root : List Str) (home : UnixPath) (t : Tree J) :
    (p : Prog (DriveOp J) DriveOp.Ans α) → Decidable (FreeTurn root home p t)
  | .ret _ => inferInstanceAs (Decidable True)
  | .call o _ => inferInstanceAs (Decidable (o.Free root home t))

/-- Nothing is in the way of a program that runs alone. -/
def Unhindered (root : List Str) (home : UnixPath) :
    Prog (DriveOp J) DriveOp.Ans α → Tree J → Prop
  | .ret _, _ => True
  | .call o k, t => o.Free root home t ∧
      Unhindered root home (k (LocalDrive.step root o t).1) (LocalDrive.step root o t).2

instance decidableUnhindered (root : List Str) (home : UnixPath) :
    (p : Prog (DriveOp J) DriveOp.Ans α) → (t : Tree J) → Decidable (Unhindered root home p t)
  | .ret _, _ => inferInstanceAs (Decidable True)
  | .call o k, t =>
      have := decidableUnhindered root home (k (LocalDrive.step root o t).1)
        (LocalDrive.step root o t).2
      inferInstanceAs (Decidable (o.Free root home t ∧ Unhindered root home _ _))

/-- What is left of a program comes, from the files it is concerned with as they are, to the
result `r`. -/
structure OnCourse (root : List Str) (home : UnixPath) (W F : UnixPath → Prop) (D : J → Prop)
    (p : Prog (DriveOp J) DriveOp.Ans α) (t : Tree J) (r : α × FileMap J) : Prop where
  settles : Settles (ownContract home W F D) DriveOp.IsPrune (fileStep root home) p
  course : ∃ f, exec (fileStep root home) p f = r ∧ AgreeOn root (Meant W F) t.file? f

theorem writes_of_settles {o : DriveOp J} {k : o.Ans → Prog (DriveOp J) DriveOp.Ans α}
    (h : Settles (ownContract home W F D) DriveOp.IsPrune (fileStep root home) (.call o k)) :
    o.Writes W D := by
  rcases h.1 with hmay | hloose
  · exact hmay.1
  · cases o with
    | removeDir p => trivial
    | _ => exact hloose.elim

variable {p : Prog (DriveOp J) DriveOp.Ans α} {r : α × FileMap J}

theorem OnCourse.start
    (h : Settles (ownContract home W F D) DriveOp.IsPrune (fileStep root home) p) (t : Tree J) :
    OnCourse root home W F D p t (exec (fileStep root home) p t.file?) :=
  ⟨h, _, rfl, fun _ _ => rfl⟩

/-- Its own turns keep it on its course. -/
theorem OnCourse.turn (h : OnCourse root home W F D p t r) (hdocs : DocsIn D t)
    (hfree : FreeTurn root home p t) :
    OnCourse root home W F D (tick (LocalDrive.step root) p t).1
      (tick (LocalDrive.step root) p t).2 r := by
  obtain ⟨hset, f, hexec, hagree⟩ := h
  cases p with
  | ret a => exact ⟨hset, f, hexec, hagree⟩
  | call o k =>
      have hans : o.Holds D (LocalDrive.step root o t).1 :=
        (LocalDrive.step_writes_docs (writes_of_settles hset) hdocs).1
      refine ⟨hset.2.1 _ hans, ?_⟩
      show ∃ f, exec (fileStep root home) (k (LocalDrive.step root o t).1) f = r ∧
        AgreeOn root (Meant W F) (LocalDrive.step root o t).2.file? f
      rcases hset.1 with hmay | hloose
      · obtain ⟨hstep, hfiles⟩ := LocalDrive.step_free hfree hmay.2
        obtain ⟨hsame, hnext⟩ := fileStep_congr hmay hagree
        rw [hstep, hfiles, hsame]
        exact ⟨_, hexec, hnext⟩
      · refine ⟨f, ?_, ?_⟩
        · cases o with
          | removeDir p =>
              rw [← hexec]
              exact hset.2.2 trivial _ _ f
          | _ => exact hloose.elim
        · cases o with
          | removeDir p =>
              refine fun q hq => Eq.trans ?_ (hagree q hq)
              exact LocalDrive.attempt_snd (P := fun u => u.file? (q.resolve root) =
                t.file? (q.resolve root)) rfl fun t' h => file?_removeDir h _
          | _ => exact hloose.elim

theorem OnCourse.other (h : OnCourse root home W F D p t r)
    (hsame : ∀ q, Meant W F q → t'.file? (q.resolve root) = t.file? (q.resolve root)) :
    OnCourse root home W F D p t' r := by
  obtain ⟨hset, f, hexec, hagree⟩ := h
  exact ⟨hset, f, hexec, fun q hq => (hsame q hq).trans (hagree q hq)⟩

theorem OnCourse.alone (h : OnCourse root home W F D p t r) (hdocs : DocsIn D t)
    (hfree : Unhindered root home p t) :
    (exec (LocalDrive.step root) p t).1 = r.1 ∧
      AgreeOn root (Meant W F) (exec (LocalDrive.step root) p t).2.file? r.2 := by
  induction p generalizing t with
  | ret a =>
      obtain ⟨-, f, rfl, hagree⟩ := h
      exact ⟨rfl, hagree⟩
  | call o k ih =>
      exact ih _ (h.turn hdocs hfree.1)
        (LocalDrive.step_writes_docs (writes_of_settles h.settles) hdocs).2 hfree.2

/-- The paths of a program are none that another changes, nor below one. -/
def OutOfWay (root : List Str) (W W' F' : UnixPath → Prop) : Prop :=
  ∀ q, Meant W' F' q → ∀ p, W p → ¬ p.resolve root <+: q.resolve root

theorem tick_files
    (h : Settles (ownContract home W F D) DriveOp.IsPrune (fileStep root home) p)
    (hout : OutOfWay root W W' F') (q : UnixPath) (hq : Meant W' F' q) (t : Tree J) :
    (tick (LocalDrive.step root) p t).2.file? (q.resolve root) = t.file? (q.resolve root) := by
  cases p with
  | ret a => rfl
  | call o k => exact LocalDrive.step_writes (writes_of_settles h) (hout q hq) t

theorem tick_docs
    (h : Settles (ownContract home W F D) DriveOp.IsPrune (fileStep root home) p)
    (hdocs : DocsIn D t) : DocsIn D (tick (LocalDrive.step root) p t).2 := by
  cases p with
  | ret a => exact hdocs
  | call o k => exact (LocalDrive.step_writes_docs (writes_of_settles h) hdocs).2

/-- Nothing is in the way of the operation whose turn it is. -/
def TurnFree (root : List Str) (home : UnixPath)
    (v : Visit (Race (DriveOp J) DriveOp.Ans α β (Tree J)) Bool Unit) : Prop :=
  (v.call = true → FreeTurn root home v.before.left v.before.state) ∧
  (v.call = false → FreeTurn root home v.before.right v.before.state)

instance (root : List Str) (home : UnixPath)
    (v : Visit (Race (DriveOp J) DriveOp.Ans α β (Tree J)) Bool Unit) :
    Decidable (TurnFree root home v) := inferInstanceAs (Decidable ((_ → _) ∧ (_ → _)))

/-- Two programs with files of their own, in turns nothing is in the way of, come to the
results each comes to alone, and leave the files of each as it does. -/
theorem race_independent {p : Prog (DriveOp J) DriveOp.Ans α}
    {q : Prog (DriveOp J) DriveOp.Ans β} {turns : List Bool} (hdocs : DocsIn D t)
    (hp : Settles (ownContract home W F D) DriveOp.IsPrune (fileStep root home) p)
    (hq : Settles (ownContract home W' F' D) DriveOp.IsPrune (fileStep root home) q)
    (hout : OutOfWay root W W' F') (hout' : OutOfWay root W' W F)
    (hpalone : Unhindered root home p t) (hqalone : Unhindered root home q t)
    (hfree : ∀ v ∈ (raceMachine (LocalDrive.step root)).visits ⟨p, q, t⟩ turns,
      TurnFree root home v) {a : α} {b : β}
    (hover : ((raceMachine (LocalDrive.step root)).final ⟨p, q, t⟩ turns).Over a b) :
    a = (exec (LocalDrive.step root) p t).1 ∧ b = (exec (LocalDrive.step root) q t).1 ∧
      AgreeOn root (Meant W F)
        ((raceMachine (LocalDrive.step root)).final ⟨p, q, t⟩ turns).state.file?
        (exec (LocalDrive.step root) p t).2.file? ∧
      AgreeOn root (Meant W' F')
        ((raceMachine (LocalDrive.step root)).final ⟨p, q, t⟩ turns).state.file?
        (exec (LocalDrive.step root) q t).2.file? := by
  have hinv : ∀ (vs : List (Visit (Race (DriveOp J) DriveOp.Ans α β (Tree J)) Bool Unit))
      (x : Race (DriveOp J) DriveOp.Ans α β (Tree J)) (turn : Bool),
      (DocsIn D x.state ∧
        OnCourse root home W F D x.left x.state (exec (fileStep root home) p t.file?) ∧
        OnCourse root home W' F' D x.right x.state (exec (fileStep root home) q t.file?)) →
      TurnFree root home ((raceMachine (LocalDrive.step root)).visit x turn) →
      DocsIn D ((raceMachine (LocalDrive.step root)).step x turn).2.state ∧
        OnCourse root home W F D ((raceMachine (LocalDrive.step root)).step x turn).2.left
          ((raceMachine (LocalDrive.step root)).step x turn).2.state
          (exec (fileStep root home) p t.file?) ∧
        OnCourse root home W' F' D ((raceMachine (LocalDrive.step root)).step x turn).2.right
          ((raceMachine (LocalDrive.step root)).step x turn).2.state
          (exec (fileStep root home) q t.file?) := by
    rintro vs x turn ⟨hd, hl, hr⟩ hturn
    cases turn with
    | true =>
        exact ⟨tick_docs hl.settles hd, hl.turn hd (hturn.1 rfl),
          hr.other fun r hmeant => tick_files hl.settles hout r hmeant x.state⟩
    | false =>
        exact ⟨tick_docs hr.settles hd,
          hl.other fun r hmeant => tick_files hr.settles hout' r hmeant x.state,
          hr.turn hd (hturn.2 rfl)⟩
  obtain ⟨-, hl, hr⟩ := Machine.invariant (P := fun _ x => DocsIn D x.state ∧
    OnCourse root home W F D x.left x.state (exec (fileStep root home) p t.file?) ∧
    OnCourse root home W' F' D x.right x.state (exec (fileStep root home) q t.file?))
    ⟨hdocs, .start hp t, .start hq t⟩ hinv turns hfree
  obtain ⟨hpres, hpfiles⟩ := (OnCourse.start hp t).alone hdocs hpalone
  obtain ⟨hqres, hqfiles⟩ := (OnCourse.start hq t).alone hdocs hqalone
  have hleft := returned_eq_some.1 hover.1
  have hright := returned_eq_some.1 hover.2
  rw [hleft] at hl
  rw [hright] at hr
  obtain ⟨-, f, hf, hlagree⟩ := hl
  obtain ⟨-, g, hg, hragree⟩ := hr
  rw [hpres, hqres, ← hf, ← hg]
  rw [← hf] at hpfiles
  rw [← hg] at hqfiles
  exact ⟨rfl, rfl, fun r hmeant => (hlagree r hmeant).trans (hpfiles r hmeant).symm,
    fun r hmeant => (hragree r hmeant).trans (hqfiles r hmeant).symm⟩

end

end Kerplace
