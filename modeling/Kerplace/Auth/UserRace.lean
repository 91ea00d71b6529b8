/-
# `Kerplace.Auth.UserRace` — changing calls at once, and the users file

Any number of calls take turns, one step at a time.  A call writes the file as `fs::write` does,
under no lock: it opens it, which empties it, and then writes its text piece by piece from where it
is itself.  So two calls that have it open at once leave a mixture, and a call that opens it after
another has written a newer snapshot leaves an older one.

The snapshots are numbered as they are taken.  The invariant: a snapshot newer than the last change
of the map is the map, and so is the file once such a snapshot is the newest written and nobody has
the file open; and the call that made the last change takes such a snapshot after it.
-/
import Kerplace.Auth.UserRuns
import Kerplace.Lib.Race

namespace Kerplace

/-! ## The steps -/

/-- A piece of a file written at an offset; what lies between its end and there is zeros. -/
def writeAt (pos : Nat) (piece : Bytes) (file : Bytes) : Bytes :=
  file.take pos ++ List.replicate (pos - file.length) 0 ++ piece ++ file.drop (pos + piece.length)

/-- What becomes of the file operation of a step: `written` is how much of a piece is written,
nothing where the write fails. -/
structure PenIo where
  dir : Bool
  opens : Bool
  written : Nat

/-- The map in memory, the bytes of the file, and how much a call that has it open has written. -/
structure PenView where
  users : Users
  file : Option Bytes
  pen : Option Nat

/-- One step of a call; `encode` is `serde_json::to_vec_pretty`. -/
def penStep (encode : Users → Bytes) (io : PenIo) :
    Prog IamOp IamOp.Ans (Except S3Error Unit) → PenView →
      Prog IamOp IamOp.Ans (Except S3Error Unit) × PenView
  | .ret r, s => (.ret r, s)
  | .call (.update f) k, s =>
      match f s.users with
      | .ok users => (k (.ok ()), { s with users })
      | .error e => (k (.error e), s)
  | .call .snapshot k, s => (k s.users, s)
  | .call .createDirAll k, s => (k io.dir, s)
  | .call (.write doc) k, s =>
      match s.pen with
      | none =>
          if io.opens then (.call (.write doc) k, { s with file := some [], pen := some 0 })
          else (k false, s)
      | some pos =>
          let rest := (encode doc).drop pos
          if rest = [] then (k true, { s with pen := none })
          else
            let piece := rest.take io.written
            if piece = [] then (k false, { s with pen := none })
            else (.call (.write doc) k,
              { s with file := s.file.map (writeAt pos piece), pen := some (pos + piece.length) })

/-- Calls on their way.  Of the snapshots it is noted how many were taken, the number of
the one each call took, and the number of the newest one written. -/
structure IamRun (ι : Type) where
  prog : ι → Prog IamOp IamOp.Ans (Except S3Error Unit)
  users : Users
  file : Option Bytes
  pen : ι → Option Nat
  taken : Nat
  stamp : ι → Nat
  filed : Nat

/-- Whose turn it is, and what becomes of a file operation. -/
structure IamTurn (ι : Type) where
  who : ι
  io : PenIo

/-- The calls before their first step. -/
def IamRun.start {ι : Type} (S : IamStore) (calls : ι → IamCall) (users : Users)
    (file : Option Bytes) : IamRun ι :=
  ⟨fun i => ((calls i).run S).run, users, file, fun _ => none, 0, fun _ => 0, 0⟩

/-- The next step is to take the snapshot. -/
def snapshots : Prog IamOp IamOp.Ans (Except S3Error Unit) → Bool
  | .call .snapshot _ => true
  | _ => false

/-- What the next step is to write, if that is what it is. -/
def writes : Prog IamOp IamOp.Ans (Except S3Error Unit) → Option Users
  | .call (.write doc) _ => some doc
  | _ => none

section

variable {ι : Type} [DecidableEq ι]

/-- What a call finds. -/
def IamRun.view (x : IamRun ι) (i : ι) : PenView := ⟨x.users, x.file, x.pen i⟩

/-- One step of one call. -/
def IamRun.turn (encode : Users → Bytes) (x : IamRun ι) (t : IamTurn ι) : IamRun ι :=
  let p := x.prog t.who
  let next := penStep encode t.io p (x.view t.who)
  let finishes := (writes p).any fun doc => decide ((x.pen t.who).map (encode doc).drop = some [])
  { prog := Function.update x.prog t.who next.1
    users := next.2.users
    file := next.2.file
    pen := Function.update x.pen t.who next.2.pen
    taken := if snapshots p then x.taken + 1 else x.taken
    stamp := if snapshots p then Function.update x.stamp t.who (x.taken + 1) else x.stamp
    filed := if finishes then max x.filed (x.stamp t.who) else x.filed }

/-- Every interleaving of the calls' steps is a run of this machine. -/
def iamTurns (encode : Users → Bytes) : Machine (IamRun ι) (IamTurn ι) Unit :=
  ⟨fun x t => ((), x.turn encode t)⟩

/-- When a call opens the file to write it, no call has it open, and no newer snapshot has been
written, unless it is the same. -/
def InOrder (encode : Users → Bytes) (v : Visit (IamRun ι) (IamTurn ι) Unit) : Prop :=
  ∀ doc, writes (v.before.prog v.call.who) = some doc → v.before.pen v.call.who = none →
    v.call.io.opens = true → (∀ i, v.before.pen i = none) ∧
      (v.before.filed ≤ v.before.stamp v.call.who ∨ v.before.file = some (encode doc))

end

/-! ## Where a call is -/

/-- `persist` once it holds the snapshot. -/
def persistHolding (doc : Users) : Iam Unit := do
  if !(← IamOp.ask .createDirAll) then throw (.internal "mkdir iam")
  if !(← IamOp.ask (.write doc)) then throw (.internal "write users")

/-- `persist` once the directory is there. -/
def persistReady (doc : Users) : Iam Unit := do
  if !(← IamOp.ask (.write doc)) then throw (.internal "write users")

/-- How far a call has come. -/
inductive Stage where
  | fresh (f : Users → Except S3Error Users)
  | changed
  | holding (doc : Users)
  | ready (doc : Users)
  | writing (doc : Users) (pos : Nat)
  | finished (r : Except S3Error Unit)

/-- What it has left to do. -/
def Stage.prog : Stage → Prog IamOp IamOp.Ans (Except S3Error Unit)
  | .fresh f => ExceptT.run (do IamOp.change f; IamStore.persist)
  | .changed => ExceptT.run IamStore.persist
  | .holding doc => ExceptT.run (persistHolding doc)
  | .ready doc => ExceptT.run (persistReady doc)
  | .writing doc _ => ExceptT.run (persistReady doc)
  | .finished r => .ret r

/-- How much of the file it has written, while it has it open. -/
def Stage.pen : Stage → Option Nat
  | .writing _ pos => some pos
  | _ => none

/-- The snapshot it holds. -/
def Stage.held : Stage → Option Users
  | .holding doc => some doc
  | .ready doc => some doc
  | .writing doc _ => some doc
  | _ => none

section

variable (encode : Users → Bytes)

/-- The next stage. -/
def Stage.next (io : PenIo) (users : Users) : Stage → Stage
  | .fresh f =>
      match f users with
      | .ok _ => .changed
      | .error e => .finished (.error e)
  | .changed => .holding users
  | .holding doc => if io.dir then .ready doc else .finished (.error (.internal "mkdir iam"))
  | .ready doc =>
      if io.opens then .writing doc 0 else .finished (.error (.internal "write users"))
  | .writing doc pos =>
      let rest := (encode doc).drop pos
      if rest = [] then .finished (.ok ())
      else if rest.take io.written = [] then .finished (.error (.internal "write users"))
      else .writing doc (pos + (rest.take io.written).length)
  | .finished r => .finished r

/-- The map and the file that a stage leaves. -/
def Stage.leaves (io : PenIo) (users : Users) (file : Option Bytes) :
    Stage → Users × Option Bytes
  | .fresh f =>
      match f users with
      | .ok users => (users, file)
      | .error _ => (users, file)
  | .ready _ => (users, if io.opens then some [] else file)
  | .writing doc pos =>
      let piece := ((encode doc).drop pos).take io.written
      (users, if piece = [] then file else file.map (writeAt pos piece))
  | _ => (users, file)

end

theorem writeAt_take {text : Bytes} {pos : Nat} (h : pos ≤ text.length) (n : Nat) :
    writeAt pos ((text.drop pos).take n) (text.take pos) =
      text.take (pos + ((text.drop pos).take n).length) := by
  have hlen : (text.take pos).length = pos := List.length_take_of_le h
  have hrest : (text.take pos).drop (pos + ((text.drop pos).take n).length) = [] :=
    List.drop_of_length_le (hlen.trans_le (Nat.le_add_right _ _))
  have hpiece : (text.drop pos).take n =
      (text.drop pos).take ((text.drop pos).take n).length :=
    List.prefix_iff_eq_take.1 (List.take_prefix _ _)
  rw [writeAt, hlen, Nat.sub_self, List.replicate_zero, List.append_nil, List.take_take,
    Nat.min_self, hrest, List.append_nil, List.take_add, ← hpiece]

theorem Stage.fresh_prog (f : Users → Except S3Error Users) :
    (Stage.fresh f).prog = .call (.update f) fun r =>
      match r with
      | .ok _ => Stage.changed.prog
      | .error e => (Stage.finished (.error e)).prog := by
  refine congrArg (Prog.call (IamOp.update f)) (funext fun r => ?_)
  cases r <;> rfl

theorem Stage.writing_prog (doc : Users) (pos : Nat) :
    (Stage.writing doc pos).prog = .call (.write doc) fun done =>
      (Stage.finished (if done then .ok () else .error (.internal "write users"))).prog := by
  refine congrArg (Prog.call (IamOp.write doc)) (funext fun done => ?_)
  cases done <;> rfl

/-- A step of a call. -/
theorem Stage.penStep_prog (encode : Users → Bytes) (g : Stage) (io : PenIo) (users : Users)
    (file : Option Bytes) : penStep encode io g.prog ⟨users, file, g.pen⟩ =
      ((g.next encode io users).prog, ⟨(g.leaves encode io users file).1,
        (g.leaves encode io users file).2, (g.next encode io users).pen⟩) := by
  cases g with
  | fresh f =>
      rw [Stage.fresh_prog, penStep, Stage.next, Stage.leaves]
      cases f users with
      | ok users => rfl
      | error e => rfl
  | changed => rfl
  | holding doc =>
      rw [Stage.next]
      rcases io with ⟨dir, opens, written⟩
      cases dir <;> rfl
  | ready doc =>
      rw [Stage.next, Stage.leaves]
      rcases io with ⟨dir, opens, written⟩
      cases opens <;> rfl
  | writing doc pos =>
      rw [Stage.writing_prog, penStep, Stage.next, Stage.leaves, Stage.pen]
      dsimp only
      split
      · rename_i hrest
        rw [hrest, List.take_nil, if_pos rfl]
        rfl
      · split
        · rfl
        · rw [Stage.writing_prog]
          rfl
  | finished r => rfl

theorem IamCall.run_stage (S : IamStore) (c : IamCall) :
    ∃ g : Stage, (c.run S).run = g.prog ∧
      ((∃ f, g = .fresh f) ∨ ∃ e, g = .finished (.error e)) := by
  rcases c.run_cases S with ⟨e, he⟩ | ⟨f, hf⟩
  · exact ⟨.finished (.error e), by rw [he]; rfl, .inr ⟨e, rfl⟩⟩
  · exact ⟨.fresh f, by rw [hf]; rfl, .inl ⟨f, rfl⟩⟩

/-! ## The invariant -/

section

variable {ι : Type} {encode : Users → Bytes}

/-- Some call has failed. -/
def IamRun.Failed (x : IamRun ι) : Prop := ∃ i e, x.prog i = .ret (.error e)

/-- The calls are at these stages, one at most has the file open, and snapshots numbered above
`since` were taken after the last change of the map. -/
structure IamRun.Tracks (encode : Users → Bytes) (x : IamRun ι) (stage : ι → Stage)
    (since : Nat) : Prop where
  prog : ∀ i, x.prog i = (stage i).prog
  pen : ∀ i, x.pen i = (stage i).pen
  taken : since ≤ x.taken
  stamps : ∀ i, x.stamp i ≤ x.taken
  filedTaken : x.filed ≤ x.taken
  held : ∀ i doc, (stage i).held = some doc → since < x.stamp i → doc = x.users
  single : ∀ i j, (stage i).pen.isSome → (stage j).pen.isSome → i = j
  partly : ∀ i doc pos, stage i = .writing doc pos → pos ≤ (encode doc).length ∧
    x.file = some ((encode doc).take pos) ∧
    (since < x.filed → since < x.stamp i ∨ encode doc = encode x.users)
  filed : (∀ i, (stage i).pen = none) → since < x.filed → x.file = some (encode x.users)
  finished : ∀ i, stage i = .finished (.ok ()) → x.stamp i ≤ x.filed
  latest : (∀ i, ∃ f, stage i = .fresh f) ∨ ∃ j, stage j = .changed ∨ since < x.stamp j

theorem IamRun.Tracks.later {x : IamRun ι} {stage : ι → Stage} {since : Nat}
    (h : x.Tracks encode stage since) {i : ι} (hfresh : ∀ f, stage i ≠ .fresh f)
    (hchanged : stage i ≠ .changed) :
    ∃ j, (j ≠ i ∧ stage j = .changed) ∨ since < x.stamp j := by
  rcases h.latest with hall | ⟨j, hj | hj⟩
  · obtain ⟨f, hf⟩ := hall i
    exact absurd hf (hfresh f)
  · refine ⟨j, .inl ⟨?_, hj⟩⟩
    rintro rfl
    exact hchanged hj
  · exact ⟨j, .inr hj⟩

variable [DecidableEq ι]

/-- The numbers after a turn of a call at a stage. -/
def Stage.book (encode : Users → Bytes) (x : IamRun ι) (t : IamTurn ι) :
    Stage → Nat × (ι → Nat) × Nat
  | .changed => (x.taken + 1, Function.update x.stamp t.who (x.taken + 1), x.filed)
  | .writing doc pos =>
      (x.taken, x.stamp,
        if (encode doc).drop pos = [] then max x.filed (x.stamp t.who) else x.filed)
  | _ => (x.taken, x.stamp, x.filed)

theorem IamRun.turn_eq {x : IamRun ι} {t : IamTurn ι} {g : Stage}
    (h : x.prog t.who = g.prog) (hpen : x.pen t.who = g.pen) :
    x.turn encode t = ⟨Function.update x.prog t.who (g.next encode t.io x.users).prog,
      (g.leaves encode t.io x.users x.file).1, (g.leaves encode t.io x.users x.file).2,
      Function.update x.pen t.who (g.next encode t.io x.users).pen,
      (g.book encode x t).1, (g.book encode x t).2.1, (g.book encode x t).2.2⟩ := by
  unfold IamRun.turn IamRun.view
  simp only [h, hpen, Stage.penStep_prog]
  cases g with
  | fresh f => rfl
  | changed => rfl
  | holding doc => rfl
  | ready doc => rfl
  | writing doc pos =>
      rw [Stage.writing_prog]
      simp only [writes, snapshots, Stage.pen, Stage.book, Option.any_some, Option.map_some,
        Option.some.injEq, decide_eq_true_eq, Bool.false_eq_true, if_false]
  | finished r => rfl

theorem stages_turn {α : Type} {value : ι → α} {stage : ι → Stage} {f : Stage → α}
    (h : ∀ i, value i = f (stage i)) (i : ι) (g : Stage) (j : ι) :
    Function.update value i (f g) j = f (Function.update stage i g j) := by
  by_cases hj : j = i
  · subst hj
    rw [Function.update_self, Function.update_self]
  · rw [Function.update_of_ne hj, Function.update_of_ne hj]
    exact h j

theorem IamRun.Failed.turn {x : IamRun ι} {t : IamTurn ι} (h : x.Failed) :
    (x.turn encode t).Failed := by
  obtain ⟨i, e, hi⟩ := h
  refine ⟨i, e, ?_⟩
  unfold IamRun.turn
  by_cases hj : i = t.who
  · subst hj
    simp only [Function.update_self, hi]
    rfl
  · simp only [Function.update_of_ne hj]
    exact hi

theorem stage_update {stage : ι → Stage} {i j : ι} {g g' : Stage}
    (h : Function.update stage i g j = g') : (j = i ∧ g = g') ∨ (j ≠ i ∧ stage j = g') := by
  by_cases hj : j = i
  · subst hj
    rw [Function.update_self] at h
    exact .inl ⟨rfl, h⟩
  · rw [Function.update_of_ne hj] at h
    exact .inr ⟨hj, h⟩

theorem latest_update {stage : ι → Stage} {i : ι} {g : Stage} {stamp : ι → Nat} {since : Nat}
    (h : ∃ j, (j ≠ i ∧ stage j = .changed) ∨ since < stamp j) :
    ∃ j, Function.update stage i g j = .changed ∨ since < stamp j := by
  obtain ⟨j, ⟨hne, hj⟩ | hj⟩ := h
  · exact ⟨j, .inl (by rw [Function.update_of_ne hne]; exact hj)⟩
  · exact ⟨j, .inr hj⟩

theorem pen_update {stage : ι → Stage} {i j : ι} {g : Stage} (hg : g.pen = none)
    (h : (Function.update stage i g j).pen.isSome) : (stage j).pen.isSome := by
  by_cases hji : j = i
  · subst hji
    rw [Function.update_self, hg] at h
    cases h
  · rwa [Function.update_of_ne hji] at h

omit [DecidableEq ι] in
theorem IamRun.Tracks.closed {x : IamRun ι} {stage : ι → Stage} {since : Nat}
    (h : x.Tracks encode stage since) {i j : ι} (hi : (stage i).pen.isSome) (hj : j ≠ i) :
    (stage j).pen = none := by
  cases hpen : (stage j).pen with
  | none => rfl
  | some pos => exact absurd (h.single j i (hpen ▸ rfl) hi) hj

/-- The map changes: no snapshot taken so far is newer than that. -/
theorem IamRun.Tracks.changes {x : IamRun ι} {stage : ι → Stage} {since : Nat}
    (h : x.Tracks encode stage since) {i : ι} (users : Users) :
    (IamRun.mk (Function.update x.prog i Stage.changed.prog) users x.file
      (Function.update x.pen i Stage.changed.pen) x.taken x.stamp x.filed).Tracks encode
      (Function.update stage i .changed) x.taken where
  prog := stages_turn h.prog i _
  pen := stages_turn h.pen i _
  taken := le_rfl
  stamps := h.stamps
  filedTaken := h.filedTaken
  held j doc _ hlt := absurd hlt (not_lt.2 (h.stamps j))
  single j k hj hk := h.single j k (pen_update rfl hj) (pen_update rfl hk)
  partly j doc pos hj := by
    rcases stage_update hj with ⟨-, hg⟩ | ⟨-, hj⟩
    · cases hg
    · obtain ⟨hpos, hfile, -⟩ := h.partly j doc pos hj
      exact ⟨hpos, hfile, fun hlt => absurd hlt (not_lt.2 h.filedTaken)⟩
  filed _ hlt := absurd hlt (not_lt.2 h.filedTaken)
  finished j hj := by
    rcases stage_update hj with ⟨-, hg⟩ | ⟨-, hj⟩
    · cases hg
    · exact h.finished j hj
  latest := .inr ⟨i, .inl (Function.update_self ..)⟩

/-- A snapshot is taken. -/
theorem IamRun.Tracks.takes {x : IamRun ι} {stage : ι → Stage} {since : Nat}
    (h : x.Tracks encode stage since) {i : ι} (hi : stage i = .changed) :
    (IamRun.mk (Function.update x.prog i (Stage.holding x.users).prog) x.users x.file
      (Function.update x.pen i (Stage.holding x.users).pen) (x.taken + 1)
      (Function.update x.stamp i (x.taken + 1)) x.filed).Tracks encode
      (Function.update stage i (.holding x.users)) since where
  prog := stages_turn h.prog i _
  pen := stages_turn h.pen i _
  taken := Nat.le_succ_of_le h.taken
  stamps j := by
    by_cases hj : j = i
    · subst hj
      exact (Function.update_self ..).le
    · exact (Function.update_of_ne hj _ _).le.trans (Nat.le_succ_of_le (h.stamps j))
  filedTaken := Nat.le_succ_of_le h.filedTaken
  held j doc hj hlt := by
    by_cases hji : j = i
    · subst hji
      rw [Function.update_self] at hj
      exact (Option.some.inj hj).symm
    · have hstamp : Function.update x.stamp i (x.taken + 1) j = x.stamp j :=
        Function.update_of_ne hji _ _
      rw [Function.update_of_ne hji] at hj
      exact h.held j doc hj (hstamp ▸ hlt)
  single j k hj hk := h.single j k (pen_update rfl hj) (pen_update rfl hk)
  partly j doc pos hj := by
    rcases stage_update hj with ⟨-, hg⟩ | ⟨hji, hj⟩
    · cases hg
    · have hstamp : Function.update x.stamp i (x.taken + 1) j = x.stamp j :=
        Function.update_of_ne hji _ _
      obtain ⟨hpos, hfile, hnewer⟩ := h.partly j doc pos hj
      exact ⟨hpos, hfile, fun hlt => (hnewer hlt).imp_left fun hs => hs.trans_eq hstamp.symm⟩
  filed hnone hlt := by
    refine h.filed (fun j => ?_) hlt
    by_cases hji : j = i
    · rw [hji, hi]
      rfl
    · exact Function.update_of_ne hji (Stage.holding x.users) stage ▸ hnone j
  finished j hj := by
    rcases stage_update hj with ⟨-, hg⟩ | ⟨hji, hj⟩
    · cases hg
    · exact (Function.update_of_ne hji _ _).le.trans (h.finished j hj)
  latest := by
    refine .inr ⟨i, .inr ?_⟩
    show since < Function.update x.stamp i (x.taken + 1) i
    rw [Function.update_self]
    exact Nat.lt_succ_of_le h.taken

/-- A call that holds a snapshot goes on, and does with the file what it may. -/
theorem IamRun.Tracks.advance {x : IamRun ι} {stage : ι → Stage} {since : Nat}
    (h : x.Tracks encode stage since) {i : ι} {doc : Users} (hi : (stage i).held = some doc)
    {g : Stage} {file : Option Bytes} {filed : Nat} (hle : x.filed ≤ filed)
    (htaken : filed ≤ x.taken) (hheld : ∀ doc', g.held = some doc' → doc' = doc)
    (hothers : ∀ j, j ≠ i → (stage j).pen.isSome →
      g.pen = none ∧ file = x.file ∧ filed = x.filed)
    (hpartly : ∀ doc' pos, g = .writing doc' pos → pos ≤ (encode doc').length ∧
      file = some ((encode doc').take pos) ∧
      (since < filed → since < x.stamp i ∨ encode doc' = encode x.users))
    (hfile : (∀ j, j ≠ i → (stage j).pen = none) → g.pen = none → since < filed →
      file = some (encode x.users))
    (hfin : g = .finished (.ok ()) → x.stamp i ≤ filed) :
    (IamRun.mk (Function.update x.prog i g.prog) x.users file (Function.update x.pen i g.pen)
      x.taken x.stamp filed).Tracks encode (Function.update stage i g) since where
  prog := stages_turn h.prog i _
  pen := stages_turn h.pen i _
  taken := h.taken
  stamps := h.stamps
  filedTaken := htaken
  held j doc' hj hlt := by
    by_cases hji : j = i
    · subst hji
      rw [Function.update_self] at hj
      rw [hheld doc' hj]
      exact h.held j doc hi hlt
    · rw [Function.update_of_ne hji] at hj
      exact h.held j doc' hj hlt
  single j k hj hk := by
    by_cases hji : j = i
    · by_cases hki : k = i
      · exact hji.trans hki.symm
      · subst hji
        rw [Function.update_of_ne hki] at hk
        rw [Function.update_self, (hothers k hki hk).1] at hj
        cases hj
    · rw [Function.update_of_ne hji] at hj
      by_cases hki : k = i
      · subst hki
        rw [Function.update_self, (hothers j hji hj).1] at hk
        cases hk
      · rw [Function.update_of_ne hki] at hk
        exact h.single j k hj hk
  partly j doc' pos hj := by
    rcases stage_update hj with ⟨rfl, hg⟩ | ⟨hji, hj⟩
    · exact hpartly doc' pos hg
    · obtain ⟨-, hsame, hfiled⟩ := hothers j hji (by rw [hj]; rfl)
      rw [hsame, hfiled]
      exact h.partly j doc' pos hj
  filed hnone hlt := by
    refine hfile (fun j hji => ?_) ?_ hlt
    · exact Function.update_of_ne hji g stage ▸ hnone j
    · exact Function.update_self i g stage ▸ hnone i
  finished j hj := by
    rcases stage_update hj with ⟨rfl, hg⟩ | ⟨-, hj⟩
    · exact hfin hg
    · exact (h.finished j hj).trans hle
  latest := by
    refine .inr (latest_update (h.later (fun f hf => ?_) fun hc => ?_))
    · rw [hf] at hi
      cases hi
    · rw [hc] at hi
      cases hi

theorem IamRun.Tracks.prepares {x : IamRun ι} {stage : ι → Stage} {since : Nat}
    (h : x.Tracks encode stage since) {i : ι} {doc : Users} (hi : stage i = .holding doc) :
    (IamRun.mk (Function.update x.prog i (Stage.ready doc).prog) x.users x.file
      (Function.update x.pen i (Stage.ready doc).pen) x.taken x.stamp x.filed).Tracks encode
      (Function.update stage i (.ready doc)) since := by
  refine h.advance (hi ▸ rfl) le_rfl h.filedTaken (fun doc' hd => (Option.some.inj hd).symm)
    (fun j _ _ => ⟨rfl, rfl, rfl⟩) (fun doc' pos hg => nomatch hg) ?_ fun hg => nomatch hg
  intro hothers _ hlt
  refine h.filed (fun j => ?_) hlt
  by_cases hji : j = i
  · rw [hji, hi]
    rfl
  · exact hothers j hji

/-- The file is opened, while nobody has it open, over no newer snapshot that is not the same. -/
theorem IamRun.Tracks.opens {x : IamRun ι} {stage : ι → Stage} {since : Nat}
    (h : x.Tracks encode stage since) {i : ι} {doc : Users} (hi : stage i = .ready doc)
    (hnone : ∀ j, x.pen j = none)
    (hgood : x.filed ≤ x.stamp i ∨ x.file = some (encode doc)) :
    (IamRun.mk (Function.update x.prog i (Stage.writing doc 0).prog) x.users (some [])
      (Function.update x.pen i (Stage.writing doc 0).pen) x.taken x.stamp x.filed).Tracks encode
      (Function.update stage i (.writing doc 0)) since := by
  have hclosed (j : ι) : (stage j).pen = none := (h.pen j).symm.trans (hnone j)
  refine h.advance (hi ▸ rfl) le_rfl h.filedTaken (fun doc' hd => (Option.some.inj hd).symm)
    (fun j _ hj => ?_) (fun doc' pos hg => ?_) (fun _ hg => nomatch hg) fun hg => nomatch hg
  · rw [hclosed j] at hj
    cases hj
  · cases hg
    refine ⟨Nat.zero_le _, rfl, fun hlt => ?_⟩
    rcases hgood with hle | hsame
    · exact .inl (hlt.trans_le hle)
    · exact .inr (Option.some.inj (hsame.symm.trans (h.filed hclosed hlt)))

/-- A piece of the text is written. -/
theorem IamRun.Tracks.pens {x : IamRun ι} {stage : ι → Stage} {since : Nat}
    (h : x.Tracks encode stage since) {i : ι} {doc : Users} {pos : Nat}
    (hi : stage i = .writing doc pos) (n : Nat) :
    (IamRun.mk (Function.update x.prog i
        (Stage.writing doc (pos + (((encode doc).drop pos).take n).length)).prog) x.users
      (x.file.map (writeAt pos (((encode doc).drop pos).take n)))
      (Function.update x.pen i
        (Stage.writing doc (pos + (((encode doc).drop pos).take n).length)).pen)
      x.taken x.stamp x.filed).Tracks encode
      (Function.update stage i
        (.writing doc (pos + (((encode doc).drop pos).take n).length))) since := by
  obtain ⟨hpos, hfile, hnewer⟩ := h.partly i doc pos hi
  refine h.advance (hi ▸ rfl) le_rfl h.filedTaken (fun doc' hd => (Option.some.inj hd).symm)
    (fun j hji hj => ?_) (fun doc' pos' hg => ?_) (fun _ hg => nomatch hg) fun hg => nomatch hg
  · rw [h.closed (hi ▸ rfl) hji] at hj
    cases hj
  · cases hg
    refine ⟨?_, ?_, hnewer⟩
    · rw [List.length_take, List.length_drop]
      omega
    · rw [hfile, Option.map_some, writeAt_take hpos]

/-- The text is written. -/
theorem IamRun.Tracks.closes {x : IamRun ι} {stage : ι → Stage} {since : Nat}
    (h : x.Tracks encode stage since) {i : ι} {doc : Users} {pos : Nat}
    (hi : stage i = .writing doc pos) (hrest : (encode doc).drop pos = []) :
    (IamRun.mk (Function.update x.prog i (Stage.finished (.ok ())).prog) x.users x.file
      (Function.update x.pen i (Stage.finished (.ok ())).pen) x.taken x.stamp
      (max x.filed (x.stamp i))).Tracks encode
      (Function.update stage i (.finished (.ok ()))) since := by
  obtain ⟨hpos, hfile, hnewer⟩ := h.partly i doc pos hi
  have hholds : (stage i).held = some doc := hi ▸ rfl
  refine h.advance hholds (le_max_left _ _) (max_le h.filedTaken (h.stamps i))
    (fun doc' hd => nomatch hd) (fun j hji hj => ?_) (fun doc' pos' hg => nomatch hg)
    (fun _ _ hlt => ?_) fun _ => le_max_right _ _
  · rw [h.closed (hi ▸ rfl) hji] at hj
    cases hj
  · have hwhole : x.file = some (encode doc) := by
      rw [hfile, List.take_of_length_le (List.drop_eq_nil_iff.1 hrest)]
    have hsame : since < x.stamp i ∨ encode doc = encode x.users := by
      rcases lt_max_iff.1 hlt with hfiled | hstamp
      · exact hnewer hfiled
      · exact .inl hstamp
    rcases hsame with hstamp | hsame
    · rw [hwhole, h.held i doc (hi ▸ rfl) hstamp]
    · rw [hwhole, hsame]

/-- One turn, of a run in which no call has failed. -/
theorem IamRun.Tracks.turn {x : IamRun ι} {stage : ι → Stage} {since : Nat}
    (h : x.Tracks encode stage since) (t : IamTurn ι)
    (hgood : InOrder encode ((iamTurns encode).visit x t)) :
    (x.turn encode t).Failed ∨ ∃ stage' since', (x.turn encode t).Tracks encode stage' since' := by
  have hgood : ∀ doc, writes (x.prog t.who) = some doc → x.pen t.who = none →
      t.io.opens = true → (∀ i, x.pen i = none) ∧
        (x.filed ≤ x.stamp t.who ∨ x.file = some (encode doc)) := hgood
  have hwho := h.prog t.who
  have hpen := h.pen t.who
  rw [IamRun.turn_eq hwho hpen]
  cases hg : stage t.who with
  | fresh f =>
      rw [Stage.next, Stage.leaves]
      cases hf : f x.users with
      | error e => exact .inl ⟨t.who, e, Function.update_self ..⟩
      | ok users => exact .inr ⟨_, _, h.changes users⟩
  | changed => exact .inr ⟨_, _, h.takes hg⟩
  | holding doc =>
      rw [Stage.next]
      split
      · exact .inr ⟨_, _, h.prepares hg⟩
      · exact .inl ⟨t.who, _, Function.update_self ..⟩
  | ready doc =>
      rw [Stage.next, Stage.leaves]
      split
      · rename_i hopens
        rw [hg] at hwho hpen
        obtain ⟨hnone, hnewest⟩ := hgood doc (by rw [hwho]; rfl) hpen hopens
        exact .inr ⟨_, _, h.opens hg hnone hnewest⟩
      · exact .inl ⟨t.who, _, Function.update_self ..⟩
  | writing doc pos =>
      rw [Stage.next, Stage.leaves, Stage.book]
      dsimp only
      by_cases hrest : (encode doc).drop pos = []
      · rw [if_pos hrest, if_pos hrest, hrest, List.take_nil, if_pos rfl]
        exact .inr ⟨_, _, h.closes hg hrest⟩
      · rw [if_neg hrest, if_neg hrest]
        split
        · exact .inl ⟨t.who, _, Function.update_self ..⟩
        · exact .inr ⟨_, _, h.pens hg t.io.written⟩
  | finished r =>
      have hprog : Function.update x.prog t.who (Stage.finished r).prog = x.prog := by
        rw [← hg, ← h.prog t.who, Function.update_eq_self]
      have hpens : Function.update x.pen t.who (Stage.finished r).pen = x.pen := by
        rw [← hg, ← h.pen t.who, Function.update_eq_self]
      refine .inr ⟨stage, since, ?_⟩
      rw [Stage.next, hprog, hpens]
      exact h

omit [DecidableEq ι] in
/-- A call that is refused at once has failed; the others are before their first step. -/
theorem IamRun.start_tracks (S : IamStore) (calls : ι → IamCall) (users : Users)
    (file : Option Bytes) : (IamRun.start S calls users file).Failed ∨
      ∃ stage since, (IamRun.start S calls users file).Tracks encode stage since := by
  by_cases hfail : ∃ i e, ((calls i).run S).run = .ret (.error e)
  · exact .inl hfail
  · choose stage hprog hstage using fun i => (calls i).run_stage S
    have hfresh : ∀ i, ∃ f, stage i = .fresh f := by
      intro i
      refine (hstage i).resolve_right ?_
      rintro ⟨e, he⟩
      exact hfail ⟨i, e, by rw [hprog i, he]; rfl⟩
    have hclosed : ∀ i, (stage i).pen = none := by
      intro i
      obtain ⟨f, hf⟩ := hfresh i
      rw [hf]
      rfl
    have hno : ∀ i {g : Stage}, stage i = g → ∃ f, g = .fresh f := by
      rintro i g rfl
      exact hfresh i
    refine .inr ⟨stage, 0, hprog, fun i => (hclosed i).symm, le_rfl, fun i => le_rfl, le_rfl,
      ?_, ?_, ?_, ?_, ?_, .inl hfresh⟩
    · exact fun i doc hi hlt => absurd hlt (lt_irrefl 0)
    · intro i j hi
      rw [hclosed i] at hi
      cases hi
    · intro i doc pos hi
      obtain ⟨f, hf⟩ := hno i hi
      cases hf
    · exact fun _ hlt => absurd hlt (lt_irrefl 0)
    · intro i hi
      obtain ⟨f, hf⟩ := hno i hi
      cases hf

theorem IamRun.final_tracks {x : IamRun ι}
    (hx : x.Failed ∨ ∃ stage since, x.Tracks encode stage since) (turns : List (IamTurn ι))
    (hgood : ∀ v ∈ (iamTurns encode).visits x turns, InOrder encode v) :
    ((iamTurns encode).final x turns).Failed ∨
      ∃ stage since, ((iamTurns encode).final x turns).Tracks encode stage since := by
  refine Machine.invariant (M := iamTurns encode)
    (P := fun _ y => y.Failed ∨ ∃ stage since, y.Tracks encode stage since) hx ?_ turns hgood
  rintro vs y t (hfailed | ⟨stage, since, hy⟩) hv
  · exact .inl hfailed.turn
  · exact hy.turn t hv

/-- Once all calls have returned `Ok` the users file holds the map in memory, if each call that
opened it did so while no other had it open, and no newer snapshot that is not the same had been
written. -/
theorem file_of_inOrder [Nonempty ι] (S : IamStore) (encode : Users → Bytes)
    (calls : ι → IamCall) (users : Users) (file : Option Bytes) (turns : List (IamTurn ι))
    (hgood : ∀ v ∈ (iamTurns encode).visits (IamRun.start S calls users file) turns,
      InOrder encode v)
    (hall : ∀ i, Prog.returned
      (((iamTurns encode).final (IamRun.start S calls users file) turns).prog i) =
        some (.ok ())) :
    ((iamTurns encode).final (IamRun.start S calls users file) turns).file =
      some (encode ((iamTurns encode).final (IamRun.start S calls users file) turns).users) := by
  have hall : ∀ i, ((iamTurns encode).final (IamRun.start S calls users file) turns).prog i =
      .ret (.ok ()) := fun i => Prog.returned_eq_some.1 (hall i)
  rcases IamRun.final_tracks (IamRun.start_tracks S calls users file) turns hgood with
    ⟨i, e, hi⟩ | ⟨stage, since, htracks⟩
  · rw [hall i] at hi
    cases hi
  · have hover : ∀ i, stage i = .finished (.ok ()) := by
      intro i
      have hprog := (htracks.prog i).symm.trans (hall i)
      cases hg : stage i with
      | fresh f => rw [hg, Stage.fresh_prog] at hprog; cases hprog
      | changed => rw [hg] at hprog; cases hprog
      | holding doc => rw [hg] at hprog; cases hprog
      | ready doc => rw [hg] at hprog; cases hprog
      | writing doc pos => rw [hg] at hprog; cases hprog
      | finished r => rw [hg] at hprog; cases hprog; rfl
    have hclosed (i : ι) : (stage i).pen = none := by
      rw [hover i]
      rfl
    obtain ⟨i⟩ := ‹Nonempty ι›
    obtain ⟨j, ⟨-, hj⟩ | hj⟩ := htracks.later (i := i)
      (fun f hf => nomatch (hover i).symm.trans hf) fun hc => nomatch (hover i).symm.trans hc
    · cases (hover j).symm.trans hj
    · exact htracks.filed hclosed (hj.trans_le (htracks.finished j (hover j)))

end

/-! ## Two calls at once -/

/-- Two additions. -/
def twoAdds : Bool → IamCall
  | false => .addUser "alice".toList "a".toList "readonly".toList
  | true => .addUser "bob".toList "b".toList "readonly".toList

/-- A text that tells two maps of different sizes apart. -/
def sizeText (users : Users) : Bytes := List.replicate (users.size + 1) (UInt8.ofNat users.size)

/-- Steps of one of them, with nothing failing and two bytes written at a time. -/
def fineTurns (who : Bool) (n : Nat) : List (IamTurn Bool) :=
  List.replicate n ⟨who, ⟨true, true, 2⟩⟩

/-- One after the other. -/
def addsInTurn : List (IamTurn Bool) := fineTurns false 6 ++ fineTurns true 7

/-- The first takes its snapshot before the other's change and writes it last. -/
def overtaken : List (IamTurn Bool) := fineTurns false 3 ++ fineTurns true 7 ++ fineTurns false 3

/-- One after the other they leave the map in the file. -/
theorem file_inTurn :
    ((iamTurns sizeText).final (IamRun.start plainStore twoAdds ∅ none) addsInTurn).file =
      some (sizeText ((iamTurns sizeText).final (IamRun.start plainStore twoAdds ∅ none)
        addsInTurn).users) := by
  refine file_of_inOrder plainStore sizeText twoAdds ∅ none addsInTurn ?_ (by decide +kernel)
  have horder : ∀ v ∈ (iamTurns sizeText).visits (IamRun.start plainStore twoAdds ∅ none)
      addsInTurn, (writes (v.before.prog v.call.who)).isSome → v.before.pen v.call.who = none →
        (∀ i, v.before.pen i = none) ∧ v.before.filed ≤ v.before.stamp v.call.who := by
    decide +kernel
  intro v hv doc hdoc hpen _
  obtain ⟨hnone, hle⟩ := horder v hv (by rw [hdoc]; rfl) hpen
  exact ⟨hnone, .inl hle⟩

/-- Overtaken, the older snapshot stays in the file. -/
theorem file_overtaken :
    ¬ ∀ (S : IamStore) (encode : Users → Bytes) (calls : Bool → IamCall) (users : Users)
      (file : Option Bytes) (turns : List (IamTurn Bool)),
      (∀ i, Prog.returned
        (((iamTurns encode).final (IamRun.start S calls users file) turns).prog i) =
          some (.ok ())) →
      ((iamTurns encode).final (IamRun.start S calls users file) turns).file =
        some (encode ((iamTurns encode).final (IamRun.start S calls users file) turns).users) := by
  intro h
  have hfile := h plainStore sizeText twoAdds ∅ none overtaken (by decide +kernel)
  revert hfile
  decide +kernel

/-- Both have the file open at once: the first writes over what the second has written, and though
the newer snapshot is the one finished last a mixture of the two is left. -/
example : ((iamTurns sizeText).final (IamRun.start plainStore twoAdds ∅ none)
    (fineTurns false 4 ++ fineTurns true 5 ++ fineTurns false 2 ++ fineTurns true 2)).file =
      some [1, 1, 2] := by
  decide +kernel

end Kerplace
