/-
# `Kerplace.Erasure.Cluster` — programs over the drives of a store

An erasure store works on `n` shard slots, each a `Drive`, and takes a lock
on the object it writes.  Its operations are those of the drives, tagged
with the slot, and the two ends of a lock.  Run one call at a time, a lock
is always granted and changes nothing; which drives can be reached is fixed
for the length of a call.
-/
import Kerplace.Storage.Drive

namespace Kerplace

/-- The operations of a store over `n` drives. -/
inductive StoreOp (n : Nat) (J : Type) where
  | drive (d : Fin n) (o : DriveOp J)
  | lock (name : Str)
  | unlock (name : Str)

/-- What an operation of a store answers. -/
abbrev StoreOp.Ans {n : Nat} {J : Type} : StoreOp n J → Type
  | .drive _ o => o.Ans
  | .lock _ => Unit
  | .unlock _ => Unit

/-- Programs over the drives of a store. -/
abbrev ClusterProg (n : Nat) (J α : Type) := Prog (StoreOp n J) StoreOp.Ans α

/-- Store calls: programs that may end in an `S3Error`. -/
abbrev Store (n : Nat) (J α : Type) := ExceptT S3Error (Prog (StoreOp n J) StoreOp.Ans) α

/-- The trees of all drives. -/
abbrev Cluster (n : Nat) (J : Type) := Fin n → Tree J

section

variable {n : Nat} {J α β : Type}

/-- Run a program of one drive on slot `d`. -/
def onDrive (d : Fin n) : DriveProg J α → ClusterProg n J α
  | .ret a => .ret a
  | .call o k => .call (.drive d o) fun a => onDrive d (k a)

/-- A program of one drive, as part of a call. -/
def atDrive (d : Fin n) (p : DriveProg J α) : Store n J α := ExceptT.lift (onDrive d p)

/-- The loop over all drives, gathering their results. -/
def eachDrive (p : Fin n → DriveProg J α) : Store n J (Fin n → α) :=
  ExceptT.lift (Prog.forFin fun d => onDrive d (p d))

/-- The loop over the drives that stops at the first with a value. -/
def anyDrive (p : Fin n → DriveProg J (Option α)) : Store n J (Option α) :=
  ExceptT.lift (Prog.firstSome (List.finRange n) fun d => onDrive d (p d))

/-- How many drives a loop succeeded on. -/
def tally (ok : Fin n → Bool) : Nat := (List.finRange n).countP ok

/-- A call's result as a value, so that what follows happens either way. -/
def outcome (p : Store n J α) : Store n J (Except S3Error α) := ExceptT.lift p.run

/-- Fail with `e` unless `p` succeeds. -/
def orFail (e : S3Error) (p : Store n J Bool) : Store n J Unit := do
  if ← p then pure () else throw e

/-- Take the lock `name`. -/
def lockOp (name : Str) : Store n J Unit := ExceptT.lift (Prog.op (StoreOp.lock name))

/-- Give the lock `name` back. -/
def unlockOp (name : Str) : Store n J Unit :=
  ExceptT.lift (Prog.op (StoreOp.unlock name))

/-- Hold the lock `name` around a call, whether it succeeds or fails. -/
def withLock (name : Str) (p : Store n J α) : Store n J α := do
  lockOp name
  let r ← outcome p
  unlockOp name
  MonadExcept.ofExcept r

/-! ## Contracts of store calls -/

/-- A store's contract, as it binds the drive in slot `d`. -/
def Prog.Contract.slot (C : Prog.Contract (StoreOp n J) StoreOp.Ans) (d : Fin n) :
    Prog.Contract (DriveOp J) DriveOp.Ans where
  may o := C.may (.drive d o)
  gives o a := C.gives (.drive d o) a

section

variable {C : Prog.Contract (StoreOp n J) StoreOp.Ans}

theorem meets_onDrive {d : Fin n} {p : DriveProg J α} {Q : α → Prop} :
    Prog.Meets C (onDrive d p) Q ↔ Prog.Meets (C.slot d) p Q := by
  induction p with
  | ret a => rfl
  | call o k ih => exact and_congr Iff.rfl (forall_congr' fun a => imp_congr Iff.rfl (ih a))

theorem meetsE_atDrive {d : Fin n} {p : DriveProg J α} {Q : α → Prop} :
    Prog.MeetsE C (atDrive d p) Q ↔ Prog.Meets (C.slot d) p Q :=
  Prog.meetsE_lift.trans meets_onDrive

theorem meetsE_eachDrive {p : Fin n → DriveProg J α} {Q : Fin n → α → Prop}
    (hp : ∀ d, Prog.Meets (C.slot d) (p d) (Q d)) :
    Prog.MeetsE C (eachDrive p) fun r => ∀ d, Q d (r d) :=
  Prog.meetsE_lift.2 (Prog.Meets.forFin fun d => meets_onDrive.2 (hp d))

theorem meetsE_anyDrive {p : Fin n → DriveProg J (Option α)} {Q : α → Prop}
    (hp : ∀ d, Prog.Meets (C.slot d) (p d) fun r => ∀ a, r = some a → Q a) :
    Prog.MeetsE C (anyDrive p) fun r => ∀ a, r = some a → Q a :=
  Prog.meetsE_lift.2 (Prog.Meets.firstSome fun d => meets_onDrive.2 (hp d))

theorem meetsE_outcome {p : Store n J α} {Q : α → Prop} (hp : Prog.MeetsE C p Q) :
    Prog.MeetsE C (outcome p) fun r => ∀ a, r = .ok a → Q a :=
  Prog.meetsE_lift.2 hp

theorem meetsE_orFail {e : S3Error} {p : Store n J Bool}
    (hp : Prog.MeetsE C p fun _ => True) : Prog.MeetsE C (orFail e p) fun _ => True := by
  refine hp.then fun ok => ?_
  split
  · exact Prog.meetsE_pure.2 trivial
  · exact Prog.meetsE_throw

theorem meetsE_withLock {name : Str} {p : Store n J α} {Q : α → Prop}
    (hlock : C.may (.lock name)) (hunlock : C.may (.unlock name))
    (hp : Prog.MeetsE C p Q) : Prog.MeetsE C (withLock name p) Q := by
  refine Prog.MeetsE.bind (R := fun _ => True) (Prog.meetsE_lift.2 ⟨hlock, fun _ _ => trivial⟩)
    fun _ _ => ?_
  refine Prog.MeetsE.bind (meetsE_outcome hp) fun r hr => ?_
  refine Prog.MeetsE.bind (R := fun _ => True)
    (Prog.meetsE_lift.2 ⟨hunlock, fun _ _ => trivial⟩) fun _ _ => ?_
  exact Prog.meetsE_ofExcept.2 hr

end

/-! ## Running on a cluster -/

/-- Where each drive's directory lies on its machine, and which drives can be
reached. -/
structure Site (n : Nat) where
  root : Fin n → List Str
  up : Fin n → Bool

namespace Site

variable (site : Site n)

/-- The handler of a whole cluster. -/
def step : (o : StoreOp n J) → Cluster n J → o.Ans × Cluster n J
  | .drive d o, s =>
      let r := LocalDrive.stepIf (site.root d) (site.up d) o (s d)
      (r.1, Function.update s d r.2)
  | .lock _, s => ((), s)
  | .unlock _, s => ((), s)

/-- Run a program on the cluster. -/
def exec (p : ClusterProg n J α) (s : Cluster n J) : α × Cluster n J :=
  Prog.exec site.step p s

/-- Run a store call on the cluster. -/
def run (p : Store n J α) (s : Cluster n J) : Except S3Error α × Cluster n J :=
  Prog.runE site.step p s

/-- Run a program of one drive on that drive's tree. -/
def onTree (d : Fin n) (p : DriveProg J α) (t : Tree J) : α × Tree J :=
  Prog.exec (LocalDrive.stepIf (site.root d) (site.up d)) p t

variable {site}

@[simp] theorem exec_onDrive (d : Fin n) (p : DriveProg J α) (s : Cluster n J) :
    site.exec (onDrive d p) s =
      ((site.onTree d p (s d)).1, Function.update s d (site.onTree d p (s d)).2) := by
  induction p generalizing s with
  | ret a =>
      show (a, s) = (a, Function.update s d (s d))
      rw [Function.update_eq_self]
  | call o k ih =>
      have hcall : site.exec (onDrive d (.call o k)) s =
          site.exec (onDrive d (k (site.onTree d (Prog.op o) (s d)).1))
            (Function.update s d (site.onTree d (Prog.op o) (s d)).2) := rfl
      rw [hcall, ih, Function.update_self, Function.update_idem]
      rfl

@[simp] theorem exec_ret (a : α) (s : Cluster n J) :
    site.exec (.ret a : ClusterProg n J α) s = (a, s) := rfl

theorem exec_bind (p : ClusterProg n J α) (f : α → ClusterProg n J β)
    (s : Cluster n J) :
    site.exec (p >>= f) s = site.exec (f (site.exec p s).1) (site.exec p s).2 :=
  Prog.exec_bind p f s

@[simp] theorem exec_forFin (p : Fin n → DriveProg J α) (s : Cluster n J) :
    site.exec (Prog.forFin fun d => onDrive d (p d)) s =
      (fun d => (site.onTree d (p d) (s d)).1, fun d => (site.onTree d (p d) (s d)).2) :=
  Prog.exec_forFin (r := fun d t => (site.onTree d (p d) t).1)
    (u := fun d t => (site.onTree d (p d) t).2)
    (fun d s => exec_onDrive d (p d) s) s

@[simp] theorem run_pure (a : α) (s : Cluster n J) :
    site.run (pure a : Store n J α) s = (.ok a, s) := rfl

@[simp] theorem run_throw (e : S3Error) (s : Cluster n J) :
    site.run (throw e : Store n J α) s = (.error e, s) := rfl

@[simp] theorem run_lift (p : ClusterProg n J α) (s : Cluster n J) :
    site.run (liftM p : Store n J α) s = (.ok (site.exec p s).1, (site.exec p s).2) :=
  Prog.runE_lift p s

@[simp] theorem run_atDrive (d : Fin n) (p : DriveProg J α) (s : Cluster n J) :
    site.run (atDrive d p) s =
      (.ok (site.onTree d p (s d)).1, Function.update s d (site.onTree d p (s d)).2) := by
  show site.run (liftM (onDrive d p)) s = _
  rw [run_lift, exec_onDrive]

@[simp] theorem run_eachDrive (p : Fin n → DriveProg J α) (s : Cluster n J) :
    site.run (eachDrive p) s =
      (.ok fun d => (site.onTree d (p d) (s d)).1,
        fun d => (site.onTree d (p d) (s d)).2) := by
  show site.run (liftM (Prog.forFin fun d => onDrive d (p d))) s = _
  rw [run_lift, exec_forFin]

theorem run_anyDrive {p : Fin n → DriveProg J (Option α)}
    (hp : ∀ d t, (site.onTree d (p d) t).2 = t) (s : Cluster n J) :
    site.run (anyDrive p) s =
      (.ok ((List.finRange n).findSome? fun d => (site.onTree d (p d) (s d)).1), s) := by
  have hread : ∀ d, (site.exec (onDrive d (p d)) s).2 = s := by
    intro d
    rw [exec_onDrive, hp, Function.update_eq_self]
  have hfind : site.exec (Prog.firstSome (List.finRange n) fun d => onDrive d (p d)) s =
      ((List.finRange n).findSome? fun d => (site.exec (onDrive d (p d)) s).1, s) :=
    Prog.exec_firstSome hread _
  show site.run (liftM (Prog.firstSome (List.finRange n) fun d => onDrive d (p d))) s = _
  rw [run_lift, hfind]
  simp only [exec_onDrive]

@[simp] theorem run_ofExcept (r : Except S3Error α) (s : Cluster n J) :
    site.run (MonadExcept.ofExcept r : Store n J α) s = (r, s) :=
  Prog.runE_ofExcept r s

theorem run_bind (p : Store n J α) (f : α → Store n J β) (s : Cluster n J) :
    site.run (p >>= f) s = Prog.andThen (site.run p s) fun a s' => site.run (f a) s' :=
  Prog.runE_bind p f s

theorem run_bind_ok {p : Store n J α} {f : α → Store n J β} {s : Cluster n J} {b : β}
    (hok : (site.run (p >>= f) s).1 = .ok b) :
    ∃ a, (site.run p s).1 = .ok a ∧ site.run (p >>= f) s = site.run (f a) (site.run p s).2 :=
  Prog.runE_bind_ok hok

theorem run_bind_pure (p : Store n J α) (f : α → β) (s : Cluster n J) :
    site.run (p >>= fun a => pure (f a)) s = ((site.run p s).1.map f, (site.run p s).2) :=
  Prog.runE_bind_pure p f s

@[simp] theorem run_outcome (p : Store n J α) (s : Cluster n J) :
    site.run (outcome p) s = (.ok (site.run p s).1, (site.run p s).2) :=
  Prog.runE_lift p.run s

theorem run_orFail (e : S3Error) (p : Store n J Bool) (s : Cluster n J) :
    site.run (orFail e p) s =
      Prog.andThen (site.run p s) fun ok t => (if ok then .ok () else .error e, t) := by
  rw [orFail, run_bind]
  congr 1
  funext ok t
  cases ok <;> rfl

@[simp] theorem run_withLock (name : Str) (p : Store n J α) (s : Cluster n J) :
    site.run (withLock name p) s = site.run p s := by
  have hlock : site.run (lockOp name) s = (.ok (), s) := rfl
  have hunlock : ∀ t, site.run (unlockOp name : Store n J Unit) t = (.ok (), t) :=
    fun _ => rfl
  simp only [withLock, run_bind, hlock, run_outcome, hunlock, Prog.andThen_ok]
  exact run_ofExcept _ _

theorem onTree_up {d : Fin n} (h : site.up d = true) (p : DriveProg J α) (t : Tree J) :
    site.onTree d p t = Prog.exec (LocalDrive.step (site.root d)) p t := by
  rw [onTree, h]
  rfl

@[simp] theorem onTree_down_snd {d : Fin n} (h : site.up d = false) (p : DriveProg J α)
    (t : Tree J) : (site.onTree d p t).2 = t := by
  rw [onTree, h]
  exact LocalDrive.exec_stepIf_false_snd _ _ _

/-- So it does through any call. -/
theorem run_down {d : Fin n} (h : site.up d = false) (p : Store n J α) (s : Cluster n J) :
    (site.run p s).2 d = s d := by
  have hprog : ∀ (q : ClusterProg n J (Except S3Error α)) (t : Cluster n J),
      (site.exec q t).2 d = t d := by
    intro q
    induction q with
    | ret r => exact fun _ => rfl
    | call o k ih =>
        intro t
        refine (ih _ _).trans ?_
        cases o with
        | drive e o =>
            show Function.update t e _ d = t d
            by_cases hd : d = e
            · subst hd
              rw [Function.update_self, h]
              rfl
            · rw [Function.update_of_ne hd]
        | lock name => rfl
        | unlock name => rfl
  exact hprog p s

end Site

end

end Kerplace
