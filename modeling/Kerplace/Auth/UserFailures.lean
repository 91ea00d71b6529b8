/-
# `Kerplace.Auth.UserFailures` — what a failed change of users leaves behind

A call that is turned down touches nothing.  One that is not changes the map first and
writes the file after that, in place: where the directory cannot be made or the file cannot
be written the call fails, and its change stays in memory; where the write breaks off the
file is lost as well.
-/
import Kerplace.Auth.UserRuns

namespace Kerplace

/-- The call is turned down by its own checks. -/
def IamCall.Refused (S : IamStore) (users : Users) : IamCall → Prop
  | .addUser k sk _ => k = [] ∨ sk = [] ∨ k = S.rootKey
  | .removeUser k => k = S.rootKey
  | .setStatus k _ => users[k]? = none
  | .setPolicy k _ => k = S.rootKey ∨ users[k]? = none
  | .setBuckets k _ => k = S.rootKey ∨ users[k]? = none
  | .policyAssoc k _ _ => k = [] ∨ k = S.rootKey ∨ users[k]? = none

/-- The map already is what the call makes it. -/
def IamCall.Idle (S : IamStore) (users : Users) (c : IamCall) : Prop :=
  c.fold S users.view = users.view

/-- The directory is made and the file is written. -/
def IamIo.Works (io : IamIo) : Prop := io.dir = true ∧ io.file = .done

/-- If the write breaks off, it leaves what was in the file. -/
def IamIo.Spares (io : IamIo) (file : Option (Content Users)) : Prop :=
  io.dir = true → ∀ left, io.file = .torn left → file = some (.raw left)

/-- If the call fails, the map, every look-up and the file are what they were. -/
def LeavesNoTrace (S : IamStore) (c : IamCall) (io : IamIo) (s : IamState) : Prop :=
  ∀ e, (Prog.runE (IamOp.handle io) (c.run S) s).1 = .error e →
    (Prog.runE (IamOp.handle io) (c.run S) s).2.users = s.users ∧
    (∀ now k, S.resolve now (Prog.runE (IamOp.handle io) (c.run S) s).2.users k =
      S.resolve now s.users k) ∧
    (Prog.runE (IamOp.handle io) (c.run S) s).2.file = s.file

namespace IamStore

variable {S : IamStore} {c : IamCall} {io : IamIo} {s : IamState}

theorem modifyUser_none {users : Users} {k : Str} {f : StoredUser → StoredUser}
    (h : users[k]? = none) : modifyUser k f users = .error (.invalidArgument "no such user") := by
  unfold modifyUser
  rw [h]

theorem runE_modify_none {k : Str} {f : StoredUser → StoredUser} (h : s.users[k]? = none) :
    Prog.runE (IamOp.handle io) (do IamOp.change (modifyUser k f); persist) s =
      (.error (.invalidArgument "no such user"), s) := by
  rw [runE_change_persist, modifyUser_none h]

theorem runE_modify_some {k : Str} {f : StoredUser → StoredUser} (h : s.users[k]? ≠ none) :
    ∃ users, Prog.runE (IamOp.handle io) (do IamOp.change (modifyUser k f); persist) s =
      persisted io users s.file := by
  obtain ⟨u, hu⟩ := Option.ne_none_iff_exists'.1 h
  refine ⟨s.users.insert k (f u), ?_⟩
  rw [runE_change_persist]
  unfold modifyUser
  rw [hu]

/-- A call that is turned down fails and changes nothing. -/
theorem run_refused (h : c.Refused S s.users) :
    ∃ e, Prog.runE (IamOp.handle io) (c.run S) s = (.error e, s) := by
  cases c with
  | addUser k sk policy =>
      simp only [IamCall.run, IamStore.addUser]
      split
      · exact ⟨_, rfl⟩
      · rename_i hempty
        rw [if_pos ((or_assoc.2 h).resolve_left hempty)]
        exact ⟨_, rfl⟩
  | removeUser k =>
      refine ⟨.invalidArgument "cannot remove root user", ?_⟩
      simp only [IamCall.run, IamStore.removeUser]
      have hroot : k = S.rootKey := h
      rw [if_pos hroot]
      rfl
  | setStatus k enabled => exact ⟨_, runE_modify_none h⟩
  | setPolicy k policy =>
      simp only [IamCall.run, IamStore.setPolicy]
      split
      · exact ⟨_, rfl⟩
      · rename_i hroot
        exact ⟨_, runE_modify_none (h.resolve_left hroot)⟩
  | setBuckets k buckets =>
      simp only [IamCall.run, IamStore.setBuckets]
      split
      · exact ⟨_, rfl⟩
      · rename_i hroot
        exact ⟨_, runE_modify_none (h.resolve_left hroot)⟩
  | policyAssoc k policies attach =>
      simp only [IamCall.run, IamStore.policyAssoc, IamStore.setPolicy]
      split
      · exact ⟨_, rfl⟩
      · rename_i hempty
        have h := h.resolve_left hempty
        split
        · exact ⟨_, rfl⟩
        · rename_i hroot
          exact ⟨_, runE_modify_none (h.resolve_left hroot)⟩

/-- A call that is not turned down changes the map and copies it. -/
theorem run_accepted (h : ¬c.Refused S s.users) :
    ∃ users, Prog.runE (IamOp.handle io) (c.run S) s = persisted io users s.file := by
  cases c with
  | addUser k sk policy =>
      simp only [IamCall.run, IamStore.addUser]
      rw [if_neg fun hempty => h (or_assoc.1 (.inl hempty)),
        if_neg fun hroot => h (.inr (.inr hroot)), runE_change_persist]
      exact ⟨_, rfl⟩
  | removeUser k =>
      simp only [IamCall.run, IamStore.removeUser]
      have hroot : k ≠ S.rootKey := h
      rw [if_neg hroot, runE_change_persist]
      exact ⟨_, rfl⟩
  | setStatus k enabled => exact runE_modify_some h
  | setPolicy k policy =>
      obtain ⟨hroot, hnone⟩ := not_or.1 h
      simp only [IamCall.run, IamStore.setPolicy]
      rw [if_neg hroot]
      exact runE_modify_some hnone
  | setBuckets k buckets =>
      obtain ⟨hroot, hnone⟩ := not_or.1 h
      simp only [IamCall.run, IamStore.setBuckets]
      rw [if_neg hroot]
      exact runE_modify_some hnone
  | policyAssoc k policies attach =>
      obtain ⟨hempty, hrest⟩ := not_or.1 h
      obtain ⟨hroot, hnone⟩ := not_or.1 hrest
      simp only [IamCall.run, IamStore.policyAssoc, IamStore.setPolicy]
      rw [if_neg hempty, if_neg hroot]
      exact runE_modify_some hnone

/-! ## Where the copy fails -/

theorem persisted_isOk {users : Users} {file : Option (Content Users)} :
    (persisted io users file).1 = .ok () ↔ io.Works := by
  unfold persisted IamIo.Works
  rcases io with ⟨dir, out⟩
  cases dir with
  | false => exact ⟨fun h => (by cases h), fun h => by cases h.1⟩
  | true =>
      cases out with
      | done => exact ⟨fun _ => ⟨rfl, rfl⟩, fun _ => rfl⟩
      | refused => exact ⟨fun h => (by cases h), fun h => by cases h.2⟩
      | torn left => exact ⟨fun h => (by cases h), fun h => by cases h.2⟩

theorem persisted_file {users : Users} {file : Option (Content Users)} (h : ¬io.Works) :
    (persisted io users file).2.file = file ↔ io.Spares file := by
  unfold persisted
  rcases io with ⟨dir, out⟩
  cases dir with
  | false => exact ⟨fun _ hdir => (by cases hdir), fun _ => rfl⟩
  | true =>
      cases out with
      | done => exact absurd ⟨rfl, rfl⟩ h
      | refused => exact ⟨fun _ _ left hleft => (by cases hleft), fun _ => rfl⟩
      | torn left =>
          refine ⟨fun hfile _ left' hleft => ?_, fun hspares => (hspares rfl left rfl).symm⟩
          obtain rfl := WriteOutcome.torn.inj hleft
          exact hfile.symm

theorem view_injective {users users' : Users} (h : users.view = users'.view) : users = users' :=
  Std.ExtTreeMap.ext_getElem? fun k => congrFun h k

theorem run_users_eq :
    (Prog.runE (IamOp.handle io) (c.run S) s).2.users = s.users ↔ c.Idle S s.users := by
  unfold IamCall.Idle
  rw [← IamCall.view_run S c io s]
  exact ⟨fun h => by rw [h], view_injective⟩

end IamStore

/-- A failed change leaves no trace exactly if it was turned down, or could not fail, or
changes nothing and its write breaks off nothing. -/
theorem failed_change_leaves_no_trace_iff (S : IamStore) (c : IamCall) (io : IamIo)
    (s : IamState) : LeavesNoTrace S c io s ↔
      c.Refused S s.users ∨ io.Works ∨ (c.Idle S s.users ∧ io.Spares s.file) := by
  by_cases hrefused : c.Refused S s.users
  · refine ⟨fun _ => .inl hrefused, fun _ e _ => ?_⟩
    obtain ⟨e', hrun⟩ : ∃ e, Prog.runE (IamOp.handle io) (c.run S) s = (.error e, s) :=
      IamStore.run_refused hrefused
    rw [hrun]
    exact ⟨rfl, fun _ _ => rfl, rfl⟩
  obtain ⟨users, hrun⟩ : ∃ users, Prog.runE (IamOp.handle io) (c.run S) s =
      IamStore.persisted io users s.file := IamStore.run_accepted hrefused
  by_cases hworks : io.Works
  · refine ⟨fun _ => .inr (.inl hworks), fun _ e he => ?_⟩
    rw [hrun, IamStore.persisted_isOk.2 hworks] at he
    cases he
  have hfile : (Prog.runE (IamOp.handle io) (c.run S) s).2.file = s.file ↔ io.Spares s.file := by
    rw [hrun]
    exact IamStore.persisted_file hworks
  have hfails : ∃ e, (Prog.runE (IamOp.handle io) (c.run S) s).1 = .error e := by
    rw [hrun]
    cases h : (IamStore.persisted io users s.file).1 with
    | error e => exact ⟨e, rfl⟩
    | ok u => exact absurd (IamStore.persisted_isOk.1 h) hworks
  constructor
  · intro h
    obtain ⟨e, he⟩ := hfails
    obtain ⟨husers, -, hkept⟩ := h e he
    exact .inr (.inr ⟨IamStore.run_users_eq.1 husers, hfile.1 hkept⟩)
  · rintro (h | h | ⟨hidle, hspares⟩)
    · exact absurd h hrefused
    · exact absurd h hworks
    · intro e _
      have husers : (Prog.runE (IamOp.handle io) (c.run S) s).2.users = s.users :=
        IamStore.run_users_eq.2 hidle
      refine ⟨husers, fun now k => ?_, hfile.2 hspares⟩
      rw [husers]

/-- The disk is full: a user that is removed is gone although the call failed, and what is
left of the file is no user list. -/
theorem failed_change_leaves_trace :
    ¬∀ (S : IamStore) (c : IamCall) (io : IamIo) (s : IamState), LeavesNoTrace S c io s := by
  intro h
  have hview := (h plainStore (.removeUser "alice".toList) ⟨true, .torn []⟩
    (plainStore.load (some "alice:pw".toList) true none) (.internal "write users") rfl).2.1 0
      "alice".toList
  revert hview
  decide

end Kerplace
