/-
# `Kerplace.Handlers.Secrets` — nothing answers with a secret key

What users have for secret keys is written and never read by the handlers that manage users: two
stores that differ in secret keys only stay so under every request, and under a restart, and each
request is answered the same over both.
-/
import Kerplace.Handlers.Admin

namespace Kerplace

/-! ## Without the secret keys -/

/-- A user, less the secret key. -/
def StoredUser.blank (u : StoredUser) : StoredUser := { u with secretKey := [] }

/-- The users, less their secret keys. -/
def Users.blank (users : Users) : Users := users.map fun _ u => u.blank

/-- A users file, less the secret keys in it. -/
def blankFile (file : Option (Content Users)) : Option (Content Users) :=
  file.map fun
    | .doc users => .doc users.blank
    | .raw left => .raw left

/-- The store, less the secret keys. -/
def IamState.blank (s : IamState) : IamState := ⟨s.users.blank, blankFile s.file⟩

theorem getElem?_blank (users : Users) (k : Str) :
    users.blank[k]? = users[k]?.map StoredUser.blank := by
  simp [Users.blank]

theorem blank_insert (users : Users) (k : Str) (u : StoredUser) :
    Users.blank (users.insert k u) = users.blank.insert k u.blank := by
  refine Std.ExtTreeMap.ext_getElem? fun x => ?_
  rw [getElem?_blank, Std.ExtTreeMap.getElem?_insert, Std.ExtTreeMap.getElem?_insert,
    getElem?_blank]
  split
  · rfl
  · rfl

theorem blank_erase (users : Users) (k : Str) :
    Users.blank (users.erase k) = users.blank.erase k := by
  refine Std.ExtTreeMap.ext_getElem? fun x => ?_
  rw [getElem?_blank, Std.ExtTreeMap.getElem?_erase, Std.ExtTreeMap.getElem?_erase,
    getElem?_blank]
  split
  · rfl
  · rfl

theorem blank_insertIfNew (users : Users) (k : Str) (u : StoredUser) :
    Users.blank (users.insertIfNew k u) = users.blank.insertIfNew k u.blank := by
  have hmem : k ∈ users.blank ↔ k ∈ users := Std.ExtTreeMap.mem_map
  refine Std.ExtTreeMap.ext_getElem? fun x => ?_
  rw [getElem?_blank, Std.ExtTreeMap.getElem?_insertIfNew,
    Std.ExtTreeMap.getElem?_insertIfNew, getElem?_blank]
  simp only [hmem]
  split
  · rfl
  · rfl

/-- Two stores that differ in secret keys only. -/
def Alike (s s' : IamState) : Prop := s.blank = s'.blank

/-- The same answer, and states that differ in secret keys only. -/
def SameAnswer {α : Type} (x y : α × IamState) : Prop := x.1 = y.1 ∧ Alike x.2 y.2

/-- A change that goes the same way over users that differ in secret keys only. -/
def Unread (f : Users → Except S3Error Users) : Prop :=
  ∀ users users' : Users, users.blank = users'.blank →
    (f users).map Users.blank = (f users').map Users.blank

theorem Alike.users {s s' : IamState} (h : Alike s s') : s.users.blank = s'.users.blank :=
  congrArg IamState.users h

theorem Alike.file {s s' : IamState} (h : Alike s s') : blankFile s.file = blankFile s'.file :=
  congrArg IamState.file h

theorem Alike.of {s s' : IamState} (husers : s.users.blank = s'.users.blank)
    (hfile : blankFile s.file = blankFile s'.file) : Alike s s' := by
  unfold Alike IamState.blank
  rw [husers, hfile]

theorem Alike.getElem? {users users' : Users} (h : users.blank = users'.blank) (k : Str) :
    users[k]?.map StoredUser.blank = users'[k]?.map StoredUser.blank := by
  rw [← getElem?_blank, ← getElem?_blank, h]

theorem unread_erase (k : Str) : Unread fun users => .ok (users.erase k) := by
  intro users users' h
  change Except.ok _ = Except.ok _
  rw [blank_erase, blank_erase, h]

theorem unread_insert {k : Str} {f : Option StoredUser → StoredUser}
    (hf : ∀ u u', u.map StoredUser.blank = u'.map StoredUser.blank → (f u).blank = (f u').blank) :
    Unread fun users => .ok (users.insert k (f users[k]?)) := by
  intro users users' h
  change Except.ok _ = Except.ok _
  rw [blank_insert, blank_insert, h, hf _ _ (Alike.getElem? h k)]

theorem unread_modifyUser {k : Str} {f : StoredUser → StoredUser}
    (hf : ∀ u u', u.blank = u'.blank → (f u).blank = (f u').blank) : Unread (modifyUser k f) := by
  intro users users' h
  have hk := Alike.getElem? h k
  unfold modifyUser
  cases hu : users[k]? with
  | none =>
      rw [hu] at hk
      rw [Option.map_eq_none_iff.1 hk.symm]
  | some u =>
      rw [hu] at hk
      obtain ⟨u', hu', heq⟩ := Option.map_eq_some_iff.1 hk.symm
      rw [hu']
      change Except.ok _ = Except.ok _
      rw [blank_insert, blank_insert, h, hf _ _ heq.symm]

theorem StoredUser.blank_eq {u u' : StoredUser} (h : u.blank = u'.blank) :
    u.policy = u'.policy ∧ u.enabled = u'.enabled ∧ u.buckets = u'.buckets := by
  obtain ⟨-, hpolicy, henabled, hbuckets⟩ := StoredUser.mk.inj h
  exact ⟨hpolicy, henabled, hbuckets⟩

/-- No call reads a secret key. -/
theorem IamCall.run_unread (S : IamStore) (c : IamCall) :
    (∃ e, c.run S = throw e) ∨
      ∃ f, c.run S = (do IamOp.change f; IamStore.persist) ∧ Unread f := by
  cases c with
  | addUser k sk policy =>
      simp only [IamCall.run, IamStore.addUser]
      split
      · exact .inl ⟨_, rfl⟩
      · split
        · exact .inl ⟨_, rfl⟩
        · refine .inr ⟨_, rfl, unread_insert (f := fun u => ⟨sk, policy, true,
            u.bind StoredUser.buckets⟩) fun u u' h => ?_⟩
          cases u with
          | none => rw [Option.map_eq_none_iff.1 h.symm]
          | some u =>
              obtain ⟨v, rfl, heq⟩ := Option.map_eq_some_iff.1 h.symm
              obtain ⟨-, -, hbuckets⟩ := StoredUser.blank_eq heq
              simp only [Option.bind_some, hbuckets]
  | removeUser k =>
      simp only [IamCall.run, IamStore.removeUser]
      split
      · exact .inl ⟨_, rfl⟩
      · exact .inr ⟨_, rfl, unread_erase k⟩
  | setStatus k enabled =>
      refine .inr ⟨_, rfl, unread_modifyUser fun u u' h => ?_⟩
      obtain ⟨hpolicy, -, hbuckets⟩ := StoredUser.blank_eq h
      simp only [StoredUser.blank, hpolicy, hbuckets]
  | setPolicy k policy =>
      simp only [IamCall.run, IamStore.setPolicy]
      split
      · exact .inl ⟨_, rfl⟩
      · refine .inr ⟨_, rfl, unread_modifyUser fun u u' h => ?_⟩
        obtain ⟨-, henabled, hbuckets⟩ := StoredUser.blank_eq h
        simp only [StoredUser.blank, henabled, hbuckets]
  | setBuckets k buckets =>
      simp only [IamCall.run, IamStore.setBuckets]
      split
      · exact .inl ⟨_, rfl⟩
      · refine .inr ⟨_, rfl, unread_modifyUser fun u u' h => ?_⟩
        obtain ⟨hpolicy, henabled, -⟩ := StoredUser.blank_eq h
        simp only [StoredUser.blank, hpolicy, henabled]
  | policyAssoc k policies attach =>
      simp only [IamCall.run, IamStore.policyAssoc, IamStore.setPolicy]
      split
      · exact .inl ⟨_, rfl⟩
      · split
        · exact .inl ⟨_, rfl⟩
        · refine .inr ⟨_, rfl, unread_modifyUser fun u u' h => ?_⟩
          obtain ⟨-, henabled, hbuckets⟩ := StoredUser.blank_eq h
          simp only [StoredUser.blank, henabled, hbuckets]

theorem persisted_alike {users users' : Users} {file file' : Option (Content Users)} (io : IamIo)
    (husers : users.blank = users'.blank) (hfile : blankFile file = blankFile file') :
    SameAnswer (IamStore.persisted io users file) (IamStore.persisted io users' file') := by
  have hdoc : blankFile (some (.doc users)) = blankFile (some (.doc users')) :=
    congrArg (fun d => some (Content.doc d)) husers
  unfold IamStore.persisted
  split
  · split
    · exact ⟨rfl, .of husers hdoc⟩
    · exact ⟨rfl, .of husers hfile⟩
    · exact ⟨rfl, .of husers rfl⟩
  · exact ⟨rfl, .of husers hfile⟩

/-- An identity, less the secret key. -/
def Identity.blank (id : Identity) : Identity := { id with secretKey := [] }

theorem list_alike (S : IamStore) {users users' : Users} (h : users.blank = users'.blank) :
    (S.list users).map Identity.blank = (S.list users').map Identity.blank := by
  have hblank (users : Users) : (S.list users).map Identity.blank =
      S.root.blank :: users.blank.toList.map fun u => u.2.identity u.1 := by
    rw [Users.blank, Std.ExtTreeMap.toList_map, List.map_map, IamStore.list, List.map_cons,
      List.map_map]
    rfl
  rw [hblank, hblank, h]

theorem resolve_alike (S : IamStore) {users users' : Users} (h : users.blank = users'.blank)
    (now : Int) (k : Str) :
    (S.resolve now users k).map Identity.blank = (S.resolve now users' k).map Identity.blank := by
  have hblank (users : Users) : (users[k]?.map fun u => u.identity k).map Identity.blank =
      (users[k]?.map StoredUser.blank).map fun u => u.identity k := by
    rw [Option.map_map, Option.map_map]
    rfl
  unfold IamStore.resolve
  split
  · rfl
  · split
    · rfl
    · rw [hblank, hblank, Alike.getElem? h]

namespace AdminServer

variable {A : AdminServer} {s s' : IamState}

theorem callIam_alike (h : Alike s s') (io : IamIo) (c : IamCall) :
    SameAnswer (A.callIam io c s) (A.callIam io c s') := by
  unfold callIam
  rcases c.run_unread A.iam with ⟨e, hrun⟩ | ⟨f, hrun, hunread⟩
  · rw [hrun]
    exact ⟨rfl, h⟩
  · rw [hrun, IamStore.runE_change_persist, IamStore.runE_change_persist]
    have hf := hunread _ _ h.users
    cases hs : f s.users with
    | error e =>
        rw [hs] at hf
        cases hs' : f s'.users with
        | error e' =>
            rw [hs'] at hf
            obtain rfl := Except.error.inj hf
            exact ⟨rfl, h⟩
        | ok users' =>
            rw [hs'] at hf
            cases hf
    | ok users =>
        rw [hs] at hf
        cases hs' : f s'.users with
        | error e' =>
            rw [hs'] at hf
            cases hf
        | ok users' =>
            rw [hs'] at hf
            exact persisted_alike io (Except.ok.inj hf) h.file

theorem change_alike (h : Alike s s') (io : IamIo) (c : IamCall) :
    SameAnswer (A.change io c s) (A.change io c s') := by
  obtain ⟨hanswer, halike⟩ := callIam_alike (A := A) h io c
  exact ⟨congrArg UserAnswer.ofDone hanswer, halike⟩

theorem addUser_alike (h : Alike s s') (t : UserTurn) (identity : Option Identity)
    (query : Str → Option Str) (body : Bytes) :
    SameAnswer (A.addUser t identity query body s) (A.addUser t identity query body s') := by
  unfold addUser
  cases query "accessKey".toList with
  | none => exact ⟨rfl, h⟩
  | some accessKey =>
      dsimp only
      cases A.openBody "UserInfo" identity body with
      | error e => exact ⟨rfl, h⟩
      | ok doc =>
          dsimp only
          generalize IamCall.addUser accessKey _ _ = c
          obtain ⟨hanswer, hadded⟩ := callIam_alike (A := A) h t.io c
          rw [hanswer]
          cases (A.callIam t.io c s').1 with
          | error e => exact ⟨rfl, hadded⟩
          | ok done =>
              dsimp only
              split
              · exact ⟨rfl, (callIam_alike hadded t.again _).2⟩
              · exact ⟨rfl, hadded⟩

theorem policyAssoc_alike (h : Alike s s') (t : UserTurn) (identity : Option Identity)
    (body : Bytes) (attach : Bool) :
    SameAnswer (A.policyAssoc t identity body attach s)
      (A.policyAssoc t identity body attach s') := by
  unfold policyAssoc
  cases A.openBody "PolicyAssociationReq" identity body with
  | error e => exact ⟨rfl, h⟩
  | ok doc =>
      dsimp only
      generalize IamCall.policyAssoc _ _ attach = c
      obtain ⟨hanswer, hassociated⟩ := callIam_alike (A := A) h t.io c
      rw [hanswer]
      cases (A.callIam t.io c s').1 with
      | error e => exact ⟨rfl, hassociated⟩
      | ok done => exact ⟨rfl, hassociated⟩

theorem listUsers_alike (h : Alike s s') (t : UserTurn) (identity : Option Identity) :
    SameAnswer (A.listUsers t identity s) (A.listUsers t identity s') := by
  have hshown (ids : List Identity) : (ids.filter fun id =>
      decide (id.accessKey ≠ A.iam.rootKey)).map (fun id => (id.accessKey, userJson id)) =
      ((ids.map Identity.blank).filter fun id =>
        decide (id.accessKey ≠ A.iam.rootKey)).map fun id => (id.accessKey, userJson id) := by
    rw [List.filter_map, List.map_map]
    rfl
  unfold listUsers userMap
  rw [hshown, list_alike A.iam h.users, ← hshown]
  exact ⟨rfl, h⟩

theorem consoleListUsers_alike (h : Alike s s') :
    SameAnswer (A.consoleListUsers s) (A.consoleListUsers s') := by
  have hshown (ids : List Identity) :
      ids.map A.consoleJson = (ids.map Identity.blank).map A.consoleJson := by
    rw [List.map_map]
    rfl
  unfold consoleListUsers
  rw [hshown, list_alike A.iam h.users, ← hshown]
  exact ⟨rfl, h⟩

theorem userInfo_alike (h : Alike s s') (t : UserTurn) (query : Str → Option Str) :
    SameAnswer (A.userInfo t query s) (A.userInfo t query s') := by
  unfold userInfo named
  cases query "accessKey".toList with
  | none => exact ⟨rfl, h⟩
  | some accessKey =>
      dsimp only
      have hresolve := resolve_alike A.iam h.users t.now accessKey
      cases hs : A.iam.resolve t.now s.users accessKey with
      | none =>
          rw [hs] at hresolve
          rw [Option.map_eq_none_iff.1 hresolve.symm]
          exact ⟨rfl, h⟩
      | some id =>
          rw [hs] at hresolve
          obtain ⟨id', hs', heq⟩ := Option.map_eq_some_iff.1 hresolve.symm
          obtain ⟨-, -, hpolicy, henabled, hbuckets⟩ := Identity.mk.inj heq
          rw [hs']
          dsimp only
          split
          · rw [hpolicy, henabled, hbuckets]
            exact ⟨rfl, h⟩
          · exact ⟨rfl, h⟩

theorem named_alike (h : Alike s s') (query : Str → Option Str)
    {f f' : Str → UserAnswer × IamState} (hf : ∀ k, SameAnswer (f k) (f' k)) :
    SameAnswer (named query f s) (named query f' s') := by
  unfold named
  cases query "accessKey".toList with
  | none => exact ⟨rfl, h⟩
  | some accessKey => exact hf accessKey

/-- No request reads a secret key. -/
theorem handle_alike (h : Alike s s') (t : UserTurn) :
    SameAnswer (A.handle t s) (A.handle t s') := by
  unfold handle
  cases t.call with
  | admin handler identity query body =>
      cases handler with
      | info => exact ⟨rfl, h⟩
      | heal => exact ⟨rfl, h⟩
      | addUser => exact addUser_alike h t identity query body
      | listUsers => exact listUsers_alike h t identity
      | removeUser => exact named_alike h query fun k => change_alike h t.io _
      | setUserStatus => exact named_alike h query fun k => change_alike h t.io _
      | setUserBuckets =>
          refine named_alike h query fun k => ?_
          cases query "buckets".toList with
          | none => exact ⟨rfl, h⟩
          | some raw => exact change_alike h t.io _
      | userInfo => exact userInfo_alike h t query
      | attachPolicy => exact policyAssoc_alike h t identity body true
      | detachPolicy => exact policyAssoc_alike h t identity body false
  | console c =>
      cases c with
      | listUsers => exact consoleListUsers_alike h
      | addUser accessKey secretKey policy => exact change_alike h t.io _
      | deleteUser accessKey => exact change_alike h t.io _
      | setUserStatus accessKey enabled => exact change_alike h t.io _

theorem fileUsers_alike (readable : Bool) {file file' : Option (Content Users)}
    (h : blankFile file = blankFile file') :
    (fileUsers readable file).blank = (fileUsers readable file').blank := by
  have hread (file : Option (Content Users)) : (fileUsers readable file).blank =
      if readable then (((blankFile file).bind Content.doc?).getD ∅) else ∅ := by
    have hempty : (∅ : Users).blank = ∅ :=
      Std.ExtTreeMap.ext_getElem? fun k => by rw [getElem?_blank]; rfl
    unfold fileUsers
    split
    · cases file with
      | none => exact hempty
      | some content =>
          cases content with
          | doc users => rfl
          | raw left => exact hempty
    · exact hempty
  rw [hread, hread, h]

theorem load_alike (S : IamStore) (seed : Option Str) (readable : Bool)
    {file file' : Option (Content Users)} (h : blankFile file = blankFile file') :
    Alike (S.load seed readable file) (S.load seed readable file') := by
  refine .of ?_ h
  have hfile := fileUsers_alike readable h
  unfold IamStore.load
  dsimp only
  generalize seedUsers S.rootKey seed = entries
  generalize fileUsers readable file = users at hfile ⊢
  generalize fileUsers readable file' = users' at hfile ⊢
  induction entries generalizing users users' with
  | nil => exact hfile
  | cons e entries ih =>
      refine ih _ _ ?_
      rw [blank_insertIfNew, blank_insertIfNew, hfile]

/-- Secret keys are written and never read.  Over any run of requests about users and of restarts,
from two stores that differ in secret keys only, every request is answered the same: what the
admin API and the console answer says nothing of them, in its text or by its being there. -/
theorem secrets_unread (seed : Option Str) (steps : List Step) {s s' : IamState}
    (h : Alike s s') :
    ((A.machine seed).visits s steps).map Visit.answer =
      ((A.machine seed).visits s' steps).map Visit.answer := by
  induction steps generalizing s s' with
  | nil => rfl
  | cons step steps ih =>
      rw [Machine.visits_cons, Machine.visits_cons, List.map_cons, List.map_cons]
      cases step with
      | request t =>
          obtain ⟨hanswer, halike⟩ := handle_alike (A := A) h t
          exact congrArg₂ List.cons hanswer (ih halike)
      | restart readable =>
          exact congrArg₂ List.cons rfl (ih (load_alike A.iam seed readable h.file))

/-- A server whose libraries fail. -/
def muteServer : AdminServer where
  iam := plainStore
  ciphers := ⟨fun _ _ => none, fun _ _ => [], ⟨fun _ _ _ _ => [], fun _ _ _ _ => none⟩,
    ⟨fun _ _ _ _ => [], fun _ _ _ _ => none⟩⟩
  fromSlice _ := .error "no document"
  toVec _ := []

/-- A store with one member. -/
def oneMember (secretKey : String) : IamState :=
  ⟨(∅ : Users).insert "member".toList ⟨secretKey.toList, "readwrite".toList, true, none⟩, none⟩

/-- The console asks for the users. -/
def consoleLists : UserTurn where
  call := .console .listUsers
  now := 0
  drawn := Madmin.Ciphers.zeros
  io := .fine
  again := .fine

/-- Whatever the member's secret key. -/
theorem secrets_unread_member :
    ((muteServer.machine none).visits (oneMember "one") [.request consoleLists]).map
        Visit.answer =
      ((muteServer.machine none).visits (oneMember "two") [.request consoleLists]).map
        Visit.answer := by
  refine secrets_unread none _ (.of ?_ rfl)
  change Users.blank (Std.ExtTreeMap.insert _ _ _) = Users.blank (Std.ExtTreeMap.insert _ _ _)
  rw [blank_insert, blank_insert]
  rfl

end AdminServer

end Kerplace
