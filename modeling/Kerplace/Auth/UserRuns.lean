/-
# `Kerplace.Auth.UserRuns` — what becomes of a user over calls and restarts

Alone, a call changes one entry of the map and leaves the file as it was, broken off, or
equal to the map.  So a user that was removed is in neither, and stays out of both until
it is added again, except that a restart puts back whom the seed list names.

What the store looks up is compared with a plain map the calls are folded over.
-/
import Kerplace.Auth.Users

namespace Kerplace

namespace IamStore

variable {S : IamStore}

/-! ## A call alone -/

/-- What a call whose change was accepted answers and leaves. -/
def persisted (io : IamIo) (users : Users) (file : Option (Content Users)) :
    Except S3Error Unit × IamState :=
  if io.dir then
    match io.file with
    | .done => (.ok (), ⟨users, some (.doc users)⟩)
    | .refused => (.error (.internal "write users"), ⟨users, file⟩)
    | .torn left => (.error (.internal "write users"), ⟨users, some (.raw left)⟩)
  else (.error (.internal "mkdir iam"), ⟨users, file⟩)

theorem runE_ask (io : IamIo) (o : IamOp) (s : IamState) :
    Prog.runE (IamOp.handle io) o.ask s = (.ok (o.handle io s).1, (o.handle io s).2) := rfl

theorem runE_persist (io : IamIo) (s : IamState) :
    Prog.runE (IamOp.handle io) persist s = persisted io s.users s.file := by
  rcases io with ⟨dir, out⟩
  cases dir <;> cases out <;> rfl

theorem runE_change_persist (io : IamIo) (f : Users → Except S3Error Users) (s : IamState) :
    Prog.runE (IamOp.handle io) (do IamOp.change f; persist) s =
      match f s.users with
      | .ok users => persisted io users s.file
      | .error e => (.error e, s) := by
  rw [Prog.runE_bind, IamOp.change, Prog.runE_bind, runE_ask, Prog.andThen_ok,
    Prog.runE_ofExcept]
  cases hf : f s.users with
  | error e => simp [IamOp.handle, hf]
  | ok users => simp [IamOp.handle, hf, runE_persist]

@[simp] theorem persisted_users (io : IamIo) (users : Users) (file : Option (Content Users)) :
    (persisted io users file).2.users = users := by
  unfold persisted
  split
  · split <;> rfl
  · rfl

theorem persisted_ok {io : IamIo} {users : Users} {file : Option (Content Users)}
    (h : (persisted io users file).1 = .ok ()) :
    (persisted io users file).2.file = some (.doc users) := by
  unfold persisted at h ⊢
  split at h
  · rename_i hdir
    rw [if_pos hdir]
    split at h
    · rfl
    · cases h
    · cases h
  · cases h

theorem doc_persisted {io : IamIo} {users doc : Users} {file : Option (Content Users)}
    (h : (persisted io users file).2.file = some (.doc doc)) :
    file = some (.doc doc) ∨ doc = users := by
  unfold persisted at h
  split at h
  · split at h
    · exact .inr (Content.doc.inj (Option.some.inj h)).symm
    · exact .inl h
    · cases Option.some.inj h
  · exact .inl h

end IamStore

/-- A call is refused before it touches anything, or is a change and its copy. -/
theorem IamCall.run_cases (S : IamStore) (c : IamCall) :
    (∃ e, c.run S = throw e) ∨ ∃ f, c.run S = (do IamOp.change f; IamStore.persist) := by
  cases c with
  | addUser k sk policy =>
      simp only [IamCall.run, IamStore.addUser]
      split
      · exact .inl ⟨_, rfl⟩
      · split
        · exact .inl ⟨_, rfl⟩
        · exact .inr ⟨_, rfl⟩
  | removeUser k =>
      simp only [IamCall.run, IamStore.removeUser]
      split
      · exact .inl ⟨_, rfl⟩
      · exact .inr ⟨_, rfl⟩
  | setStatus k enabled => exact .inr ⟨_, rfl⟩
  | setPolicy k policy =>
      simp only [IamCall.run, IamStore.setPolicy]
      split
      · exact .inl ⟨_, rfl⟩
      · exact .inr ⟨_, rfl⟩
  | setBuckets k buckets =>
      simp only [IamCall.run, IamStore.setBuckets]
      split
      · exact .inl ⟨_, rfl⟩
      · exact .inr ⟨_, rfl⟩
  | policyAssoc k policies attach =>
      simp only [IamCall.run, IamStore.policyAssoc, IamStore.setPolicy]
      split
      · exact .inl ⟨_, rfl⟩
      · split
        · exact .inl ⟨_, rfl⟩
        · exact .inr ⟨_, rfl⟩

/-! ## The calls as changes of a plain map -/

/-- A map of users, as a function. -/
abbrev UserMap := Str → Option StoredUser

/-- The user map as a function. -/
def Users.view (users : Users) : UserMap := fun k => users[k]?

namespace UserMap

/-- Change the user of a key, if there is one. -/
def amend (m : UserMap) (k : Str) (f : StoredUser → StoredUser) : UserMap :=
  Function.update m k ((m k).map f)

/-- The scope of a user. -/
def scope (m : UserMap) (k : Str) : Option (Option (List Str)) := (m k).map StoredUser.buckets

end UserMap

/-- What a call asks for, on a plain map. -/
def IamCall.fold (S : IamStore) (m : UserMap) : IamCall → UserMap
  | .addUser k sk policy =>
      if k = [] ∨ sk = [] ∨ k = S.rootKey then m
      else Function.update m k (some ⟨sk, policy, true, (m k).bind StoredUser.buckets⟩)
  | .removeUser k => if k = S.rootKey then m else Function.update m k none
  | .setStatus k enabled => m.amend k fun u => { u with enabled }
  | .setPolicy k policy => if k = S.rootKey then m else m.amend k fun u => { u with policy }
  | .setBuckets k buckets => if k = S.rootKey then m else m.amend k fun u => { u with buckets }
  | .policyAssoc k policies attach =>
      if k = [] ∨ k = S.rootKey then m
      else m.amend k fun u =>
        { u with policy := if attach then policies.head?.getD [] else [] }

theorem view_insert (users : Users) (k : Str) (u : StoredUser) :
    Users.view (users.insert k u) = Function.update users.view k (some u) := by
  funext x
  by_cases hx : x = k
  · subst hx
    simp [Users.view]
  · rw [Function.update_of_ne hx]
    simp [Users.view, Std.ExtTreeMap.getElem?_insert, Ne.symm hx]

theorem view_erase (users : Users) (k : Str) :
    Users.view (users.erase k) = Function.update users.view k none := by
  funext x
  by_cases hx : x = k
  · subst hx
    simp [Users.view]
  · rw [Function.update_of_ne hx]
    simp [Users.view, Std.ExtTreeMap.getElem?_erase, Ne.symm hx]

theorem amend_of_none {m : UserMap} {k : Str} {f : StoredUser → StoredUser} (h : m k = none) :
    m.amend k f = m := by
  unfold UserMap.amend
  rw [h, Option.map_none, ← h, Function.update_eq_self]

theorem view_modifyUser (io : IamIo) (k : Str) (f : StoredUser → StoredUser) (s : IamState) :
    (Prog.runE (IamOp.handle io)
      (do IamOp.change (modifyUser k f); IamStore.persist) s).2.users.view =
      s.users.view.amend k f := by
  rw [IamStore.runE_change_persist]
  unfold modifyUser
  cases hu : s.users[k]? with
  | none => exact (amend_of_none hu).symm
  | some u =>
      have hview : s.users.view k = some u := hu
      simp only [IamStore.persisted_users, view_insert, UserMap.amend, hview, Option.map_some]

/-- A call does to the map what it asks for. -/
theorem IamCall.view_run (S : IamStore) (c : IamCall) (io : IamIo) (s : IamState) :
    (Prog.runE (IamOp.handle io) (c.run S) s).2.users.view = c.fold S s.users.view := by
  cases c with
  | addUser k sk policy =>
      simp only [IamCall.run, IamStore.addUser, IamCall.fold]
      by_cases hempty : k = [] ∨ sk = []
      · rw [if_pos hempty, if_pos (or_assoc.1 (.inl hempty))]
        rfl
      · by_cases hroot : k = S.rootKey
        · rw [if_neg hempty, if_pos hroot, if_pos (.inr (.inr hroot))]
          rfl
        · rw [if_neg hempty, if_neg hroot,
            if_neg fun h => (or_assoc.2 h).elim hempty hroot, IamStore.runE_change_persist]
          simp only [IamStore.persisted_users, view_insert]
          rfl
  | removeUser k =>
      simp only [IamCall.run, IamStore.removeUser, IamCall.fold]
      split
      · rfl
      · rw [IamStore.runE_change_persist]
        simp only [IamStore.persisted_users, view_erase]
  | setStatus k enabled => exact view_modifyUser io k _ s
  | setPolicy k policy =>
      simp only [IamCall.run, IamStore.setPolicy, IamCall.fold]
      split
      · rfl
      · exact view_modifyUser io k _ s
  | setBuckets k buckets =>
      simp only [IamCall.run, IamStore.setBuckets, IamCall.fold]
      split
      · rfl
      · exact view_modifyUser io k _ s
  | policyAssoc k policies attach =>
      simp only [IamCall.run, IamStore.policyAssoc, IamStore.setPolicy, IamCall.fold]
      by_cases hempty : k = []
      · rw [if_pos hempty, if_pos (.inl hempty)]
        rfl
      · by_cases hroot : k = S.rootKey
        · rw [if_neg hempty, if_pos hroot, if_pos (.inr hroot)]
          rfl
        · rw [if_neg hempty, if_neg hroot, if_neg (not_or.2 ⟨hempty, hroot⟩)]
          exact view_modifyUser io k _ s

/-! ## Temporary credentials -/

theorem resolveSts_of_not_begins {S : IamStore} {now : Int} {k : Str}
    (h : ¬ stsPrefix.isPrefixOf k) : S.resolveSts now k = none := by
  refine Option.eq_none_iff_forall_ne_some.2 fun id hid => h ?_
  obtain ⟨b64, hb64, -⟩ := Option.bind_eq_some_iff.1 hid
  obtain ⟨p, rfl, hp⟩ := List.dropPrefix?_eq_some_iff.1 hb64
  rw [eq_of_beq hp]
  exact List.isPrefixOf_iff_prefix.2 (List.prefix_append _ _)

/-- A temporary credential that has expired does not come back. -/
theorem resolveSts_mono {S : IamStore} {now later : Int} {k : Str} {id : Identity}
    (hle : now ≤ later) (h : S.resolveSts later k = some id) :
    S.resolveSts now k = some id := by
  simp only [IamStore.resolveSts] at h ⊢
  obtain ⟨b64, hb64, h⟩ := Option.bind_eq_some_iff.1 h
  obtain ⟨blob, hblob, h⟩ := Option.bind_eq_some_iff.1 h
  refine Option.bind_eq_some_iff.2 ⟨b64, hb64, Option.bind_eq_some_iff.2 ⟨blob, hblob, ?_⟩⟩
  split at h
  · cases h
  · split at h
    · cases h
    · rename_i hlen htag
      obtain ⟨policy, hpolicy, h⟩ := Option.bind_eq_some_iff.1 h
      rw [if_neg hlen, if_neg htag]
      refine Option.bind_eq_some_iff.2 ⟨policy, hpolicy, ?_⟩
      split at h
      · cases h
      · rename_i hexp
        rw [if_neg fun hnow => hexp (hnow.trans hle)]
        exact h

theorem Policy.name_ne_nil (p : Policy) : p.name ≠ [] := by
  cases p <;> decide

theorem policy_resolveSts {S : IamStore} {now : Int} {k : Str} {id : Identity}
    (h : S.resolveSts now k = some id) : id.policy ≠ [] := by
  simp only [IamStore.resolveSts] at h
  obtain ⟨b64, -, h⟩ := Option.bind_eq_some_iff.1 h
  obtain ⟨blob, -, h⟩ := Option.bind_eq_some_iff.1 h
  split at h
  · cases h
  · split at h
    · cases h
    · obtain ⟨policy, -, h⟩ := Option.bind_eq_some_iff.1 h
      split at h
      · cases h
      · obtain rfl := Option.some.inj h
        exact policy.name_ne_nil

/-! ## Runs of calls against a plain map -/

/-- A call, whatever its file operations do, as a step of the store. -/
def callStep (c : IamCall × IamIo) : IamStep := .call c.1 c.2

/-- The store after some calls. -/
def IamStore.after (S : IamStore) (s : IamState) (calls : List (IamCall × IamIo)) : IamState :=
  (S.machine none).final s (calls.map callStep)

/-- The plain map after them. -/
def IamStore.folded (S : IamStore) (m : UserMap) (calls : List (IamCall × IamIo)) : UserMap :=
  calls.foldl (fun m c => c.1.fold S m) m

/-- What a key stands for on a plain map: the root, the user of the map, and only where it
has none a temporary credential. -/
def IamStore.lookUp (S : IamStore) (now : Int) (m : UserMap) (k : Str) : Option Identity :=
  if k = S.rootKey then some S.root
  else
    match m k with
    | some u => some (u.identity k)
    | none => S.resolveSts now k

/-- A request under a key may do something of this kind: the key resolves, to an identity that
`verify` does not turn away as disabled and whose policy allows it. -/
def IamStore.Permits (S : IamStore) (now : Int) (users : Users) (k : Str) (a : Action) : Prop :=
  ∃ id, S.resolve now users k = some id ∧ id.enabled = true ∧
    (Policy.fromName id.policy).allows a = true

/-- The calls that are there to change the scope of a key, or to end it. -/
def IamCall.Rescopes (k : Str) : IamCall → Prop
  | .setBuckets k' _ => k' = k
  | .removeUser k' => k' = k
  | _ => False

/-- The store is, for one key and after some calls, the credential map they make. -/
structure RefinesMap (S : IamStore) (s : IamState) (calls : List (IamCall × IamIo)) (now : Int)
    (k : Str) : Prop where
  resolves : S.resolve now (S.after s calls).users k =
    S.lookUp now (S.folded s.users.view calls) k
  denied : ∀ u, k ≠ S.rootKey → S.folded s.users.view calls k = some u → u.policy = [] →
    ∀ a, ¬ S.Permits now (S.after s calls).users k a
  root : S.resolve now (S.after s calls).users S.rootKey = some S.root
  scopes : ∀ before c rest, calls = before ++ c :: rest → ¬ c.1.Rescopes k →
    ∀ b, (S.after s before).users.view.scope k = some b →
      (S.after s (before ++ [c])).users.view.scope k = some b

theorem after_snoc (S : IamStore) (s : IamState) (calls : List (IamCall × IamIo))
    (c : IamCall × IamIo) :
    S.after s (calls ++ [c]) = (Prog.runE (IamOp.handle c.2) (c.1.run S) (S.after s calls)).2 := by
  unfold IamStore.after
  rw [List.map_append, List.map_singleton, Machine.final_snoc]
  rfl

theorem view_after (S : IamStore) (s : IamState) (calls : List (IamCall × IamIo)) :
    (S.after s calls).users.view = S.folded s.users.view calls := by
  induction calls using List.reverseRecOn with
  | nil => rfl
  | append_singleton calls c ih =>
      rw [after_snoc, IamCall.view_run, ih, IamStore.folded, IamStore.folded,
        List.foldl_append]
      rfl

theorem scope_update_of_ne {m : UserMap} {k k' : Str} {u : Option StoredUser} (h : k ≠ k') :
    UserMap.scope (Function.update m k' u) k = m.scope k := by
  unfold UserMap.scope
  rw [Function.update_of_ne h]

theorem scope_amend {m : UserMap} {k k' : Str} {f : StoredUser → StoredUser}
    {b : Option (List Str)} (hf : ∀ u, (f u).buckets = u.buckets) (h : m.scope k = some b) :
    UserMap.scope (m.amend k' f) k = some b := by
  rw [← h]
  by_cases hk : k = k'
  · subst hk
    simp only [UserMap.scope, UserMap.amend, Function.update_self, Option.map_map]
    exact congrArg (fun g => (m k).map g) (funext hf)
  · exact scope_update_of_ne hk

/-- Only a change of scope or a removal changes a scope: a user that is added again keeps
the one it has. -/
theorem scope_fold {S : IamStore} {m : UserMap} {c : IamCall} {k : Str} (hc : ¬ c.Rescopes k)
    {b : Option (List Str)} (h : m.scope k = some b) : (c.fold S m).scope k = some b := by
  cases c with
  | addUser k' sk policy =>
      simp only [IamCall.fold]
      split
      · exact h
      · by_cases hk : k = k'
        · subst hk
          obtain ⟨u, hu, rfl⟩ := Option.map_eq_some_iff.1 h
          simp [UserMap.scope, hu]
        · rw [scope_update_of_ne hk]
          exact h
  | removeUser k' =>
      simp only [IamCall.fold]
      split
      · exact h
      · rw [scope_update_of_ne fun hk => hc hk.symm]
        exact h
  | setStatus k' enabled =>
      refine scope_amend (fun u => ?_) h
      rfl
  | setPolicy k' policy =>
      simp only [IamCall.fold]
      split
      · exact h
      · refine scope_amend (fun u => ?_) h
        rfl
  | setBuckets k' buckets =>
      simp only [IamCall.fold]
      split
      · exact h
      · rw [UserMap.amend, scope_update_of_ne fun hk => hc hk.symm]
        exact h
  | policyAssoc k' policies attach =>
      simp only [IamCall.fold]
      split
      · exact h
      · refine scope_amend (fun u => ?_) h
        rfl

theorem allows_fromName_nil : (Policy.fromName []).allows .read = true := rfl

/-- The store is the credential map at a key exactly when the key is the root's, or no user
is left under it, or one that is disabled or whose policy has a name and whose key is not taken
for a temporary credential, or is taken for one that is that very user. -/
theorem refinesMap_iff (S : IamStore) (s : IamState) (calls : List (IamCall × IamIo))
    (now : Int) (k : Str) :
    RefinesMap S s calls now k ↔
      k = S.rootKey ∨ ∀ u, S.folded s.users.view calls k = some u →
        if stsPrefix.isPrefixOf k then S.resolveSts now k = some (u.identity k)
        else u.policy ≠ [] ∨ u.enabled = false := by
  have hview : ∀ x, (S.after s calls).users[x]? = S.folded s.users.view calls x :=
    congrFun (view_after S s calls)
  constructor
  · rintro ⟨hresolves, hdenied, -, -⟩
    refine or_iff_not_imp_left.2 fun hroot u hu => ?_
    unfold IamStore.resolve IamStore.lookUp at hresolves
    rw [if_neg hroot, if_neg hroot, hu] at hresolves
    split
    · rename_i hsts
      rw [if_pos hsts] at hresolves
      exact hresolves
    · rename_i hsts
      rw [if_neg hsts] at hresolves
      refine or_iff_not_imp_right.2 fun henabled hempty => ?_
      refine hdenied u hroot hu hempty .read ⟨u.identity k, ?_, ?_, ?_⟩
      · unfold IamStore.resolve
        rw [if_neg hroot, if_neg hsts]
        exact hresolves
      · exact Bool.not_eq_false _ ▸ henabled
      · show (Policy.fromName u.policy).allows .read = true
        rw [hempty]
        exact allows_fromName_nil
  · intro hcond
    refine ⟨?_, ?_, if_pos rfl, ?_⟩
    · unfold IamStore.resolve IamStore.lookUp
      by_cases hroot : k = S.rootKey
      · rw [if_pos hroot, if_pos hroot]
      · rw [if_neg hroot, if_neg hroot, hview]
        have hcond := hcond.resolve_left hroot
        cases hu : S.folded s.users.view calls k with
        | none =>
            split
            · rfl
            · rename_i hsts
              exact (resolveSts_of_not_begins hsts).symm
        | some u =>
            have hu := hcond u hu
            split
            · rename_i hsts
              rw [if_pos hsts] at hu
              exact hu
            · rfl
    · rintro u hroot hu hempty a ⟨id, hid, henabled, -⟩
      have hcond := hcond.resolve_left hroot u hu
      split at hcond
      · exact policy_resolveSts hcond hempty
      · rename_i hsts
        unfold IamStore.resolve at hid
        rw [if_neg hroot, if_neg hsts, hview, hu] at hid
        obtain rfl := Option.some.inj hid
        rcases hcond with hnamed | hdisabled
        · exact hnamed hempty
        · exact absurd henabled (Bool.eq_false_iff.1 hdisabled)
    · intro before c rest _ hc b hb
      rw [after_snoc, IamCall.view_run]
      exact scope_fold hc hb

/-- The library functions of a store whose temporary credentials all fail to decode. -/
def plainStore : IamStore :=
  ⟨"root".toList, "rootpw".toList, fun _ _ => [], fun _ => [], fun _ => none⟩

/-- A user whose accepted name begins as a temporary credential's cannot be resolved. -/
theorem refinesMap_prefixed :
    ¬ ∀ (S : IamStore) (s : IamState) (calls : List (IamCall × IamIo)) (now : Int) (k : Str),
      RefinesMap S s calls now k := by
  intro h
  have hresolves := (h plainStore ⟨∅, none⟩
    [(.addUser "KPSTS1".toList "pw".toList "readwrite".toList, .fine)] 0
    "KPSTS1".toList).resolves
  revert hresolves
  decide

/-! ## Removal and restarts -/

/-- A user is neither in the map nor in what a restart would read back. -/
structure Gone (k : Str) (s : IamState) : Prop where
  users : s.users[k]? = none
  file : ∀ doc, s.file = some (.doc doc) → doc[k]? = none

/-- The step adds a user. -/
def IamStep.Adds (k : Str) : IamStep → Prop
  | .call (.addUser k' _ _) _ => k' = k
  | _ => False

/-- The step is a restart. -/
def IamStep.IsRestart : IamStep → Prop
  | .call _ _ => False
  | .restart _ => True

/-- The document in the file after a call is the one before it, or the map. -/
theorem doc_run {S : IamStore} {c : IamCall} {io : IamIo} {s : IamState} {doc : Users}
    (h : (Prog.runE (IamOp.handle io) (c.run S) s).2.file = some (.doc doc)) :
    s.file = some (.doc doc) ∨
      doc = (Prog.runE (IamOp.handle io) (c.run S) s).2.users := by
  rcases c.run_cases S with ⟨e, he⟩ | ⟨f, hf⟩
  · rw [he] at h
    exact .inl h
  · rw [hf, IamStore.runE_change_persist] at h ⊢
    cases hu : f s.users with
    | error e =>
        simp only [hu] at h
        exact .inl h
    | ok users =>
        simp only [hu] at h ⊢
        rw [IamStore.persisted_users]
        exact IamStore.doc_persisted h

/-- A call that returns `Ok` has written the map. -/
theorem file_run {S : IamStore} {c : IamCall} {io : IamIo} {s : IamState}
    (h : (Prog.runE (IamOp.handle io) (c.run S) s).1 = .ok ()) :
    (Prog.runE (IamOp.handle io) (c.run S) s).2.file =
      some (.doc (Prog.runE (IamOp.handle io) (c.run S) s).2.users) := by
  rcases c.run_cases S with ⟨e, he⟩ | ⟨f, hf⟩
  · rw [he] at h
    cases h
  · rw [hf, IamStore.runE_change_persist] at h ⊢
    cases hu : f s.users with
    | error e =>
        simp only [hu] at h
        cases h
    | ok users =>
        simp only [hu] at h ⊢
        rw [IamStore.persisted_users]
        exact IamStore.persisted_ok h

theorem gone_of_removed {S : IamStore} {k : Str} {io : IamIo} {s : IamState}
    (hroot : k ≠ S.rootKey)
    (h : (Prog.runE (IamOp.handle io) ((IamCall.removeUser k).run S) s).1 = .ok ()) :
    Gone k (Prog.runE (IamOp.handle io) ((IamCall.removeUser k).run S) s).2 := by
  have husers : (Prog.runE (IamOp.handle io) ((IamCall.removeUser k).run S) s).2.users[k]? =
      none := by
    have hview := congrFun (IamCall.view_run S (.removeUser k) io s) k
    rw [IamCall.fold, if_neg hroot, Function.update_self] at hview
    exact hview
  refine ⟨husers, fun doc hdoc => ?_⟩
  rw [file_run h] at hdoc
  obtain rfl := Content.doc.inj (Option.some.inj hdoc)
  exact husers

theorem amend_none {m : UserMap} {k k' : Str} {f : StoredUser → StoredUser} (h : m k = none) :
    m.amend k' f k = none := by
  unfold UserMap.amend
  by_cases hk : k = k'
  · subst hk
    rw [Function.update_self, h]
    rfl
  · rw [Function.update_of_ne hk]
    exact h

/-- Only an addition brings a user in. -/
theorem fold_none {S : IamStore} {m : UserMap} {c : IamCall} {k : Str} (h : m k = none)
    (hadd : ∀ io, ¬ (IamStep.call c io).Adds k) : c.fold S m k = none := by
  cases c with
  | addUser k' sk policy =>
      have hk : k ≠ k' := fun hk => hadd .fine hk.symm
      simp only [IamCall.fold]
      split
      · exact h
      · rw [Function.update_of_ne hk]
        exact h
  | removeUser k' =>
      simp only [IamCall.fold]
      split
      · exact h
      · by_cases hk : k = k'
        · subst hk
          rw [Function.update_self]
        · rw [Function.update_of_ne hk]
          exact h
  | setStatus k' enabled => exact amend_none h
  | setPolicy k' policy =>
      simp only [IamCall.fold]
      split
      · exact h
      · exact amend_none h
  | setBuckets k' buckets =>
      simp only [IamCall.fold]
      split
      · exact h
      · exact amend_none h
  | policyAssoc k' policies attach =>
      simp only [IamCall.fold]
      split
      · exact h
      · exact amend_none h

/-- The key is named by the seed list. -/
def Seeded (rootKey : Str) (seed : Option Str) (k : Str) : Prop :=
  k ∈ (seedUsers rootKey seed).map Prod.fst

instance (rootKey : Str) (seed : Option Str) (k : Str) : Decidable (Seeded rootKey seed k) :=
  inferInstanceAs (Decidable (k ∈ _))

theorem isSome_seed {k : Str} :
    ∀ (es : List (Str × StoredUser)) (users : Users),
      (es.foldl (fun users e => users.insertIfNew e.1 e.2) users)[k]?.isSome ↔
        k ∈ es.map Prod.fst ∨ users[k]?.isSome := by
  intro es
  induction es with
  | nil => simp
  | cons e es ih =>
      intro users
      rw [List.foldl_cons, ih, List.map_cons, List.mem_cons]
      by_cases hk : k = e.1
      · subst hk
        simp
      · simp [Std.ExtTreeMap.getElem?_insertIfNew, hk, Ne.symm hk]

theorem isSome_load {S : IamStore} {seed : Option Str} {readable : Bool}
    {file : Option (Content Users)} {k : Str} :
    (S.load seed readable file).users[k]?.isSome ↔
      Seeded S.rootKey seed k ∨ (fileUsers readable file)[k]?.isSome :=
  isSome_seed _ _

theorem Gone.fileUsers {k : Str} {s : IamState} (h : Gone k s) (readable : Bool) :
    (fileUsers readable s.file)[k]? = none := by
  unfold Kerplace.fileUsers
  split
  · cases hf : s.file with
    | none => rfl
    | some c =>
        cases c with
        | raw b => rfl
        | doc doc => exact h.file doc hf
  · rfl

/-- A user who is gone stays gone, unless added again or put back by a restart. -/
theorem gone_step {S : IamStore} {seed : Option Str} {k : Str} {s : IamState} {step : IamStep}
    (h : Gone k s) (hadd : ¬ step.Adds k)
    (hseed : step.IsRestart → ¬ Seeded S.rootKey seed k) :
    Gone k ((S.machine seed).step s step).2 := by
  cases step with
  | call c io =>
      have hnone : ((S.machine seed).step s (.call c io)).2.users[k]? = none := by
        refine (congrFun (IamCall.view_run S c io s) k).trans (fold_none h.users fun io' => ?_)
        cases c <;> exact hadd
      refine ⟨hnone, fun doc hdoc => ?_⟩
      rcases doc_run hdoc with hold | rfl
      · exact h.file doc hold
      · exact hnone
  | restart readable =>
      refine ⟨Option.not_isSome_iff_eq_none.1 fun hsome => ?_, h.file⟩
      rcases isSome_load.1 hsome with hk | hk
      · exact hseed trivial hk
      · rw [h.fileUsers readable] at hk
        cases hk

theorem gone_final {S : IamStore} {seed : Option Str} {k : Str} {s : IamState}
    {steps : List IamStep} (h : Gone k s) (hadd : ∀ c ∈ steps, ¬ c.Adds k)
    (hseed : ∀ c ∈ steps, c.IsRestart → ¬ Seeded S.rootKey seed k) :
    Gone k ((S.machine seed).final s steps) := by
  induction steps generalizing s with
  | nil => exact h
  | cons c steps ih =>
      exact ih (gone_step h (hadd c List.mem_cons_self) (hseed c List.mem_cons_self))
        (fun d hd => hadd d (List.mem_cons_of_mem _ hd))
        (fun d hd => hseed d (List.mem_cons_of_mem _ hd))

/-- A removed key stays unknown until it is added again exactly when, spelling a temporary
credential, it had none left to be taken for, and otherwise when no restart finds it in
the seed list. -/
theorem removed_resolves_none_iff (S : IamStore) (seed : Option Str) (s : IamState) (k : Str)
    (io : IamIo) (now : Int) (steps : List IamStep) (hroot : k ≠ S.rootKey)
    (hok : ((S.machine seed).step s (.call (.removeUser k) io)).1 = .ok ())
    (hadd : ∀ c ∈ steps, ¬ c.Adds k) :
    (∀ part rest, steps = part ++ rest → ∀ later, now ≤ later →
      S.resolve later ((S.machine seed).final s (.call (.removeUser k) io :: part)).users k =
        none) ↔
      if stsPrefix.isPrefixOf k then S.resolveSts now k = none
      else Seeded S.rootKey seed k → ∀ c ∈ steps, ¬ c.IsRestart := by
  have hgone : Gone k ((S.machine seed).step s (.call (.removeUser k) io)).2 :=
    gone_of_removed hroot hok
  split
  · rename_i hsts
    constructor
    · intro h
      have hnow := h [] steps rfl now le_rfl
      rw [IamStore.resolve, if_neg hroot, if_pos hsts] at hnow
      exact hnow
    · intro h part rest hsplit later hlater
      rw [IamStore.resolve, if_neg hroot, if_pos hsts]
      refine Option.eq_none_iff_forall_ne_some.2 fun id hid => ?_
      rw [resolveSts_mono hlater hid] at h
      cases h
  · rename_i hsts
    constructor
    · intro h hseeded c hc hrestart
      obtain ⟨part, rest, rfl⟩ := List.append_of_mem hc
      have hnone := h (part ++ [c]) rest (by rw [List.append_assoc]; rfl) now le_rfl
      rw [IamStore.resolve, if_neg hroot, if_neg hsts, Option.map_eq_none_iff,
        ← List.cons_append, Machine.final_snoc] at hnone
      cases c with
      | call c io => exact hrestart
      | restart readable =>
          have hload : (S.load seed readable ((S.machine seed).final s
              (.call (.removeUser k) io :: part)).file).users[k]? = none := hnone
          have hsome : (S.load seed readable ((S.machine seed).final s
              (.call (.removeUser k) io :: part)).file).users[k]?.isSome :=
            isSome_load.2 (.inl hseeded)
          rw [hload] at hsome
          cases hsome
    · intro h part rest hsplit later hlater
      rw [IamStore.resolve, if_neg hroot, if_neg hsts, Option.map_eq_none_iff]
      subst hsplit
      refine (gone_final hgone (fun c hc => hadd c (List.mem_append_left _ hc)) ?_).users
      exact fun c hc hrestart hseeded => h hseeded c (List.mem_append_left _ hc) hrestart

/-- Without restarts a removed user stays unknown: to enable it does not add it. -/
theorem removed_stays_removed :
    plainStore.resolve 60 ((plainStore.machine (some "alice:pw".toList)).final
      (plainStore.load (some "alice:pw".toList) true none)
      [.call (.removeUser "alice".toList) .fine,
        .call (.setStatus "alice".toList true) .fine]).users "alice".toList = none := by
  refine (removed_resolves_none_iff plainStore (some "alice:pw".toList)
    (plainStore.load (some "alice:pw".toList) true none) "alice".toList .fine 0
    [.call (.setStatus "alice".toList true) .fine] (by decide) (by decide) ?_).2 ?_
    [.call (.setStatus "alice".toList true) .fine] [] rfl 60 (by decide)
  · intro c hc
    rw [List.mem_singleton.1 hc]
    exact id
  · rw [if_neg (by decide)]
    intro _ c hc
    rw [List.mem_singleton.1 hc]
    exact id

/-- A user of the seed list is back after the next restart. -/
theorem removed_comes_back :
    ((plainStore.machine (some "alice:pw".toList)).step
      (plainStore.load (some "alice:pw".toList) true none)
      (.call (.removeUser "alice".toList) .fine)).1 = .ok () ∧
    plainStore.resolve 0 ((plainStore.machine (some "alice:pw".toList)).final
      (plainStore.load (some "alice:pw".toList) true none)
      [.call (.removeUser "alice".toList) .fine, .restart true]).users "alice".toList =
      some ⟨"alice".toList, "pw".toList, "readwrite".toList, true, none⟩ := by
  decide

end Kerplace
