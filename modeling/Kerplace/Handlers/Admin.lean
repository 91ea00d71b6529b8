/-
# `Kerplace.Handlers.Admin` — the two ways to manage users

Users are managed through the admin API, whose bodies are encrypted under the secret key of
whoever asks, and through the console, whose bodies are plain.  Either way a request makes one
call of the identity store, but for a user who is to be added as disabled: then there are two, and
what the second comes to is not looked at.
-/
import Kerplace.Auth.Gate
import Kerplace.Auth.Oidc
import Kerplace.Auth.UserFailures
import Kerplace.Crypto.Madmin

namespace Kerplace

/-- The error as text. -/
def Madmin.MadminError.toText : Madmin.MadminError → String
  | .format => "malformed madmin payload"
  | .unsupportedCipher id =>
      "unsupported madmin cipher id 0x" ++ String.ofList (Nat.toDigits 16 id.toNat)
  | .decrypt => "madmin payload decryption failed"

/-- `IamStore::list`: the root first, and the users in the order of their keys. -/
def IamStore.list (S : IamStore) (users : Users) : List Identity :=
  S.root :: users.toList.map fun u => u.2.identity u.1

/-- `account_status`. -/
def accountStatus (enabled : Bool) : Str :=
  if enabled then "enabled".toList else "disabled".toList

/-- What the handlers use: the identity store, the ciphers of the bodies, and the library of
JSON. -/
structure AdminServer where
  iam : IamStore
  ciphers : Madmin.Ciphers
  fromSlice : Bytes → Except String JsonValue
  toVec : JsonValue → Bytes

/-- A request of the console that is about users. -/
inductive ConsoleCall where
  | listUsers
  | addUser (accessKey secretKey : Str) (policy : Option Str)
  | deleteUser (accessKey : Str)
  | setUserStatus (accessKey : Str) (enabled : Bool)

/-- A request that is about users. -/
inductive UserCall where
  /-- Of the admin API, with what the middleware found and the query as `axum` reads it. -/
  | admin (h : AdminHandler) (identity : Option Identity) (query : Str → Option Str)
      (body : Bytes)
  | console (c : ConsoleCall)

/-- A request, and what there is around it: the clock, what is drawn at random, and what becomes
of the file operations of its first call and of its second. -/
structure UserTurn where
  call : UserCall
  now : Int
  drawn : Madmin.Drawn
  io : IamIo
  again : IamIo

/-- What a request is answered. -/
inductive UserAnswer where
  /-- The admin API's empty success, or the console's `ok`. -/
  | done
  | json (v : JsonValue)
  /-- An encrypted body; nothing where the key derivation fails. -/
  | encrypted (blob : Option Bytes)
  | refused (e : S3Error)
  /-- By a handler that has nothing to do with users. -/
  | other

/-- What a change comes to. -/
def UserAnswer.ofDone : Except S3Error Unit → UserAnswer
  | .ok () => .done
  | .error e => .refused e

namespace AdminServer

variable (A : AdminServer)

/-! ## The admin API -/

/-- `requester_secret`. -/
def requesterSecret (identity : Option Identity) : Str :=
  (identity.map Identity.secretKey).getD A.iam.rootSecret

/-- A body, decrypted and read. -/
def openBody (name : String) (identity : Option Identity) (body : Bytes) :
    Except S3Error JsonValue :=
  match A.ciphers.decryptData (A.requesterSecret identity) body with
  | .error e => .error (.invalidArgument ("decrypt: " ++ e.toText))
  | .ok plain =>
      match A.fromSlice plain with
      | .error e => .error (.invalidArgument ("bad " ++ name ++ ": " ++ e))
      | .ok doc => .ok doc

/-- An answer, written and encrypted. -/
def sealBody (identity : Option Identity) (drawn : Madmin.Drawn) (v : JsonValue) : UserAnswer :=
  .encrypted (A.ciphers.encryptData (A.requesterSecret identity) drawn (A.toVec v))

/-- A call of the identity store, from beginning to end. -/
def callIam (io : IamIo) (c : IamCall) (s : IamState) : Except S3Error Unit × IamState :=
  Prog.runE (IamOp.handle io) (c.run A.iam) s

/-- A request that is one call, answered by what the call comes to. -/
def change (io : IamIo) (c : IamCall) (s : IamState) : UserAnswer × IamState :=
  (.ofDone (A.callIam io c s).1, (A.callIam io c s).2)

/-- `add_user`. -/
def addUser (t : UserTurn) (identity : Option Identity) (query : Str → Option Str) (body : Bytes)
    (s : IamState) : UserAnswer × IamState :=
  match query "accessKey".toList with
  | none => (.refused (.invalidArgument "missing accessKey"), s)
  | some accessKey =>
      match A.openBody "UserInfo" identity body with
      | .error e => (.refused e, s)
      | .ok doc =>
          let secretKey := (doc.text "secretKey".toList).getD []
          let policy := ((doc.text "policyName".toList).filter fun p => decide (p ≠ [])).getD
            "readwrite".toList
          let added := A.callIam t.io (.addUser accessKey secretKey policy) s
          match added.1 with
          | .error e => (.refused e, added.2)
          | .ok () =>
              -- `let _ =`: the answer is the same whether the user could be disabled or not
              if doc.text "status".toList = some "disabled".toList then
                (.done, (A.callIam t.again (.setStatus accessKey false) added.2).2)
              else (.done, added.2)

/-- `policy_assoc`. -/
def policyAssoc (t : UserTurn) (identity : Option Identity) (body : Bytes) (attach : Bool)
    (s : IamState) : UserAnswer × IamState :=
  match A.openBody "PolicyAssociationReq" identity body with
  | .error e => (.refused e, s)
  | .ok doc =>
      let user := (doc.text "user".toList).getD []
      let policies := (((doc.get "policies".toList).bind JsonValue.asArray).map fun a =>
        a.filterMap JsonValue.asStr).getD []
      let associated := A.callIam t.io (.policyAssoc user policies attach) s
      match associated.1 with
      | .error e => (.refused e, associated.2)
      | .ok () =>
          let named := JsonValue.array (policies.map .string)
          let resp := if attach then
              JsonValue.object [("PoliciesAttached".toList, named),
                ("PoliciesDetached".toList, .array [])]
            else
              JsonValue.object [("PoliciesAttached".toList, .array []),
                ("PoliciesDetached".toList, named)]
          (A.sealBody identity t.drawn resp, associated.2)

/-- What `list_users` shows of a user.  Here and below the members of an object are in the order
of their names, as `serde_json::Map` keeps them. -/
def userJson (id : Identity) : JsonValue :=
  .object [("policyName".toList, .string (Policy.fromName id.policy).name),
    ("status".toList, .string (accountStatus id.enabled))]

/-- The map that `list_users` builds: the root is not in it. -/
def userMap (users : Users) : List (Str × JsonValue) :=
  ((A.iam.list users).filter fun id => decide (id.accessKey ≠ A.iam.rootKey)).map fun id =>
    (id.accessKey, userJson id)

/-- `list_users`. -/
def listUsers (t : UserTurn) (identity : Option Identity) (s : IamState) :
    UserAnswer × IamState :=
  (A.sealBody identity t.drawn (.object (A.userMap s.users)), s)

/-- A request whose query names a user. -/
def named (query : Str → Option Str) (f : Str → UserAnswer × IamState) (s : IamState) :
    UserAnswer × IamState :=
  match query "accessKey".toList with
  | none => (.refused (.invalidArgument "missing accessKey"), s)
  | some accessKey => f accessKey

/-- `remove_user`. -/
def removeUser (t : UserTurn) (query : Str → Option Str) (s : IamState) :
    UserAnswer × IamState :=
  named query (fun accessKey => A.change t.io (.removeUser accessKey) s) s

/-- `set_user_status`. -/
def setUserStatus (t : UserTurn) (query : Str → Option Str) (s : IamState) :
    UserAnswer × IamState :=
  named query (fun accessKey =>
    let enabled := ((query "status".toList).map fun v => decide (v = "enabled".toList)).getD true
    A.change t.io (.setStatus accessKey enabled) s) s

/-- `set_user_buckets`. -/
def setUserBuckets (t : UserTurn) (query : Str → Option Str) (s : IamState) :
    UserAnswer × IamState :=
  named query (fun accessKey =>
    match query "buckets".toList with
    | none =>
        (.refused (.invalidArgument "missing buckets (pass an empty value to clear the scope)"), s)
    | some raw => A.change t.io (.setBuckets accessKey (parseBucketList raw)) s) s

/-- `user_info`: the root is not shown, but a temporary credential is. -/
def userInfo (t : UserTurn) (query : Str → Option Str) (s : IamState) : UserAnswer × IamState :=
  named query (fun accessKey =>
    match A.iam.resolve t.now s.users accessKey with
    | some user =>
        if accessKey ≠ A.iam.rootKey then
          (.json (.object [
            ("buckets".toList, (user.buckets.map fun bs => .array (bs.map .string)).getD .null),
            ("policyName".toList, .string (Policy.fromName user.policy).name),
            ("status".toList, .string (accountStatus user.enabled))]), s)
        else (.refused .noSuchKey, s)
    | none => (.refused .noSuchKey, s)) s

/-- The handlers under the admin prefix. -/
def admin (t : UserTurn) (h : AdminHandler) (identity : Option Identity)
    (query : Str → Option Str) (body : Bytes) (s : IamState) : UserAnswer × IamState :=
  match h with
  | .info => (.other, s)
  | .heal => (.other, s)
  | .addUser => A.addUser t identity query body s
  | .listUsers => A.listUsers t identity s
  | .removeUser => A.removeUser t query s
  | .setUserStatus => A.setUserStatus t query s
  | .setUserBuckets => A.setUserBuckets t query s
  | .userInfo => A.userInfo t query s
  | .attachPolicy => A.policyAssoc t identity body true s
  | .detachPolicy => A.policyAssoc t identity body false s

/-! ## The console -/

/-- What the console's `list_users` shows of an identity. -/
def consoleJson (id : Identity) : JsonValue :=
  .object [("accessKey".toList, .string id.accessKey), ("enabled".toList, .bool id.enabled),
    ("isRoot".toList, .bool (decide (id.accessKey = A.iam.rootKey))),
    ("policy".toList, .string id.policy)]

/-- `api::list_users`. -/
def consoleListUsers (s : IamState) : UserAnswer × IamState :=
  (.json (.object [("users".toList, .array ((A.iam.list s.users).map A.consoleJson))]), s)

/-- The handlers of the console's users page. -/
def console (t : UserTurn) (c : ConsoleCall) (s : IamState) : UserAnswer × IamState :=
  match c with
  | .listUsers => A.consoleListUsers s
  | .addUser accessKey secretKey policy =>
      A.change t.io (.addUser accessKey secretKey (policy.getD "readwrite".toList)) s
  | .deleteUser accessKey => A.change t.io (.removeUser accessKey) s
  | .setUserStatus accessKey enabled => A.change t.io (.setStatus accessKey enabled) s

/-- A request, handled. -/
def handle (t : UserTurn) (s : IamState) : UserAnswer × IamState :=
  match t.call with
  | .admin h identity query body => A.admin t h identity query body s
  | .console c => A.console t c s

/-- What happens to the users: a request, or a restart of the server. -/
inductive Step where
  | request (t : UserTurn)
  | restart (readable : Bool)

/-- The server over requests and restarts with one seed list. -/
def machine (seed : Option Str) : Machine IamState Step UserAnswer :=
  ⟨fun s step =>
    match step with
    | .request t => A.handle t s
    | .restart readable => (.other, A.iam.load seed readable s.file)⟩

/-- The user whom a request would change. -/
def subject (t : UserTurn) : Option Str :=
  match t.call with
  | .admin .addUser _ query _ => query "accessKey".toList
  | .admin .removeUser _ query _ => query "accessKey".toList
  | .admin .setUserStatus _ query _ => query "accessKey".toList
  | .admin .setUserBuckets _ query _ => query "accessKey".toList
  | .admin .attachPolicy identity _ body =>
      (A.openBody "PolicyAssociationReq" identity body).toOption.map fun doc =>
        (doc.text "user".toList).getD []
  | .admin .detachPolicy identity _ body =>
      (A.openBody "PolicyAssociationReq" identity body).toOption.map fun doc =>
        (doc.text "user".toList).getD []
  | .console (.addUser accessKey _ _) => some accessKey
  | .console (.deleteUser accessKey) => some accessKey
  | .console (.setUserStatus accessKey _) => some accessKey
  | _ => none

end AdminServer

/-! ## What a request does to the store -/

/-- The user whom a call is about. -/
def IamCall.key : IamCall → Str
  | .addUser k _ _ => k
  | .removeUser k => k
  | .setStatus k _ => k
  | .setPolicy k _ => k
  | .setBuckets k _ => k
  | .policyAssoc k _ _ => k

theorem amend_of_ne {m : UserMap} {k x : Str} (h : x ≠ k) (f : StoredUser → StoredUser) :
    m.amend k f x = m x := Function.update_of_ne h _ _

/-- A call changes nobody but the user it is about. -/
theorem IamCall.fold_of_ne (S : IamStore) (m : UserMap) {c : IamCall} {x : Str} (h : x ≠ c.key) :
    c.fold S m x = m x := by
  cases c with
  | addUser k sk policy =>
      simp only [IamCall.fold]
      split
      · rfl
      · exact Function.update_of_ne h _ _
  | removeUser k =>
      simp only [IamCall.fold]
      split
      · rfl
      · exact Function.update_of_ne h _ _
  | setStatus k enabled => exact amend_of_ne h _
  | setPolicy k policy =>
      simp only [IamCall.fold]
      split
      · rfl
      · exact amend_of_ne h _
  | setBuckets k buckets =>
      simp only [IamCall.fold]
      split
      · rfl
      · exact amend_of_ne h _
  | policyAssoc k policies attach =>
      simp only [IamCall.fold]
      split
      · rfl
      · exact amend_of_ne h _

namespace AdminServer

variable {A : AdminServer}

theorem callIam_view (io : IamIo) (c : IamCall) (s : IamState) :
    (A.callIam io c s).2.users.view = c.fold A.iam s.users.view :=
  IamCall.view_run A.iam c io s

/-- What a request does to the store. -/
inductive Does (A : AdminServer) (t : UserTurn) (s : IamState) : Prop
  | nothing (h : (A.handle t s).2 = s)
  | one (c : IamCall) (hkey : A.subject t = some c.key)
      (h : (A.handle t s).2 = (A.callIam t.io c s).2)
  /-- A user is added and then disabled. -/
  | two (k sk policy : Str) (hkey : A.subject t = some k)
      (hadded : (A.callIam t.io (.addUser k sk policy) s).1 = .ok ())
      (h : (A.handle t s).2 = (A.callIam t.again (.setStatus k false)
        (A.callIam t.io (.addUser k sk policy) s).2).2)

theorem handle_admin {t : UserTurn} {handler : AdminHandler} {identity : Option Identity}
    {query : Str → Option Str} {body : Bytes} (hcall : t.call = .admin handler identity query body)
    (s : IamState) : A.handle t s = A.admin t handler identity query body s := by
  rw [handle, hcall]

theorem named_none {query : Str → Option Str} (h : query "accessKey".toList = none)
    (f : Str → UserAnswer × IamState) (s : IamState) :
    named query f s = (.refused (.invalidArgument "missing accessKey"), s) := by
  rw [named, h]

theorem named_some {query : Str → Option Str} {k : Str} (h : query "accessKey".toList = some k)
    (f : Str → UserAnswer × IamState) (s : IamState) : named query f s = f k := by
  rw [named, h]

theorem does_named {t : UserTurn} {s : IamState} {query : Str → Option Str}
    {f : Str → UserAnswer × IamState} (hhandle : A.handle t s = named query f s)
    (hsubject : A.subject t = query "accessKey".toList)
    (hf : ∀ k, (f k).2 = s ∨ ∃ c : IamCall, c.key = k ∧ (f k).2 = (A.callIam t.io c s).2) :
    A.Does t s := by
  cases hquery : query "accessKey".toList with
  | none => exact .nothing (by rw [hhandle, named_none hquery])
  | some k =>
      rw [named_some hquery] at hhandle
      rcases hf k with hsame | ⟨c, rfl, hcall⟩
      · exact .nothing (by rw [hhandle, hsame])
      · exact .one c (hsubject.trans hquery) (by rw [hhandle, hcall])

theorem does_addUser {t : UserTurn} {s : IamState} {identity : Option Identity}
    {query : Str → Option Str} {body : Bytes}
    (hhandle : A.handle t s = A.addUser t identity query body s)
    (hsubject : A.subject t = query "accessKey".toList) : A.Does t s := by
  unfold addUser at hhandle
  cases hquery : query "accessKey".toList with
  | none =>
      rw [hquery] at hhandle
      exact .nothing (by rw [hhandle])
  | some k =>
      rw [hquery] at hhandle hsubject
      dsimp only at hhandle
      cases hdoc : A.openBody "UserInfo" identity body with
      | error e =>
          rw [hdoc] at hhandle
          exact .nothing (by rw [hhandle])
      | ok doc =>
          rw [hdoc] at hhandle
          dsimp only at hhandle
          generalize (doc.text "secretKey".toList).getD [] = sk at hhandle
          generalize Option.getD _ "readwrite".toList = policy at hhandle
          cases hadded : (A.callIam t.io (.addUser k sk policy) s).1 with
          | error e =>
              rw [hadded] at hhandle
              exact .one (.addUser k sk policy) hsubject (by rw [hhandle])
          | ok done =>
              rw [hadded] at hhandle
              dsimp only at hhandle
              split at hhandle
              · exact .two k sk policy hsubject hadded (by rw [hhandle])
              · exact .one (.addUser k sk policy) hsubject (by rw [hhandle])

theorem does_policyAssoc {t : UserTurn} {s : IamState} {identity : Option Identity} {body : Bytes}
    {attach : Bool} (hhandle : A.handle t s = A.policyAssoc t identity body attach s)
    (hsubject : A.subject t = (A.openBody "PolicyAssociationReq" identity body).toOption.map
      fun doc => (doc.text "user".toList).getD []) : A.Does t s := by
  unfold policyAssoc at hhandle
  cases hdoc : A.openBody "PolicyAssociationReq" identity body with
  | error e =>
      rw [hdoc] at hhandle
      exact .nothing (by rw [hhandle])
  | ok doc =>
      rw [hdoc] at hhandle hsubject
      dsimp only at hhandle
      generalize Option.getD (Option.map _ _) [] = policies at hhandle
      refine .one (.policyAssoc ((doc.text "user".toList).getD []) policies attach) hsubject ?_
      cases hdone : (A.callIam t.io (.policyAssoc ((doc.text "user".toList).getD []) policies
          attach) s).1 with
      | error e =>
          rw [hdone] at hhandle
          exact congrArg Prod.snd hhandle
      | ok done =>
          rw [hdone] at hhandle
          exact congrArg Prod.snd hhandle

/-- A request makes no call, or one about the user it names, or adds a user and disables it. -/
theorem does (t : UserTurn) (s : IamState) : A.Does t s := by
  cases hcall : t.call with
  | admin handler identity query body =>
      have hhandle := handle_admin (A := A) hcall s
      cases handler with
      | info => exact .nothing (by rw [hhandle]; rfl)
      | heal => exact .nothing (by rw [hhandle]; rfl)
      | listUsers => exact .nothing (by rw [hhandle]; rfl)
      | addUser => exact does_addUser hhandle (by rw [subject, hcall])
      | removeUser =>
          exact does_named hhandle (by rw [subject, hcall]) fun k => .inr ⟨.removeUser k, rfl, rfl⟩
      | setUserStatus =>
          exact does_named hhandle (by rw [subject, hcall]) fun k => .inr ⟨.setStatus k _, rfl, rfl⟩
      | setUserBuckets =>
          refine does_named hhandle (by rw [subject, hcall]) fun k => ?_
          cases query "buckets".toList with
          | none => exact .inl rfl
          | some raw => exact .inr ⟨.setBuckets k _, rfl, rfl⟩
      | userInfo =>
          refine .nothing ?_
          rw [hhandle]
          change (A.userInfo t query s).2 = s
          unfold userInfo named
          split
          · rfl
          · dsimp only
            split
            · split
              · rfl
              · rfl
            · rfl
      | attachPolicy => exact does_policyAssoc hhandle (by rw [subject, hcall])
      | detachPolicy => exact does_policyAssoc hhandle (by rw [subject, hcall])
  | console c =>
      have hhandle : A.handle t s = A.console t c s := by rw [handle, hcall]
      cases c with
      | listUsers => exact .nothing (by rw [hhandle]; rfl)
      | addUser accessKey secretKey policy =>
          exact .one (.addUser accessKey secretKey (policy.getD "readwrite".toList))
            (by rw [subject, hcall]; rfl) (by rw [hhandle]; rfl)
      | deleteUser accessKey =>
          exact .one (.removeUser accessKey) (by rw [subject, hcall]; rfl) (by rw [hhandle]; rfl)
      | setUserStatus accessKey enabled =>
          exact .one (.setStatus accessKey enabled) (by rw [subject, hcall]; rfl)
            (by rw [hhandle]; rfl)

theorem handle_of_ne {t : UserTurn} {k : Str} (h : A.subject t ≠ some k) (s : IamState) :
    (A.handle t s).2.users.view k = s.users.view k := by
  cases A.does t s with
  | nothing hsame => rw [hsame]
  | one c hkey hcall =>
      have hne : k ≠ c.key := fun heq => h (heq ▸ hkey)
      rw [hcall, callIam_view, IamCall.fold_of_ne A.iam _ hne]
  | two k' sk policy hkey _ hcall =>
      have hne : k ≠ k' := fun heq => h (heq ▸ hkey)
      rw [hcall, callIam_view, callIam_view]
      exact (IamCall.fold_of_ne A.iam _ hne).trans (IamCall.fold_of_ne A.iam _ hne)

end AdminServer

end Kerplace
