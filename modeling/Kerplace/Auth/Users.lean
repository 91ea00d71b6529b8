/-
# `Kerplace.Auth.Users` — the identity store

`IamStore` keeps its users in memory and copies the whole map to one file after each
change.  A change and its copy are separate steps: the map is changed under its lock, the
snapshot is taken under the lock again, and the file is written under none, so here each
mutator is a program over those steps.

Over it, what a call does when it runs alone, and what the store looks up: the root, a
temporary credential told by the shape of its key, or a user.
-/
import Kerplace.Auth.Identity
import Kerplace.Lib.Machine
import Kerplace.Storage.Drive

namespace Kerplace

/-- `Policy::name`. -/
def Policy.name : Policy → Str
  | .admin => "consoleAdmin".toList
  | .readWrite => "readwrite".toList
  | .readOnly => "readonly".toList
  | .writeOnly => "writeonly".toList

/-- `policy_from_id`. -/
def policyFromId (id : UInt8) : Option Policy :=
  if id = 1 then some .admin
  else if id = 2 then some .readWrite
  else if id = 3 then some .readOnly
  else if id = 4 then some .writeOnly
  else none

/-- `StoredUser`. -/
structure StoredUser where
  secretKey : Str
  policy : Str
  enabled : Bool
  buckets : Option (List Str)
  deriving DecidableEq

/-- The user map, and what `UsersDoc` writes of it. -/
abbrev Users := Std.ExtTreeMap Str StoredUser

/-- `default_policy`. -/
def defaultPolicy : Str := "readwrite".toList

/-- `parse_bucket_list`. -/
def parseBucketList (raw : Str) : Option (List Str) :=
  let list := ((raw.splitOn '|').map trim).filter (· ≠ [])
  if list = [] then none else some list

/-- A stored user as an identity. -/
def StoredUser.identity (accessKey : Str) (u : StoredUser) : Identity :=
  ⟨accessKey, u.secretKey, u.policy, u.enabled, u.buckets⟩

/-- `IamStore`, less what changes.  The keyed hash and the text encoding of bytes are
those of libraries. -/
structure IamStore where
  rootKey : Str
  rootSecret : Str
  hmacSha256 : Str → Bytes → Bytes
  encode : Bytes → Str
  decode : Str → Option Bytes

/-- What changes: the map in memory, and the users file. -/
structure IamState where
  users : Users
  file : Option (Content Users)

/-! ## Looking a key up -/

/-- `STS_PREFIX`. -/
def stsPrefix : Str := "KPSTS".toList

/-- `STS_PAYLOAD_LEN`. -/
def stsPayloadLen : Nat := 17

/-- `STS_TAG_LEN`. -/
def stsTagLen : Nat := 16

/-- `i64::from_be_bytes`. -/
def i64FromBeBytes (b : Bytes) : Int :=
  (BitVec.ofNat 64 (b.foldl (fun n x => 256 * n + x.toNat) 0)).toInt

namespace IamStore

variable (S : IamStore)

/-- The identity of the root. -/
def root : Identity := ⟨S.rootKey, S.rootSecret, Policy.admin.name, true, none⟩

/-- `resolve_sts`. -/
def resolveSts (now : Int) (accessKey : Str) : Option Identity := do
  let b64 ← accessKey.dropPrefix? stsPrefix
  let blob ← S.decode b64
  if blob.length ≠ stsPayloadLen + stsTagLen then none
  else
    let payload := blob.take stsPayloadLen
    let tag := blob.drop stsPayloadLen
    if (S.hmacSha256 S.rootSecret payload).take stsTagLen ≠ tag then none
    else do
      let policy ← policyFromId (payload.headD 0)
      let expiry := i64FromBeBytes ((payload.drop 1).take 8)
      if expiry ≤ now then none
      else
        let secret := S.hmacSha256 S.rootSecret (accessKey.flatMap String.utf8EncodeChar)
        some ⟨accessKey, S.encode secret, policy.name, true, none⟩

/-- `resolve`. -/
def resolve (now : Int) (users : Users) (accessKey : Str) : Option Identity :=
  if accessKey = S.rootKey then some S.root
  else if stsPrefix.isPrefixOf accessKey then S.resolveSts now accessKey
  else users[accessKey]?.map fun u => u.identity accessKey

end IamStore

/-! ## The steps of a call -/

/-- What a call does with the map and the file. -/
inductive IamOp where
  | update (f : Users → Except S3Error Users)
  | snapshot
  | createDirAll
  | write (doc : Users)

namespace IamOp

/-- What an operation answers. -/
abbrev Ans : IamOp → Type
  | .update _ => Except S3Error Unit
  | .snapshot => Users
  | .createDirAll => Bool
  | .write _ => Bool

end IamOp

/-- What becomes of `fs::write`: the file is written, or not opened, or broken off. -/
inductive WriteOutcome where
  | done
  | refused
  | torn (left : Bytes)

/-- What becomes of the file operations of a call. -/
structure IamIo where
  dir : Bool
  file : WriteOutcome

/-- Nothing fails. -/
def IamIo.fine : IamIo := ⟨true, .done⟩

/-- Run one operation. -/
def IamOp.handle (io : IamIo) : (o : IamOp) → IamState → o.Ans × IamState
  | .update f, s =>
      match f s.users with
      | .ok users => (.ok (), { s with users })
      | .error e => (.error e, s)
  | .snapshot, s => (s.users, s)
  | .createDirAll, s => (io.dir, s)
  | .write doc, s =>
      match io.file with
      | .done => (true, { s with file := some (.doc doc) })
      | .refused => (false, s)
      | .torn left => (false, { s with file := some (.raw left) })

/-- Calls of the store: they may fail. -/
abbrev Iam := ExceptT S3Error (Prog IamOp IamOp.Ans)

/-- One operation. -/
def IamOp.ask (o : IamOp) : Iam o.Ans := liftM (Prog.op o)

/-- Change the map under its lock; what the change refuses, the call does. -/
def IamOp.change (f : Users → Except S3Error Users) : Iam Unit := do
  let done ← ask (.update f)
  MonadExcept.ofExcept done

/-- `get_mut`, and a change to the user found. -/
def modifyUser (accessKey : Str) (f : StoredUser → StoredUser) (users : Users) :
    Except S3Error Users :=
  match users[accessKey]? with
  | some u => .ok (users.insert accessKey (f u))
  | none => .error (.invalidArgument "no such user")

namespace IamStore

variable (S : IamStore)

/-- `persist`. -/
def persist : Iam Unit := do
  let doc ← IamOp.ask .snapshot
  if !(← IamOp.ask .createDirAll) then throw (.internal "mkdir iam")
  if !(← IamOp.ask (.write doc)) then throw (.internal "write users")

/-- `add_user`. -/
def addUser (accessKey secretKey policy : Str) : Iam Unit :=
  if accessKey = [] ∨ secretKey = [] then
    throw (.invalidArgument "empty access/secret key")
  else if accessKey = S.rootKey then throw (.invalidArgument "cannot redefine root user")
  else do
    IamOp.change fun users =>
      let buckets := users[accessKey]?.bind StoredUser.buckets
      .ok (users.insert accessKey ⟨secretKey, policy, true, buckets⟩)
    persist

/-- `remove_user`. -/
def removeUser (accessKey : Str) : Iam Unit :=
  if accessKey = S.rootKey then throw (.invalidArgument "cannot remove root user")
  else do
    IamOp.change fun users => .ok (users.erase accessKey)
    persist

/-- `set_status`: the root is not singled out. -/
def setStatus (accessKey : Str) (enabled : Bool) : Iam Unit := do
  IamOp.change (modifyUser accessKey fun u => { u with enabled })
  persist

/-- `set_policy`. -/
def setPolicy (accessKey policy : Str) : Iam Unit :=
  if accessKey = S.rootKey then throw (.invalidArgument "cannot change root policy")
  else do
    IamOp.change (modifyUser accessKey fun u => { u with policy })
    persist

/-- `set_buckets`. -/
def setBuckets (accessKey : Str) (buckets : Option (List Str)) : Iam Unit :=
  if accessKey = S.rootKey then throw (.invalidArgument "cannot scope root user")
  else do
    IamOp.change (modifyUser accessKey fun u => { u with buckets })
    persist

/-- `policy_assoc`, from the request it has decrypted. -/
def policyAssoc (user : Str) (policies : List Str) (attach : Bool) : Iam Unit :=
  if user = [] then throw (.invalidArgument "group policy association is not supported")
  else S.setPolicy user (if attach then policies.head?.getD [] else [])

end IamStore

/-- The calls that change users. -/
inductive IamCall where
  | addUser (accessKey secretKey policy : Str)
  | removeUser (accessKey : Str)
  | setStatus (accessKey : Str) (enabled : Bool)
  | setPolicy (accessKey policy : Str)
  | setBuckets (accessKey : Str) (buckets : Option (List Str))
  | policyAssoc (user : Str) (policies : List Str) (attach : Bool)

/-- The program of a call. -/
def IamCall.run (S : IamStore) : IamCall → Iam Unit
  | .addUser ak sk policy => S.addUser ak sk policy
  | .removeUser ak => S.removeUser ak
  | .setStatus ak enabled => IamStore.setStatus ak enabled
  | .setPolicy ak policy => S.setPolicy ak policy
  | .setBuckets ak buckets => S.setBuckets ak buckets
  | .policyAssoc user policies attach => S.policyAssoc user policies attach

/-! ## Starting up -/

/-- One entry of the seed list, already trimmed. -/
def seedEntry (rootKey entry : Str) : Option (Str × StoredUser) :=
  match entry.splitOn ':' with
  | ak :: sk :: rest =>
      if ak = [] ∨ sk = [] then none
      else if ak = rootKey then none
      else
        let policy := rest[0]?.getD defaultPolicy
        let buckets := rest[1]?.bind parseBucketList
        some (ak, ⟨sk, policy, true, buckets⟩)
  | _ => none

/-- The users a seed list names. -/
def seedUsers (rootKey : Str) : Option Str → List (Str × StoredUser)
  | none => []
  | some seed =>
      (((seed.splitOn ',').map trim).filter (· ≠ [])).filterMap (seedEntry rootKey)

/-- What the users file gives: nothing when it cannot be read or does not decode. -/
def fileUsers (readable : Bool) (file : Option (Content Users)) : Users :=
  if readable then (file.bind Content.doc?).getD ∅ else ∅

/-- `load`: the users of the file, and those of the seed list it does not have. -/
def IamStore.load (S : IamStore) (seed : Option Str) (readable : Bool)
    (file : Option (Content Users)) : IamState :=
  ⟨(seedUsers S.rootKey seed).foldl (fun users e => users.insertIfNew e.1 e.2)
    (fileUsers readable file), file⟩

/-- What happens to a store: a call, or a restart of the server. -/
inductive IamStep where
  | call (c : IamCall) (io : IamIo)
  | restart (readable : Bool)

/-- The store over restarts with one seed list. -/
def IamStore.machine (S : IamStore) (seed : Option Str) :
    Machine IamState IamStep (Except S3Error Unit) :=
  ⟨fun s step =>
    match step with
    | .call c io => Prog.runE (IamOp.handle io) (c.run S) s
    | .restart readable => (.ok (), S.load seed readable s.file)⟩

end Kerplace
