/-
# `Kerplace.Auth.Identity` — who asks, and what for

Requests as the layers above the store see them, identities with their policy and
their bucket scope, and how a request is classified for the two checks.
-/
import Kerplace.Auth.Chunked

namespace Kerplace

/-- `Method`. -/
inductive Method where
  | get
  | head
  | put
  | post
  | delete
  | patch
  | other (token : Str)
  deriving DecidableEq

/-- What the middleware reads of a request.  A header has its name in lower case, and its
text where that is readable; `peer` is the address in `ConnectInfo`. -/
structure Request where
  method : Method
  path : Str
  query : Option Str
  headers : List (Str × Option Str)
  peer : Option Str
  deriving DecidableEq

/-- `HeaderMap::get`. -/
def Request.header (req : Request) (name : Str) : Option (Option Str) :=
  (req.headers.find? fun h => decide (h.1 = name)).map Prod.snd

/-- `Action`. -/
inductive Action where
  | read
  | write
  | admin
  deriving DecidableEq

/-- `Policy`. -/
inductive Policy where
  | admin
  | readWrite
  | readOnly
  | writeOnly
  deriving DecidableEq

namespace Policy

/-- `Policy::from_name`. -/
def fromName (name : Str) : Policy :=
  let n := (trim name).map Char.toLower
  if n = "admin".toList ∨ n = "consoleadmin".toList ∨ n = "diagnostics".toList then .admin
  else if n = "readwrite".toList ∨ n = "readwriteadmin".toList then .readWrite
  else if n = "writeonly".toList then .writeOnly
  else .readOnly

/-- `Policy::allows`. -/
def allows : Policy → Action → Bool
  | .admin, _ => true
  | _, .admin => false
  | .readWrite, _ => true
  | .readOnly, .read => true
  | .writeOnly, .write => true
  | _, _ => false

end Policy

/-- `Identity`. -/
structure Identity where
  accessKey : Str
  secretKey : Str
  policy : Str
  enabled : Bool
  buckets : Option (List Str)
  deriving DecidableEq

/-- `allows_bucket`. -/
def Identity.allowsBucket (id : Identity) : Option Str → Bool
  | none => true
  | some b =>
      match id.buckets with
      | none => true
      | some allowed => allowed.contains b

/-- `action_for`. -/
def actionFor (method : Method) (path : Str) : Action :=
  if "/kerplace/admin".toList.isPrefixOf path || "/minio/admin".toList.isPrefixOf path then
    .admin
  else
    match method with
    | .get => .read
    | .head => .read
    | .put => .write
    | .post => .write
    | .delete => .write
    | .patch => .write
    | .other _ => .read

/-- `bucket_for`. -/
def bucketFor (path : Str) : Option Str :=
  if "/kerplace/".toList.isPrefixOf path || "/minio/".toList.isPrefixOf path then none
  else
    let seg := (path.dropWhile (· == '/')).takeWhile (· != '/')
    if seg = [] then none else some seg

end Kerplace
