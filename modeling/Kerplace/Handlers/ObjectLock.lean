/-
# `Kerplace.Handlers.ObjectLock` — the requests that remove or replace objects

What the HTTP handlers, the console and the lifecycle worker do with the store
when a request removes or replaces an object.  Two of them, the single `DELETE`
and the lifecycle worker, ask first whether the object is locked: a legal hold
that is `ON`, or a retention date that has not passed.  The others do not ask.

The retention document and the dates are read by libraries, which are
parameters here (`LockText`).  Where a handler pages through a listing, the
objects its pages named are an argument: the listing itself only reads.
-/
import Kerplace.Erasure.Listing
import Kerplace.Erasure.Multipart

namespace Kerplace

open ErasureStore

/-- What is read of texts by libraries: the date of a retention document
(`xml::from_xml::<ObjectRetention>`), and a date in RFC 3339 form, in seconds. -/
structure LockText where
  retainUntilDate : Str → Option (Option Str)
  rfc3339 : Str → Option Int

/-- `eq_ignore_ascii_case`. -/
def eqIgnoreAsciiCase (a b : Str) : Bool := a.map Char.toLower == b.map Char.toLower

/-- The status of a hold that is on. -/
def ON : Str := "ON".toList

/-- Whether a stored retention document has a date after `now`.  One that cannot be read,
or whose date cannot, has none. -/
def LockText.retains (L : LockText) (now : Int) (raw : Str) : Bool :=
  match L.retainUntilDate raw with
  | some (some date) =>
      match L.rfc3339 date with
      | some until_ => decide (now < until_)
      | none => false
  | _ => false

section

variable {n : Nat} (S : ErasureStore n) (L : LockText)

/-- Whether an object is locked at `now`.  A lock that cannot be read is none. -/
def lockActive (now : Int) (bucket key : Str) : EStore n Bool := do
  match ← outcome (getObjectLegalHold bucket key) with
  | .ok (some status) =>
      if eqIgnoreAsciiCase status ON then pure true else retentionActive now bucket key
  | _ => retentionActive now bucket key
where
  /-- The part about the retention. -/
  retentionActive (now : Int) (bucket key : Str) : EStore n Bool := do
    match ← outcome (getObjectRetention bucket key) with
    | .ok (some raw) => pure (L.retains now raw)
    | _ => pure false

/-- `check_object_lock`. -/
def checkObjectLock (now : Int) (bucket key : Str) : EStore n Unit := do
  if ← lockActive L now bucket key then throw .objectLocked else pure ()

/-- `object_locked`, the lifecycle worker's copy of the check. -/
def objectLocked (now : Int) (bucket key : Str) : EStore n Bool := lockActive L now bucket key

/-- `delete_object_dispatch` without `uploadId` and `tagging`: an empty key names the
bucket itself. -/
def deleteObjectDispatch (env : CallEnv) (bucket key : Str) (versionId : Option Str) :
    EStore n (Option DeleteOutcome) := do
  if key = [] then do
    deleteBucket bucket
    pure none
  else
    match versionId with
    | some vid => do
        checkObjectLock L env.now bucket key
        let outcome ← deleteObjectVersion bucket key vid
        pure (some outcome)
    | none => do
        checkObjectLock L env.now bucket key
        let outcome ← deleteObject env bucket key
        pure (some outcome)

/-- `DeleteResult`. -/
structure DeleteResult where
  deleted : List Str
  errors : List (Str × S3Error)

/-- `post_bucket_inner` with `?delete`: the keys one after the other. -/
def postBucketDelete (bucket : Str) (quiet : Bool) :
    List (CallEnv × Str) → EStore n DeleteResult
  | [] => pure ⟨[], []⟩
  | (env, key) :: objects => do
      let r ← outcome (deleteObject env bucket key)
      let rest ← postBucketDelete bucket quiet objects
      match r with
      | .ok _ =>
          pure (if quiet then rest else { rest with deleted := key :: rest.deleted })
      | .error e => pure { rest with errors := (key, e) :: rest.errors }

/-- The console's `delete_object`. -/
def consoleDeleteObject (env : CallEnv) (bucket key : Str) (versionId : Option Str) :
    EStore n DeleteOutcome :=
  match versionId with
  | some vid => deleteObjectVersion bucket key vid
  | none => deleteObject env bucket key

/-- Delete the objects the pages of a listing named, whatever comes of it. -/
def drain (bucket : Str) : List (CallEnv × Str) → EStore n Unit
  | [] => pure ()
  | (env, key) :: objects => do
      let _ ← outcome (deleteObject env bucket key)
      drain bucket objects

/-- The console's `delete_bucket`; `listed` is what a forced one finds to delete. -/
def consoleDeleteBucket (bucket : Str) (force : Bool) (listed : List (CallEnv × Str)) :
    EStore n Unit := do
  (if force then drain bucket listed else pure ())
  deleteBucket bucket

/-- `LifecycleExpiration`. -/
structure LifecycleExpiration where
  days : Option UInt64
  date : Option Str

/-- `should_expire`; `days as i64` wraps. -/
def shouldExpire (exp : LifecycleExpiration) (lastModified now : Int) : Bool :=
  match exp.days with
  | some days => decide (days.toInt64.toInt ≤ (now - lastModified).tdiv 86400)
  | none =>
      match exp.date.bind L.rfc3339 with
      | some date => decide (date ≤ now)
      | none => false

/-- `expire_objects`, on the objects its pages named. -/
def expireObjects (bucket : Str) (exp : LifecycleExpiration) (now : Int) :
    List (CallEnv × Str × Int) → EStore n Unit
  | [] => pure ()
  | (env, key, lastModified) :: objects => do
      (if shouldExpire L exp lastModified now then do
        (if ← objectLocked L now bucket key then pure ()
        else do
          let _ ← outcome (deleteObject env bucket key)
          pure ())
      else pure ())
      expireObjects bucket exp now objects

/-- The requests that remove or replace objects. -/
inductive LockRequest where
  | delete (env : CallEnv) (bucket key : Str) (versionId : Option Str)
  | batchDelete (bucket : Str) (quiet : Bool) (objects : List (CallEnv × Str))
  | put (env : CallEnv) (bucket key : Str) (body : Body) (contentType : Str)
      (userMetadata : UserMeta) (encrypt : Bool)
  | copy (env : CallEnv) (srcBucket srcKey bucket key : Str) (encrypt : Bool)
  | complete (env : CallEnv) (uploadId : Str) (parts : List CompletedPart)
  | postForm (env : CallEnv) (bucket key : Str) (body : Body) (contentType : Str)
      (encrypt : Bool)
  | consoleDelete (env : CallEnv) (bucket key : Str) (versionId : Option Str)
  | consoleDeleteBucket (bucket : Str) (force : Bool) (listed : List (CallEnv × Str))
  | lifecycle (bucket : Str) (exp : LifecycleExpiration) (now : Int)
      (listed : List (CallEnv × Str × Int))

/-- What a request does with the store; of its result only whether there is one is kept. -/
def LockRequest.prog : LockRequest → EStore n Unit
  | .delete env bucket key versionId => do
      let _ ← deleteObjectDispatch L env bucket key versionId
      pure ()
  | .batchDelete bucket quiet objects => do
      let _ ← postBucketDelete bucket quiet objects
      pure ()
  | .put env bucket key body contentType userMetadata encrypt => do
      let _ ← S.putObject env bucket key body contentType userMetadata encrypt
      pure ()
  | .copy env srcBucket srcKey bucket key encrypt => do
      let _ ← S.copyObject env srcBucket srcKey bucket key encrypt
      pure ()
  | .complete env uploadId parts => do
      let _ ← S.completeMultipart env uploadId parts
      pure ()
  | .postForm env bucket key body contentType encrypt => do
      let _ ← S.putObject env bucket key body contentType [] encrypt
      pure ()
  | .consoleDelete env bucket key versionId => do
      let _ ← consoleDeleteObject env bucket key versionId
      pure ()
  | .consoleDeleteBucket bucket force listed => Kerplace.consoleDeleteBucket bucket force listed
  | .lifecycle bucket exp now listed => expireObjects L bucket exp now listed

end

end Kerplace
