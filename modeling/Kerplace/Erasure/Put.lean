/-
# `Kerplace.Erasure.Put` — a put, check by check

`putObject` answers a missing bucket, a bad key and a missing data key before
it touches a drive.  Past these it is the sharded write, bare in a bucket
without versioning and between the two halves of the version bookkeeping
otherwise.
-/
import Kerplace.Erasure.Read

namespace Kerplace

open FileTree

namespace ErasureStore

variable {n : Nat} {S : ErasureStore n} {site : Site n} {s : Cluster n Doc}

/-- What a write shards: the body, or its container, or nothing when no data key
could be minted. -/
def sourceOf (S : ErasureStore n) (env : CallEnv) (body : Body) (encrypted : Bool) :
    Option Body :=
  if encrypted then S.crypto.encryptingReader env body else some body

theorem run_writeSource (env : CallEnv) (body : Body) (encrypted : Bool) :
    site.run (S.writeSource env body encrypted) s =
      (match S.sourceOf env body encrypted with
        | some src => .ok src
        | none => .error (.internal "encrypt object"), s) := by
  unfold writeSource sourceOf
  cases encrypted with
  | false => rfl
  | true =>
      simp only [if_true]
      cases S.crypto.encryptingReader env body <;> rfl

/-- A put, check by check. -/
theorem run_putObject (env : CallEnv) (bucket key : Str) (body : Body)
    (contentType : Str) (userMetadata : UserMeta) (encrypt : Bool) :
    site.run (S.putObject env bucket key body contentType userMetadata encrypt) s =
      if bucketUp site bucket s = false then (.error .noSuchBucket, s)
      else
        match validateKey key with
        | .error e => (.error e, s)
        | .ok _ =>
            match S.sourceOf env body (S.shouldEncrypt encrypt) with
            | none => (.error (.internal "encrypt object"), s)
            | some src =>
                if modeOf site bucket s = .off then
                  site.run (S.writeSharded env bucket key src contentType userMetadata
                    (S.shouldEncrypt encrypt) none) s
                else
                  site.run (S.writeVersioned env bucket key (modeOf site bucket s) src
                    contentType userMetadata (S.shouldEncrypt encrypt)) s := by
  unfold putObject
  simp only [Site.run_bind, run_headBucket, Site.run_ofExcept, Site.run_withLock,
    run_writeSource, run_vmode]
  cases bucketUp site bucket s with
  | false => rfl
  | true =>
      simp only [if_true, Prog.andThen_ok, Bool.true_eq_false, if_false]
      cases validateKey key with
      | error e => rfl
      | ok u =>
          simp only [Prog.andThen_ok]
          cases S.sourceOf env body (S.shouldEncrypt encrypt) with
          | none => rfl
          | some src =>
              simp only [Prog.andThen_ok]
              split <;> rfl

end ErasureStore

end Kerplace
