/-
# `Kerplace.Storage.Payloads` — the calls that bring payloads

Both backends take these calls among others: a put, a copy, and the calls of a multipart
upload.  A second run is made of the same calls with other payloads.
-/
import Kerplace.Storage.Types

namespace Kerplace

/-- The calls that bring payloads to drives, over the surroundings `E` of a call. -/
inductive PayloadCall (E : Type) where
  | put (env : E) (bucket key : Str) (body : Body) (contentType : Str)
      (userMetadata : UserMeta) (encrypt : Bool)
  | copy (env : E) (srcBucket srcKey dstBucket dstKey : Str) (encrypt : Bool)
  | create (env : E) (bucket key contentType : Str) (userMetadata : UserMeta) (encrypt : Bool)
  | part (env : E) (bucket uploadId : Str) (number : Nat) (body : Body)
  | complete (env : E) (bucket key uploadId : Str) (parts : List CompletedPart)
  | abort (bucket uploadId : Str)

namespace PayloadCall

variable {E : Type}

/-- The same call with another payload. -/
def withBody (body : Body) : PayloadCall E → PayloadCall E
  | put env bucket key _ contentType userMetadata encrypt =>
      put env bucket key body contentType userMetadata encrypt
  | part env bucket uploadId number _ => part env bucket uploadId number body
  | c => c

/-- The payload that a call brings. -/
def body? : PayloadCall E → Option Body
  | put _ _ _ body _ _ _ => some body
  | part _ _ _ _ body => some body
  | _ => none

/-- The call's payload, if it brings one, is as long as `body`, and breaks off if that does. -/
def SameLength (body : Body) (c : PayloadCall E) : Prop :=
  ∀ b, c.body? = some b → b.data.length = body.data.length ∧ b.err = body.err

/-- Encryption is in force for the call, where `encrypts` says for which it is. -/
def InForce (encrypts : Bool → Bool) : PayloadCall E → Prop
  | put _ _ _ _ _ _ encrypt => encrypts encrypt = true
  | copy _ _ _ _ _ encrypt => encrypts encrypt = true
  | create _ _ _ _ _ encrypt => encrypts encrypt = true
  | _ => True

/-- An empty payload has no other of its length. -/
theorem withBody_of_empty {c : PayloadCall E} {b body : Body} (hlen : c.SameLength body)
    (hb : c.body? = some b) (hempty : b.data = []) : c.withBody body = c := by
  have hbody : body = b := by
    obtain ⟨hdata, herr⟩ := hlen b hb
    rw [hempty] at hdata
    cases body with
    | mk data err =>
        cases b with
        | mk data' err' =>
            obtain rfl := List.length_eq_zero_iff.1 hdata.symm
            cases hempty
            exact congrArg _ herr.symm
  subst hbody
  cases c with
  | put env bucket key b contentType userMetadata encrypt =>
      obtain rfl := Option.some.inj hb
      rfl
  | part env bucket uploadId number b =>
      obtain rfl := Option.some.inj hb
      rfl
  | _ => rfl

end PayloadCall

end Kerplace
