/-
# `Kerplace.Storage.Uploads` — the multipart calls of a run

Both backends take the same multipart calls among others.  An upload id is handed out for a
bucket and a key; parts, listings, completions and aborts present it for one.
-/
import Kerplace.Storage.Types
import Kerplace.Lib.Tickets

namespace Kerplace

/-- The multipart calls, over the surroundings `E` of a call, and other calls `O`. -/
inductive UploadCall (E O : Type) where
  | create (env : E) (bucket key contentType : Str) (userMetadata : UserMeta) (encrypt : Bool)
  | part (env : E) (bucket key uploadId : Str) (number : Nat) (body : Body)
  | complete (env : E) (bucket key uploadId : Str) (parts : List CompletedPart)
  | abort (bucket key uploadId : Str)
  | list (bucket key uploadId : Str)
  | other (call : O)

namespace UploadCall

variable {E O : Type}

/-- What a call has to do with upload ids. -/
def deed : UploadCall E O → Deed Str (Str × Str)
  | create _ bucket key _ _ _ => .issue (bucket, key)
  | part _ bucket key uploadId _ _ => .present uploadId (bucket, key) false
  | complete _ bucket key uploadId _ => .present uploadId (bucket, key) true
  | abort bucket key uploadId => .present uploadId (bucket, key) true
  | list bucket key uploadId => .present uploadId (bucket, key) false
  | other _ => .other

/-- Presented for a bucket and a key, the id is `plain`, and if it stands for anything then for
these. -/
def Named (plain : Str → Str → Prop) (held : Str → Option (Str × Str))
    (bucket key uploadId : Str) : Prop :=
  plain bucket uploadId ∧ ∀ t, held uploadId = some t → t = (bucket, key)

/-- A call that keeps uploads apart: a creation, in a bucket with a valid name, draws an id
that stands for nothing; an id presented is named; and other calls are ordinary ones. -/
def Orderly (mints : E → Str → Prop) (plain : Str → Str → Prop) (ordinary : O → Prop)
    (held : Str → Option (Str × Str)) : UploadCall E O → Prop
  | create env bucket _ _ _ _ =>
      validateBucketName bucket = .ok () ∧ ∀ u, mints env u → held u = none
  | part _ bucket key uploadId _ _ => Named plain held bucket key uploadId
  | complete _ bucket key uploadId _ => Named plain held bucket key uploadId
  | abort bucket key uploadId => Named plain held bucket key uploadId
  | list bucket key uploadId => Named plain held bucket key uploadId
  | other call => ordinary call

end UploadCall

section

variable {E O ι : Type} (call : ι → UploadCall E O)

/-- The desk of a machine whose inputs hold multipart calls; a creation answers with the id. -/
def uploadDesk : Desk ι (Except S3Error (Option Str)) Str (Str × Str) where
  deed c := (call c).deed
  handed r := (r.toOption).bind id
  accepts r := r.isOk

variable {call} {held : Str → Option (Str × Str)} {c : ι}

theorem next_error (e : S3Error) : (uploadDesk call).next held c (.error e) = held := by
  unfold Desk.next
  cases (uploadDesk call).deed c with
  | issue t => rfl
  | present u t uses =>
      have hfails : (uses && (uploadDesk call).accepts (.error e)) = false := Bool.and_false uses
      simp only [hfails, Bool.false_eq_true, if_false]
  | other => rfl

theorem next_ok {u : Str} {t : Str × Str} {uses : Bool} {a : Option Str}
    (hc : (call c).deed = .present u t uses) :
    (uploadDesk call).next held c (.ok a) =
      if uses then Function.update held u none else held := by
  have haccepts : (uploadDesk call).accepts (.ok a) = true := rfl
  simp only [Desk.next, show (uploadDesk call).deed c = _ from hc, haccepts, Bool.and_true]

end

end Kerplace
