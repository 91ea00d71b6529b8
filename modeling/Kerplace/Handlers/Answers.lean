/-
# `Kerplace.Handlers.Answers` — what an answer says of the calls behind it

A handler makes its calls one after the other.  A request that is told of a success ended with
a call that succeeded, and a call that fails ends the request with that very error; but the
questions whether a bucket encrypts and whether an object is locked are passed over where they
fail.  The batch delete goes on with the next key, and says in its document what became of each.
-/
import Kerplace.Handlers.Api

namespace Kerplace

open Prog

/-- A log of calls of the trait. -/
abbrev TraitLog : Type := List (Entry TraitCall.Ans)

/-! ## Honest answers -/

/-- A question whose failure is passed over. -/
def TraitCall.aside : TraitCall → Bool
  | .getBucketEncryption _ => true
  | .getObjectRetention .. => true
  | .getObjectLegalHold .. => true
  | _ => false

/-- No other call has failed. -/
def Unfailed (log : TraitLog) : Prop :=
  ∀ c e, (⟨c, .error e⟩ : Entry TraitCall.Ans) ∈ log → c.aside = true

theorem unfailed_nil : Unfailed [] := fun _ _ h => absurd h List.not_mem_nil

theorem Unfailed.ok {log : TraitLog} (h : Unfailed log) (c : TraitCall) (a : c.Gives) :
    Unfailed (log ++ [⟨c, .ok a⟩]) := by
  intro c' e hmem
  rcases List.mem_append.1 hmem with hmem | hmem
  · exact h c' e hmem
  · obtain ⟨rfl, hanswer⟩ := Sigma.mk.inj (List.mem_singleton.1 hmem)
    cases eq_of_heq hanswer

theorem Unfailed.aside {log : TraitLog} (h : Unfailed log) {c : TraitCall}
    (hc : c.aside = true) (r : c.Ans) : Unfailed (log ++ [⟨c, r⟩]) := by
  intro c' e hmem
  rcases List.mem_append.1 hmem with hmem | hmem
  · exact h c' e hmem
  · obtain ⟨rfl, -⟩ := Sigma.mk.inj (List.mem_singleton.1 hmem)
    exact hc

/-- A success comes behind a last call that succeeded, a last call that failed is told as it
did, and no call before it failed but a question that is passed over. -/
structure Honest (log : TraitLog) (r : HttpResponse) : Prop where
  success : r.status < 400 → ∃ pre c a, log = pre ++ [⟨c, .ok a⟩]
  failure : ∀ pre c e, log = pre ++ [⟨c, .error e⟩] → ∃ resource, r = errorResponse e resource
  earlier : Unfailed log.dropLast

theorem honest_refusal (e : S3Error) (resource : Str) : Honest [] (errorResponse e resource) where
  success h := absurd h (not_lt.2 (S3Error.status_le e))
  failure pre c e' h := by
    have hlen := congrArg List.length h
    simp at hlen
  earlier := unfailed_nil

theorem honest_ok {log : TraitLog} (hlog : Unfailed log) (c : TraitCall) (a : c.Gives)
    (r : HttpResponse) :
    Honest (log ++ [⟨c, .ok a⟩]) r where
  success _ := ⟨log, c, a, rfl⟩
  failure pre c' e h := by
    obtain ⟨-, hlast⟩ := List.append_inj' h rfl
    obtain ⟨rfl, hanswer⟩ := Sigma.mk.inj (List.singleton_inj.1 hlast)
    cases eq_of_heq hanswer
  earlier := List.dropLast_concat ▸ hlog

theorem honest_error {log : TraitLog} (hlog : Unfailed log) (c : TraitCall) (e : S3Error)
    (resource : Str) :
    Honest (log ++ [⟨c, .error e⟩]) (errorResponse e resource) where
  success h := absurd h (not_lt.2 (S3Error.status_le e))
  failure pre c' e' h := by
    obtain ⟨-, hlast⟩ := List.append_inj' h rfl
    obtain ⟨rfl, hanswer⟩ := Sigma.mk.inj (List.singleton_inj.1 hlast)
    exact ⟨resource, by rw [Except.error.inj (eq_of_heq hanswer)]⟩
  earlier := List.dropLast_concat ▸ hlog

namespace Api

variable {E : ApiEnv} {bucket key : Str} {past : TraitLog}

theorem logs_answer (hpast : Unfailed past) (c : TraitCall) (resource : Str)
    (f : c.Gives → HttpResponse) : Logs Honest past (answer c resource f) := by
  intro r
  cases r with
  | ok a => exact honest_ok hpast c a _
  | error e => exact honest_error hpast c e resource

theorem logs_bucketSse {Q : TraitLog → HttpResponse → Prop} {f : Bool → Api HttpResponse}
    (hpast : Unfailed past) (hf : ∀ sse past', Unfailed past' → Logs Q past' (f sse)) :
    Logs Q past (bucketSse bucket >>= f) := by
  intro r
  have hnext := hpast.aside (c := .getBucketEncryption bucket) rfl r
  cases r with
  | ok a => exact hf _ _ hnext
  | error e => exact hf _ _ hnext

theorem logs_withDoc {α : Type} {body : Body} {resource : Str} {read : Str → Except String α}
    {complaint : String → String} {k : α → Api HttpResponse} (hk : ∀ a, Logs Honest [] (k a)) :
    Logs Honest [] (withDoc E body resource read complaint k) := by
  unfold withDoc
  split
  · exact honest_refusal _ _
  · split
    · exact honest_refusal _ _
    · exact hk _

theorem logs_withSmallDoc {α : Type} {body : Body} {resource : Str} {unreadable : String}
    {read : Str → Except String α} {complaint : String} {k : α → Api HttpResponse}
    (hk : ∀ a, Logs Honest [] (k a)) :
    Logs Honest [] (withSmallDoc E body resource unreadable read complaint k) := by
  unfold withSmallDoc
  split
  · exact honest_refusal _ _
  · split
    · exact honest_refusal _ _
    · exact hk _

/-! ## Bucket handlers -/

theorem logs_listObjectsInner (params : Str → Option Str) :
    Logs Honest [] (listObjectsInner E bucket params) := by
  intro r
  cases r with
  | ok listing => exact honest_ok unfailed_nil _ listing _
  | error e => exact honest_error unfailed_nil _ e _

theorem logs_listObjects (params : Str → Option Str) :
    Logs Honest [] (listObjects E bucket params) := by
  unfold listObjects
  split
  · exact logs_answer unfailed_nil _ _ _
  split
  · exact logs_answer unfailed_nil _ _ _
  split
  · exact logs_answer unfailed_nil _ _ _
  split
  · exact logs_answer unfailed_nil _ _ _
  split
  · exact logs_answer unfailed_nil _ _ _
  split
  · exact logs_answer unfailed_nil _ _ _
  split
  · exact logs_answer unfailed_nil _ _ _
  · exact logs_listObjectsInner params

theorem logs_createBucket (params : Str → Option Str) (body : Body) :
    Logs Honest [] (createBucket E bucket params body) := by
  unfold createBucket
  split
  · exact logs_withDoc fun _ => logs_answer unfailed_nil _ _ _
  split
  · exact logs_withDoc fun _ => logs_answer unfailed_nil _ _ _
  split
  · exact logs_withDoc fun _ => logs_answer unfailed_nil _ _ _
  split
  · exact logs_withDoc fun _ => logs_answer unfailed_nil _ _ _
  split
  · exact logs_withDoc fun _ => logs_answer unfailed_nil _ _ _
  split
  · exact logs_answer unfailed_nil _ _ _
  · exact logs_answer unfailed_nil _ _ _

theorem logs_deleteBucket (params : Str → Option Str) :
    Logs Honest [] (deleteBucket bucket params) := by
  unfold deleteBucket
  dsimp only
  split
  · exact logs_answer unfailed_nil _ _ _
  split
  · exact logs_answer unfailed_nil _ _ _
  split
  · exact logs_answer unfailed_nil _ _ _
  split
  · exact logs_answer unfailed_nil _ _ _
  · exact logs_answer unfailed_nil _ _ _

theorem logs_formFields (s : FormState) (fields : List FormField) :
    Logs Honest [] (formFields E bucket s fields) := by
  induction fields generalizing s with
  | nil => exact honest_refusal _ _
  | cons field fields ih =>
      rw [formFields]
      split
      · split
        · exact honest_refusal _ _
        · exact logs_bucketSse unfailed_nil fun _ _ h => logs_answer h _ _ _
      · split
        · exact ih s
        · exact ih _

/-! ## Object handlers -/

theorem logs_getObjectDispatch (req : Request) (params : Str → Option Str) :
    Logs Honest [] (getObjectDispatch E bucket key req params) := by
  unfold getObjectDispatch
  split
  · exact logs_listObjectsInner params
  split
  · exact logs_answer unfailed_nil _ _ _
  split
  · exact logs_answer unfailed_nil _ _ _
  split
  · exact logs_answer unfailed_nil _ _ _
  split
  · exact logs_answer unfailed_nil _ _ _
  split
  · exact logs_answer unfailed_nil _ _ _
  split
  · intro r
    cases r with
    | ok m => exact logs_answer (unfailed_nil.ok _ m) _ _ _
    | error e => exact honest_error unfailed_nil _ e _
  · exact logs_answer unfailed_nil _ _ _

theorem logs_headObject (params : Str → Option Str) :
    Logs Honest [] (headObject E bucket key params) := by
  unfold headObject
  split
  · exact logs_answer unfailed_nil _ _ _
  split
  · exact logs_answer unfailed_nil _ _ _
  · exact logs_answer unfailed_nil _ _ _

/-- The check refuses behind an answer it could read. -/
theorem logs_checkObjectLock {f : Except S3Error Unit → Api HttpResponse}
    (hpast : Unfailed past) (hfree : ∀ past', Unfailed past' → Logs Honest past' (f (.ok ())))
    (hlocked : ∀ past' c a, Unfailed past' →
      Logs Honest (past' ++ [⟨c, .ok a⟩]) (f (.error .objectLocked))) :
    Logs Honest past (checkObjectLock E bucket key >>= f) := by
  have hretention {past' : TraitLog} (hpast' : Unfailed past') :
      Logs Honest past' (checkObjectLock.retention E bucket key >>= f) := by
    intro r
    have hnext := hpast'.aside (c := .getObjectRetention bucket key) rfl r
    cases r with
    | error e => exact hfree _ hnext
    | ok raw =>
        cases raw with
        | none => exact hfree _ hnext
        | some raw =>
            show Logs Honest _ (f (if _ then _ else _))
            split
            · exact hlocked _ _ _ hpast'
            · exact hfree _ hnext
  intro r
  have hnext := hpast.aside (c := .getObjectLegalHold bucket key) rfl r
  cases r with
  | error e => exact hretention hnext
  | ok status =>
      cases status with
      | none => exact hretention hnext
      | some status =>
          show Logs Honest _ ((if _ then _ else _) >>= f)
          split
          · exact hlocked _ _ _ hpast
          · exact hretention hnext

theorem logs_deleteUnlocked (c : TraitCall) (f : c.Gives → HttpResponse) :
    Logs Honest [] (deleteUnlocked E bucket key c f) :=
  logs_checkObjectLock unfailed_nil (fun _ h => logs_answer h _ _ _)
    fun _ c' a h => honest_ok h c' a _

theorem logs_deleteObjectDispatch (params : Str → Option Str) :
    Logs Honest [] (deleteObjectDispatch E bucket key params) := by
  unfold deleteObjectDispatch
  split
  · exact logs_answer unfailed_nil _ _ _
  split
  · exact logs_answer unfailed_nil _ _ _
  split
  · exact logs_answer unfailed_nil _ _ _
  split
  · exact logs_deleteUnlocked _ _
  · exact logs_deleteUnlocked _ _

theorem logs_putObjectDispatch (req : Request) (params : Str → Option Str) (body : Body) :
    Logs Honest [] (putObjectDispatch E bucket key req params body) := by
  unfold putObjectDispatch
  split
  · exact logs_answer unfailed_nil _ _ _
  split
  · unfold uploadPart
    split
    · exact honest_refusal _ _
    · exact logs_answer unfailed_nil _ _ _
  split
  · exact logs_withSmallDoc fun _ => logs_answer unfailed_nil _ _ _
  split
  · exact logs_withSmallDoc fun _ => logs_answer unfailed_nil _ _ _
  split
  · refine logs_withSmallDoc fun _ => ?_
    dsimp only
    split
    · exact honest_refusal _ _
    · exact logs_answer unfailed_nil _ _ _
  split
  · unfold copyObject
    split
    · exact honest_refusal _ _
    · exact logs_bucketSse unfailed_nil fun _ _ h => logs_answer h _ _ _
  · exact logs_bucketSse unfailed_nil fun _ _ h => logs_answer h _ _ _

/-! ## The batch delete -/

/-- The entry of a key's deletion. -/
def deletion (bucket : Str) (r : Str × Except S3Error DeleteOutcome) : Entry TraitCall.Ans :=
  ⟨.deleteObject bucket r.1, r.2⟩

/-- The line of a key that is gone. -/
def gone (r : Str × Except S3Error DeleteOutcome) : Option Str :=
  match r.2 with
  | .ok _ => some r.1
  | .error _ => none

/-- The line of a key that is not. -/
def kept (r : Str × Except S3Error DeleteOutcome) : Option DeleteError :=
  match r.2 with
  | .ok _ => none
  | .error e => some ⟨r.1, e.code, e.message⟩

/-- Each key was deleted once, in order, and the document says what became of it: of those that
are gone only where it is not to be quiet. -/
structure Tallied (bucket : Str) (quiet : Bool) (keys : List Str) (log : TraitLog)
    (deleted : List Str) (errors : List DeleteError) : Prop where
  outcomes : ∃ rs : List (Str × Except S3Error DeleteOutcome), rs.map Prod.fst = keys ∧
    log = rs.map (deletion bucket) ∧ deleted = (if quiet then [] else rs.filterMap gone) ∧
    errors = rs.filterMap kept

theorem logs_deleteEach (quiet : Bool) (keys : List Str) :
    Logs (fun log r => ∃ log', log = past ++ log' ∧ Tallied bucket quiet keys log' r.1 r.2) past
      (deleteEach bucket quiet keys) := by
  induction keys generalizing past with
  | nil =>
      have hnone : (if quiet then [] else ([] : List Str)) = [] := ite_self _
      exact ⟨[], (List.append_nil past).symm, ⟨⟨[], rfl, rfl, hnone.symm, rfl⟩⟩⟩
  | cons key keys ih =>
      intro r
      show Logs _ (past ++ [⟨.deleteObject bucket key, r⟩]) (deleteEach bucket quiet keys >>= _)
      refine logs_bind.2 (ih.mono ?_)
      rintro past' ⟨deleted, errors⟩ ⟨log, hlog, ⟨rs, hkeys, hrs, hdeleted, herrors⟩⟩
      dsimp only at hdeleted herrors
      cases r with
      | ok outcome =>
          refine ⟨deletion bucket (key, .ok outcome) :: log, ?_,
            ⟨(key, .ok outcome) :: rs, ?_, ?_, ?_, ?_⟩⟩
          · rw [hlog, List.append_assoc]
            rfl
          · rw [List.map_cons, hkeys]
          · rw [List.map_cons, hrs]
          · rw [hdeleted]
            cases quiet <;> rfl
          · exact herrors
      | error e =>
          refine ⟨deletion bucket (key, .error e) :: log, ?_,
            ⟨(key, .error e) :: rs, ?_, ?_, ?_, ?_⟩⟩
          · rw [hlog, List.append_assoc]
            rfl
          · rw [List.map_cons, hkeys]
          · rw [List.map_cons, hrs]
          · exact hdeleted
          · rw [herrors]
            rfl

/-- The answer is the last call's; or it is a batch delete's, and accounts for each key. -/
def Accounted (log : TraitLog) (r : HttpResponse) : Prop :=
  Honest log r ∨ ∃ bucket quiet keys deleted errors,
    r = xmlResponse (.deleteResult deleted errors) ∧ Tallied bucket quiet keys log deleted errors

theorem logs_postBucketInner (params : Str → Option Str) (body : Str) :
    Logs Accounted [] (postBucketInner E bucket params body) := by
  unfold postBucketInner
  split
  · exact .inl (honest_refusal _ _)
  split
  · exact .inl (honest_refusal _ _)
  · rename_i objects quiet hread
    refine logs_bind.2 ((logs_deleteEach quiet objects).mono ?_)
    rintro log ⟨deleted, errors⟩ ⟨log', hlog, htallied⟩
    rw [List.nil_append] at hlog
    exact .inr ⟨bucket, quiet, objects, deleted, errors, rfl, hlog ▸ htallied⟩

theorem Logs.accounted {p : Api HttpResponse} (hp : Logs Honest past p) :
    Logs Accounted past p := hp.mono fun _ _ h => .inl h

theorem logs_postBucket (req : Request) (params : Str → Option Str) (body : Body) :
    Logs Accounted [] (postBucket E bucket req params body) := by
  unfold postBucket
  dsimp only
  split
  · unfold postFormObject
    split
    · exact .inl (honest_refusal _ _)
    · exact Logs.accounted (logs_formFields _ _)
  · exact logs_postBucketInner params _

theorem logs_postObjectDispatch (req : Request) (params : Str → Option Str) (body : Body) :
    Logs Accounted [] (postObjectDispatch E bucket key req params body) := by
  unfold postObjectDispatch
  split
  · exact logs_postBucketInner params _
  split
  · exact Logs.accounted (logs_bucketSse unfailed_nil fun _ _ h => logs_answer h _ _ _)
  split
  · exact Logs.accounted (logs_withSmallDoc fun _ => logs_answer unfailed_nil _ _ _)
  split
  · exact Logs.accounted (logs_withSmallDoc fun _ => logs_answer unfailed_nil _ _ _)
  · exact .inl (honest_refusal _ _)

theorem honest_rejection : Honest [] pathRejection where
  success h := absurd h (by decide)
  failure pre c e h := by
    have hlen := congrArg List.length h
    simp at hlen
  earlier := unfailed_nil

theorem logs_run {req : Request} {identity : Option Identity} {body : Body} {h : Handler}
    {p : Api HttpResponse} (hrun : run E req identity body h = some p) :
    Logs Accounted [] p := by
  cases h with
  | health => cases hrun
  | sts => cases hrun
  | admin a => cases hrun
  | object o =>
      rw [run] at hrun
      obtain rfl := Option.some.inj hrun
      split
      · exact .inl honest_rejection
      cases o with
      | getObjectDispatch => exact Logs.accounted (logs_getObjectDispatch req _)
      | putObjectDispatch => exact Logs.accounted (logs_putObjectDispatch req _ body)
      | headObject => exact Logs.accounted (logs_headObject _)
      | deleteObjectDispatch => exact Logs.accounted (logs_deleteObjectDispatch _)
      | postObjectDispatch => exact logs_postObjectDispatch req _ body
  | bucket o =>
      by_cases hlist : o = .listBuckets
      · subst hlist
        obtain rfl := Option.some.inj hrun
        exact Logs.accounted (logs_answer unfailed_nil _ _ _)
      rcases bucket_of_run hlist hrun with rfl | ⟨bucket, -, rfl⟩
      · exact .inl honest_rejection
      cases o with
      | listBuckets => exact absurd rfl hlist
      | listObjects => exact Logs.accounted (logs_listObjects _)
      | createBucket => exact Logs.accounted (logs_createBucket _ body)
      | deleteBucket => exact Logs.accounted (logs_deleteBucket _)
      | headBucket => exact Logs.accounted (logs_answer unfailed_nil _ _ _)
      | postBucket => exact logs_postBucket req _ body

end Api

end Kerplace
