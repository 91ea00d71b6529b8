/-
# `Kerplace.Handlers.Sealing` — which writes are told to encrypt

The handlers that store an object or open an upload ask the bucket first whether it encrypts,
and then tell the store.  No other handler stores anything, and the three that may ask for
encryption by a header, and the form that may not, make no other call.
-/
import Kerplace.Handlers.Api

namespace Kerplace

open Prog

namespace Api

variable {E : ApiEnv} {bucket key : Str}

/-- A call that stores no object and opens no upload. -/
structure StoresNothing (c : TraitCall) : Prop where
  encrypts : c.encrypts = none

/-- A program stores nothing, or asks the bucket and makes one call that stores, told to
encrypt where it was `told` so or the bucket says so. -/
def Seals (bucket : Str) (told : Bool) (p : Api HttpResponse) : Prop :=
  Calls StoresNothing p ∨
    ∃ (c : Bool → TraitCall) (resource : Str) (f : (sse : Bool) → (c sse).Gives → HttpResponse),
      p = (bucketSse bucket >>= fun sse => answer (c sse) resource (f sse)) ∧
        ∀ sse, (c sse).bucket = some bucket ∧ (c sse).encrypts = some (told || sse)

theorem Seals.plain {told : Bool} {p : Api HttpResponse}
    (hp : Calls StoresNothing p) : Seals bucket told p := .inl hp

theorem storesNothing_of_reads {c : TraitCall} (hc : c.reads = true) : StoresNothing c := by
  cases c with
  | putObject => cases hc
  | copyObject => cases hc
  | createMultipart => cases hc
  | _ => exact ⟨rfl⟩

theorem Seals.looks {told : Bool} {p : Api HttpResponse} (hp : Calls (OnBucket true bucket) p) :
    Seals bucket told p := .inl (hp.mono fun _ hc => storesNothing_of_reads hc.kind)

/-! ## The handlers -/

theorem plain_createBucket (params : Str → Option Str) (body : Body) :
    Calls StoresNothing (createBucket E bucket params body) := by
  unfold createBucket
  split
  · exact calls_withDoc fun _ => calls_answer ⟨rfl⟩ _ _
  split
  · exact calls_withDoc fun _ => calls_answer ⟨rfl⟩ _ _
  split
  · exact calls_withDoc fun _ => calls_answer ⟨rfl⟩ _ _
  split
  · exact calls_withDoc fun _ => calls_answer ⟨rfl⟩ _ _
  split
  · exact calls_withDoc fun _ => calls_answer ⟨rfl⟩ _ _
  split
  · exact calls_answer ⟨rfl⟩ _ _
  · exact calls_answer ⟨rfl⟩ _ _

theorem plain_deleteBucket (params : Str → Option Str) :
    Calls StoresNothing (deleteBucket bucket params) := by
  unfold deleteBucket
  dsimp only
  split
  · exact calls_answer ⟨rfl⟩ _ _
  split
  · exact calls_answer ⟨rfl⟩ _ _
  split
  · exact calls_answer ⟨rfl⟩ _ _
  split
  · exact calls_answer ⟨rfl⟩ _ _
  · exact calls_answer ⟨rfl⟩ _ _

theorem plain_postBucketInner (params : Str → Option Str) (body : Str) :
    Calls StoresNothing (postBucketInner E bucket params body) := by
  have heach (quiet : Bool) (keys : List Str) :
      Calls StoresNothing (deleteEach bucket quiet keys) := by
    induction keys with
    | nil => exact calls_pure _
    | cons key keys ih =>
        refine (calls_op ⟨rfl⟩).bind fun r => ih.bind fun rest => ?_
        cases r with
        | ok a => exact calls_pure _
        | error e => exact calls_pure _
  unfold postBucketInner
  split
  · exact calls_pure _
  split
  · exact calls_pure _
  · exact (heach _ _).bind fun _ => calls_pure _

theorem seals_formFields (s : FormState) (fields : List FormField) :
    Seals bucket E.encryptionEnabled (formFields E bucket s fields) := by
  induction fields generalizing s with
  | nil => exact .plain (calls_pure _)
  | cons field fields ih =>
      rw [formFields]
      split
      · split
        · exact .plain (calls_pure _)
        · exact .inr ⟨_, _, _, rfl, fun sse => ⟨rfl, congrArg some (Bool.or_comm _ _)⟩⟩
      · split
        · exact ih s
        · exact ih _

theorem seals_postBucket (req : Request) (params : Str → Option Str) (body : Body) :
    Seals bucket E.encryptionEnabled (postBucket E bucket req params body) := by
  unfold postBucket
  dsimp only
  split
  · unfold postFormObject
    split
    · exact .plain (calls_pure _)
    · exact seals_formFields _ _
  · exact .plain (plain_postBucketInner params _)

theorem plain_deleteObjectDispatch (params : Str → Option Str) :
    Calls StoresNothing (deleteObjectDispatch E bucket key params) := by
  have hretention : Calls StoresNothing (checkObjectLock.retention E bucket key) := by
    refine (calls_op ⟨rfl⟩).bind fun r => ?_
    split
    · exact calls_pure _
    · exact calls_pure _
  have hcheck : Calls StoresNothing (checkObjectLock E bucket key) := by
    refine (calls_op ⟨rfl⟩).bind fun r => ?_
    split
    · split
      · exact calls_pure _
      · exact hretention
    · exact hretention
  have hunlocked {c : TraitCall} (hc : StoresNothing c) (f : c.Gives → HttpResponse) :
      Calls StoresNothing (deleteUnlocked E bucket key c f) := by
    refine hcheck.bind fun r => ?_
    cases r with
    | ok a => exact calls_answer hc _ _
    | error e => exact calls_pure _
  unfold deleteObjectDispatch
  split
  · exact calls_answer ⟨rfl⟩ _ _
  split
  · exact calls_answer ⟨rfl⟩ _ _
  split
  · exact calls_answer ⟨rfl⟩ _ _
  split
  · exact hunlocked ⟨rfl⟩ _
  · exact hunlocked ⟨rfl⟩ _

theorem flag_eq (requested sse config : Bool) :
    (requested || sse || config) = (config || requested || sse) := by
  cases requested <;> cases sse <;> cases config <;> rfl

theorem seals_putObjectDispatch (req : Request) (params : Str → Option Str) (body : Body) :
    Seals bucket (E.encryptionEnabled || sseRequested req)
      (putObjectDispatch E bucket key req params body) := by
  unfold putObjectDispatch
  split
  · exact .plain (calls_answer ⟨rfl⟩ _ _)
  split
  · unfold uploadPart
    split
    · exact .plain (calls_pure _)
    · exact .plain (calls_answer ⟨rfl⟩ _ _)
  split
  · exact .plain (calls_withSmallDoc fun _ => calls_answer ⟨rfl⟩ _ _)
  split
  · exact .plain (calls_withSmallDoc fun _ => calls_answer ⟨rfl⟩ _ _)
  split
  · refine .plain (calls_withSmallDoc fun _ => ?_)
    dsimp only
    split
    · exact calls_pure _
    · exact calls_answer ⟨rfl⟩ _ _
  split
  · unfold copyObject
    split
    · exact .plain (calls_pure _)
    · exact .inr ⟨_, _, _, rfl, fun sse => ⟨rfl, congrArg some (flag_eq _ sse _)⟩⟩
  · exact .inr ⟨_, _, _, rfl, fun sse => ⟨rfl, congrArg some (flag_eq _ sse _)⟩⟩

theorem seals_postObjectDispatch (req : Request) (params : Str → Option Str) (body : Body) :
    Seals bucket (E.encryptionEnabled || sseRequested req)
      (postObjectDispatch E bucket key req params body) := by
  unfold postObjectDispatch
  split
  · exact .plain (plain_postBucketInner params _)
  split
  · exact .inr ⟨_, _, _, rfl, fun sse => ⟨rfl, congrArg some (flag_eq _ sse _)⟩⟩
  split
  · exact .plain (calls_withSmallDoc fun _ => calls_answer ⟨rfl⟩ _ _)
  split
  · exact .plain (calls_withSmallDoc fun _ => calls_answer ⟨rfl⟩ _ _)
  · exact .plain (calls_pure _)

/-- What a request asks for by itself: the configuration, and the header but for a form. -/
def asksSealed (E : ApiEnv) (req : Request) (h : Handler) : Bool :=
  E.encryptionEnabled || (decide (h ≠ .bucket .postBucket) && sseRequested req)

theorem run_seals {req : Request} {identity : Option Identity} {body : Body} {h : Handler}
    {p : Api HttpResponse} (hrun : run E req identity body h = some p) :
    ∃ bucket, Seals bucket (asksSealed E req h) p := by
  cases h with
  | health => cases hrun
  | sts => cases hrun
  | admin a => cases hrun
  | object o =>
      rw [run] at hrun
      obtain rfl := Option.some.inj hrun
      split
      · exact ⟨[], .plain (calls_pure _)⟩
      rename_i bucket key hparams
      refine ⟨bucket, ?_⟩
      cases o with
      | getObjectDispatch => exact .looks (within_getObjectDispatch req _)
      | headObject => exact .looks (within_headObject _)
      | putObjectDispatch => exact seals_putObjectDispatch req _ body
      | deleteObjectDispatch => exact .plain (plain_deleteObjectDispatch _)
      | postObjectDispatch => exact seals_postObjectDispatch req _ body
  | bucket o =>
      by_cases hlist : o = .listBuckets
      · subst hlist
        obtain rfl := Option.some.inj hrun
        exact ⟨[], .plain (calls_answer ⟨rfl⟩ _ _)⟩
      rcases bucket_of_run hlist hrun with rfl | ⟨bucket, -, rfl⟩
      · exact ⟨[], .plain (calls_pure _)⟩
      refine ⟨bucket, ?_⟩
      cases o with
      | listBuckets => exact absurd rfl hlist
      | listObjects => exact .looks (within_listObjects _)
      | createBucket => exact .plain (plain_createBucket _ body)
      | deleteBucket => exact .plain (plain_deleteBucket _)
      | headBucket => exact .plain (calls_answer ⟨rfl⟩ _ _)
      | postBucket =>
          have htold : asksSealed E req (.bucket .postBucket) = E.encryptionEnabled := by
            simp [asksSealed]
          rw [htold]
          exact seals_postBucket req _ body

/-- Over every store, a call of a request that stores an object or opens an upload comes right
after the question whether its bucket encrypts, with no call before or after these two; and it
is told to encrypt just where the configuration says so, the answer was that the bucket does, or
the request has the header and is no form. -/
theorem request_seals {req : Request} {identity : Option Identity} {body : Body} {h : Handler}
    {p : Api HttpResponse} (hrun : run E req identity body h = some p) {σ : Type}
    (store : (c : TraitCall) → σ → c.Ans × σ) (s : σ) :
    ∀ entry ∈ Prog.log store p s, ∀ encrypt, entry.1.encrypts = some encrypt →
      ∃ bucket answered, entry.1.bucket = some bucket ∧
        Prog.log store p s = [⟨.getBucketEncryption bucket, answered⟩, entry] ∧
        encrypt = (asksSealed E req h || saysSealed answered) := by
  intro entry hentry encrypt hencrypt
  obtain ⟨bucket, hplain | ⟨c, resource, f, rfl, hc⟩⟩ := run_seals hrun
  · have hnone := (hplain.log s entry hentry).encrypts
    rw [hencrypt] at hnone
    cases hnone
  · let asked := store (.getBucketEncryption bucket) s
    let stored := store (c (saysSealed asked.1)) asked.2
    have hlog : Prog.log store (bucketSse bucket >>= fun sse => answer (c sse) resource (f sse)) s =
        [⟨.getBucketEncryption bucket, asked.1⟩, ⟨c (saysSealed asked.1), stored.1⟩] :=
      (log_bucketSse bucket _ s).trans (congrArg _ (log_answer _ resource _ _))
    rw [hlog] at hentry ⊢
    rcases List.mem_cons.1 hentry with rfl | hentry
    · cases hencrypt
    · obtain rfl := List.mem_singleton.1 hentry
      obtain ⟨hb, he⟩ := hc (saysSealed asked.1)
      exact ⟨bucket, asked.1, hb, rfl, Option.some.inj (hencrypt.symm.trans he)⟩

/-- What a clerk sends to write an object that is to be encrypted. -/
def clerkSealed : Request :=
  ⟨.put, "/b/k".toList, none, [("authorization".toList, none),
    (X_AMZ_SSE, some "aes256".toList)], none⟩

/-- The store is told so, though the bucket could not be asked. -/
theorem request_seals_clerk :
    ∃ bucket answered,
      Prog.log noBuckets (clerkRun "readwrite" clerkSealed (.object .putObjectDispatch)) () =
        [⟨.getBucketEncryption bucket, answered⟩,
          ⟨.putObject "b".toList "k".toList (.ofBytes []) (contentTypeOf clerkSealed)
            (extractUserMetadata clerkSealed) true, .error .noSuchBucket⟩] := by
  have hrun : run plainEnv clerkSealed (some (clerk "readwrite")) (.ofBytes [])
      (.object .putObjectDispatch) =
      some (clerkRun "readwrite" clerkSealed (.object .putObjectDispatch)) := rfl
  obtain ⟨bucket, answered, -, hlog, -⟩ := request_seals hrun noBuckets ()
    ⟨.putObject "b".toList "k".toList (.ofBytes []) (contentTypeOf clerkSealed)
      (extractUserMetadata clerkSealed) true, .error .noSuchBucket⟩
    (List.mem_cons_of_mem _ List.mem_cons_self) true rfl
  exact ⟨bucket, answered, hlog⟩

end Api

end Kerplace
