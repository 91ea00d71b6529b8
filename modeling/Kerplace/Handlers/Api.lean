/-
# `Kerplace.Handlers.Api` — what a request may ask of the store

The middleware decides by the method and by the first segment of the raw path; the handlers
act on the bucket of the decoded path and choose between their operations by the query, the
headers and the body.  So every call of every handler is held to two things: it acts on the
bucket of the path, and it is of the kind the method stands for.  A copy's source is held to
neither.
-/
import Kerplace.Auth.Gate
import Kerplace.Handlers.ObjectApi
import Kerplace.Lib.Logs

namespace Kerplace

open Prog

/-! ## Every handler -/

namespace Api

variable (E : ApiEnv)

/-- The handlers of `bucket` that have one. -/
def bucketHandler (bucket : Str) (req : Request) (identity : Option Identity) (body : Body)
    (params : Str → Option Str) : BucketHandler → Api HttpResponse
  | .listBuckets => listBuckets identity
  | .listObjects => listObjects E bucket params
  | .createBucket => createBucket E bucket params body
  | .deleteBucket => deleteBucket bucket params
  | .headBucket => headBucketInner bucket
  | .postBucket => postBucket E bucket req params body

/-- The handlers of `object`. -/
def objectHandler (bucket key : Str) (req : Request) (body : Body)
    (params : Str → Option Str) : ObjectHandler → Api HttpResponse
  | .getObjectDispatch => getObjectDispatch E bucket key req params
  | .putObjectDispatch => putObjectDispatch E bucket key req params body
  | .headObject => headObject E bucket key params
  | .deleteObjectDispatch => deleteObjectDispatch E bucket key params
  | .postObjectDispatch => postObjectDispatch E bucket key req params body

/-- The first segment of a path, and the text of the others. -/
def pathParams (path : Str) : Option (Str × Str) := do
  let xs ← segments path
  let bucket ← xs.head?
  pure (bucket, ['/'].intercalate xs.tail)

/-- The answer to a path that does not decode to text. -/
def pathRejection : HttpResponse := ⟨400, [], .rejection⟩

/-- A bucket or object handler on its request: the path's parameters are decoded. -/
def run (req : Request) (identity : Option Identity) (body : Body) :
    Handler → Option (Api HttpResponse)
  | .bucket .listBuckets => some (listBuckets identity)
  | .bucket h => some
      (match (pathParams req.path).bind fun p => E.decodePath p.1 with
      | none => pure pathRejection
      | some bucket =>
          bucketHandler E bucket req identity body (parseQuery E.percent req.query) h)
  | .object h => some
      (match (pathParams req.path).bind fun p =>
        (E.decodePath p.1).bind fun bucket => (E.decodePath p.2).map fun key => (bucket, key) with
      | none => pure pathRejection
      | some (bucket, key) =>
          objectHandler E bucket key req body (parseQuery E.percent req.query) h)
  | _ => none

end Api

/-! ## Calls -/

/-- A call on a bucket, and of a kind: one that looks, or one that writes or is asked on the
way to a write. -/
structure OnBucket (looks : Bool) (bucket : Str) (c : TraitCall) : Prop where
  bucket : c.bucket = some bucket
  kind : if looks then c.reads = true else c.reads = false ∨ c.asks = true

theorem OnBucket.look {bucket : Str} {c : TraitCall} (hb : c.bucket = some bucket)
    (hr : c.reads = true) : OnBucket true bucket c := ⟨hb, hr⟩

theorem OnBucket.write {bucket : Str} {c : TraitCall} (hb : c.bucket = some bucket)
    (hw : c.reads = false ∨ c.asks = true) : OnBucket false bucket c := ⟨hb, hw⟩

/-- The calls of a program are in `P`, whatever is answered. -/
def Calls (P : TraitCall → Prop) {α : Type} (p : Api α) : Prop :=
  Meets ⟨P, fun _ _ => True⟩ p fun _ => True

section

variable {P P' : TraitCall → Prop} {α β : Type}

theorem calls_pure (a : α) : Calls P (pure a : Api α) := trivial

theorem calls_op {c : TraitCall} (hc : P c) : Calls P (Prog.op c) :=
  meets_op.2 ⟨hc, fun _ _ => trivial⟩

theorem Calls.bind {p : Api α} {f : α → Api β} (hp : Calls P p) (hf : ∀ a, Calls P (f a)) :
    Calls P (p >>= f) := Meets.then hp hf

theorem Calls.mono {p : Api α} (hp : Calls P p) (h : ∀ c, P c → P' c) : Calls P' p :=
  Meets.weaken hp h fun _ _ _ _ => trivial

theorem Calls.log {p : Api α} (hp : Calls P p) {σ : Type}
    {store : (c : TraitCall) → σ → c.Ans × σ} (s : σ) : ∀ e ∈ Prog.log store p s, P e.1 :=
  Meets.log (fun _ _ => trivial) hp s

end

namespace Api

variable {P : TraitCall → Prop} {E : ApiEnv} {bucket key : Str}

theorem calls_answer {c : TraitCall} (hc : P c) (resource : Str) (f : c.Gives → HttpResponse) :
    Calls P (answer c resource f) := by
  refine (calls_op hc).bind fun r => ?_
  cases r with
  | ok a => exact calls_pure _
  | error e => exact calls_pure _

theorem calls_withDoc {α : Type} {body : Body} {resource : Str} {read : Str → Except String α}
    {complaint : String → String} {k : α → Api HttpResponse} (hk : ∀ a, Calls P (k a)) :
    Calls P (withDoc E body resource read complaint k) := by
  unfold withDoc
  split
  · exact calls_pure _
  · split
    · exact calls_pure _
    · exact hk _

theorem calls_withSmallDoc {α : Type} {body : Body} {resource : Str} {unreadable : String}
    {read : Str → Except String α} {complaint : String} {k : α → Api HttpResponse}
    (hk : ∀ a, Calls P (k a)) :
    Calls P (withSmallDoc E body resource unreadable read complaint k) := by
  unfold withSmallDoc
  split
  · exact calls_pure _
  · split
    · exact calls_pure _
    · exact hk _

theorem calls_bucketSse (hc : P (.getBucketEncryption bucket)) : Calls P (bucketSse bucket) := by
  refine (calls_op hc).bind fun r => ?_
  cases r with
  | ok a => exact calls_pure _
  | error e => exact calls_pure _

/-! ## Runs -/

/-- What a call's answer is told as. -/
def told {α : Type} (resource : Str) (f : α → HttpResponse) : Except S3Error α → HttpResponse
  | .ok a => f a
  | .error e => errorResponse e resource

/-- Whether an answer says that a bucket encrypts. -/
def saysSealed : Except S3Error (Option Str) → Bool
  | .ok sse => sse.isSome
  | .error _ => false

section

variable {σ : Type} {store : (c : TraitCall) → σ → c.Ans × σ}

theorem exec_answer (c : TraitCall) (resource : Str) (f : c.Gives → HttpResponse) (s : σ) :
    Prog.exec store (answer c resource f) s = (told resource f (store c s).1, (store c s).2) := by
  rw [answer, exec_bind, exec_op]
  cases (store c s).1 with
  | ok a => rfl
  | error e => rfl

theorem log_answer (c : TraitCall) (resource : Str) (f : c.Gives → HttpResponse) (s : σ) :
    Prog.log store (answer c resource f) s = [⟨c, (store c s).1⟩] := by
  show _ :: Prog.log store (_ : Api HttpResponse) _ = _
  cases (store c s).1 with
  | ok a => rfl
  | error e => rfl

theorem exec_bucketSse {α : Type} (bucket : Str) (f : Bool → Api α) (s : σ) :
    Prog.exec store (bucketSse bucket >>= f) s =
      Prog.exec store (f (saysSealed (store (.getBucketEncryption bucket) s).1))
        (store (.getBucketEncryption bucket) s).2 := by
  rw [exec_bind, bucketSse, exec_bind, exec_op]
  cases (store (.getBucketEncryption bucket) s).1 with
  | ok a => rfl
  | error e => rfl

theorem log_bucketSse {α : Type} (bucket : Str) (f : Bool → Api α) (s : σ) :
    Prog.log store (bucketSse bucket >>= f) s =
      ⟨.getBucketEncryption bucket, (store (.getBucketEncryption bucket) s).1⟩ ::
        Prog.log store (f (saysSealed (store (.getBucketEncryption bucket) s).1))
          (store (.getBucketEncryption bucket) s).2 := by
  show _ :: Prog.log store (_ : Api α) _ = _
  cases (store (.getBucketEncryption bucket) s).1 with
  | ok a => rfl
  | error e => rfl

end

/-! ## Bucket handlers -/

theorem within_listObjectsInner (params : Str → Option Str) :
    Calls (OnBucket true bucket) (listObjectsInner E bucket params) := by
  refine (calls_op (OnBucket.look rfl rfl)).bind fun r => ?_
  split
  · exact calls_pure _
  · exact calls_pure _

theorem within_listObjects (params : Str → Option Str) :
    Calls (OnBucket true bucket) (listObjects E bucket params) := by
  unfold listObjects
  split
  · exact calls_answer (OnBucket.look rfl rfl) _ _
  split
  · exact calls_answer (OnBucket.look rfl rfl) _ _
  split
  · exact calls_answer (OnBucket.look rfl rfl) _ _
  split
  · exact calls_answer (OnBucket.look rfl rfl) _ _
  split
  · exact calls_answer (OnBucket.look rfl rfl) _ _
  split
  · exact calls_answer (OnBucket.look rfl rfl) _ _
  split
  · exact calls_answer (OnBucket.look rfl rfl) _ _
  · exact within_listObjectsInner params

theorem within_createBucket (params : Str → Option Str) (body : Body) :
    Calls (OnBucket false bucket) (createBucket E bucket params body) := by
  unfold createBucket
  split
  · exact calls_withDoc fun _ => calls_answer (OnBucket.write rfl (.inl rfl)) _ _
  split
  · exact calls_withDoc fun _ => calls_answer (OnBucket.write rfl (.inl rfl)) _ _
  split
  · exact calls_withDoc fun _ => calls_answer (OnBucket.write rfl (.inl rfl)) _ _
  split
  · exact calls_withDoc fun _ => calls_answer (OnBucket.write rfl (.inl rfl)) _ _
  split
  · exact calls_withDoc fun _ => calls_answer (OnBucket.write rfl (.inl rfl)) _ _
  split
  · exact calls_answer (OnBucket.write rfl (.inr rfl)) _ _
  · exact calls_answer (OnBucket.write rfl (.inl rfl)) _ _

theorem within_deleteBucket (params : Str → Option Str) :
    Calls (OnBucket false bucket) (deleteBucket bucket params) := by
  unfold deleteBucket
  dsimp only
  split
  · exact calls_answer (OnBucket.write rfl (.inl rfl)) _ _
  split
  · exact calls_answer (OnBucket.write rfl (.inl rfl)) _ _
  split
  · exact calls_answer (OnBucket.write rfl (.inl rfl)) _ _
  split
  · exact calls_answer (OnBucket.write rfl (.inl rfl)) _ _
  · exact calls_answer (OnBucket.write rfl (.inl rfl)) _ _

theorem within_deleteEach (quiet : Bool) (keys : List Str) :
    Calls (OnBucket false bucket) (deleteEach bucket quiet keys) := by
  induction keys with
  | nil => exact calls_pure _
  | cons key keys ih =>
      refine (calls_op (OnBucket.write rfl (.inl rfl))).bind fun r => ih.bind fun rest => ?_
      cases r with
      | ok a => exact calls_pure _
      | error e => exact calls_pure _

theorem within_postBucketInner (params : Str → Option Str) (body : Str) :
    Calls (OnBucket false bucket) (postBucketInner E bucket params body) := by
  unfold postBucketInner
  split
  · exact calls_pure _
  split
  · exact calls_pure _
  · exact (within_deleteEach _ _).bind fun _ => calls_pure _

theorem within_formFields (s : FormState) (fields : List FormField) :
    Calls (OnBucket false bucket) (formFields E bucket s fields) := by
  induction fields generalizing s with
  | nil => exact calls_pure _
  | cons field fields ih =>
      rw [formFields]
      split
      · split
        · exact calls_pure _
        · exact (calls_bucketSse (OnBucket.write rfl (.inr rfl))).bind fun _ =>
            calls_answer (OnBucket.write rfl (.inl rfl)) _ _
      · split
        · exact ih s
        · exact ih _

theorem within_postBucket (req : Request) (params : Str → Option Str) (body : Body) :
    Calls (OnBucket false bucket) (postBucket E bucket req params body) := by
  unfold postBucket
  dsimp only
  split
  · unfold postFormObject
    split
    · exact calls_pure _
    · exact within_formFields _ _
  · exact within_postBucketInner params _

/-! ## Object handlers -/

theorem within_getObjectDispatch (req : Request) (params : Str → Option Str) :
    Calls (OnBucket true bucket) (getObjectDispatch E bucket key req params) := by
  unfold getObjectDispatch
  split
  · exact within_listObjectsInner params
  split
  · exact calls_answer (OnBucket.look rfl rfl) _ _
  split
  · exact calls_answer (OnBucket.look rfl rfl) _ _
  split
  · exact calls_answer (OnBucket.look rfl rfl) _ _
  split
  · exact calls_answer (OnBucket.look rfl rfl) _ _
  split
  · exact calls_answer (OnBucket.look rfl rfl) _ _
  split
  · refine (calls_op (OnBucket.look rfl rfl)).bind fun r => ?_
    cases r with
    | ok m => exact calls_answer (OnBucket.look rfl rfl) _ _
    | error e => exact calls_pure _
  · exact calls_answer (OnBucket.look rfl rfl) _ _

theorem within_headObject (params : Str → Option Str) :
    Calls (OnBucket true bucket) (headObject E bucket key params) := by
  unfold headObject
  split
  · exact calls_answer (OnBucket.look rfl rfl) _ _
  split
  · exact calls_answer (OnBucket.look rfl rfl) _ _
  · exact calls_answer (OnBucket.look rfl rfl) _ _

theorem within_checkObjectLock : Calls (OnBucket false bucket) (checkObjectLock E bucket key) := by
  have hretention : Calls (OnBucket false bucket) (checkObjectLock.retention E bucket key) := by
    refine (calls_op (OnBucket.write rfl (.inr rfl))).bind fun r => ?_
    split
    · exact calls_pure _
    · exact calls_pure _
  refine (calls_op (OnBucket.write rfl (.inr rfl))).bind fun r => ?_
  split
  · split
    · exact calls_pure _
    · exact hretention
  · exact hretention

theorem within_deleteUnlocked {c : TraitCall} (hc : OnBucket false bucket c)
    (f : c.Gives → HttpResponse) :
    Calls (OnBucket false bucket) (deleteUnlocked E bucket key c f) := by
  refine within_checkObjectLock.bind fun r => ?_
  cases r with
  | ok a => exact calls_answer hc _ _
  | error e => exact calls_pure _

theorem within_deleteObjectDispatch (params : Str → Option Str) :
    Calls (OnBucket false bucket) (deleteObjectDispatch E bucket key params) := by
  unfold deleteObjectDispatch
  split
  · exact calls_answer (OnBucket.write rfl (.inl rfl)) _ _
  split
  · exact calls_answer (OnBucket.write rfl (.inl rfl)) _ _
  split
  · exact calls_answer (OnBucket.write rfl (.inl rfl)) _ _
  split
  · exact within_deleteUnlocked (OnBucket.write rfl (.inl rfl)) _
  · exact within_deleteUnlocked (OnBucket.write rfl (.inl rfl)) _

theorem within_sealed {c : Bool → TraitCall} (hc : ∀ sse, OnBucket false bucket (c sse))
    {resource : Str} {f : (sse : Bool) → (c sse).Gives → HttpResponse} :
    Calls (OnBucket false bucket)
      (bucketSse bucket >>= fun sse => answer (c sse) resource (f sse)) :=
  (calls_bucketSse (OnBucket.write rfl (.inr rfl))).bind fun sse => calls_answer (hc sse) _ _

theorem within_putObjectDispatch (req : Request) (params : Str → Option Str) (body : Body) :
    Calls (OnBucket false bucket) (putObjectDispatch E bucket key req params body) := by
  unfold putObjectDispatch
  split
  · exact calls_answer (OnBucket.write rfl (.inl rfl)) _ _
  split
  · unfold uploadPart
    split
    · exact calls_pure _
    · exact calls_answer (OnBucket.write rfl (.inl rfl)) _ _
  split
  · exact calls_withSmallDoc fun _ => calls_answer (OnBucket.write rfl (.inl rfl)) _ _
  split
  · exact calls_withSmallDoc fun _ => calls_answer (OnBucket.write rfl (.inl rfl)) _ _
  split
  · refine calls_withSmallDoc fun _ => ?_
    dsimp only
    split
    · exact calls_pure _
    · exact calls_answer (OnBucket.write rfl (.inl rfl)) _ _
  split
  · unfold copyObject
    split
    · exact calls_pure _
    · exact within_sealed fun _ => OnBucket.write rfl (.inl rfl)
  · exact within_sealed fun _ => OnBucket.write rfl (.inl rfl)

theorem within_postObjectDispatch (req : Request) (params : Str → Option Str) (body : Body) :
    Calls (OnBucket false bucket) (postObjectDispatch E bucket key req params body) := by
  unfold postObjectDispatch
  split
  · exact within_postBucketInner params _
  split
  · exact within_sealed fun _ => OnBucket.write rfl (.inl rfl)
  split
  · exact calls_withSmallDoc fun _ => calls_answer (OnBucket.write rfl (.inl rfl)) _ _
  split
  · exact calls_withSmallDoc fun _ => calls_answer (OnBucket.write rfl (.inl rfl)) _ _
  · exact calls_pure _

end Api

/-! ## Which handler a method gets -/

/-- The handlers of the store's resources. -/
def Handler.s3 : Handler → Bool
  | .bucket _ => true
  | .object _ => true
  | _ => false

/-- The handlers that only look. -/
def Handler.looks : Handler → Bool
  | .bucket .listBuckets => true
  | .bucket .listObjects => true
  | .bucket .headBucket => true
  | .object .getObjectDispatch => true
  | .object .headObject => true
  | _ => false

/-- `GET` and `HEAD`. -/
def Method.safe : Method → Bool
  | .get => true
  | .head => true
  | _ => false

theorem method_of_serves {m : MethodRouter} {method : Method} {h : Handler}
    (hserves : m.serves method = some h) :
    method ∈ [Method.get, .head, .put, .post, .delete] := by
  cases method with
  | patch => cases hserves
  | other token => cases hserves
  | get => exact List.mem_of_elem_eq_true rfl
  | head => exact List.mem_of_elem_eq_true rfl
  | put => exact List.mem_of_elem_eq_true rfl
  | post => exact List.mem_of_elem_eq_true rfl
  | delete => exact List.mem_of_elem_eq_true rfl

theorem looks_of_serves {compat : Bool} {methods : MethodRouter}
    (hmem : methods ∈ (buildRouter compat).map Prod.snd) {method : Method} {h : Handler}
    (hserves : methods.serves method = some h) (hs3 : h.s3 = true) : h.looks = method.safe := by
  have hall : ∀ m ∈ (buildRouter compat).map Prod.snd,
      ∀ method ∈ [Method.get, .head, .put, .post, .delete], ∀ h ∈ m.serves method,
        h.s3 = true → h.looks = method.safe := by
    cases compat <;> decide +kernel
  exact hall _ hmem method (method_of_serves hserves) h hserves hs3

theorem dispatch_mem {pick : Router} {compat : Bool} {method : Method} {path : Str} {h : Handler}
    (hdispatch : dispatch pick compat method path = some h) : ∃ xs p methods,
      segments path = some xs ∧ pick ((buildRouter compat).map Prod.fst) xs = some p ∧
      (p, methods) ∈ buildRouter compat ∧ methods.serves method = some h := by
  obtain ⟨xs, hxs, hrest⟩ := Option.bind_eq_some_iff.1 hdispatch
  obtain ⟨p, hp, hrest⟩ := Option.bind_eq_some_iff.1 hrest
  obtain ⟨methods, hlookup, hserves⟩ := Option.bind_eq_some_iff.1 hrest
  obtain ⟨l₁, l₂, hl, -⟩ := List.lookup_eq_some_iff.1 hlookup
  exact ⟨xs, p, methods, hxs, hp, hl ▸ by simp, hserves⟩

theorem dispatch_looks {pick : Router} {compat : Bool} {method : Method} {path : Str}
    {h : Handler} (hdispatch : dispatch pick compat method path = some h) (hs3 : h.s3 = true) :
    h.looks = method.safe := by
  obtain ⟨xs, p, methods, -, -, hmem, hserves⟩ := dispatch_mem hdispatch
  exact looks_of_serves (List.mem_map.2 ⟨_, hmem, rfl⟩) hserves hs3

/-- A handler with a bucket has it from the path's first segment. -/
theorem dispatch_segment {pick : Router} (hpick : pick.MostSpecific) {compat : Bool}
    {method : Method} {path : Str} {h : Handler}
    (hdispatch : dispatch pick compat method path = some h) (hs3 : h.s3 = true)
    (hlist : h ≠ .bucket .listBuckets) :
    ∃ m rest, m ≠ [] ∧ segments path = some (m :: rest) := by
  obtain ⟨xs, p, methods, hxs, hp, hmem, hserves⟩ := dispatch_mem hdispatch
  have hmatch := (hpick.sound hp).2
  have hfixed : ∀ r ∈ fixedRoutes compat, ∀ method ∈ [Method.get, .head, .put, .post, .delete],
      ∀ h ∈ r.2.serves method, h.s3 = true → h = .bucket .listBuckets := by
    cases compat <;> decide +kernel
  have hsome {s : Seg} {segs : List Seg} {rest : Bool} (hs : s = .param)
      (h : (Pattern.mk (s :: segs) rest).Matches xs) :
      ∃ m rest, m ≠ [] ∧ segments path = some (m :: rest) := by
    subst hs
    cases xs with
    | nil => cases h
    | cons m rest =>
        rw [Pattern.Matches, Pattern.meets, Bool.and_eq_true, decide_eq_true_eq] at h
        exact ⟨m, rest, h.1, hxs⟩
  rw [buildRouter] at hmem
  rcases List.mem_append.1 hmem with hmem | hmem
  · obtain ⟨r, hr, hrp⟩ := List.mem_map.1 hmem
    obtain ⟨-, rfl⟩ := Prod.mk.inj hrp
    exact absurd (hfixed r hr method (method_of_serves hserves) h hserves hs3) hlist
  · simp only [List.mem_cons, List.not_mem_nil, or_false, Prod.mk.injEq] at hmem
    rcases hmem with ⟨rfl, -⟩ | ⟨rfl, -⟩ | ⟨rfl, -⟩
    · exact hsome rfl hmatch
    · exact hsome rfl hmatch
    · exact hsome rfl hmatch

/-! ## What the middleware admits -/

theorem ran_of_route {pick : Router} {compat : Bool} {req : Request} {p passed : Passed}
    {h : Handler} (hran : .ran h passed ∈ route pick compat req p) :
    dispatch pick compat req.method req.path = some h ∧ p = passed := by
  unfold route at hran
  split at hran
  · rename_i h' hh
    obtain ⟨rfl, rfl⟩ := GateEvent.ran.inj (List.mem_singleton.1 hran)
    exact ⟨hh, rfl⟩
  · cases List.mem_singleton.1 hran

/-- A handler that runs for an identity is the request's own, and was allowed. -/
theorem ran_of_serve {pick : Router} {compat : Bool}
    {verify verifyPresigned : Request → Except S3Error Identity} {req : Request} {h : Handler}
    {passed : Passed} {id : Identity}
    (hran : .ran h passed ∈ serve pick compat true verify verifyPresigned req)
    (hid : passed.identity = some id) :
    dispatch pick compat req.method req.path = some h ∧
      (Policy.fromName id.policy).allows (actionFor req.method req.path) = true ∧
      id.allowsBucket (bucketFor req.path) = true := by
  unfold serve authMiddleware at hran
  dsimp only at hran
  split at hran
  · obtain ⟨-, rfl⟩ := ran_of_route hran
    cases hid
  rw [if_pos rfl] at hran
  split at hran
  · simp at hran
  · simp only [List.mem_cons, reduceCtorEq, false_or] at hran
    split at hran
    · simp at hran
    rename_i hallow
    split at hran
    · simp at hran
    rename_i hbucket
    obtain ⟨hdispatch, rfl⟩ := ran_of_route hran
    obtain rfl := Option.some.inj hid
    exact ⟨hdispatch, not_not.1 hallow, not_not.1 hbucket⟩

namespace Api

/-- A bucket handler other than the list of buckets acts on the bucket that the path decodes to. -/
theorem bucket_of_run {req : Request} {identity : Option Identity} {body : Body}
    {o : BucketHandler} {p : Api HttpResponse} (hne : o ≠ .listBuckets)
    (hrun : run E req identity body (.bucket o) = some p) :
    p = pure pathRejection ∨ ∃ bucket,
      ((pathParams req.path).bind fun p => E.decodePath p.1) = some bucket ∧
      p = bucketHandler E bucket req identity body (parseQuery E.percent req.query) o := by
  cases hpath : (pathParams req.path).bind fun p => E.decodePath p.1 with
  | none =>
      left
      cases o with
      | listBuckets => exact absurd rfl hne
      | _ =>
          obtain rfl := Option.some.inj hrun
          rw [hpath]
  | some bucket =>
      refine .inr ⟨bucket, rfl, ?_⟩
      cases o with
      | listBuckets => exact absurd rfl hne
      | _ =>
          obtain rfl := Option.some.inj hrun
          rw [hpath]

/-- The calls of a handler: on the bucket of the path, and of the handler's kind. -/
theorem run_within {E : ApiEnv} {req : Request} {identity : Option Identity} {body : Body}
    {h : Handler} {p : Api HttpResponse} (hrun : run E req identity body h = some p) :
    h.s3 = true ∧ (h = .bucket .listBuckets → Calls (· = .listBuckets) p) ∧
      (h ≠ .bucket .listBuckets → Calls (fun c => ∃ bucket,
        ((pathParams req.path).bind fun p => E.decodePath p.1) = some bucket ∧
          OnBucket h.looks bucket c) p) := by
  cases h with
  | health => cases hrun
  | sts => cases hrun
  | admin a => cases hrun
  | object o =>
      refine ⟨rfl, fun h => Handler.noConfusion h, fun _ => ?_⟩
      rw [run] at hrun
      obtain rfl := Option.some.inj hrun
      split
      · exact calls_pure _
      rename_i bucket key hparams
      obtain ⟨pp, hpp, hdecoded⟩ := Option.bind_eq_some_iff.1 hparams
      obtain ⟨b, hb, hkey⟩ := Option.bind_eq_some_iff.1 hdecoded
      obtain ⟨k, -, hpair⟩ := Option.map_eq_some_iff.1 hkey
      obtain ⟨rfl, -⟩ := Prod.mk.inj hpair
      have hbucket : ((pathParams req.path).bind fun p => E.decodePath p.1) = some b := by
        rw [hpp]
        exact hb
      cases o with
      | getObjectDispatch =>
          exact (within_getObjectDispatch req _).mono fun c hc => ⟨b, hbucket, hc⟩
      | putObjectDispatch =>
          exact (within_putObjectDispatch req _ body).mono fun c hc => ⟨b, hbucket, hc⟩
      | headObject => exact (within_headObject _).mono fun c hc => ⟨b, hbucket, hc⟩
      | deleteObjectDispatch =>
          exact (within_deleteObjectDispatch _).mono fun c hc => ⟨b, hbucket, hc⟩
      | postObjectDispatch =>
          exact (within_postObjectDispatch req _ body).mono fun c hc => ⟨b, hbucket, hc⟩
  | bucket o =>
      by_cases hlist : o = .listBuckets
      · subst hlist
        refine ⟨rfl, fun _ => ?_, fun h => absurd rfl h⟩
        obtain rfl := Option.some.inj hrun
        exact @calls_answer (· = .listBuckets) .listBuckets rfl _ _
      refine ⟨rfl, fun h => absurd (Handler.bucket.inj h) hlist, fun _ => ?_⟩
      rcases bucket_of_run hlist hrun with rfl | ⟨b, hbucket, rfl⟩
      · exact calls_pure _
      have hmono {looks : Bool} {q : Api HttpResponse} (hq : Calls (OnBucket looks b) q) :
          Calls (fun c => ∃ bucket,
            ((pathParams req.path).bind fun p => E.decodePath p.1) = some bucket ∧
              OnBucket looks bucket c) q := hq.mono fun c hc => ⟨b, hbucket, hc⟩
      cases o with
      | listBuckets => exact absurd rfl hlist
      | listObjects => exact hmono (within_listObjects _)
      | createBucket => exact hmono (within_createBucket _ body)
      | deleteBucket => exact hmono (within_deleteBucket _)
      | headBucket => exact hmono (calls_answer (OnBucket.look rfl rfl) _ _)
      | postBucket => exact hmono (within_postBucket req _ body)

end Api

/-- Libraries that read nothing, and paths that stand for themselves. -/
def plainEnv : ApiEnv where
  percent := percentCoding
  xml :=
    { completeMultipart := fun _ => .error "no document"
      delete := fun _ => .error "no document"
      encryption := fun _ => .error "no document"
      tagging := fun _ => .error "no document"
      versioning := fun _ => .error "no document"
      lifecycle := fun _ => .error "no document"
      retention := fun _ => .error "no document"
      legalHold := fun _ => .error "no document"
      writeRetention := fun _ => [] }
  rfc3339 _ := none
  httpDate _ := []
  fromUtf8Lossy _ := []
  bodyError _ := "too long"
  toUppercase := id
  form _ := none
  decodePath := some
  encryptionEnabled := false
  now := 0

/-- A store without a bucket. -/
def noBuckets (c : TraitCall) (_ : Unit) : c.Ans × Unit := (.error .noSuchBucket, ())

/-- An identity for one bucket, with a policy. -/
def clerk (policy : String) : Identity :=
  ⟨"clerk".toList, "secret".toList, policy.toList, true, some ["b".toList]⟩

/-- What is handed on for them. -/
def clerkPassed (policy : String) : Passed :=
  ⟨some (clerk policy), some "clerk".toList, none, false⟩

/-- What the clerk sends to read an object. -/
def clerkGet : Request :=
  ⟨.get, "/b/k".toList, none, [("authorization".toList, none)], none⟩

/-- What runs for them. -/
def clerkRun (policy : String) (req : Request) (h : Handler) : Api HttpResponse :=
  (Api.run plainEnv req (some (clerk policy)) (.ofBytes []) h).getD (pure Api.pathRejection)

/-! ## Policies -/

theorem safe_of_allows {method : Method} {path : Str} (hallows :
    Policy.readOnly.allows (actionFor method path) = true)
    (hserved : ∀ token, method ≠ .other token) :
    method.safe = true := by
  unfold actionFor at hallows
  split at hallows
  · cases hallows
  · cases method with
    | get => rfl
    | head => rfl
    | put => cases hallows
    | post => cases hallows
    | delete => cases hallows
    | patch => cases hallows
    | other token => exact absurd rfl (hserved token)

theorem unsafe_of_allows {method : Method} {path : Str} (hallows :
    Policy.writeOnly.allows (actionFor method path) = true) : method.safe = false := by
  unfold actionFor at hallows
  split at hallows
  · cases hallows
  · cases method with
    | get => cases hallows
    | head => cases hallows
    | put => rfl
    | post => rfl
    | delete => rfl
    | patch => rfl
    | other token => cases hallows

theorem not_other_of_dispatch {pick : Router} {compat : Bool} {method : Method} {path : Str}
    {h : Handler} (hdispatch : dispatch pick compat method path = some h) (token : Str) :
    method ≠ .other token := by
  rintro rfl
  obtain ⟨xs, p, methods, -, -, -, hserves⟩ := dispatch_mem hdispatch
  cases hserves

section

variable {pick : Router} {compat : Bool}
  {verify verifyPresigned : Request → Except S3Error Identity} {req : Request} {h : Handler}
  {passed : Passed} {id : Identity} {E : ApiEnv} {body : Body} {p : Api HttpResponse} {σ : Type}

theorem looks_of_readOnly (hran : .ran h passed ∈ serve pick compat true verify verifyPresigned req)
    (hid : passed.identity = some id) (hs3 : h.s3 = true)
    (hpolicy : Policy.fromName id.policy = .readOnly) : h.looks = true := by
  obtain ⟨hdispatch, hallows, -⟩ := ran_of_serve hran hid
  rw [hpolicy] at hallows
  exact (dispatch_looks hdispatch hs3).trans
    (safe_of_allows hallows (not_other_of_dispatch hdispatch))

theorem reads_of_looks (hrun : Api.run E req passed.identity body h = some p)
    (hlooks : h.looks = true) : Calls (fun c => c.reads = true) p := by
  obtain ⟨-, hlist, hothers⟩ := Api.run_within hrun
  by_cases hbuckets : h = .bucket .listBuckets
  · exact (hlist hbuckets).mono fun c hc => hc ▸ rfl
  · refine (hothers hbuckets).mono fun c hc => ?_
    obtain ⟨bucket, -, hwithin⟩ := hc
    have hkind := hwithin.kind
    rw [if_pos hlooks] at hkind
    exact hkind

/-- A policy is kept over every store: what runs for a read-only identity only looks, and
leaves alone every store whose looking calls do; and what runs for a write-only identity looks
at nothing but whether the bucket is there and encrypts, and whether an object is locked. -/
theorem policy_kept (hran : .ran h passed ∈ serve pick compat true verify verifyPresigned req)
    (hid : passed.identity = some id) (hrun : Api.run E req passed.identity body h = some p)
    (store : (c : TraitCall) → σ → c.Ans × σ) (s : σ) :
    (Policy.fromName id.policy = .readOnly →
      (∀ e ∈ Prog.log store p s, e.1.reads = true) ∧
      ((∀ c s', c.reads = true → (store c s').2 = s') → (Prog.exec store p s).2 = s)) ∧
    (Policy.fromName id.policy = .writeOnly →
      ∀ e ∈ Prog.log store p s, e.1.reads = false ∨ e.1.asks = true) := by
  obtain ⟨hs3, -, hothers⟩ := Api.run_within hrun
  constructor
  · intro hpolicy
    have hreads : ∀ e ∈ Prog.log store p s, e.1.reads = true :=
      (reads_of_looks hrun (looks_of_readOnly hran hid hs3 hpolicy)).log s
    exact ⟨hreads, fun hstay => exec_state fun e he s' => hstay e.1 s' (hreads e he)⟩
  · intro hpolicy
    obtain ⟨hdispatch, hallows, -⟩ := ran_of_serve hran hid
    rw [hpolicy] at hallows
    have hchanges := (dispatch_looks hdispatch hs3).trans (unsafe_of_allows hallows)
    have hbuckets : h ≠ .bucket .listBuckets := by
      rintro rfl
      cases hchanges
    intro e he
    obtain ⟨bucket, -, hwithin⟩ := (hothers hbuckets).log s e he
    have hkind := hwithin.kind
    rw [if_neg (by rw [hchanges]; decide)] at hkind
    exact hkind

end

/-- A clerk who may read asks for an object. -/
theorem policy_kept_reader :
    (Prog.log noBuckets (clerkRun "readonly" clerkGet (.object .getObjectDispatch)) ()).all
      (fun e => e.1.reads) = true := by
  have hran : .ran (.object .getObjectDispatch) (clerkPassed "readonly") ∈
      serve .byRank true true (fun _ => .ok (clerk "readonly"))
        (fun _ => .ok (clerk "readonly")) clerkGet := by decide +kernel
  have hrun : Api.run plainEnv clerkGet (clerkPassed "readonly").identity (.ofBytes [])
      (.object .getObjectDispatch) =
      some (clerkRun "readonly" clerkGet (.object .getObjectDispatch)) := rfl
  exact List.all_eq_true.2 ((policy_kept hran rfl hrun noBuckets ()).1 (by decide +kernel)).1

section

variable {pick : Router} {compat : Bool}
  {verify verifyPresigned : Request → Except S3Error Identity} {req : Request} {h : Handler}
  {passed : Passed} {id : Identity} {E : ApiEnv} {body : Body} {p : Api HttpResponse} {σ : Type}

/-! ## Scopes -/

/-- The bucket the middleware asks for is the path's first segment, but for the two mounts. -/
theorem bucketFor_segment {path m : Str} {rest : List Str} (hm : m ≠ [])
    (hpath : segments path = some (m :: rest)) :
    bucketFor path = some m ∨ m = "kerplace".toList ∨ m = "minio".toList := by
  cases path with
  | nil => cases hpath
  | cons c s =>
      by_cases hc : c = '/'
      swap
      · unfold segments at hpath
        split at hpath
        · rename_i heq
          exact absurd (List.cons.inj heq).1 hc
        · cases hpath
      subst hc
      have hsplit : s.splitOn '/' = m :: rest := Option.some.inj hpath
      have hslash : '/' ∉ m := not_mem_of_mem_splitOn (hsplit ▸ List.mem_cons_self)
      have hjoin : ['/'].intercalate (m :: rest) = s := hsplit ▸ List.intercalate_splitOn '/'
      have hhead : s.takeWhile (· != '/') = m := by
        have hplain : ∀ c ∈ m, (c != '/') = true := fun c hc =>
          bne_iff_ne.2 fun h => hslash (h ▸ hc)
        rw [← hjoin]
        cases rest with
        | nil =>
            rw [List.intercalate_singleton]
            exact List.takeWhile_eq_self_iff.2 hplain
        | cons r rest =>
            rw [List.intercalate_cons_cons, List.append_assoc,
              List.takeWhile_append_of_pos hplain, List.singleton_append,
              List.takeWhile_cons_of_neg (by decide), List.append_nil]
      have hmount {mount : Str} (hm : '/' ∉ mount)
          (hpre : ('/' :: mount ++ ['/']).isPrefixOf ('/' :: s) = true) : m = mount := by
        obtain ⟨t, ht⟩ := List.isPrefixOf_iff_prefix.1 hpre
        have ht : mount ++ '/' :: t = s := by
          have hcons : mount ++ ['/'] ++ t = s := (List.cons.inj ht).2
          rw [List.append_assoc] at hcons
          exact hcons
        have hplain : ∀ c ∈ mount, (c != '/') = true := fun c hc =>
          bne_iff_ne.2 fun h => hm (h ▸ hc)
        rw [← hhead, ← ht, List.takeWhile_append_of_pos hplain,
          List.takeWhile_cons_of_neg (by decide), List.append_nil]
      unfold bucketFor
      split
      · rename_i hpre
        rcases Bool.or_eq_true_iff.1 hpre with hpre | hpre
        · exact .inr (.inl (hmount (by decide) hpre))
        · exact .inr (.inr (hmount (by decide) hpre))
      · left
        have hdrop : ('/' :: s).dropWhile (· == '/') = s := by
          rw [List.dropWhile_cons_of_pos (by decide)]
          cases hs : s with
          | nil => rfl
          | cons c t =>
              rw [hs] at hhead
              refine List.dropWhile_cons_of_neg fun hc => hm ?_
              rw [← hhead, List.takeWhile_cons_of_neg (by simpa using hc)]
        dsimp only
        rw [hdrop, hhead, if_neg hm]

/-- The segments of a path that a scope admits. -/
def Admitted (scope : List Str) (segment : Str) : Prop :=
  segment ∈ scope ∨ segment = "kerplace".toList ∨ segment = "minio".toList

/-- What runs for a scoped identity acts on the decoded name of an admitted segment. -/
theorem calls_of_scope (hpick : pick.MostSpecific)
    (hran : .ran h passed ∈ serve pick compat true verify verifyPresigned req)
    (hid : passed.identity = some id) (hrun : Api.run E req passed.identity body h = some p)
    {scope : List Str} (hscope : id.buckets = some scope) (hbuckets : h ≠ .bucket .listBuckets) :
    Calls (fun c => ∃ segment bucket, Admitted scope segment ∧
      E.decodePath segment = some bucket ∧ c.bucket = some bucket) p := by
  obtain ⟨hdispatch, -, hbucket⟩ := ran_of_serve hran hid
  obtain ⟨hs3, -, hothers⟩ := Api.run_within hrun
  obtain ⟨m, rest, hm, hsegs⟩ := dispatch_segment hpick hdispatch hs3 hbuckets
  refine (hothers hbuckets).mono fun c hc => ?_
  obtain ⟨bucket, hparam, hwithin⟩ := hc
  have hdecoded : E.decodePath m = some bucket := by
    rw [Api.pathParams, hsegs] at hparam
    exact hparam
  refine ⟨m, bucket, ?_, hdecoded, hwithin.bucket⟩
  rcases bucketFor_segment hm hsegs with hfor | hmount
  · left
    rw [hfor, Identity.allowsBucket, hscope] at hbucket
    exact List.contains_iff_mem.1 hbucket
  · exact .inr hmount

/-- A scope is kept over every store: each call acts on the decoded name of a bucket of the
scope, or on the bucket `kerplace` or `minio`; or it lists the buckets, and then the answer
names those of the scope only.  What a copy reads from is not held to it. -/
theorem scope_kept (hpick : pick.MostSpecific)
    (hran : .ran h passed ∈ serve pick compat true verify verifyPresigned req)
    (hid : passed.identity = some id) (hrun : Api.run E req passed.identity body h = some p)
    {scope : List Str} (hscope : id.buckets = some scope)
    (store : (c : TraitCall) → σ → c.Ans × σ) (s : σ) :
    (∀ e ∈ Prog.log store p s, e.1 = .listBuckets ∨ ∃ segment bucket, Admitted scope segment ∧
      E.decodePath segment = some bucket ∧ e.1.bucket = some bucket) ∧
    ∀ buckets, (Prog.exec store p s).1.body = .xml (.listAllMyBuckets buckets) →
      h = .bucket .listBuckets → ∀ b ∈ buckets, b.name ∈ scope := by
  constructor
  · by_cases hbuckets : h = .bucket .listBuckets
    · exact fun e he => .inl (((Api.run_within hrun).2.1 hbuckets).log s e he)
    · exact fun e he => .inr ((calls_of_scope hpick hran hid hrun hscope hbuckets).log s e he)
  · rintro buckets hbody rfl b hb
    rw [hid] at hrun
    obtain rfl := Option.some.inj hrun
    rw [Api.listBuckets, Api.answer, exec_bind, exec_op] at hbody
    cases hanswer : (store .listBuckets s).1 with
    | error e =>
        rw [hanswer] at hbody
        cases hbody
    | ok all =>
        rw [hanswer] at hbody
        have hdoc := XmlDoc.listAllMyBuckets.inj (Payload.xml.inj hbody)
        rw [← hdoc] at hb
        have hallowed := (List.mem_filter.1 hb).2
        rw [Option.map_some, Option.getD_some, Identity.allowsBucket, hscope] at hallowed
        exact List.contains_iff_mem.1 hallowed

end

/-- What the clerk sends to write `/b/k`, with a source to copy from. -/
def clerkCopy : Request :=
  ⟨.put, "/b/k".toList, none, [("authorization".toList, none),
    ("x-amz-copy-source".toList, some "/vault/ledger".toList)], none⟩

/-- The clerk copies an object of another bucket into their own. -/
theorem scope_kept_copy :
    ∃ segment bucket, Admitted ["b".toList] segment ∧
      plainEnv.decodePath segment = some bucket ∧
      TraitCall.bucket (.copyObject "vault".toList "ledger".toList "b".toList "k".toList false) =
        some bucket := by
  have hran : .ran (.object .putObjectDispatch) (clerkPassed "readwrite") ∈
      serve .byRank true true (fun _ => .ok (clerk "readwrite"))
        (fun _ => .ok (clerk "readwrite")) clerkCopy := by decide +kernel
  have hrun : Api.run plainEnv clerkCopy (clerkPassed "readwrite").identity (.ofBytes [])
      (.object .putObjectDispatch) =
      some (clerkRun "readwrite" clerkCopy (.object .putObjectDispatch)) := rfl
  have hcalls := (scope_kept Router.byRank_mostSpecific hran rfl hrun rfl noBuckets ()).1
    ⟨.copyObject "vault".toList "ledger".toList "b".toList "k".toList false,
      .error .noSuchBucket⟩ (List.mem_cons_of_mem _ List.mem_cons_self)
  exact hcalls.resolve_left TraitCall.noConfusion

theorem scope_not_of_source :
    ∃ e ∈ Prog.log noBuckets (clerkRun "readwrite" clerkCopy (.object .putObjectDispatch)) (),
      e.1.source = some "vault".toList := by
  refine ⟨⟨.copyObject "vault".toList "ledger".toList "b".toList "k".toList false,
    .error .noSuchBucket⟩, ?_, rfl⟩
  exact List.mem_cons_of_mem _ List.mem_cons_self

end Kerplace
