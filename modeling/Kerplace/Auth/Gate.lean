/-
# `Kerplace.Auth.Gate` — the auth middleware in front of the router

The middleware lets two kinds of request through unauthenticated, told by their
path: those of the health endpoints, and `POST /`.  The router then decides by its
own patterns, in which every path with two segments is an object.  The first of
the two tests compares texts, so it also lets through objects of the buckets
`kerplace` and `minio` whose keys begin with `health`; every other request of a
guarded handler has been verified.
-/
import Kerplace.Auth.Identity
import Kerplace.Auth.Uploads
import Kerplace.Lib.Routes

namespace Kerplace

/-! ## The route table -/

/-- The handlers under the admin prefix. -/
inductive AdminHandler where
  | info
  | heal
  | addUser
  | listUsers
  | removeUser
  | setUserStatus
  | setUserBuckets
  | userInfo
  | attachPolicy
  | detachPolicy
  deriving DecidableEq

/-- The handlers of `bucket`. -/
inductive BucketHandler where
  | listBuckets
  | listObjects
  | createBucket
  | deleteBucket
  | headBucket
  | postBucket
  deriving DecidableEq

/-- The handlers of `object`. -/
inductive ObjectHandler where
  | getObjectDispatch
  | putObjectDispatch
  | headObject
  | deleteObjectDispatch
  | postObjectDispatch
  deriving DecidableEq

/-- What a route runs. -/
inductive Handler where
  | health
  | sts
  | admin (h : AdminHandler)
  | bucket (h : BucketHandler)
  | object (h : ObjectHandler)
  deriving DecidableEq

/-- A bucket, object or admin handler. -/
def Handler.guarded : Handler → Bool
  | .health => false
  | .sts => false
  | .admin _ => true
  | .bucket _ => true
  | .object _ => true

/-- The handlers of one route, by method. -/
structure MethodRouter where
  get : Option Handler
  head : Option Handler
  put : Option Handler
  post : Option Handler
  delete : Option Handler
  deriving DecidableEq

namespace MethodRouter

/-- `MethodRouter::new`. -/
def new : MethodRouter := ⟨none, none, none, none, none⟩

/-- The handler of a method: a `get` also answers `HEAD`. -/
def serves (m : MethodRouter) : Method → Option Handler
  | .get => m.get
  | .head => m.head.or m.get
  | .put => m.put
  | .post => m.post
  | .delete => m.delete
  | .patch => none
  | .other _ => none

/-- `get(h)`. -/
def ofGet (h : Handler) : MethodRouter := { new with get := h }

/-- `put(h)`. -/
def ofPut (h : Handler) : MethodRouter := { new with put := h }

/-- `post(h)`. -/
def ofPost (h : Handler) : MethodRouter := { new with post := h }

/-- `delete(h)`. -/
def ofDelete (h : Handler) : MethodRouter := { new with delete := h }

end MethodRouter

open MethodRouter

/-- `admin_v3`. -/
def adminV3 : List (List Str × MethodRouter) :=
  [(["info".toList], ofGet (.admin .info)),
   (["heal".toList], ofPost (.admin .heal)),
   (["ping".toList], ofGet .health),
   (["add-user".toList], ofPut (.admin .addUser)),
   (["list-users".toList], ofGet (.admin .listUsers)),
   (["remove-user".toList], ofDelete (.admin .removeUser)),
   (["set-user-status".toList], ofPut (.admin .setUserStatus)),
   (["set-user-buckets".toList], ofPut (.admin .setUserBuckets)),
   (["user-info".toList], ofGet (.admin .userInfo)),
   (["idp".toList, "builtin".toList, "policy".toList, "attach".toList],
      ofPost (.admin .attachPolicy)),
   (["idp".toList, "builtin".toList, "policy".toList, "detach".toList],
      ofPost (.admin .detachPolicy))]

/-- `health_routes`. -/
def healthRoutes : List (List Str × MethodRouter) :=
  [(["live".toList], ofGet .health), (["ready".toList], ofGet .health)]

/-- `Router::nest`. -/
def nest (at_ : List Str) (routes : List (List Str × MethodRouter)) :
    List (List Str × MethodRouter) :=
  routes.map fun r => (at_ ++ r.1, r.2)

/-- `mount_admin`. -/
def mountAdmin (compat : Bool) : List (List Str × MethodRouter) :=
  nest ["kerplace".toList, "admin".toList, "v3".toList] adminV3 ++
    nest ["kerplace".toList, "health".toList] healthRoutes ++
    if compat then
      nest ["minio".toList, "admin".toList, "v3".toList] adminV3 ++
        nest ["minio".toList, "health".toList] healthRoutes
    else []

/-- The health endpoints that are mounted, by their segments. -/
def healthEndpoints (compat : Bool) : List (List Str) :=
  (nest ["kerplace".toList, "health".toList] healthRoutes ++
    if compat then nest ["minio".toList, "health".toList] healthRoutes else []).map Prod.fst

/-- `bucket_methods`. -/
def bucketMethods : MethodRouter where
  get := some (.bucket .listObjects)
  put := some (.bucket .createBucket)
  delete := some (.bucket .deleteBucket)
  head := some (.bucket .headBucket)
  post := some (.bucket .postBucket)

/-- The methods of an object. -/
def objectMethods : MethodRouter where
  get := some (.object .getObjectDispatch)
  put := some (.object .putObjectDispatch)
  head := some (.object .headObject)
  delete := some (.object .deleteObjectDispatch)
  post := some (.object .postObjectDispatch)

/-- `/`: GET lists buckets, POST is the STS endpoint. -/
def rootMethods : MethodRouter :=
  { new with get := some (.bucket .listBuckets), post := some .sts }

/-- The routes without a parameter. -/
def fixedRoutes (compat : Bool) : List (List Str × MethodRouter) :=
  ([[]], rootMethods) :: mountAdmin compat

/-- `/{bucket}`. -/
def bucketPattern : Pattern := ⟨[.param], false⟩

/-- `/{bucket}/`. -/
def bucketSlashPattern : Pattern := ⟨[.param, .lit []], false⟩

/-- `/{bucket}/{*key}`. -/
def objectPattern : Pattern := ⟨[.param], true⟩

/-- `build_router`: the routes. -/
def buildRouter (compat : Bool) : List (Pattern × MethodRouter) :=
  (fixedRoutes compat).map (fun r => (.exact r.1, r.2)) ++
    [(bucketPattern, bucketMethods), (bucketSlashPattern, bucketMethods),
     (objectPattern, objectMethods)]

/-- The handler a request gets. -/
def dispatch (pick : Router) (compat : Bool) (method : Method) (path : Str) :
    Option Handler := do
  let xs ← segments path
  let p ← pick ((buildRouter compat).map Prod.fst) xs
  let m ← (buildRouter compat).lookup p
  m.serves method

/-! ## The middleware -/

/-- What the middleware hands on: the identity in the request's extensions, who and where
for the audit trail, and whether the body is the decoded one. -/
structure Passed where
  identity : Option Identity
  accessKey : Option Str
  remoteIp : Option Str
  decoded : Bool
  deriving DecidableEq

/-- What happens to a request, in order. -/
inductive GateEvent where
  | verified (id : Identity)
  | refused (e : S3Error)
  | ran (h : Handler) (p : Passed)
  | unrouted
  deriving DecidableEq

/-- The client address for the audit trail: the first hop of `x-forwarded-for`, else the
peer's. -/
def remoteIp (req : Request) : Option Str :=
  let hop := ((req.header "x-forwarded-for".toList).bind id).map fun v =>
    trim (v.takeWhile (· != ','))
  (hop.filter fun s => decide (s ≠ [])).or req.peer

/-- The two exemptions: a health path, and the STS endpoint. -/
def exempt (req : Request) : Bool :=
  ("/kerplace/health".toList.isPrefixOf req.path || "/minio/health".toList.isPrefixOf req.path) ||
    (decide (req.path = "/".toList) && decide (req.method = .post))

/-- `auth_middleware`, with `verify` and `verify_presigned` as they answer the request. -/
def authMiddleware (authEnabled : Bool) (verify verifyPresigned : Request → Except S3Error Identity)
    (next : Passed → List GateEvent) (req : Request) : List GateEvent :=
  let decoded := isAwsChunked ((req.header "x-amz-content-sha256".toList).bind id)
  if exempt req then next ⟨none, none, none, false⟩
  else if authEnabled then
    let result :=
      if (req.header "authorization".toList).isSome then verify req
      else if (req.query.map fun q => decide ("X-Amz-Signature".toList <:+: q)).getD false then
        verifyPresigned req
      else .error .accessDenied
    match result with
    | .error e => [.refused e]
    | .ok id =>
        .verified id ::
          if ¬ (Policy.fromName id.policy).allows (actionFor req.method req.path) then
            [.refused .accessDenied]
          else if ¬ id.allowsBucket (bucketFor req.path) then [.refused .accessDenied]
          else next ⟨some id, some id.accessKey, remoteIp req, decoded⟩
  else next ⟨none, none, remoteIp req, decoded⟩

/-- What the router does with a request that reaches it. -/
def route (pick : Router) (compat : Bool) (req : Request) (p : Passed) : List GateEvent :=
  match dispatch pick compat req.method req.path with
  | some h => [.ran h p]
  | none => [.unrouted]

/-- A request through the middleware and the router. -/
def serve (pick : Router) (compat authEnabled : Bool)
    (verify verifyPresigned : Request → Except S3Error Identity) (req : Request) : List GateEvent :=
  authMiddleware authEnabled verify verifyPresigned (route pick compat req) req

/-- A guarded handler runs only after the request was verified. -/
def Gated (events : List GateEvent) : Prop :=
  ∀ pre h p post, events = pre ++ .ran h p :: post → h.guarded = true →
    ∃ id, .verified id ∈ pre

/-- A request whose path is textually a health path is one of the health endpoints that
are mounted, or has a method no object answers. -/
def HealthOnly (compat : Bool) (req : Request) : Prop :=
  ("/kerplace/health".toList.isPrefixOf req.path ||
      "/minio/health".toList.isPrefixOf req.path) = true →
    (∃ xs, segments req.path = some xs ∧ xs ∈ healthEndpoints compat) ∨
    objectMethods.serves req.method = none

/-! ## What the router does with the exempted paths -/

theorem splitOn_append {p : Str} (hp : '/' ∉ p) (s : Str) :
    (p ++ s).splitOn '/' = (s.splitOn '/').modifyHead (p ++ ·) := by
  induction p with
  | nil =>
      show s.splitOn '/' = (s.splitOn '/').modifyHead fun x => x
      cases s.splitOn '/' <;> rfl
  | cons c p ih =>
      simp only [List.mem_cons, not_or] at hp
      have hc : (c == '/') = false := beq_eq_false_iff_ne.2 (Ne.symm hp.1)
      rw [List.cons_append, List.splitOn, List.splitOnP_cons_eq_if_modifyHead, hc]
      have := ih hp.2
      rw [List.splitOn] at this
      rw [if_neg (by simp), this]
      simp [List.splitOn, Function.comp_def]

theorem splitOn_slash (s : Str) : ('/' :: s).splitOn '/' = [] :: s.splitOn '/' := by
  rw [List.splitOn, List.splitOnP_cons_eq_if_modifyHead, if_pos (beq_self_eq_true _)]
  rfl

theorem segments_health {mount s : Str} (hm : '/' ∉ mount) :
    ∃ x xs, segments ('/' :: mount ++ ("/health".toList ++ s)) =
      some (mount :: ("health".toList ++ x) :: xs) := by
  have hne : s.splitOn '/' ≠ [] := by simp [List.splitOn]
  obtain ⟨x, xs, hs⟩ := List.exists_cons_of_ne_nil hne
  refine ⟨x, xs, ?_⟩
  show some ((mount ++ '/' :: ("health".toList ++ s)).splitOn '/') = _
  rw [splitOn_append hm, splitOn_slash, splitOn_append (by decide), hs]
  simp

theorem segments_of_health {path : Str} (h : ("/kerplace/health".toList.isPrefixOf path ||
    "/minio/health".toList.isPrefixOf path) = true) :
    ∃ m, m ≠ [] ∧ ∃ x xs, segments path = some (m :: ("health".toList ++ x) :: xs) := by
  rw [Bool.or_eq_true, List.isPrefixOf_iff_prefix, List.isPrefixOf_iff_prefix] at h
  rcases h with ⟨s, rfl⟩ | ⟨s, rfl⟩
  · exact ⟨_, by decide, segments_health (show '/' ∉ "kerplace".toList by decide)⟩
  · exact ⟨_, by decide, segments_health (show '/' ∉ "minio".toList by decide)⟩

theorem fixedRoutes_health (compat : Bool) : ∀ r ∈ fixedRoutes compat,
    (∃ m x xs, r.1 = m :: ("health".toList ++ x) :: xs) → r.1 ∈ healthEndpoints compat := by
  have hfixed : ∀ r ∈ (fixedRoutes compat).map Prod.fst,
      ("health".toList.isPrefixOf (r.getD 1 [])) = true → r ∈ healthEndpoints compat := by
    cases compat <;> decide +kernel
  rintro ⟨ys, methods⟩ hr ⟨m, x, xs, hys⟩
  refine hfixed ys (List.mem_map_of_mem (f := Prod.fst) hr) ?_
  rw [show ys = _ from hys]
  simp

theorem mem_buildRouter {compat : Bool} {p : Pattern}
    (h : p ∈ (buildRouter compat).map Prod.fst) :
    (∃ r ∈ fixedRoutes compat, p = .exact r.1) ∨ p = bucketPattern ∨ p = bucketSlashPattern ∨
      p = objectPattern := by
  simp only [buildRouter, List.map_append, List.map_map, List.mem_append, List.mem_map,
    List.map_cons, List.map_nil, List.mem_cons, List.not_mem_nil, or_false] at h
  rcases h with ⟨r, hr, rfl⟩ | h
  · exact .inl ⟨r, hr, rfl⟩
  · exact .inr h

/-- A path that is textually a health path, but of no endpoint, is an object. -/
theorem dispatch_object {pick : Router} (hpick : pick.MostSpecific) {compat : Bool}
    {path m x : Str} {xs : List Str} (hm : m ≠ [])
    (hpath : segments path = some (m :: ("health".toList ++ x) :: xs))
    (hnot : m :: ("health".toList ++ x) :: xs ∉ healthEndpoints compat) (method : Method) :
    dispatch pick compat method path = objectMethods.serves method := by
  have hobject : objectPattern.Matches (m :: ("health".toList ++ x) :: xs) := by
    simp [Pattern.Matches, Pattern.meets, objectPattern, hm]
  have hpicked : pick ((buildRouter compat).map Prod.fst) (m :: ("health".toList ++ x) :: xs) =
      some objectPattern := by
    refine hpick.pick_eq ?_ hobject fun q hq hmatch => ?_
    · simp [buildRouter]
    · rcases mem_buildRouter hq with ⟨r, hr, rfl⟩ | rfl | rfl | rfl
      · rw [Pattern.matches_exact] at hmatch
        exact absurd (hmatch ▸ fixedRoutes_health compat r hr ⟨m, x, xs, hmatch.symm⟩) hnot
      · simp [Pattern.Matches, Pattern.meets, bucketPattern] at hmatch
      · simp [Pattern.Matches, Pattern.meets, bucketSlashPattern] at hmatch
      · exact .inl rfl
  have hlookup : (buildRouter compat).lookup objectPattern = some objectMethods := by
    cases compat <;> decide +kernel
  rw [dispatch, hpath]
  simp only [Option.bind_eq_bind, Option.bind_some, hpicked, hlookup]

theorem dispatch_fixed {pick : Router} (hpick : pick.MostSpecific) {compat : Bool} {path : Str}
    {xs : List Str} {methods : MethodRouter} (hpath : segments path = some xs)
    (hlookup : (buildRouter compat).lookup (.exact xs) = some methods) (method : Method) :
    dispatch pick compat method path = methods.serves method := by
  have hmem : Pattern.exact xs ∈ (buildRouter compat).map Prod.fst := by
    obtain ⟨l₁, l₂, hl, -⟩ := List.lookup_eq_some_iff.1 hlookup
    rw [hl]
    simp
  rw [dispatch, hpath]
  simp only [Option.bind_eq_bind, Option.bind_some, hpick.pick_exact hmem, hlookup]

theorem lookup_healthEndpoints {compat : Bool} {xs : List Str} (h : xs ∈ healthEndpoints compat) :
    (buildRouter compat).lookup (.exact xs) = some (ofGet .health) := by
  have hall : ∀ ys ∈ healthEndpoints compat,
      (buildRouter compat).lookup (.exact ys) = some (ofGet .health) := by
    cases compat <;> decide +kernel
  exact hall xs h

/-! ## The gate -/

theorem guarded_objectMethods {method : Method} {h : Handler}
    (hs : objectMethods.serves method = some h) : h.guarded = true := by
  cases method <;> simp [MethodRouter.serves, objectMethods] at hs <;> rw [← hs] <;> rfl

/-- A single event is gated when it is no run of a guarded handler. -/
theorem gated_route {pick : Router} {compat : Bool} {req : Request} {p : Passed} :
    Gated (route pick compat req p) ↔
      ∀ h, dispatch pick compat req.method req.path = some h → h.guarded = false := by
  unfold route
  cases dispatch pick compat req.method req.path with
  | none =>
      refine iff_of_true (fun pre h p post heq _ => ?_) fun h h0 => by cases h0
      cases pre with
      | nil => cases heq
      | cons e pre => simp at heq
  | some h =>
      constructor
      · intro hgated h' hh'
        cases hh'
        by_contra hg
        obtain ⟨id, hid⟩ := hgated [] h p [] rfl (by simpa using hg)
        cases hid
      · intro hall pre h' p' post heq hg
        cases pre with
        | nil =>
            simp only [List.nil_append, List.cons.injEq, GateEvent.ran.injEq] at heq
            rw [← heq.1.1, hall h rfl] at hg
            cases hg
        | cons e pre => simp at heq

theorem gated_verified {id : Identity} {events : List GateEvent} :
    Gated (.verified id :: events) := by
  intro pre h p post heq _
  cases pre with
  | nil => cases heq
  | cons e pre =>
      simp only [List.cons_append, List.cons.injEq] at heq
      exact ⟨id, heq.1 ▸ List.mem_cons_self ..⟩

theorem gated_refused {e : S3Error} : Gated [.refused e] := by
  intro pre h p post heq _
  cases pre with
  | nil => cases heq
  | cons e pre => simp at heq

/-- With authentication enabled, a guarded handler runs only after the request was verified
exactly when a request whose path is textually a health path is of a health endpoint, or has
a method no object answers. -/
theorem handlers_gated_iff {pick : Router} (hpick : pick.MostSpecific) (compat : Bool)
    (verify verifyPresigned : Request → Except S3Error Identity) (req : Request) :
    Gated (serve pick compat true verify verifyPresigned req) ↔ HealthOnly compat req := by
  unfold serve authMiddleware
  by_cases hpath : ("/kerplace/health".toList.isPrefixOf req.path ||
      "/minio/health".toList.isPrefixOf req.path) = true
  · -- Exempted, so what the router makes of the path decides.
    have hexempt : exempt req = true := by rw [exempt, hpath, Bool.true_or]
    rw [if_pos hexempt, gated_route, HealthOnly]
    obtain ⟨m, hm, x, xs, hsegs⟩ := segments_of_health hpath
    by_cases hmem : m :: ("health".toList ++ x) :: xs ∈ healthEndpoints compat
    · rw [dispatch_fixed hpick hsegs (lookup_healthEndpoints hmem)]
      refine iff_of_true (fun h hh => ?_) fun _ => .inl ⟨_, hsegs, hmem⟩
      cases hmethod : req.method <;> rw [hmethod] at hh <;> cases hh <;> rfl
    · rw [dispatch_object hpick hm hsegs hmem]
      constructor
      · intro hall _
        refine .inr (Option.eq_none_iff_forall_ne_some.2 fun h hh => ?_)
        have hg := hall h hh
        rw [guarded_objectMethods hh] at hg
        cases hg
      · intro hhealth h hh
        rcases hhealth hpath with ⟨ys, hys, hin⟩ | hnone
        · rw [hsegs] at hys
          exact absurd (Option.some.inj hys ▸ hin) hmem
        · rw [hnone] at hh
          cases hh
  · refine iff_of_true ?_ fun h => absurd h hpath
    by_cases hexempt : exempt req = true
    · -- The STS endpoint.
      rw [if_pos hexempt, gated_route]
      rw [exempt, Bool.eq_false_of_not_eq_true hpath, Bool.false_or, Bool.and_eq_true,
        decide_eq_true_eq, decide_eq_true_eq] at hexempt
      intro h hh
      have hroot : (buildRouter compat).lookup (.exact [[]]) = some rootMethods := by
        cases compat <;> decide +kernel
      rw [hexempt.1, hexempt.2, dispatch_fixed hpick rfl hroot] at hh
      cases hh
      rfl
    · rw [if_neg hexempt, if_pos rfl]
      dsimp only
      split
      · exact gated_refused
      · exact gated_verified

/-- What anyone may send: a GET without any header. -/
def bareGet (path : Str) : Request := ⟨.get, path, none, [], none⟩

theorem handlers_gated_live :
    Gated (serve .byRank true true (fun _ => .error .accessDenied) (fun _ => .error .accessDenied)
        (bareGet "/kerplace/health/live".toList)) ↔
      HealthOnly true (bareGet "/kerplace/health/live".toList) :=
  handlers_gated_iff Router.byRank_mostSpecific true _ _ _

/-- An object of the bucket `kerplace` is handed out though nothing was verified, and
verifying would have failed. -/
theorem health_object_ungated :
    serve .byRank true true (fun _ => .error .accessDenied) (fun _ => .error .accessDenied)
        (bareGet "/kerplace/healthcare.csv".toList) =
      [.ran (.object .getObjectDispatch) ⟨none, none, none, false⟩] ∧
    ¬ Gated (serve .byRank true true (fun _ => .error .accessDenied)
        (fun _ => .error .accessDenied) (bareGet "/kerplace/healthcare.csv".toList)) := by
  have hran : serve .byRank true true (fun _ => .error .accessDenied)
      (fun _ => .error .accessDenied) (bareGet "/kerplace/healthcare.csv".toList) =
      [.ran (.object .getObjectDispatch) ⟨none, none, none, false⟩] := by decide +kernel
  refine ⟨hran, fun h => ?_⟩
  obtain ⟨id, hid⟩ := h [] _ _ [] hran rfl
  cases hid

end Kerplace
