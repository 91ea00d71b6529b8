/-
# `Kerplace.Handlers.Authority` — on whose authority users are changed

Users are changed through the admin API, by whoever a request is verified as and has the
administrator's policy, and through the console, by whoever shows a session's token.  Who that can
be depends on what was changed before, so it is a matter of the whole run: each change is made by
the root, in a session, under a temporary key, by a user who was an administrator from the start,
or by one whom an earlier change made one.  A request is verified and handled in one step.
-/
import Kerplace.Auth.Sessions
import Kerplace.Handlers.Api
import Kerplace.Handlers.Secrets

namespace Kerplace

/-! ## The way to the admin API -/

/-- How the middleware verifies a request. -/
def verified (verify verifyPresigned : Request → Except S3Error Identity) (req : Request) :
    Except S3Error Identity :=
  if (req.header "authorization".toList).isSome then verify req
  else if (req.query.map fun q => decide ("X-Amz-Signature".toList <:+: q)).getD false then
    verifyPresigned req
  else .error .accessDenied

/-- The handlers under the admin prefix. -/
def Handler.manages : Handler → Bool
  | .admin _ => true
  | _ => false

theorem path_of_segments {path : Str} {xs : List Str} (h : segments path = some xs) :
    path = '/' :: ['/'].intercalate xs := by
  unfold segments at h
  split at h
  · obtain rfl := Option.some.inj h
    rw [List.intercalate_splitOn]
  · cases h

theorem prefix_of_segments {path m n : Str} {rest : List Str}
    (h : segments path = some (m :: n :: rest)) : '/' :: m ++ '/' :: n <+: path := by
  rw [path_of_segments h, List.intercalate_cons_cons]
  have hn : n <+: ['/'].intercalate (n :: rest) := by
    cases rest with
    | nil => exact List.intercalate_singleton ▸ List.prefix_rfl
    | cons r rest =>
        rw [List.intercalate_cons_cons, List.append_assoc]
        exact List.prefix_append _ _
  obtain ⟨t, ht⟩ := hn
  refine ⟨t, ?_⟩
  rw [← ht]
  simp only [List.cons_append, List.append_assoc, List.nil_append]

/-- The admin handlers are mounted below `admin`. -/
theorem fixedRoutes_manages {compat : Bool} {r : List Str × MethodRouter}
    (hr : r ∈ fixedRoutes compat) {method : Method} {h : Handler}
    (hserves : r.2.serves method = some h) (hmanages : h.manages = true) :
    ∃ m rest, (m = "kerplace".toList ∨ m = "minio".toList) ∧ r.1 = m :: "admin".toList :: rest := by
  have hall : ∀ r ∈ fixedRoutes compat, ∀ method ∈ [Method.get, .head, .put, .post, .delete],
      ∀ h ∈ r.2.serves method, h.manages = true →
        (r.1.take 2 = ["kerplace".toList, "admin".toList] ∨
          r.1.take 2 = ["minio".toList, "admin".toList]) := by
    cases compat <;> decide +kernel
  have htake : r.1.take 2 = ["kerplace".toList, "admin".toList] ∨
      r.1.take 2 = ["minio".toList, "admin".toList] :=
    hall r hr method (method_of_serves hserves) h hserves hmanages
  have hsplit := List.take_append_drop 2 r.1
  rcases htake with htake | htake
  · rw [htake] at hsplit
    exact ⟨_, _, .inl rfl, hsplit.symm⟩
  · rw [htake] at hsplit
    exact ⟨_, _, .inr rfl, hsplit.symm⟩

/-- The path of a request that an admin handler gets. -/
theorem admin_path {pick : Router} (hpick : pick.MostSpecific) {compat : Bool} {method : Method}
    {path : Str} {a : AdminHandler}
    (hdispatch : dispatch pick compat method path = some (.admin a)) :
    "/kerplace/admin".toList <+: path ∨ "/minio/admin".toList <+: path := by
  obtain ⟨xs, p, methods, hxs, hp, hmem, hserves⟩ := dispatch_mem hdispatch
  rw [buildRouter] at hmem
  rcases List.mem_append.1 hmem with hmem | hmem
  · obtain ⟨r, hr, hrp⟩ := List.mem_map.1 hmem
    obtain ⟨rfl, rfl⟩ := Prod.mk.inj hrp
    obtain ⟨m, rest, hm, hsegs⟩ := fixedRoutes_manages hr hserves rfl
    rw [Pattern.matches_exact.1 (hpick.sound hp).2, hsegs] at hxs
    have hprefix := prefix_of_segments hxs
    rcases hm with rfl | rfl
    · exact .inl hprefix
    · exact .inr hprefix
  · -- the routes with a bucket in their path serve no admin handler
    have hnone : ∀ r ∈ [(bucketPattern, bucketMethods), (bucketSlashPattern, bucketMethods),
        (objectPattern, objectMethods)], ∀ method, ∀ h ∈ MethodRouter.serves r.2 method,
          h.manages = false := by
      intro r hr method h hh
      rcases List.mem_cons.1 hr with rfl | hr
      · cases method <;> cases hh <;> rfl
      rcases List.mem_cons.1 hr with rfl | hr
      · cases method <;> cases hh <;> rfl
      · rw [List.mem_singleton.1 hr] at hh
        cases method <;> cases hh <;> rfl
    cases hnone _ hmem method _ hserves

theorem admin_guarded {pick : Router} (hpick : pick.MostSpecific) {compat : Bool} {req : Request}
    {a : AdminHandler} (hdispatch : dispatch pick compat req.method req.path = some (.admin a)) :
    exempt req = false ∧ actionFor req.method req.path = .admin := by
  have hpath := admin_path hpick hdispatch
  have haction : ("/kerplace/admin".toList.isPrefixOf req.path ||
      "/minio/admin".toList.isPrefixOf req.path) = true := by
    rw [Bool.or_eq_true, List.isPrefixOf_iff_prefix, List.isPrefixOf_iff_prefix]
    exact hpath
  refine ⟨?_, if_pos haction⟩
  rcases hpath with ⟨s, hs⟩ | ⟨s, hs⟩
  · rw [exempt, ← hs]
    rfl
  · rw [exempt, ← hs]
    rfl

theorem Policy.eq_admin_of_allows {p : Policy} (h : p.allows .admin = true) : p = .admin := by
  cases p with
  | admin => rfl
  | readWrite => cases h
  | readOnly => cases h
  | writeOnly => cases h

/-- An admin handler runs for an identity that the request was verified as, and that has the
administrator's policy. -/
theorem admin_ran {pick : Router} (hpick : pick.MostSpecific) {compat : Bool}
    {verify verifyPresigned : Request → Except S3Error Identity} {req : Request}
    {a : AdminHandler} {passed : Passed}
    (hran : .ran (.admin a) passed ∈ serve pick compat true verify verifyPresigned req) :
    ∃ id, passed.identity = some id ∧ verified verify verifyPresigned req = .ok id ∧
      Policy.fromName id.policy = .admin := by
  have hserved := hran
  unfold serve authMiddleware at hran
  dsimp only at hran
  split at hran
  · rename_i hexempt
    rw [(admin_guarded hpick (ran_of_route hran).1).1] at hexempt
    cases hexempt
  rw [if_pos rfl] at hran
  split at hran
  · cases List.mem_singleton.1 hran
  rename_i id hverified
  rcases List.mem_cons.1 hran with hran | hran
  · cases hran
  split at hran
  · cases List.mem_singleton.1 hran
  split at hran
  · cases List.mem_singleton.1 hran
  obtain ⟨-, rfl⟩ := ran_of_route hran
  refine ⟨id, rfl, hverified, Policy.eq_admin_of_allows ?_⟩
  obtain ⟨hdispatch, hallows, -⟩ := ran_of_serve hserved rfl
  rwa [(admin_guarded hpick hdispatch).2] at hallows

/-! ## The server -/

/-- The server, as far as users, sessions and temporary credentials go. -/
structure Server (Key : Type) where
  iam : IamStore
  jwt : Jwt Key
  percent : PercentCoding
  oidc : Option Oidc
  ciphers : Madmin.Ciphers
  fromSlice : Bytes → Except String JsonValue
  toVec : JsonValue → Bytes
  sigV4 : SigV4
  pick : Router
  compat : Bool

/-- What comes in. -/
inductive Incoming where
  /-- A request of the S3 port, with its query as `axum` reads it and its body. -/
  | request (req : Request) (query : Str → Option Str) (body : Bytes)
  /-- A request of the console about users, with the text of its `Authorization` header. -/
  | console (authorization : Option Str) (c : ConsoleCall)
  /-- A login, a callback of the provider, `POST /`, or another request of the console. -/
  | signOn (c : SignOn.Call)
  | restart (readable : Bool)

/-- What comes in, and what there is around it: the clock as each of its readers reads it, what is
drawn at random, the provider's answers, and what becomes of the file operations. -/
structure Arrival where
  incoming : Incoming
  checked : UnixTime
  now : UnixTime
  nanos : Int
  nonce : LoginNonce
  stsNonce : StsNonce
  post : Str → List (Str × Str) → Fetched
  drawn : Madmin.Drawn
  io : IamIo
  again : IamIo

/-- An arrival as a request to sign on. -/
def Arrival.turn (a : Arrival) (c : SignOn.Call) : SignOn.Turn :=
  ⟨c, a.checked, a.now, a.nonce, a.stsNonce, a.post⟩

/-- An arrival as a request about users. -/
def Arrival.userTurn (a : Arrival) (c : UserCall) : UserTurn :=
  ⟨c, a.now.secs, a.drawn, a.io, a.again⟩

/-- The admin handler that ran, and what it was handed. -/
def adminRan (events : List GateEvent) : Option (AdminHandler × Passed) :=
  events.findSome? fun e =>
    match e with
    | .ran (.admin h) p => some (h, p)
    | _ => none

namespace Server

variable {Key : Type} (S : Server Key)

/-- What signs users on. -/
def signOn : SignOn Key := ⟨S.iam, S.jwt, S.percent, S.oidc⟩

/-- What manages users. -/
def users : AdminServer := ⟨S.iam, S.ciphers, S.fromSlice, S.toVec⟩

/-- The access key that a request is signed under. -/
def keyOf (req : Request) : Option Str :=
  if (req.header "authorization".toList).isSome then
    ((req.readable "authorization".toList).bind fun v => (parseAuthorization v).toOption).map
      ParsedAuth.accessKey
  else (S.sigV4.presignedParams (req.query.getD [])).toOption.map PresignedParams.accessKey

/-- `verify`, with what the store resolves now. -/
def verify (s : IamState) (a : Arrival) : Request → Except S3Error Identity :=
  S.sigV4.verify (S.iam.resolve a.now.secs s.users)

/-- `verify_presigned`, likewise; where it panics the request ends without an answer. -/
def verifyPresigned (s : IamState) (a : Arrival) (req : Request) : Except S3Error Identity :=
  (S.sigV4.verifyPresigned (S.iam.resolve a.now.secs s.users) req a.nanos).getD
    (.error (.internal "panic"))

/-- What a request of the S3 port is verified as. -/
def verifiedAs (s : IamState) (a : Arrival) (req : Request) : Except S3Error Identity :=
  verified (S.verify s a) (S.verifyPresigned s a) req

/-- The request about users that an arrival gets through with. -/
def admitted (s : IamState) (a : Arrival) : Option UserTurn :=
  match a.incoming with
  | .request req query body =>
      (adminRan (serve S.pick S.compat true (S.verify s a) (S.verifyPresigned s a) req)).map
        fun r => a.userTurn (.admin r.1 r.2.identity query body)
  | .console authorization c =>
      if (S.signOn.handle (a.turn (.api authorization))).1 = .handled then
        some (a.userTurn (.console c))
      else none
  | _ => none

/-- What an arrival makes of the users. -/
def arrive (seed : Option Str) (s : IamState) (a : Arrival) : IamState :=
  match a.incoming with
  | .restart readable => S.iam.load seed readable s.file
  | _ =>
      match S.admitted s a with
      | some t => (S.users.handle t s).2
      | none => s

/-- The server with one seed list. -/
def machine (seed : Option Str) : Machine IamState Arrival Unit :=
  ⟨fun s a => ((), S.arrive seed s a)⟩

/-- The users after some arrivals. -/
def after (seed : Option Str) (s : IamState) (arrivals : List Arrival) : IamState :=
  (S.machine seed).final s arrivals

/-- An arrival as what it signs on or shows: a request of the S3 port has its key looked up. -/
def turns (a : Arrival) : List SignOn.Turn :=
  match a.incoming with
  | .request req _ _ => ((S.keyOf req).map fun k => a.turn (.lookup k)).toList
  | .console authorization _ => [a.turn (.api authorization)]
  | .signOn c => [a.turn c]
  | .restart _ => []

/-- What is shown and issued over a run. -/
def trace (arrivals : List Arrival) : List IamStore.Event :=
  S.signOn.trace (arrivals.flatMap S.turns)

end Server

/-! ## Authority -/

/-- The user of a key is an administrator, in memory or in the users file. -/
def IamState.Administers (s : IamState) (k : Str) : Prop :=
  ∃ u : StoredUser, Policy.fromName u.policy = .admin ∧
    (s.users[k]? = some u ∨ ∃ doc : Users, s.file = some (.doc doc) ∧ doc[k]? = some u)

namespace Server

variable {Key : Type} (S : Server Key) (seed : Option Str) (start : IamState)

/-- An administrator from the start: of the users, the file or the seed list. -/
def Original (k : Str) : Prop :=
  start.Administers k ∨
    ∃ u : StoredUser, (k, u) ∈ seedUsers S.iam.rootKey seed ∧ Policy.fromName u.policy = .admin

/-- On what authority an arrival acts. -/
inductive Acts : List Arrival → Arrival → Prop
  | root {before : List Arrival} {a : Arrival} {req : Request} {query : Str → Option Str}
      {body : Bytes} (hincoming : a.incoming = .request req query body)
      (hverified : S.verifiedAs (S.after seed start before) a req = .ok S.iam.root) :
      Acts before a
  /-- Under a temporary key that was issued for an ID token of an administrator. -/
  | temporary {before : List Arrival} {a : Arrival} {req : Request} {query : Str → Option Str}
      {body : Bytes} {t : SignOn.Turn} {ttl : Int}
      (hincoming : a.incoming = .request req query body)
      (hissued : t ∈ before.flatMap S.turns) (hissues : S.signOn.Issues t .admin ttl)
      (hlate : a.now.secs < t.now.secs + ttl)
      (hverified : S.verifiedAs (S.after seed start before) a req =
        let issued := S.iam.issueTemp t.now.secs t.stsNonce .admin ttl
        .ok ⟨issued.1, issued.2.1, Policy.admin.name, true, none⟩) : Acts before a
  /-- With the token of a session that began with the root credentials or for an administrator of
  the provider's. -/
  | session {before : List Arrival} {a : Arrival} {authorization : Option Str} {c : ConsoleCall}
      {t : SignOn.Turn} {n : Option Str} (hincoming : a.incoming = .console authorization c)
      (hbegan : t ∈ before.flatMap S.turns) (hbegins : S.signOn.Begins t n)
      (hbears : S.iam.Bears authorization t.now.secs)
      (hlate : a.now.secs < t.now.secs + TOKEN_TTL_SECONDS) : Acts before a
  | original {before : List Arrival} {a : Arrival} {req : Request} {query : Str → Option Str}
      {body : Bytes} {k : Str} {u : StoredUser}
      (hincoming : a.incoming = .request req query body)
      (hverified : S.verifiedAs (S.after seed start before) a req = .ok (u.identity k))
      (horiginal : S.Original seed start k) : Acts before a
  /-- As a user whom an earlier arrival, on some such authority, made an administrator. -/
  | granted {before : List Arrival} {a : Arrival} {req : Request} {query : Str → Option Str}
      {body : Bytes} {k : Str} {u : StoredUser} {earlier between : List Arrival} {b : Arrival}
      {t : UserTurn} (hincoming : a.incoming = .request req query body)
      (hverified : S.verifiedAs (S.after seed start before) a req = .ok (u.identity k))
      (hbefore : before = earlier ++ b :: between) (hacts : Acts earlier b)
      (hadmitted : S.admitted (S.after seed start earlier) b = some t)
      (hsubject : S.users.subject t = some k)
      (hmade : (S.after seed start (earlier ++ [b])).Administers k) : Acts before a

/-- An administrator from the start, or whom an arrival made one. -/
def Grounded (before : List Arrival) (k : Str) : Prop :=
  S.Original seed start k ∨ ∃ earlier b between t, before = earlier ++ b :: between ∧
    S.Acts seed start earlier b ∧ S.admitted (S.after seed start earlier) b = some t ∧
    S.users.subject t = some k ∧ (S.after seed start (earlier ++ [b])).Administers k

end Server

/-! ## What a request is verified as -/

section

variable {L : SigV4} {resolve : Str → Option Identity} {req : Request} {id : Identity}

theorem key_of_verify (h : L.verify resolve req = .ok id) :
    ∃ value p, req.readable "authorization".toList = some value ∧
      parseAuthorization value = .ok p ∧ resolve p.accessKey = some id := by
  obtain ⟨value, p, -, hvalue, hparse, hresolve, -⟩ := SigV4.verify_eq_ok_iff.1 h
  exact ⟨value, p, hvalue, hparse, hresolve⟩

theorem key_of_verifyPresigned {now : Int}
    (h : L.verifyPresigned resolve req now = some (.ok id)) :
    ∃ p, L.presignedParams (req.query.getD []) = .ok p ∧ resolve p.accessKey = some id := by
  by_contra hnone
  have hundated : ∃ e, L.verifyPresigned resolve req now = some (.error e) := by
    refine SigV4.verifyPresigned_undated fun p identity signedTime hp _ _ hdate => ?_
    exact hnone ⟨p, hp, ((SigV4.verifyPresigned_eq_ok_iff hp hdate).1 h).1⟩
  obtain ⟨e, he⟩ := hundated
  rw [h] at he
  cases he

end

namespace Server

variable {Key : Type} {S : Server Key} {seed : Option Str} {start : IamState}

/-- The identity is the one that the key of the request stands for. -/
theorem key_of_verifiedAs {s : IamState} {a : Arrival} {req : Request} {id : Identity}
    (h : S.verifiedAs s a req = .ok id) :
    ∃ k, S.keyOf req = some k ∧ S.iam.resolve a.now.secs s.users k = some id := by
  unfold verifiedAs verified at h
  unfold keyOf
  split at h
  · rename_i hheader
    obtain ⟨value, p, hvalue, hparse, hresolve⟩ := key_of_verify h
    refine ⟨p.accessKey, ?_, hresolve⟩
    rw [if_pos hheader, hvalue, Option.bind_some, hparse]
    rfl
  · rename_i hheader
    split at h
    · unfold verifyPresigned at h
      cases hpresigned : S.sigV4.verifyPresigned (S.iam.resolve a.now.secs s.users) req a.nanos with
      | none =>
          rw [hpresigned] at h
          cases h
      | some result =>
          rw [hpresigned] at h
          obtain rfl : result = .ok id := h
          obtain ⟨p, hp, hresolve⟩ := key_of_verifyPresigned hpresigned
          refine ⟨p.accessKey, ?_, hresolve⟩
          rw [if_neg hheader, hp]
          rfl
    · cases h

end Server

/-! ## Who becomes an administrator -/

section

variable {A : AdminServer} {s : IamState} {k : Str}

theorem administers_callIam {io : IamIo} {c : IamCall}
    (h : (A.callIam io c s).2.Administers k) : s.Administers k ∨ k = c.key := by
  by_cases hk : k = c.key
  · exact .inr hk
  have hview : (A.callIam io c s).2.users[k]? = s.users[k]? :=
    (congrFun (AdminServer.callIam_view io c s) k).trans (IamCall.fold_of_ne A.iam _ hk)
  obtain ⟨u, hadmin, hu | ⟨doc, hfile, hu⟩⟩ := h
  · exact .inl ⟨u, hadmin, .inl (hview ▸ hu)⟩
  · rcases doc_run hfile with hold | hdoc
    · exact .inl ⟨u, hadmin, .inr ⟨doc, hold, hu⟩⟩
    · subst hdoc
      exact .inl ⟨u, hadmin, .inl (hview ▸ hu)⟩

/-- A request makes nobody an administrator but the user it names. -/
theorem administers_handle {t : UserTurn} (h : (A.handle t s).2.Administers k) :
    s.Administers k ∨ A.subject t = some k := by
  cases A.does t s with
  | nothing hsame => exact .inl (hsame ▸ h)
  | one c hkey hcall =>
      rw [hcall] at h
      rcases administers_callIam h with h | rfl
      · exact .inl h
      · exact .inr hkey
  | two k' sk policy hkey _ hcall =>
      rw [hcall] at h
      rcases administers_callIam h with h | rfl
      · rcases administers_callIam h with h | rfl
        · exact .inl h
        · exact .inr hkey
      · exact .inr hkey

theorem mem_seed {u : StoredUser} : ∀ (entries : List (Str × StoredUser)) (users : Users),
    (entries.foldl (fun users e => users.insertIfNew e.1 e.2) users)[k]? = some u →
      users[k]? = some u ∨ (k, u) ∈ entries := by
  intro entries
  induction entries with
  | nil => exact fun users h => .inl h
  | cons e entries ih =>
      intro users h
      rcases ih _ h with h | h
      · rw [Std.ExtTreeMap.getElem?_insertIfNew] at h
        split at h
        · rename_i hnew
          refine .inr (List.mem_cons.2 (.inl ?_))
          rw [← Std.LawfulEqCmp.eq_of_compare hnew.1, ← Option.some.inj h]
        · exact .inl h
      · exact .inr (List.mem_cons_of_mem _ h)

/-- Nor does a restart, but whom the seed list says. -/
theorem administers_load {S : IamStore} {seed : Option Str} {readable : Bool}
    (h : (S.load seed readable s.file).Administers k) : s.Administers k ∨
      ∃ u : StoredUser, (k, u) ∈ seedUsers S.rootKey seed ∧ Policy.fromName u.policy = .admin := by
  obtain ⟨u, hadmin, hu | hfile⟩ := h
  · rcases mem_seed _ _ hu with hu | hu
    · unfold fileUsers at hu
      split at hu
      · cases hfile : s.file with
        | none =>
            rw [hfile] at hu
            cases hu
        | some content =>
            rw [hfile] at hu
            cases content with
            | doc doc => exact .inl ⟨u, hadmin, .inr ⟨doc, hfile, hu⟩⟩
            | raw left => cases hu
      · cases hu
    · exact .inr ⟨u, hu, hadmin⟩
  · exact .inl ⟨u, hadmin, .inr hfile⟩

end

theorem Policy.fromName_name (p : Policy) : Policy.fromName p.name = p := by
  cases p <;> decide

theorem ran_of_adminRan {events : List GateEvent} {h : AdminHandler} {p : Passed}
    (heq : adminRan events = some (h, p)) : .ran (.admin h) p ∈ events := by
  obtain ⟨e, he, hran⟩ := List.exists_of_findSome?_eq_some heq
  cases e with
  | ran handler p' =>
      cases handler with
      | admin h' =>
          obtain ⟨rfl, rfl⟩ := Prod.mk.inj (Option.some.inj hran)
          exact he
      | health => cases hran
      | sts => cases hran
      | bucket _ => cases hran
      | object _ => cases hran
  | verified _ => cases hran
  | refused _ => cases hran
  | unrouted => cases hran

namespace Server

variable {Key : Type} {S : Server Key} {seed : Option Str} {start : IamState}

theorem after_snoc (before : List Arrival) (a : Arrival) :
    S.after seed start (before ++ [a]) = S.arrive seed (S.after seed start before) a :=
  Machine.final_snoc _ start before a

theorem arrive_restart {s : IamState} {a : Arrival} {readable : Bool}
    (h : a.incoming = .restart readable) :
    S.arrive seed s a = S.iam.load seed readable s.file := by
  rw [arrive, h]

theorem arrive_eq (S : Server Key) (seed : Option Str) (s : IamState) {a : Arrival}
    (h : ∀ readable, a.incoming ≠ .restart readable) : S.arrive seed s a =
      (S.admitted s a).elim s fun t => (S.users.handle t s).2 := by
  unfold arrive
  split
  · rename_i readable hincoming
    exact absurd hincoming (h readable)
  · cases S.admitted s a with
    | none => rfl
    | some t => rfl

theorem admitted_console {s : IamState} {a : Arrival} {authorization : Option Str}
    {c : ConsoleCall} (hincoming : a.incoming = .console authorization c)
    (hhandled : (S.signOn.handle (a.turn (.api authorization))).1 = .handled) :
    S.admitted s a = some (a.userTurn (.console c)) := by
  rw [admitted, hincoming]
  exact if_pos hhandled

theorem Grounded.snoc {before : List Arrival} {k : Str} (h : S.Grounded seed start before k)
    (a : Arrival) : S.Grounded seed start (before ++ [a]) k := by
  rcases h with h | ⟨earlier, b, between, t, rfl, hacts⟩
  · exact .inl h
  · refine .inr ⟨earlier, b, between ++ [a], t, ?_, hacts⟩
    rw [List.append_assoc, List.cons_append]

section

variable {arrivals before later : List Arrival} {a : Arrival}

theorem turns_split (h : arrivals = before ++ a :: later) {t : SignOn.Turn}
    (ht : S.turns a = [t]) : arrivals.flatMap S.turns =
      before.flatMap S.turns ++ t :: later.flatMap S.turns := by
  rw [h, List.flatMap_append, List.flatMap_cons, ht, List.singleton_append]

/-- What gets through does so on some authority, where the administrators are grounded. -/
theorem acts_of_admitted (hcoded : S.iam.Coded) (hpick : S.pick.MostSpecific)
    (hunforgeable : S.iam.Unforgeable (S.trace arrivals))
    (harrivals : arrivals = before ++ a :: later)
    (hgrounded : ∀ k, (S.after seed start before).Administers k → S.Grounded seed start before k)
    {t : UserTurn} (hadmitted : S.admitted (S.after seed start before) a = some t) :
    S.Acts seed start before a := by
  unfold admitted at hadmitted
  cases hincoming : a.incoming with
  | request req query body =>
      rw [hincoming] at hadmitted
      obtain ⟨⟨h, p⟩, hran, -⟩ := Option.map_eq_some_iff.1 hadmitted
      obtain ⟨id, -, hverified, hadmin⟩ := admin_ran hpick (ran_of_adminRan hran)
      obtain ⟨k, hkey, hresolve⟩ := key_of_verifiedAs hverified
      unfold IamStore.resolve at hresolve
      split at hresolve
      · obtain rfl := Option.some.inj hresolve
        exact .root hincoming hverified
      · split at hresolve
        · have hturns : S.turns a = [a.turn (.lookup k)] := by
            rw [turns, hincoming]
            dsimp only
            rw [hkey]
            rfl
          obtain ⟨b, hb, policy, ttl, hissues, hlate, -, rfl⟩ := SignOn.issued_of_resolveSts
            (S := S.signOn) hcoded hunforgeable (turns_split harrivals hturns) rfl hresolve
          rw [Policy.fromName_name] at hadmin
          subst hadmin
          exact .temporary hincoming hb hissues hlate hverified
        · obtain ⟨u, hu, rfl⟩ := Option.map_eq_some_iff.1 hresolve
          rcases hgrounded k ⟨u, hadmin, .inl hu⟩ with horiginal |
            ⟨earlier, b, between, t', hbefore, hacts, hadmitted', hsubject, hmade⟩
          · exact .original hincoming hverified horiginal
          · exact .granted hincoming hverified hbefore hacts hadmitted' hsubject hmade
  | console authorization c =>
      rw [hincoming] at hadmitted
      dsimp only at hadmitted
      split at hadmitted
      · rename_i hhandled
        have hturns : S.turns a = [a.turn (.api authorization)] := by rw [turns, hincoming]
        obtain ⟨pre, b, post, n, shown, hpre, hbegins, hcall, hbears, hlate⟩ :=
          SignOn.began_of_handled (S := S.signOn) hcoded hunforgeable
            (turns_split harrivals hturns) hhandled
        obtain rfl := SignOn.Call.api.inj hcall
        have hb : b ∈ before.flatMap S.turns :=
          hpre ▸ List.mem_append_right _ List.mem_cons_self
        exact .session hincoming hb hbegins hbears hlate
      · cases hadmitted
  | signOn c =>
      rw [hincoming] at hadmitted
      cases hadmitted
  | restart readable =>
      rw [hincoming] at hadmitted
      cases hadmitted

/-- Every administrator there ever is, in memory or in the users file, is grounded. -/
theorem grounded_of_administers (hcoded : S.iam.Coded) (hpick : S.pick.MostSpecific)
    (hunforgeable : S.iam.Unforgeable (S.trace arrivals)) (harrivals : arrivals = before ++ later)
    {k : Str} (h : (S.after seed start before).Administers k) :
    S.Grounded seed start before k := by
  induction before using List.reverseRecOn generalizing later k with
  | nil => exact .inl (.inl h)
  | append_singleton before a ih =>
      rw [List.append_assoc, List.singleton_append] at harrivals
      have hgrounded {k : Str} (hk : (S.after seed start before).Administers k) :
          S.Grounded seed start before k := ih harrivals hk
      have hmade := h
      rw [after_snoc] at h
      by_cases hrestart : ∃ readable, a.incoming = .restart readable
      · obtain ⟨readable, hincoming⟩ := hrestart
        rw [arrive_restart hincoming] at h
        rcases administers_load h with h | hseed
        · exact (hgrounded h).snoc a
        · exact .inl (.inr hseed)
      · rw [arrive_eq S seed _ (not_exists.1 hrestart)] at h
        cases hadmitted : S.admitted (S.after seed start before) a with
        | none =>
            rw [hadmitted] at h
            exact (hgrounded h).snoc a
        | some t =>
            rw [hadmitted] at h
            rcases administers_handle h with h | hsubject
            · exact (hgrounded h).snoc a
            · exact .inr ⟨before, a, [], t, rfl, acts_of_admitted hcoded hpick hunforgeable
                harrivals (fun _ => hgrounded) hadmitted, hadmitted, hsubject, hmade⟩

/-- On whose authority users are managed.  Over any run of requests to the S3 port and to the
console, of logins, callbacks and calls for temporary credentials, and of restarts, in which no tag
is made up: whatever gets as far as a handler that manages users, and whatever changes them or
their file and is not a restart, is a request verified as the root; or under a temporary key that
was issued before, for an ID token of an administrator; or shows the token of a session that began
before, with the root credentials or for an administrator of the provider's; or as a user who was
an administrator from the start, or whom an earlier such request, about that user, made one.  And
whoever is an administrator, in memory or in the file, is so from the start or since such a
request. -/
theorem authority_grounded (hcoded : S.iam.Coded) (hpick : S.pick.MostSpecific)
    (hunforgeable : S.iam.Unforgeable (S.trace arrivals))
    (harrivals : arrivals = before ++ a :: later) :
    (∀ t, S.admitted (S.after seed start before) a = some t → S.Acts seed start before a) ∧
    (S.after seed start (before ++ [a]) ≠ S.after seed start before →
      (∃ readable, a.incoming = .restart readable) ∨ S.Acts seed start before a) ∧
    ∀ k, (S.after seed start before).Administers k → S.Grounded seed start before k := by
  have hgrounded (k : Str) (hk : (S.after seed start before).Administers k) :
      S.Grounded seed start before k :=
    grounded_of_administers hcoded hpick hunforgeable harrivals hk
  have hacts (t : UserTurn) (hadmitted : S.admitted (S.after seed start before) a = some t) :
      S.Acts seed start before a :=
    acts_of_admitted hcoded hpick hunforgeable harrivals hgrounded hadmitted
  refine ⟨hacts, fun hchanged => ?_, hgrounded⟩
  by_cases hrestart : ∃ readable, a.incoming = .restart readable
  · exact .inl hrestart
  · refine .inr ?_
    cases hadmitted : S.admitted (S.after seed start before) a with
    | none =>
        rw [after_snoc, arrive_eq S seed _ (not_exists.1 hrestart), hadmitted] at hchanged
        exact absurd rfl hchanged
    | some t => exact hacts t hadmitted

end

/-- A server whose tags tell the session below apart. -/
def echoes : Server Unit where
  iam := SignOn.oneTagStore (utf8 (decimal 44200))
  jwt := SignOn.echoJwt
  percent := percentCoding
  oidc := none
  ciphers := AdminServer.muteServer.ciphers
  fromSlice := AdminServer.muteServer.fromSlice
  toVec := AdminServer.muteServer.toVec
  sigV4 := SigV4.openHashes
  pick := .byRank
  compat := true

/-- What comes in at some time. -/
def arrivalAt (now : UnixTime) (incoming : Incoming) : Arrival where
  incoming := incoming
  checked := now
  now := now
  nanos := 0
  nonce := SignOn.goesOut.nonce
  stsNonce := IamStore.minuteNonce
  post _ _ := .answered .null
  drawn := Madmin.Ciphers.zeros
  io := .fine
  again := .fine

/-- Root signs on. -/
def rootSignsOn : Arrival :=
  arrivalAt SignOn.early (.signOn (.login "root".toList "secret".toList))

/-- And makes a member an administrator. -/
def rootPromotes : Arrival :=
  arrivalAt SignOn.later (.console (some ("Bearer ".toList ++ echoes.iam.issueToken 1000))
    (.addUser "member".toList "secretkey".toList (some "consoleAdmin".toList)))

/-- The member is added in the root's session. -/
theorem authority_grounded_member :
    echoes.Acts none ⟨∅, none⟩ [rootSignsOn] rootPromotes := by
  have hhandled : (echoes.signOn.handle (rootPromotes.turn
      (.api (some ("Bearer ".toList ++ echoes.iam.issueToken 1000))))).1 = .handled := by
    decide +kernel
  have htrace : echoes.trace [rootSignsOn, rootPromotes] =
      [.token 1000] ++ [.present (echoes.iam.issueToken 1000)] := rfl
  have hquiet : ∀ e ∈ [IamStore.Event.token 1000], ∀ x, e ≠ .present x := by
    intro e he x hx
    rw [List.mem_singleton.1 he] at hx
    cases hx
  have hhashed : (IamStore.Purpose.session, utf8 (decimal 44200)) ∈
      [IamStore.Event.token 1000].flatMap echoes.iam.tagged := List.mem_cons_self
  have hunforgeable : echoes.iam.Unforgeable (echoes.trace [rootSignsOn, rootPromotes]) := by
    rw [htrace]
    exact SignOn.unforgeable_once hquiet hhashed (by decide +kernel)
  have harrivals : [rootSignsOn, rootPromotes] = [rootSignsOn] ++ rootPromotes :: [] := rfl
  exact (authority_grounded (SignOn.coded_oneTagStore _) Router.byRank_mostSpecific hunforgeable
    harrivals).1 _ (admitted_console rfl hhandled)

end Server

end Kerplace
