/-
# `Kerplace.Handlers.AuditTrail` — every request is on record

The middleware logs one record for each request but the exempt ones: the refused ones too, as
it refuses them, and the others once they are answered.  A record has the key the request was
verified under and the status it was answered with.

Over runs of requests and of the task that writes the log, the file has a record of each
request, in the order of their answers.

The version in a record is the first of the query and the one that a handler reads the last,
so the two are the same only where the query names one.
-/
import Kerplace.Auth.AccessLog
import Kerplace.Auth.Gate
import Kerplace.Handlers.Api

namespace Kerplace

/-! ## The middleware and its records -/

/-- A request as the middleware meets it: when its answer is made, how it verifies, and the
status of the answer from behind the middleware. -/
structure Exchange where
  req : Request
  ts : Str
  verify : Request → Except S3Error Identity
  verifyPresigned : Request → Except S3Error Identity
  status : Passed → Nat

namespace Exchange

variable (x : Exchange)

/-- `auth_middleware` with its log: the status of the answer, and what is logged. -/
def answer (logging authEnabled : Bool) : Nat × List AccessEntry :=
  let decoded := isAwsChunked ((x.req.header "x-amz-content-sha256".toList).bind id)
  if exempt x.req then (x.status ⟨none, none, none, false⟩, [])
  else
    -- `log_access` for what is refused, `entry_for` for what is answered
    let answered (accessKey : Option Str) (status : Nat) : Nat × List AccessEntry :=
      (status, if logging then [entryFor x.ts x.req ⟨accessKey, remoteIp x.req⟩ status] else [])
    if authEnabled then
      let result :=
        if (x.req.header "authorization".toList).isSome then x.verify x.req
        else if (x.req.query.map fun q => decide ("X-Amz-Signature".toList <:+: q)).getD false then
          x.verifyPresigned x.req
        else .error .accessDenied
      match result with
      | .error e => answered none e.status
      | .ok id =>
          if ¬ (Policy.fromName id.policy).allows (actionFor x.req.method x.req.path) then
            answered (some id.accessKey) S3Error.accessDenied.status
          else if ¬ id.allowsBucket (bucketFor x.req.path) then
            answered (some id.accessKey) S3Error.accessDenied.status
          else
            answered (some id.accessKey)
              (x.status ⟨some id, some id.accessKey, remoteIp x.req, decoded⟩)
    else answered none (x.status ⟨none, none, remoteIp x.req, decoded⟩)

/-- What happens to the request. -/
def events (pick : Router) (compat authEnabled : Bool) : List GateEvent :=
  serve pick compat authEnabled x.verify x.verifyPresigned x.req

end Exchange

/-- The key that a request was verified under. -/
def verifiedKey (events : List GateEvent) : Option Str :=
  events.findSome? fun e =>
    match e with
    | .verified id => some id.accessKey
    | _ => none

theorem verifiedKey_route (pick : Router) (compat : Bool) (req : Request) (p : Passed) :
    verifiedKey (route pick compat req p) = none := by
  unfold route
  split <;> rfl

namespace Exchange

/-- The record of a request. -/
def record (x : Exchange) (pick : Router) (compat authEnabled : Bool) : AccessEntry :=
  entryFor x.ts x.req ⟨verifiedKey (x.events pick compat authEnabled), remoteIp x.req⟩
    (x.answer true authEnabled).1

/-- A request has one record, unless it is exempt. -/
theorem answer_records (x : Exchange) (pick : Router) (compat authEnabled : Bool) :
    (x.answer true authEnabled).2 =
      if exempt x.req then [] else [x.record pick compat authEnabled] := by
  by_cases hex : exempt x.req = true
  · rw [if_pos hex, answer]
    dsimp only
    rw [if_pos hex]
  rw [if_neg hex]
  unfold record events serve authMiddleware
  dsimp only
  rw [if_neg hex]
  unfold answer
  dsimp only
  rw [if_neg hex]
  cases authEnabled with
  | false =>
      rw [if_neg Bool.false_ne_true, if_neg Bool.false_ne_true, verifiedKey_route]
      rfl
  | true =>
      rw [if_pos rfl, if_pos rfl]
      generalize (if (x.req.header "authorization".toList).isSome then x.verify x.req
        else if (x.req.query.map fun q => decide ("X-Amz-Signature".toList <:+: q)).getD false then
          x.verifyPresigned x.req
        else .error .accessDenied) = result
      cases result with
      | error e => rfl
      | ok id =>
          dsimp only
          by_cases hallows :
              ¬ (Policy.fromName id.policy).allows (actionFor x.req.method x.req.path)
          · rw [if_pos hallows, if_pos hallows]
            rfl
          rw [if_neg hallows, if_neg hallows]
          by_cases hbucket : ¬ id.allowsBucket (bucketFor x.req.path)
          · rw [if_pos hbucket, if_pos hbucket]
            rfl
          · rw [if_neg hbucket, if_neg hbucket]
            rfl

end Exchange

/-! ## Runs -/

/-- A turn of the server: a request is answered, or the log's task or process does something. -/
inductive Turn where
  | exchange (x : Exchange)
  | write (n : Nat)
  | restart

namespace Turn

/-- What a turn is to the logger. -/
def steps (authEnabled : Bool) : Turn → List LogStep
  | .exchange x => (x.answer true authEnabled).2.map .log
  | .write n => [.write n]
  | .restart => [.restart]

/-- The record that a turn is to leave. -/
def record (pick : Router) (compat authEnabled : Bool) : Turn → Option Bytes
  | .exchange x => if exempt x.req then none else some (x.record pick compat authEnabled).bytes
  | _ => none

theorem sent_steps (pick : Router) (compat authEnabled : Bool) (turns : List Turn) :
    (turns.flatMap (steps authEnabled)).filterMap AccessLogger.sent =
      turns.filterMap (record pick compat authEnabled) := by
  rw [List.filterMap_flatMap, List.filterMap_eq_flatMap_toList]
  refine List.flatMap_congr fun t _ => ?_
  cases t with
  | exchange x =>
      rw [steps, record, x.answer_records pick compat authEnabled]
      split <;> rfl
  | write n => rfl
  | restart => rfl

theorem restart_mem_steps {authEnabled : Bool} {turns : List Turn}
    (h : LogStep.restart ∈ turns.flatMap (steps authEnabled)) : Turn.restart ∈ turns := by
  obtain ⟨t, ht, hmem⟩ := List.mem_flatMap.1 h
  cases t with
  | exchange x =>
      obtain ⟨e, -, he⟩ := List.mem_map.1 hmem
      cases he
  | write n => cases List.mem_singleton.1 hmem
  | restart => exact ht

end Turn

/-- Over any run of requests, of writes of the log and of starts of the process, from an empty
file: what the file has on record, and what waits behind it, are the records of the requests
that are not exempt, in the order of their answers, some perhaps missing and none besides; and
none is missing when no write failed and the process did not end. -/
theorem audit_trail (pick : Router) (compat authEnabled : Bool) (turns : List Turn) :
    let steps := turns.flatMap (Turn.steps authEnabled)
    let after := AccessLogger.machine.final .start steps
    let trail := turns.filterMap (Turn.record pick compat authEnabled)
    (AccessLogger.records after.file ++ after.waiting).Sublist trail ∧
    (.restart ∉ turns → (AccessLogger.machine.visits .start steps).countP AccessLogger.torn = 0 →
      AccessLogger.records after.file ++ after.waiting = trail) := by
  intro steps after trail
  have hsent : steps.filterMap AccessLogger.sent = trail :=
    Turn.sent_steps pick compat authEnabled turns
  have horder : (AccessLogger.records after.file ++ after.waiting).Sublist trail := by
    have hrun := AccessLogger.run_order AccessLogger.lined_start steps
    rw [← AccessLogger.records_final steps, hsent] at hrun
    exact hrun
  refine ⟨horder, fun hrestart htorn => ?_⟩
  have hlosses := AccessLogger.run_losses AccessLogger.lined_start steps
    fun h => hrestart (Turn.restart_mem_steps h)
  rw [← AccessLogger.records_final steps, hsent, htorn] at hlosses
  have hafter : AccessLogger.machine.final .start steps = after := rfl
  rw [hafter] at hlosses
  refine horder.eq_of_length_le (Nat.le_trans ?_ List.length_append.ge)
  have hnone : AccessLogger.start.waiting.length = 0 := rfl
  have hclean : AccessLogger.pending AccessLogger.start.file = 0 := rfl
  omega

/-! ## The version on record -/

/-- The parameter that names a version. -/
def VERSION_ID : Str := "versionId".toList

theorem splitOnce_version (v : Str) :
    splitOnce ("versionId=".toList ++ v) = (VERSION_ID, v) := by
  have hplain : '=' ∉ VERSION_ID := by decide
  exact splitOnce_append hplain v

theorem dropPrefix_version {p x : Str} :
    p.dropPrefix? "versionId=".toList = some x ↔ p = "versionId=".toList ++ x := by
  rw [List.dropPrefix?_eq_some_iff]
  constructor
  · rintro ⟨front, rfl, hfront⟩
    rw [eq_of_beq hfront]
  · rintro rfl
    exact ⟨_, rfl, beq_self_eq_true _⟩

/-- The version on record is the one that the handlers read, where every parameter of that name
is one and the same text, written plainly. -/
theorem version_recorded {P : PercentCoding} (hP : P.Lawful) {q v : Str} (hv : '%' ∉ v)
    (hq : ∀ p ∈ q.splitOn '&', P.percentDecode (splitOnce p).1 = VERSION_ID →
      p = "versionId=".toList ++ v) :
    versionIdFromQuery (some q) = parseQuery P (some q) VERSION_ID := by
  have hname : P.percentDecode VERSION_ID = VERSION_ID := hP.decode_plain _ (by decide)
  have hsame {p x : Str} (hp : p ∈ q.splitOn '&') (hx : p = "versionId=".toList ++ x) : x = v := by
    refine List.append_cancel_left (hx.symm.trans (hq p hp ?_))
    rw [hx, splitOnce_version]
    exact hname
  rw [parseQuery_last]
  cases hread : ((q.splitOn '&').filter fun p => decide (p ≠ [])).reverse.find? fun p =>
      decide (P.percentDecode (splitOnce p).1 = VERSION_ID) with
  | none =>
      refine List.findSome?_eq_none_iff.2 fun p hp => ?_
      refine Option.eq_none_iff_forall_not_mem.2 fun x hx => ?_
      have hpiece := dropPrefix_version.1 hx
      have hkept : p ∈ ((q.splitOn '&').filter fun p => decide (p ≠ [])).reverse := by
        refine List.mem_reverse.2 (List.mem_filter.2 ⟨hp, decide_eq_true ?_⟩)
        rw [hpiece]
        exact List.cons_ne_nil _ _
      refine absurd (List.find?_eq_none.1 hread p hkept) (not_not.2 (decide_eq_true ?_))
      rw [hpiece, splitOnce_version]
      exact hname
  | some p =>
      have hp : p ∈ q.splitOn '&' :=
        (List.mem_filter.1 (List.mem_reverse.1 (List.mem_of_find?_eq_some hread))).1
      have hnamed := List.find?_some hread
      have hpiece := hq p hp (of_decide_eq_true hnamed)
      rw [Option.map_some, hpiece, splitOnce_version, hP.decode_plain v hv]
      show (q.splitOn '&').findSome? (fun p => p.dropPrefix? "versionId=".toList) = some v
      cases hfound : (q.splitOn '&').findSome? fun p => p.dropPrefix? "versionId=".toList with
      | none =>
          have hnone := List.findSome?_eq_none_iff.1 hfound p hp
          rw [dropPrefix_version.2 hpiece] at hnone
          cases hnone
      | some x =>
          obtain ⟨p', hp', hx⟩ := List.exists_of_findSome?_eq_some hfound
          rw [hsame hp' (dropPrefix_version.1 hx)]

/-- One version, named once. -/
theorem version_recorded_one :
    versionIdFromQuery (some "tagging&versionId=v1".toList) =
      parseQuery percentCoding (some "tagging&versionId=v1".toList) VERSION_ID := by
  have hv : '%' ∉ "v1".toList := by decide
  refine version_recorded percentCoding_lawful hv ?_
  decide +kernel

/-- A query that names two versions. -/
def twoVersions (v w : Str) : Str :=
  ['&'].intercalate ["versionId=".toList ++ v, "versionId=".toList ++ w]

/-- A deletion that names two versions is on record under the first, and deletes the last. -/
theorem deletion_misrecorded (E : ApiEnv) (hP : E.percent.Lawful) {v w : Str} (hv : '&' ∉ v)
    (hw : '&' ∉ w) {bucket key : Str} (hkey : key ≠ []) {req : Request}
    (hreq : req.query = some (twoVersions v w)) (ts : Str) (ctx : AuditContext) (status : Nat) :
    (entryFor ts req ctx status).versionId = some v ∧
    Api.deleteObjectDispatch E bucket key (parseQuery E.percent req.query) =
      Api.deleteUnlocked E bucket key
        (.deleteObjectVersion bucket key (E.percent.percentDecode w)) deleteResponse := by
  have hpiece {x : Str} (hx : '&' ∉ x) : '&' ∉ "versionId=".toList ++ x := fun h =>
    (List.mem_append.1 h).elim (by decide) hx
  have hsplit : (twoVersions v w).splitOn '&' =
      ["versionId=".toList ++ v, "versionId=".toList ++ w] := by
    refine List.splitOn_intercalate '&' (fun l hl => ?_) (by simp)
    rcases List.mem_cons.1 hl with rfl | hl
    · exact hpiece hv
    · rw [List.mem_singleton.1 hl]
      exact hpiece hw
  have hname : E.percent.percentDecode VERSION_ID = VERSION_ID :=
    hP.decode_plain _ (by decide)
  have hread (name : Str) : parseQuery E.percent req.query name =
      if name = VERSION_ID then some (E.percent.percentDecode w) else none := by
    have hkept : (["versionId=".toList ++ v, "versionId=".toList ++ w].filter fun p =>
        decide (p ≠ [])).reverse = ["versionId=".toList ++ w, "versionId=".toList ++ v] := rfl
    have hlast {x : Str} :
        decide (E.percent.percentDecode (splitOnce ("versionId=".toList ++ x)).1 = name) =
          decide (VERSION_ID = name) := by
      rw [splitOnce_version, hname]
    rw [hreq, parseQuery_last, hsplit, hkept, List.find?_cons, List.find?_cons, hlast, hlast]
    by_cases h : VERSION_ID = name
    · rw [decide_eq_true h, if_pos h.symm]
      dsimp only
      rw [Option.map_some, splitOnce_version]
    · rw [decide_eq_false h, if_neg (Ne.symm h)]
      rfl
  constructor
  · have hfirst : ("versionId=".toList ++ v).dropPrefix? "versionId=".toList = some v :=
      dropPrefix_version.2 rfl
    show versionIdFromQuery req.query = some v
    rw [hreq, versionIdFromQuery, Option.bind_some, hsplit, List.findSome?_cons, hfirst]
  · have hupload : parseQuery E.percent req.query "uploadId".toList = none := by
      rw [hread, if_neg (by decide)]
    have htagging : parseQuery E.percent req.query "tagging".toList = none := by
      rw [hread, if_neg (by decide)]
    have hversion : parseQuery E.percent req.query "versionId".toList =
        some (E.percent.percentDecode w) := by rw [hread]; exact if_pos rfl
    rw [Api.deleteObjectDispatch, if_neg hkey, hupload, htagging, hversion]
    rfl

/-- A deletion of two versions. -/
def twoDeleted : Request :=
  ⟨.delete, "/team/k".toList, some (twoVersions "a".toList "b".toList), [], none⟩

/-- The record names `a`, and `b` is deleted. -/
theorem deletion_misrecorded_two :
    (entryFor [] twoDeleted ⟨none, none⟩ 204).versionId = some "a".toList ∧
    Api.deleteObjectDispatch plainEnv "team".toList "k".toList
        (parseQuery plainEnv.percent twoDeleted.query) =
      Api.deleteUnlocked plainEnv "team".toList "k".toList
        (.deleteObjectVersion "team".toList "k".toList
          (plainEnv.percent.percentDecode "b".toList)) deleteResponse := by
  have hquery : twoDeleted.query = some (twoVersions "a".toList "b".toList) := rfl
  exact deletion_misrecorded plainEnv percentCoding_lawful (by decide) (by decide)
    (List.cons_ne_nil _ _) hquery [] ⟨none, none⟩ 204

end Kerplace
