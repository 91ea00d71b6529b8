/-
# `Kerplace.Handlers.OnDisk` — requests over the filesystem store

The handlers make calls of the trait, and the filesystem store says what files each call may
change.  So what the middleware decides by the method and the path is held on the disk, over
any run of requests: a policy for reading leaves the files alone but for the histories that
reading a version seeds, and a scope keeps to the trees of its buckets, where the names that
the store does not check are such as it would accept.
-/
import Kerplace.Fs.Backend
import Kerplace.Handlers.Api

namespace Kerplace

open Prog

/-! ## Versions that are read -/

/-- The object of a version that a call reads. -/
def TraitCall.versionRead : TraitCall → Option (Str × Str)
  | .getObjectVersion b k _ => some (b, k)
  | .headObjectVersion b k _ => some (b, k)
  | _ => none

/-- A call that looks, at a version of the object only where one is asked for. -/
structure Seeks (object : Option (Str × Str)) (c : TraitCall) : Prop where
  reads : c.reads = true
  version : c.versionRead = none ∨ c.versionRead = object

theorem Seeks.plain {object : Option (Str × Str)} {c : TraitCall} (hr : c.reads = true)
    (hv : c.versionRead = none) : Seeks object c := ⟨hr, .inl hv⟩

namespace Api

variable {E : ApiEnv} {bucket key : Str}

/-- The object of a path and of a query that asks for a version. -/
def askedVersion (E : ApiEnv) (req : Request) : Option (Str × Str) := do
  let p ← pathParams req.path
  let bucket ← E.decodePath p.1
  let key ← E.decodePath p.2
  let _ ← parseQuery E.percent req.query "versionId".toList
  pure (bucket, key)

theorem seeks_listObjects {object : Option (Str × Str)} (params : Str → Option Str) :
    Calls (Seeks object) (listObjects E bucket params) := by
  have hpage : Calls (Seeks object) (listObjectsInner E bucket params) := by
    refine (calls_op (Seeks.plain rfl rfl)).bind fun r => ?_
    split
    · exact calls_pure _
    · exact calls_pure _
  unfold listObjects
  split
  · exact calls_answer (Seeks.plain rfl rfl) _ _
  split
  · exact calls_answer (Seeks.plain rfl rfl) _ _
  split
  · exact calls_answer (Seeks.plain rfl rfl) _ _
  split
  · exact calls_answer (Seeks.plain rfl rfl) _ _
  split
  · exact calls_answer (Seeks.plain rfl rfl) _ _
  split
  · exact calls_answer (Seeks.plain rfl rfl) _ _
  split
  · exact calls_answer (Seeks.plain rfl rfl) _ _
  · exact hpage

theorem seeks_getObjectDispatch (req : Request) (params : Str → Option Str) :
    Calls (Seeks ((params "versionId".toList).map fun _ => (bucket, key)))
      (getObjectDispatch E bucket key req params) := by
  unfold getObjectDispatch
  split
  · refine (calls_op (Seeks.plain rfl rfl)).bind fun r => ?_
    split
    · exact calls_pure _
    · exact calls_pure _
  split
  · exact calls_answer (Seeks.plain rfl rfl) _ _
  split
  · exact calls_answer (Seeks.plain rfl rfl) _ _
  split
  · exact calls_answer (Seeks.plain rfl rfl) _ _
  split
  · exact calls_answer (Seeks.plain rfl rfl) _ _
  split
  · rename_i hversion
    rw [hversion]
    exact calls_answer ⟨rfl, .inr rfl⟩ _ _
  split
  · refine (calls_op (Seeks.plain rfl rfl)).bind fun r => ?_
    cases r with
    | ok m => exact calls_answer (Seeks.plain rfl rfl) _ _
    | error e => exact calls_pure _
  · exact calls_answer (Seeks.plain rfl rfl) _ _

theorem seeks_headObject (params : Str → Option Str) :
    Calls (Seeks ((params "versionId".toList).map fun _ => (bucket, key)))
      (headObject E bucket key params) := by
  unfold headObject
  split
  · exact calls_answer (Seeks.plain rfl rfl) _ _
  split
  · rename_i hversion
    rw [hversion]
    exact calls_answer ⟨rfl, .inr rfl⟩ _ _
  · exact calls_answer (Seeks.plain rfl rfl) _ _

/-- A handler that looks reads a version of no object but the one it is asked for. -/
theorem run_seeks {req : Request} {identity : Option Identity} {body : Body} {h : Handler}
    {p : Api HttpResponse} (hrun : run E req identity body h = some p) (hlooks : h.looks = true) :
    Calls (Seeks (askedVersion E req)) p := by
  cases h with
  | health => cases hrun
  | sts => cases hrun
  | admin a => cases hrun
  | object o =>
      rw [run] at hrun
      obtain rfl := Option.some.inj hrun
      split
      · exact calls_pure _
      rename_i bucket key hparams
      have hasked : askedVersion E req =
          (parseQuery E.percent req.query "versionId".toList).map fun _ => (bucket, key) := by
        obtain ⟨pp, hpp, hdecoded⟩ := Option.bind_eq_some_iff.1 hparams
        obtain ⟨b, hb, hkey⟩ := Option.bind_eq_some_iff.1 hdecoded
        obtain ⟨k, hk, hpair⟩ := Option.map_eq_some_iff.1 hkey
        obtain ⟨rfl, rfl⟩ := Prod.mk.inj hpair
        unfold askedVersion
        rw [hpp]
        show ((E.decodePath pp.1).bind _) = _
        rw [hb]
        show ((E.decodePath pp.2).bind _) = _
        rw [hk]
        cases parseQuery E.percent req.query "versionId".toList with
        | none => rfl
        | some vid => rfl
      rw [hasked]
      cases o with
      | getObjectDispatch => exact seeks_getObjectDispatch req _
      | headObject => exact seeks_headObject _
      | putObjectDispatch => cases hlooks
      | deleteObjectDispatch => cases hlooks
      | postObjectDispatch => cases hlooks
  | bucket o =>
      by_cases hlist : o = .listBuckets
      · subst hlist
        obtain rfl := Option.some.inj hrun
        exact calls_answer (Seeks.plain rfl rfl) _ _
      rcases bucket_of_run hlist hrun with rfl | ⟨bucket, -, rfl⟩
      · exact calls_pure _
      cases o with
      | listBuckets => exact absurd rfl hlist
      | listObjects => exact seeks_listObjects _
      | headBucket => exact calls_answer (Seeks.plain rfl rfl) _ _
      | createBucket => cases hlooks
      | deleteBucket => cases hlooks
      | postBucket => cases hlooks

end Api

/-! ## Runs of requests -/

/-- A request that was let through for an identity, and what runs for it. -/
structure Handled (E : ApiEnv) where
  pick : Router
  compat : Bool
  verify : Request → Except S3Error Identity
  verifyPresigned : Request → Except S3Error Identity
  req : Request
  body : Body
  handler : Handler
  passed : Passed
  identity : Identity
  prog : Api HttpResponse
  ran : .ran handler passed ∈ serve pick compat true verify verifyPresigned req
  known : passed.identity = some identity
  runs : Api.run E req passed.identity body handler = some prog

/-- A filesystem store that answers requests. -/
def FsStore.server (S : FsStore) (root : List Str) (envs : Nat → FsEnv) (E : ApiEnv) :
    Machine (Tree FsDoc × Nat) (Handled E) HttpResponse where
  step s r := Prog.exec (S.backend root envs) r.prog s

section

variable {S : FsStore} {root : List Str} {envs : Nat → FsEnv} {E : ApiEnv}

theorem FsStore.server_files {s : Tree FsDoc × Nat} (hs : DocsIn ProperFsDoc s.1)
    (rs : List (Handled E)) {q : List Str}
    (hq : ∀ v ∈ (S.server root envs E).visits s rs,
      ∀ e ∈ Prog.log (S.backend root envs) v.call.prog v.before,
        ∀ f, FsStore.Changes e.1 f → ¬ f.resolve root <+: q) :
    ((S.server root envs E).final s rs).1.file? q = s.1.file? q := by
  induction rs generalizing s with
  | nil => rfl
  | cons r rs ih =>
      obtain ⟨hdocs, hfiles⟩ := FsStore.exec_files r.prog s hs
      rw [Machine.visits_cons] at hq
      exact (ih hdocs fun v hv => hq v (List.mem_cons_of_mem _ hv)).trans
        (hfiles q (hq _ List.mem_cons_self))

theorem FsStore.changes_of_seeks {object : Option (Str × Str)} {c : TraitCall} {f : UnixPath}
    (hc : Seeks object c) (hf : FsStore.Changes c f) :
    ∃ b k, object = some (b, k) ∧ f = FsStore.historyPath b k := by
  obtain ⟨hreads, hversion⟩ := hc
  cases c with
  | getObjectVersion b k vid =>
      rcases hversion with h | h
      · cases h
      · exact ⟨b, k, h.symm, hf⟩
  | headObjectVersion b k vid =>
      rcases hversion with h | h
      · cases h
      · exact ⟨b, k, h.symm, hf⟩
  | _ => first | exact hf.elim | cases hreads

/-- Over any run of requests by identities whose policy is to read, every file of the store
stays as it was, but for the histories of the objects a version of which is asked for. -/
theorem readonly_keeps_files {s : Tree FsDoc × Nat} (hs : DocsIn ProperFsDoc s.1)
    (rs : List (Handled E))
    (hpolicy : ∀ r ∈ rs, Policy.fromName r.identity.policy = .readOnly) {q : List Str}
    (hq : ∀ r ∈ rs, ∀ b k, Api.askedVersion E r.req = some (b, k) →
      ¬ (FsStore.historyPath b k).resolve root <+: q) :
    ((S.server root envs E).final s rs).1.file? q = s.1.file? q := by
  refine FsStore.server_files hs rs fun v hv e he f hf => ?_
  have hr : v.call ∈ rs := Machine.call_mem hv
  have hs3 := (Api.run_within v.call.runs).1
  have hlooks := looks_of_readOnly v.call.ran v.call.known hs3 (hpolicy _ hr)
  obtain ⟨b, k, hasked, rfl⟩ :=
    FsStore.changes_of_seeks ((Api.run_seeks v.call.runs hlooks).log _ e he) hf
  exact hq _ hr b k hasked

end

/-- Surroundings that are the same for every call. -/
def sameEnv (_ : Nat) : FsEnv := FsStore.fsCallAt 'c' 3 isHexLower_c

/-- A store with an object in a bucket, and another bucket. -/
def oneObject : Tree FsDoc × Nat :=
  (FsStore.reached FsStore.plainStore [] .empty
    (FsStore.oneKey "one".toList ++ [.createBucket "team".toList]), 0)

theorem docsIn_oneObject : DocsIn ProperFsDoc oneObject.1 :=
  FsStore.docsIn_reached (fun q => by
    cases q with
    | nil => rfl
    | cons x q => rw [FileTree.file?, FileTree.look_empty _ (by simp)]) _

/-- An identity who may read. -/
def archivist : Identity :=
  ⟨"archivist".toList, "secret".toList, "readonly".toList, true, none⟩

/-- What they send to read a version of the object. -/
def archivistGet : Request :=
  ⟨.get, "/docs/one".toList, some "versionId=null".toList, [("authorization".toList, none)], none⟩

/-- Their request, let through. -/
def archivistHandled : Handled plainEnv where
  pick := .byRank
  compat := true
  verify := fun _ => .ok archivist
  verifyPresigned := fun _ => .ok archivist
  req := archivistGet
  body := .ofBytes []
  handler := .object .getObjectDispatch
  passed := ⟨some archivist, some archivist.accessKey, none, false⟩
  identity := archivist
  prog := (Api.run plainEnv archivistGet (some archivist) (.ofBytes [])
    (.object .getObjectDispatch)).getD (pure Api.pathRejection)
  ran := by decide +kernel
  known := rfl
  runs := rfl

/-- The archivist is answered, and the object stays. -/
theorem readonly_keeps_files_archivist :
    ((FsStore.plainStore.server [] sameEnv plainEnv).step oneObject
      archivistHandled).1.status = 200 ∧
    ((FsStore.plainStore.server [] sameEnv plainEnv).final oneObject [archivistHandled]).1.file?
        ["docs".toList, "one".toList] =
      oneObject.1.file? ["docs".toList, "one".toList] := by
  refine ⟨by decide +kernel, readonly_keeps_files docsIn_oneObject [archivistHandled]
    (fun r hr => ?_) fun r hr b k hasked => ?_⟩
  · rw [List.mem_singleton.1 hr]
    decide +kernel
  · rw [List.mem_singleton.1 hr] at hasked
    have hversion : Api.askedVersion plainEnv archivistHandled.req =
        some ("docs".toList, "one".toList) := by decide +kernel
    obtain ⟨rfl, rfl⟩ := Prod.mk.inj (Option.some.inj (hversion.symm.trans hasked))
    decide +kernel

section

variable {S : FsStore} {root : List Str} {envs : Nat → FsEnv} {E : ApiEnv}

/-- Over any run of requests by identities scoped away from a bucket, every file of the bucket
stays as it was, as long as the names that are not checked are such as the validators accept. -/
theorem scope_keeps_files {s : Tree FsDoc × Nat} (hs : DocsIn ProperFsDoc s.1)
    (rs : List (Handled E)) (hpick : ∀ r ∈ rs, r.pick.MostSpecific) {bucket : Str}
    (hbucket : validateBucketName bucket = .ok ())
    (hscope : ∀ r ∈ rs, ∃ scope, r.identity.buckets = some scope ∧
      ∀ segment b, Admitted scope segment → E.decodePath segment = some b →
        validateBucketName b = .ok () ∧ b ≠ bucket)
    (htame : ∀ v ∈ (S.server root envs E).visits s rs,
      ∀ e ∈ Prog.log (S.backend root envs) v.call.prog v.before, FsStore.Tame e.1)
    {q : List Str} (hq : FsStore.InBucket root bucket q) :
    ((S.server root envs E).final s rs).1.file? q = s.1.file? q := by
  refine FsStore.server_files hs rs fun v hv e he f hf => ?_
  have hr : v.call ∈ rs := Machine.call_mem hv
  by_cases hlist : v.call.handler = .bucket .listBuckets
  · have hcall : e.1 = .listBuckets := ((Api.run_within v.call.runs).2.1 hlist).log _ e he
    rw [hcall] at hf
    exact hf.elim
  obtain ⟨scope, hbuckets, hnames⟩ := hscope _ hr
  obtain ⟨segment, b, hadmitted, hdecoded, hb⟩ :=
    (calls_of_scope (hpick _ hr) v.call.ran v.call.known v.call.runs hbuckets hlist).log _ e he
  obtain ⟨hvalid, hne⟩ := hnames segment b hadmitted hdecoded
  exact FsStore.apart_of_home hvalid hbucket hne
    (FsStore.changes_home hvalid hb (htame v hv e he) hf) hq

end

/-- An identity for the bucket of a team. -/
def member : Identity :=
  ⟨"member".toList, "secret".toList, "readwrite".toList, true, some ["team".toList]⟩

/-- What the member sends to write an object. -/
def memberPut : Request :=
  ⟨.put, "/team/k".toList, none,
    [("authorization".toList, none), ("content-type".toList, some "text/plain".toList),
      ("x-amz-meta-colour".toList, some "red".toList)], none⟩

/-- The member's request, let through. -/
def memberHandled : Handled plainEnv where
  pick := .byRank
  compat := true
  verify := fun _ => .ok member
  verifyPresigned := fun _ => .ok member
  req := memberPut
  body := .ofBytes [104, 105]
  handler := .object .putObjectDispatch
  passed := ⟨some member, some member.accessKey, none, false⟩
  identity := member
  prog := Api.putObject plainEnv "team".toList "k".toList memberPut (.ofBytes [104, 105])
  ran := by decide +kernel
  known := rfl
  runs := rfl

/-- The member's object is stored, and the object of the other bucket stays. -/
theorem scope_keeps_files_member :
    ((FsStore.plainStore.server [] sameEnv plainEnv).step oneObject memberHandled).1.status = 200 ∧
    ((FsStore.plainStore.server [] sameEnv plainEnv).final oneObject [memberHandled]).1.file?
        ["docs".toList, "one".toList] =
      oneObject.1.file? ["docs".toList, "one".toList] := by
  have htame : Calls FsStore.Tame memberHandled.prog :=
    (Api.calls_bucketSse trivial).bind fun _ => Api.calls_answer trivial _ _
  have hdocs : validateBucketName "docs".toList = .ok () := by decide
  have hin : FsStore.InBucket [] "docs".toList ["docs".toList, "one".toList] :=
    ⟨["docs".toList], by decide, by decide⟩
  refine ⟨by decide +kernel, scope_keeps_files docsIn_oneObject [memberHandled] (fun r hr => ?_)
    hdocs (fun r hr => ?_) (fun v hv e he => ?_) hin⟩
  · rw [List.mem_singleton.1 hr]
    exact Router.byRank_mostSpecific
  · rw [List.mem_singleton.1 hr]
    refine ⟨_, rfl, fun segment b hadmitted hdecoded => ?_⟩
    obtain rfl := Option.some.inj hdecoded
    rcases hadmitted with h | rfl | rfl
    · rw [List.mem_singleton.1 h]
      decide
    · decide
    · decide
  · have hcall : v.call = memberHandled := List.mem_singleton.1 (Machine.call_mem hv)
    rw [hcall] at he
    exact htame.log _ e he

end Kerplace
