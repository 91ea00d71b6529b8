/-
# `Kerplace.Handlers.RoundTrip` — an object that is sent is the object that is got

A `PUT` that is answered with a success has the body stand at its key, and as long as no call
writes to the key's two files a `GET` answers with it: the same bytes, under the ETag, the
content type and the user metadata that the `PUT` gave.
-/
import Kerplace.Fs.Puts
import Kerplace.Handlers.OnDisk

namespace Kerplace

open Prog

/-! ## Plain requests -/

/-- The path of a request names an object, and the query nothing more. -/
structure Request.Names (E : ApiEnv) (req : Request) (bucket key : Str) : Prop where
  path : ((Api.pathParams req.path).bind fun p =>
    (E.decodePath p.1).bind fun bucket => (E.decodePath p.2).map fun key => (bucket, key)) =
      some (bucket, key)
  key_ne : key ≠ []
  query : req.query = none

namespace Handled

variable {E : ApiEnv} {r : Handled E} {bucket key : Str}

/-- A `PUT` of an object, copied from nowhere. -/
structure Puts (r : Handled E) (bucket key : Str) : Prop extends r.req.Names E bucket key where
  handler : r.handler = .object .putObjectDispatch
  noSource : r.req.readable "x-amz-copy-source".toList = none

/-- A `GET` of a whole object. -/
structure Gets (r : Handled E) (bucket key : Str) : Prop extends r.req.Names E bucket key where
  handler : r.handler = .object .getObjectDispatch
  noRange : (r.req.readable "range".toList).bind parseRange = none

theorem prog_of_names (h : r.req.Names E bucket key) {o : ObjectHandler}
    (ho : r.handler = .object o) :
    r.prog = Api.objectHandler E bucket key r.req r.body (fun _ => none) o := by
  have hruns := r.runs
  rw [ho, Api.run, h.path, h.query] at hruns
  exact (Option.some.inj hruns).symm

theorem Puts.prog (h : r.Puts bucket key) :
    r.prog = Api.putObject E bucket key r.req r.body := by
  rw [prog_of_names h.toNames h.handler, Api.objectHandler, Api.putObjectDispatch,
    if_neg h.key_ne]
  dsimp only
  rw [h.noSource]
  rfl

theorem Gets.prog (h : r.Gets bucket key) :
    r.prog = Api.answer (.getObject bucket key) (objectResource bucket key) fun r =>
      Api.objectResponse E r.1 r.2 := by
  rw [prog_of_names h.toNames h.handler, Api.objectHandler, Api.getObjectDispatch,
    if_neg h.key_ne]
  dsimp only
  rw [h.noRange]
  rfl

end Handled

/-! ## The round trip -/

section

variable {S : FsStore} {root : List Str} {envs : Nat → FsEnv} {E : ApiEnv} {bucket key : Str}

/-- A `PUT` that succeeds has its body stand at its key. -/
theorem FsStore.server_put (hcr : S.crypto.Lawful) (hb : validateBucketName bucket = .ok ())
    {s : Tree FsDoc × Nat} (hs : DocsIn ProperFsDoc s.1) {w : Handled E}
    (hw : w.Puts bucket key) (hbody : w.body.err = false)
    (hok : ((S.server root envs E).step s w).1.status < 400) :
    ∃ m : StoredMeta, ((S.server root envs E).step s w).1 =
        Api.putResponse (FsStore.storedToMeta key m) ∧
      m.contentType = contentTypeOf w.req ∧ m.userMetadata = extractUserMetadata w.req ∧
      FsStore.Stands S root bucket key m w.body.data ((S.server root envs E).step s w).2.1 := by
  have hdata : w.body = .ofBytes w.body.data := by
    cases hw : w.body with
    | mk data err =>
        rw [hw] at hbody
        obtain rfl : err = false := hbody
        rfl
  have hstep : (S.server root envs E).step s w =
      Prog.exec (S.backend root envs) (Api.putObject E bucket key w.req w.body) s := by
    rw [← hw.prog]
    rfl
  rw [hstep, Api.putObject, Api.exec_bucketSse, Api.exec_answer] at hok ⊢
  have hasked : DocsIn ProperFsDoc (S.backend root envs (.getBucketEncryption bucket) s).2.1 :=
    (FsStore.step_files _ hs).1
  generalize S.backend root envs (.getBucketEncryption bucket) s = asked at hok hasked ⊢
  obtain ⟨sse, s₁⟩ := asked
  dsimp only at hok hasked ⊢
  generalize hflag :
    (sseRequested w.req || Api.saysSealed sse || E.encryptionEnabled) = encrypt at hok ⊢
  cases hput : (S.backend root envs (.putObject bucket key w.body (contentTypeOf w.req)
      (extractUserMetadata w.req) encrypt) s₁).1 with
  | error e =>
      rw [hput] at hok
      exact absurd hok (not_lt.2 (S3Error.status_le e))
  | ok om =>
      rw [hdata] at hput
      obtain ⟨m, rfl, hct, hum, -, hstands⟩ := FsStore.put_ok hcr hb hasked hput
      refine ⟨m, rfl, hct, hum, ?_⟩
      rw [hdata]
      exact hstands

theorem FsStore.server_get {s : Tree FsDoc × Nat} {g : Handled E} (hg : g.Gets bucket key)
    {m : StoredMeta} {data : Bytes} (hs : FsStore.Stands S root bucket key m data s.1) :
    ((S.server root envs E).step s g).1 =
      Api.objectResponse E (FsStore.storedToMeta key m) data := by
  have hstep : (S.server root envs E).step s g =
      Prog.exec (S.backend root envs) (Api.answer (.getObject bucket key)
        (objectResource bucket key) fun r => Api.objectResponse E r.1 r.2) s := by
    rw [← hg.prog]
    rfl
  have hget : (S.backend root envs (.getObject bucket key) s).1 =
      .ok (FsStore.storedToMeta key m, data) := congrArg Prod.fst hs.get
  rw [hstep, Api.exec_answer, hget]
  rfl

/-- Over a run of requests: a `PUT` of a body that comes whole and that is answered with a
success, any requests whose calls do not write to the key's payload or metadata, and a `GET` of
the key.  The `GET` answers with the body, the ETag of the `PUT`'s answer, and the content type
and the user metadata of its headers. -/
theorem put_then_get (hcr : S.crypto.Lawful) (hb : validateBucketName bucket = .ok ())
    {s : Tree FsDoc × Nat} (hs : DocsIn ProperFsDoc s.1) {w g : Handled E}
    (hw : w.Puts bucket key) (hg : g.Gets bucket key) (hbody : w.body.err = false)
    (hok : ((S.server root envs E).step s w).1.status < 400) (rs : List (Handled E))
    (hrs : ∀ v ∈ (S.server root envs E).visits ((S.server root envs E).step s w).2 rs,
      ∀ e ∈ Prog.log (S.backend root envs) v.call.prog v.before, ∀ f, FsStore.Changes e.1 f →
        ∀ k ∈ [FsStore.FileKind.payload, .metadata],
          ¬ f.resolve root <+: FsStore.place root bucket key k) :
    ∃ om : ObjectMeta, ((S.server root envs E).step s w).1 = Api.putResponse om ∧
      ((S.server root envs E).step ((S.server root envs E).final
        ((S.server root envs E).step s w).2 rs) g).1 = Api.objectResponse E om w.body.data ∧
      om.key = key ∧ om.contentType = contentTypeOf w.req ∧
      om.userMetadata = extractUserMetadata w.req := by
  obtain ⟨m, hanswer, hct, hum, hstands⟩ := FsStore.server_put hcr hb hs hw hbody hok
  have hdocs : DocsIn ProperFsDoc ((S.server root envs E).step s w).2.1 :=
    (FsStore.exec_files w.prog s hs).1
  have hkept := hstands.congr fun k hk => FsStore.server_files hdocs rs fun v hv e he f hf =>
    hrs v hv e he f hf k hk
  exact ⟨_, hanswer, FsStore.server_get hg hkept, rfl, hct, hum⟩

end

/-- A store with a bucket. -/
def oneBucket : Tree FsDoc × Nat :=
  (FsStore.reached FsStore.plainStore [] .empty [.createBucket "team".toList], 0)

theorem ran_memberGot :
    .ran (.object .getObjectDispatch) ⟨some member, some member.accessKey, none, false⟩ ∈
      serve .byRank true true (fun _ => .ok member) (fun _ => .ok member)
        { memberPut with method := .get } := by
  decide +kernel

theorem known_memberGot : (⟨some member, some member.accessKey, none, false⟩ : Passed).identity =
    some member := rfl

/-- The member asks for what they wrote. -/
def memberGot : Handled plainEnv where
  pick := .byRank
  compat := true
  verify := fun _ => .ok member
  verifyPresigned := fun _ => .ok member
  req := { memberPut with method := .get }
  body := .ofBytes []
  handler := .object .getObjectDispatch
  passed := ⟨some member, some member.accessKey, none, false⟩
  identity := member
  prog := Api.answer (.getObject "team".toList "k".toList)
    (objectResource "team".toList "k".toList) fun r => Api.objectResponse plainEnv r.1 r.2
  ran := ran_memberGot
  known := known_memberGot
  runs := rfl

/-- The member writes an object, gets it, and gets it again. -/
theorem put_then_get_member :
    ∃ om : ObjectMeta,
      ((FsStore.plainStore.server [] sameEnv plainEnv).step oneBucket memberHandled).1 =
        Api.putResponse om ∧
      ((FsStore.plainStore.server [] sameEnv plainEnv).step
        ((FsStore.plainStore.server [] sameEnv plainEnv).final
          ((FsStore.plainStore.server [] sameEnv plainEnv).step oneBucket memberHandled).2
          [memberGot]) memberGot).1 = Api.objectResponse plainEnv om [104, 105] ∧
      om.key = "k".toList ∧ om.contentType = "text/plain".toList ∧
      om.userMetadata = [("colour".toList, "red".toList)] := by
  have hdocs : DocsIn ProperFsDoc oneBucket.1 := FsStore.docsIn_reached (fun q => by
    cases q with
    | nil => rfl
    | cons x q => rw [FileTree.file?, FileTree.look_empty _ (by simp)]) _
  have hteam : validateBucketName "team".toList = .ok () := by decide
  have hw : memberHandled.Puts "team".toList "k".toList :=
    ⟨⟨by decide +kernel, by decide, rfl⟩, rfl, by decide +kernel⟩
  have hg : memberGot.Gets "team".toList "k".toList :=
    ⟨⟨by decide +kernel, by decide, rfl⟩, rfl, by decide +kernel⟩
  have hget : Calls (fun c => ∀ f, ¬ FsStore.Changes c f) memberGot.prog :=
    Api.calls_answer (fun _ h => h) _ _
  have hok : ((FsStore.plainStore.server [] sameEnv plainEnv).step oneBucket
      memberHandled).1.status < 400 := by decide +kernel
  obtain ⟨om, hput, hgot, hkey, hct, hum⟩ := put_then_get Crypto.tagged_lawful hteam hdocs hw hg
    rfl hok [memberGot] fun v hv e he f hf => by
      have hcall : v.call = memberGot := List.mem_singleton.1 (Machine.call_mem hv)
      rw [hcall] at he
      exact absurd hf (hget.log _ e he f)
  exact ⟨om, hput, hgot, hkey, hct.trans (by decide +kernel), hum.trans (by decide +kernel)⟩

end Kerplace
