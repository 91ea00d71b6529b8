/-
# `Kerplace.Fs.AtRest` — what the tree shows of payloads

The filesystem store, as in `Kerplace.Erasure.AtRest`, and the two together.  Temporary files
are part of the tree: a put fills one with what the cipher gives, an upload of a part with the
part as it comes.
-/
import Kerplace.Erasure.AtRest
import Kerplace.Fs.UploadRuns

namespace Kerplace

namespace FsStore

open Prog

variable (S : FsStore)

/-- The store with another cipher. -/
def under (C : Crypto) : FsStore := { S with crypto := C }

/-- What `copy_object` reads before anything is decrypted: the metadata of the source and its
stored payload. -/
def copySource (srcBucket srcKey dstBucket dstKey : Str) : FStore (StoredMeta × Bytes) := do
  let src ← S.readStored srcBucket srcKey
  headBucket dstBucket
  MonadExcept.ofExcept (validateKey dstKey)
  match ← onDisk (Drive.read (objectPath srcBucket srcKey)) with
  | none => throw .noSuchKey
  | some c => pure (src, c.bytes?.getD [])

/-- What `complete_multipart` reads before anything is encrypted: the assembly. -/
def completeSource (env : FsEnv) (bucket uploadId : Str) (parts : List CompletedPart) :
    FStore Bytes := do
  let dir := uploadDir bucket uploadId
  let _ ← readManifest dir
  orFail (.internal "create assembly") (Drive.create (tmpFile env.tmpId))
  let _ ← assembleParts dir (tmpFile env.tmpId) parts
  orFail (.internal "flush assembly") (Drive.shutdown (tmpFile env.tmpId))
  match ← onDisk (Drive.read (tmpFile env.tmpId)) with
  | none => throw (.internal "reopen assembly")
  | some plain => pure (plain.bytes?.getD [])

/-- What the cipher makes of the payload that a call writes: nothing if there is none to
encrypt, and otherwise the container, unless it fails. -/
def aead (root : List Str) (t : Tree FsDoc) : PayloadCall FsEnv → Option (Option Body)
  | .put env _ _ body _ _ _ => some (S.crypto.encryptingReader env.toCallEnv body)
  | .copy env srcBucket srcKey dstBucket dstKey _ =>
      match result root (S.copySource srcBucket srcKey dstBucket dstKey) t with
      | .ok (src, raw) => (S.plainBytes src.encrypted raw).map fun plain =>
          S.crypto.encryptingReader env.toCallEnv (.ofBytes plain)
      | .error _ => none
  | .complete env bucket _ uploadId parts =>
      match result root (completeSource env bucket uploadId parts) t with
      | .ok plain => some (S.crypto.encryptingReader env.toCallEnv (.ofBytes plain))
      | .error _ => none
  | _ => none

/-- The call stages payload bytes: it uploads a part, not an empty one, of an upload whose
manifest is found. -/
def Stages (root : List Str) (t : Tree FsDoc) : PayloadCall FsEnv → Prop
  | .part _ bucket uploadId _ body => body.data ≠ [] ∧
      ((Drive.stat ((uploadDir bucket uploadId).joinStr ErasureStore.MANIFEST)).exec
        (LocalDrive.step root) t).1.isSome = true
  | _ => False

/-- The program of a call. -/
def payloadProg : PayloadCall FsEnv → FStore Unit
  | .put env bucket key body contentType userMetadata encrypt => do
      let _ ← S.putObject env bucket key body contentType userMetadata encrypt
  | .copy env srcBucket srcKey dstBucket dstKey encrypt => do
      let _ ← S.copyObject env srcBucket srcKey dstBucket dstKey encrypt
  | .create env bucket key contentType userMetadata encrypt => do
      let _ ← S.createMultipart env.toCallEnv bucket key contentType userMetadata encrypt
  | .part env bucket uploadId number body => do
      let _ ← S.uploadPart env bucket uploadId number body
  | .complete env bucket key uploadId parts => do
      let _ ← S.completeMultipart env bucket key uploadId parts
  | .abort bucket uploadId => abortMultipart bucket uploadId

/-- The calls one after the other; what each answers is recorded with the trees it goes
through. -/
def payloadMachine (root : List Str) :
    Machine (Tree FsDoc) (PayloadCall FsEnv) (Except S3Error Unit × List (Tree FsDoc)) where
  step t c :=
    let ran := runE (LocalDrive.step root) (S.payloadProg c) t
    ((ran.1, (S.payloadProg c).run.states (LocalDrive.step root) t), ran.2)

/-- A run of the calls, each given with the payload that another run has in its place. -/
def firstRun (root : List Str) :
    Machine (Tree FsDoc) (PayloadCall FsEnv × Body) (Except S3Error Unit × List (Tree FsDoc)) :=
  (S.payloadMachine root).reading Prod.fst

/-- That other run. -/
def secondRun (root : List Str) :
    Machine (Tree FsDoc) (PayloadCall FsEnv × Body) (Except S3Error Unit × List (Tree FsDoc)) :=
  (S.payloadMachine root).reading fun x => x.1.withBody x.2

/-- Two runs with payloads of the same lengths go through the same trees, with the same
answers, if only the cipher gives the same in both: whatever cipher the other run has, with
headers of the same length. -/
def SealedAtRest (root : List Str) (t : Tree FsDoc) (steps : List (PayloadCall FsEnv × Body)) :
    Prop :=
  ∀ C : Crypto, C.headerLen = S.crypto.headerLen → (∀ x ∈ steps, x.1.SameLength x.2) →
    (∀ v ∈ (S.firstRun root).visits t steps, S.aead root v.before v.call.1 =
      (S.under C).aead root v.before (v.call.1.withBody v.call.2)) →
    ((S.under C).secondRun root).visits t steps = (S.firstRun root).visits t steps ∧
      ((S.under C).secondRun root).final t steps = (S.firstRun root).final t steps

variable {S} {C : Crypto} {root : List Str} {t : Tree FsDoc}

theorem writeSource_under {env : CallEnv} {body body' : Body}
    (haead : S.crypto.encryptingReader env body = C.encryptingReader env body') :
    (S.under C).writeSource env body' true = S.writeSource env body true := by
  unfold writeSource under
  rw [if_pos rfl, if_pos rfl, haead]

theorem logicalSize_under (hlen : C.headerLen = S.crypto.headerLen) (encrypted : Bool)
    (stored : Nat) : (S.under C).logicalSize encrypted stored = S.logicalSize encrypted stored := by
  unfold logicalSize under
  rw [hlen]

theorem putObject_under (hlen : C.headerLen = S.crypto.headerLen) {env : FsEnv} {body body' : Body}
    (haead : S.crypto.encryptingReader env.toCallEnv body =
      C.encryptingReader env.toCallEnv body') (bucket key contentType : Str)
    (userMetadata : UserMeta) {encrypt : Bool} (hforce : S.shouldEncrypt encrypt = true) :
    (S.under C).putObject env bucket key body' contentType userMetadata encrypt =
      S.putObject env bucket key body contentType userMetadata encrypt := by
  have hforce' : (S.under C).shouldEncrypt encrypt = true := hforce
  unfold putObject
  simp only [hforce, hforce', writeSource_under haead, logicalSize_under hlen]
  rfl

theorem twin_copyObject (hlen : C.headerLen = S.crypto.headerLen) {env : FsEnv}
    {srcBucket srcKey dstBucket dstKey : Str} {encrypt : Bool}
    (hforce : S.shouldEncrypt encrypt = true)
    (haead : S.aead root t (.copy env srcBucket srcKey dstBucket dstKey encrypt) =
      (S.under C).aead root t (.copy env srcBucket srcKey dstBucket dstKey encrypt)) :
    TwinE (LocalDrive.step root)
      (S.copyObject env srcBucket srcKey dstBucket dstKey encrypt)
      ((S.under C).copyObject env srcBucket srcKey dstBucket dstKey encrypt) t := by
  have hforce' : (S.under C).shouldEncrypt encrypt = true := hforce
  unfold copyObject readPayload
  simp only [hforce, hforce', LawfulMonad.bind_assoc]
  refine .bind (.refl _ _) fun src hsrc => .bind (.refl _ _) fun _ hb =>
    .bind (.refl _ _) fun _ hv => .bind (.refl _ _) fun found hfound => ?_
  cases found with
  | none => exact .throw_bind _ _ _ _
  | some c =>
      have hread : result root (S.copySource srcBucket srcKey dstBucket dstKey) t =
          .ok (src, c.bytes?.getD []) := by
        unfold result copySource
        rw [runE_bind_of_ok hsrc, runE_bind_of_ok hb, runE_bind_of_ok hv,
          runE_bind_of_ok hfound]
        rfl
      have hread' : result root ((S.under C).copySource srcBucket srcKey dstBucket dstKey) t =
          .ok (src, c.bytes?.getD []) := hread
      simp only [aead, hread, hread'] at haead
      cases hp : S.plainBytes src.encrypted (c.bytes?.getD []) with
      | none =>
          rw [hp, Option.map_none] at haead
          have hp' := Option.map_eq_none_iff.1 haead.symm
          simp only [hp, hp']
          exact .throw_bind _ _ _ _
      | some plain =>
          rw [hp, Option.map_some] at haead
          obtain ⟨plain', hp', hsame⟩ := Option.map_eq_some_iff.1 haead.symm
          simp only [hp, hp']
          refine .of_eq ?_ _
          simp only [pure_bind]
          rw [writeSource_under (C := C) hsame.symm]
          simp only [logicalSize_under hlen]
          rfl

theorem twin_sealAssembly {env : FsEnv} (encrypt : Bool)
    (hread : ∀ c, (runE (LocalDrive.step root) (onDisk (Drive.read (tmpFile env.tmpId))) t).1 =
      .ok (some c) → S.crypto.encryptingReader env.toCallEnv (.ofBytes (c.bytes?.getD [])) =
        C.encryptingReader env.toCallEnv (.ofBytes (c.bytes?.getD []))) :
    TwinE (LocalDrive.step root) (S.sealAssembly env encrypt) ((S.under C).sealAssembly env encrypt)
      t := by
  unfold sealAssembly
  cases encrypt with
  | false => exact .refl _ _
  | true =>
      rw [if_pos rfl, if_pos rfl]
      refine .bind (.refl _ _) fun found hfound => ?_
      cases found with
      | none => exact .refl _ _
      | some c =>
          refine .of_eq ?_ _
          simp only [writeSource_under (hread c hfound)]
          rfl

theorem twin_completeMultipart {env : FsEnv} {bucket key uploadId : Str}
    {parts : List CompletedPart}
    (haead : S.aead root t (.complete env bucket key uploadId parts) =
      (S.under C).aead root t (.complete env bucket key uploadId parts)) :
    TwinE (LocalDrive.step root) (S.completeMultipart env bucket key uploadId parts)
      ((S.under C).completeMultipart env bucket key uploadId parts) t := by
  unfold completeMultipart
  refine .bind ?_ fun _ _ => .refl _ _
  unfold stageCompletion
  refine .bind (.refl _ _) fun manifest hm => .bind (.refl _ _) fun _ hc =>
    .bind (.refl _ _) fun sum hsum => .bind (.refl _ _) fun _ hsh => .bind ?_ fun _ _ => .refl _ _
  refine twin_sealAssembly _ fun c hfound => ?_
  have hread : result root (completeSource env bucket uploadId parts) t =
      .ok (c.bytes?.getD []) := by
    unfold result completeSource
    rw [runE_bind_of_ok hm, runE_bind_of_ok hc, runE_bind_of_ok hsum, runE_bind_of_ok hsh,
      runE_bind_of_ok hfound]
    rfl
  simp only [aead, hread] at haead
  exact Option.some.inj haead

/-- An upload of a part that stages nothing is refused, or has nothing to stage. -/
theorem twin_uploadPart {env : FsEnv} {bucket uploadId : Str} {number : Nat} {body body' : Body}
    (hlen : (PayloadCall.part env bucket uploadId number body).SameLength body')
    (hstages : ¬ Stages root t (.part env bucket uploadId number body)) :
    TwinE (LocalDrive.step root) (S.uploadPart env bucket uploadId number body)
      ((S.under C).uploadPart env bucket uploadId number body') t := by
  by_cases hempty : body.data = []
  · have hsame := PayloadCall.withBody_of_empty hlen rfl hempty
    obtain rfl : body' = body := by
      injection hsame
    exact .refl _ _
  · have hrefused := fun h => hstages ⟨hempty, h⟩
    refine .bind (.refl _ _) fun _ hok => absurd ?_ hrefused
    rw [run_orFail, exec_map] at hok
    by_contra hnone
    rw [if_neg hnone] at hok
    cases hok

/-- With encryption in force, a call that stages nothing goes through the same
trees under another cipher and with another payload, if the cipher's outputs are the same. -/
theorem twin_payloadProg (hlen : C.headerLen = S.crypto.headerLen) {c : PayloadCall FsEnv}
    {body : Body} (hsize : c.SameLength body) (hforce : c.InForce S.shouldEncrypt)
    (hstages : ¬ Stages root t c)
    (haead : S.aead root t c = (S.under C).aead root t (c.withBody body)) :
    TwinE (LocalDrive.step root) (S.payloadProg c) ((S.under C).payloadProg (c.withBody body))
      t := by
  cases c with
  | put env bucket key body' contentType userMetadata encrypt =>
      refine .bind (.of_eq ?_ _) fun _ _ => .refl _ _
      exact (putObject_under hlen (Option.some.inj haead) bucket key contentType userMetadata
        hforce).symm
  | copy env srcBucket srcKey dstBucket dstKey encrypt =>
      exact .bind (twin_copyObject hlen hforce haead) fun _ _ => .refl _ _
  | create env bucket key contentType userMetadata encrypt =>
      exact .bind (.refl _ _) fun _ _ => .refl _ _
  | part env bucket uploadId number body' =>
      exact .bind (twin_uploadPart hsize hstages) fun _ _ => .refl _ _
  | complete env bucket key uploadId parts =>
      exact .bind (twin_completeMultipart haead) fun _ _ => .refl _ _
  | abort bucket uploadId => exact .refl _ _

theorem sealedAtRest {steps : List (PayloadCall FsEnv × Body)}
    (hforce : ∀ x ∈ steps, x.1.InForce S.shouldEncrypt)
    (hstages : ∀ v ∈ (S.firstRun root).visits t steps, ¬ Stages root v.before v.call.1) :
    S.SealedAtRest root t steps := by
  intro C hlen hsize haead
  refine Machine.run_congr fun v hv => ?_
  have hin := Machine.call_mem hv
  have htwin := twin_payloadProg hlen (hsize _ hin) (hforce _ hin) (hstages v hv) (haead v hv)
  have hexec : runE (LocalDrive.step root) (S.payloadProg v.call.1) v.before =
      runE (LocalDrive.step root) ((S.under C).payloadProg (v.call.1.withBody v.call.2))
        v.before := htwin.exec
  have hstates := htwin.states
  show ((_, _), _) = ((_, _), _)
  rw [← hexec, ← hstates]

end FsStore

/-! ## Both backends -/

/-- With encryption in force and no payload bytes staged by uploads of parts, nothing but what
the cipher gives depends on the payloads, in every state that the drives go through. -/
theorem sealed_at_rest {n : Nat} (F : FsStore) (fsRoot : List Str) (t : Tree FsDoc)
    (fsSteps : List (PayloadCall FsEnv × Body)) (S : ErasureStore n) (root : Fin n → List Str)
    (s : Cluster n Doc) (steps : List ((Fin n → Bool) × PayloadCall CallEnv × Body)) :
    ((∀ x ∈ fsSteps, x.1.InForce F.shouldEncrypt) →
      (∀ v ∈ (F.firstRun fsRoot).visits t fsSteps, ¬ FsStore.Stages fsRoot v.before v.call.1) →
        F.SealedAtRest fsRoot t fsSteps) ∧
    ((∀ x ∈ steps, x.2.1.InForce S.shouldEncrypt) →
      (∀ v ∈ (S.firstRun root).visits s steps,
        ¬ S.Stages ⟨root, v.call.1⟩ v.before v.call.2.1) →
        S.SealedAtRest root s steps) :=
  ⟨FsStore.sealedAtRest, ErasureStore.sealedAtRest⟩

/-- `Crypto.tagged` with every byte moved by one. -/
def Crypto.shifted : Crypto :=
  { Crypto.tagged with
    sealWith := fun k n p => Crypto.tagged.sealWith k n (p.map (· - 1))
    openWith := fun k n b => (Crypto.tagged.openWith k n b).map (List.map (· + 1)) }

/-- A tree with one bucket. -/
def docsTree : Tree FsDoc :=
  FsStore.reached FsStore.plainStore [] .empty [.createBucket "docs".toList]

/-- A put and a copy, encrypted. -/
def fsSealed : List (PayloadCall FsEnv × Body) :=
  [(.put (FsStore.fsCallAt 'a' 1 isHexLower_a) "docs".toList "one".toList (.ofBytes [1, 2]) [] []
      true, .ofBytes [2, 3]),
    (.copy (FsStore.fsCallAt 'b' 2 isHexLower_b) "docs".toList "one".toList "docs".toList
      "two".toList true, .ofBytes [])]

/-- The same on the erasure store. -/
def storeSealed : List ((Fin 3 → Bool) × PayloadCall CallEnv × Body) :=
  [(fun _ => true, .put (callAt 'a' 1 isHexLower_a) "docs".toList "one".toList
      (.ofBytes [1, 2]) [] [] true, .ofBytes [2, 3]),
    (fun _ => true, .copy (callAt 'b' 2 isHexLower_b) "docs".toList "one".toList "docs".toList
      "two".toList true, .ofBytes [])]

theorem sealed_at_rest_copied :
    ((FsStore.plainStore.under .shifted).secondRun []).final docsTree fsSealed =
      (FsStore.plainStore.firstRun []).final docsTree fsSealed ∧
    ((ErasureStore.trio.under .shifted).secondRun topRoot).final (withBucket "docs".toList)
        storeSealed =
      (ErasureStore.trio.firstRun topRoot).final (withBucket "docs".toList) storeSealed := by
  obtain ⟨hfs, hstore⟩ := sealed_at_rest FsStore.plainStore [] docsTree fsSealed
    ErasureStore.trio topRoot (withBucket "docs".toList) storeSealed
  constructor
  · refine (hfs ?_ (fun v hv => ?_) .shifted rfl ?_ (by decide +kernel)).2
    · simp [fsSealed, PayloadCall.InForce, FsStore.shouldEncrypt]
    · have hin := Machine.call_mem hv
      simp only [fsSealed, List.mem_cons, List.not_mem_nil, or_false] at hin
      rcases hin with h | h <;> rw [h] <;> exact id
    · simp [fsSealed, PayloadCall.SameLength, PayloadCall.body?, Body.ofBytes]
  · refine (hstore ?_ (fun v hv => ?_) .shifted rfl ?_ (by decide +kernel)).2
    · simp [storeSealed, PayloadCall.InForce, ErasureStore.shouldEncrypt]
    · have hin := Machine.call_mem hv
      simp only [storeSealed, List.mem_cons, List.not_mem_nil, or_false] at hin
      rcases hin with h | h <;> rw [h] <;> exact id
    · simp [storeSealed, PayloadCall.SameLength, PayloadCall.body?, Body.ofBytes]

/-- An upload, to be encrypted, of which one part comes and nothing more. -/
def fsStaged : List (PayloadCall FsEnv × Body) :=
  [(.create (FsStore.fsCallAt 'a' 1 isHexLower_a) "docs".toList "key".toList [] [] true,
      .ofBytes []),
    (.part (FsStore.fsCallAt 'b' 2 isHexLower_b) "docs".toList fsUpload 1 (.ofBytes [1]),
      .ofBytes [2])]

/-- The same on the erasure store. -/
def storeStaged : List ((Fin 3 → Bool) × PayloadCall CallEnv × Body) :=
  [(fun _ => true, .create (callAt 'a' 1 isHexLower_a) "docs".toList "key".toList [] [] true,
      .ofBytes []),
    (fun _ => true, .part (callAt 'b' 2 isHexLower_b) "docs".toList storeUpload 1 (.ofBytes [1]),
      .ofBytes [2])]

/-- A staged part is on the drive as it came, also if the object is to be encrypted. -/
theorem parts_lie_open :
    ¬ (∀ (F : FsStore) (root : List Str) (t : Tree FsDoc)
        (steps : List (PayloadCall FsEnv × Body)),
      (∀ x ∈ steps, x.1.InForce F.shouldEncrypt) → F.SealedAtRest root t steps) ∧
    ¬ (∀ (S : ErasureStore 3) (root : Fin 3 → List Str) (s : Cluster 3 Doc)
        (steps : List ((Fin 3 → Bool) × PayloadCall CallEnv × Body)),
      (∀ x ∈ steps, x.2.1.InForce S.shouldEncrypt) → S.SealedAtRest root s steps) := by
  constructor
  · intro h
    have hsame := (h FsStore.plainStore [] docsTree fsStaged
      (by simp [fsStaged, PayloadCall.InForce, FsStore.shouldEncrypt])
      FsStore.plainStore.crypto rfl
      (by simp [fsStaged, PayloadCall.SameLength, PayloadCall.body?, Body.ofBytes])
      (by decide +kernel)).2
    have hbytes := congrArg (fun t : Tree FsDoc => (t.file?
      (((FsStore.uploadDir "docs".toList fsUpload).joinStr
        (ErasureStore.partFile 1)).resolve [])).bind Content.bytes?) hsame
    revert hbytes
    decide +kernel
  · intro h
    have hsame := (h ErasureStore.trio topRoot (withBucket "docs".toList) storeStaged
      (by simp [storeStaged, PayloadCall.InForce, ErasureStore.shouldEncrypt])
      ErasureStore.trio.crypto rfl
      (by simp [storeStaged, PayloadCall.SameLength, PayloadCall.body?, Body.ofBytes])
      (by decide +kernel)).2
    have hbytes := congrArg (fun s : Cluster 3 Doc => ((s 0).file?
      (((rUpload storeUpload).joinStr (ErasureStore.partFile 1)).resolve [])).bind
        Content.bytes?) hsame
    revert hbytes
    decide +kernel

end Kerplace
