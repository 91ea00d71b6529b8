/-
# `Kerplace.Erasure.AtRest` — what the drives show of payloads

With encryption in force a payload reaches the drives through the cipher alone.  Two runs of
the same calls with other payloads, each under a cipher of its own, are compared: where the
two ciphers give the same, all else that the drives hold is the same too, after every
operation on a drive.  What is written as it comes, the bytes of a part, tells the runs apart.

A put is the same program in both runs; a copy and a completion are the same up to the point
where something is opened or sealed.
-/
import Kerplace.Erasure.Multipart
import Kerplace.Lib.Twins
import Kerplace.Storage.Payloads

namespace Kerplace

namespace ErasureStore

open Prog

variable {n : Nat} (S : ErasureStore n)

/-- The store with another cipher. -/
def under (C : Crypto) : ErasureStore n := { S with crypto := C }

/-- The plaintext of a payload; `none` when its key cannot be had. -/
def opened (encrypted : Bool) (raw : Bytes) : Option Bytes :=
  if encrypted then S.crypto.decryptingReader raw else some raw

/-- What `copy_object` reads before anything is decrypted: the metadata of the source and its
stored payload. -/
def copySource (srcBucket srcKey : Str) : EStore n (XlMeta × Bytes) := do
  let m ← readXl srcBucket srcKey
  let raw ← S.streamingBody srcBucket srcKey none m
  pure (m, raw)

/-- What `complete_multipart` reads before anything is encrypted: the assembly. -/
def completeSource (uploadId : Str) (parts : List CompletedPart) : EStore n Bytes := do
  let sd := S.uploadDrive uploadId
  let dir := rUpload uploadId
  let _ ← readManifest sd dir
  let staged ← S.assemble sd dir parts
  pure staged.1

/-- What the cipher makes of the payload that a call writes: nothing if there is none to
encrypt, and otherwise the container, unless it fails. -/
def aead (site : Site n) (s : Cluster n Doc) : PayloadCall CallEnv → Option (Option Body)
  | .put env _ _ body _ _ _ => some (S.crypto.encryptingReader env body)
  | .copy env srcBucket srcKey _ _ _ =>
      match (site.run (S.copySource srcBucket srcKey) s).1 with
      | .ok (m, raw) => (S.opened m.encrypted raw).map fun plain =>
          S.crypto.encryptingReader env (.ofBytes plain)
      | .error _ => none
  | .complete env _ _ uploadId parts =>
      match (site.run (S.completeSource uploadId parts) s).1 with
      | .ok plain => some (S.crypto.encryptingReader env (.ofBytes plain))
      | .error _ => none
  | _ => none

/-- The call stages payload bytes: it uploads a part, not an empty one, of an upload whose
manifest is found. -/
def Stages (site : Site n) (s : Cluster n Doc) : PayloadCall CallEnv → Prop
  | .part _ _ uploadId _ body => body.data ≠ [] ∧
      (site.onTree (S.uploadDrive uploadId)
        (Drive.stat ((rUpload uploadId).joinStr MANIFEST))
          (s (S.uploadDrive uploadId))).1.isSome = true
  | _ => False

/-- The program of a call. -/
def payloadProg : PayloadCall CallEnv → EStore n Unit
  | .put env bucket key body contentType userMetadata encrypt => do
      let _ ← S.putObject env bucket key body contentType userMetadata encrypt
  | .copy env srcBucket srcKey dstBucket dstKey encrypt => do
      let _ ← S.copyObject env srcBucket srcKey dstBucket dstKey encrypt
  | .create env bucket key contentType userMetadata encrypt => do
      let _ ← S.createMultipart env bucket key contentType userMetadata encrypt
  | .part env _ uploadId number body => do
      let _ ← S.uploadPart env uploadId number body
  | .complete env _ _ uploadId parts => do
      let _ ← S.completeMultipart env uploadId parts
  | .abort _ uploadId => S.abortMultipart uploadId

/-- The calls one after the other, each with the drives it can reach; what each answers is
recorded with the states it goes through. -/
def payloadMachine (root : Fin n → List Str) :
    Machine (Cluster n Doc) ((Fin n → Bool) × PayloadCall CallEnv)
      (Except S3Error Unit × List (Cluster n Doc)) where
  step s c :=
    let ran := (Site.mk root c.1).run (S.payloadProg c.2) s
    ((ran.1, (S.payloadProg c.2).run.states (Site.mk root c.1).step s), ran.2)

/-- A run of the calls, each given with the payload that another run has in its place. -/
def firstRun (root : Fin n → List Str) :
    Machine (Cluster n Doc) ((Fin n → Bool) × PayloadCall CallEnv × Body)
      (Except S3Error Unit × List (Cluster n Doc)) :=
  (S.payloadMachine root).reading fun x => (x.1, x.2.1)

/-- That other run. -/
def secondRun (root : Fin n → List Str) :
    Machine (Cluster n Doc) ((Fin n → Bool) × PayloadCall CallEnv × Body)
      (Except S3Error Unit × List (Cluster n Doc)) :=
  (S.payloadMachine root).reading fun x => (x.1, x.2.1.withBody x.2.2)

/-- Two runs with payloads of the same lengths take the drives through the same states, with
the same answers, if only the cipher gives the same in both: whatever cipher the other run
has, with headers of the same length. -/
def SealedAtRest (root : Fin n → List Str) (s : Cluster n Doc)
    (steps : List ((Fin n → Bool) × PayloadCall CallEnv × Body)) : Prop :=
  ∀ C : Crypto, C.headerLen = S.crypto.headerLen → (∀ x ∈ steps, x.2.1.SameLength x.2.2) →
    (∀ v ∈ (S.firstRun root).visits s steps,
      S.aead ⟨root, v.call.1⟩ v.before v.call.2.1 =
        (S.under C).aead ⟨root, v.call.1⟩ v.before (v.call.2.1.withBody v.call.2.2)) →
    ((S.under C).secondRun root).visits s steps = (S.firstRun root).visits s steps ∧
      ((S.under C).secondRun root).final s steps = (S.firstRun root).final s steps

variable {S} {C : Crypto} {site : Site n} {s : Cluster n Doc}

theorem twin_withLock {α : Type} (name : Str) {p p' : EStore n α} (hp : TwinE site.step p p' s) :
    TwinE site.step (withLock name p) (withLock name p') s :=
  .bind (.refl _ _) fun _ _ => .bind (.lift hp) fun _ _ => .refl _ _

theorem writeSource_under {env : CallEnv} {body body' : Body}
    (haead : S.crypto.encryptingReader env body = C.encryptingReader env body') :
    (S.under C).writeSource env body' true = S.writeSource env body true := by
  unfold writeSource under
  rw [if_pos rfl, if_pos rfl, haead]

theorem writeBlocks_under (tmpRel : UnixPath) :
    ∀ (blocks : List Bytes) (ok : Fin n → Bool) (sums : Fin n → List Str),
      (S.under C).writeBlocks tmpRel blocks ok sums = S.writeBlocks tmpRel blocks ok sums := by
  intro blocks
  induction blocks with
  | nil => exact fun _ _ => rfl
  | cons block blocks ih =>
      intro ok sums
      rw [writeBlocks, writeBlocks]
      simp only [ih]
      rfl

theorem reconstructFrom_under (partRel : UnixPath) (codec : Codec)
    (checksums : List (List Str)) :
    ∀ (lens : List Nat) (b offset : Nat),
      (S.under C).reconstructFrom partRel codec checksums b offset lens =
        S.reconstructFrom partRel codec checksums b offset lens := by
  intro lens
  induction lens with
  | nil => exact fun _ _ => rfl
  | cons len lens ih =>
      intro b offset
      rw [reconstructFrom, reconstructFrom]
      simp only [ih]
      rfl

theorem streamingBody_under (bucket key : Str) (vid : Option Str) (m : XlMeta) :
    (S.under C).streamingBody bucket key vid m = S.streamingBody bucket key vid m := by
  unfold streamingBody
  simp only [reconstructFrom_under]
  rfl

theorem writeSharded_under (hlen : C.headerLen = S.crypto.headerLen) (env : CallEnv)
    (bucket key : Str) (src : Body) (contentType : Str) (userMetadata : UserMeta)
    (encrypted : Bool) (etagOverride : Option Str) :
    (S.under C).writeSharded env bucket key src contentType userMetadata encrypted
        etagOverride =
      S.writeSharded env bucket key src contentType userMetadata encrypted etagOverride := by
  have hxl : (S.under C).writtenXl = S.writtenXl := by
    unfold writtenXl under
    simp only [hlen]
  unfold writeSharded
  simp only [hxl, writeBlocks_under]
  rfl

theorem putObject_under (hlen : C.headerLen = S.crypto.headerLen) {env : CallEnv}
    {body body' : Body}
    (haead : S.crypto.encryptingReader env body = C.encryptingReader env body')
    (bucket key contentType : Str) (userMetadata : UserMeta) {encrypt : Bool}
    (hforce : S.shouldEncrypt encrypt = true) :
    (S.under C).putObject env bucket key body' contentType userMetadata encrypt =
      S.putObject env bucket key body contentType userMetadata encrypt := by
  have hforce' : (S.under C).shouldEncrypt encrypt = true := hforce
  have hversioned : (S.under C).writeVersioned env = S.writeVersioned env := by
    funext bucket key mode src contentType userMetadata encrypted
    unfold writeVersioned
    simp only [writeSharded_under hlen]
  unfold putObject
  simp only [hforce, hforce', writeSource_under haead, writeSharded_under hlen, hversioned]

theorem twin_copyObject (hlen : C.headerLen = S.crypto.headerLen) {env : CallEnv}
    {srcBucket srcKey dstBucket dstKey : Str} {encrypt : Bool}
    (hforce : S.shouldEncrypt encrypt = true)
    (haead : S.aead site s (.copy env srcBucket srcKey dstBucket dstKey encrypt) =
      (S.under C).aead site s (.copy env srcBucket srcKey dstBucket dstKey encrypt)) :
    TwinE site.step (S.copyObject env srcBucket srcKey dstBucket dstKey encrypt)
      ((S.under C).copyObject env srcBucket srcKey dstBucket dstKey encrypt) s := by
  have hbody : ∀ (T : ErasureStore n) (m : XlMeta), T.readBody srcBucket srcKey none m =
      T.streamingBody srcBucket srcKey none m >>= fun raw =>
        (T.opened m.encrypted raw).elim (throw (.internal "decrypt object")) pure := by
    intro T m
    unfold readBody opened
    refine bind_congr fun raw => ?_
    cases m.encrypted with
    | false => rfl
    | true =>
        simp only [if_true]
        cases T.crypto.decryptingReader raw <;> rfl
  unfold copyObject getObject
  simp only [hbody, streamingBody_under, LawfulMonad.bind_assoc]
  refine .bind (.refl _ _) fun m hm => .bind (.refl _ _) fun raw hraw => ?_
  have hread : (site.run (S.copySource srcBucket srcKey) s).1 = .ok (m, raw) := by
    unfold Site.run copySource
    rw [runE_bind_of_ok hm, runE_bind_of_ok hraw]
    rfl
  have hread' : (site.run ((S.under C).copySource srcBucket srcKey) s).1 = .ok (m, raw) := by
    simp only [copySource, streamingBody_under]
    exact hread
  simp only [aead, hread, hread'] at haead
  cases hp : S.opened m.encrypted raw with
  | none =>
      rw [hp, Option.map_none] at haead
      have hp' := Option.map_eq_none_iff.1 haead.symm
      simp only [hp', Option.elim_none]
      exact .throw_bind _ _ _ _
  | some plain =>
      rw [hp, Option.map_some] at haead
      obtain ⟨plain', hp', hsame⟩ := Option.map_eq_some_iff.1 haead.symm
      simp only [hp', Option.elim_some, pure_bind]
      exact .of_eq (putObject_under (C := C) hlen hsame.symm _ _ _ _ hforce).symm _

theorem twin_completeMultipart (hlen : C.headerLen = S.crypto.headerLen) {env : CallEnv}
    {bucket key uploadId : Str} {parts : List CompletedPart}
    (haead : S.aead site s (.complete env bucket key uploadId parts) =
      (S.under C).aead site s (.complete env bucket key uploadId parts)) :
    TwinE site.step (S.completeMultipart env uploadId parts)
      ((S.under C).completeMultipart env uploadId parts) s := by
  unfold completeMultipart
  refine .bind (.refl _ _) fun manifest hm => ?_
  unfold completeWith
  refine twin_withLock _ (.bind (.refl _ _) fun staged hstaged => ?_)
  have hread : (site.run (S.completeSource uploadId parts) s).1 = .ok staged.1 := by
    unfold Site.run completeSource
    rw [runE_bind_of_ok hm, runE_bind_of_ok hstaged]
    rfl
  have hread' : (site.run ((S.under C).completeSource uploadId parts) s).1 = .ok staged.1 :=
    hread
  simp only [aead, hread, hread'] at haead
  refine .of_eq ?_ _
  simp only [writeSharded_under hlen]
  cases manifest.encrypt with
  | false => rfl
  | true =>
      rw [writeSource_under (C := C) (Option.some.inj haead)]
      rfl

/-- An upload of a part that stages nothing is refused, or has nothing to stage. -/
theorem twin_uploadPart {env : CallEnv} {bucket uploadId : Str} {number : Nat}
    {body body' : Body}
    (hlen : (PayloadCall.part env bucket uploadId number body).SameLength body')
    (hstages : ¬ S.Stages site s (.part env bucket uploadId number body)) :
    TwinE site.step (S.uploadPart env uploadId number body)
      ((S.under C).uploadPart env uploadId number body') s := by
  by_cases hempty : body.data = []
  · have hsame := PayloadCall.withBody_of_empty hlen rfl hempty
    obtain rfl : body' = body := by
      injection hsame
    exact .refl _ _
  · have hrefused := fun h => hstages ⟨hempty, h⟩
    refine .bind (.refl _ _) fun _ hok => absurd ?_ hrefused
    have hrun : (site.run (orFail .noSuchUpload (Option.isSome <$> atDrive (S.uploadDrive uploadId)
        (Drive.stat ((rUpload uploadId).joinStr MANIFEST)))) s).1 = .ok () := hok
    rw [Site.run_orFail, map_eq_pure_bind, Site.run_bind, Site.run_atDrive] at hrun
    by_contra hnone
    simp [hnone] at hrun

/-- With encryption in force, a call that stages nothing goes through the same
states under another cipher and with another payload, if the cipher's outputs are the same. -/
theorem twin_payloadProg (hlen : C.headerLen = S.crypto.headerLen) {c : PayloadCall CallEnv}
    {body : Body} (hsize : c.SameLength body) (hforce : c.InForce S.shouldEncrypt)
    (hstages : ¬ S.Stages site s c)
    (haead : S.aead site s c = (S.under C).aead site s (c.withBody body)) :
    TwinE site.step (S.payloadProg c) ((S.under C).payloadProg (c.withBody body)) s := by
  cases c with
  | put env bucket key body' contentType userMetadata encrypt =>
      refine .bind (.of_eq ?_ _) fun _ _ => .refl _ _
      exact (putObject_under hlen (Option.some.inj haead) bucket key contentType userMetadata
        hforce).symm
  | copy env srcBucket srcKey dstBucket dstKey encrypt =>
      exact .bind (twin_copyObject hlen hforce haead) fun _ _ => .refl _ _
  | create env bucket key contentType userMetadata encrypt =>
      exact .bind (.refl _ _) fun _ _ => .refl _ _
  | part env bucket uploadId number body' =>
      exact .bind (twin_uploadPart hsize hstages) fun _ _ => .refl _ _
  | complete env bucket key uploadId parts =>
      exact .bind (twin_completeMultipart hlen haead) fun _ _ => .refl _ _
  | abort bucket uploadId => exact .refl _ _

theorem sealedAtRest {root : Fin n → List Str}
    {steps : List ((Fin n → Bool) × PayloadCall CallEnv × Body)}
    (hforce : ∀ x ∈ steps, x.2.1.InForce S.shouldEncrypt)
    (hstages : ∀ v ∈ (S.firstRun root).visits s steps,
      ¬ S.Stages ⟨root, v.call.1⟩ v.before v.call.2.1) : S.SealedAtRest root s steps := by
  intro C hlen hsize haead
  refine Machine.run_congr fun v hv => ?_
  have hin := Machine.call_mem hv
  have htwin := twin_payloadProg hlen (hsize _ hin) (hforce _ hin) (hstages v hv) (haead v hv)
  have hexec : (Site.mk root v.call.1).run (S.payloadProg v.call.2.1) v.before =
      (Site.mk root v.call.1).run
        ((S.under C).payloadProg (v.call.2.1.withBody v.call.2.2)) v.before := htwin.exec
  have hstates := htwin.states
  show ((_, _), _) = ((_, _), _)
  rw [← hexec, ← hstates]

end ErasureStore

end Kerplace
