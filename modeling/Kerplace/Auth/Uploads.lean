/-
# `Kerplace.Auth.Uploads` — uploads through the auth middleware

The middleware hands a streamed body on as what its decoder yields; the put
below encrypts it or not and shards it.  Of the layers in between, only the
sharded write turns a source that breaks off into an error: the decoder and the
cipher end their pipe instead.  So an upload fails closed exactly when its body
is whole, or when neither of the two stands between it and the drives.
-/
import Kerplace.Auth.Chunked
import Kerplace.Erasure.RoundTrip
import Kerplace.Erasure.Put
import Kerplace.Erasure.Frame

namespace Kerplace

open FileTree Prog ErasureStore

/-- What a PUT brings: its `x-amz-content-sha256` header, if it is readable, and its
body. -/
structure Upload where
  contentSha256 : Option Str
  body : Body

/-- `is_aws_chunked`. -/
def isAwsChunked (contentSha256 : Option Str) : Bool :=
  (contentSha256.map fun v => "STREAMING-".toList.isPrefixOf v).getD false

namespace Upload

/-- The body a handler gets from `auth_middleware`. -/
def toHandler (u : Upload) : Body :=
  if isAwsChunked u.contentSha256 then decodeAwsChunked u.body else u.body

/-- The body ended without an error, and it is, or frames, `payload`. -/
def Carries (u : Upload) (payload : Bytes) : Prop :=
  u.body.err = false ∧
    if isAwsChunked u.contentSha256 then Framed u.body.data payload else u.body.data = payload

theorem toHandler_of_carries {u : Upload} {payload : Bytes} (h : u.Carries payload) :
    u.toHandler = .ofBytes payload := by
  obtain ⟨herr, hbody⟩ := h
  rw [toHandler]
  split at hbody
  · rename_i hchunked
    rw [if_pos hchunked, decodeAwsChunked_framed hbody]
  · rename_i hplain
    rw [if_neg hplain, Body.ofBytes, ← hbody, ← herr]

end Upload

namespace ErasureStore

variable {n : Nat}

/-- A put of an upload that came through the middleware. -/
def putUpload (S : ErasureStore n) (env : CallEnv) (bucket key : Str) (u : Upload)
    (contentType : Str) (userMetadata : UserMeta) (encrypt : Bool) : EStore n ObjectMeta :=
  S.putObject env bucket key u.toHandler contentType userMetadata encrypt

/-- More than `K` drives hold an object's shards and metadata, and its plaintext is
`payload`. -/
def Stores (S : ErasureStore n) (site : Site n) (bucket key : Str) (payload : Bytes)
    (s : Cluster n Doc) : Prop :=
  ∃ blocks xl took, Laid S site bucket key blocks xl took s ∧
    if xl.encrypted then S.crypto.decryptingReader blocks.flatten = some payload
    else blocks.flatten = payload

/-- No drive has an object's metadata that it did not have before. -/
def NothingCommitted (s s' : Cluster n Doc) : Prop :=
  ∀ d q xl, (s' d).file? q = some (.doc (.xl xl)) →
    ∃ q', (s d).file? q' = some (.doc (.xl xl))

end ErasureStore

/-- Whatever store and cluster an upload meets: if it is accepted, its whole payload is
stored; and if its body broke off or is not framed as it should be, it is refused and
nothing is committed. -/
def FailsClosed (u : Upload) (encrypted : Bool) : Prop :=
  ∀ (n : Nat) (S : ErasureStore n) (site : Site n) (s s' : Cluster n Doc) (env : CallEnv)
    (bucket key contentType : Str) (userMetadata : UserMeta) (encrypt : Bool)
    (r : Except S3Error ObjectMeta),
    S.codec.Lawful → S.crypto.Lawful → 1 ≤ S.blockSize → S.shouldEncrypt encrypt = encrypted →
    site.run (S.putUpload env bucket key u contentType userMetadata encrypt) s = (r, s') →
    (∀ m, r = .ok m → ∃ payload, u.Carries payload ∧ S.Stores site bucket key payload s') ∧
      ((¬ ∃ payload, u.Carries payload) → (∃ e, r = .error e) ∧ NothingCommitted s s')

/-! ## Nothing is committed -/

/-- All paths, and every document but an object's metadata. -/
def uncommitted : Region Doc where
  reads _ := True
  lists _ := True
  writes _ := True
  trees _ := True
  prunes _ := True
  stores j := ∀ xl, j ≠ .xl xl
  finds _ := True

/-- The contract of calls that write no object's metadata. -/
abbrev uncommittedContract (n : Nat) : Contract (StoreOp n Doc) StoreOp.Ans :=
  storeContract n uncommitted fun _ => True

namespace ErasureStore

variable {n : Nat} {S : ErasureStore n} {site : Site n} {bucket key : Str}

theorem nothingCommitted {α : Type} {p : EStore n α} {Q : α → Prop}
    (hp : MeetsE (uncommittedContract n) p Q) {s s' : Cluster n Doc} {r : Except S3Error α}
    (hrun : site.run p s = (r, s')) : (∀ a, r = .ok a → Q a) ∧ NothingCommitted s s' := by
  have hon : Honours site.step (uncommittedContract n) fun s' =>
      ∀ d, DocsIn (fun j => ∀ xl, j = .xl xl → ∃ q, (s d).look q = some (.file (.doc j)))
        (s' d) := by
    refine Site.honours fun d o s' ho hs' => ⟨?_, ?_⟩
    · exact LocalDrive.step_finds (fun _ _ => trivial) o (hs' d)
    · exact Site.update_forall hs' (LocalDrive.step_docs
        (fun j (hj : uncommitted.stores j) xl hxl => absurd hxl (hj xl)) ho (hs' d))
  obtain ⟨hends, hdocs⟩ := MeetsE.run hon hp fun d q j hj xl hxl => ⟨q, hj⟩
  rw [show runE site.step p s = (r, s') from hrun] at hends hdocs
  refine ⟨hends, fun d q xl hfile => ?_⟩
  obtain ⟨q', hq'⟩ := hdocs d q _ (file?_eq_some.1 hfile) xl rfl
  exact ⟨q', file?_eq_some.2 hq'⟩

theorem free_each {α : Type} {p : Fin n → DriveProg Doc α}
    (hp : ∀ d, Meets ((uncommittedContract n).slot d) (p d) fun _ => True) :
    MeetsE (uncommittedContract n) (do let _ ← eachDrive p; pure ()) fun _ => True :=
  MeetsE.then (meetsE_each hp) fun _ => meetsE_pure.2 trivial

theorem free_writeHistory (h : VHistory) :
    MeetsE (uncommittedContract n) (writeHistory bucket key h) fun _ => True := by
  have hwrite : (DriveOp.write (rHistory bucket key)
      (.doc (.history { h with epoch := h.epoch + 1 }))).Within uncommitted := by
    refine ⟨trivial, fun j hj xl hxl => ?_⟩
    rw [← Content.doc.inj hj] at hxl
    cases hxl
  refine (meetsE_each fun d => ?_).then fun ok => ?_
  · dsimp only
    split
    · exact Meets.then (meets_call trivial) fun _ => meets_call hwrite
    · exact meets_call hwrite
  · split
    · exact meetsE_throw
    · exact meetsE_pure.2 trivial

theorem free_demoteCurrent (v : Str) :
    MeetsE (uncommittedContract n) (demoteCurrent bucket key v) fun _ => True :=
  free_each fun _ => Meets.then (meets_call trivial) fun _ =>
    Meets.then (meets_call ⟨trivial, trivial⟩) fun _ => meets_call ⟨trivial, trivial⟩

theorem free_purgeNull (mode : VMode) (hist : VHistory) :
    MeetsE (uncommittedContract n) (purgeNull bucket key mode hist) fun _ => True := by
  have hdiscard : MeetsE (uncommittedContract n) (discardCurrent bucket key) fun _ => True :=
    free_each fun _ => Meets.then (meets_call trivial) fun _ => meets_call trivial
  have hremove : MeetsE (uncommittedContract n) (removeArchive bucket key NULL) fun _ => True :=
    free_each fun _ => meets_call trivial
  unfold purgeNull
  dsimp only
  split
  · exact meetsE_pure.2 trivial
  · split
    · exact meetsE_pure.2 trivial
    · split
      · exact hdiscard.then fun _ => meetsE_pure.2 trivial
      · split
        · exact hremove.then fun _ => meetsE_pure.2 trivial
        · exact meetsE_pure.2 trivial

theorem free_beginVersionedWrite (env : CallEnv) (mode : VMode) :
    MeetsE (uncommittedContract n) (beginVersionedWrite env bucket key mode) fun _ => True := by
  have hseed : MeetsE (uncommittedContract n) (seedLegacyHistory bucket key) fun _ => True := by
    refine (meetsE_metaStatAny trivial).then fun has => ?_
    split
    · exact meetsE_pure.2 trivial
    · refine (meetsE_outcome (meetsE_readXl fun _ _ => trivial)).bind fun r _ => ?_
      cases r with
      | error e => exact meetsE_pure.2 trivial
      | ok m => exact free_writeHistory _
  have hread : MeetsE (uncommittedContract n) (readHistory bucket key) fun _ => True :=
    MeetsE.then (meetsE_each fun _ => (meets_readDoc trivial).bind fun _ _ => trivial)
      fun _ => meetsE_pure.2 trivial
  have hroom : ∀ hist, MeetsE (uncommittedContract n) (makeRoom bucket key mode hist) fun _ =>
      True := by
    intro hist
    refine (free_purgeNull mode hist).then fun r => ?_
    obtain ⟨hist, occupied⟩ := r
    dsimp only
    split
    · exact (free_demoteCurrent _).then fun _ => meetsE_pure.2 trivial
    · exact meetsE_pure.2 trivial
  exact hseed.then fun _ => hread.then fun hist => (hroom hist).then fun _ =>
    meetsE_pure.2 trivial

theorem free_writeBlocks {tmpRel : UnixPath} (blocks : List Bytes) : ∀ ok sums,
    MeetsE (uncommittedContract n) (S.writeBlocks tmpRel blocks ok sums) fun _ => True := by
  induction blocks with
  | nil => exact fun _ _ => meetsE_pure.2 trivial
  | cons block blocks ih =>
      intro ok sums
      rw [writeBlocks]
      split
      · exact meetsE_throw
      · refine (meetsE_each fun d => ?_).then fun _ => ih _ _
        split
        · exact meets_call trivial
        · trivial

/-- A body that breaks off is refused before any metadata is written. -/
theorem refused_writeSharded {src : Body} (hblock : 1 ≤ S.blockSize) (hsrc : src.err = true)
    (env : CallEnv) (contentType : Str) (userMetadata : UserMeta) (encrypted : Bool)
    (etagOverride : Option Str) :
    MeetsE (uncommittedContract n) (S.writeSharded env bucket key src contentType userMetadata
      encrypted etagOverride) fun _ => False := by
  have hbroken : (bodyBlocks S.blockSize src).2 = true := by
    rw [bodyBlocks, if_neg (by omega), if_pos hsrc]
  unfold writeSharded
  refine (meetsE_each fun d => ?_).then fun ok => ?_
  · refine Meets.then (meets_call trivial) fun _ => ?_
    split
    · exact meets_call trivial
    · trivial
  refine (free_writeBlocks _ _ _).then fun r => ?_
  obtain ⟨ok, checksums⟩ := r
  dsimp only
  rw [hbroken, if_pos rfl]
  exact meetsE_bind.2 meetsE_throw

/-- So is a put of it, where nothing is encrypted. -/
theorem refused_putObject {body : Body} (hblock : 1 ≤ S.blockSize) (hbody : body.err = true)
    (env : CallEnv) (contentType : Str) (userMetadata : UserMeta) {encrypt : Bool}
    (hplain : S.shouldEncrypt encrypt = false) :
    MeetsE (uncommittedContract n) (S.putObject env bucket key body contentType userMetadata
      encrypt) fun _ => False := by
  have hhead : MeetsE (uncommittedContract n) (headBucket bucket) fun _ => True := by
    refine MeetsE.then (meetsE_any fun d => Meets.then (meets_call trivial) fun _ => trivial)
      fun hit => ?_
    split
    · exact meetsE_pure.2 trivial
    · exact meetsE_throw
  have hmode : MeetsE (uncommittedContract n) (vmode bucket) fun _ => True := by
    refine MeetsE.then ?_ fun _ => meetsE_pure.2 trivial
    refine MeetsE.then (meetsE_each fun d => ?_) fun _ => meetsE_pure.2 trivial
    exact (meets_readDoc trivial).bind fun _ _ => trivial
  refine hhead.then fun _ => ?_
  refine MeetsE.then (meetsE_ofExcept.2 fun _ _ => trivial) fun _ => ?_
  refine meetsE_withLock trivial trivial ?_
  dsimp only
  rw [hplain]
  refine MeetsE.bind (R := (· = body)) (meetsE_pure.2 rfl) fun src hsrc => ?_
  subst hsrc
  refine hmode.then fun mode => ?_
  split
  · exact refused_writeSharded hblock hbody _ _ _ _ _
  · refine (free_beginVersionedWrite _ _).then fun r => ?_
    exact MeetsE.bind (refused_writeSharded hblock hbody _ _ _ _ _) fun _ h => h.elim

/-! ## What an accepted upload stored -/

/-- Recording a history leaves every other file. -/
theorem file?_writeHistory {s : Cluster n Doc} (h : VHistory) {d : Fin n} {q : List Str}
    (hq : q ≠ (rHistory bucket key).resolve (site.root d)) :
    ((site.run (writeHistory bucket key h) s).2 d).file? q = (s d).file? q := by
  have hdrive : ∀ c, (site.onTree d (do
        let _ ← Drive.createDirAll ((rObject bucket key).joinStr VDIR)
        Drive.write (rHistory bucket key) c) (s d)).2.file? q = (s d).file? q := by
    intro c
    cases hup : site.up d with
    | false => rw [Site.onTree_down_snd hup]
    | true =>
        rw [Site.onTree_up hup, exec_bind]
        refine (LocalDrive.attempt_snd (P := fun t => t.file? q = _) rfl fun t' ht => ?_).trans
          (LocalDrive.attempt_snd (P := fun t => t.file? q = _) rfl fun t' ht => ?_)
        · exact file?_write_of_ne ht hq
        · have hlook := look_createDirAll ht q
          split at hlook
          · rename_i hpre
            rw [createDirAll_isSome.1 (Option.isSome_of_eq_some ht) q hpre, file?, hlook]
          · exact file?_congr hlook
  have hpar : (rHistory bucket key).parent = some ((rObject bucket key).joinStr VDIR) :=
    UnixPath.parent_joinStr_atom atom_history
  unfold writeHistory metaWriteAll
  simp only [hpar, Site.run_bind, Site.run_eachDrive, Prog.andThen_ok]
  split <;> exact hdrive _

theorem Laid.writeHistory {blocks : List Bytes} {xl : XlMeta} {took : Fin n → Bool}
    {s : Cluster n Doc} (h : Laid S site bucket key blocks xl took s) (hist : VHistory) :
    Laid S site bucket key blocks xl took (site.run (writeHistory bucket key hist) s).2 := by
  have hne : ∀ (d : Fin n) (f : Str),
      site.objDir bucket key d ++ [f] ≠ (rHistory bucket key).resolve (site.root d) := by
    intro d f h0
    rw [rHistory, UnixPath.resolve_joinStr_atom atom_history,
      UnixPath.resolve_joinStr_atom atom_vdir] at h0
    have hlen := congrArg List.length h0
    simp only [Site.objDir, List.length_append, List.length_singleton] at hlen
    omega
  refine ⟨h.quorum, fun d hd => ?_, fun d hd => ?_⟩
  · rw [file?_writeHistory hist (hne d PART)]
    exact h.part d hd
  · rw [file?_writeHistory hist (hne d XL_META)]
    exact h.xl d hd

/-- An accepted write into a versioned bucket is an accepted sharded write, and a
history recorded after it. -/
theorem run_writeVersioned_ok {env : CallEnv} {mode : VMode} {src : Body} {contentType : Str}
    {userMetadata : UserMeta} {encrypted : Bool} {s s' : Cluster n Doc} {m : ObjectMeta}
    (hrun : site.run (S.writeVersioned env bucket key mode src contentType userMetadata
      encrypted) s = (.ok m, s')) :
    ∃ s₁ m₁ s₂ hist, site.run (S.writeSharded env bucket key src contentType userMetadata
        encrypted none) s₁ = (.ok m₁, s₂) ∧
      s' = (site.run (writeHistory bucket key hist) s₂).2 := by
  unfold writeVersioned at hrun
  rw [Site.run_bind] at hrun
  rcases hbegin : site.run (beginVersionedWrite env bucket key mode) s with ⟨r, s₁⟩
  rw [hbegin] at hrun
  cases r with
  | error e => cases hrun
  | ok a =>
      obtain ⟨vid, hist⟩ := a
      rw [Prog.andThen_ok, Site.run_bind] at hrun
      rcases hwrite : site.run (S.writeSharded env bucket key src contentType userMetadata
        encrypted none) s₁ with ⟨r, s₂⟩
      rw [hwrite] at hrun
      cases r with
      | error e => cases hrun
      | ok m₁ =>
          rw [Prog.andThen_ok, Site.run_bind] at hrun
          refine ⟨s₁, m₁, s₂, { hist with versions := ⟨vid, false, m₁.lastModified, m₁.etag,
            m₁.size, env.accessKey, env.remoteIp⟩ :: hist.versions }, hwrite, ?_⟩
          rcases hfinish : site.run (finishVersionedWrite env bucket key hist vid m₁.etag
            m₁.size m₁.lastModified) s₂ with ⟨r, s₃⟩
          rw [hfinish] at hrun
          cases r with
          | error e => cases hrun
          | ok _ =>
              cases hrun
              exact (congrArg Prod.snd hfinish).symm

theorem stores_of_writeSharded (hS : S.codec.Lawful) (hblock : 1 ≤ S.blockSize)
    {env : CallEnv} {src : Body} {contentType : Str} {userMetadata : UserMeta}
    {encrypted : Bool} {payload : Bytes} {s s' : Cluster n Doc} {m : ObjectMeta}
    (hsrc : if encrypted then S.crypto.decryptingReader src.data = some payload
      else src.data = payload)
    (hrun : site.run (S.writeSharded env bucket key src contentType userMetadata encrypted
      none) s = (.ok m, s')) :
    ∃ blocks xl took, Laid S site bucket key blocks xl took s' ∧
      if xl.encrypted then S.crypto.decryptingReader blocks.flatten = some payload
      else blocks.flatten = payload := by
  obtain ⟨hend, took, hlaid⟩ := run_writeSharded_ok hS hrun
  refine ⟨_, _, took, hlaid, ?_⟩
  rw [(bodyBlocks_whole hblock (Prod.ext rfl hend)).2]
  exact hsrc

/-- An accepted put of a whole body stores it. -/
theorem stores_of_putObject (hS : S.codec.Lawful) (hcr : S.crypto.Lawful)
    (hblock : 1 ≤ S.blockSize) {env : CallEnv} {contentType : Str} {userMetadata : UserMeta}
    {encrypt : Bool} {payload : Bytes} {s s' : Cluster n Doc} {m : ObjectMeta}
    (hrun : site.run (S.putObject env bucket key (.ofBytes payload) contentType userMetadata
      encrypt) s = (.ok m, s')) : Stores S site bucket key payload s' := by
  rw [run_putObject] at hrun
  split at hrun
  · cases hrun
  split at hrun
  · cases hrun
  split at hrun
  · cases hrun
  rename_i src hsource
  have hsrc : if S.shouldEncrypt encrypt then S.crypto.decryptingReader src.data = some payload
      else src.data = payload := by
    rw [sourceOf] at hsource
    split at hsource
    · rename_i henc
      rw [if_pos henc, Crypto.decrypting_encrypting hcr hsource]
      rfl
    · rename_i hplain
      rw [if_neg hplain, ← Option.some.inj hsource]
      rfl
  split at hrun
  · exact stores_of_writeSharded hS hblock hsrc hrun
  · obtain ⟨s₁, m₁, s₂, hist, hwrite, rfl⟩ := run_writeVersioned_ok hrun
    obtain ⟨blocks, xl, took, hlaid, hpayload⟩ := stores_of_writeSharded hS hblock hsrc hwrite
    exact ⟨blocks, xl, took, hlaid.writeHistory hist, hpayload⟩

end ErasureStore

/-! ## What is accepted -/

/-- The upload is whole, or neither framed nor encrypted on its way. -/
def Upload.Guarded (u : Upload) (encrypted : Bool) : Prop :=
  (∃ payload, u.Carries payload) ∨ (isAwsChunked u.contentSha256 = false ∧ encrypted = false)

theorem failsClosed_of_guarded {u : Upload} {encrypted : Bool} (h : u.Guarded encrypted) :
    FailsClosed u encrypted := by
  intro n S site s s' env bucket key contentType userMetadata encrypt r hS hcr hblock henc hrun
  have hwhole : ∀ payload, u.Carries payload →
      ∀ m, r = .ok m → ∃ payload, u.Carries payload ∧ S.Stores site bucket key payload s' := by
    intro payload hcarries m hm
    rw [putUpload, Upload.toHandler_of_carries hcarries, hm] at hrun
    exact ⟨payload, hcarries, stores_of_putObject hS hcr hblock hrun⟩
  rcases h with ⟨payload, hcarries⟩ | ⟨hplain, hclear⟩
  · exact ⟨hwhole payload hcarries, fun hnone => absurd ⟨payload, hcarries⟩ hnone⟩
  · have hbody : u.toHandler = u.body := by
      rw [Upload.toHandler, hplain]
      rfl
    cases herr : u.body.err with
    | false =>
        have hcarries : u.Carries u.body.data := ⟨herr, by rw [hplain]; rfl⟩
        exact ⟨hwhole _ hcarries, fun hnone => absurd ⟨_, hcarries⟩ hnone⟩
    | true =>
        subst hclear
        rw [putUpload, hbody] at hrun
        obtain ⟨hnone, hnothing⟩ := nothingCommitted
          (refused_putObject hblock herr env contentType userMetadata henc) hrun
        cases r with
        | ok m => exact (hnone m rfl).elim
        | error e => exact ⟨fun m hm => (nomatch hm), fun _ => ⟨⟨e, rfl⟩, hnothing⟩⟩

theorem open_withBucket (d : Fin 3) : Open (withBucket "docs".toList d)
    ((Site.mk topRoot fun _ => true).objDir "docs".toList "key".toList d) := by
  have hpath : ∀ d : Fin 3, ∀ q ∈ ((Site.mk topRoot fun _ => true).objDir "docs".toList
      "key".toList d).inits, (withBucket "docs".toList d).file? q = none := by
    decide +kernel
  revert d
  refine fun d => ⟨fun q hq => hpath d q ((List.mem_inits _ _).2 hq), ?_, ?_, ?_⟩ <;>
    revert d <;> decide +kernel

/-- Three healthy drives accept every upload whose source ends cleanly at the shards. -/
theorem trio_accepts {u : Upload} {encrypt : Bool} {src : Body}
    (hsource : trio.sourceOf (callAt 'a' 1 rfl) u.toHandler encrypt = some src)
    (hclean : src.err = false) : ∃ m s',
      (Site.mk topRoot fun _ => true).run (trio.putUpload (callAt 'a' 1 rfl) "docs".toList
        "key".toList u [] [] encrypt) (withBucket "docs".toList) = (.ok m, s') := by
  have hsame : trio.shouldEncrypt encrypt = encrypt := Bool.or_false encrypt
  have hbucket : bucketUp (Site.mk topRoot fun _ : Fin 3 => true) "docs".toList
      (withBucket "docs".toList) = true := by decide +kernel
  have hmode : modeOf (Site.mk topRoot fun _ : Fin 3 => true) "docs".toList
      (withBucket "docs".toList) = .off := by decide +kernel
  have hkey : validateKey "key".toList = .ok () := by decide +kernel
  have hwhole : (bodyBlocks trio.blockSize src).2 = false := by
    rw [bodyBlocks, if_neg (by decide), hclean]
    rfl
  have hends : WriteEnds trio ⟨topRoot, fun _ => true⟩ _ _ _ _ _ _ :=
    run_writeSharded trio_lawful (fun d _ => open_withBucket d) (by decide +kernel)
      (callAt 'a' 1 rfl) src [] [] encrypt none
  obtain ⟨hok, -⟩ := hends.done hwhole (by decide +kernel)
  rcases hrun : (Site.mk topRoot fun _ => true).run (trio.writeSharded (callAt 'a' 1 rfl)
    "docs".toList "key".toList src [] [] encrypt none) (withBucket "docs".toList) with ⟨r, s'⟩
  rw [hrun] at hok
  obtain ⟨m, rfl⟩ : ∃ m, r = .ok m := ⟨_, hok⟩
  refine ⟨m, s', ?_⟩
  rw [putUpload, run_putObject, hbucket, hkey, hsame, hsource, hmode]
  exact hrun

theorem not_failsClosed {u : Upload} {encrypted : Bool} (h : ¬ u.Guarded encrypted) :
    ¬ FailsClosed u encrypted := by
  intro hclosed
  obtain ⟨src, hsource, hclean⟩ : ∃ src,
      trio.sourceOf (callAt 'a' 1 rfl) u.toHandler encrypted = some src ∧ src.err = false := by
    cases encrypted with
    | true => exact ⟨_, rfl, rfl⟩
    | false =>
        refine ⟨u.toHandler, rfl, ?_⟩
        cases hchunked : isAwsChunked u.contentSha256 with
        | false => exact absurd (.inr ⟨hchunked, rfl⟩) h
        | true => rw [Upload.toHandler, hchunked]; rfl
  obtain ⟨m, s', hrun⟩ := trio_accepts hsource hclean
  obtain ⟨payload, hcarries, -⟩ := (hclosed 3 trio _ _ _ _ _ _ _ _ _ _ trio_lawful
    Crypto.tagged_lawful (by decide) (Bool.or_false encrypted) hrun).1 m rfl
  exact h (.inl ⟨payload, hcarries⟩)

/-- An upload fails closed exactly when its body is whole, or it is neither framed nor
encrypted. -/
theorem failsClosed_iff (u : Upload) (encrypted : Bool) :
    FailsClosed u encrypted ↔ u.Guarded encrypted :=
  ⟨fun h => by
    by_contra hnot
    exact not_failsClosed hnot h, failsClosed_of_guarded⟩

/-- A streamed upload whose client dies in the first chunk. -/
def severed : Upload :=
  ⟨some "STREAMING-AWS4-HMAC-SHA256-PAYLOAD".toList, ⟨asciiBytes "5\r\nab".toList, true⟩⟩

/-- It is accepted, on three healthy drives and without encryption. -/
theorem severed_accepted : ¬ (∃ payload, severed.Carries payload) ∧
    (∃ m s', (Site.mk topRoot fun _ => true).run (trio.putUpload (callAt 'a' 1 rfl)
      "docs".toList "key".toList severed [] [] false) (withBucket "docs".toList) =
        (.ok m, s')) ∧ ¬ FailsClosed severed false := by
  have hnone : ¬ ∃ payload, severed.Carries payload := by
    rintro ⟨payload, herr, -⟩
    cases herr
  have hchunked : isAwsChunked severed.contentSha256 = true := by decide
  refine ⟨hnone, trio_accepts rfl ?_, not_failsClosed ?_⟩
  · rw [Upload.toHandler, hchunked]
    rfl
  · rintro (h | ⟨hplain, -⟩)
    · exact hnone h
    · rw [hchunked] at hplain
      cases hplain

end Kerplace
