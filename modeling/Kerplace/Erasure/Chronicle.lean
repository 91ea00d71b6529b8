/-
# `Kerplace.Erasure.Chronicle` — a call on a key's versions

What an acknowledged put, copy, delete or delete of a version makes of what healthy drives
have of a key: the versions change as the call says.  Calls on other keys, and changes of a
bucket's versioning, leave them.
-/
import Kerplace.Erasure.Config
import Kerplace.Erasure.Damage
import Kerplace.Erasure.HealRace
import Kerplace.Erasure.Versions

namespace Kerplace

open FileTree Prog ErasureStore Versions

/-! ## Reading a version -/

namespace ErasureStore

variable {n : Nat} {S : ErasureStore n} {site : Site n} {bucket key : Str} {k : KeyState}
  {s : Cluster n Doc}

variable (S) in
/-- What a copy is read as. -/
def bytesOf (c : Copy) : Except S3Error Bytes :=
  if c.xl.encrypted then
    match S.crypto.decryptingReader c.blocks.flatten with
    | some plain => .ok plain
    | none => .error (.internal "decrypt object")
  else .ok c.blocks.flatten

/-- A copy on every drive is read as what it is. -/
theorem run_readBody_kept (hS : S.codec.Lawful)
    (hup : ∀ d, site.up d = true) (hk : Keeps S site bucket key (fun _ => k) s)
    {v : Option Str} (hv : ProperVersion v) {c : Copy} (hc : c.Minted S)
    (hslot : k.slot v = some c) :
    (site.run (S.readBody bucket key v c.xl) s).1 = S.bytesOf c := by
  have hwhole : ∀ d, WholeDrive S site bucket key v c s d := by
    intro d i hi
    refine holdsShard_of_part hS hv (hup d) (hk d) ?_ hi
    rw [KeyState.shelf, hslot]
    rfl
  have hbody := run_streamingBody_unmistaken hS (unmistaken_of_whole hwhole) hc
    (enoughShards_of_whole hwhole)
  rw [readBody, Site.run_bind]
  generalize site.run (S.streamingBody bucket key v c.xl) s = r at hbody ⊢
  obtain ⟨r, s'⟩ := r
  obtain rfl : r = .ok c.blocks.flatten := hbody
  rw [Prog.andThen_ok, bytesOf]
  cases c.xl.encrypted with
  | false => rfl
  | true =>
      rw [if_pos rfl, if_pos rfl]
      cases S.crypto.decryptingReader c.blocks.flatten <;> rfl

end ErasureStore

/-! ## The bucket's versioning -/

/-- What setting a bucket's versioning may do. -/
def versioningRegion (bucket : Str) : Region Doc where
  reads _ := True
  lists _ := True
  writes p := p = rBucketCfg bucket VERSIONING
  trees p := p = rCfgDir bucket
  prunes _ := False
  stores j := ∃ st, j = .status st
  finds _ := True

section

variable {n : Nat} {S : ErasureStore n} {site : Site n} {bucket key : Str} {K : KeyStates n}
  {s : Cluster n Doc}

theorem meetsE_setBucketVersioning (status : Str) :
    MeetsE (storeContract n (versioningRegion bucket) fun _ => False)
      (setBucketVersioning bucket status) fun _ => True := by
  have hdir : (DriveOp.createDirAll (rCfgDir bucket)).Within (versioningRegion bucket) := rfl
  have hwrite : (DriveOp.write (rBucketCfg bucket VERSIONING) (.doc (.status status))).Within
      (versioningRegion bucket) := ⟨rfl, fun j hj => ⟨status, (Content.doc.inj hj).symm⟩⟩
  refine MeetsE.then (Q := fun _ => True) ?_ fun _ => ?_
  · refine (meetsE_any fun d => ?_).then fun hit => ?_
    · exact Meets.then (meets_call (o := .stat _) trivial) fun _ => trivial
    · split
      · exact meetsE_pure.2 trivial
      · exact meetsE_throw
  · refine (meetsE_each fun d => ?_).then fun ok => ?_
    · rw [show (rBucketCfg bucket VERSIONING).parent = some (rCfgDir bucket) from
        UnixPath.parent_joinStr_atom atom_versioning]
      refine Meets.then ?_ fun _ => meets_call hwrite
      exact Meets.then (meets_call hdir) fun _ => trivial
    · split
      · exact meetsE_throw
      · exact meetsE_pure.2 trivial

/-- A bucket's configuration and another's objects lie apart, too. -/
theorem versioningRegion_spares {b : Str} (hb' : validateBucketName b = .ok ())
    (hb : validateBucketName bucket = .ok ()) (hkey : validateKey key = .ok ()) (d : Fin n)
    (rest : List Str) :
    (versioningRegion b).Spares (site.root d) (site.objDir bucket key d ++ rest) := by
  have hatom := validateBucketName_atom hb
  have hatom' := validateBucketName_atom hb'
  refine ⟨fun p hp => ((?_ : Apart (site.objDir bucket key d) _).below rest).symm,
    fun p hp => hp.elim⟩
  rcases hp with rfl | rfl
  · exact Site.objDir_apart_cfg hatom (ne_sysDir hb) (validateKey_plain hkey) hatom'
      atom_versioning
  · rw [Site.objDir_eq hatom (validateKey_plain hkey), rCfgDir,
      UnixPath.resolve_joinStr_atom hatom', UnixPath.resolve_joinStr_atom atom_buckets,
      UnixPath.resolve_ofStr atom_sysDir.descends, atom_sysDir.compsOf, List.append_assoc,
      List.append_assoc]
    exact apart_of_ne (ne_sysDir hb)

/-- The configurations of two buckets lie apart. -/
theorem versioningRegion_spares_cfg {b : Str} (hb' : validateBucketName b = .ok ())
    (hb : validateBucketName bucket = .ok ()) (hne : b ≠ bucket) (root : List Str) :
    (versioningRegion b).Spares root ((rBucketCfg bucket VERSIONING).resolve root) := by
  have hatom := validateBucketName_atom hb
  have hatom' := validateBucketName_atom hb'
  have happart : ∀ rest, Apart (root ++ [SYS_DIR, BUCKETS] ++ b :: rest)
      (root ++ [SYS_DIR, BUCKETS] ++ bucket :: [VERSIONING]) := fun _ => apart_of_ne hne
  refine ⟨fun p hp => ?_, fun p hp => hp.elim⟩
  rw [resolve_rBucketCfg hatom atom_versioning]
  rcases hp with rfl | rfl
  · rw [resolve_rBucketCfg hatom' atom_versioning]
    simpa using happart [VERSIONING]
  · rw [rCfgDir, UnixPath.resolve_joinStr_atom hatom',
      UnixPath.resolve_joinStr_atom atom_buckets, UnixPath.resolve_ofStr atom_sysDir.descends,
      atom_sysDir.compsOf]
    simpa using happart []

/-! ## What other calls leave -/

section

variable {α : Type} {R : Region Doc} {locks : Str → Prop} {p : EStore n α} {Q : α → Prop}

/-- A call that spares a key's directory leaves what the drives have of the key. -/
theorem Keeps.spared (hp : MeetsE (storeContract n R locks) p Q)
    (hstores : ∀ j, R.stores j → ProperDoc j) (hfinds : ∀ j, ProperDoc j → R.finds j)
    (hdocs : ProperCluster s)
    (hspares : ∀ d rest, R.Spares (site.root d) (site.objDir bucket key d ++ rest))
    (hk : Keeps S site bucket key K s) : Keeps S site bucket key K (site.run p s).2 := by
  have hlook : ∀ d rest, ((site.run p s).2 d).look (site.objDir bucket key d ++ rest) =
      (s d).look (site.objDir bucket key d ++ rest) := fun d rest =>
    Site.run_frame hp hstores hfinds hdocs d _ (hspares d rest)
  refine fun d => ⟨fun slot hslot q hq => ?_, ?_, fun a ha => ?_⟩
  · -- A path above the key's is none the call makes a file of.
    rw [Site.run_file? hp hstores hfinds hdocs d q fun p' hp' hpre =>
      ((hspares d _).1 p' hp').1 (hpre.trans hq)]
    exact (hk d).dirs slot hslot q hq
  · rw [hlook]
    exact (hk d).tmp
  · rw [hlook]
    exact (hk d).place a ha

end

theorem versioningRegion_stores {b : Str} (j : Doc) (hj : (versioningRegion b).stores j) :
    ProperDoc j := by
  obtain ⟨st, rfl⟩ := hj
  intro h hh
  cases hh

theorem keeps_setBucketVersioning {b : Str} (hb' : validateBucketName b = .ok ())
    (hb : validateBucketName bucket = .ok ()) (hkey : validateKey key = .ok ())
    (hdocs : ProperCluster s) (hk : Keeps S site bucket key K s) (status : Str) :
    Keeps S site bucket key K (site.run (setBucketVersioning b status) s).2 ∧
      ProperCluster (site.run (setBucketVersioning b status) s).2 :=
  ⟨hk.spared (meetsE_setBucketVersioning status) versioningRegion_stores (fun _ _ => trivial)
      hdocs (versioningRegion_spares hb' hb hkey),
    Site.run_proper (meetsE_setBucketVersioning status) versioningRegion_stores
      (fun _ _ => trivial) hdocs⟩

theorem keeps_keyCall {b k : Str} (hb' : validateBucketName b = .ok ())
    (hk' : validateKey k = .ok ())
    (happart : ∀ d, Apart (site.objDir b k d) (site.objDir bucket key d))
    (hdocs : ProperCluster s) (hk : Keeps S site bucket key K s) (c : KeyCall) :
    Keeps S site bucket key K (site.run (c.prog S b k) s).2 :=
  hk.spared c.meetsE (fun _ h => h) (fun _ h => h) hdocs fun d rest =>
    objectRegion_spares (validateBucketName_atom hb') (validateKey_plain hk')
      ((happart d).symm.below rest).symm

theorem modeOf_keyCall {b k : Str} (hb' : validateBucketName b = .ok ())
    (hk' : validateKey k = .ok ()) (hb : validateBucketName bucket = .ok ())
    (hdocs : ProperCluster s) (c : KeyCall) :
    modeOf site bucket (site.run (c.prog S b k) s).2 = modeOf site bucket s :=
  Site.modeOf_spared c.meetsE (fun _ h => h) (fun _ h => h) hdocs fun _ =>
    objectRegion_spares (validateBucketName_atom hb') (validateKey_plain hk')
      (site.objDir_apart_cfg (validateBucketName_atom hb') (ne_sysDir hb')
        (validateKey_plain hk') (validateBucketName_atom hb) atom_versioning)

/-- A drive on which a document was written has it. -/
theorem docAt_written {α : Type} {decode : Doc → Option α} {root : List Str} {dir rel : UnixPath}
    {doc : Doc} {t : Tree Doc} (hok : (Prog.exec (LocalDrive.step root) (do
      let _ ← Drive.createDirAll dir
      Drive.write rel (.doc doc)) t).1 = true) :
    docAt decode (Prog.exec (LocalDrive.step root) (do
      let _ ← Drive.createDirAll dir
      Drive.write rel (.doc doc)) t).2 (rel.resolve root) = decode doc := by
  rw [exec_bind, LocalDrive.exec_createDirAll, LocalDrive.exec_write] at hok ⊢
  generalize (LocalDrive.attempt t (t.createDirAll (dir.resolve root))).2 = t₁ at hok ⊢
  cases hw : t₁.write (rel.resolve root) (.doc doc) with
  | none =>
      rw [hw] at hok
      cases hok
  | some t₂ =>
      show docAt decode t₂ _ = _
      rw [docAt, file?_write hw, if_pos rfl]
      rfl

/-- Once it is set, it is not off. -/
theorem modeOf_setBucketVersioning {status : Str} (hstatus : 0 < statusRank status)
    {s' : Cluster n Doc} (hrun : site.run (setBucketVersioning bucket status) s = (.ok (), s')) :
    modeOf site bucket s' ≠ .off := by
  let prog : Fin n → DriveProg Doc Bool := fun _ => do
    let _ ← Drive.createDirAll (rCfgDir bucket)
    Drive.write (rBucketCfg bucket VERSIONING) (.doc (.status status))
  have hpar : (rBucketCfg bucket VERSIONING).parent = some (rCfgDir bucket) :=
    UnixPath.parent_joinStr_atom atom_versioning
  -- Some drive was written.
  obtain ⟨d, hok, hs'⟩ : ∃ d, (site.onTree d (prog d) (s d)).1 = true ∧
      s' = fun d => (site.onTree d (prog d) (s d)).2 := by
    rw [setBucketVersioning, Site.run_bind, run_headBucket] at hrun
    cases hb : bucketUp site bucket s with
    | false =>
        rw [hb, if_neg Bool.false_ne_true, Prog.andThen_error] at hrun
        cases hrun
    | true =>
        rw [hb, if_pos rfl, Prog.andThen_ok] at hrun
        unfold metaWriteAll at hrun
        rw [hpar, Site.run_bind, Site.run_eachDrive, Prog.andThen_ok] at hrun
        change site.run (if tally (fun d => (site.onTree d (prog d) (s d)).1) = 0 then _ else _)
          _ = _ at hrun
        by_cases htally : tally (fun d => (site.onTree d (prog d) (s d)).1) = 0
        · rw [if_pos htally] at hrun
          cases hrun
        · rw [if_neg htally] at hrun
          rw [tally_eq_zero, not_forall] at htally
          obtain ⟨d, hd⟩ := htally
          exact ⟨d, by simpa using hd, (congrArg Prod.snd hrun).symm⟩
  have hup : site.up d = true := by
    by_contra hdown
    rw [Site.onTree, Bool.not_eq_true _ |>.mp hdown] at hok
    cases hok
  have hdoc : docAt Doc.status? (s' d) ((rBucketCfg bucket VERSIONING).resolve (site.root d)) =
      some status := by
    rw [Site.onTree_up hup] at hok
    rw [hs']
    dsimp only
    rw [Site.onTree_up hup]
    exact docAt_written hok
  exact fun hoff => hstatus.ne' (modeOf_eq_off.1 hoff d status hup hdoc)

end

/-! ## The calls -/

/-- The calls that change a key's versions. -/
inductive VersionCall where
  | put (env : CallEnv) (body : Body) (contentType : Str) (userMetadata : UserMeta)
      (encrypt : Bool)
  | copy (env : CallEnv) (srcBucket srcKey : Str) (encrypt : Bool)
  | delete (env : CallEnv)
  | deleteVersion (versionId : Str)

namespace VersionCall

variable {n : Nat} (S : ErasureStore n) (site : Site n) (bucket key : Str)

/-- The store's program for a call; of its result only whether there is one is kept. -/
def prog : VersionCall → EStore n Unit
  | put env body contentType userMetadata encrypt => do
      let _ ← S.putObject env bucket key body contentType userMetadata encrypt
      pure ()
  | copy env srcBucket srcKey encrypt => do
      let _ ← S.copyObject env srcBucket srcKey bucket key encrypt
      pure ()
  | delete env => do
      let _ ← deleteObject env bucket key
      pure ()
  | .deleteVersion versionId => do
      let _ ← deleteObjectVersion bucket key versionId
      pure ()

/-- The identifier a call mints. -/
def fresh : VersionCall → Option Str
  | put env _ _ _ _ | copy env _ _ _ | delete env => some env.freshId.text
  | _ => none

/-- What a write stores of what it shards. -/
def copyFrom (env : CallEnv) (src : Body) (contentType : Str) (userMetadata : UserMeta)
    (encrypt : Bool) : Copy :=
  ⟨(bodyBlocks S.blockSize src).1, S.xlFor env (bodyBlocks S.blockSize src).1 contentType
    userMetadata (S.shouldEncrypt encrypt) none⟩

/-- What a write stores of a body. -/
def copyOf (env : CallEnv) (body : Body) (contentType : Str) (userMetadata : UserMeta)
    (encrypt : Bool) : Option Copy :=
  (S.sourceOf env body (S.shouldEncrypt encrypt)).map fun src =>
    copyFrom S env src contentType userMetadata encrypt

/-- What a call stores: a copy stores what it reads of its source. -/
def stores (s : Cluster n Doc) : VersionCall → Option (CallEnv × Copy)
  | put env body contentType userMetadata encrypt =>
      (copyOf S env body contentType userMetadata encrypt).map (Prod.mk env)
  | copy env srcBucket srcKey encrypt =>
      match (site.run (S.getObject srcBucket srcKey) s).1 with
      | .ok (m, bytes) =>
          (copyOf S env (.ofBytes bytes) m.contentType m.userMetadata encrypt).map (Prod.mk env)
      | .error _ => none
  | _ => none

/-- What a call makes of a key's versions. -/
def change (s : Cluster n Doc) (vs : KeyVersions) (c : VersionCall) : KeyVersions :=
  match c with
  | delete env =>
      let mode := modeOf site bucket s
      if mode = .off then [] else push vs ⟨newVersionId env mode, markerEntry env mode, none⟩
  | .deleteVersion versionId => without vs versionId
  | c =>
      match c.stores S site s with
      | some (env, stored) => KeyState.Records.written key env (modeOf site bucket s) vs stored
      | none => vs

end VersionCall

/-! ## One call -/

/-- What a key's drives have after calls that minted the identifiers `used`. -/
structure Chronicled {n : Nat} (S : ErasureStore n) (root : Fin n → List Str) (bucket key : Str)
    (used : List Str) (vs : KeyVersions) (t : Cluster n Doc) : Prop where
  kept : ∃ k, Keeps S (allUp root) bucket key (fun _ => k) t ∧ k.Records vs ∧
    (modeOf (allUp root) bucket t = .off → k.history = none)
  docs : ProperCluster t
  ids : ∀ v ∈ vs, v.id = NULL ∨ v.id ∈ used
  proper : ∀ v ∈ vs, ProperId v.id
  minted : ∀ v ∈ vs, ∀ c, v.body = some c → c.Minted S

section

variable {n : Nat} {S : ErasureStore n} {root : Fin n → List Str} {bucket key : Str}
  {used : List Str} {vs : KeyVersions} {t : Cluster n Doc}

theorem KeyState.Records.properStates {k : KeyState} (h : k.Records vs)
    (hproper : ∀ v ∈ vs, ProperId v.id) :
    KeyStates.Proper (fun _ : Fin n => k) := by
  intro d hist hhist e he
  rcases h.history with ⟨epoch, hsome⟩ | ⟨hnone, -⟩
  · obtain rfl := Option.some.inj (hsome.symm.trans hhist)
    obtain ⟨v, hv, rfl⟩ := List.mem_map.1 he
    rw [(h.fits v hv).1]
    exact hproper v hv
  · rw [hnone] at hhist
    cases hhist

theorem staying_eq {mode : VMode} (hmode : mode ≠ .off) {env : CallEnv}
    (hfresh : ∀ v ∈ vs, v.id ≠ env.freshId.text) :
    KeyState.Records.staying mode vs = without vs (newVersionId env mode) := by
  cases mode with
  | off => exact absurd rfl hmode
  | enabled => exact (without_of_notMem hfresh).symm
  | suspended => rfl

theorem properId_newVersionId (env : CallEnv) (mode : VMode) :
    ProperId (newVersionId env mode) := by
  cases mode with
  | suspended => exact .inl rfl
  | off => exact .inr ⟨_, rfl⟩
  | enabled => exact .inr ⟨_, rfl⟩

theorem newVersionId_cases (env : CallEnv) (mode : VMode) :
    newVersionId env mode = NULL ∨ newVersionId env mode = env.freshId.text := by
  cases mode with
  | suspended => exact .inl rfl
  | off => exact .inr rfl
  | enabled => exact .inr rfl

theorem allUp_up (root : Fin n → List Str) (d : Fin n) : (allUp root).up d = true := rfl

theorem bucketUp_of_ok {α : Type} {site : Site n} {p : EStore n α} {a : α}
    (hok : (site.run (do headBucket bucket; p) t).1 = .ok a) : bucketUp site bucket t = true := by
  cases hb : bucketUp site bucket t with
  | true => rfl
  | false =>
      rw [Site.run_bind, run_headBucket, hb] at hok
      cases hok

namespace Chronicled

theorem fresh_ne (h : Chronicled S root bucket key used vs t) {env : CallEnv}
    (hfresh : env.freshId.text ∉ used) : ∀ v ∈ vs, v.id ≠ env.freshId.text := by
  intro v hv hid
  rcases h.ids v hv with hnull | hused
  · exact env.freshId.ne_of_length (by decide) (hid.symm.trans hnull)
  · exact hfresh (hid ▸ hused)

/-- The versions with a new one pushed. -/
theorem pushed {t' : Cluster n Doc} (h : Chronicled S root bucket key used vs t) {env : CallEnv}
    {mode : VMode} {info : VEntry} {body : Option Copy}
    (hkept : ∃ k, Keeps S (allUp root) bucket key (fun _ => k) t' ∧
      k.Records (push vs ⟨newVersionId env mode, info, body⟩) ∧
      (modeOf (allUp root) bucket t' = .off → k.history = none)) (hdocs : ProperCluster t')
    (hminted : ∀ c, body = some c → c.Minted S) :
    Chronicled S root bucket key (used ++ [env.freshId.text])
      (push vs ⟨newVersionId env mode, info, body⟩) t' where
  kept := hkept
  docs := hdocs
  ids v hv := by
    rcases mem_push hv with rfl | hv
    · refine (newVersionId_cases env mode).imp_right fun hid => ?_
      show newVersionId env mode ∈ _
      rw [hid]
      exact List.mem_append_right _ (List.mem_singleton_self _)
    · exact (h.ids v hv).imp_right (List.mem_append_left _)
  proper v hv := by
    rcases mem_push hv with rfl | hv
    · exact properId_newVersionId env mode
    · exact h.proper v hv
  minted v hv := by
    rcases mem_push hv with rfl | hv
    · exact hminted
    · exact h.minted v hv

/-- The versions of a key that has none, or a legacy one. -/
theorem legacy (hdocs : ProperCluster t)
    (hkept : ∃ k, Keeps S (allUp root) bucket key (fun _ => k) t ∧ k.Records vs ∧
      (modeOf (allUp root) bucket t = .off → k.history = none))
    (hvs : vs = [] ∨ ∃ c, c.Minted S ∧ vs = [legacyVersion c]) :
    Chronicled S root bucket key used vs t := by
  have hall : ∀ v ∈ vs, ∃ c, c.Minted S ∧ v = legacyVersion c := by
    rcases hvs with rfl | ⟨c, hc, rfl⟩
    · exact fun v hv => nomatch hv
    · exact fun v hv => ⟨c, hc, List.mem_singleton.1 hv⟩
  refine ⟨hkept, hdocs, fun v hv => ?_, fun v hv => ?_, fun v hv c hbody => ?_⟩
  · obtain ⟨c, -, rfl⟩ := hall v hv
    exact .inl rfl
  · obtain ⟨c, -, rfl⟩ := hall v hv
    exact .inl rfl
  · obtain ⟨c', hc', rfl⟩ := hall v hv
    obtain rfl : c' = c := Option.some.inj hbody
    exact hc'

variable (hb : validateBucketName bucket = .ok ()) (hkey : validateKey key = .ok ())
include hb hkey

theorem run_mode (h : Chronicled S root bucket key used vs t) (c : KeyCall) :
    ProperCluster ((allUp root).run (c.prog S bucket key) t).2 ∧
      modeOf (allUp root) bucket ((allUp root).run (c.prog S bucket key) t).2 =
        modeOf (allUp root) bucket t :=
  c.run_mode hb hkey h.docs

/-- A put that is acknowledged. -/
theorem put (hS : S.codec.Lawful) (h : Chronicled S root bucket key used vs t)
    {env : CallEnv} {body : Body} {contentType : Str} {userMetadata : UserMeta} {encrypt : Bool}
    (hfresh : env.freshId.text ∉ used) {m : ObjectMeta}
    (hok : ((allUp root).run (S.putObject env bucket key body contentType userMetadata encrypt)
      t).1 = .ok m) :
    ∃ src, S.sourceOf env body (S.shouldEncrypt encrypt) = some src ∧
      (bodyBlocks S.blockSize src).2 = false ∧
      Chronicled S root bucket key (used ++ [env.freshId.text])
        (KeyState.Records.written key env (modeOf (allUp root) bucket t) vs
          (VersionCall.copyFrom S env src contentType userMetadata encrypt))
        ((allUp root).run (S.putObject env bucket key body contentType userMetadata encrypt)
          t).2 := by
  obtain ⟨k, hk, hrec, hoff⟩ := h.kept
  have hne : ∀ d, (allUp root).objDir bucket key d ≠ [] := fun d =>
    Site.objDir_ne_nil (validateBucketName_atom hb) (validateKey_plain hkey)
  have hbucket : bucketUp (allUp root) bucket t = true := bucketUp_of_ok hok
  obtain ⟨d, -, -⟩ := List.any_eq_true.1 hbucket
  obtain ⟨src, hsrc⟩ : ∃ src, S.sourceOf env body (S.shouldEncrypt encrypt) = some src := by
    rw [run_putObject, hbucket, if_neg (by simp), hkey] at hok
    dsimp only at hok
    cases hsrc : S.sourceOf env body (S.shouldEncrypt encrypt) with
    | some src => exact ⟨src, rfl⟩
    | none =>
        rw [hsrc] at hok
        cases hok
  obtain ⟨f, t', hrun, hk'⟩ := leads_putObject hS hne hk (hrec.properStates h.proper) hbucket
    hkey hsrc rfl (show S.xlFor env (bodyBlocks S.blockSize src).1 contentType userMetadata
      (S.shouldEncrypt encrypt) none = _ from rfl)
  obtain ⟨hdocs, hmode⟩ := h.run_mode hb hkey
    (.put env body contentType userMetadata encrypt)
  rw [KeyCall.prog, Site.run_unit] at hdocs hmode
  dsimp only at hdocs hmode
  rw [hrun] at hok hdocs hmode ⊢
  cases hanswer : writeAnswer S (allUp root) key (bodyBlocks S.blockSize src)
      (S.xlFor env (bodyBlocks S.blockSize src).1 contentType userMetadata
        (S.shouldEncrypt encrypt) none) with
  | error e =>
      rw [hanswer] at hok
      cases hok
  | ok m₀ =>
      obtain ⟨k', hput, hrec', hoff'⟩ := hrec.put (allUp_up root) d env hoff
        (fun hmode => staying_eq hmode (h.fresh_ne hfresh)) hanswer
      rw [hput] at hk'
      have hminted : Copy.Minted S ⟨(bodyBlocks S.blockSize src).1,
          S.xlFor env (bodyBlocks S.blockSize src).1 contentType userMetadata
            (S.shouldEncrypt encrypt) none⟩ :=
        ⟨env, src, contentType, userMetadata, _, none,
          Prod.ext rfl (KeyState.Records.writeAnswer_ok hanswer).1, rfl⟩
      refine ⟨src, hsrc, (KeyState.Records.writeAnswer_ok hanswer).1, ?_⟩
      dsimp only at hdocs hmode ⊢
      rw [← hmode] at hoff'
      unfold KeyState.Records.written at hrec' ⊢
      by_cases hzero : modeOf (allUp root) bucket t = .off
      · rw [if_pos hzero] at hrec' ⊢
        exact .legacy hdocs ⟨k', hk', hrec', hoff'⟩ (.inr ⟨_, hminted, rfl⟩)
      · rw [if_neg hzero] at hrec' ⊢
        exact h.pushed ⟨k', hk', hrec', hoff'⟩ hdocs fun c hc => Option.some.inj hc ▸ hminted

/-- A delete. -/
theorem delete (h : Chronicled S root bucket key used vs t) {env : CallEnv}
    (hfresh : env.freshId.text ∉ used) {o : DeleteOutcome}
    (hok : ((allUp root).run (deleteObject env bucket key) t).1 = .ok o) :
    Chronicled S root bucket key (used ++ [env.freshId.text])
      (VersionCall.change S (allUp root) bucket key t vs (.delete env))
      ((allUp root).run (deleteObject env bucket key) t).2 := by
  obtain ⟨k, hk, hrec, hoff⟩ := h.kept
  have hne : ∀ d, (allUp root).objDir bucket key d ≠ [] := fun d =>
    Site.objDir_ne_nil (validateBucketName_atom hb) (validateKey_plain hkey)
  have hbucket : bucketUp (allUp root) bucket t = true := bucketUp_of_ok hok
  obtain ⟨d, -, -⟩ := List.any_eq_true.1 hbucket
  obtain ⟨t', hrun, hk'⟩ := leads_deleteObject hk (hrec.properStates h.proper) hne hbucket rfl env
  obtain ⟨hdocs, hmode⟩ := h.run_mode hb hkey (.delete env)
  rw [KeyCall.prog, Site.run_unit] at hdocs hmode
  dsimp only at hdocs hmode
  rw [hrun] at hdocs hmode ⊢
  dsimp only at hdocs hmode ⊢
  unfold VersionCall.change
  dsimp only
  by_cases hzero : modeOf (allUp root) bucket t = .off
  · rw [if_pos hzero] at hk' ⊢
    rw [KeyStates.onUp_same fun _ => rfl] at hk'
    exact .legacy hdocs ⟨.bare, hk', .bare, fun _ => rfl⟩ (.inl rfl)
  · obtain ⟨k', hmark, hrec', -⟩ := hrec.mark (allUp_up root) d env
      (staying_eq hzero (h.fresh_ne hfresh))
    rw [if_neg hzero] at hk' ⊢
    rw [hmark] at hk'
    refine h.pushed ⟨k', hk', hrec', fun hoff' => ?_⟩ hdocs (by simp)
    exact absurd (hmode.symm.trans hoff') hzero

/-- A delete of a version. -/
theorem deleteVersion (h : Chronicled S root bucket key used vs t) {i : Str} {o : DeleteOutcome}
    (hok : ((allUp root).run (deleteObjectVersion bucket key i) t).1 = .ok o) :
    Chronicled S root bucket key used (without vs i)
      ((allUp root).run (deleteObjectVersion bucket key i) t).2 := by
  obtain ⟨k, hk, hrec, hoff⟩ := h.kept
  have hne : ∀ d, (allUp root).objDir bucket key d ≠ [] := fun d =>
    Site.objDir_ne_nil (validateBucketName_atom hb) (validateKey_plain hkey)
  have hbucket : bucketUp (allUp root) bucket t = true := bucketUp_of_ok hok
  obtain ⟨d, -, -⟩ := List.any_eq_true.1 hbucket
  obtain ⟨t', hrun, hk'⟩ := leads_deleteObjectVersion hk (hrec.properStates h.proper) hne
    hbucket i
  obtain ⟨hdocs, hmode⟩ := h.run_mode hb hkey (.deleteVersion i)
  rw [KeyCall.prog, Site.run_unit] at hdocs hmode
  dsimp only at hdocs hmode
  rw [hrun] at hok hdocs hmode ⊢
  dsimp only at hdocs hmode ⊢
  have hfound := hrec.deleteVersion_missing (allUp_up root) d hok
  obtain ⟨o', k', hdeleted, hrec', hgone⟩ := hrec.deleteVersion (allUp_up root) d
    hfound
  rw [hdeleted] at hk'
  refine ⟨⟨k', hk', hrec', fun hzero => hgone ?_⟩, hdocs,
    fun v hv => h.ids v (mem_without.1 hv).1, fun v hv => h.proper v (mem_without.1 hv).1,
    fun v hv => h.minted v (mem_without.1 hv).1⟩
  -- Without versioning there was one version at most.
  rcases hrec.history with ⟨e, he⟩ | ⟨-, hvs⟩
  · rw [hoff (hmode.symm.trans hzero)] at he
    cases he
  · obtain ⟨v, hv, hid⟩ := hfound
    rcases hvs with rfl | ⟨c, rfl⟩
    · cases hv
    · obtain rfl := List.mem_singleton.1 hv
      rw [← hid, without_head hrec.distinct]

theorem setVersioning (h : Chronicled S root bucket key used vs t) {status : Str}
    (hstatus : 0 < statusRank status)
    (hok : ((allUp root).run (setBucketVersioning bucket status) t).1 = .ok ()) :
    Chronicled S root bucket key used vs
      ((allUp root).run (setBucketVersioning bucket status) t).2 := by
  obtain ⟨k, hk, hrec, -⟩ := h.kept
  obtain ⟨hk', hdocs⟩ := keeps_setBucketVersioning hb hb hkey h.docs hk status
  exact ⟨⟨k, hk', hrec, fun hzero => absurd hzero
    (modeOf_setBucketVersioning hstatus (Prod.ext hok rfl))⟩, hdocs, h.ids, h.proper, h.minted⟩

theorem otherVersioning (h : Chronicled S root bucket key used vs t) {b : Str}
    (hb' : validateBucketName b = .ok ()) (hne : b ≠ bucket) (status : Str) :
    Chronicled S root bucket key used vs
      ((allUp root).run (setBucketVersioning b status) t).2 := by
  obtain ⟨k, hk, hrec, hoff⟩ := h.kept
  obtain ⟨hk', hdocs⟩ := keeps_setBucketVersioning hb' hb hkey h.docs hk status
  have hmode : modeOf (allUp root) bucket ((allUp root).run (setBucketVersioning b status) t).2 =
      modeOf (allUp root) bucket t :=
    Site.modeOf_spared (meetsE_setBucketVersioning status) versioningRegion_stores
      (fun _ _ => trivial) h.docs fun d => versioningRegion_spares_cfg hb' hb hne (root d)
  exact ⟨⟨k, hk', hrec, fun hzero => hoff (hmode.symm.trans hzero)⟩, hdocs, h.ids, h.proper,
    h.minted⟩

omit hkey in
theorem otherKey (h : Chronicled S root bucket key used vs t) {b k : Str}
    (hb' : validateBucketName b = .ok ()) (hk' : validateKey k = .ok ())
    (happart : ∀ d, Apart ((allUp root).objDir b k d) ((allUp root).objDir bucket key d))
    (c : KeyCall) :
    Chronicled S root bucket key used vs ((allUp root).run (c.prog S b k) t).2 := by
  obtain ⟨kept, hk, hrec, hoff⟩ := h.kept
  have hmode : modeOf (allUp root) bucket ((allUp root).run (c.prog S b k) t).2 =
      modeOf (allUp root) bucket t := modeOf_keyCall hb' hk' hb h.docs c
  exact ⟨⟨kept, keeps_keyCall hb' hk' happart h.docs hk c, hrec, fun hzero =>
    hoff (hmode.symm.trans hzero)⟩, (c.run_mode hb' hk' h.docs).1, h.ids, h.proper, h.minted⟩

omit hb hkey in
theorem minting (h : Chronicled S root bucket key used vs t) (more : List Str) :
    Chronicled S root bucket key (used ++ more) vs t :=
  { h with ids := fun v hv => (h.ids v hv).imp_right (List.mem_append_left _) }

end Chronicled

end

end Kerplace
