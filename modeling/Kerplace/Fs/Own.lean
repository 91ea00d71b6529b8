/-
# `Kerplace.Fs.Own` — what a call of the filesystem store looks at

A call on a key looks at the key's own files and at the bucket's versioning, and a copy at its
source.  What a delete answers does not depend on what its pruning finds.
-/
import Kerplace.Fs.Isolation
import Kerplace.Storage.Files

namespace Kerplace

open Prog

namespace FsStore

/-- The files of a call on a key: `W` has those it may change, `F` those it looks at. -/
structure Owns (W F : UnixPath → Prop) (bucket key : Str) : Prop where
  writes : ∀ k : FileKind, k.Proper → W (keyPath bucket key k)
  looks : ∀ k : FileKind, k.Proper → F (keyPath bucket key k)
  config : F (bucketCfgFile bucket VERSIONING)

/-- The contract of calls on keys of a bucket. -/
abbrev bucketContract (bucket : Str) (W F : UnixPath → Prop) :
    Contract (DriveOp FsDoc) DriveOp.Ans := ownContract (bucketPath bucket) W F ProperFsDoc

section

variable {S : FsStore} {W F : UnixPath → Prop} {bucket key : Str}

theorem own_op {o : DriveOp FsDoc} (ho : (bucketContract bucket W F).may o) :
    Meets (bucketContract bucket W F) (Prog.op o) fun _ => True := ⟨ho, fun _ _ => trivial⟩

theorem own_do {o : DriveOp FsDoc} (ho : (bucketContract bucket W F).may o) :
    MeetsE (bucketContract bucket W F) (onDisk (Prog.op o)) fun _ => True :=
  meetsE_lift.2 (own_op ho)

theorem own_orFail {e : S3Error} {p : DriveProg FsDoc Bool}
    (hp : Meets (bucketContract bucket W F) p fun _ => True) :
    MeetsE (bucketContract bucket W F) (orFail e p) fun _ => True := by
  refine MeetsE.then (meetsE_lift.2 hp) fun ok => ?_
  split
  · exact meetsE_pure.2 trivial
  · exact meetsE_throw

theorem own_mkParent {p : UnixPath} (hp : W p) :
    Meets (bucketContract bucket W F) (mkParent p) fun _ => True := by
  unfold mkParent
  split
  · rename_i dir hdir
    exact own_op (o := .createDirAll dir) ⟨⟨p, hp, hdir⟩, trivial⟩
  · trivial

theorem own_writeDoc {mkdirErr writeErr : S3Error} {p : UnixPath} {doc : FsDoc} (hp : W p)
    (hdoc : ProperFsDoc doc) :
    MeetsE (bucketContract bucket W F) (writeDoc mkdirErr writeErr p doc) fun _ => True := by
  refine (own_orFail (own_mkParent hp)).then fun _ => own_orFail ?_
  refine own_op (o := .write p (.doc doc)) ⟨⟨hp, fun j hj => ?_⟩, trivial⟩
  cases hj
  exact hdoc

theorem own_readDoc {p : UnixPath} (hp : F p) :
    MeetsE (bucketContract bucket W F) (onDisk (Drive.readDoc p)) fun r =>
      ∀ j, r = some j → ProperFsDoc j := by
  refine meetsE_lift.2 ⟨⟨trivial, hp⟩, fun a ha j hj => ha j ?_⟩
  cases a with
  | none => cases hj
  | some c =>
      cases c with
      | raw b => cases hj
      | doc j' => rw [Option.some.inj hj]

theorem own_headBucket : MeetsE (bucketContract bucket W F) (headBucket bucket) fun _ => True :=
  own_orFail (Meets.then (own_op (o := .stat _) ⟨trivial, .inr rfl⟩) fun _ => trivial)

theorem own_readStored {b k : Str} (h : ∀ kind : FileKind, kind.Proper → F (keyPath b k kind)) :
    MeetsE (bucketContract bucket W F) (S.readStored b k) fun _ => True := by
  refine (own_do (o := .read _) ⟨trivial, h .payload trivial⟩).then fun payload => ?_
  split
  · exact meetsE_throw
  · refine MeetsE.then ((own_readDoc (h .metadata trivial)).mono fun _ _ => trivial) fun doc => ?_
    split <;> exact meetsE_pure.2 trivial

theorem own_writeSource {env : CallEnv} {body : Body} {encrypted : Bool} :
    MeetsE (bucketContract bucket W F) (S.writeSource env body encrypted) fun _ => True := by
  unfold writeSource
  split
  · split
    · exact meetsE_pure.2 trivial
    · exact meetsE_throw
  · exact meetsE_pure.2 trivial

theorem own_readPayload {p : UnixPath} {missing decryptErr : S3Error} {encrypted : Bool}
    (hp : F p) :
    MeetsE (bucketContract bucket W F) (S.readPayload p missing decryptErr encrypted)
      fun _ => True := by
  refine (own_do (o := .read p) ⟨trivial, hp⟩).then fun c => ?_
  split
  · exact meetsE_throw
  · split
    · exact meetsE_pure.2 trivial
    · exact meetsE_throw

theorem own_streamToTemp {env : CallEnv} {tmp : UnixPath} {body : Body} {needMd5 : Bool}
    (htmp : W tmp) :
    MeetsE (bucketContract bucket W F) (S.streamToTemp env tmp body needMd5) fun _ => True :=
  (own_orFail (own_op (o := .create tmp) ⟨htmp, trivial⟩)).then fun _ =>
    (own_orFail (own_op (o := .append tmp _) ⟨htmp, trivial⟩)).then fun _ =>
      MeetsE.then (own_orFail (p := pure !body.err) trivial) fun _ =>
        (own_orFail (own_op (o := .shutdown tmp) ⟨trivial, trivial⟩)).then fun _ =>
          meetsE_pure.2 trivial

variable (h : Owns W F bucket key)
include h

theorem own_versioningMode :
    MeetsE (bucketContract bucket W F) (versioningMode bucket) fun _ => True :=
  MeetsE.then ((own_readDoc h.config).mono fun _ _ => trivial) fun _ => meetsE_pure.2 trivial

theorem own_readHistory :
    MeetsE (bucketContract bucket W F) (readHistory bucket key) ProperVersions := by
  refine (own_readDoc (h.looks .history trivial)).bind fun doc hdoc => meetsE_pure.2 ?_
  cases doc with
  | none => exact fun _ hv => absurd hv List.not_mem_nil
  | some j =>
      cases j with
      | history hist => exact hdoc _ rfl hist rfl
      | _ => exact fun _ hv => absurd hv List.not_mem_nil

theorem own_writeHistory {hist : VersionHistory} (hh : ProperVersions hist) :
    MeetsE (bucketContract bucket W F) (writeHistory bucket key hist) fun _ => True :=
  own_writeDoc (h.writes .history trivial) fun _ h0 => by
    cases h0
    exact hh

theorem own_seed : MeetsE (bucketContract bucket W F) (S.seedLegacyHistory bucket key)
    fun _ => True := by
  refine MeetsE.then (meetsE_lift.2 (Meets.then (own_op (o := .stat _)
    ⟨trivial, .inl (h.looks .history trivial)⟩) fun _ => trivial)) fun has => ?_
  split
  · exact meetsE_pure.2 trivial
  · refine MeetsE.then (meetsE_lift.2 (Meets.mono (own_readStored h.looks) fun _ _ => trivial))
      fun r => ?_
    cases r with
    | error e => exact meetsE_pure.2 trivial
    | ok m =>
        refine own_writeHistory h fun v hv => ?_
        rw [List.mem_singleton] at hv
        exact .inl (hv ▸ rfl)

theorem own_demote {vid : Str} (hv : ProperId vid) :
    MeetsE (bucketContract bucket W F) (demoteCanonical bucket key vid) fun _ => True := by
  have hdata := h.writes (.archivedData vid) hv
  have hmeta := h.writes (.archivedMeta vid) hv
  refine (own_orFail (own_mkParent hdata)).then fun _ => ?_
  refine (own_orFail (own_op (o := .rename _ _)
    ⟨⟨h.writes .payload trivial, hdata⟩, trivial⟩)).then fun _ => ?_
  exact (own_do (o := .rename _ _) ⟨⟨h.writes .metadata trivial, hmeta⟩, trivial⟩).then
    fun _ => meetsE_pure.2 trivial

theorem own_discard :
    MeetsE (bucketContract bucket W F) (discardCanonical bucket key) fun _ => True :=
  (own_do (o := .removeFile _) ⟨h.writes .payload trivial, trivial⟩).then fun _ =>
    (own_do (o := .removeFile _) ⟨h.writes .metadata trivial, trivial⟩).then fun _ =>
      meetsE_pure.2 trivial

theorem own_removeArchive {vid : Str} (hv : ProperId vid) :
    MeetsE (bucketContract bucket W F) (removeArchive bucket key vid) fun _ => True :=
  (own_do (o := .removeFile _) ⟨h.writes (.archivedData vid) hv, trivial⟩).then fun _ =>
    (own_do (o := .removeFile _) ⟨h.writes (.archivedMeta vid) hv, trivial⟩).then fun _ =>
      meetsE_pure.2 trivial

theorem own_purgeNull {mode : VMode} {hist : VersionHistory} (hh : ProperVersions hist) :
    MeetsE (bucketContract bucket W F) (purgeNull bucket key mode hist) fun r =>
      ProperVersions r.1 := by
  unfold purgeNull
  dsimp only
  split
  · exact meetsE_pure.2 hh
  · split
    · exact meetsE_pure.2 hh
    · have hrest := fun idx => properVersions_eraseIdx hh idx
      split
      · exact (own_discard h).then fun _ => meetsE_pure.2 (hrest _)
      · split
        · exact (own_removeArchive h (.inl rfl)).then fun _ => meetsE_pure.2 (hrest _)
        · exact meetsE_pure.2 (hrest _)

theorem own_makeRoom {mode : VMode} {hist : VersionHistory} (hh : ProperVersions hist) :
    MeetsE (bucketContract bucket W F) (makeRoom bucket key mode hist) ProperVersions := by
  unfold makeRoom
  refine (own_purgeNull h hh).bind fun r hr => ?_
  obtain ⟨hist, occupied⟩ := r
  dsimp only
  split
  · rename_i v vs hvs
    refine (own_demote h (hr v ?_)).then fun _ => meetsE_pure.2 hr
    rw [hvs]
    exact List.mem_cons_self
  · exact meetsE_pure.2 hr

theorem own_beginWrite {env : CallEnv} {mode : VMode} :
    MeetsE (bucketContract bucket W F) (S.beginWrite env bucket key mode)
      (fun pending => ∀ r, pending = some r → ProperId r.1 ∧ ProperVersions r.2) := by
  unfold beginWrite
  split
  · exact meetsE_pure.2 fun _ h0 => by cases h0
  · rw [map_eq_pure_bind]
    refine MeetsE.bind (R := fun r => ProperId r.1 ∧ ProperVersions r.2) ?_ fun r hr =>
      meetsE_pure.2 fun r' h0 => ?_
    · refine (own_seed h).then fun _ => (own_readHistory h).bind fun hist hh => ?_
      exact (own_makeRoom h hh).bind fun hist' hh' =>
        meetsE_pure.2 ⟨properId_new env mode, hh'⟩
    · cases h0
      exact hr

theorem own_finishWrite {pending : Option (Str × VersionHistory)} {etag : Str} {size : Nat}
    {now : Int} (hp : ∀ r, pending = some r → ProperId r.1 ∧ ProperVersions r.2) :
    MeetsE (bucketContract bucket W F) (finishWrite bucket key pending etag size now)
      fun _ => True := by
  unfold finishWrite
  split
  · rename_i vid hist
    refine own_writeHistory h fun v hmem => ?_
    rcases List.mem_cons.1 hmem with rfl | hmem
    · exact (hp _ rfl).1
    · exact (hp _ rfl).2 v hmem
  · exact meetsE_pure.2 trivial

theorem own_install {env : CallEnv} {tmp : UnixPath} {etag : Str} {size : Nat}
    {contentType : Str} {userMetadata : UserMeta} {encrypted : Bool} (htmp : W tmp) :
    MeetsE (bucketContract bucket W F) (S.install env bucket key tmp etag size contentType
      userMetadata encrypted (pure ())) fun _ => True := by
  refine (own_versioningMode h).then fun mode => ?_
  refine (own_beginWrite h).bind fun pending hp => ?_
  refine MeetsE.then ((own_orFail (own_mkParent (h.writes .payload trivial))).then fun _ =>
    own_orFail (own_op (o := .rename _ _) ⟨⟨htmp, h.writes .payload trivial⟩, trivial⟩))
    fun _ => ?_
  refine (own_writeDoc (h.writes .metadata trivial) fun _ h0 => by cases h0).then fun _ => ?_
  refine MeetsE.then (meetsE_lift.2 trivial) fun _ => ?_
  exact (own_finishWrite h hp).then fun _ => meetsE_pure.2 trivial

theorem own_putObject {env : FsEnv} {body : Body} {contentType : Str}
    {userMetadata : UserMeta} {encrypt : Bool} (htmp : W (tmpFile env.tmpId)) :
    MeetsE (bucketContract bucket W F)
      (S.putObject env bucket key body contentType userMetadata encrypt) fun _ => True := by
  refine own_headBucket.then fun _ => ?_
  refine MeetsE.then (meetsE_ofExcept.2 fun _ _ => trivial) fun _ => ?_
  exact own_writeSource.then fun src => (own_streamToTemp htmp).then fun r => own_install h htmp

theorem own_copyObject {env : FsEnv} {srcBucket srcKey : Str} {encrypt : Bool}
    (htmp : W (tmpFile env.tmpId))
    (hsrc : ∀ k : FileKind, k.Proper → F (keyPath srcBucket srcKey k)) :
    MeetsE (bucketContract bucket W F)
      (S.copyObject env srcBucket srcKey bucket key encrypt) fun _ => True := by
  refine (own_readStored hsrc).then fun src => own_headBucket.then fun _ => ?_
  refine MeetsE.then (meetsE_ofExcept.2 fun _ _ => trivial) fun _ => ?_
  refine (own_readPayload (hsrc .payload trivial)).then fun plain => own_writeSource.then
    fun src => ?_
  exact (own_streamToTemp htmp).then fun r => own_install h htmp

theorem own_removeSidecars {suffixes : List Str} (hs : ∀ s ∈ suffixes, s ∈ SIDECARS) :
    MeetsE (bucketContract bucket W F) (removeSidecars bucket key suffixes) fun _ => True := by
  induction suffixes with
  | nil => exact meetsE_pure.2 trivial
  | cons s suffixes ih =>
      refine (own_do (o := .removeFile _)
        ⟨h.writes (.sidecar s) (hs s List.mem_cons_self), trivial⟩).then fun _ => ?_
      exact ih fun s' hs' => hs s' (List.mem_cons_of_mem _ hs')

omit h in
theorem settles_of_own {α : Type} {root : List Str} {p : FStore α}
    (hp : MeetsE (bucketContract bucket W F) p fun _ => True) :
    Settles (bucketContract bucket W F) DriveOp.IsPrune (fileStep root (bucketPath bucket))
      p.run := by
  have hset : Settles (bucketContract bucket W F) DriveOp.IsPrune
      (fileStep root (bucketPath bucket)) (p.run >>= Prog.ret) :=
    Meets.settles own_not_prune hp fun _ _ => trivial
  rwa [Prog.bind_ret] at hset

omit h in
theorem settles_pruneParent {α : Type} {root : List Str} (p stop : UnixPath)
    {f : Unit → FStore α}
    (hf : Settles (bucketContract bucket W F) DriveOp.IsPrune
      (fileStep root (bucketPath bucket)) (f ()).run) :
    Settles (bucketContract bucket W F) DriveOp.IsPrune (fileStep root (bucketPath bucket))
      (pruneParent p stop >>= f).run := by
  unfold pruneParent
  split
  · rename_i dir hdir
    have hrun : (pruneEmptyDirs dir stop >>= f).run =
        Drive.pruneEmpty stop (dir.comps.length + 1) dir >>= fun u => (f u).run := by
      show (Drive.pruneEmpty stop (dir.comps.length + 1) dir >>= fun a =>
        Prog.ret (Except.ok a)) >>= ExceptT.bindCont f = _
      rw [Prog.bind_assoc]
      rfl
    rw [hrun]
    exact settles_prune hf _ _ _
  · exact hf

/-- A delete settles: what it prunes makes no difference to it. -/
theorem settles_deleteObject {root : List Str} {env : CallEnv} :
    Settles (bucketContract bucket W F) DriveOp.IsPrune (fileStep root (bucketPath bucket))
      (S.deleteObject env bucket key).run := by
  refine own_headBucket.settles own_not_prune fun _ _ => ?_
  refine (own_versioningMode h).settles own_not_prune fun mode _ => ?_
  split
  · refine settles_of_own ((own_seed h).then fun _ => (own_readHistory h).bind fun hist hh => ?_)
    refine (own_makeRoom h hh).bind fun hist' hh' => ?_
    refine (own_writeHistory h fun v hmem => ?_).then fun _ => meetsE_pure.2 trivial
    rcases List.mem_cons.1 hmem with rfl | hmem
    · exact properId_new env mode
    · exact hh' v hmem
  · refine (own_do (o := .removeFile _) ⟨h.writes .payload trivial, trivial⟩).settles
      own_not_prune fun _ _ => ?_
    refine (own_do (o := .removeFile _) ⟨h.writes .metadata trivial, trivial⟩).settles
      own_not_prune fun _ _ => ?_
    refine (own_removeSidecars h fun _ h0 => h0).settles own_not_prune fun _ _ => ?_
    exact settles_pruneParent _ _ (settles_pruneParent _ _ trivial)

end

end FsStore

end Kerplace
