/-
# `Kerplace.Erasure.Calls` — what the object calls may touch

One contract for all calls on an object: they write only what belongs to the
object, prune only directories between the bucket and the object, read
besides only the bucket's directory and its versioning status, and store no
history with an id the server did not mint.  Every call on an object keeps to
it, whatever the drives answer, as long as the histories they hold are such.
-/
import Kerplace.Erasure.Multipart
import Kerplace.Storage.Region

namespace Kerplace

open Prog

/-- The ids the server mints for versions. -/
def ProperId (v : Str) : Prop := v = ErasureStore.NULL ∨ ∃ u : Uuid, v = u.text

/-- A history with minted ids only. -/
def ProperHistory (h : VHistory) : Prop := ∀ v ∈ h.versions, ProperId v.versionId

/-- A document that, if it is a history, is a proper one. -/
def ProperDoc (j : Doc) : Prop := ∀ h, j = .history h → ProperHistory h

/-- The files an object's directory holds. -/
def OBJECT_FILES : List Str := [XL_META, PART, PART_TMP, TAGS, RETENTION, LEGALHOLD]

/-- The files of an object. -/
inductive ObjectPath (bucket key : Str) : UnixPath → Prop where
  | file {f : Str} (hf : f ∈ OBJECT_FILES) : ObjectPath bucket key (rObjSidecar bucket key f)
  | history : ObjectPath bucket key (rHistory bucket key)
  | archived {v f : Str} (hv : ProperId v) (hf : f ∈ [XL_META, PART]) :
      ObjectPath bucket key ((rObjV bucket key (some v)).joinStr f)

/-- The directories of an object. -/
inductive ObjectDir (bucket key : Str) : UnixPath → Prop where
  | dir : ObjectDir bucket key (rObject bucket key)
  | versions : ObjectDir bucket key ((rObject bucket key).joinStr VDIR)
  | archive {v : Str} (hv : ProperId v) : ObjectDir bucket key (rObjV bucket key (some v))

/-- The directories of an object's versions. -/
inductive VersionDir (bucket key : Str) : UnixPath → Prop where
  | versions : VersionDir bucket key ((rObject bucket key).joinStr VDIR)
  | archive {v : Str} (hv : ProperId v) : VersionDir bucket key (rObjV bucket key (some v))

theorem VersionDir.object {bucket key : Str} {p : UnixPath} (h : VersionDir bucket key p) :
    ObjectDir bucket key p := by
  cases h with
  | versions => exact .versions
  | archive hv => exact .archive hv

/-- The directories between a bucket and an object in it. -/
inductive PrunePath (bucket key : Str) : UnixPath → Prop where
  | mk {p : UnixPath} (hne : p ≠ rBucket bucket) (hin : p.startsWith (rBucket bucket) = true)
      (habs : p.abs = (rObject bucket key).abs)
      (hup : p.comps <+: (rObject bucket key).comps.dropLast) : PrunePath bucket key p

/-- What works on the object alone. -/
def innerRegion (bucket key : Str) : Region Doc where
  reads := ObjectPath bucket key
  lists _ := False
  writes := ObjectPath bucket key
  trees := ObjectDir bucket key
  prunes _ := False
  stores := ProperDoc
  finds := ProperDoc

/-- What works on the object's files and versions, and leaves its directory. -/
def versionRegion (bucket key : Str) : Region Doc :=
  { innerRegion bucket key with trees := VersionDir bucket key }

/-- What the calls on an object may do on a drive. -/
def objectRegion (bucket key : Str) : Region Doc :=
  { innerRegion bucket key with
    reads := fun p =>
      ObjectPath bucket key p ∨ p = rBucket bucket ∨ p = rBucketCfg bucket VERSIONING
    prunes := PrunePath bucket key }

theorem innerRegion_le (bucket key : Str) :
    (innerRegion bucket key).Le (objectRegion bucket key) where
  reads _ h := .inl h
  lists _ h := h
  writes _ h := h
  trees _ h := h
  prunes _ h := h.elim
  stores _ h := h
  finds _ h := h

theorem versionRegion_le (bucket key : Str) :
    (versionRegion bucket key).Le (objectRegion bucket key) where
  reads _ h := .inl h
  lists _ h := h
  writes _ h := h
  trees _ h := h.object
  prunes _ h := h.elim
  stores _ h := h
  finds _ h := h

/-- The contract of calls that keep to a region and take certain locks. -/
def storeContract (n : Nat) (R : Region Doc) (locks : Str → Prop) :
    Contract (StoreOp n Doc) StoreOp.Ans where
  may
    | .drive _ o => o.Within R
    | .lock name => locks name
    | .unlock name => locks name
  gives
    | .drive _ o, a => o.Finds R a
    | .lock _, _ => True
    | .unlock _, _ => True

/-- The contract of the calls on an object. -/
abbrev objectContract (n : Nat) (bucket key : Str) :
    Contract (StoreOp n Doc) StoreOp.Ans :=
  storeContract n (objectRegion bucket key) (· = ErasureStore.lockName bucket key)

/-- The contract of what works on the object alone, below its lock. -/
abbrev innerContract (n : Nat) (bucket key : Str) :
    Contract (StoreOp n Doc) StoreOp.Ans :=
  storeContract n (innerRegion bucket key) fun _ => False

/-- The contract of what works on the object's files and versions. -/
abbrev versionContract (n : Nat) (bucket key : Str) :
    Contract (StoreOp n Doc) StoreOp.Ans :=
  storeContract n (versionRegion bucket key) fun _ => False

theorem meetsE_within {n : Nat} {R R' : Region Doc} {locks locks' : Str → Prop} {α : Type}
    {p : EStore n α} {Q : α → Prop} (hle : R.Le R') (hlocks : ∀ m, locks m → locks' m)
    (hp : MeetsE (storeContract n R locks) p Q) : MeetsE (storeContract n R' locks') p Q := by
  refine hp.weaken (fun o ho => ?_) fun o a ho ha => ?_
  · cases o with
    | drive d o => exact DriveOp.Within.mono hle ho
    | lock m => exact hlocks m ho
    | unlock m => exact hlocks m ho
  · cases o with
    | drive d o => exact DriveOp.Finds.mono hle ha
    | lock m => trivial
    | unlock m => trivial

namespace ErasureStore

variable {n : Nat} {S : ErasureStore n} {bucket key : Str}

section

variable {R : Region Doc} {locks : Str → Prop}

theorem meets_readDoc {d : Fin n} {rel : UnixPath} (hrel : R.reads rel) :
    Meets ((storeContract n R locks).slot d) (Drive.readDoc rel) fun r =>
      ∀ j, r = some j → R.finds j := by
  refine ⟨hrel, fun a ha j hj => ha j ?_⟩
  cases a with
  | none => cases hj
  | some c =>
      cases c with
      | raw b => cases hj
      | doc j' => rw [Option.some.inj hj]

theorem meets_call {d : Fin n} {o : DriveOp Doc} (ho : o.Within R) :
    Meets ((storeContract n R locks).slot d) (Prog.op o) fun _ => True :=
  ⟨ho, fun _ _ => trivial⟩

theorem meetsE_each {α : Type} {p : Fin n → DriveProg Doc α}
    (hp : ∀ d, Meets ((storeContract n R locks).slot d) (p d) fun _ => True) :
    MeetsE (storeContract n R locks) (eachDrive p) fun _ => True :=
  (meetsE_eachDrive (Q := fun _ _ => True) hp).mono fun _ _ => trivial

theorem meetsE_any {α : Type} {p : Fin n → DriveProg Doc (Option α)}
    (hp : ∀ d, Meets ((storeContract n R locks).slot d) (p d) fun _ => True) :
    MeetsE (storeContract n R locks) (anyDrive p) fun _ => True :=
  (meetsE_anyDrive (Q := fun _ => True) fun d =>
    (hp d).mono fun _ _ _ _ => trivial).mono fun _ _ => trivial

/-! ## Reading -/

theorem meetsE_metaStatAny {rel : UnixPath} (hrel : R.reads rel) :
    MeetsE (storeContract n R locks) (metaStatAny rel) fun _ => True :=
  MeetsE.then (meetsE_any fun _ => meets_call hrel) fun _ => meetsE_pure.2 trivial

theorem meetsE_readCfg {α : Type} {rel : UnixPath} {decode : Doc → Option α}
    (hrel : R.reads rel) :
    MeetsE (storeContract n R locks) (readCfg rel decode) fun _ => True :=
  MeetsE.then (meetsE_any fun _ => meets_call hrel) fun _ => meetsE_pure.2 trivial

/-- The version a path helper is asked for. -/
def ProperVersion (vid : Option Str) : Prop := ∀ v, vid = some v → ProperId v

theorem properVersion_none : ProperVersion none := fun _ h => nomatch h

theorem objectPath_of_version {vid : Option Str} (hv : ProperVersion vid) {f : Str}
    (hf : f ∈ [XL_META, PART]) :
    ObjectPath bucket key ((rObjV bucket key vid).joinStr f) := by
  cases vid with
  | none =>
      refine .file ?_
      simp only [List.mem_cons, List.not_mem_nil, or_false] at hf
      rcases hf with rfl | rfl <;> decide
  | some v => exact .archived (hv v rfl) hf

theorem meetsE_readXlAt {vid : Option Str}
    (hrel : R.reads ((rObjV bucket key vid).joinStr XL_META)) :
    MeetsE (storeContract n R locks) (readXlV bucket key vid) fun _ => True := by
  refine (meetsE_any fun d => ?_).then fun hit => ?_
  · exact (meets_readDoc hrel).bind fun _ _ => trivial
  · cases hit with
    | none => exact meetsE_throw
    | some m => exact meetsE_pure.2 trivial

theorem meetsE_readXlV (hR : ∀ p, ObjectPath bucket key p → R.reads p) {vid : Option Str}
    (hv : ProperVersion vid) :
    MeetsE (storeContract n R locks) (readXlV bucket key vid) fun _ => True :=
  meetsE_readXlAt (hR _ (objectPath_of_version hv (by simp)))

theorem meetsE_readXl (hR : ∀ p, ObjectPath bucket key p → R.reads p) :
    MeetsE (storeContract n R locks) (readXl bucket key) fun _ => True :=
  meetsE_readXlV hR properVersion_none

theorem meetsE_reconstructFrom {partRel : UnixPath} (hrel : R.reads partRel)
    (codec : Codec) (checksums : List (List Str)) (lens : List Nat) :
    ∀ b offset, MeetsE (storeContract n R locks)
      (S.reconstructFrom partRel codec checksums b offset lens) fun _ => True := by
  induction lens with
  | nil => exact fun _ _ => meetsE_pure.2 trivial
  | cons len lens ih =>
      intro b offset
      rw [reconstructFrom]
      refine (meetsE_each fun d => ?_).then fun shards => ?_
      · exact Meets.then (meets_call (o := .readAt _ _ _) hrel) fun _ => trivial
      · split
        · exact (ih _ _).then fun _ => meetsE_pure.2 trivial
        · exact meetsE_pure.2 trivial

theorem meetsE_readBodyAt {vid : Option Str}
    (hrel : R.reads ((rObjV bucket key vid).joinStr PART)) (m : XlMeta) :
    MeetsE (storeContract n R locks) (S.readBody bucket key vid m) fun _ => True := by
  refine MeetsE.then ?_ fun raw => ?_
  · unfold streamingBody
    split
    · exact meetsE_throw
    · exact meetsE_reconstructFrom hrel _ _ _ _ _
  · split
    · split
      · exact meetsE_pure.2 trivial
      · exact meetsE_throw
    · exact meetsE_pure.2 trivial

theorem meetsE_readBody (hR : ∀ p, ObjectPath bucket key p → R.reads p)
    {vid : Option Str} (hv : ProperVersion vid) (m : XlMeta) :
    MeetsE (storeContract n R locks) (S.readBody bucket key vid m) fun _ => True :=
  meetsE_readBodyAt (hR _ (objectPath_of_version hv (by simp))) m

theorem meetsE_getObject (hR : ∀ p, ObjectPath bucket key p → R.reads p) :
    MeetsE (storeContract n R locks) (S.getObject bucket key) fun _ => True :=
  MeetsE.then (meetsE_readXl hR) fun _ =>
    MeetsE.then (meetsE_readBody hR properVersion_none _) fun _ => meetsE_pure.2 trivial

theorem meetsE_headObject (hR : ∀ p, ObjectPath bucket key p → R.reads p) :
    MeetsE (storeContract n R locks) (headObject bucket key) fun _ => True :=
  MeetsE.then (meetsE_readXl hR) fun _ => meetsE_pure.2 trivial

end

theorem objectRegion_reads (p : UnixPath) (hp : ObjectPath bucket key p) :
    (objectRegion bucket key).reads p := .inl hp

theorem outer {α : Type} {p : EStore n α} {Q : α → Prop}
    (hp : MeetsE (innerContract n bucket key) p Q) :
    MeetsE (objectContract n bucket key) p Q :=
  meetsE_within (innerRegion_le bucket key) (fun _ h => h.elim) hp

theorem ofVersions {α : Type} {p : EStore n α} {Q : α → Prop}
    (hp : MeetsE (versionContract n bucket key) p Q) :
    MeetsE (objectContract n bucket key) p Q :=
  meetsE_within (versionRegion_le bucket key) (fun _ h => h.elim) hp

/-! ## Replicated metadata -/

theorem meetsE_metaWriteAll {R : Region Doc} {locks : Str → Prop} {rel dir : UnixPath} {doc : Doc}
    (hdir : rel.parent = some dir) (hd : R.trees dir) (hrel : R.writes rel)
    (hdoc : R.stores doc) :
    MeetsE (storeContract n R locks) (metaWriteAll rel doc) fun _ => True := by
  have hwrite : (DriveOp.write rel (.doc doc)).Within R :=
    ⟨hrel, fun j hj => Content.doc.inj hj ▸ hdoc⟩
  refine (meetsE_each fun d => ?_).then fun ok => ?_
  · rw [hdir]
    refine Meets.then ?_ fun _ => meets_call hwrite
    exact Meets.then (meets_call (o := .createDirAll dir) hd) fun _ => trivial
  · split
    · exact meetsE_throw
    · exact meetsE_pure.2 trivial

/-! ## The sharded write -/

theorem meetsE_writeBlocks {tmpRel : UnixPath} (hrel : ObjectPath bucket key tmpRel)
    (blocks : List Bytes) : ∀ ok sums, MeetsE (innerContract n bucket key)
      (S.writeBlocks tmpRel blocks ok sums) fun _ => True := by
  induction blocks with
  | nil => exact fun _ _ => meetsE_pure.2 trivial
  | cons block blocks ih =>
      intro ok sums
      rw [writeBlocks]
      split
      · exact meetsE_throw
      · refine (meetsE_each fun d => ?_).then fun _ => ih _ _
        split
        · exact meets_call hrel
        · trivial

theorem objectFile {f : Str} (hf : f ∈ OBJECT_FILES) :
    ObjectPath bucket key ((rObject bucket key).joinStr f) := .file hf

theorem meetsE_publishShards (ok : Fin n → Bool) (xl : XlMeta) (audit : VersionAudit) :
    MeetsE (innerContract n bucket key) (S.publishShards bucket key ok xl audit) fun _ =>
      True := by
  have htmp : ObjectPath bucket key ((rObject bucket key).joinStr PART_TMP) :=
    objectFile (by decide)
  have hpart : ObjectPath bucket key ((rObject bucket key).joinStr PART) :=
    objectFile (by decide)
  have hxl : (DriveOp.write ((rObject bucket key).joinStr XL_META) (.doc (.xl xl))).Within
      (innerRegion bucket key) := ⟨objectFile (by decide), fun j hj h hh => by
    rw [← Content.doc.inj hj] at hh
    cases hh⟩
  unfold publishShards
  refine (meetsE_each fun d => ?_).then fun ok => ?_
  · split
    · exact meets_call htmp
    · trivial
  refine (meetsE_each fun d => ?_).then fun ok => ?_
  · split
    · exact meets_call ⟨htmp, hpart⟩
    · trivial
  refine (meetsE_each fun d => ?_).then fun ok => ?_
  · split
    · exact meets_call hxl
    · trivial
  split
  · exact MeetsE.then (meetsE_each fun _ => meets_call .dir) fun _ => meetsE_throw
  · exact meetsE_pure.2 trivial

theorem meetsE_writeSharded (env : CallEnv) (src : Body) (contentType : Str)
    (userMetadata : UserMeta) (encrypted : Bool) (etagOverride : Option Str) :
    MeetsE (innerContract n bucket key) (S.writeSharded env bucket key src contentType
      userMetadata encrypted etagOverride) fun _ => True := by
  have htmp : ObjectPath bucket key ((rObject bucket key).joinStr PART_TMP) :=
    objectFile (by decide)
  unfold writeSharded
  refine (meetsE_each fun d => ?_).then fun ok => ?_
  · refine Meets.then (meets_call .dir) fun _ => ?_
    split
    · exact meets_call htmp
    · trivial
  refine (meetsE_writeBlocks htmp _ _ _).then fun r => ?_
  obtain ⟨ok, checksums⟩ := r
  dsimp only
  split
  · exact MeetsE.then meetsE_throw fun _ => meetsE_publishShards _ _ _
  · exact meetsE_publishShards _ _ _

/-! ## Version bookkeeping -/

theorem bestHistory_mem {found : List (Option VHistory)} {h : VHistory}
    (hh : bestHistory found = some h) : some h ∈ found := by
  have hfold : ∀ (l : List (Option VHistory)) (best : Option VHistory),
      l.foldl newer best = some h → some h ∈ l ∨ best = some h := by
    intro l
    induction l with
    | nil => exact fun best hb => .inr hb
    | cons h? l ih =>
        intro best hb
        rcases ih _ hb with hl | hbest
        · exact .inl (List.mem_cons_of_mem _ hl)
        · cases h? with
          | none => exact .inr hbest
          | some x =>
              cases best with
              | none => exact .inl (hbest ▸ List.mem_cons_self)
              | some y =>
                  dsimp only [newer] at hbest
                  split at hbest
                  · exact .inl (hbest ▸ List.mem_cons_self)
                  · exact .inr hbest
  rw [bestHistory_eq_foldl] at hh
  exact (hfold found none hh).resolve_right nofun

theorem properHistory_eraseIdx {h : VHistory} (hh : ProperHistory h) (i : Nat) :
    ProperHistory { h with versions := h.versions.eraseIdx i } :=
  fun v hv => hh v (List.mem_of_mem_eraseIdx hv)

theorem properHistory_cons {h : VHistory} (hh : ProperHistory h) {v : VEntry}
    (hv : ProperId v.versionId) : ProperHistory { h with versions := v :: h.versions } := by
  intro w hw
  rcases List.mem_cons.1 hw with rfl | hw
  · exact hv
  · exact hh w hw

theorem properId_null : ProperId NULL := .inl rfl

theorem properId_new (env : CallEnv) (mode : VMode) : ProperId (newVersionId env mode) := by
  cases mode with
  | suspended => exact properId_null
  | enabled => exact .inr ⟨_, rfl⟩
  | off => exact .inr ⟨_, rfl⟩

theorem meetsE_readHistory :
    MeetsE (versionContract n bucket key) (readHistory bucket key) ProperHistory := by
  refine MeetsE.bind (R := fun found => ∀ d h, found d = some h → ProperHistory h) ?_
    fun found hfound => meetsE_pure.2 ?_
  · refine meetsE_eachDrive (Q := fun _ r => ∀ h, r = some h → ProperHistory h) fun d =>
      (meets_readDoc (R := versionRegion bucket key) .history).bind fun doc hdoc => ?_
    intro h hh
    obtain ⟨j, hj, hj'⟩ := Option.bind_eq_some_iff.1 hh
    cases j with
    | history h' => cases hj'; exact hdoc _ hj _ rfl
    | _ => cases hj'
  · cases hbest : bestHistory (List.ofFn found) with
    | none => exact fun v hv => nomatch hv
    | some h =>
        obtain ⟨d, hd⟩ := List.mem_ofFn.1 (bestHistory_mem hbest)
        exact hfound d h hd

theorem meetsE_writeHistory {h : VHistory} (hh : ProperHistory h) :
    MeetsE (versionContract n bucket key) (writeHistory bucket key h) fun _ => True :=
  meetsE_metaWriteAll (UnixPath.parent_joinStr_atom (by decide)) .versions .history
    fun _ heq => by cases heq; exact hh

theorem meetsE_hasHistory :
    MeetsE (versionContract n bucket key) (hasHistory bucket key) fun _ => True :=
  meetsE_metaStatAny .history

theorem meetsE_seedLegacyHistory :
    MeetsE (versionContract n bucket key) (seedLegacyHistory bucket key) fun _ => True := by
  refine meetsE_hasHistory.then fun has => ?_
  split
  · exact meetsE_pure.2 trivial
  · refine (meetsE_outcome (meetsE_readXl fun _ h => h)).bind fun r _ => ?_
    cases r with
    | error e => exact meetsE_pure.2 trivial
    | ok m =>
        refine meetsE_writeHistory fun v hv => ?_
        rw [List.mem_singleton.1 hv]
        exact properId_null

theorem archivedFile {v f : Str} (hv : ProperId v) (hf : f ∈ [XL_META, PART]) :
    ObjectPath bucket key ((rObjV bucket key (some v)).joinStr f) := .archived hv hf

theorem meetsE_demoteCurrent {v : Str} (hv : ProperId v) :
    MeetsE (versionContract n bucket key) (demoteCurrent bucket key v) fun _ => True := by
  refine MeetsE.then (meetsE_each fun d => ?_) fun _ => meetsE_pure.2 trivial
  refine Meets.then (meets_call (o := .createDirAll _) (.archive hv)) fun _ => ?_
  refine Meets.then (meets_call (o := .rename _ _)
    ⟨objectFile (by decide), archivedFile hv (by simp)⟩) fun _ => ?_
  exact meets_call (o := .rename _ _) ⟨objectFile (by decide), archivedFile hv (by simp)⟩

theorem meetsE_promoteArchive {v : Str} (hv : ProperId v) :
    MeetsE (versionContract n bucket key) (promoteArchive bucket key v) fun _ => True := by
  refine MeetsE.then (meetsE_each fun d => ?_) fun _ => meetsE_pure.2 trivial
  refine Meets.then (meets_call (o := .rename _ _)
    ⟨archivedFile hv (by simp), objectFile (by decide)⟩) fun _ => ?_
  refine Meets.then (meets_call (o := .rename _ _)
    ⟨archivedFile hv (by simp), objectFile (by decide)⟩) fun _ => ?_
  exact meets_call (o := .removeDir _) (.inr (.archive hv))

theorem meetsE_discardCurrent :
    MeetsE (versionContract n bucket key) (discardCurrent bucket key) fun _ => True := by
  refine MeetsE.then (meetsE_each fun d => ?_) fun _ => meetsE_pure.2 trivial
  refine Meets.then (meets_call (o := .removeFile _) (objectFile (by decide))) fun _ => ?_
  exact meets_call (o := .removeFile _) (objectFile (by decide))

theorem meetsE_removeArchive {v : Str} (hv : ProperId v) :
    MeetsE (versionContract n bucket key) (removeArchive bucket key v) fun _ => True :=
  MeetsE.then (meetsE_each fun _ => meets_call (.archive hv)) fun _ => meetsE_pure.2 trivial

theorem meetsE_purgeNull {mode : VMode} {hist : VHistory} (hh : ProperHistory hist) :
    MeetsE (versionContract n bucket key) (purgeNull bucket key mode hist) fun r =>
      ProperHistory r.1 := by
  unfold purgeNull
  dsimp only
  split
  · exact meetsE_pure.2 hh
  · split
    · exact meetsE_pure.2 hh
    · split
      · exact meetsE_discardCurrent.then fun _ => meetsE_pure.2 (properHistory_eraseIdx hh _)
      · split
        · exact (meetsE_removeArchive properId_null).then fun _ =>
            meetsE_pure.2 (properHistory_eraseIdx hh _)
        · exact meetsE_pure.2 (properHistory_eraseIdx hh _)

theorem meetsE_makeRoom {mode : VMode} {hist : VHistory} (hh : ProperHistory hist) :
    MeetsE (versionContract n bucket key) (makeRoom bucket key mode hist) ProperHistory := by
  refine (meetsE_purgeNull hh).bind fun r hr => ?_
  obtain ⟨hist, occupied⟩ := r
  dsimp only
  split
  · rename_i v _ hvs
    have hv : ProperId v.versionId := hr v (by simp [hvs])
    exact (meetsE_demoteCurrent hv).then fun _ => meetsE_pure.2 hr
  · exact meetsE_pure.2 hr

theorem meetsE_beginVersionedWrite (env : CallEnv) (mode : VMode) :
    MeetsE (versionContract n bucket key) (beginVersionedWrite env bucket key mode) fun r =>
      ProperId r.1 ∧ ProperHistory r.2 := by
  refine meetsE_seedLegacyHistory.then fun _ => ?_
  refine meetsE_readHistory.bind fun hist hh => ?_
  exact (meetsE_makeRoom hh).bind fun hist hh => meetsE_pure.2 ⟨properId_new env mode, hh⟩

theorem meetsE_finishVersionedWrite (env : CallEnv) {hist : VHistory}
    (hh : ProperHistory hist) {vid : Str} (hv : ProperId vid) (etag : Str) (size : Nat)
    (lastModified : Int) :
    MeetsE (versionContract n bucket key) (finishVersionedWrite env bucket key hist vid etag
      size lastModified) fun _ => True :=
  meetsE_writeHistory (properHistory_cons hh hv)

/-! ## Object calls -/

theorem meets_outer {d : Fin n} (o : DriveOp Doc)
    (ho : o.Within (objectRegion bucket key)) :
    Meets ((objectContract n bucket key).slot d) (Prog.op o) fun _ => True :=
  meets_call ho

theorem meetsE_vmode : MeetsE (objectContract n bucket key) (vmode bucket) fun _ => True := by
  refine MeetsE.then ?_ fun _ => meetsE_pure.2 trivial
  refine MeetsE.then (meetsE_each fun d => ?_) fun _ => meetsE_pure.2 trivial
  exact (meets_readDoc (R := objectRegion bucket key) (.inr (.inr rfl))).bind fun _ _ => trivial

theorem meetsE_headBucket :
    MeetsE (objectContract n bucket key) (headBucket bucket) fun _ => True := by
  refine MeetsE.then (meetsE_any fun d => ?_) fun hit => ?_
  · exact Meets.then (meets_outer (.stat _) (.inr (.inl rfl))) fun _ => trivial
  · split
    · exact meetsE_pure.2 trivial
    · exact meetsE_throw

theorem meetsE_ofExcept_true {α : Type} {r : Except S3Error α} :
    MeetsE (objectContract n bucket key) (MonadExcept.ofExcept r : EStore n α) fun _ => True :=
  meetsE_ofExcept.2 fun _ _ => trivial

theorem meetsE_locked {α : Type} {p : EStore n α} {Q : α → Prop}
    (hp : MeetsE (objectContract n bucket key) p Q) :
    MeetsE (objectContract n bucket key) (withLock (lockName bucket key) p) Q :=
  meetsE_withLock rfl rfl hp

theorem meetsE_writeSource (env : CallEnv) (body : Body) (encrypted : Bool) :
    MeetsE (objectContract n bucket key) (S.writeSource env body encrypted) fun _ => True := by
  unfold writeSource
  split
  · split
    · exact meetsE_pure.2 trivial
    · exact meetsE_throw
  · exact meetsE_pure.2 trivial

theorem meetsE_writeVersioned (env : CallEnv) (mode : VMode) (src : Body)
    (contentType : Str) (userMetadata : UserMeta) (encrypted : Bool) :
    MeetsE (objectContract n bucket key) (S.writeVersioned env bucket key mode src
      contentType userMetadata encrypted) fun _ => True := by
  refine (ofVersions (meetsE_beginVersionedWrite env mode)).bind fun r hr => ?_
  obtain ⟨vid, hist⟩ := r
  refine (outer (meetsE_writeSharded _ _ _ _ _ _)).then fun om => ?_
  exact (ofVersions (meetsE_finishVersionedWrite env hr.2 hr.1 _ _ _)).then fun _ =>
    meetsE_pure.2 trivial

theorem meetsE_putObject (env : CallEnv) (body : Body) (contentType : Str)
    (userMetadata : UserMeta) (encrypt : Bool) :
    MeetsE (objectContract n bucket key) (S.putObject env bucket key body contentType
      userMetadata encrypt) fun _ => True := by
  refine meetsE_headBucket.then fun _ => meetsE_ofExcept_true.then fun _ => ?_
  refine meetsE_locked ((meetsE_writeSource _ _ _).then fun src => ?_)
  refine meetsE_vmode.then fun mode => ?_
  split
  · exact outer (meetsE_writeSharded _ _ _ _ _ _)
  · exact meetsE_writeVersioned _ _ _ _ _ _

/-- Pruning stays between the bucket and the object. -/
theorem meets_pruneEmpty {d : Fin n} (rounds : Nat) : ∀ p : UnixPath,
    p.abs = (rObject bucket key).abs → p.comps <+: (rObject bucket key).comps.dropLast →
    Meets ((objectContract n bucket key).slot d)
      (Drive.pruneEmpty (rBucket bucket) rounds p) fun _ => True := by
  induction rounds with
  | zero => exact fun _ _ _ => trivial
  | succ rounds ih =>
      intro p habs hup
      rw [Drive.pruneEmpty]
      split
      · rename_i hgo
        simp only [Bool.and_eq_true, decide_eq_true_eq] at hgo
        refine Meets.then (meets_outer (.removeDir p) (.inl ⟨hgo.1, hgo.2, habs, hup⟩))
          fun gone => ?_
        split
        · cases hpar : p.parent with
          | none => trivial
          | some q =>
              have hq : q = ⟨p.abs, p.comps.dropLast⟩ := by
                unfold UnixPath.parent at hpar
                split at hpar
                · cases hpar
                · exact (Option.some.inj hpar).symm
              subst hq
              exact ih _ habs ((List.dropLast_prefix _).trans hup)
        · trivial
      · trivial

theorem meets_removeObjectDir {d : Fin n} :
    Meets ((objectContract n bucket key).slot d) (removeObjectDir bucket key) fun _ =>
      True := by
  refine Meets.then (meets_outer (.removeDirAll _) .dir) fun _ => ?_
  cases hpar : (rObject bucket key).parent with
  | none => trivial
  | some p =>
      unfold UnixPath.parent at hpar
      split at hpar
      · cases hpar
      · cases hpar
        exact meets_pruneEmpty _ _ rfl (List.prefix_refl _)

theorem meetsE_deleteObject (env : CallEnv) :
    MeetsE (objectContract n bucket key) (deleteObject env bucket key) fun _ => True := by
  refine meetsE_headBucket.then fun _ => meetsE_locked (meetsE_vmode.then fun mode => ?_)
  split
  · refine (ofVersions meetsE_seedLegacyHistory).then fun _ =>
      (ofVersions meetsE_readHistory).bind fun hist hh => ?_
    refine (ofVersions (meetsE_makeRoom hh)).bind fun hist hh => ?_
    exact (ofVersions (meetsE_writeHistory (properHistory_cons hh (properId_new env mode)))).then
      fun _ => meetsE_pure.2 trivial
  · exact MeetsE.then (meetsE_each fun _ => meets_removeObjectDir) fun _ =>
      meetsE_pure.2 trivial

theorem properId_of_findIdx {h : VHistory} (hh : ProperHistory h) {v : Str} {i : Nat}
    (hi : h.versions.findIdx? (fun e => e.versionId = v) = some i) : ProperId v := by
  obtain ⟨hlt, hv, -⟩ := List.findIdx?_eq_some_iff_getElem.1 hi
  rw [← of_decide_eq_true hv]
  exact hh _ (List.getElem_mem hlt)

theorem meetsE_findVersion (v : Str) :
    MeetsE (versionContract n bucket key) (findVersion bucket key v) ProperVersion := by
  refine meetsE_seedLegacyHistory.then fun _ => meetsE_readHistory.bind fun hist hh => ?_
  split
  · exact meetsE_throw
  · rename_i idx hidx
    split
    · exact meetsE_throw
    · refine meetsE_pure.2 ?_
      split
      · exact properVersion_none
      · intro w hw
        rw [← Option.some.inj hw]
        exact properId_of_findIdx hh hidx

theorem meetsE_locateVersion (v : Str) :
    MeetsE (objectContract n bucket key) (locateVersion bucket key v) ProperVersion :=
  meetsE_headBucket.then fun _ => ofVersions (meetsE_findVersion v)

theorem meetsE_getObjectVersion (v : Str) :
    MeetsE (objectContract n bucket key) (S.getObjectVersion bucket key v) fun _ => True :=
  (meetsE_locateVersion v).bind fun _ hv =>
    (meetsE_readXlV objectRegion_reads hv).then fun _ =>
      (meetsE_readBody objectRegion_reads hv _).then fun _ => meetsE_pure.2 trivial

theorem meetsE_headObjectVersion (v : Str) :
    MeetsE (objectContract n bucket key) (headObjectVersion bucket key v) fun _ => True :=
  (meetsE_locateVersion v).bind fun _ hv =>
    (meetsE_readXlV objectRegion_reads hv).then fun _ => meetsE_pure.2 trivial

theorem meetsE_dropStored {v : Str} (hv : ProperId v) (idx : Nat) (marker : Bool) :
    MeetsE (versionContract n bucket key) (dropStored bucket key v idx marker) fun _ =>
      True := by
  unfold dropStored
  split
  · exact meetsE_pure.2 trivial
  · split
    · exact meetsE_discardCurrent
    · exact meetsE_removeArchive hv

theorem meetsE_promoteNext (idx : Nat) {rest : List VEntry}
    (hrest : ∀ v ∈ rest, ProperId v.versionId) :
    MeetsE (versionContract n bucket key) (promoteNext bucket key idx rest) fun _ => True := by
  unfold promoteNext
  split
  · split
    · exact meetsE_pure.2 trivial
    · exact meetsE_promoteArchive (hrest _ List.mem_cons_self)
  · exact meetsE_pure.2 trivial

theorem meetsE_settleHistory {rest : VHistory} (hrest : ProperHistory rest) :
    MeetsE (objectContract n bucket key) (settleHistory bucket key rest) fun _ => True := by
  unfold settleHistory
  split
  · exact MeetsE.then (meetsE_each fun _ => meets_removeObjectDir) fun _ =>
      meetsE_pure.2 trivial
  · exact ofVersions (meetsE_writeHistory hrest)

theorem meetsE_deleteObjectVersion (v : Str) :
    MeetsE (objectContract n bucket key) (deleteObjectVersion bucket key v) fun _ => True := by
  refine meetsE_headBucket.then fun _ => meetsE_locked ?_
  refine (ofVersions meetsE_seedLegacyHistory).then fun _ =>
    (ofVersions meetsE_readHistory).bind fun hist hh => ?_
  split
  · exact meetsE_throw
  rename_i idx hidx
  have hrest := properHistory_eraseIdx hh idx
  refine (ofVersions (meetsE_dropStored (properId_of_findIdx hh hidx) _ _)).then fun _ => ?_
  refine (ofVersions (meetsE_promoteNext _ hrest)).then fun _ => ?_
  exact (meetsE_settleHistory hrest).then fun _ => meetsE_pure.2 trivial

/-! ## Sidecars -/

theorem meetsE_setSidecar {file : Str} (hf : file ∈ OBJECT_FILES)
    (hatom : UnixPath.Atom file) {doc : Doc} (hdoc : ProperDoc doc) :
    MeetsE (innerContract n bucket key) (setSidecar bucket key file doc) fun _ => True :=
  MeetsE.then (meetsE_headObject fun _ h => h) fun _ =>
    meetsE_metaWriteAll (UnixPath.parent_joinStr_atom hatom) .dir (.file hf) hdoc

end ErasureStore

/-! ## Copies -/

/-- What a copy may do: read the source, and on the destination what a put may. -/
def copyRegion (srcBucket srcKey bucket key : Str) : Region Doc :=
  { objectRegion bucket key with
    reads := fun p => ObjectPath srcBucket srcKey p ∨ (objectRegion bucket key).reads p }

theorem objectRegion_le_copy (srcBucket srcKey bucket key : Str) :
    (objectRegion bucket key).Le (copyRegion srcBucket srcKey bucket key) where
  reads _ h := .inr h
  lists _ h := h
  writes _ h := h
  trees _ h := h
  prunes _ h := h
  stores _ h := h
  finds _ h := h

theorem ErasureStore.meetsE_copyObject {n : Nat} {S : ErasureStore n} (env : CallEnv)
    (srcBucket srcKey bucket key : Str) (encrypt : Bool) :
    MeetsE (storeContract n (copyRegion srcBucket srcKey bucket key)
      (· = lockName bucket key)) (S.copyObject env srcBucket srcKey bucket key encrypt)
      fun _ => True :=
  MeetsE.then (meetsE_getObject fun _ => Or.inl) fun _ =>
    meetsE_within (objectRegion_le_copy _ _ _ _) (fun _ => id) (meetsE_putObject _ _ _ _ _)

/-! ## Uploads -/

/-- The files of the uploads with ids in `I`. -/
inductive UploadPath (I : Str → Prop) : UnixPath → Prop where
  | file {u f : Str} (hu : I u) : UploadPath I ((rUpload u).joinStr f)

/-- The directories of the uploads with ids in `I`. -/
inductive UploadDir (I : Str → Prop) : UnixPath → Prop where
  | dir {u : Str} (hu : I u) : UploadDir I (rUpload u)

/-- What staging uploads with ids in `I` may do on a drive. -/
def uploadRegion (I : Str → Prop) (bucket : Str) : Region Doc where
  reads p := UploadPath I p ∨ UploadDir I p ∨ p = rBucket bucket ∨ p = ⟨false, []⟩
  lists _ := False
  writes := UploadPath I
  trees := UploadDir I
  prunes _ := False
  stores := ProperDoc
  finds _ := True

namespace ErasureStore

variable {n : Nat} {S : ErasureStore n} {bucket key : Str}

theorem meetsE_at {R : Region Doc} {locks : Str → Prop} {d : Fin n} (o : DriveOp Doc)
    (ho : o.Within R) :
    MeetsE (storeContract n R locks) (atDrive d (Prog.op o)) fun _ => True :=
  meetsE_atDrive.2 (meets_call ho)

/-- An id `create_multipart` makes: the staging drive, then a fresh one. -/
def MintedUpload (n : Nat) (u : Str) : Prop :=
  ∃ (d : Fin n) (v : Uuid), u = hexDigit (d.val / 16) :: hexDigit (d.val % 16) :: v.text

theorem meetsE_createMultipart (env : CallEnv) (contentType : Str)
    (userMetadata : UserMeta) (encrypt : Bool) {locks : Str → Prop} :
    MeetsE (storeContract n (uploadRegion (MintedUpload n) bucket) locks)
      (S.createMultipart env bucket key contentType userMetadata encrypt)
      (MintedUpload n) := by
  have hhead : MeetsE (storeContract n (uploadRegion (MintedUpload n) bucket) locks)
      (headBucket bucket) fun _ => True := by
    refine MeetsE.then (meetsE_any fun d => ?_) fun hit => ?_
    · exact Meets.then (meets_call (o := .stat (rBucket bucket)) (.inr (.inr (.inl rfl))))
        fun _ => trivial
    · split
      · exact meetsE_pure.2 trivial
      · exact meetsE_throw
  refine hhead.then fun _ => MeetsE.then (meetsE_ofExcept.2 fun _ _ => trivial) fun _ => ?_
  refine MeetsE.then (meetsE_any fun d => ?_) fun stage => ?_
  · exact Meets.then (meets_call (o := .online) (.inr (.inr (.inr rfl)))) fun _ => trivial
  cases stage with
  | none => exact meetsE_throw
  | some d =>
      dsimp only
      have hminted : MintedUpload n
          (hexDigit (d.val / 16) :: hexDigit (d.val % 16) :: env.freshId.text) :=
        ⟨d, env.freshId, rfl⟩
      refine MeetsE.then (meetsE_orFail (meetsE_at (.createDirAll _)
        (UploadDir.dir hminted))) fun _ => ?_
      refine MeetsE.then (meetsE_orFail (meetsE_at (.write _ _)
        ⟨UploadPath.file hminted, ?_⟩)) fun _ => meetsE_pure.2 hminted
      exact fun j hj h hh => by cases hj; cases hh

theorem meetsE_map {ε α β : Type} {Op : Type} {Ans : Op → Type} {C : Contract Op Ans}
    {p : ExceptT ε (Prog Op Ans) α} {f : α → β} (hp : MeetsE C p fun _ => True) :
    MeetsE C (f <$> p) fun _ => True := by
  rw [map_eq_pure_bind]
  exact hp.then fun _ => meetsE_pure.2 trivial

theorem properDoc_part (m : PartMeta) : ProperDoc (.part m) := fun _ hh => nomatch hh

section

variable {u : Str}

theorem meetsE_assembleParts (sd : Fin n) (parts : List CompletedPart) {R : Region Doc}
    {locks : Str → Prop} (hreads : ∀ f, R.reads ((rUpload u).joinStr f))
    (hwrites : R.writes ((rUpload u).joinStr ASSEMBLY)) :
    MeetsE (storeContract n R locks) (assembleParts sd (rUpload u) parts) fun _ => True := by
  induction parts with
  | nil => exact meetsE_pure.2 trivial
  | cons part parts ih =>
      refine MeetsE.then ?_ fun _ => ih.then fun _ => meetsE_pure.2 trivial
      refine MeetsE.then (meetsE_at (.read _) (hreads _)) fun c => ?_
      split
      · exact meetsE_throw
      split
      · exact meetsE_throw
      split
      · exact meetsE_throw
      split
      · exact meetsE_throw
      refine MeetsE.then (meetsE_at (.read _) (hreads _)) fun payload => ?_
      split
      · exact meetsE_throw
      · exact MeetsE.then (meetsE_orFail (meetsE_at (.append _ _) hwrites))
          fun _ => meetsE_pure.2 trivial

theorem meetsE_assemble (sd : Fin n) (parts : List CompletedPart) {R : Region Doc}
    {locks : Str → Prop} (hreads : ∀ f, R.reads ((rUpload u).joinStr f))
    (hwrites : R.writes ((rUpload u).joinStr ASSEMBLY)) :
    MeetsE (storeContract n R locks) (S.assemble sd (rUpload u) parts) fun _ => True := by
  refine MeetsE.then (meetsE_orFail (meetsE_at (.create _) hwrites))
    fun _ => ?_
  refine (meetsE_assembleParts sd parts hreads hwrites).then fun digests => ?_
  refine MeetsE.then (meetsE_orFail (meetsE_at (.shutdown _) hwrites))
    fun _ => ?_
  refine MeetsE.then (meetsE_at (.read _) (hreads _)) fun plain => ?_
  split
  · exact meetsE_throw
  · exact meetsE_pure.2 trivial

end

end ErasureStore

end Kerplace
