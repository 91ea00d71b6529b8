/-
# `Kerplace.Fs.Puts` — what an acknowledged put leaves

A put that answers has staged its body, moved it to the key's payload and written the key's
metadata, in any versioning mode.  Nothing is asked of what was there before: what was in the
way would have failed the put.
-/
import Kerplace.Fs.Copies
import Kerplace.Fs.Own

namespace Kerplace

open FileTree Prog UnixPath

namespace FsStore

variable {S : FsStore} {root : List Str} {bucket key : Str} {t t' : Tree FsDoc}

theorem keeps_of_own {α : Type} {p : FStore α} {Q : α → Prop} (ht : DocsIn ProperFsDoc t)
    (hp : MeetsE (bucketContract bucket (KeyFile bucket key) fun _ => True) p Q) :
    DocsIn ProperFsDoc (after root p t) ∧
      ∀ q, (∀ k : FileKind, k.Proper → ¬ place root bucket key k <+: q) →
        (after root p t).file? q = t.file? q := by
  have hwrites : MeetsE (fsContract (KeyFile bucket key)) p Q :=
    hp.weaken (fun _ ho => ho.1) fun _ _ _ ha => ha
  refine (LocalDrive.run_writes hwrites ht).imp id fun hfiles q hq => hfiles q ?_
  rintro _ ⟨k, hk, rfl⟩
  exact hq k hk

theorem owns_key : Owns (KeyFile bucket key) (fun _ => True) bucket key :=
  ⟨fun k hk => ⟨k, hk, rfl⟩, fun _ _ => trivial, trivial⟩

/-! ## Steps that succeeded -/

theorem orFail_ok {e : S3Error} {p : DriveProg FsDoc Bool} {u : Unit}
    (hok : result root (orFail e p) t = .ok u) :
    (p.exec (LocalDrive.step root) t).1 = true := by
  unfold result at hok
  rw [run_orFail] at hok
  by_contra hfail
  rw [if_neg hfail] at hok
  cases hok

theorem attempt_ok {r : Option (Tree FsDoc)} (h : (LocalDrive.attempt t r).1 = true) :
    r = some (LocalDrive.attempt t r).2 := by
  cases r with
  | none => cases h
  | some t' => rfl

theorem files_mkParent (p : UnixPath) (q : List Str) :
    ((mkParent p).exec (LocalDrive.step root) t).2.file? q = t.file? q := by
  unfold mkParent
  split
  · rename_i dir hdir
    rw [LocalDrive.exec_createDirAll]
    cases hmk : t.createDirAll (dir.resolve root) with
    | none => rfl
    | some t₁ => exact file?_createDirAll hmk q
  · rfl

theorem moved_ok {tmp dest : UnixPath} {c : Content FsDoc} {u : Unit}
    (hne : tmp.resolve root ≠ dest.resolve root) (htmp : t.file? (tmp.resolve root) = some c)
    (hok : result root (moveIntoPlace tmp dest) t = .ok u) :
    (after root (moveIntoPlace tmp dest) t).file? (dest.resolve root) = some c := by
  unfold result at hok
  unfold after
  unfold moveIntoPlace at hok ⊢
  obtain ⟨_, -, hrun⟩ := runE_bind_ok hok
  rw [hrun] at hok ⊢
  have hmoved := attempt_ok (orFail_ok hok)
  simp only [run_orFail] at hmoved ⊢
  have hlook := look_rename hne hmoved (dest.resolve root)
  rw [if_pos (List.prefix_refl _), List.drop_length, List.append_nil] at hlook
  rw [← files_mkParent dest (tmp.resolve root)] at htmp
  exact file?_eq_some.2 (hlook.trans (file?_eq_some.1 htmp))

theorem written_ok {mkdirErr writeErr : S3Error} {p : UnixPath} {doc : FsDoc} {u : Unit}
    (hok : result root (writeDoc mkdirErr writeErr p doc) t = .ok u) (q : List Str) :
    (after root (writeDoc mkdirErr writeErr p doc) t).file? q =
      if q = p.resolve root then some (.doc doc) else t.file? q := by
  unfold result at hok
  unfold after
  unfold writeDoc at hok ⊢
  obtain ⟨_, -, hrun⟩ := runE_bind_ok hok
  rw [hrun] at hok ⊢
  have hwritten := attempt_ok (orFail_ok hok)
  simp only [run_orFail] at hwritten ⊢
  refine (file?_write hwritten q).trans ?_
  rw [files_mkParent]

/-! ## The put -/

/-- What stands at the key's place: a payload that opens to `data`, and its metadata. -/
structure Stands (S : FsStore) (root : List Str) (bucket key : Str) (m : StoredMeta)
    (data : Bytes) (t : Tree FsDoc) : Prop where
  payload : ∃ raw, t.file? (place root bucket key .payload) = some (.raw raw) ∧
    S.plainBytes m.encrypted raw = some data
  metadata : t.file? (place root bucket key .metadata) = some (.doc (.stored m))

theorem Stands.get {m : StoredMeta} {data : Bytes} (h : Stands S root bucket key m data t) :
    runE (LocalDrive.step root) (S.getObject bucket key) t =
      (.ok (storedToMeta key m, data), t) := by
  obtain ⟨raw, hraw, hopen⟩ := h.payload
  have hpayload : t.file? ((objectPath bucket key).resolve root) = some (.raw raw) := hraw
  have hmeta : t.file? ((metaPath bucket key).resolve root) = some (.doc (.stored m)) := h.metadata
  have hstored : storedIn S root bucket key t = .ok m := by
    unfold storedIn docIn
    rw [hpayload, hmeta]
    rfl
  rw [getObject, runE_bind, run_readStored, hstored, andThen_ok, runE_bind,
    run_readPayload (objectPath bucket key) _ _ _ hpayload]
  dsimp only [Content.bytes?, Option.getD_some]
  rw [hopen]
  rfl

theorem Stands.congr {m : StoredMeta} {data : Bytes} (h : Stands S root bucket key m data t)
    (hsame : ∀ k ∈ [FileKind.payload, .metadata],
      t'.file? (place root bucket key k) = t.file? (place root bucket key k)) :
    Stands S root bucket key m data t' := by
  obtain ⟨raw, hraw, hopen⟩ := h.payload
  exact ⟨⟨raw, (hsame .payload (by simp)).trans hraw, hopen⟩,
    (hsame .metadata (by simp)).trans h.metadata⟩

theorem tmpFile_outside (hn : Accepted bucket key) {k : FileKind} (hk : k.Proper) (id : Uuid) :
    ¬ place root bucket key k <+: (tmpFile id).resolve root := by
  have hsys : bucket ≠ SYS_DIR := ne_sysDir hn.bucket
  have hmeta : META ≠ TMP := by decide
  have hversions : VERSIONS ≠ TMP := by decide
  rw [resolve_tmpFile, hn.place_eq hk, List.prefix_append_right_inj]
  cases k <;> simp [treeOf, hsys, hmeta, hversions]

theorem finished_ok {pending : Option (Str × VersionHistory)} {etag : Str} {size : Nat}
    {now : Int} {u : Unit}
    (hok : result root (finishWrite bucket key pending etag size now) t = .ok u)
    {q : List Str} (hq : q ≠ place root bucket key .history) :
    (after root (finishWrite bucket key pending etag size now) t).file? q = t.file? q := by
  cases pending with
  | none => rfl
  | some r => exact (written_ok hok q).trans (if_neg hq)

/-- An install that answers has moved the staged payload into place and written its metadata. -/
theorem install_ok (hn : Accepted bucket key) {id : Uuid} {env : CallEnv} {etag : Str}
    {size : Nat} {contentType : Str} {userMetadata : UserMeta} {encrypted : Bool} {raw : Bytes}
    {om : ObjectMeta} (ht : DocsIn ProperFsDoc t)
    (htmp : t.file? ((tmpFile id).resolve root) = some (.raw raw))
    (hok : result root (S.install env bucket key (tmpFile id) etag size contentType userMetadata
      encrypted (pure ())) t = .ok om) :
    ∃ vid, om = storedToMeta key
        ⟨etag, size, contentType, userMetadata, env.now, encrypted, vid⟩ ∧
      let t' := after root (S.install env bucket key (tmpFile id) etag size contentType
        userMetadata encrypted (pure ())) t
      t'.file? (place root bucket key .payload) = some (.raw raw) ∧
      t'.file? (place root bucket key .metadata) = some (.doc (.stored
        ⟨etag, size, contentType, userMetadata, env.now, encrypted, vid⟩)) := by
  have hne : place root bucket key .payload ≠ place root bucket key .metadata :=
    hn.payload_ne trivial (by simp [treeOf])
  have hapart : ∀ k : FileKind, k.Proper →
      ¬ (tmpFile id).resolve root <+: place root bucket key k := fun k hk =>
    tmpFile_apart hn.bucket hn.key hk id root
  unfold result at hok
  unfold after
  unfold install at hok ⊢
  obtain ⟨mode, -, hrun⟩ := runE_bind_ok hok
  rw [hrun] at hok ⊢
  obtain ⟨pending, hbegin, hrun⟩ := runE_bind_ok hok
  rw [hrun] at hok ⊢
  -- The bookkeeping leaves the staged payload.
  have hmode : (runE (LocalDrive.step root) (versioningMode bucket) t).2 = t := rfl
  rw [hmode] at hbegin hok ⊢
  have hstaged : (after root (S.beginWrite env bucket key mode) t).file?
      ((tmpFile id).resolve root) = some (.raw raw) :=
    ((keeps_of_own ht (own_beginWrite owns_key)).2 _
      fun k hk => tmpFile_outside hn hk id).trans htmp
  obtain ⟨_, hmove, hrun⟩ := runE_bind_ok hok
  rw [hrun] at hok ⊢
  have hnot : (tmpFile id).resolve root ≠ (objectPath bucket key).resolve root := fun h =>
    hapart .payload trivial (h ▸ List.prefix_refl _)
  have hpayload := moved_ok hnot hstaged hmove
  obtain ⟨_, hmeta, hrun⟩ := runE_bind_ok hok
  rw [hrun] at hok ⊢
  have hwritten := written_ok hmeta
  obtain ⟨_, -, hrun⟩ := runE_bind_ok hok
  rw [hrun] at hok ⊢
  obtain ⟨_, hfinish, hrun⟩ := runE_bind_ok hok
  rw [hrun] at hok ⊢
  refine ⟨pending.map Prod.fst, (Except.ok.inj hok).symm, ?_, ?_⟩
  · refine (finished_ok hfinish (hn.payload_ne trivial (by simp [treeOf]))).trans ?_
    exact (hwritten _).trans ((if_neg hne).trans hpayload)
  · have hother : place root bucket key .metadata ≠ place root bucket key .history :=
      hn.place_ne trivial trivial (by simp [treeOf, show META ≠ VERSIONS by decide])
    exact (finished_ok hfinish hother).trans ((hwritten _).trans (if_pos rfl))

theorem docsIn_write_raw {p : List Str} {data : Bytes} (ht : DocsIn ProperFsDoc t)
    (hwrite : t.write p (.raw data) = some t') : DocsIn ProperFsDoc t' := by
  intro q j hj
  have hfile := file?_eq_some.2 hj
  rw [file?_write hwrite] at hfile
  split at hfile
  · cases hfile
  · exact ht q j (file?_eq_some.1 hfile)

/-- A put of a body that came whole, and that answers, has the body stand at its key. -/
theorem put_ok (hcr : S.crypto.Lawful) (hb : validateBucketName bucket = .ok ())
    (ht : DocsIn ProperFsDoc t) {env : FsEnv} {data : Bytes} {contentType : Str}
    {userMetadata : UserMeta} {encrypt : Bool} {om : ObjectMeta}
    (hok : result root (S.putObject env bucket key (.ofBytes data) contentType userMetadata encrypt)
      t = .ok om) :
    ∃ m : StoredMeta, om = storedToMeta key m ∧ m.contentType = contentType ∧
      m.userMetadata = userMetadata ∧ m.encrypted = S.shouldEncrypt encrypt ∧
      Stands S root bucket key m data
        (after root (S.putObject env bucket key (.ofBytes data) contentType userMetadata encrypt)
          t) := by
  unfold result at hok
  unfold after
  unfold putObject at hok ⊢
  obtain ⟨_, -, hrun⟩ := runE_bind_ok hok
  rw [hrun] at hok ⊢
  rw [run_headBucket] at hok ⊢
  obtain ⟨_, hkey, hrun⟩ := runE_bind_ok hok
  rw [hrun] at hok ⊢
  rw [runE_ofExcept] at hkey hok ⊢
  have hn : Accepted bucket key := ⟨hb, hkey⟩
  dsimp only at hok ⊢
  obtain ⟨src, hsrc, hrun⟩ := runE_bind_ok hok
  rw [hrun] at hok ⊢
  rw [run_writeSource] at hsrc hok ⊢
  cases hsource : S.sourceOf env.toCallEnv (.ofBytes data) (S.shouldEncrypt encrypt) with
  | none =>
      rw [hsource] at hsrc
      cases hsrc
  | some src' =>
      rw [hsource] at hsrc
      obtain rfl : src' = src := Except.ok.inj hsrc
      dsimp only at hok ⊢
      obtain ⟨⟨etag, stored⟩, hstream, hrun⟩ := runE_bind_ok hok
      rw [hrun] at hok ⊢
      cases htmp : t.write ((tmpFile env.tmpId).resolve root) (.raw []) with
      | none =>
          rw [streamToTemp, runE_bind, run_orFail, LocalDrive.exec_create,
            LocalDrive.attempt_none htmp] at hstream
          cases hstream
      | some t₁ =>
          obtain ⟨etag', t₂, hstage, h₂⟩ := run_streamToTemp (S := S) env.toCallEnv
            (tmpFile env.tmpId) (!S.shouldEncrypt encrypt) (sourceOf_clean hsource) htmp
          rw [hstage] at hstream hok ⊢
          obtain ⟨rfl, rfl⟩ := Prod.mk.inj (Except.ok.inj hstream)
          dsimp only at hok ⊢
          have hdocs₂ := docsIn_write_raw (docsIn_write_raw ht htmp) h₂
          have hstaged : t₂.file? ((tmpFile env.tmpId).resolve root) = some (.raw src'.data) :=
            (file?_write h₂ _).trans (if_pos rfl)
          obtain ⟨vid, rfl, hpayload, hmeta⟩ := install_ok hn hdocs₂ hstaged hok
          exact ⟨_, rfl, rfl, rfl, rfl, ⟨_, hpayload, plainBytes_sourceOf hcr hsource⟩, hmeta⟩

end FsStore

end Kerplace
