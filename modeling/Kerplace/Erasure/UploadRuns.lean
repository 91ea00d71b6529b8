/-
# `Kerplace.Erasure.UploadRuns` — which uploads an erasure store knows

An upload is staged in a directory named by its id, on the drive its id names.  In a run
whose calls keep uploads apart nothing stands there unless the id stands for an upload, and
then the manifest there is of that upload's bucket and key.
-/
import Kerplace.Storage.Uploads
import Kerplace.Handlers.LockRuns

namespace Kerplace

open FileTree Prog UnixPath ErasureStore

/-! ## Names and places -/

theorem slash_not_mem_digits (k : Nat) : '/' ∉ Nat.toDigits 10 k := fun h =>
  absurd (Nat.isDigit_of_mem_toDigits (by decide) (by decide) h) (by decide)

theorem atom_partName (k : Nat) {suf : Str} (hsuf : '/' ∉ suf) : Atom (partFile k ++ suf) := by
  have hhead : (partFile k ++ suf).head? = some 'p' := rfl
  refine ⟨fun h => ?_, ?_, ?_, ?_⟩
  · rcases List.mem_append.1 h with h | h
    · rcases List.mem_append.1 h with h | h
      · exact absurd h (by decide)
      · exact slash_not_mem_digits k h
    · exact hsuf h
  all_goals
    intro h0
    rw [h0] at hhead
    exact absurd hhead (by decide)

theorem atom_partFile (k : Nat) : Atom (partFile k) := by
  have h : Atom (partFile k ++ []) := atom_partName k List.not_mem_nil
  rwa [List.append_nil] at h

theorem atom_partMetaFile (k : Nat) : Atom (partMetaFile k) := atom_partName k (by decide)

theorem part_ne_manifest {k : Nat} {suf : Str} : partFile k ++ suf ≠ MANIFEST := fun h =>
  absurd (congrArg List.head? h) (by
    show some 'p' ≠ some 'm'
    decide)

/-- The id a creation on drive `d` hands out. -/
def mintedId {n : Nat} (d : Fin n) (id : Uuid) : Str :=
  hexDigit (d.val / 16) :: hexDigit (d.val % 16) :: id.text

theorem hexDigit_ne_slash (v : Nat) : hexDigit v ≠ '/' := by
  by_cases h : v < 16
  · revert v
    decide
  · unfold hexDigit Nat.digitChar
    iterate 16 rw [if_neg (by omega)]
    decide

theorem atom_mintedId {n : Nat} (d : Fin n) (id : Uuid) : Atom (mintedId d id) := by
  have hlen : (mintedId d id).length = 34 := by simp [mintedId, id.length_eq]
  refine ⟨fun h => ?_, ?_, ?_, ?_⟩
  · rcases List.mem_cons.1 h with h | h
    · exact hexDigit_ne_slash _ h.symm
    · rcases List.mem_cons.1 h with h | h
      · exact hexDigit_ne_slash _ h.symm
      · exact id.atom.1 h
  all_goals
    intro h0
    rw [h0] at hlen
    exact absurd hlen (by decide)

theorem resolve_rUpload {u : Str} (hu : Atom u) (root : List Str) :
    (rUpload u).resolve root = root ++ [SYS_DIR, MULTIPART] ++ [u] := by
  rw [rUpload, resolve_joinStr_atom hu, resolve_joinStr_atom (by decide),
    resolve_ofStr atom_sysDir.descends, atom_sysDir.compsOf]
  simp

theorem uploads_apart {u u' : Str} (hu : Atom u) (hu' : Atom u') (hne : u ≠ u')
    (root : List Str) : Apart ((rUpload u).resolve root) ((rUpload u').resolve root) := by
  rw [resolve_rUpload hu, resolve_rUpload hu']
  exact apart_of_ne hne

theorem object_apart_upload {b k u : Str} (hb : validateBucketName b = .ok ())
    (hk : validateKey k = .ok ()) (hu : Atom u) (root : List Str) :
    Apart ((rObject b k).resolve root) ((rUpload u).resolve root) := by
  rw [resolve_rObject (validateBucketName_atom hb) (validateKey_plain hk), resolve_rUpload hu,
    List.append_assoc]
  exact apart_of_ne (ne_sysDir hb)

/-! ## What a call leaves of other uploads -/

section

variable {n : Nat} {S : ErasureStore n} {root : Fin n → List Str} {site : Site n}
  {s s' : Cluster n Doc} {u u' b k : Str}

/-- The upload's files, and whether its directory is there, are as they were. -/
def UploadKept (root : Fin n → List Str) (u : Str) (s s' : Cluster n Doc) : Prop :=
  ∀ d rest, (s' d).look ((rUpload u).resolve (root d) ++ rest) =
    (s d).look ((rUpload u).resolve (root d) ++ rest)

theorem uploadKept_of_region {α : Type} {R : Region Doc} {locks : Str → Prop} {p : EStore n α}
    {Q : α → Prop} (hp : MeetsE (storeContract n R locks) p Q)
    (hstores : ∀ j, R.stores j → ProperDoc j) (hfinds : ∀ j, ProperDoc j → R.finds j)
    (hs : ProperCluster s)
    (hchanges : ∀ d p, R.Changes p →
      Apart (p.resolve (site.root d)) ((rUpload u).resolve (site.root d)))
    (hprunes : ∀ d p, R.prunes p →
      ¬ (rUpload u).resolve (site.root d) <+: p.resolve (site.root d)) :
    UploadKept site.root u s (site.run p s).2 := fun d rest =>
  Site.run_frame hp hstores hfinds hs d _
    ⟨fun p hp => ((hchanges d p hp).symm.below rest).symm,
      fun p hp h => hprunes d p hp (h ▸ List.prefix_append _ _)⟩

/-- What staging in an upload's directory may do: to the files named, and to the whole
directory. -/
def stagingRegion (u : Str) (files : Str → Prop) : Region Doc where
  reads _ := True
  lists _ := True
  writes p := ∃ f, files f ∧ p = (rUpload u).joinStr f
  trees p := p = rUpload u
  prunes _ := False
  stores := ProperDoc
  finds _ := True

theorem uploadKept_staging {α : Type} {files : Str → Prop} {p : EStore n α} {Q : α → Prop}
    (hp : MeetsE (storeContract n (stagingRegion u files) fun _ => False) p Q)
    (hfiles : ∀ f, files f → Atom f) (hs : ProperCluster s) (hu : Atom u) (hu' : Atom u')
    (hne : u' ≠ u) : UploadKept site.root u' s (site.run p s).2 := by
  refine uploadKept_of_region hp (fun _ h => h) (fun _ _ => trivial) hs (fun d q hq => ?_)
    fun _ _ h => h.elim
  have hdir := uploads_apart hu hu' hne.symm (site.root d)
  rcases hq with ⟨f, hf, rfl⟩ | rfl
  · rw [resolve_joinStr_atom (hfiles f hf)]
    exact hdir.below [f]
  · exact hdir

theorem uploadKept_object {α : Type} {p : EStore n α} {Q : α → Prop}
    (hp : MeetsE (objectContract n b k) p Q) (hb : validateBucketName b = .ok ())
    (hk : validateKey k = .ok ()) (hs : ProperCluster s) (hu : Atom u) :
    UploadKept site.root u s (site.run p s).2 := by
  have hapart := fun d => object_apart_upload hb hk hu (site.root d)
  refine uploadKept_of_region hp (fun _ h => h) (fun _ h => h) hs (fun d q hq => ?_)
    fun d q hq hpre => ?_
  · obtain ⟨rest, hrest⟩ := objectRegion_changes hq (site.root d)
    rw [← hrest]
    exact (hapart d).below rest
  · exact (hapart d).2 (hpre.trans (hq.resolve (validateBucketName_atom hb)
      (validateKey_plain hk) (site.root d)))

theorem uploadKept_complete {α : Type} {locks : Str → Prop} {p : EStore n α} {Q : α → Prop}
    (hp : MeetsE (storeContract n (assemblyRegion b k u) locks) p Q)
    (hb : validateBucketName b = .ok ()) (hk : validateKey k = .ok ()) (hs : ProperCluster s)
    (hu : Atom u) (hu' : Atom u') (hne : u' ≠ u) :
    UploadKept site.root u' s (site.run p s).2 := by
  have hapart := fun d => object_apart_upload hb hk hu' (site.root d)
  refine uploadKept_of_region hp (fun _ h => h) (fun _ h => h) hs (fun d q hq => ?_)
    fun d q hq hpre => ?_
  · have hdir := uploads_apart hu hu' hne.symm (site.root d)
    have hinside : (objectRegion b k).Changes q →
        Apart (q.resolve (site.root d)) ((rUpload u').resolve (site.root d)) := fun hq => by
      obtain ⟨rest, hrest⟩ := objectRegion_changes hq (site.root d)
      rw [← hrest]
      exact (hapart d).below rest
    rcases hq with (hq | rfl) | hq | rfl
    · exact hinside (.inl hq)
    · rw [resolve_joinStr_atom atom_assembly]
      exact hdir.below _
    · exact hinside (.inr hq)
    · exact hdir
  · have hpre' := hpre.trans (PrunePath.resolve (validateBucketName_atom hb)
      (validateKey_plain hk) hq (site.root d))
    exact (hapart d).2 hpre'

/-! ## The calls -/

theorem meetsE_part (env : CallEnv) (k : Nat) (body : Body) :
    MeetsE (storeContract n (stagingRegion u fun f => f = partFile k ∨ f = partMetaFile k)
      fun _ => False) (S.uploadPart env u k body) fun _ => True := by
  refine MeetsE.then (meetsE_orFail (meetsE_map (meetsE_at (.stat _) trivial))) fun _ => ?_
  refine MeetsE.then (meetsE_orFail (meetsE_at (.create _) ⟨_, .inl rfl, rfl⟩)) fun _ => ?_
  refine MeetsE.then (meetsE_orFail (meetsE_at (.append _ _) ⟨_, .inl rfl, rfl⟩)) fun _ => ?_
  refine MeetsE.then (meetsE_orFail (meetsE_pure.2 trivial)) fun _ => ?_
  refine MeetsE.then (meetsE_orFail (meetsE_at (.shutdown _) ⟨_, .inl rfl, rfl⟩)) fun _ => ?_
  refine MeetsE.then (meetsE_orFail (meetsE_at (.write _ _) ⟨⟨_, .inr rfl, rfl⟩, ?_⟩))
    fun _ => meetsE_pure.2 trivial
  exact fun j hj => by cases hj; exact properDoc_part _

theorem meetsE_abort :
    MeetsE (storeContract n (stagingRegion u fun _ => False) fun _ => False)
      (S.abortMultipart u) fun _ => True := by
  refine MeetsE.then (meetsE_orFail (meetsE_map (meetsE_at (.stat _) trivial))) fun _ => ?_
  exact meetsE_orFail (meetsE_at (.removeDirAll _) rfl)

theorem meetsE_listRecords (sd : Fin n) (dir : UnixPath) (entries : List (Str × Bool)) :
    MeetsE (storeContract n readingRegion fun _ => False) (listRecords sd dir entries)
      fun _ => True := by
  induction entries with
  | nil => exact meetsE_pure.2 trivial
  | cons e entries ih =>
      obtain ⟨name, isDir⟩ := e
      rw [listRecords]
      split
      · exact ih
      · refine MeetsE.then (meetsE_atDrive.2 ?_) fun doc => ih.then fun _ => meetsE_pure.2 trivial
        exact Meets.then (meets_call (o := .read _) trivial) fun _ => trivial

theorem run_listParts_same (s : Cluster n Doc) : (site.run (S.listParts u) s).2 = s := by
  refine run_reading (Q := fun _ => True) ?_ s
  refine MeetsE.then (meetsE_at (.readDir _) trivial) fun entries => ?_
  split
  · exact meetsE_throw
  · exact (meetsE_listRecords _ _ _).then fun _ => meetsE_pure.2 trivial

/-- What stands at an upload's place. -/
def standing (S : ErasureStore n) (root : Fin n → List Str) (u : Str) (s : Cluster n Doc) :
    Option (Node (Content Doc)) :=
  (s (S.uploadDrive u)).look ((rUpload u).resolve (root (S.uploadDrive u)))

theorem run_reads {α : Type} {d : Fin n} {p : DriveProg Doc α}
    (hp : ∀ t, (site.onTree d p t).2 = t) (s : Cluster n Doc) :
    site.run (atDrive d p) s = (.ok (site.onTree d p (s d)).1, s) := by
  rw [Site.run_atDrive, hp, Function.update_eq_self]

theorem onTree_absent {f : Str} (hf : Atom f) (h : standing S site.root u s = none) :
    (site.onTree (S.uploadDrive u) (Drive.read ((rUpload u).joinStr f))
        (s (S.uploadDrive u))).1 = none ∧
      (site.onTree (S.uploadDrive u) (Drive.stat ((rUpload u).joinStr f))
        (s (S.uploadDrive u))).1 = none := by
  cases hup : site.up (S.uploadDrive u) with
  | false =>
      rw [Site.onTree, Site.onTree, hup]
      exact ⟨rfl, rfl⟩
  | true =>
      have hnone := look_below_none [f] h
      rw [Site.onTree_up hup, Site.onTree_up hup, LocalDrive.exec_read, LocalDrive.exec_stat,
        resolve_joinStr_atom hf]
      exact ⟨by rw [file?, hnone], by rw [hnone]; rfl⟩

theorem onTree_stat_same {d : Fin n} (p : UnixPath) (t : Tree Doc) :
    (site.onTree d (Drive.stat p) t).2 = t := by
  rw [onTree_stat]

theorem run_stat_bind {e : S3Error} {d : Fin n} {p : UnixPath} (s : Cluster n Doc) :
    site.run (orFail e (Option.isSome <$> atDrive d (Drive.stat p))) s =
      (if ((site.onTree d (Drive.stat p) (s d)).1).isSome then .ok () else .error e, s) := by
  rw [Site.run_orFail, map_eq_pure_bind, Site.run_bind_pure,
    run_reads (onTree_stat_same p)]
  rfl

/-- With nothing standing at its place, an id is refused. -/
theorem refused_of_absent (site : Site n) (h : standing S site.root u s = none) :
    (∀ env k body, site.run (S.uploadPart env u k body) s = (.error .noSuchUpload, s)) ∧
      (∀ env parts, site.run (S.completeMultipart env u parts) s = (.error .noSuchUpload, s)) ∧
      site.run (S.abortMultipart u) s = (.error .noSuchUpload, s) ∧
      site.run (S.listParts u) s = (.error .noSuchUpload, s) := by
  have hmanifest := onTree_absent (show Atom MANIFEST by decide) h
  refine ⟨fun env k body => ?_, fun env parts => ?_, ?_, ?_⟩
  · rw [uploadPart, Site.run_bind, run_stat_bind, hmanifest.2]
    rfl
  · have hread : ∀ t, (site.onTree (S.uploadDrive u)
        (Drive.read (J := Doc) ((rUpload u).joinStr MANIFEST)) t).2 = t := fun t => by
      cases hup : site.up (S.uploadDrive u) with
      | false => exact Site.onTree_down_snd hup _ t
      | true => rw [Site.onTree_up hup, LocalDrive.exec_read]
    rw [completeMultipart, Site.run_bind, readManifest, Site.run_bind, run_reads hread,
      hmanifest.1]
    rfl
  · have hstat : (site.onTree (S.uploadDrive u) (Drive.stat (rUpload u))
        (s (S.uploadDrive u))).1 = none := by
      rw [onTree_stat]
      unfold standing at h
      rw [h]
      cases site.up (S.uploadDrive u) <;> rfl
    rw [abortMultipart, Site.run_bind, run_stat_bind, hstat]
    rfl
  · have hdir : (site.onTree (S.uploadDrive u) (Drive.readDir (rUpload u))
        (s (S.uploadDrive u))) = (none, s (S.uploadDrive u)) := by
      cases hup : site.up (S.uploadDrive u) with
      | false =>
          rw [Site.onTree, hup]
          rfl
      | true =>
          have hisDir : (s (S.uploadDrive u)).isDir
              ((rUpload u).resolve (site.root (S.uploadDrive u))) = false := by
            rw [isDir_eq_false, show (s (S.uploadDrive u)).look _ = none from h]
            exact fun h0 => by cases h0
          rw [Site.onTree_up hup]
          show ((s (S.uploadDrive u)).children _, _) = _
          rw [children, hisDir, if_neg Bool.false_ne_true]
          rfl
    rw [listParts, Site.run_bind, Site.run_atDrive, hdir, Function.update_eq_self]
    rfl

/-- A creation fails and leaves what was there, or makes the upload's directory on a drive and
in it the manifest. -/
theorem run_createMultipart (env : CallEnv) (contentType : Str) (userMetadata : UserMeta)
    (encrypt : Bool) (s : Cluster n Doc) :
    (∃ e, site.run (S.createMultipart env b k contentType userMetadata encrypt) s =
        (.error e, s)) ∨
      ∃ (d : Fin n) (t : Tree Doc), validateKey k = .ok () ∧
        (s d).createDirAll ((rUpload (mintedId d env.freshId)).resolve (site.root d)) = some t ∧
        site.run (S.createMultipart env b k contentType userMetadata encrypt) s =
          match t.write ((rUpload (mintedId d env.freshId)).resolve (site.root d) ++ [MANIFEST])
            (.doc (.manifest ⟨b, k, contentType, userMetadata, env.now, S.shouldEncrypt encrypt⟩))
          with
          | some t' => (.ok (mintedId d env.freshId), Function.update s d t')
          | none => (.error (.internal "write manifest"), Function.update s d t) := by
  have honline : ∀ d t, (site.onTree d (do
      let up ← Drive.online
      pure (if up then some d else none)) t : Option (Fin n) × Tree Doc) =
      (if site.up d && t.isDir (site.root d) then some d else none, t) := by
    intro d t
    cases hup : site.up d with
    | false =>
        rw [Site.onTree, hup]
        rfl
    | true =>
        rw [Site.onTree_up hup, Prog.exec_bind, LocalDrive.exec_online, Bool.true_and]
        rfl
  unfold createMultipart
  rw [Site.run_bind, run_headBucket]
  cases bucketUp site b s with
  | false => exact .inl ⟨_, rfl⟩
  | true =>
      rw [if_pos rfl, andThen_ok, Site.run_bind, Site.run_ofExcept]
      cases hkey : validateKey k with
      | error e => exact .inl ⟨e, rfl⟩
      | ok x =>
          rw [andThen_ok, Site.run_bind, firstOnlineDrive,
            Site.run_anyDrive fun d t => by rw [honline], andThen_ok]
          cases hstage : (List.finRange n).findSome? fun d =>
              (site.onTree d (do
                let up ← Drive.online
                pure (if up then some d else none)) (s d) : Option (Fin n) × Tree Doc).1 with
          | none => exact .inl ⟨_, rfl⟩
          | some d =>
              have hup : site.up d = true := by
                obtain ⟨d', -, hd'⟩ := List.exists_of_findSome?_eq_some hstage
                rw [honline] at hd'
                split at hd'
                · rename_i hcond
                  obtain rfl := Option.some.inj hd'
                  exact (Bool.and_eq_true_iff.1 hcond).1
                · cases hd'
              have hid : hexDigit (d.val / 16) :: hexDigit (d.val % 16) :: env.freshId.text =
                  mintedId d env.freshId := rfl
              have hpath : ((rUpload (mintedId d env.freshId)).joinStr MANIFEST).resolve
                  (site.root d) = (rUpload (mintedId d env.freshId)).resolve (site.root d) ++
                    [MANIFEST] := resolve_joinStr_atom (by decide) _
              dsimp only
              rw [hid, Site.run_bind, Site.run_orFail, Site.run_atDrive, Site.onTree_up hup,
                LocalDrive.exec_createDirAll, andThen_ok]
              cases hmk : (s d).createDirAll
                  ((rUpload (mintedId d env.freshId)).resolve (site.root d)) with
              | none =>
                  refine .inl ⟨.internal "mkdir upload", ?_⟩
                  rw [LocalDrive.attempt_none rfl, Function.update_eq_self]
                  rfl
              | some t =>
                  refine .inr ⟨d, t, rfl, hmk, ?_⟩
                  rw [LocalDrive.attempt_some rfl, if_pos rfl, andThen_ok, Site.run_bind,
                    Site.run_orFail, Site.run_atDrive, Site.onTree_up hup,
                    LocalDrive.exec_write, Function.update_self, hpath]
                  cases t.write ((rUpload (mintedId d env.freshId)).resolve (site.root d) ++
                      [MANIFEST]) (.doc (.manifest ⟨b, k, contentType, userMetadata, env.now,
                        S.shouldEncrypt encrypt⟩)) with
                  | none =>
                      rw [LocalDrive.attempt_none rfl, Function.update_idem]
                      rfl
                  | some t' =>
                      rw [LocalDrive.attempt_some rfl, Function.update_idem]
                      rfl

theorem standing_removed {t' : Tree Doc} (h : (s (S.uploadDrive u)).removeDirAll
    ((rUpload u).resolve (root (S.uploadDrive u))) = some t') :
    standing S root u (Function.update s (S.uploadDrive u) t') = none := by
  rw [standing, Function.update_self, look_removeDirAll h, if_pos (List.prefix_refl _)]

/-- After an abort that succeeds nothing stands at the upload's place. -/
theorem standing_abort {x : Unit} (hok : (site.run (S.abortMultipart u) s).1 = .ok x) :
    standing S site.root u (site.run (S.abortMultipart u) s).2 = none := by
  unfold abortMultipart at hok ⊢
  obtain ⟨_, -, hrun⟩ := Site.run_bind_ok hok
  rw [hrun, run_stat_bind] at hok ⊢
  rw [Site.run_orFail, Site.run_atDrive] at hok ⊢
  cases hup : site.up (S.uploadDrive u) with
  | false =>
      rw [Site.onTree, hup] at hok
      cases hok
  | true =>
      rw [Site.onTree_up hup, LocalDrive.exec_removeDirAll] at hok ⊢
      cases hrm : (s (S.uploadDrive u)).removeDirAll
          ((rUpload u).resolve (site.root (S.uploadDrive u))) with
      | none =>
          rw [hrm] at hok
          cases hok
      | some t' => exact standing_removed hrm

/-- Parts that are assembled are in a file in the upload's directory. -/
theorem assemble_ok {sd : Fin n} {dir : UnixPath} {parts : List CompletedPart}
    {r : Bytes × Str} (hok : (site.run (S.assemble sd dir parts) s).1 = .ok r) :
    site.up sd = true ∧ ∃ c, ((site.run (S.assemble sd dir parts) s).2 sd).file?
      ((dir.joinStr ASSEMBLY).resolve (site.root sd)) = some c := by
  unfold assemble at hok ⊢
  dsimp only at hok ⊢
  obtain ⟨_, -, h₁⟩ := Site.run_bind_ok hok
  rw [h₁] at hok ⊢
  obtain ⟨digests, -, h₂⟩ := Site.run_bind_ok hok
  rw [h₂] at hok ⊢
  obtain ⟨_, -, h₃⟩ := Site.run_bind_ok hok
  rw [h₃] at hok ⊢
  generalize (site.run (orFail _ _) _).2 = t at hok ⊢
  rw [Site.run_bind, Site.run_atDrive, andThen_ok] at hok ⊢
  cases hup : site.up sd with
  | false =>
      rw [Site.onTree, hup] at hok
      cases hok
  | true =>
      rw [Site.onTree_up hup, LocalDrive.exec_read] at hok ⊢
      cases hfile : (t sd).file? ((dir.joinStr ASSEMBLY).resolve (site.root sd)) with
      | none =>
          rw [hfile] at hok
          cases hok
      | some c =>
          refine ⟨rfl, c, ?_⟩
          rw [Function.update_eq_self]
          exact hfile

/-- After a completion that succeeds nothing stands at the upload's place. -/
theorem standing_completeWith {env : CallEnv} {parts : List CompletedPart} {m : UploadManifest}
    {om : ObjectMeta} (hb : validateBucketName m.bucket = .ok ())
    (hk : validateKey m.key = .ok ()) (hu : Atom u) (hs : ProperCluster s)
    (hok : (site.run (S.completeWith env u parts m) s).1 = .ok om) :
    standing S site.root u (site.run (S.completeWith env u parts m) s).2 = none := by
  have hassembly : MeetsE (storeContract n (assemblyRegion m.bucket m.key u)
      (· = lockName m.bucket m.key)) (S.assemble (S.uploadDrive u) (rUpload u) parts)
      fun _ => True := meetsE_assemble _ _ (fun _ => trivial) (Or.inr rfl)
  unfold completeWith at hok ⊢
  dsimp only at hok ⊢
  rw [Site.run_withLock] at hok ⊢
  obtain ⟨⟨plain, etag⟩, hparts, h₁⟩ := Site.run_bind_ok hok
  have hs₁ : ProperCluster
      (site.run (S.assemble (S.uploadDrive u) (rUpload u) parts) s).2 :=
    Site.run_proper hassembly (fun _ h => h) (fun _ h => h) hs
  obtain ⟨hup, c, hfile⟩ := assemble_ok hparts
  rw [h₁] at hok ⊢
  generalize (site.run (S.assemble (S.uploadDrive u) (rUpload u) parts) s).2 = s₁ at *
  obtain ⟨src, -, h₂⟩ := Site.run_bind_ok hok
  have hsource : MeetsE (objectContract n m.bucket m.key)
      (S.writeSource env (.ofBytes plain) m.encrypt) fun _ => True := meetsE_writeSource _ _ _
  have hs₂ : ProperCluster
      (site.run (S.writeSource env (.ofBytes plain) m.encrypt) s₁).2 :=
    Site.run_proper hsource (fun _ h => h) (fun _ h => h) hs₁
  have hkept₂ : UploadKept site.root u s₁
      (site.run (S.writeSource env (.ofBytes plain) m.encrypt) s₁).2 :=
    uploadKept_object hsource hb hk hs₁ hu
  rw [h₂] at hok ⊢
  generalize (site.run (S.writeSource env (.ofBytes plain) m.encrypt) s₁).2 = s₂ at *
  obtain ⟨om', -, h₃⟩ := Site.run_bind_ok hok
  have hwrite : MeetsE (objectContract n m.bucket m.key) (S.writeSharded env m.bucket m.key src
      m.contentType m.userMetadata m.encrypt (some etag)) fun _ => True :=
    outer (meetsE_writeSharded _ _ _ _ _ _)
  have hkept₃ : UploadKept site.root u s₂ (site.run (S.writeSharded env m.bucket m.key src
      m.contentType m.userMetadata m.encrypt (some etag)) s₂).2 :=
    uploadKept_object hwrite hb hk hs₂ hu
  rw [h₃] at hok ⊢
  generalize (site.run (S.writeSharded env m.bucket m.key src m.contentType m.userMetadata
    m.encrypt (some etag)) s₂).2 = s₃ at *
  -- The assembly still stands in the directory, so the directory can be removed.
  have hdir : (s₃ (S.uploadDrive u)).look ((rUpload u).resolve (site.root (S.uploadDrive u))) =
      some .dir := by
    have hlook := file?_eq_some.1 hfile
    rw [resolve_joinStr_atom atom_assembly] at hlook
    have hthere := (hkept₃ (S.uploadDrive u) [ASSEMBLY]).trans
      ((hkept₂ (S.uploadDrive u) [ASSEMBLY]).trans hlook)
    exact look_parent hthere
  rw [Site.run_bind, Site.run_atDrive, andThen_ok, Site.run_pure, Site.onTree_up hup,
    LocalDrive.exec_removeDirAll]
  cases hrm : (s₃ (S.uploadDrive u)).removeDirAll
      ((rUpload u).resolve (site.root (S.uploadDrive u))) with
  | none =>
      unfold removeDirAll at hrm
      rw [if_pos ⟨by rw [resolve_rUpload hu]; simp, isDir_iff.2 hdir⟩] at hrm
      cases hrm
  | some t' => exact standing_removed hrm

/-- The manifest a completion goes by is the document in the upload's directory. -/
theorem run_readManifest (sd : Fin n) (dir : UnixPath) (s : Cluster n Doc) :
    ∃ r, site.run (readManifest sd dir) s = (r, s) ∧ ∀ m, r = .ok m →
      (s sd).file? ((dir.joinStr MANIFEST).resolve (site.root sd)) =
        some (.doc (.manifest m)) := by
  have hread : ∀ t, (site.onTree sd (Drive.read (J := Doc) (dir.joinStr MANIFEST)) t) =
      (if site.up sd then t.file? ((dir.joinStr MANIFEST).resolve (site.root sd)) else none,
        t) := fun t => by
    cases hup : site.up sd with
    | false =>
        rw [Site.onTree, hup]
        rfl
    | true =>
        rw [Site.onTree_up hup, LocalDrive.exec_read]
        rfl
  rw [readManifest, Site.run_bind, run_reads fun t => by rw [hread], andThen_ok, hread]
  cases hup : site.up sd with
  | false => exact ⟨_, rfl, fun m h0 => by cases h0⟩
  | true =>
      rw [if_pos rfl]
      cases (s sd).file? ((dir.joinStr MANIFEST).resolve (site.root sd)) with
      | none => exact ⟨_, rfl, fun m h0 => by cases h0⟩
      | some c =>
          cases c with
          | raw bytes => exact ⟨_, rfl, fun m h0 => by cases h0⟩
          | doc j =>
              cases j with
              | manifest m =>
                  refine ⟨.ok m, rfl, fun m' h0 => ?_⟩
                  rw [Except.ok.inj h0]
              | _ => exact ⟨_, rfl, fun m h0 => by cases h0⟩

/-! ## Runs -/

/-- A call on an object, with its bucket and key. -/
structure ObjectCall where
  bucket : Str
  key : Str
  call : KeyCall

/-- What a call of a run does with the store; a creation answers with the id. -/
def uploadProg (S : ErasureStore n) : UploadCall CallEnv ObjectCall → EStore n (Option Str)
  | .create env bucket key contentType userMetadata encrypt => do
      let uploadId ← S.createMultipart env bucket key contentType userMetadata encrypt
      pure (some uploadId)
  | .part env _ _ uploadId number body => do
      let _ ← S.uploadPart env uploadId number body
      pure none
  | .complete env _ _ uploadId parts => do
      let _ ← S.completeMultipart env uploadId parts
      pure none
  | .abort _ _ uploadId => do
      let _ ← S.abortMultipart uploadId
      pure none
  | .list _ _ uploadId => do
      let _ ← S.listParts uploadId
      pure none
  | .other c => do
      let _ ← c.call.prog S c.bucket c.key
      pure none

/-- Multipart and other calls, one after the other, each with the drives it can reach. -/
def uploadMachine (S : ErasureStore n) (root : Fin n → List Str) :
    Machine (Cluster n Doc) ((Fin n → Bool) × UploadCall CallEnv ObjectCall)
      (Except S3Error (Option Str)) where
  step s c := (Site.mk root c.1).run (uploadProg S c.2) s

/-- A call of such a run, with the cluster it met and its answer. -/
abbrev UploadVisit (n : Nat) :=
  Visit (Cluster n Doc) ((Fin n → Bool) × UploadCall CallEnv ObjectCall)
    (Except S3Error (Option Str))

/-- Its desk. -/
abbrev storeDesk (n : Nat) : Desk ((Fin n → Bool) × UploadCall CallEnv ObjectCall)
    (Except S3Error (Option Str)) Str (Str × Str) := uploadDesk Prod.snd

/-- The ids a creation may hand out. -/
def Mints (n : Nat) (env : CallEnv) (u : Str) : Prop := ∃ d : Fin n, u = mintedId d env.freshId

/-- An id that is one path component. -/
def PlainId (_bucket uploadId : Str) : Prop := Atom uploadId

/-- An object call on a bucket and a key that the validators accept. -/
def ObjectCall.Valid (c : ObjectCall) : Prop :=
  validateBucketName c.bucket = .ok () ∧ validateKey c.key = .ok ()

/-- Nothing stands at the place of an id that stands for nothing, and where an id stands for
an object its manifest is of that object. -/
structure UploadsHeld (S : ErasureStore n) (root : Fin n → List Str)
    (held : Str → Option (Str × Str)) (s : Cluster n Doc) : Prop where
  docs : ProperCluster s
  named : ∀ u b k, held u = some (b, k) →
    validateBucketName b = .ok () ∧ validateKey k = .ok ()
  absent : ∀ u, Atom u → held u = none → standing S root u s = none
  manifest : ∀ u b k m, Atom u → held u = some (b, k) →
    (s (S.uploadDrive u)).file? ((rUpload u).resolve (root (S.uploadDrive u)) ++ [MANIFEST]) =
      some (.doc (.manifest m)) → m.bucket = b ∧ m.key = k

variable {held held' : Str → Option (Str × Str)}

/-- What has to be seen to of the one upload a call is about. -/
theorem UploadsHeld.change (h : UploadsHeld S root held s) (u : Str) (hdocs : ProperCluster s')
    (hheld : ∀ u', u' ≠ u → held' u' = held u')
    (hkept : ∀ u', Atom u' → u' ≠ u → UploadKept root u' s s')
    (hnamed : ∀ b k, held' u = some (b, k) →
      validateBucketName b = .ok () ∧ validateKey k = .ok ())
    (habsent : Atom u → held' u = none → standing S root u s' = none)
    (hmanifest : ∀ b k m, Atom u → held' u = some (b, k) → (s' (S.uploadDrive u)).file?
      ((rUpload u).resolve (root (S.uploadDrive u)) ++ [MANIFEST]) =
        some (.doc (.manifest m)) → m.bucket = b ∧ m.key = k) :
    UploadsHeld S root held' s' where
  docs := hdocs
  named u' b k h0 := by
    by_cases hu : u' = u
    · exact hnamed b k (hu ▸ h0)
    · exact h.named u' b k (hheld u' hu ▸ h0)
  absent u' hatom h0 := by
    by_cases hu : u' = u
    · subst hu
      exact habsent hatom h0
    · have hkept' := hkept u' hatom hu (S.uploadDrive u') []
      rw [List.append_nil] at hkept'
      exact hkept'.trans (h.absent u' hatom (hheld u' hu ▸ h0))
  manifest u' b k m hatom h0 hfile := by
    by_cases hu : u' = u
    · subst hu
      exact hmanifest b k m hatom h0 hfile
    · rw [file?_congr (hkept u' hatom hu (S.uploadDrive u') [MANIFEST])] at hfile
      exact h.manifest u' b k m hatom (hheld u' hu ▸ h0) hfile

/-- A call on an upload that is held leaves it held, or leaves nothing of it. -/
theorem UploadsHeld.present (h : UploadsHeld S root held s) (hopen : held u ≠ none)
    (hdocs : ProperCluster s') (hkept : ∀ u', Atom u' → u' ≠ u → UploadKept root u' s s')
    (hfile : ∀ d, (s' d).file? ((rUpload u).resolve (root d) ++ [MANIFEST]) =
        (s d).file? ((rUpload u).resolve (root d) ++ [MANIFEST]) ∨
      (s' d).file? ((rUpload u).resolve (root d) ++ [MANIFEST]) = none)
    (hheld : held' = held ∨
      (held' = Function.update held u none ∧ standing S root u s' = none)) :
    UploadsHeld S root held' s' := by
  have hstays : ∀ t, held' u = some t → held u = some t := fun t h0 => by
    rcases hheld with rfl | ⟨rfl, -⟩
    · exact h0
    · rw [Function.update_self] at h0
      cases h0
  refine h.change u hdocs (fun u' hne => ?_) hkept (fun b k h0 => h.named u b k (hstays _ h0))
    (fun _ h0 => ?_) fun b k m hatom h0 hm => ?_
  · rcases hheld with rfl | ⟨rfl, -⟩
    · rfl
    · exact Function.update_of_ne hne _ _
  · rcases hheld with rfl | ⟨-, hgone⟩
    · exact absurd h0 hopen
    · exact hgone
  · rcases hfile (S.uploadDrive u) with hsame | hnone
    · exact h.manifest u b k m hatom (hstays _ h0) (hsame ▸ hm)
    · rw [hnone] at hm
      cases hm

/-- A creation keeps what is held, with the new id for its bucket and key. -/
theorem UploadsHeld.create (h : UploadsHeld S root held s) {up : Fin n → Bool} {env : CallEnv}
    {contentType : Str} {userMetadata : UserMeta} {encrypt : Bool}
    (hb : validateBucketName b = .ok ()) (hfresh : ∀ u, Mints n env u → held u = none)
    {r : Except S3Error (Option Str)}
    (hrun : (uploadMachine S root).step s
      (up, .create env b k contentType userMetadata encrypt) = (r, s')) :
    UploadsHeld S root ((storeDesk n).next held
      (up, .create env b k contentType userMetadata encrypt) r) s' := by
  have hdocs : ProperCluster s' := by
    have hmeets : MeetsE (storeContract n (uploadRegion (MintedUpload n) b) fun _ => True)
        (uploadProg S (.create env b k contentType userMetadata encrypt)) fun _ => True :=
      MeetsE.then ((meetsE_createMultipart env contentType userMetadata
        encrypt).mono fun _ _ => trivial) fun _ => meetsE_pure.2 trivial
    have : ProperCluster (Site.run ⟨root, up⟩ (uploadProg S
        (.create env b k contentType userMetadata encrypt)) s).2 :=
      Site.run_proper hmeets (fun _ h => h) (fun _ _ => trivial) h.docs
    rwa [show (Site.mk root up).run _ s = _ from hrun] at this
  have hstep : (uploadMachine S root).step s
      (up, .create env b k contentType userMetadata encrypt) =
        (((Site.mk root up).run (S.createMultipart env b k contentType userMetadata encrypt)
          s).1.map some, ((Site.mk root up).run (S.createMultipart env b k contentType
            userMetadata encrypt) s).2) := Site.run_bind_pure _ _ s
  rw [hstep] at hrun
  rcases run_createMultipart (S := S) env contentType userMetadata encrypt s
    with ⟨e, herr⟩ | ⟨d, t, hk, hmk, hmade⟩
  · rw [herr] at hrun
    obtain ⟨rfl, rfl⟩ := Prod.mk.inj hrun
    rw [show (Except.error e : Except S3Error Str).map some = .error e from rfl, next_error]
    exact h
  · have hatom : Atom (mintedId d env.freshId) := atom_mintedId d env.freshId
    have hnone := hfresh _ ⟨d, rfl⟩
    generalize mintedId d env.freshId = u at hmk hmade hatom hnone
    have hmade_look := look_createDirAll hmk
    -- Elsewhere the directory and the manifest change nothing.
    have hkept : ∀ t' : Tree Doc, (∀ q, t'.look q = t.look q ∨
        q = (rUpload u).resolve (root d) ++ [MANIFEST]) →
        ∀ u', Atom u' → u' ≠ u → UploadKept root u' s (Function.update s d t') := by
      intro t' ht' u' hu' hne e rest
      by_cases he : e = d
      · subst he
        have hapart := uploads_apart hatom hu' hne.symm (root e)
        rw [Function.update_self]
        rcases ht' ((rUpload u').resolve (root e) ++ rest) with hq | hq
        · rw [hq, hmade_look, if_neg fun hpre =>
            hapart.2 ((List.prefix_append _ rest).trans hpre)]
        · exact absurd (hq ▸ List.prefix_append _ rest) (hapart.below [MANIFEST]).2
      · rw [Function.update_of_ne he]
    cases hwrite : t.write ((rUpload u).resolve (root d) ++ [MANIFEST])
        (.doc (.manifest ⟨b, k, contentType, userMetadata, env.now,
          S.shouldEncrypt encrypt⟩)) with
    | some t' =>
        rw [show t.write _ _ = _ from hwrite] at hmade
        rw [hmade] at hrun
        obtain ⟨rfl, rfl⟩ : r = .ok (some u) ∧ s' = Function.update s d t' :=
          ⟨(Prod.mk.inj hrun).1.symm, (Prod.mk.inj hrun).2.symm⟩
        have hlook := look_write hwrite
        rw [Desk.next_issue (t := (b, k)) rfl rfl]
        refine h.change u hdocs (fun u' hne => Function.update_of_ne hne _ _)
          (hkept t' fun q => ?_) (fun b' k' h0 => ?_) (fun _ h0 => ?_)
          fun b' k' m _ h0 hm => ?_
        · by_cases hq : q = (rUpload u).resolve (root d) ++ [MANIFEST]
          · exact .inr hq
          · exact .inl ((hlook q).trans (if_neg hq))
        · rw [Function.update_self] at h0
          cases h0
          exact ⟨hb, hk⟩
        · rw [Function.update_self] at h0
          cases h0
        · rw [Function.update_self] at h0
          cases h0
          by_cases hd : S.uploadDrive u = d
          · rw [hd, Function.update_self, file?, hlook, if_pos rfl] at hm
            cases hm
            exact ⟨rfl, rfl⟩
          · rw [Function.update_of_ne hd, file?, look_below_none [MANIFEST]
              (h.absent u hatom hnone)] at hm
            cases hm
    | none =>
        rw [show t.write _ _ = _ from hwrite] at hmade
        rw [hmade] at hrun
        obtain ⟨rfl, rfl⟩ : r = .error (.internal "write manifest") ∧
            s' = Function.update s d t :=
          ⟨(Prod.mk.inj hrun).1.symm, (Prod.mk.inj hrun).2.symm⟩
        have hd : S.uploadDrive u ≠ d := by
          rintro rfl
          have hempty := look_below_none [MANIFEST] (h.absent u hatom hnone)
          have hwritten : (t.write ((rUpload u).resolve (root (S.uploadDrive u)) ++ [MANIFEST])
              (.doc (.manifest ⟨b, k, contentType, userMetadata, env.now,
                S.shouldEncrypt encrypt⟩))).isSome = true := by
            rw [write_isSome, hmade_look, if_pos (List.prefix_refl _), hmade_look, if_neg]
            · exact ⟨rfl, fun h0 => by rw [hempty] at h0; cases h0⟩
            · intro hpre
              have := hpre.length_le
              simp at this
          rw [hwrite] at hwritten
          cases hwritten
        rw [next_error]
        have hself : Function.update s d t (S.uploadDrive u) = s (S.uploadDrive u) :=
          Function.update_of_ne hd _ _
        refine h.change u hdocs (fun _ _ => rfl) (hkept t fun _ => .inl rfl)
          (fun b' k' h0 => h.named u b' k' h0) (fun ha h0 => ?_) fun b' k' m ha h0 hm => ?_
        · rw [standing, hself]
          exact h.absent u ha h0
        · rw [hself] at hm
          exact h.manifest u b' k' m ha h0 hm

theorem manifest_or_gone {α : Type} {R : Region Doc} {locks : Str → Prop} {p : EStore n α}
    {Q : α → Prop} (hp : MeetsE (storeContract n R locks) p Q)
    (hstores : ∀ j, R.stores j → ProperDoc j) (hfinds : ∀ j, ProperDoc j → R.finds j)
    (hs : ProperCluster s)
    (hwrites : ∀ d p, R.writes p →
      ¬ p.resolve (site.root d) <+: (rUpload u).resolve (site.root d) ++ [MANIFEST]) (d : Fin n) :
    ((site.run p s).2 d).file? ((rUpload u).resolve (site.root d) ++ [MANIFEST]) =
        (s d).file? ((rUpload u).resolve (site.root d) ++ [MANIFEST]) ∨
      ((site.run p s).2 d).file? ((rUpload u).resolve (site.root d) ++ [MANIFEST]) = none :=
  Site.run_file?_or_gone hp hstores hfinds hs d (hwrites d)

theorem other_file_not_manifest {f : Str} (hf : Atom f) (hne : f ≠ MANIFEST) (root : List Str) :
    ¬ ((rUpload u).joinStr f).resolve root <+: (rUpload u).resolve root ++ [MANIFEST] := by
  rw [resolve_joinStr_atom hf, List.prefix_append_right_inj]
  exact fun h => hne (List.singleton_inj.1 (h.eq_of_length rfl))

theorem next_presented {c : (Fin n → Bool) × UploadCall CallEnv ObjectCall}
    {t : Str × Str} {uses : Bool} {r : Except S3Error (Option Str)}
    (hc : c.2.deed = .present u t uses)
    (hgone : ∀ a, r = .ok a → uses = true → standing S root u s' = none) :
    (storeDesk n).next held c r = held ∨
      ((storeDesk n).next held c r = Function.update held u none ∧
        standing S root u s' = none) := by
  cases r with
  | error e => exact .inl (next_error e)
  | ok a =>
      rw [next_ok hc]
      cases uses with
      | false => exact .inl rfl
      | true => exact .inr ⟨rfl, hgone a rfl rfl⟩

theorem UploadsHeld.staging (h : UploadsHeld S root held s) {up : Fin n → Bool} {α : Type}
    {files : Str → Prop} {p : EStore n α} {Q : α → Prop}
    (hp : MeetsE (storeContract n (stagingRegion u files) fun _ => False) p Q)
    (hfiles : ∀ f, files f → Atom f ∧ f ≠ MANIFEST) (hu : Atom u) (hopen : held u ≠ none)
    (hheld : held' = held ∨ (held' = Function.update held u none ∧
      standing S root u ((Site.mk root up).run p s).2 = none)) :
    UploadsHeld S root held' ((Site.mk root up).run p s).2 := by
  refine h.present hopen (Site.run_proper hp (fun _ h => h) (fun _ _ => trivial) h.docs)
    (fun u' hu' hne => ?_) (fun d => ?_) hheld
  · exact uploadKept_staging hp (fun f hf => (hfiles f hf).1) h.docs hu hu' hne
  · refine manifest_or_gone hp (fun _ h => h) (fun _ _ => trivial) h.docs
      (fun e q hq => ?_) d
    obtain ⟨f, hf, rfl⟩ := hq
    exact other_file_not_manifest (hfiles f hf).1 (hfiles f hf).2 _

/-- So does a completion. -/
theorem UploadsHeld.complete (h : UploadsHeld S root held s) {up : Fin n → Bool} {env : CallEnv}
    {parts : List CompletedPart} (hu : Atom u) (hopen : held u = some (b, k))
    (hheld : ((∃ om, ((Site.mk root up).run (S.completeMultipart env u parts) s).1 = .ok om) →
        standing S root u ((Site.mk root up).run (S.completeMultipart env u parts) s).2 = none) →
      held' = held ∨ (held' = Function.update held u none ∧
        standing S root u ((Site.mk root up).run (S.completeMultipart env u parts) s).2 = none)) :
    UploadsHeld S root held' ((Site.mk root up).run (S.completeMultipart env u parts) s).2 := by
  obtain ⟨hb, hk⟩ := h.named u b k hopen
  obtain ⟨r, hread, hm⟩ := run_readManifest (S.uploadDrive u) (rUpload u) s
  have hrun : (Site.mk root up).run (S.completeMultipart env u parts) s =
      andThen (r, s) fun m t => (Site.mk root up).run (S.completeWith env u parts m) t := by
    rw [completeMultipart, Site.run_bind, hread]
  have hopen' : held u ≠ none := fun h0 => by rw [hopen] at h0; cases h0
  cases r with
  | error e =>
      have hsame : ((Site.mk root up).run (S.completeMultipart env u parts) s).2 = s := by
        rw [hrun]
        rfl
      have hfails : ¬ ∃ om, ((Site.mk root up).run (S.completeMultipart env u parts) s).1 =
          .ok om := by
        rw [hrun]
        rintro ⟨_, h0⟩
        cases h0
      have hkeep := hheld fun hok => absurd hok hfails
      rw [hsame] at hkeep ⊢
      exact h.present hopen' h.docs (fun _ _ _ _ _ => rfl) (fun _ => .inl rfl) hkeep
  | ok m =>
      rw [andThen_ok] at hrun
      have hfile := hm m rfl
      rw [resolve_joinStr_atom (show Atom MANIFEST by decide)] at hfile
      obtain ⟨rfl, rfl⟩ := h.manifest u b k m hu hopen hfile
      have hp := meetsE_completeOnly (S := S) env u parts m
      have hgone : (∃ om, ((Site.mk root up).run (S.completeMultipart env u parts) s).1 =
          .ok om) → standing S root u
            ((Site.mk root up).run (S.completeMultipart env u parts) s).2 = none := by
        rintro ⟨om, hok⟩
        rw [hrun] at hok ⊢
        exact standing_completeWith hb hk hu h.docs hok
      have hkeep := hheld hgone
      rw [hrun] at hkeep ⊢
      refine h.present hopen' (Site.run_proper hp (fun _ h => h) (fun _ h => h) h.docs)
        (fun u' hu' hne => uploadKept_complete hp hb hk h.docs hu hu' hne)
        (fun d => manifest_or_gone hp (fun _ h => h) (fun _ h => h) h.docs
          (fun e q hq => ?_) d) hkeep
      rcases hq with hq | rfl
      · intro hpre
        obtain ⟨x, rest, hq⟩ := hq.resolve (root e)
        have hapart := object_apart_upload hb hk hu (root e)
        rw [hq] at hpre
        exact (hapart.symm.below [MANIFEST]).2 ((List.prefix_append _ _).trans hpre)
      · exact other_file_not_manifest atom_assembly (by decide) _

theorem UploadsHeld.object (h : UploadsHeld S root held s) {up : Fin n → Bool} {c : ObjectCall}
    (hc : c.Valid) :
    UploadsHeld S root held ((Site.mk root up).run (c.call.prog S c.bucket c.key) s).2 := by
  have hmeets : MeetsE (objectContract n c.bucket c.key) (c.call.prog S c.bucket c.key)
      fun _ => True := c.call.meetsE
  have hkept : ∀ u, Atom u → UploadKept root u s
      (Site.run ⟨root, up⟩ (c.call.prog S c.bucket c.key) s).2 := fun u hu =>
    uploadKept_object hmeets hc.1 hc.2 h.docs hu
  refine ⟨Site.run_proper hmeets (fun _ h => h) (fun _ h => h) h.docs, h.named,
    fun u hu h0 => ?_, fun u b k m hu h0 hm => ?_⟩
  · have := hkept u hu (S.uploadDrive u) []
    rw [List.append_nil] at this
    exact this.trans (h.absent u hu h0)
  · have hsame := file?_congr (hkept u hu (S.uploadDrive u) [MANIFEST])
    exact h.manifest u b k m hu h0 (hsame.symm.trans hm)

theorem step_present {α : Type} {up : Fin n → Bool} {c : UploadCall CallEnv ObjectCall}
    {p : EStore n α} (hc : uploadProg S c = (do
      let _ ← p
      pure none)) :
    (uploadMachine S root).step s (up, c) =
      (((Site.mk root up).run p s).1.map fun _ => none, ((Site.mk root up).run p s).2) := by
  show (Site.mk root up).run (uploadProg S c) s = _
  rw [hc, Site.run_bind_pure]

/-- An id that stands for nothing is refused. -/
theorem UploadsHeld.refused (h : UploadsHeld S root held s) {up : Fin n → Bool}
    {c : UploadCall CallEnv ObjectCall} {t : Str × Str} {uses : Bool} (hu : Atom u)
    (hnone : held u = none) (hc : c.deed = .present u t uses) :
    (uploadMachine S root).step s (up, c) = (.error .noSuchUpload, s) := by
  obtain ⟨hpart, hcomplete, habort, hlist⟩ :=
    refused_of_absent ⟨root, up⟩ (h.absent u hu hnone)
  cases c with
  | create env b k contentType userMetadata encrypt => cases hc
  | part env b k u' number body =>
      cases hc
      rw [step_present (p := S.uploadPart env u number body) rfl, hpart]
      rfl
  | complete env b k u' parts =>
      cases hc
      rw [step_present (p := S.completeMultipart env u parts) rfl, hcomplete]
      rfl
  | abort b k u' =>
      cases hc
      rw [step_present (p := S.abortMultipart u) rfl, habort]
      rfl
  | list b k u' =>
      cases hc
      rw [step_present (p := S.listParts u) rfl, hlist]
      rfl
  | other c => cases hc

/-- What an orderly call leaves is as held. -/
theorem UploadsHeld.step (h : UploadsHeld S root held s) (c : (Fin n → Bool) ×
    UploadCall CallEnv ObjectCall) (hc : c.2.Orderly (Mints n) PlainId ObjectCall.Valid held) :
    UploadsHeld S root ((storeDesk n).next held c ((uploadMachine S root).step s c).1)
      ((uploadMachine S root).step s c).2 := by
  obtain ⟨up, c⟩ := c
  -- An id that stands for nothing is refused, and nothing changes.
  have hpresent : ∀ {u b k uses}, c.deed = .present u (b, k) uses →
      UploadCall.Named PlainId held b k u →
      (held u = some (b, k) → UploadsHeld S root
        ((storeDesk n).next held (up, c) ((uploadMachine S root).step s (up, c)).1)
        ((uploadMachine S root).step s (up, c)).2) →
      UploadsHeld S root
        ((storeDesk n).next held (up, c) ((uploadMachine S root).step s (up, c)).1)
        ((uploadMachine S root).step s (up, c)).2 := by
    intro u b k uses hdeed hnamed hopen
    obtain ⟨hu, htarget⟩ := hnamed
    cases hheld : held u with
    | none =>
        rw [h.refused hu hheld hdeed, next_error]
        exact h
    | some t => exact hopen (by rw [hheld, htarget t hheld])
  have hsome : ∀ {u b k}, held u = some (b, k) → held u ≠ none := fun h0 h1 => by
    rw [h1] at h0
    cases h0
  cases c with
  | create env b k contentType userMetadata encrypt => exact h.create hc.1 hc.2 rfl
  | part env b k u number body =>
      refine hpresent rfl hc fun hopen => ?_
      rw [step_present (p := S.uploadPart env u number body) rfl]
      refine h.staging (meetsE_part env number body) (fun f hf => ?_) hc.1 (hsome hopen)
        (next_presented rfl fun _ _ huses => absurd huses (by decide))
      rcases hf with rfl | rfl
      · exact ⟨atom_partFile number, by
          have h0 : partFile number ++ [] ≠ MANIFEST := part_ne_manifest
          rwa [List.append_nil] at h0⟩
      · exact ⟨atom_partMetaFile number, part_ne_manifest⟩
  | complete env b k u parts =>
      refine hpresent rfl hc fun hopen => ?_
      rw [step_present (p := S.completeMultipart env u parts) rfl]
      refine h.complete hc.1 hopen fun hgone => next_presented rfl fun a ha _ => hgone ?_
      cases hr : ((Site.mk root up).run (S.completeMultipart env u parts) s).1 with
      | error e =>
          rw [hr] at ha
          cases ha
      | ok om => exact ⟨om, rfl⟩
  | abort b k u =>
      refine hpresent rfl hc fun hopen => ?_
      rw [step_present (p := S.abortMultipart u) rfl]
      refine h.staging meetsE_abort (fun _ hf => hf.elim) hc.1 (hsome hopen)
        (next_presented rfl fun a ha _ => ?_)
      cases hr : ((Site.mk root up).run (S.abortMultipart u) s).1 with
      | error e =>
          rw [hr] at ha
          cases ha
      | ok x => exact standing_abort hr
  | list b k u =>
      refine hpresent rfl hc fun hopen => ?_
      rw [step_present (p := S.listParts u) rfl, run_listParts_same]
      exact h.present (hsome hopen) h.docs (fun _ _ _ _ _ => rfl) (fun _ => .inl rfl)
        (next_presented rfl fun _ _ h0 => absurd h0 (by decide))
  | other c =>
      rw [step_present (p := c.call.prog S c.bucket c.key) rfl, Desk.next_other rfl]
      exact h.object hc

/-- In a run of orderly calls, on drives where no upload is staged, an id is good for the
bucket and the key it was handed out for, as long as it is not used up, and for nothing else. -/
theorem store_honours (hs : ProperCluster s)
    (hempty : ∀ d u, Atom u → (s d).look ((rUpload u).resolve (root d)) = none)
    {cs : List ((Fin n → Bool) × UploadCall CallEnv ObjectCall)}
    (horderly : ∀ pre v post, (uploadMachine S root).visits s cs = pre ++ v :: post →
      v.call.2.Orderly (Mints n) PlainId ObjectCall.Valid ((storeDesk n).held pre)) :
    ∀ pre v post, (uploadMachine S root).visits s cs = pre ++ v :: post →
      (storeDesk n).Honoured (uploadMachine S root) (.error .noSuchUpload) pre v := by
  have hstart : UploadsHeld S root (fun _ => none) s :=
    ⟨hs, fun _ _ _ h0 => (by cases h0), fun u hu _ => hempty _ u hu,
      fun _ _ _ _ _ h0 => (by cases h0)⟩
  refine Desk.honoured
    hstart
    (fun held t c h hc => h.step c hc) (fun held t c h hc id target uses hdeed => ?_) horderly
  obtain ⟨up, c⟩ := c
  have hnamed : UploadCall.Named PlainId held target.1 target.2 id := by
    cases c with
    | create env b k contentType userMetadata encrypt => cases hdeed
    | other c => cases hdeed
    | _ =>
        cases hdeed
        exact hc
  cases hheld : held id with
  | none =>
      refine .inr ?_
      rw [h.refused hnamed.1 hheld hdeed]
      exact ⟨rfl, rfl⟩
  | some t' => exact .inl (congrArg some (hnamed.2 t' hheld))

end

end Kerplace
