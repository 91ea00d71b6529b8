/-
# `Kerplace.Handlers.LifecycleStores` — the lifecycle worker on the two stores

What a pass relies on holds of both stores, with a bucket's versioning off and on.  The sharded
store keeps a key's files in a directory of their own and, without versioning, deletes a key by
removing that directory with all there is below it: a key whose path leads through it goes with
the key.  Under versioning, and in the filesystem store, a key goes alone.
-/
import Kerplace.Handlers.Lifecycle
import Kerplace.Handlers.LockRuns
import Kerplace.Erasure.Marking
import Kerplace.Erasure.Chronicle
import Kerplace.Fs.Removal

namespace Kerplace

open FileTree Prog UnixPath

namespace ErasureStore

variable {n : Nat} {site : Site n} {bucket : Str} {s s₀ : Cluster n Doc} {k k' : Str}

/-! ## The sharded store -/

/-- The sharded store as the worker sees it, with the drives of the site; `env` is what a
deletion is given. -/
def expiryStore (site : Site n) (bucket : Str) (env : Cluster n Doc → Str → CallEnv) :
    ExpiryStore (Cluster n Doc) where
  listObjectsV2 pre token maxKeys s :=
    (site.run (ErasureStore.listObjectsV2 bucket pre none token none maxKeys) s).1
  getObjectLegalHold key s := (site.run (ErasureStore.getObjectLegalHold bucket key) s).1
  getObjectRetention key s := (site.run (ErasureStore.getObjectRetention bucket key) s).1
  deleteObject key s := (site.run (ErasureStore.deleteObject (env s key) bucket key) s).2

/-- What a listing says of a key. -/
def objUp (site : Site n) (bucket : Str) (s : Cluster n Doc) (k : Str) : ObjectMeta :=
  ((site.run (readXl bucket k) s).1.toOption.map (metaToObject k)).getD
    ⟨k, 0, [], 0, [], [], false, none, none⟩

theorem objUp_key (s : Cluster n Doc) (k : Str) : (objUp site bucket s k).key = k := by
  unfold objUp
  cases (site.run (readXl bucket k) s).1 <;> rfl

theorem expiryStore_list (env : Cluster n Doc → Str → CallEnv)
    (hbucket : bucketUp site bucket s = true) (hread : AllReadable site bucket s) (pre : Str)
    (token : Option Str) (m : Nat) :
    (expiryStore site bucket env).listObjectsV2 pre token m s =
      .ok ((pageKeys pre none token none m
        (((keysUp site bucket s).filter fun k => pre.isPrefixOf k).insertionSort (· ≤ ·))
        ⟨[], [], 0, false, none⟩).listing (objUp site bucket s)) := by
  refine congrArg Prod.fst (run_listObjectsV2 hbucket (fun k hk => ?_) pre none token none m)
  obtain ⟨xl, hxl⟩ := hread k hk
  exact ⟨xl, hxl, by rw [objUp, hxl]; rfl⟩

theorem Site.misbehaves (site : Site n) : Misbehaves site.root site.step where
  drive d o s := by
    refine ⟨_, _, rfl, ?_, ?_⟩
    · cases hup : site.up d with
      | true => exact .inl rfl
      | false => exact .inr rfl
    · cases hup : site.up d with
      | true => exact .inl rfl
      | false =>
          rw [LocalDrive.stepIf_false]
          exact .inr fun _ => .inl rfl
  lock _ _ := rfl
  unlock _ _ := rfl

theorem spared_answers (env : Cluster n Doc → Str → CallEnv) {s' : Cluster n Doc}
    (h : Spared site.root bucket k s s') :
    (site.run (readXl bucket k) s').1 = (site.run (readXl bucket k) s).1 ∧
      (expiryStore site bucket env).getObjectLegalHold k s' =
        (expiryStore site bucket env).getObjectLegalHold k s ∧
      (expiryStore site bucket env).getObjectRetention k s' =
        (expiryStore site bucket env).getObjectRetention k s :=
  ⟨h.reads (meetsE_file_readXl ⟨XL_META, by decide, rfl⟩) site.up,
    h.reads (meetsE_file_getSidecar ⟨XL_META, by decide, rfl⟩ ⟨LEGALHOLD, by decide, rfl⟩) site.up,
    h.reads (meetsE_file_getSidecar ⟨XL_META, by decide, rfl⟩ ⟨RETENTION, by decide, rfl⟩)
      site.up⟩

theorem shrunk_of_spared (env : Cluster n Doc → Str → CallEnv) {s' : Cluster n Doc}
    {gone : Str → Prop} (hread : AllReadable site bucket s)
    (hmem : ∀ k, k ∈ keysUp site bucket s' ↔ k ∈ keysUp site bucket s ∧ ¬ gone k)
    (hleft : ∀ k ∈ keysUp site bucket s', Spared site.root bucket k s s') :
    AllReadable site bucket s' ∧ ExpiryStore.Shrunk (expiryStore site bucket env)
      (keysUp site bucket) (objUp site bucket) gone s s' := by
  refine ⟨fun k hk => ?_, hmem, fun k hk => ?_, fun k hk => ?_, fun k hk => ?_⟩
  · obtain ⟨m, hm⟩ := hread k ((hmem k).1 hk).1
    have hsame := (spared_answers env (hleft k hk)).1
    rw [hm] at hsame
    have hstate : (site.run (readXl bucket k) s').2 = s' := by rw [readXl, run_readXlV]
    exact ⟨m, Prod.ext hsame hstate⟩
  · rw [objUp, objUp, (spared_answers env (hleft k hk)).1]
  · exact (spared_answers env (hleft k hk)).2.1
  · exact (spared_answers env (hleft k hk)).2.2

theorem modeOf_deleted (hb : validateBucketName bucket = .ok ()) (hk : ShownKey k)
    (hs : ProperCluster s) (env : CallEnv) :
    modeOf site bucket (site.run (deleteObject env bucket k) s).2 = modeOf site bucket s := by
  have hatom := validateBucketName_atom hb
  exact Site.modeOf_spared (meetsE_deleteObject env) (fun _ h => h) (fun _ h => h) hs fun _ =>
    objectRegion_spares hatom hk.descends
      (site.objDir_apart_cfg hatom (ne_sysDir hb) hk.descends hatom atom_versioning)

theorem keysUp_sheds (hatoms : AtomsStored site bucket s₀) (h : Sheds site.root bucket s₀ s) :
    keysUp site bucket s ⊆ keysUp site bucket s₀ := by
  intro k hk
  obtain ⟨hshown, d, hup, hstored⟩ := (mem_keysUp (hatoms.sheds h)).1 hk
  refine (mem_keysUp hatoms).2 ⟨hshown, d, hup, ?_⟩
  rcases h d _ hshown.currentNames with hsame | hgone
  · rwa [hsame] at hstored
  · rw [hgone] at hstored
    cases hstored

/-! ### Without versioning -/

/-- A bucket without versioning whose metadata can be read. -/
structure Unversioned (site : Site n) (bucket : Str) (s : Cluster n Doc) : Prop where
  docs : ProperCluster s
  atoms : AtomsStored site bucket s
  there : bucketUp site bucket s = true
  readable : AllReadable site bucket s
  mode : modeOf site bucket s = .off

/-- Where the files of a key lie among those below another key's directory. -/
theorem below_objDir (hb : Atom bucket) (hk : ShownKey k) (hk' : ShownKey k') {f : Str}
    (hf : Atom f) (d : Fin n) :
    (site.objDir bucket k d <+: (rObjSidecar bucket k' f).resolve (site.root d) ∧
      (rObjSidecar bucket k' f).resolve (site.root d) ≠ site.objDir bucket k d) ↔
      compsOf k <+: compsOf k' := by
  rw [resolve_sidecar hb hk'.descends hf, site.objDir_eq hb hk.descends,
    List.prefix_append_right_inj, List.cons_prefix_cons]
  rw [show (bucket = bucket ∧ compsOf k <+: compsOf k' ++ [f]) ↔ compsOf k <+: compsOf k' ++ [f]
    from and_iff_right rfl]
  rw [Ne, List.append_cancel_left_eq, List.cons.injEq, and_iff_right rfl]
  constructor
  · rintro ⟨hpre, hne⟩
    rcases List.prefix_concat_iff.1 hpre with heq | hpre
    · exact absurd heq.symm hne
    · exact hpre
  · intro hpre
    refine ⟨hpre.trans (List.prefix_append _ _), fun heq => ?_⟩
    have hlen := hpre.length_le
    rw [← heq] at hlen
    simp at hlen

theorem file?_sidecar_off (hb : Atom bucket) (hu : Unversioned site bucket s) (hk : ShownKey k)
    (hk' : ShownKey k') {f : Str} (hf : Atom f) (env : CallEnv) (d : Fin n) :
    ((site.run (deleteObject env bucket k) s).2 d).file?
        ((rObjSidecar bucket k' f).resolve (site.root d)) =
      if site.up d = true ∧ compsOf k <+: compsOf k' then none
      else (s d).file? ((rObjSidecar bucket k' f).resolve (site.root d)) := by
  rw [file?_deleteObject_off hb hk.descends hu.there hu.mode]
  exact if_congr (and_congr_right fun _ => below_objDir hb hk hk' hf d) rfl rfl

/-- The worker's deletions in a bucket without versioning. -/
theorem expiryStore_serves_off (hb : validateBucketName bucket = .ok ())
    (env : Cluster n Doc → Str → CallEnv) :
    (expiryStore site bucket env).Serves (Unversioned site bucket) (keysUp site bucket)
      (objUp site bucket) fun k k' => compsOf k <+: compsOf k' where
  takes_self _ := List.prefix_refl _
  takes_trans h h' := h.trans h'
  keys_nodup h := keysUp_nodup_of_atoms h.atoms
  obj_key := objUp_key
  list_eq h := expiryStore_list env h.there h.readable
  delete := by
    intro s s₀ k hu hu₀ hk _
    have hatom := validateBucketName_atom hb
    obtain ⟨hshown, -⟩ := (mem_keysUp hu₀.atoms).1 hk
    let s' := (site.run (deleteObject (env s k) bucket k) s).2
    have hmeets : MeetsE (objectContract n bucket k) (deleteObject (env s k) bucket k)
        fun _ => True := meetsE_deleteObject _
    obtain ⟨hdocs, hsheds⟩ := deleteObject_sheds hatom hshown.descends
      (Site.misbehaves site) (env s k) hu.docs
    have hatoms : AtomsStored site bucket s' := hu.atoms.sheds hsheds
    have hfile : ∀ k', ShownKey k' → ∀ f, Atom f → ∀ d, (s' d).file?
        ((rObjSidecar bucket k' f).resolve (site.root d)) =
        if site.up d = true ∧ compsOf k <+: compsOf k' then none
        else (s d).file? ((rObjSidecar bucket k' f).resolve (site.root d)) :=
      fun k' hk' f hf d => file?_sidecar_off hatom hu hshown hk' hf (env s k) d
    have hmem : ∀ k', k' ∈ keysUp site bucket s' ↔
        k' ∈ keysUp site bucket s ∧ ¬ compsOf k <+: compsOf k' := by
      intro k'
      rw [mem_keysUp hatoms, mem_keysUp hu.atoms, and_assoc]
      refine and_congr_right fun hk' => ?_
      simp only [storedAt_metaNames hatom hk'.descends, hfile k' hk' XL_META (by decide)]
      by_cases hpre : compsOf k <+: compsOf k'
      · simp only [hpre, and_true, not_true_eq_false, and_false, iff_false]
        rintro ⟨d, hup, hsome⟩
        rw [if_pos hup] at hsome
        cases hsome
      · simp only [hpre, and_false, if_false, not_false_eq_true, and_true]
    have hleft : ∀ k' ∈ keysUp site bucket s', Spared site.root bucket k' s s' := by
      intro k' hk'
      obtain ⟨hold, hno⟩ := (hmem k').1 hk'
      obtain ⟨hshown', -⟩ := (mem_keysUp hu.atoms).1 hold
      refine ⟨hdocs, fun d f hf => ?_⟩
      have hf' : Atom f := by revert f; decide
      rw [hfile k' hshown' f hf' d, if_neg fun h => hno h.2]
    obtain ⟨hread, hshrunk⟩ := shrunk_of_spared env hu.readable hmem hleft
    refine ⟨⟨hdocs, hatoms, bucketUp_kept hatom hshown.descends hshown.ne hmeets hu.docs hu.there,
      hread, ?_⟩, hshrunk⟩
    exact (modeOf_deleted hb hshown hu.docs (env s k)).trans hu.mode

/-! ### Under versioning -/

/-- A bucket under versioning, of whose listed keys the drives keep what the server wrote, with
a history that knows of each current copy. -/
structure Versioned (S : ErasureStore n) (site : Site n) (bucket : Str) (s : Cluster n Doc) :
    Prop where
  docs : ProperCluster s
  atoms : AtomsStored site bucket s
  there : bucketUp site bucket s = true
  readable : AllReadable site bucket s
  mode : modeOf site bucket s ≠ .off
  kept : ∀ k ∈ keysUp site bucket s, ∃ K : KeyStates n, Keeps S site bucket k K s ∧ K.Proper ∧
    ∀ d, site.up d = true → (K d).slot none ≠ none →
      K.hasHistory site = false ∨ canonicalOccupied (K.historyUp site) = true

variable {S : ErasureStore n} {K : KeyStates n}

theorem storedAt_of_keeps (hb : Atom bucket) (hk : ShownKey k) (hkeeps : Keeps S site bucket k K s)
    (d : Fin n) : storedAt site.root bucket s d (metaNames k) =
      ((K d).slot none).map fun c => .doc (.xl c.xl) := by
  have hplace := (hkeeps d).place (.xl none) properVersion_none
  have hpath : (rObjSidecar bucket k XL_META).resolve (site.root d) =
      site.objDir bucket k d ++ (Place.xl none).rel :=
    resolve_joinStr_atom (by decide) (site.root d)
  rw [storedAt_metaNames hb hk.descends, hpath, file?, hplace, KeyState.shelf]
  cases (K d).slot none <;> rfl

/-- A key of which the drives keep the same was spared. -/
theorem spared_of_keeps {s' : Cluster n Doc} (hkeeps : Keeps S site bucket k K s)
    (hkeeps' : Keeps S site bucket k K s') (hdocs : ProperCluster s') :
    Spared site.root bucket k s s' := by
  refine ⟨hdocs, fun d f hf => ?_⟩
  have hatom : Atom f := by revert f; decide
  have hplaces : ∃ a : Place, a.Proper ∧ a.rel = [f] := by
    simp only [LOCK_FILES, List.mem_cons, List.not_mem_nil, or_false] at hf
    rcases hf with rfl | rfl | rfl | rfl
    · exact ⟨.xl none, properVersion_none, rfl⟩
    · exact ⟨.part none, properVersion_none, rfl⟩
    · exact ⟨.side LEGALHOLD, show LEGALHOLD ∈ SIDECARS by decide, rfl⟩
    · exact ⟨.side RETENTION, show RETENTION ∈ SIDECARS by decide, rfl⟩
  obtain ⟨a, ha, hrel⟩ := hplaces
  have hpath : (rObjSidecar bucket k f).resolve (site.root d) =
      site.objDir bucket k d ++ a.rel := by
    rw [hrel]
    exact resolve_joinStr_atom hatom (site.root d)
  rw [hpath, file?_congr (((hkeeps' d).place a ha).trans ((hkeeps d).place a ha).symm)]

/-- The history that is read of a key knows of its current copy, or none is found. -/
def CurrentKnown (site : Site n) (bucket : Str) (s : Cluster n Doc) (k : Str) : Prop :=
  existsUp site (rHistory bucket k) s = false ∨
    canonicalOccupied (historyOf site bucket k s) = true

instance (s : Cluster n Doc) (k : Str) : Decidable (CurrentKnown site bucket s k) :=
  inferInstanceAs (Decidable (_ ∨ _))

theorem currentKnown_of_keeps (hkeeps : Keeps S site bucket k K s) :
    CurrentKnown site bucket s k ↔
      K.hasHistory site = false ∨ canonicalOccupied (K.historyUp site) = true := by
  rw [CurrentKnown, hkeeps.existsUp, hkeeps.historyOf]

theorem occupied_seed_iff {d : Fin n} (hup : site.up d = true) (hslot : (K d).slot none ≠ none) :
    canonicalOccupied ((K.seed site).historyUp site) = true ↔
      K.hasHistory site = false ∨ canonicalOccupied (K.historyUp site) = true := by
  cases hhas : K.hasHistory site with
  | false => exact ⟨fun _ => .inl rfl, fun _ => occupied_seed hup hslot hhas⟩
  | true => rw [KeyStates.seed, hhas, if_pos rfl, or_iff_right (by simp)]

/-- After a deletion the newest entry is its marker. -/
theorem not_known_mark {d : Fin n} (hup : site.up d = true) (env : CallEnv) (mode : VMode)
    (K : KeyStates n) : ¬ ((K.mark site env mode).hasHistory site = false ∨
      canonicalOccupied ((K.mark site env mode).historyUp site) = true) := by
  rintro (hnone | hocc)
  · rw [KeyStates.hasHistory, List.any_eq_false] at hnone
    refine hnone d (List.mem_finRange d) ?_
    simp only [KeyStates.mark, KeyStates.record, KeyStates.onUp, KeyState.record, hup]
    rfl
  · rw [KeyStates.mark, historyUp_record site _ _ hup] at hocc
    cases hocc

theorem listed_of_keeps (hb : Atom bucket) (hatoms : AtomsStored site bucket s)
    (hshown : ShownKey k) (hkeeps : Keeps S site bucket k K s) :
    k ∈ keysUp site bucket s ↔ ∃ d, site.up d = true ∧ (K d).slot none ≠ none := by
  rw [mem_keysUp hatoms, and_iff_right hshown]
  refine exists_congr fun d => and_congr_right fun _ => ?_
  rw [storedAt_of_keeps hb hshown hkeeps, Option.isSome_map, Option.isSome_iff_ne_none]

/-- A bucket under versioning, of whose listed keys the drives keep what the server wrote. -/
structure Archived (S : ErasureStore n) (site : Site n) (bucket : Str) (s : Cluster n Doc) :
    Prop where
  docs : ProperCluster s
  atoms : AtomsStored site bucket s
  there : bucketUp site bucket s = true
  mode : modeOf site bucket s ≠ .off
  kept : ∀ k ∈ keysUp site bucket s, ∃ K : KeyStates n, Keeps S site bucket k K s ∧ K.Proper

theorem Versioned.archived (h : Versioned S site bucket s) : Archived S site bucket s :=
  ⟨h.docs, h.atoms, h.there, h.mode, fun k hk =>
    (h.kept k hk).imp fun _ hK => ⟨hK.1, hK.2.1⟩⟩

/-- A versioned deletion marks its key and leaves the others as they were. -/
theorem Archived.delete (hb : validateBucketName bucket = .ok ()) (h : Archived S site bucket s)
    (hlisted : k ∈ keysUp site bucket s) (env : CallEnv) :
    Archived S site bucket (site.run (deleteObject env bucket k) s).2 ∧
      (∀ k' ∈ keysUp site bucket s, k' ≠ k → ∀ K, Keeps S site bucket k' K s →
        Keeps S site bucket k' K (site.run (deleteObject env bucket k) s).2) ∧
      ∀ K, Keeps S site bucket k K s → K.Proper →
        Keeps S site bucket k (K.mark site env (modeOf site bucket s))
          (site.run (deleteObject env bucket k) s).2 := by
  have hatom := validateBucketName_atom hb
  obtain ⟨hshown, d, hup, hthere⟩ := (mem_keysUp h.atoms).1 hlisted
  obtain ⟨K, hkeeps, hK⟩ := h.kept k hlisted
  let s' := (site.run (deleteObject env bucket k) s).2
  obtain ⟨hdocs, hsheds⟩ := deleteObject_sheds hatom hshown.descends
    (Site.misbehaves site) env h.docs
  have hatoms : AtomsStored site bucket s' := h.atoms.sheds hsheds
  have hmark : ∀ K, Keeps S site bucket k K s → K.Proper →
      Keeps S site bucket k (K.mark site env (modeOf site bucket s)) s' := by
    intro K hkeeps hK
    obtain ⟨s'', hrun, hkeeps'⟩ := leads_deleteObject hkeeps hK
      (fun _ => site.objDir_ne_nil hatom hshown.descends) h.there rfl env
    rw [if_neg h.mode] at hkeeps'
    show Keeps S site bucket k _ (site.run (deleteObject env bucket k) s).2
    rwa [hrun]
  have hframe : ∀ k' ∈ keysUp site bucket s, k' ≠ k → ∀ K', Keeps S site bucket k' K' s →
      Keeps S site bucket k' K' s' := by
    intro k' hk' hne K' hkeeps'
    obtain ⟨hshown', d', -, hthere'⟩ := (mem_keysUp h.atoms).1 hk'
    show Keeps S site bucket k' K' (site.run (deleteObject env bucket k) s).2
    rw [run_deleteObject_versioned h.there h.mode]
    exact hkeeps.version_frame hatom hkeeps' hshown hshown' hne.symm hthere hthere'
      (meetsE_insertMarker _ _) h.docs
  refine ⟨⟨hdocs, hatoms, bucketUp_kept hatom hshown.descends hshown.ne (meetsE_deleteObject _)
    h.docs h.there, fun hoff => h.mode ?_, fun k' hk' => ?_⟩, hframe, hmark⟩
  · exact (modeOf_deleted hb hshown h.docs env).symm.trans hoff
  · by_cases hne : k' = k
    · subst hne
      exact ⟨_, hmark K hkeeps hK, hK.mark env _⟩
    · obtain ⟨K', hkeeps', hK'⟩ := h.kept k' (keysUp_sheds h.atoms hsheds hk')
      exact ⟨K', hframe k' (keysUp_sheds h.atoms hsheds hk') hne K' hkeeps', hK'⟩

/-- What is listed after a versioned deletion: the other keys, and the deleted one where its
history did not know of the current copy. -/
theorem Archived.listed (hb : validateBucketName bucket = .ok ()) (h : Archived S site bucket s)
    (hlisted : k ∈ keysUp site bucket s) (env : CallEnv) (k' : Str) :
    k' ∈ keysUp site bucket (site.run (deleteObject env bucket k) s).2 ↔
      k' ∈ keysUp site bucket s ∧ (k' = k → ¬ CurrentKnown site bucket s k) := by
  have hatom := validateBucketName_atom hb
  obtain ⟨h', hframe, hmark⟩ := h.delete hb hlisted env
  obtain ⟨hshown, -⟩ := (mem_keysUp h.atoms).1 hlisted
  obtain ⟨-, hsheds⟩ := deleteObject_sheds hatom hshown.descends
    (Site.misbehaves site) env h.docs
  by_cases hne : k' = k
  · subst hne
    obtain ⟨K, hkeeps, hK⟩ := h.kept k' hlisted
    rw [listed_of_keeps hatom h'.atoms hshown (hmark K hkeeps hK), and_iff_right hlisted,
      imp_iff_right rfl, currentKnown_of_keeps hkeeps]
    obtain ⟨d, hup, hslot⟩ := (listed_of_keeps hatom h.atoms hshown hkeeps).1 hlisted
    rw [← occupied_seed_iff hup hslot]
    constructor
    · rintro ⟨e, heup, hleft⟩ hocc
      rw [mark_current, heup, hocc] at hleft
      exact hleft rfl
    · intro hocc
      refine ⟨d, hup, ?_⟩
      rw [mark_current, Bool.not_eq_true _ |>.mp hocc, Bool.and_false, if_neg (by simp)]
      exact hslot
  · rw [and_iff_left fun heq => absurd heq hne]
    refine ⟨fun hk' => keysUp_sheds h.atoms hsheds hk', fun hk' => ?_⟩
    obtain ⟨hshown', -⟩ := (mem_keysUp h.atoms).1 hk'
    obtain ⟨K', hkeeps', -⟩ := h.kept k' hk'
    rw [listed_of_keeps hatom h'.atoms hshown' (hframe k' hk' hne K' hkeeps')]
    exact (listed_of_keeps hatom h.atoms hshown' hkeeps').1 hk'

/-- A deletion leaves a key listed whose history does not know of its current copy. -/
theorem Archived.stuck (hb : validateBucketName bucket = .ok ()) (h : Archived S site bucket s)
    {key : Str} (hkey : key ∈ keysUp site bucket s) (hk : k ∈ keysUp site bucket s)
    (hno : ¬ CurrentKnown site bucket s k) (env : CallEnv) :
    k ∈ keysUp site bucket (site.run (deleteObject env bucket key) s).2 ∧
      ¬ CurrentKnown site bucket (site.run (deleteObject env bucket key) s).2 k := by
  obtain ⟨h', hframe, hmark⟩ := h.delete hb hkey env
  refine ⟨(h.listed hb hkey env k).2 ⟨hk, fun heq => heq ▸ hno⟩, ?_⟩
  obtain ⟨K, hkeeps, hK⟩ := h.kept k hk
  by_cases hne : k = key
  · subst hne
    obtain ⟨hshown, d, hup, -⟩ := (mem_keysUp h.atoms).1 hk
    rw [currentKnown_of_keeps (hmark K hkeeps hK)]
    exact not_known_mark hup env _ K
  · rw [currentKnown_of_keeps (hframe k hk hne K hkeeps), ← currentKnown_of_keeps hkeeps]
    exact hno

theorem Versioned.known (h : Versioned S site bucket s) (hb : Atom bucket)
    (hlisted : k ∈ keysUp site bucket s) : CurrentKnown site bucket s k := by
  obtain ⟨K, hkeeps, -, hsettled⟩ := h.kept k hlisted
  obtain ⟨hshown, -⟩ := (mem_keysUp h.atoms).1 hlisted
  obtain ⟨d, hup, hslot⟩ := (listed_of_keeps hb h.atoms hshown hkeeps).1 hlisted
  exact (currentKnown_of_keeps hkeeps).2 (hsettled d hup hslot)

/-- Each drive that has a listed key's current copy has its metadata. -/
theorem Archived.readable (hb : Atom bucket) (h : Archived S site bucket s) :
    AllReadable site bucket s := by
  intro k hk
  obtain ⟨K, hkeeps, -⟩ := h.kept k hk
  obtain ⟨hshown, -⟩ := (mem_keysUp h.atoms).1 hk
  obtain ⟨d, hup, hslot⟩ := (listed_of_keeps hb h.atoms hshown hkeeps).1 hk
  have hstored := storedAt_of_keeps hb hshown hkeeps d
  obtain ⟨c, hc⟩ := Option.ne_none_iff_exists'.1 hslot
  rw [hc, Option.map_some] at hstored
  have hread := readXl_eq site hb hshown.currentNames
    (h.atoms d _ hshown.currentNames (by rw [hstored]; rfl)) hshown.currentKey s
  cases hfirst : firstUp site fun d =>
      ((storedAt site.root bucket s d (metaNames k)).bind Content.doc?).bind Doc.xl? with
  | some m =>
      rw [hfirst] at hread
      exact ⟨m, Prod.ext hread (by rw [readXl, run_readXlV])⟩
  | none =>
      rw [firstUp, List.findSome?_eq_none_iff] at hfirst
      have hnone := hfirst d (List.mem_finRange d)
      rw [if_pos hup, hstored] at hnone
      cases hnone

theorem Archived.versioned (hb : Atom bucket) (h : Archived S site bucket s)
    (hknown : ∀ k ∈ keysUp site bucket s, CurrentKnown site bucket s k) :
    Versioned S site bucket s :=
  ⟨h.docs, h.atoms, h.there, h.readable hb, h.mode, fun k hk => by
    obtain ⟨K, hkeeps, hK⟩ := h.kept k hk
    exact ⟨K, hkeeps, hK, fun _ _ _ => (currentKnown_of_keeps hkeeps).1 (hknown k hk)⟩⟩

/-- The worker's deletions in a bucket under versioning: no key goes with another. -/
theorem expiryStore_serves_versioned (hb : validateBucketName bucket = .ok ())
    (env : Cluster n Doc → Str → CallEnv) :
    (expiryStore site bucket env).Serves (Versioned S site bucket) (keysUp site bucket)
      (objUp site bucket) Eq where
  takes_self _ := rfl
  takes_trans h h' := h.trans h'
  keys_nodup h := keysUp_nodup_of_atoms h.atoms
  obj_key := objUp_key
  list_eq h := expiryStore_list env h.there h.readable
  delete := by
    intro s s₀ k hu _ _ hlisted
    have hlisted : k ∈ keysUp site bucket s := hlisted.resolve_right fun ⟨_, hne, heq⟩ => hne heq
    obtain ⟨hdone, hframe, -⟩ := hu.archived.delete hb hlisted (env s k)
    let s' := (site.run (deleteObject (env s k) bucket k) s).2
    have hmem : ∀ k', k' ∈ keysUp site bucket s' ↔ k' ∈ keysUp site bucket s ∧ ¬ k = k' := by
      intro k'
      refine (hu.archived.listed hb hlisted (env s k) k').trans (and_congr_right fun _ => ?_)
      exact ⟨fun hno heq => hno heq.symm (hu.known (validateBucketName_atom hb) hlisted),
        fun hne heq => absurd heq.symm hne⟩
    have hleft : ∀ k' ∈ keysUp site bucket s', Spared site.root bucket k' s s' := by
      intro k' hk'
      obtain ⟨hold, hne⟩ := (hmem k').1 hk'
      obtain ⟨K', hkeeps', -, -⟩ := hu.kept k' hold
      exact spared_of_keeps hkeeps' (hframe k' hold (Ne.symm hne) K' hkeeps') hdone.docs
    obtain ⟨hread, hshrunk⟩ := shrunk_of_spared env hu.readable hmem hleft
    refine ⟨⟨hdone.docs, hdone.atoms, hdone.there, hread, hdone.mode, fun k' hk' => ?_⟩, hshrunk⟩
    obtain ⟨hold, hne⟩ := (hmem k').1 hk'
    obtain ⟨K', hkeeps', hrest⟩ := hu.kept k' hold
    exact ⟨K', hframe k' hold (Ne.symm hne) K' hkeeps', hrest⟩

end ErasureStore

namespace FsStore

variable {S : FsStore} {root : List Str} {bucket key : Str} {t : Tree FsDoc} {k : Str}

/-! ## The filesystem store -/

/-- The filesystem store as the worker sees it; `env` is what a deletion is given. -/
def expiryStore (S : FsStore) (root : List Str) (bucket : Str)
    (env : Tree FsDoc → Str → CallEnv) : ExpiryStore (Tree FsDoc) where
  listObjectsV2 pre token maxKeys t :=
    result root (S.listObjectsV2 bucket pre none token none maxKeys) t
  getObjectLegalHold key t := result root (S.getObjectLegalHold bucket key) t
  getObjectRetention key t := result root (S.getObjectRetention bucket key) t
  deleteObject key t := after root (S.deleteObject (env t key) bucket key) t

/-- What a listing says of a key. -/
def objIn (S : FsStore) (root : List Str) (bucket : Str) (t : Tree FsDoc) (k : Str) :
    ObjectMeta :=
  ((storedIn S root bucket k t).toOption.map (storedToMeta k)).getD
    ⟨k, 0, [], 0, [], [], false, none, none⟩

theorem objIn_key (t : Tree FsDoc) (k : Str) : (objIn S root bucket t k).key = k := by
  unfold objIn
  cases storedIn S root bucket k t <;> rfl

theorem expiryStore_list (env : Tree FsDoc → Str → CallEnv)
    (hb : validateBucketName bucket = .ok ()) (h : Orderly root bucket t) (pre : Str)
    (token : Option Str) (m : Nat) :
    (expiryStore S root bucket env).listObjectsV2 pre token m t =
      .ok ((pageKeys pre none token none m
        (((keysIn root bucket t).filter fun k => pre.isPrefixOf k).insertionSort (· ≤ ·))
        ⟨[], [], 0, false, none⟩).listing (objIn S root bucket t)) := by
  refine congrArg Prod.fst (run_listObjectsV2 h.there (fun k hk => ?_) pre none token none m)
  obtain ⟨m, hm⟩ := h.readable hb S k hk
  exact ⟨m, hm, by rw [objIn, hm]; rfl⟩

/-- Where a key's payload went and all else was left, the bucket shrank by the key. -/
theorem shrunk_of_deleted (env : Tree FsDoc → Str → CallEnv)
    (hb : validateBucketName bucket = .ok ()) (h : Orderly root bucket t)
    (hk : key ∈ keysIn root bucket t)
    (hgone : ∀ s, ((expiryStore S root bucket env).deleteObject key t).file?
      (place root bucket key .payload ++ s) = none) :
    Orderly root bucket ((expiryStore S root bucket env).deleteObject key t) ∧
      ExpiryStore.Shrunk (expiryStore S root bucket env) (keysIn root bucket)
        (objIn S root bucket) (key = ·) t ((expiryStore S root bucket env).deleteObject key t) := by
  obtain ⟨h', hmem, hfiles⟩ := h.deleted (S := S) hb hk (env t key) rfl hgone
  have hsame : ∀ k ∈ keysIn root bucket ((expiryStore S root bucket env).deleteObject key t),
      Undisturbed S root bucket k t ((expiryStore S root bucket env).deleteObject key t) :=
    fun k hk' => undisturbed hb (h'.valid k hk') (hfiles k hk')
  refine ⟨h', hmem, fun k hk' => ?_, fun k hk' => (hsame k hk').legalHold,
    fun k hk' => (hsame k hk').retention⟩
  have hstored : storedIn S root bucket k ((expiryStore S root bucket env).deleteObject key t) =
      storedIn S root bucket k t := storedIn_congr (hfiles k hk')
  rw [objIn, objIn, hstored]

/-- The worker's deletions, in states in which a deletion takes the payload away. -/
theorem serves_of_gone (env : Tree FsDoc → Str → CallEnv) {I : Tree FsDoc → Prop}
    (hb : validateBucketName bucket = .ok ()) (horderly : ∀ t, I t → Orderly root bucket t)
    (hgone : ∀ t, I t → ∀ key ∈ keysIn root bucket t, ∀ s,
      ((expiryStore S root bucket env).deleteObject key t).file?
        (place root bucket key .payload ++ s) = none)
    (hkept : ∀ t, I t → ∀ key ∈ keysIn root bucket t,
      Orderly root bucket ((expiryStore S root bucket env).deleteObject key t) →
      I ((expiryStore S root bucket env).deleteObject key t)) :
    (expiryStore S root bucket env).Serves I (keysIn root bucket) (objIn S root bucket) Eq where
  takes_self _ := rfl
  takes_trans h h' := h.trans h'
  keys_nodup h := keysIn_nodup_of_atoms (validateBucketName_atom hb) (horderly _ h).atoms
  obj_key := objIn_key
  list_eq h := expiryStore_list env hb (horderly _ h)
  delete := by
    intro t t₀ key hI _ _ hlisted
    have hlisted : key ∈ keysIn root bucket t :=
      hlisted.resolve_right fun ⟨_, hne, heq⟩ => hne heq
    obtain ⟨h', hshrunk⟩ := shrunk_of_deleted env hb (horderly t hI) hlisted
      (hgone t hI key hlisted)
    exact ⟨hkept t hI key hlisted h', hshrunk⟩

/-- A bucket in order without versioning. -/
structure Unversioned (root : List Str) (bucket : Str) (t : Tree FsDoc) : Prop extends
    Orderly root bucket t where
  mode : modeIn root bucket t = .off

theorem expiryStore_serves_off (S : FsStore) (env : Tree FsDoc → Str → CallEnv)
    (hb : validateBucketName bucket = .ok ()) :
    (expiryStore S root bucket env).Serves (Unversioned root bucket) (keysIn root bucket)
      (objIn S root bucket) Eq := by
  refine serves_of_gone env hb (fun t h => h.toOrderly) (fun t h key hk s => ?_)
    fun t h key hk h' => ⟨h', ?_⟩
  · refine file?_deleteObject_off h.there h.mode (env t key) ?_
    by_cases hs : s = []
    · exact .inr (by rw [hs, List.append_nil])
    · obtain ⟨c, hc⟩ := Option.isSome_iff_exists.1 (h.payload hb hk)
      exact .inl (by rw [file?, look_below (by rw [file?_eq_some.1 hc]; simp) hs])
  · exact (modeIn_deleted h.docs ⟨hb, h.valid key hk⟩ (env t key)).trans h.mode

/-- A bucket in order under versioning, with nothing in the way of the listed keys' files and
with histories that know of the current objects. -/
structure Versioned (root : List Str) (bucket : Str) (t : Tree FsDoc) : Prop extends
    Orderly root bucket t where
  mode : modeIn root bucket t ≠ .off
  clear : ∀ k ∈ keysIn root bucket t, Clear root bucket k t
  filed : ∀ k ∈ keysIn root bucket t, Filed root bucket k t
  settled : ∀ k ∈ keysIn root bucket t, Settled root bucket k t

/-- The worker's deletions in a bucket under versioning. -/
theorem expiryStore_serves_versioned (S : FsStore) (env : Tree FsDoc → Str → CallEnv)
    (hb : validateBucketName bucket = .ok ()) :
    (expiryStore S root bucket env).Serves (Versioned root bucket) (keysIn root bucket)
      (objIn S root bucket) Eq := by
  refine serves_of_gone env hb (fun t h => h.toOrderly) (fun t h key hk s => ?_)
    fun t h key hk h' => ?_
  · exact file?_deleteObject_versioned h.there h.mode ⟨hb, h.valid key hk⟩ (h.clear key hk)
      (h.filed key hk) (h.settled key hk) (h.payload hb hk) (env t key) s
  · have hgone := fun s => file?_deleteObject_versioned (S := S) h.there h.mode
      ⟨hb, h.valid key hk⟩ (h.clear key hk) (h.filed key hk) (h.settled key hk)
      (h.payload hb hk) (env t key) s
    obtain ⟨-, hmem, hfiles⟩ := h.deleted (S := S) hb hk (env t key) rfl hgone
    have hold : ∀ k ∈ keysIn root bucket ((expiryStore S root bucket env).deleteObject key t),
        k ∈ keysIn root bucket t ∧ KeysApart root bucket key k ∧ KeysApart root bucket k key :=
      fun k hk' => by
        obtain ⟨hk₀, hne⟩ := (hmem k).1 hk'
        exact ⟨hk₀, h.apart key hk k hk₀ hne, h.apart k hk₀ key hk (Ne.symm hne)⟩
    refine ⟨h', ?_, fun k hk' => ?_, fun k hk' => ?_, fun k hk' => ?_⟩
    · exact fun hoff => h.mode
        ((modeIn_deleted h.docs ⟨hb, h.valid key hk⟩ (env t key)).symm.trans hoff)
    · obtain ⟨hk₀, hapart, hapart'⟩ := hold k hk'
      exact (h.clear k hk₀).deleted ⟨hb, h.valid k hk₀⟩ ⟨hb, h.valid key hk⟩ hapart hapart' _
    · exact (h.filed k (hold k hk').1).congr (hfiles k hk')
    · obtain ⟨hk₀, hapart, hapart'⟩ := hold k hk'
      exact (h.settled k hk₀).deleted h.docs ⟨hb, h.valid k hk₀⟩ ⟨hb, h.valid key hk⟩ hapart
        hapart' _

end FsStore

/-! ## A pass -/

open ExpiryStore

section

variable {n : Nat} {bucket : Str}

end

/-! ## A rule of one day -/

/-- Nothing that is stored can be read as a date. -/
def noDates : LockText := ⟨fun _ => none, fun _ => none⟩

/-- Expire everything `days` days old. -/
def afterDays (days : UInt64) : LifecycleRule :=
  ⟨none, "Enabled".toList, none, some ⟨some days, none⟩, none⟩

section

variable {σ : Type} {S : ExpiryStore σ} {keys : σ → List Str} {obj : σ → Str → ObjectMeta}
  {takes : Str → Str → Prop} {now : Int} {s : σ}

theorem due_one_day (P : LifecycleExpiration → Prop) {k : Str}
    (h : Due S noDates now P [afterDays 1] s k) : P ⟨some 1, none⟩ := by
  obtain ⟨-, r, hr, exp, hexp, -, hP⟩ := h
  obtain rfl := List.mem_singleton.1 hr
  obtain rfl := Option.some.inj hexp
  exact hP

theorem duesMet_one_day (hapart : ∀ k ∈ keys s, ∀ k₀ ∈ keys s, k₀ ≠ k → ¬ takes k₀ k) :
    DuesMet S noDates keys obj takes now [afterDays 1] s := by
  intro k hk _
  constructor
  · intro h
    obtain ⟨-, date, hdate, -⟩ := due_one_day _ h
    exact absurd hdate (by simp)
  · rintro (h | ⟨k₀, hk₀, hne, htakes, -⟩)
    · obtain ⟨days, hdays, hle, -⟩ := due_one_day _ h
      obtain rfl := Option.some.inj hdays
      exact absurd hle (by decide)
    · exact absurd htakes (hapart k hk k₀ hk₀ hne)

end

/-- Two objects of a bucket, put a day and a half apart. -/
def twoDays (old new : Str) : Cluster 3 Doc :=
  let s := (trioUp.run (ErasureStore.trio.putObject (callAt 'a' 1 isHexLower_a) "docs".toList old
    (.ofBytes [1]) [] [] false) (withBucket "docs".toList)).2
  (trioUp.run (ErasureStore.trio.putObject (callAt 'b' 129600 rfl) "docs".toList new
    (.ofBytes [2]) [] [] false) s).2

theorem properCluster_twoDays (old new : Str) : ProperCluster (twoDays old new) :=
  Site.run_proper (ErasureStore.meetsE_putObject _ _ _ _ _) (fun _ h => h) (fun _ h => h)
    (Site.run_proper (ErasureStore.meetsE_putObject _ _ _ _ _) (fun _ h => h) (fun _ h => h)
      (properCluster_withBucket _))

theorem unversioned_twoDays {old new : Str} (hatoms : ∀ d, AtomNames (twoDays old new d))
    (hthere : ErasureStore.bucketUp trioUp "docs".toList (twoDays old new) = true)
    (hread : ∀ k ∈ ErasureStore.keysUp trioUp "docs".toList (twoDays old new),
      isErr (trioUp.run (ErasureStore.readXl "docs".toList k) (twoDays old new)).1 = false)
    (hmode : ErasureStore.modeOf trioUp "docs".toList (twoDays old new) = .off) :
    ErasureStore.Unversioned trioUp "docs".toList (twoDays old new) where
  docs := properCluster_twoDays old new
  atoms := ErasureStore.atomsStored hatoms
  there := hthere
  readable k hk := by
    obtain ⟨m, hm⟩ := exists_ok_of_isErr (hread k hk)
    exact ⟨m, Prod.ext hm (by rw [ErasureStore.readXl, ErasureStore.run_readXlV])⟩
  mode := hmode

/-- The same on the filesystem store, whose versioning was enabled afterwards. -/
def twoDaysIn : Tree FsDoc :=
  FsStore.reached FsStore.plainStore [] .empty [.createBucket "docs".toList,
    .put (FsStore.fsCallAt 'a' 1 isHexLower_a) "docs".toList "a".toList (.ofBytes [1]) [] []
      false,
    .put (FsStore.fsCallAt 'b' 129600 rfl) "docs".toList "b".toList (.ofBytes [2]) [] [] false,
    .setBucketVersioning "docs".toList "Enabled".toList]

theorem atomsIn_of_names {root : List Str} {bucket : Str} {t : Tree FsDoc} (h : AtomNames t) :
    FsStore.AtomsIn root bucket t := by
  intro comps hsome c hc
  obtain ⟨x, hx⟩ := Option.isSome_iff_exists.1 hsome
  have hlook := file?_eq_some.1 hx
  rw [look_of_ne (by simp)] at hlook
  exact h _ (Std.ExtTreeMap.mem_iff_isSome_getElem?.2 (by rw [hlook]; rfl)) c
    (List.mem_append_right _ (List.mem_cons_of_mem _ hc))

theorem versioned_twoDaysIn : FsStore.Versioned [] "docs".toList twoDaysIn := by
  have hkeys : FsStore.keysIn [] "docs".toList twoDaysIn = ["a".toList, "b".toList] := by
    decide +kernel
  have hempty : ∀ q, (FileTree.empty : Tree FsDoc).file? q = none := by
    intro q
    cases q with
    | nil => rfl
    | cons x q => rw [file?, look_empty _ (by simp)]
  have hdocs : DocsIn ProperFsDoc twoDaysIn := FsStore.docsIn_reached hempty _
  have hfree : ∀ k ∈ FsStore.keysIn [] "docs".toList twoDaysIn,
      FsStore.Unobstructed [] "docs".toList k twoDaysIn := by
    rw [hkeys]
    intro k hk
    simp only [List.mem_cons, List.not_mem_nil, or_false] at hk
    rcases hk with rfl | rfl
    · exact FsStore.unobstructed_of_absent (by decide +kernel) (by decide +kernel) hdocs
    · exact FsStore.unobstructed_of_absent (by decide +kernel) (by decide +kernel) hdocs
  refine ⟨⟨hdocs, atomsIn_of_names (by decide +kernel), by decide +kernel, by decide +kernel,
    ?_⟩, by decide +kernel, fun k hk => (hfree k hk).toClear, fun k hk => (hfree k hk).filed, ?_⟩
  · rw [hkeys]
    intro k hk k' hk' hne
    simp only [List.mem_cons, List.not_mem_nil, or_false] at hk hk'
    rcases hk with rfl | rfl <;> rcases hk' with rfl | rfl
    · exact absurd rfl hne
    · exact FsStore.keysApart_atoms (by decide) (by decide) (by decide) (by decide) (by decide)
        (by decide) (by decide)
    · exact FsStore.keysApart_atoms (by decide) (by decide) (by decide) (by decide) (by decide)
        (by decide) (by decide)
    · exact absurd rfl hne
  · rw [hkeys]
    intro k hk
    simp only [List.mem_cons, List.not_mem_nil, or_false] at hk
    rcases hk with rfl | rfl
    · exact .inl (by decide +kernel)
    · exact .inl (by decide +kernel)

/-- On the sharded store, with one object. -/
def oneDay : Cluster 3 Doc :=
  ((keyMachine ErasureStore.trio topRoot "docs".toList "a".toList).step (withBucket "docs".toList)
    ⟨fun _ => true, .put (callAt 'a' 1 isHexLower_a) (.ofBytes [1]) [] [] false⟩).2

def oneDayVersioned : Cluster 3 Doc :=
  (trioUp.run (ErasureStore.setBucketVersioning "docs".toList "Enabled".toList) oneDay).2

theorem versioned_oneDay :
    ErasureStore.Versioned ErasureStore.trio trioUp "docs".toList oneDayVersioned := by
  have hkeys : ErasureStore.keysUp trioUp "docs".toList oneDayVersioned = ["a".toList] := by
    decide +kernel
  have hkept : Kept ErasureStore.trio topRoot "docs".toList "a".toList oneDay :=
    (kept_of_untouched (by decide +kernel)).step ErasureStore.trio_lawful (by decide) _
  have hproper : ProperCluster oneDay :=
    Site.run_proper (KeyCall.meetsE _) (fun _ h => h) (fun _ h => h) (properCluster_withBucket _)
  obtain ⟨K, hk, hK⟩ := hkept
  have hb : validateBucketName "docs".toList = .ok () := by decide
  obtain ⟨hk', hdocs⟩ := keeps_setBucketVersioning hb hb (by decide) hproper hk "Enabled".toList
  have hhistory : K.hasHistory trioUp = false := by
    have hrun := congrArg Prod.fst (Keeps.run_hasHistory hk')
    have hnone : (trioUp.run (ErasureStore.hasHistory "docs".toList "a".toList)
        oneDayVersioned).1 = .ok false := by decide +kernel
    exact Except.ok.inj (hrun.symm.trans hnone)
  have hread : ∀ k ∈ ErasureStore.keysUp trioUp "docs".toList oneDayVersioned,
      isErr (trioUp.run (ErasureStore.readXl "docs".toList k) oneDayVersioned).1 = false := by
    decide +kernel
  refine ⟨hdocs, ErasureStore.atomsStored (by decide +kernel), by decide +kernel, fun k hk => ?_,
    by decide +kernel, fun k hk => ?_⟩
  · obtain ⟨m, hm⟩ := exists_ok_of_isErr (hread k hk)
    exact ⟨m, Prod.ext hm (by rw [ErasureStore.readXl, ErasureStore.run_readXlV])⟩
  · rw [hkeys, List.mem_singleton] at hk
    subst hk
    exact ⟨K, hk', hK, fun _ _ _ => .inl hhistory⟩

end Kerplace
