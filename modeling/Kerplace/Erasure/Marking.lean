/-
# `Kerplace.Erasure.Marking` — what a versioned deletion leaves of other keys

Under versioning a deletion writes a key's own files, those of its archive among them, and makes
no directory but the archive's.  So it meets no file of another key, even one whose directory
lies in the key's own: the two could only meet where a file of the one stands above the other,
and of two keys that are both there neither does.
-/
import Kerplace.Erasure.Removal

namespace Kerplace

open FileTree Prog UnixPath ErasureStore

/-! ## Regions apart from a key's files -/

/-- An operation in a region that meets none of a key's files. -/
theorem Shows.step_apart {R : Region Doc} {dir root : List Str} {F : Shelf} {t : Tree Doc}
    {o : DriveOp Doc} (hchanges : ∀ p, R.Changes p → ∀ q, OnShelf dir q → ¬ p.resolve root <+: q)
    (htrees : ∀ p, R.trees p → ∀ q, OnShelf dir q → ¬ q <+: p.resolve root)
    (hprunes : ∀ p, ¬ R.prunes p) (ho : o.Within R) (ht : Shows dir F t) :
    Shows dir F (LocalDrive.step root o t).2 := by
  have hfile : ∀ q, (∃ q', q <+: q' ∧ OnShelf dir q') →
      (LocalDrive.step root o t).2.file? q = t.file? q := by
    rintro q ⟨q', hq, hshelf⟩
    exact LocalDrive.step_file? ho (fun p hp hpq => hchanges p hp q' hshelf (hpq.trans hq)) t
  have hlook : ∀ q, OnShelf dir q → (LocalDrive.step root o t).2.look q = t.look q := by
    intro q hq
    cases LocalDrive.step_effect root q o t with
    | kept hl => exact hl
    | removed p hp hpq =>
        exact absurd hpq (hchanges p (LocalDrive.alters_changes ho hp) q hq)
    | stored p c hw hpq =>
        subst hw
        exact absurd hpq (hchanges p (.inl ho.1) q hq)
    | filled p b hp hpq =>
        exact absurd hpq (hchanges p (LocalDrive.alters_changes ho hp) q hq)
    | moved p q' hp hpq =>
        exact absurd hpq (hchanges p (LocalDrive.alters_changes ho hp) q hq)
    | pruned p hr hpq hdir =>
        subst hr
        rcases ho with ho | ho
        · exact absurd ho (hprunes p)
        · exact absurd (hpq ▸ List.prefix_refl _) (hchanges p (.inr ho) q hq)
    | made p hm hqp =>
        subst hm
        exact absurd hqp (htrees p ho q hq)
  refine ⟨fun slot hs q hq => ?_, ?_, fun a ha => ?_⟩
  · have hproper : (Place.part slot).Proper := hs
    rw [hfile q ⟨_, hq.trans ⟨[PART], List.append_assoc _ _ _⟩, .inr ⟨_, hproper, rfl⟩⟩]
    exact ht.dirs slot hs q hq
  · rw [hlook _ (.inl rfl)]
    exact ht.tmp
  · rw [hlook _ (.inr ⟨a, ha, rfl⟩)]
    exact ht.place a ha

section

variable {n : Nat} {S : ErasureStore n} {site : Site n} {bucket k k' : Str}
  {K K' : KeyStates n} {s : Cluster n Doc}

/-! ## Names below two keys -/

/-- What a key's directory may hold: a file of the object, or its archive. -/
inductive ObjectRel : List Str → Prop where
  | file {f : Str} (hf : f ∈ OBJECT_FILES) : ObjectRel [f]
  | version (rest : List Str) : ObjectRel (VDIR :: rest)

theorem objectRel_of_place {a : Place} (ha : a.Proper) : ObjectRel a.rel := by
  cases a with
  | part slot =>
      cases slot with
      | none => exact .file (by decide)
      | some v => exact .version _
  | xl slot =>
      cases slot with
      | none => exact .file (by decide)
      | some v => exact .version _
  | history => exact .version _
  | side f =>
      have hfiles : ∀ f ∈ SIDECARS, f ∈ OBJECT_FILES := by decide
      exact .file (hfiles f ha)

theorem objectRel_of_onShelf {dir q : List Str} (h : OnShelf dir q) :
    ∃ r, ObjectRel r ∧ q = dir ++ r := by
  rcases h with rfl | ⟨a, ha, rfl⟩
  · exact ⟨_, .file (by decide), rfl⟩
  · exact ⟨_, objectRel_of_place ha, rfl⟩

/-- Where the names of two keys and what lies below them could meet. -/
theorem not_prefix_rel {c c' w r : List Str} (hne : c ≠ c') (hlive : VDIR ∉ c) (hlive' : VDIR ∉ c')
    (hw : ObjectRel w) (hr : ObjectRel r) (habove : ∀ f ∈ OBJECT_FILES, ¬ c ++ [f] <+: c') :
    ¬ c ++ w <+: c' ++ r := by
  rintro ⟨rest, heq⟩
  rw [List.append_assoc] at heq
  rcases List.append_eq_append_iff.1 heq with ⟨z, rfl, hz⟩ | ⟨z, rfl, hz⟩
  · -- the first key is above the second
    cases z with
    | nil => exact hne (List.append_nil _).symm
    | cons z zs =>
        cases hw with
        | file hf =>
            obtain ⟨rfl, -⟩ := List.cons.inj hz
            exact habove _ hf ⟨zs, by simp⟩
        | version rest' =>
            obtain ⟨rfl, -⟩ := List.cons.inj hz
            exact hlive' (by simp)
  · -- the second key is above the first
    cases z with
    | nil => exact hne (List.append_nil _)
    | cons z zs =>
        cases hr with
        | file hf =>
            obtain ⟨-, hnil⟩ := List.cons.inj hz
            cases hw with
            | file hf' => simp at hnil
            | version rest' => simp at hnil
        | version rest' =>
            obtain ⟨rfl, -⟩ := List.cons.inj hz
            exact hlive (by simp)

/-- Where the paths lie that work on a key's files and versions changes. -/
theorem versionRegion_changes {p : UnixPath} (hp : (versionRegion bucket k).Changes p)
    (root : List Str) :
    ∃ w, ObjectRel w ∧ p.resolve root = (rObject bucket k).resolve root ++ w := by
  rcases hp with hp | hp
  · cases hp with
    | file hf => exact ⟨_, .file hf, resolve_joinStr_atom (atom_objectFile hf) root⟩
    | history => exact ⟨_, .version [HISTORY], resolve_history root⟩
    | archived hv hf =>
        rename_i v f
        have hatom : Atom f := by
          simp only [List.mem_cons, List.not_mem_nil, or_false] at hf
          rcases hf with rfl | rfl <;> decide
        refine ⟨_, .version [v, f], ?_⟩
        rw [resolve_joinStr_atom hatom, resolve_rObjV (properVersion_some hv), List.append_assoc]
        rfl
  · cases hp with
    | versions => exact ⟨_, .version [], resolve_vdir root⟩
    | archive hv => exact ⟨_, .version [_], resolve_rObjV (properVersion_some hv) root⟩

theorem versionRegion_trees {p : UnixPath} (hp : (versionRegion bucket k).trees p)
    (root : List Str) :
    ∃ rest, p.resolve root = (rObject bucket k).resolve root ++ VDIR :: rest := by
  cases hp with
  | versions => exact ⟨[], resolve_vdir root⟩
  | archive hv => exact ⟨[_], resolve_rObjV (properVersion_some hv) root⟩

/-! ## Two keys that are there -/

/-- Where a drive has files of a key, no file of a key that the drives keep stands above its
directory. -/
theorem Keeps.not_above (hb : Atom bucket) (hk : Keeps S site bucket k K s) (hshown : ShownKey k)
    {d : Fin n}
    (hthere : (storedAt site.root bucket s d (metaNames k')).isSome = true) :
    ∀ f ∈ OBJECT_FILES, ¬ compsOf k ++ [f] <+: compsOf k' := by
  intro f hf hpre
  obtain ⟨c, hc⟩ := Option.isSome_iff_exists.1 hthere
  have hdir : (s d).look (site.objDir bucket k d ++ [f]) = some .dir := by
    obtain ⟨z, hz⟩ := hpre
    have hfile := file?_eq_some.1 hc
    rw [resolve_rBucket hb, metaNames, ← hz] at hfile
    rw [site.objDir_eq hb hshown.descends]
    refine look_ancestor (s := z ++ [XL_META]) (by simp) (n := .file c) ?_
    simpa using hfile
  have hplaces : f = PART_TMP ∨ ∃ a : Place, a.Proper ∧ a.rel = [f] := by
    simp only [OBJECT_FILES, List.mem_cons, List.not_mem_nil, or_false] at hf
    rcases hf with rfl | rfl | rfl | rfl | rfl | rfl
    · exact .inr ⟨.xl none, properVersion_none, rfl⟩
    · exact .inr ⟨.part none, properVersion_none, rfl⟩
    · exact .inl rfl
    · exact .inr ⟨.side TAGS, show TAGS ∈ SIDECARS by decide, rfl⟩
    · exact .inr ⟨.side RETENTION, show RETENTION ∈ SIDECARS by decide, rfl⟩
    · exact .inr ⟨.side LEGALHOLD, show LEGALHOLD ∈ SIDECARS by decide, rfl⟩
  rcases hplaces with rfl | ⟨a, ha, hrel⟩
  · exact (hk d).tmp hdir
  · rw [← hrel, (hk d).place a ha] at hdir
    exact KeyState.shelf_files a hdir

/-- What works on the files and versions of one of two keys that are there leaves the other's. -/
theorem Keeps.version_frame (hb : Atom bucket) (hk : Keeps S site bucket k K s)
    (hk' : Keeps S site bucket k' K' s) (hshown : ShownKey k) (hshown' : ShownKey k')
    (hne : k ≠ k') {d d' : Fin n}
    (hthere : (storedAt site.root bucket s d (metaNames k)).isSome = true)
    (hthere' : (storedAt site.root bucket s d' (metaNames k')).isSome = true) {α : Type}
    {p : EStore n α} {Q : α → Prop} {locks : Str → Prop}
    (hp : MeetsE (storeContract n (versionRegion bucket k) locks) p Q) (hs : ProperCluster s) :
    Keeps S site bucket k' K' (site.run p s).2 := by
  have hcomps : compsOf k ≠ compsOf k' := fun heq => hne (hshown.inj hshown' heq)
  have habove := hk.not_above hb hshown hthere'
  have habove' := hk'.not_above hb hshown' hthere
  have hstep : ∀ e (o : DriveOp Doc) t F, o.Within (versionRegion bucket k) →
      Shows (site.objDir bucket k' e) F t →
      Shows (site.objDir bucket k' e) F (LocalDrive.step (site.root e) o t).2 := by
    intro e o t F ho ht
    refine Shows.step_apart (fun p hp q hq hpre => ?_) (fun p hp q hq hpre => ?_)
      (fun _ hno => hno) ho ht
    · obtain ⟨w, hw, hpath⟩ := versionRegion_changes hp (site.root e)
      obtain ⟨r, hr, rfl⟩ := objectRel_of_onShelf hq
      rw [hpath, resolve_rObject hb hshown.descends, site.objDir_eq hb hshown'.descends,
        List.append_assoc, List.append_assoc, List.prefix_append_right_inj, List.cons_append,
        List.cons_append, List.cons_prefix_cons] at hpre
      exact not_prefix_rel hcomps hshown.live hshown'.live hw hr habove hpre.2
    · obtain ⟨rest, hpath⟩ := versionRegion_trees hp (site.root e)
      obtain ⟨r, hr, rfl⟩ := objectRel_of_onShelf hq
      rw [hpath, resolve_rObject hb hshown.descends, site.objDir_eq hb hshown'.descends,
        List.append_assoc, List.append_assoc, List.prefix_append_right_inj, List.cons_append,
        List.cons_append, List.cons_prefix_cons] at hpre
      exact not_prefix_rel hcomps.symm hshown'.live hshown.live hr (.version rest) habove' hpre.2
  have hon : Honours site.step (storeContract n (versionRegion bucket k) locks) fun u =>
      ProperCluster u ∧ Keeps S site bucket k' K' u :=
    Site.honours fun e o u ho hu => ⟨LocalDrive.step_finds (fun _ h => h) o (hu.1 e),
      Site.update_forall hu.1 (LocalDrive.step_docs (fun _ h => h) ho (hu.1 e)),
      fun e' => by
        by_cases he : e' = e
        · subst he
          rw [Function.update_self]
          exact hstep e' o (u e') _ ho (hu.2 e')
        · rw [Function.update_of_ne he]
          exact hu.2 e'⟩
  exact (MeetsE.run hon hp ⟨hs, hk'⟩).2.2

end

/-! ## A deletion under versioning -/

namespace ErasureStore

variable {n : Nat} {site : Site n} {bucket k : Str} {s : Cluster n Doc}

/-- What a versioned deletion does, once it has the mode. -/
def insertMarker (env : CallEnv) (bucket key : Str) (mode : VMode) : EStore n DeleteOutcome := do
  seedLegacyHistory bucket key
  let hist ← readHistory bucket key
  let markerVid := newVersionId env mode
  let hist ← makeRoom bucket key mode hist
  writeHistory bucket key
    { hist with versions :=
        ⟨markerVid, true, env.now, [], 0, env.accessKey, env.remoteIp⟩ :: hist.versions }
  pure ⟨some markerVid, true⟩

theorem meetsE_insertMarker (env : CallEnv) (mode : VMode) :
    MeetsE (versionContract n bucket k) (insertMarker env bucket k mode) fun _ => True := by
  refine meetsE_seedLegacyHistory.then fun _ => meetsE_readHistory.bind fun hist hh => ?_
  refine (meetsE_makeRoom hh).bind fun hist hh => ?_
  exact (meetsE_writeHistory (properHistory_cons hh (properId_new env mode))).then
    fun _ => meetsE_pure.2 trivial

theorem run_deleteObject_versioned (hbucket : bucketUp site bucket s = true)
    (hmode : modeOf site bucket s ≠ .off) (env : CallEnv) :
    site.run (deleteObject env bucket k) s =
      site.run (insertMarker env bucket k (modeOf site bucket s)) s := by
  rw [deleteObject, Site.run_bind, run_headBucket_ok hbucket, andThen_ok, Site.run_withLock,
    Site.run_bind, run_vmode, andThen_ok, if_pos hmode]
  rfl

end ErasureStore

end Kerplace
