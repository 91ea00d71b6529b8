/-
# `Kerplace.Erasure.Removal` — what a deletion does to the other keys of a bucket

Without versioning a deletion removes the key's directory from the drives in reach with all
there is below it, and so every key whose path leads through it.  Under versioning it moves
the key's own files into its archive, and touches nothing of another key.
-/
import Kerplace.Erasure.Listed
import Kerplace.Erasure.Deletes

namespace Kerplace

open FileTree Prog UnixPath

namespace ErasureStore

variable {n : Nat} {S : ErasureStore n} {site : Site n} {bucket key : Str} {s : Cluster n Doc}

/-! ## Without versioning -/

theorem file?_thinner {t t' : Tree Doc} (h : Shows.Thinner t t') (q : List Str) :
    t'.file? q = t.file? q := by
  rcases h q with hl | ⟨hd, hl⟩
  · exact file?_congr hl
  · rw [file?, file?, hl, hd]

/-- The files a drive has after an object's directory was removed. -/
theorem file?_removeObjectDir {root : List Str} (hne : (rObject bucket key).resolve root ≠ [])
    (t : Tree Doc) (q : List Str) :
    ((removeObjectDir bucket key).exec (LocalDrive.step root) t).2.file? q =
      if (rObject bucket key).resolve root <+: q ∧ q ≠ (rObject bucket key).resolve root then none
      else t.file? q := by
  let dir := (rObject bucket key).resolve root
  have hcut : (LocalDrive.attempt t (t.removeDirAll dir)).2.file? q =
      if dir <+: q ∧ q ≠ dir then none else t.file? q := by
    cases hr : t.removeDirAll dir with
    | none =>
        show t.file? q = _
        split
        · rename_i hbelow
          obtain ⟨⟨rest, rfl⟩, hq⟩ := hbelow
          have hdir : t.look dir ≠ some .dir := fun hd => by
            rw [removeDirAll, if_pos ⟨hne, isDir_iff.2 hd⟩] at hr
            cases hr
          rw [file?, look_below hdir fun h0 => hq (by rw [h0, List.append_nil])]
        · rfl
    | some t' =>
        show t'.file? q = _
        have hl := look_removeDirAll hr q
        by_cases hpre : dir <+: q
        · rw [file?, hl, if_pos hpre]
          by_cases hq : q = dir
          · have hdir : t.look dir = some .dir := by
              by_contra hno
              rw [removeDirAll, if_neg fun h0 => hno (isDir_iff.1 h0.2)] at hr
              cases hr
            rw [if_neg fun h0 => h0.2 hq, hq, file?, hdir]
          · rw [if_pos ⟨hpre, hq⟩]
        · rw [if_neg fun h0 => hpre h0.1, file?_congr (hl.trans (if_neg hpre))]
  unfold removeObjectDir
  simp only [exec_bind, LocalDrive.exec_removeDirAll]
  split
  · rw [file?_thinner (Shows.thinner_pruneEmpty _ _ _ _ _), hcut]
  · exact hcut

/-- A deletion in a bucket without versioning: every drive in reach removes the directory. -/
theorem run_deleteObject_off (hbucket : bucketUp site bucket s = true)
    (hmode : modeOf site bucket s = .off) (env : CallEnv) :
    site.run (deleteObject env bucket key) s = (.ok ⟨none, false⟩, fun d =>
      if site.up d then ((removeObjectDir bucket key).exec (LocalDrive.step (site.root d)) (s d)).2
      else s d) := by
  have htree : ∀ d, (site.onTree d (removeObjectDir bucket key) (s d)).2 = if site.up d then
      ((removeObjectDir bucket key).exec (LocalDrive.step (site.root d)) (s d)).2 else s d := by
    intro d
    cases hup : site.up d with
    | false => rw [Site.onTree_down_snd hup, if_neg (by simp)]
    | true => rw [Site.onTree_up hup, if_pos rfl]
  rw [deleteObject, Site.run_bind, run_headBucket_ok hbucket, andThen_ok, Site.run_withLock,
    Site.run_bind, run_vmode, hmode, andThen_ok, if_neg (not_not.2 rfl), Site.run_bind,
    Site.run_eachDrive, andThen_ok]
  simp only [htree]
  rfl

theorem file?_deleteObject_off (hb : Atom bucket) (hk : Descends key)
    (hbucket : bucketUp site bucket s = true) (hmode : modeOf site bucket s = .off)
    (env : CallEnv) (d : Fin n) (q : List Str) :
    ((site.run (deleteObject env bucket key) s).2 d).file? q =
      if site.up d = true ∧ site.objDir bucket key d <+: q ∧ q ≠ site.objDir bucket key d then none
      else (s d).file? q := by
  rw [run_deleteObject_off hbucket hmode]
  dsimp only
  cases hup : site.up d with
  | false => simp
  | true =>
      rw [if_pos rfl, file?_removeObjectDir (site.objDir_ne_nil hb hk)]
      simp [Site.objDir]

/-! ## The bucket's directory -/

/-- A directory that a region leaves stays one. -/
theorem step_isDir {R : Region Doc} {root q : List Str} {o : DriveOp Doc} (ho : o.Within R)
    (hchanges : ∀ p, R.Changes p → ¬ p.resolve root <+: q)
    (hprunes : ∀ p, R.prunes p → p.resolve root ≠ q) {t : Tree Doc} (ht : t.look q = some .dir) :
    (LocalDrive.step root o t).2.look q = some .dir := by
  cases LocalDrive.step_effect root q o t with
  | kept h => exact h.trans ht
  | removed p hp hpq h => exact absurd hpq (hchanges p (LocalDrive.alters_changes ho hp))
  | stored p c hw hpq h =>
      subst hw
      exact absurd hpq (hchanges p (.inl ho.1))
  | filled p b hp hpq h => exact absurd hpq (hchanges p (LocalDrive.alters_changes ho hp))
  | moved p q' hp hpq h => exact absurd hpq (hchanges p (LocalDrive.alters_changes ho hp))
  | pruned p hr hpq hdir h =>
      subst hr
      rcases ho with ho | ho
      · exact absurd hpq (hprunes p ho)
      · exact absurd (hpq ▸ List.prefix_refl _) (hchanges p (.inr ho))
  | made p hm hpq hfile h => exact h

/-- A call on a key leaves the bucket's directory where it was. -/
theorem bucketUp_kept (hb : Atom bucket) (hk : Descends key) (hcomps : compsOf key ≠ [])
    {α : Type} {p : EStore n α} {Q : α → Prop} (hp : MeetsE (objectContract n bucket key) p Q)
    (hs : ProperCluster s) (hbucket : bucketUp site bucket s = true) :
    bucketUp site bucket (site.run p s).2 = true := by
  obtain ⟨d, hd, hup⟩ := List.any_eq_true.1 hbucket
  rw [Bool.and_eq_true] at hup
  have hlook : (s d).look ((rBucket bucket).resolve (site.root d)) = some .dir :=
    isDir_iff.1 hup.2
  have hpath : (rBucket bucket).resolve (site.root d) = site.root d ++ [bucket] :=
    resolve_rBucket hb _
  have hobj : site.objDir bucket key d = site.root d ++ bucket :: compsOf key :=
    site.objDir_eq hb hk
  -- the bucket's directory lies strictly above the object's
  have habove : ¬ site.objDir bucket key d <+: (rBucket bucket).resolve (site.root d) := by
    rw [hpath, hobj, List.prefix_append_right_inj, List.cons_prefix_cons]
    exact fun h => hcomps (List.prefix_nil.1 h.2)
  have hchanges : ∀ p, (objectRegion bucket key).Changes p →
      ¬ p.resolve (site.root d) <+: (rBucket bucket).resolve (site.root d) :=
    fun p hp hpre => habove ((objectRegion_changes hp _).trans hpre)
  have hprunes : ∀ p, (objectRegion bucket key).prunes p →
      p.resolve (site.root d) ≠ (rBucket bucket).resolve (site.root d) := by
    rintro p ⟨hne, hin, habs, hup⟩ heq
    have hplain : (rObject bucket key).Plain := Plain.join hb.plain hk
    have hp : p.Plain := ⟨habs.trans hplain.1, fun hmem => hplain.2
      (List.mem_of_mem_dropLast (hup.subset hmem))⟩
    have hbp : (rBucket bucket).Plain := hb.plain
    rw [hp.resolve, hbp.resolve, List.append_cancel_left_eq] at heq
    refine hne ?_
    have habs' : p.abs = (rBucket bucket).abs := (habs.trans hplain.1).trans hbp.1.symm
    cases p with
    | mk abs comps =>
        subst heq
        subst habs'
        rfl
  have hon : Honours site.step (objectContract n bucket key) fun u =>
      ProperCluster u ∧ (u d).look ((rBucket bucket).resolve (site.root d)) = some .dir := by
    refine Site.honours fun e o u ho hu => ⟨LocalDrive.step_finds (fun _ h => h) o (hu.1 e),
      Site.update_forall hu.1 (LocalDrive.step_docs (fun _ h => h) ho (hu.1 e)), ?_⟩
    by_cases he : d = e
    · subst he
      rw [Function.update_self]
      exact step_isDir ho hchanges hprunes hu.2
    · rw [Function.update_of_ne he]
      exact hu.2
  refine List.any_eq_true.2 ⟨d, hd, ?_⟩
  rw [Bool.and_eq_true]
  exact ⟨hup.1, isDir_iff.2 (MeetsE.run hon hp ⟨hs, hlook⟩).2.2⟩

end ErasureStore

end Kerplace
