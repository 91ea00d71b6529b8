/-
# `Kerplace.Erasure.Faults` — a deletion on drives that misbehave

A drive may refuse what it is asked, break off in the middle, report success for what it
did not do or failure for what it did.  Whatever the drives do, a deletion makes no
current metadata: it writes histories and moves files into archives, and the rest of
what it does takes away.
-/
import Kerplace.Erasure.Frame
import Kerplace.Erasure.Listing

namespace Kerplace

open FileTree Prog ErasureStore

/-! ## Two contracts at once -/

namespace Prog

variable {Op : Type} {Ans : Op → Type} {α : Type}

/-- What both contracts allow, relying on what either gives. -/
def Contract.and (C D : Contract Op Ans) : Contract Op Ans where
  may o := C.may o ∧ D.may o
  gives o a := C.gives o a ∧ D.gives o a

theorem Meets.and {C D : Contract Op Ans} {p : Prog Op Ans α} {Q R : α → Prop}
    (hp : Meets C p Q) (hq : Meets D p R) : Meets (C.and D) p fun a => Q a ∧ R a := by
  induction p with
  | ret a => exact ⟨hp, hq⟩
  | call o k ih =>
      exact ⟨⟨hp.1, hq.1⟩, fun a ha => ih a (hp.2 a ha.1) (hq.2 a ha.2)⟩

end Prog

/-! ## What a deletion does not do -/

/-- The operation makes no metadata at a current slot: it writes nothing but the key's
history, and moves files nowhere but into an archive. -/
def DriveOp.MakesNoMeta (bucket key : Str) : DriveOp Doc → Prop
  | .write rel _ => rel = rHistory bucket key
  | .create _ => False
  | .append _ _ => False
  | .rename _ dst => ∃ v f, f ∈ [XL_META, PART] ∧ dst = (rObjV bucket key (some v)).joinStr f
  | _ => True

/-- The contract of calls that make no current metadata. -/
def makesNoMeta (n : Nat) (bucket key : Str) : Contract (StoreOp n Doc) StoreOp.Ans where
  may
    | .drive _ o => o.MakesNoMeta bucket key
    | .lock _ => True
    | .unlock _ => True
  gives _ _ := True

namespace ErasureStore

variable {n : Nat} {bucket key : Str}

section

variable {α : Type}

theorem noMeta_call {d : Fin n} {o : DriveOp Doc} (ho : o.MakesNoMeta bucket key) :
    Meets ((makesNoMeta n bucket key).slot d) (Prog.op o) fun _ => True :=
  ⟨ho, fun _ _ => trivial⟩

theorem noMeta_each {p : Fin n → DriveProg Doc α}
    (hp : ∀ d, Meets ((makesNoMeta n bucket key).slot d) (p d) fun _ => True) :
    MeetsE (makesNoMeta n bucket key) (eachDrive p) fun _ => True :=
  (meetsE_eachDrive (Q := fun _ _ => True) hp).mono fun _ _ => trivial

theorem noMeta_any {p : Fin n → DriveProg Doc (Option α)}
    (hp : ∀ d, Meets ((makesNoMeta n bucket key).slot d) (p d) fun _ => True) :
    MeetsE (makesNoMeta n bucket key) (anyDrive p) fun _ => True :=
  (meetsE_anyDrive (Q := fun _ => True) fun d =>
    (hp d).mono fun _ _ _ _ => trivial).mono fun _ _ => trivial

theorem noMeta_readDoc {d : Fin n} (rel : UnixPath) (f : Option Doc → α) :
    Meets ((makesNoMeta n bucket key).slot d)
      (do let doc ← Drive.readDoc rel; pure (f doc)) fun _ => True :=
  ⟨trivial, fun _ _ => trivial⟩

end

theorem noMeta_headBucket : MeetsE (makesNoMeta n bucket key) (headBucket bucket) fun _ =>
    True := by
  refine MeetsE.then (noMeta_any fun d => ⟨trivial, fun _ _ => trivial⟩) fun hit => ?_
  split
  · exact meetsE_pure.2 trivial
  · exact meetsE_throw

theorem noMeta_vmode : MeetsE (makesNoMeta n bucket key) (vmode bucket) fun _ => True := by
  refine MeetsE.then ?_ fun _ => meetsE_pure.2 trivial
  exact MeetsE.then (noMeta_each fun d => noMeta_readDoc _ _) fun _ => meetsE_pure.2 trivial

theorem noMeta_readHistory :
    MeetsE (makesNoMeta n bucket key) (readHistory bucket key) fun _ => True :=
  MeetsE.then (noMeta_each fun _ => noMeta_readDoc _ _) fun _ => meetsE_pure.2 trivial

theorem noMeta_writeHistory (h : VHistory) :
    MeetsE (makesNoMeta n bucket key) (writeHistory bucket key h) fun _ => True := by
  refine MeetsE.then (noMeta_each fun d => ?_) fun ok => ?_
  · split
    · refine Meets.then ?_ fun _ => noMeta_call rfl
      exact Meets.then (noMeta_call (o := .createDirAll _) trivial) fun _ => trivial
    · exact ⟨rfl, fun _ _ => trivial⟩
  · split
    · exact meetsE_throw
    · exact meetsE_pure.2 trivial

theorem noMeta_seedLegacyHistory :
    MeetsE (makesNoMeta n bucket key) (seedLegacyHistory bucket key) fun _ => True := by
  have hhas : MeetsE (makesNoMeta n bucket key) (hasHistory bucket key) fun _ => True :=
    MeetsE.then (noMeta_any fun d => noMeta_call (o := .stat _) trivial) fun _ =>
      meetsE_pure.2 trivial
  have hread : MeetsE (makesNoMeta n bucket key) (readXl bucket key) fun _ => True := by
    refine MeetsE.then (noMeta_any fun d => noMeta_readDoc _ _) fun hit => ?_
    cases hit with
    | none => exact meetsE_throw
    | some m => exact meetsE_pure.2 trivial
  refine hhas.then fun has => ?_
  split
  · exact meetsE_pure.2 trivial
  · refine (meetsE_outcome hread).bind fun r _ => ?_
    cases r with
    | error e => exact meetsE_pure.2 trivial
    | ok m => exact noMeta_writeHistory _

theorem noMeta_makeRoom (mode : VMode) (hist : VHistory) :
    MeetsE (makesNoMeta n bucket key) (makeRoom bucket key mode hist) fun _ => True := by
  have hdiscard : MeetsE (makesNoMeta n bucket key) (discardCurrent bucket key) fun _ => True :=
    MeetsE.then (noMeta_each fun d => Meets.then (noMeta_call (o := .removeFile _) trivial)
      fun _ => noMeta_call (o := .removeFile _) trivial) fun _ => meetsE_pure.2 trivial
  have hremove : MeetsE (makesNoMeta n bucket key) (removeArchive bucket key NULL) fun _ => True :=
    MeetsE.then (noMeta_each fun d => noMeta_call (o := .removeDirAll _) trivial) fun _ =>
      meetsE_pure.2 trivial
  have hpurge : MeetsE (makesNoMeta n bucket key) (purgeNull bucket key mode hist) fun _ =>
      True := by
    unfold purgeNull
    dsimp only
    split
    · exact meetsE_pure.2 trivial
    · split
      · exact meetsE_pure.2 trivial
      · split
        · exact hdiscard.then fun _ => meetsE_pure.2 trivial
        · split
          · exact hremove.then fun _ => meetsE_pure.2 trivial
          · exact meetsE_pure.2 trivial
  refine hpurge.then fun r => ?_
  obtain ⟨hist, occupied⟩ := r
  dsimp only
  split
  · rename_i v _ _
    refine MeetsE.then (MeetsE.then (noMeta_each fun d => ?_) fun _ => meetsE_pure.2 trivial)
      fun _ => meetsE_pure.2 trivial
    refine Meets.then (noMeta_call (o := .createDirAll _) trivial) fun _ => ?_
    refine Meets.then (noMeta_call (o := .rename _ _) ⟨v.versionId, XL_META, by simp, rfl⟩)
      fun _ => ?_
    exact noMeta_call (o := .rename _ _) ⟨v.versionId, PART, by simp, rfl⟩
  · exact meetsE_pure.2 trivial

theorem noMeta_pruneEmpty {d : Fin n} (rounds : Nat) : ∀ p : UnixPath,
    Meets ((makesNoMeta n bucket key).slot d)
      (Drive.pruneEmpty (rBucket bucket) rounds p) fun _ => True := by
  induction rounds with
  | zero => exact fun _ => trivial
  | succ rounds ih =>
      intro p
      rw [Drive.pruneEmpty]
      split
      · refine Meets.then (noMeta_call (o := .removeDir p) trivial) fun gone => ?_
        split
        · split
          · exact ih _
          · trivial
        · trivial
      · trivial

theorem noMeta_deleteObject (env : CallEnv) :
    MeetsE (makesNoMeta n bucket key) (deleteObject env bucket key) fun _ => True := by
  refine noMeta_headBucket.then fun _ =>
    meetsE_withLock trivial trivial (noMeta_vmode.then fun mode => ?_)
  split
  · refine noMeta_seedLegacyHistory.then fun _ => noMeta_readHistory.then fun hist => ?_
    exact (noMeta_makeRoom _ _).then fun hist =>
      (noMeta_writeHistory _).then fun _ => meetsE_pure.2 trivial
  · refine MeetsE.then (noMeta_each fun d => ?_) fun _ => meetsE_pure.2 trivial
    refine Meets.then (noMeta_call (o := .removeDirAll _) trivial) fun _ => ?_
    split
    · exact noMeta_pruneEmpty _ _
    · trivial

end ErasureStore

/-! ## Drives that misbehave -/

/-- The file an operation was filling. -/
def DriveOp.Fills (p : UnixPath) : DriveOp Doc → Prop
  | .write p' _ => p = p'
  | .create p' => p = p'
  | .append p' _ => p = p'
  | _ => False

/-- What an operation that breaks off leaves: some files are gone, and in the one that was
being filled stands something that is no document. -/
def Breaks (root : List Str) (o : DriveOp Doc) (t t' : Tree Doc) : Prop :=
  ∀ q, t'.file? q = t.file? q ∨ t'.file? q = none ∨
    ∃ p b, o.Fills p ∧ p.resolve root = q ∧ t'.file? q = some (.raw b)

/-- Drives that do what they are asked or break off, and report either what they did or a
failure. -/
structure Misbehaves {n : Nat} (root : Fin n → List Str)
    (h : (o : StoreOp n Doc) → Cluster n Doc → o.Ans × Cluster n Doc) : Prop where
  drive : ∀ d (o : DriveOp Doc) s, ∃ (a : o.Ans) (t' : Tree Doc),
    h (.drive d o) s = (a, Function.update s d t') ∧
      (a = (LocalDrive.step (root d) o (s d)).1 ∨ a = o.failed) ∧
      (t' = (LocalDrive.step (root d) o (s d)).2 ∨ Breaks (root d) o (s d) t')
  lock : ∀ m s, (h (.lock m) s).2 = s
  unlock : ∀ m s, (h (.unlock m) s).2 = s

/-- The names below a bucket under which a key's current metadata stands. -/
def CurrentNames (names : List Str) : Prop := (currentKey (names, true)).isSome = true

instance (names : List Str) : Decidable (CurrentNames names) :=
  inferInstanceAs (Decidable (_ = true))

/-- What stands on a drive under some names below a bucket. -/
def storedAt {n : Nat} (root : Fin n → List Str) (bucket : Str) (s : Cluster n Doc) (d : Fin n)
    (names : List Str) : Option (Content Doc) :=
  (s d).file? ((rBucket bucket).resolve (root d) ++ names)

/-- Of the current metadata of a bucket's keys, what is left is as it was. -/
def Sheds {n : Nat} (root : Fin n → List Str) (bucket : Str) (s s' : Cluster n Doc) : Prop :=
  ∀ d names, CurrentNames names →
    storedAt root bucket s' d names = storedAt root bucket s d names ∨
      storedAt root bucket s' d names = none

section

variable {n : Nat} {root : Fin n → List Str} {bucket key : Str} {s s' s'' : Cluster n Doc}

theorem CurrentNames.spec {names : List Str} (h : CurrentNames names) :
    names.getLast? = some XL_META ∧ VDIR ∉ names ∧ names.dropLast ≠ [] := by
  unfold CurrentNames currentKey at h
  split at h
  · rename_i hlast
    simp only [Bool.and_eq_true, decide_eq_true_eq] at hlast
    dsimp only at h
    split at h
    · cases h
    · rename_i hdir
      simp only [Bool.or_eq_true, decide_eq_true_eq, not_or] at hdir
      refine ⟨hlast.2, fun hv => ?_, hdir.2⟩
      have hsplit := List.dropLast_append_getLast? _ hlast.2
      rw [← hsplit, List.mem_append] at hv
      rcases hv with hv | hv
      · exact hdir.1 hv
      · exact absurd (List.mem_singleton.1 hv) (by decide)
  · cases h

theorem not_below_archive (hb : UnixPath.Atom bucket) {names : List Str}
    (hnames : CurrentNames names) {r front rest p : List Str}
    (hp : p = r ++ bucket :: (front ++ VDIR :: rest)) :
    ¬ p <+: (rBucket bucket).resolve r ++ names := by
  rw [resolve_rBucket hb, hp, List.append_assoc, List.prefix_append_right_inj,
    List.singleton_append, List.cons_prefix_cons]
  rintro ⟨-, tail, htail⟩
  refine hnames.spec.2.1 ?_
  rw [← htail]
  simp

theorem resolve_rHistory (hb : UnixPath.Atom bucket) (hk : UnixPath.Descends key)
    (r : List Str) : (rHistory bucket key).resolve r =
      r ++ bucket :: (UnixPath.compsOf key ++ VDIR :: [HISTORY]) := by
  rw [rHistory, UnixPath.resolve_joinStr_atom (by decide),
    UnixPath.resolve_joinStr_atom (by decide), resolve_rObject hb hk]
  simp

/-- A file that a deletion moves ends up in the key's archive. -/
theorem resolve_archived (hb : UnixPath.Atom bucket) (hk : UnixPath.Descends key)
    {dst : UnixPath} (hobj : ObjectPath bucket key dst)
    (hdst : ∃ v f, f ∈ [XL_META, PART] ∧ dst = (rObjV bucket key (some v)).joinStr f)
    (r : List Str) :
    ∃ rest, dst.resolve r = r ++ bucket :: (UnixPath.compsOf key ++ VDIR :: rest) := by
  cases hobj with
  | history => exact ⟨[HISTORY], resolve_rHistory hb hk r⟩
  | archived hv hf =>
      rename_i v f
      have hatom : UnixPath.Atom f := by
        simp only [List.mem_cons, List.not_mem_nil, or_false] at hf
        rcases hf with rfl | rfl <;> decide
      refine ⟨[v, f], ?_⟩
      rw [rObjV, UnixPath.resolve_joinStr_atom hatom, UnixPath.resolve_joinStr_atom hv.atom,
        UnixPath.resolve_joinStr_atom (by decide), resolve_rObject hb hk]
      simp
  | file hf =>
      rename_i f'
      obtain ⟨v, f, hf', heq⟩ := hdst
      exfalso
      have hatom : UnixPath.Atom f := by
        simp only [List.mem_cons, List.not_mem_nil, or_false] at hf'
        rcases hf' with rfl | rfl <;> decide
      have habs : (rObject bucket key).abs = false := by
        rw [rObject, UnixPath.joinStr, UnixPath.abs_join_of_rel hk.1, hb.ofStr]
      have hparent := congrArg UnixPath.parent heq
      rw [rObjSidecar, UnixPath.parent_joinStr_atom (atom_objectFile hf),
        UnixPath.parent_joinStr_atom hatom, Option.some.injEq, rObjV] at hparent
      rcases hv : (UnixPath.ofStr v).abs with _ | _
      · have hcomps := congrArg (fun p => p.comps.length) hparent
        rw [UnixPath.joinStr, UnixPath.comps_join_of_rel hv, UnixPath.joinStr,
          UnixPath.comps_join_of_rel (by decide)] at hcomps
        have hone : (UnixPath.ofStr VDIR).comps.length = 1 := by decide
        simp only [List.length_append, hone] at hcomps
        omega
      · rw [hparent, UnixPath.joinStr, UnixPath.join, if_pos hv, hv] at habs
        cases habs

/-! ## What is left of the metadata -/

/-- What one operation of a deletion makes of a current metadata file: nothing. -/
theorem step_current (hb : UnixPath.Atom bucket) (hk : UnixPath.Descends key)
    {o : DriveOp Doc} (ho : o.Within (objectRegion bucket key)) (hno : o.MakesNoMeta bucket key)
    {names : List Str} (hnames : CurrentNames names) (r : List Str) (t : Tree Doc) :
    (LocalDrive.step r o t).2.file? ((rBucket bucket).resolve r ++ names) =
        t.file? ((rBucket bucket).resolve r ++ names) ∨
      (LocalDrive.step r o t).2.file? ((rBucket bucket).resolve r ++ names) = none := by
  let q := (rBucket bucket).resolve r ++ names
  let Gives : Tree Doc → Prop := fun u => u.file? q = t.file? q ∨ u.file? q = none
  cases o with
  | online => exact .inl rfl
  | read p => exact .inl rfl
  | readAt p off len => exact .inl rfl
  | stat p => exact .inl rfl
  | readDir p => exact .inl rfl
  | walk p => exact .inl rfl
  | shutdown p => exact .inl rfl
  | create p => exact hno.elim
  | append p data => exact hno.elim
  | write p c =>
      refine LocalDrive.attempt_snd (P := Gives) (.inl rfl) fun t' h => .inl ?_
      obtain rfl : p = rHistory bucket key := hno
      have hne : q ≠ (rHistory bucket key).resolve r := fun heq =>
        not_below_archive hb hnames (resolve_rHistory hb hk r) ⟨[], by
          rw [List.append_nil]
          exact heq.symm⟩
      exact file?_congr ((look_write h q).trans (if_neg hne))
  | rename src dst =>
      refine LocalDrive.attempt_snd (P := Gives) (.inl rfl) fun t' h => ?_
      by_cases hsame : src.resolve r = dst.resolve r
      · rw [hsame] at h
        exact .inl (by rw [rename_self h])
      · obtain ⟨rest, hdst⟩ := resolve_archived hb hk (ho.2 : ObjectPath bucket key dst) hno r
        have hl := (look_rename hsame h q).trans
          (if_neg (not_below_archive hb hnames hdst))
        by_cases hsrc : src.resolve r <+: q
        · exact .inr (by rw [file?, hl, if_pos hsrc])
        · exact .inl (file?_congr (hl.trans (if_neg hsrc)))
  | removeFile p =>
      refine LocalDrive.attempt_snd (P := Gives) (.inl rfl) fun t' h => ?_
      by_cases hq : q = p.resolve r
      · exact .inr (by rw [file?, look_removeFile h, if_pos hq])
      · exact .inl (file?_congr ((look_removeFile h q).trans (if_neg hq)))
  | removeDir p =>
      exact LocalDrive.attempt_snd (P := Gives) (.inl rfl) fun t' h => .inl (file?_removeDir h q)
  | removeDirAll p =>
      refine LocalDrive.attempt_snd (P := Gives) (.inl rfl) fun t' h => ?_
      by_cases hq : p.resolve r <+: q
      · exact .inr (by rw [file?, look_removeDirAll h, if_pos hq])
      · exact .inl (file?_congr ((look_removeDirAll h q).trans (if_neg hq)))
  | createDirAll p =>
      exact LocalDrive.attempt_snd (P := Gives) (.inl rfl) fun t' h =>
        .inl (file?_createDirAll h q)

theorem fills_not_current (hb : UnixPath.Atom bucket) (hk : UnixPath.Descends key)
    {o : DriveOp Doc} (hno : o.MakesNoMeta bucket key) {names : List Str}
    (hnames : CurrentNames names) {p : UnixPath} (hfill : o.Fills p) (r : List Str) :
    p.resolve r ≠ (rBucket bucket).resolve r ++ names := by
  cases o with
  | write p' c =>
      obtain rfl : p' = rHistory bucket key := hno
      obtain rfl : p = rHistory bucket key := hfill
      exact fun heq => not_below_archive hb hnames (resolve_rHistory hb hk r) ⟨[], by
        rw [List.append_nil]
        exact heq⟩
  | create p' => exact hno.elim
  | append p' data => exact hno.elim
  | _ => exact hfill.elim

/-- A file that an operation in a region fills is one that the region writes. -/
theorem fills_changes {R : Region Doc} {o : DriveOp Doc} (ho : o.Within R) {p : UnixPath}
    (hfill : o.Fills p) : R.Changes p := by
  cases o with
  | write p' c => exact .inl (hfill ▸ ho.1)
  | create p' => exact .inl (hfill ▸ ho)
  | append p' data => exact .inl (hfill ▸ ho)
  | _ => exact hfill.elim

/-- What stood at `q` still does, or is gone. -/
def Loses (q : List Str) (t t' : Tree Doc) : Prop := t'.file? q = t.file? q ∨ t'.file? q = none

theorem Loses.trans {q : List Str} {t t' t'' : Tree Doc} (h : Loses q t t') (h' : Loses q t' t'') :
    Loses q t t'' := by
  rcases h' with hsame | hgone
  · unfold Loses
    rwa [hsame]
  · exact .inr hgone

theorem Breaks.loses {r : List Str} {o : DriveOp Doc} {t t' : Tree Doc} (h : Breaks r o t t')
    {q : List Str} (hfill : ∀ p, o.Fills p → p.resolve r ≠ q) : Loses q t t' := by
  rcases h q with hsame | hgone | ⟨p, b, hp, hq, -⟩
  · exact .inl hsame
  · exact .inr hgone
  · exact absurd hq (hfill p hp)

theorem Breaks.docs {r : List Str} {o : DriveOp Doc} {t t' : Tree Doc} (h : Breaks r o t t')
    {D : Doc → Prop} (ht : DocsIn D t) : DocsIn D t' := by
  intro q j hj
  have hfile : t'.file? q = some (.doc j) := file?_eq_some.2 hj
  rcases h q with hsame | hgone | ⟨p, b, -, -, hraw⟩
  · rw [hsame] at hfile
    exact ht q j (file?_eq_some.1 hfile)
  · rw [hgone] at hfile
    cases hfile
  · rw [hraw] at hfile
    cases hfile

theorem finds_failed {R : Region Doc} (o : DriveOp Doc) : o.Finds R o.failed := by
  cases o with
  | read p => exact fun j hj => nomatch hj
  | _ => trivial

/-- Drives that misbehave honour what a deletion relies on, and of the files that none of its
operations makes they only lose some. -/
theorem misbehaves_honours {h : (o : StoreOp n Doc) → Cluster n Doc → o.Ans × Cluster n Doc}
    (hh : Misbehaves root h) {Q : Fin n → List Str → Prop}
    (hstep : ∀ d q, Q d q → ∀ o : DriveOp Doc, o.Within (objectRegion bucket key) →
      o.MakesNoMeta bucket key → ∀ t, Loses q t (LocalDrive.step (root d) o t).2)
    (hfill : ∀ d q, Q d q → ∀ o : DriveOp Doc, o.Within (objectRegion bucket key) →
      o.MakesNoMeta bucket key → ∀ p, o.Fills p → p.resolve (root d) ≠ q) (s : Cluster n Doc) :
    Honours h ((objectContract n bucket key).and (makesNoMeta n bucket key)) fun s' =>
      ProperCluster s' ∧ ∀ d q, Q d q → Loses q (s d) (s' d) := by
  intro o ho s' hs'
  cases o with
  | lock m =>
      refine ⟨⟨trivial, trivial⟩, ?_⟩
      rw [hh.lock]
      exact hs'
  | unlock m =>
      refine ⟨⟨trivial, trivial⟩, ?_⟩
      rw [hh.unlock]
      exact hs'
  | drive d o =>
      obtain ⟨a, t', hrun, ha, ht'⟩ := hh.drive d o s'
      rw [hrun]
      have hfinds : o.Finds (objectRegion bucket key) a := by
        rcases ha with rfl | rfl
        · exact LocalDrive.step_finds (fun _ hj => hj) o (hs'.1 d)
        · exact finds_failed o
      have hdocs : DocsIn ProperDoc t' := by
        rcases ht' with rfl | hbreak
        · exact LocalDrive.step_docs (fun _ hj => hj) ho.1 (hs'.1 d)
        · exact hbreak.docs (hs'.1 d)
      refine ⟨⟨hfinds, trivial⟩, Site.update_forall hs'.1 hdocs, fun e q hq => ?_⟩
      refine (hs'.2 e q hq).trans ?_
      by_cases he : e = d
      · subst he
        dsimp only
        rw [Function.update_self]
        rcases ht' with rfl | hbreak
        · exact hstep e q hq o ho.1 ho.2 _
        · exact hbreak.loses (hfill e q hq o ho.1 ho.2)
      · dsimp only
        rw [Function.update_of_ne he]
        exact .inl rfl

theorem deleteObject_sheds (hb : UnixPath.Atom bucket) (hk : UnixPath.Descends key)
    {h : (o : StoreOp n Doc) → Cluster n Doc → o.Ans × Cluster n Doc} (hh : Misbehaves root h)
    (env : CallEnv) (hs : ProperCluster s) :
    ProperCluster (Prog.runE h (deleteObject env bucket key) s).2 ∧
      Sheds root bucket s (Prog.runE h (deleteObject env bucket key) s).2 := by
  let Q : Fin n → List Str → Prop := fun d q =>
    ∃ names, CurrentNames names ∧ q = (rBucket bucket).resolve (root d) ++ names
  have hon : Honours h ((objectContract n bucket key).and (makesNoMeta n bucket key)) fun s' =>
      ProperCluster s' ∧ ∀ d q, Q d q → Loses q (s d) (s' d) := by
    refine misbehaves_honours hh ?_ ?_ s
    · rintro d q ⟨names, hnames, rfl⟩ o ho hno t
      exact step_current hb hk ho hno hnames (root d) t
    · rintro d q ⟨names, hnames, rfl⟩ o - hno p hfill
      exact fills_not_current hb hk hno hnames hfill (root d)
  obtain ⟨hdocs, hloses⟩ := (Meets.exec hon
    (Meets.and (meetsE_deleteObject env) (noMeta_deleteObject env)) ⟨hs, fun _ _ _ => .inl rfl⟩).2
  exact ⟨hdocs, fun d names hnames => hloses d _ ⟨names, hnames, rfl⟩⟩

/-- What lies apart from the key's files stays as it was, or is lost. -/
theorem deleteObject_loses {h : (o : StoreOp n Doc) → Cluster n Doc → o.Ans × Cluster n Doc}
    (hh : Misbehaves root h) (env : CallEnv) (hs : ProperCluster s) {q : Fin n → List Str}
    (hq : ∀ d, (objectRegion bucket key).SparesFile (root d) (q d)) (d : Fin n) :
    Loses (q d) (s d) ((Prog.runE h (deleteObject env bucket key) s).2 d) := by
  have hon : Honours h ((objectContract n bucket key).and (makesNoMeta n bucket key)) fun s' =>
      ProperCluster s' ∧ ∀ d q', q' = q d → Loses q' (s d) (s' d) := by
    refine misbehaves_honours hh ?_ ?_ s
    · rintro d _ rfl o ho - t
      exact .inl (LocalDrive.step_file? ho (hq d) t)
    · rintro d _ rfl o ho - p hfill hpath
      exact hq d p (fills_changes ho hfill) (hpath ▸ List.prefix_refl _)
  exact (Meets.exec hon (Meets.and (meetsE_deleteObject env) (noMeta_deleteObject env))
    ⟨hs, fun _ _ _ => .inl rfl⟩).2.2 d _ rfl

end

end Kerplace
