/-
# `Kerplace.Erasure.Mend` — what a heal makes of one object version

A heal of a version either leaves what the drives have of the key as it was, or
gives the copy of the first drive that has one to every drive whose own does
not pass.  It gives something to a drive only when every drive can be reached:
it stops at the first bad one that cannot, before any copy has changed.
-/
import Kerplace.Erasure.Heal
import Kerplace.Erasure.Bookkeeping
import Kerplace.Erasure.RoundTrip

namespace Kerplace

open FileTree Prog ErasureStore

/-! ## Staging below a slot -/

theorem healTmp_ne : HEAL_TMP ≠ PART ∧ HEAL_TMP ≠ XL_META ∧ HEAL_TMP ≠ VDIR ∧
    HEAL_TMP ≠ PART_TMP ∧ HEAL_TMP ∉ SIDECARS := by decide

theorem atom_healTmp : UnixPath.Atom HEAL_TMP := by decide

theorem Place.rel_ne_stage {a : Place} (ha : a.Proper) (slot : Option Str) :
    a.rel ≠ slotDir slot ++ [HEAL_TMP] := by
  obtain ⟨h1, h2, -, -, h5⟩ := healTmp_ne
  cases a with
  | part s => cases s <;> cases slot <;> simp [rel, home, name, slotDir, h1.symm]
  | xl s => cases s <;> cases slot <;> simp [rel, home, name, slotDir, h2.symm]
  | history => cases slot <;> simp [rel, home, name, slotDir]
  | side f =>
      have hf : f ≠ HEAL_TMP := fun h0 => h5 (h0 ▸ ha)
      cases slot <;> simp [rel, home, name, slotDir, hf]

theorem stage_not_within (slot slot' : Option Str) :
    ¬ slotDir slot ++ [HEAL_TMP] <+: slotDir slot' := by
  have h3 := healTmp_ne.2.2.1
  cases slot <;> cases slot' <;> simp [slotDir, h3]

namespace Shows

variable {dir : List Str} {F : Shelf} {t t' : Tree Doc} {a : Place} {slot : Option Str}

/-- Changing one place, and whatever is staged. -/
theorem land (slot : Option Str) (h : Shows dir F t) (ha : a.Proper)
    {x : Option (Node (Content Doc))} (hl : ∀ q, q ≠ dir ++ (slotDir slot ++ [HEAL_TMP]) →
      t'.look q = if q = dir ++ a.rel then x else t.look q) :
    Shows dir (Function.update F a x) t' where
  dirs slot' hs q hq := by
    have hstage : q ≠ dir ++ (slotDir slot ++ [HEAL_TMP]) := by
      rintro rfl
      exact stage_not_within slot slot' ((List.prefix_append_right_inj dir).1 hq)
    have hne : q ≠ dir ++ a.rel := by
      rintro rfl
      exact a.rel_not_within ha hs ((List.prefix_append_right_inj dir).1 hq)
    rw [file?_congr ((hl q hstage).trans (if_neg hne))]
    exact h.dirs slot' hs q hq
  tmp := by
    have hstage : dir ++ [PART_TMP] ≠ dir ++ (slotDir slot ++ [HEAL_TMP]) := by
      have h4 := healTmp_ne.2.2.2.1
      cases slot <;> simp [slotDir, h4.symm]
    rw [hl _ hstage, if_neg fun h0 => a.rel_ne_tmp ha (List.append_cancel_left h0).symm]
    exact h.tmp
  place b hb := by
    have hstage : dir ++ b.rel ≠ dir ++ (slotDir slot ++ [HEAL_TMP]) := fun h0 =>
      Place.rel_ne_stage hb slot (List.append_cancel_left h0)
    rw [hl _ hstage, Function.update_apply]
    by_cases hab : b = a
    · rw [if_pos (by rw [hab]), if_pos hab]
    · rw [if_neg fun h0 => hab (Place.rel_inj hb ha (List.append_cancel_left h0)),
        if_neg hab, h.place b hb]

theorem stage (h : Shows dir F t)
    (hl : ∀ q, q ≠ dir ++ (slotDir slot ++ [HEAL_TMP]) → t'.look q = t.look q) :
    Shows dir F t' := by
  have hland : Shows dir (Function.update F .history (F .history)) t' :=
    h.land slot (a := .history) trivial fun q hq => by
      rw [hl q hq]
      split
      · rename_i h0
        rw [h0]
        exact h.place .history trivial
      · rfl
  rwa [Function.update_eq_self] at hland

end Shows

/-- The tree shows the key, and has `x` staged below a slot. -/
structure Holding (dir : List Str) (slot : Option Str) (F : Shelf) (x : Bytes)
    (t : Tree Doc) : Prop where
  shows : Shows dir F t
  home : t.look (dir ++ slotDir slot) = some .dir
  staged : t.look (dir ++ (slotDir slot ++ [HEAL_TMP])) = some (.file (.raw x))

namespace Holding

variable {dir : List Str} {F : Shelf} {t : Tree Doc} {slot : Option Str} {x : Bytes}

theorem home_ne_stage (dir : List Str) (slot : Option Str) :
    dir ++ slotDir slot ≠ dir ++ (slotDir slot ++ [HEAL_TMP]) := by
  simp

theorem start (h : Shows dir F t) (hs : ProperVersion slot) {t₁ t₂ : Tree Doc}
    (h₁ : t.createDirAll (dir ++ slotDir slot) = some t₁)
    (h₂ : t₁.write (dir ++ (slotDir slot ++ [HEAL_TMP])) (.raw []) = some t₂) :
    Holding dir slot F [] t₂ := by
  obtain ⟨u, hu, hshows, hhome⟩ := h.mkdir hs (List.prefix_refl _)
  rw [h₁] at hu
  cases hu
  have hl := look_write h₂
  refine ⟨hshows.stage fun q hq => (hl q).trans (if_neg hq), ?_, ?_⟩
  · rw [hl, if_neg (home_ne_stage dir slot), hhome]
  · rw [hl, if_pos rfl]

theorem append (h : Holding dir slot F x t) (data : Bytes) :
    ∃ t', (t.update (dir ++ (slotDir slot ++ [HEAL_TMP])) fun c =>
        c.bytes?.map fun b => .raw (b ++ data)) = some t' ∧
      Holding dir slot F (x ++ data) t' := by
  have hfile := file?_eq_some.2 h.staged
  obtain ⟨t', ht⟩ := write_of_file? (.raw (x ++ data)) hfile
  have hl := look_write ht
  refine ⟨t', by simp [update, hfile, Content.bytes?, ht],
    h.shows.stage fun q hq => (hl q).trans (if_neg hq), ?_, ?_⟩
  · rw [hl, if_neg (home_ne_stage dir slot), h.home]
  · rw [hl, if_pos rfl]

theorem land (h : Holding dir slot F x t) (hs : ProperVersion slot) (hfiles : F.Files) :
    ∃ t', t.rename (dir ++ (slotDir slot ++ [HEAL_TMP])) (dir ++ (Place.part slot).rel) =
        some t' ∧
      Shows dir (Function.update F (.part slot) (some (.file (.raw x)))) t' := by
  have hpart : dir ++ (Place.part slot).rel = dir ++ slotDir slot ++ [PART] :=
    (List.append_assoc _ _ _).symm
  have hproper : (Place.part slot).Proper := hs
  have hne : dir ++ (slotDir slot ++ [HEAL_TMP]) ≠ dir ++ (Place.part slot).rel := fun h0 =>
    Place.rel_ne_stage hproper slot (List.append_cancel_left h0).symm
  have hdst : t.look (dir ++ (Place.part slot).rel) ≠ some .dir := by
    rw [h.shows.place _ hproper]
    exact hfiles _
  rw [hpart] at hne hdst ⊢
  obtain ⟨t', ht, hl⟩ := rename_file (file?_eq_some.2 h.staged) h.home hdst hne
  refine ⟨t', ht, h.shows.land slot hproper fun q hq => ?_⟩
  rw [hl, if_neg hq, ← hpart]

end Holding

/-! ## Loops that may stop -/

section

variable {n : Nat} {site : Site n}

/-- A loop over the drives, each step on its own drive: it goes through, or it stops with
an error, where `X` says what a step needs to fail. -/
theorem run_inTurn {p : Fin n → EStore n Unit} {A B C : Fin n → Tree Doc → Prop} {X : Prop}
    (hA : ∀ d t, A d t → C d t) (hB : ∀ d t, B d t → C d t)
    (hstep : ∀ d (s : Cluster n Doc), A d (s d) → ∃ r t,
      site.run (p d) s = (r, Function.update s d t) ∧
        (r = .ok () ∧ B d t ∨ (∃ e, r = .error e) ∧ C d t ∧ X)) :
    ∀ ds : List (Fin n), ds.Nodup → ∀ s : Cluster n Doc, (∀ d ∈ ds, A d (s d)) →
      (∀ d, d ∉ ds → B d (s d)) →
      ∃ r s', site.run (inTurn ds p) s = (r, s') ∧
        (r = .ok () ∧ (∀ d, B d (s' d)) ∨ (∃ e, r = .error e) ∧ (∀ d, C d (s' d)) ∧ X) := by
  intro ds
  induction ds with
  | nil => exact fun _ s _ hs => ⟨.ok (), s, rfl, .inl ⟨rfl, fun d => hs d List.not_mem_nil⟩⟩
  | cons d ds ih =>
      intro hnd s hin hout
      obtain ⟨hd, hnd⟩ := List.nodup_cons.1 hnd
      obtain ⟨r, t, hrun, hr⟩ := hstep d s (hin d List.mem_cons_self)
      rw [inTurn, Site.run_bind, hrun]
      rcases hr with ⟨rfl, hBd⟩ | ⟨⟨e, rfl⟩, hCd, hX⟩
      · refine ih hnd _ (fun e he => ?_) fun e he => ?_
        · rw [Function.update_of_ne fun h : e = d => hd (h ▸ he)]
          exact hin e (List.mem_cons_of_mem d he)
        · by_cases hed : e = d
          · subst hed
            rwa [Function.update_self]
          · rw [Function.update_of_ne hed]
            exact hout e fun h => (List.mem_cons.1 h).elim hed he
      · refine ⟨_, _, rfl, .inr ⟨⟨e, rfl⟩, Site.update_forall (P := C) (fun e => ?_) hCd, hX⟩⟩
        by_cases he : e ∈ d :: ds
        · exact hA e _ (hin e he)
        · exact hB e _ (hout e he)

theorem run_everyDrive {p : Fin n → EStore n Unit} {A B C : Fin n → Tree Doc → Prop}
    {X : Prop} (hA : ∀ d t, A d t → C d t) (hB : ∀ d t, B d t → C d t)
    (hstep : ∀ d (s : Cluster n Doc), A d (s d) → ∃ r t,
      site.run (p d) s = (r, Function.update s d t) ∧
        (r = .ok () ∧ B d t ∨ (∃ e, r = .error e) ∧ C d t ∧ X))
    {s : Cluster n Doc} (hs : ∀ d, A d (s d)) :
    ∃ r s', site.run (inTurn (List.finRange n) p) s = (r, s') ∧
      (r = .ok () ∧ (∀ d, B d (s' d)) ∨ (∃ e, r = .error e) ∧ (∀ d, C d (s' d)) ∧ X) :=
  run_inTurn hA hB hstep _ (List.nodup_finRange n) s (fun d _ => hs d)
    fun d hd => absurd (List.mem_finRange d) hd

theorem run_mustDo (d : Fin n) (e : String) (p : DriveProg Doc Bool) (s : Cluster n Doc) :
    site.run (mustDo d e p) s =
      (if (site.onTree d p (s d)).1 then .ok () else .error (.internal e),
        Function.update s d (site.onTree d p (s d)).2) := by
  rw [mustDo, Site.run_orFail, Site.run_atDrive]
  rfl

theorem run_mustDo₂ (d : Fin n) (e₁ e₂ : String) (p₁ p₂ : DriveProg Doc Bool)
    (s : Cluster n Doc) :
    site.run (do
        mustDo d e₁ p₁
        mustDo d e₂ p₂) s =
      if (site.onTree d p₁ (s d)).1 then
        (if (site.onTree d p₂ (site.onTree d p₁ (s d)).2).1 then .ok ()
          else .error (.internal e₂),
          Function.update s d (site.onTree d p₂ (site.onTree d p₁ (s d)).2).2)
      else (.error (.internal e₁), Function.update s d (site.onTree d p₁ (s d)).2) := by
  rw [Site.run_bind, run_mustDo]
  split
  · rw [Prog.andThen_ok, run_mustDo, Function.update_self, Function.update_idem]
  · rfl

theorem onTree_down {o : DriveOp Doc} {d : Fin n} (h : site.up d = false) (t : Tree Doc) :
    site.onTree d (Prog.op o) t = (o.failed, t) := by
  rw [Site.onTree, h]
  rfl

end

/-! ## The passes -/

theorem block_at {n : Nat} (S : ErasureStore n) {blocks rest : List Bytes} {b : Bytes}
    {i : Nat} (hi : blocks.drop i = b :: rest) :
    blocks[i]? = some b ∧ blocks.drop (i + 1) = rest ∧
      S.offsetOf blocks i + S.codec.shardLen b.length = S.offsetOf blocks (i + 1) := by
  have hb : blocks[i]? = some b := by
    rw [← Nat.add_zero i, ← List.getElem?_drop, hi]
    rfl
  refine ⟨hb, ?_, ?_⟩
  · rw [← List.drop_drop, hi]
    rfl
  · rw [offsetOf, offsetOf, List.take_add_one, hb]
    simp

/-- The drives' trees show these shelves of a key. -/
def Displays {n : Nat} (site : Site n) (bucket key : Str) (F : Fin n → Shelf)
    (s : Cluster n Doc) : Prop := ∀ d, Shows (site.objDir bucket key d) (F d) (s d)

section

variable {n : Nat} {S : ErasureStore n} {site : Site n} {bucket key : Str}
  {F : Fin n → Shelf} {s s' : Cluster n Doc} {slot : Option Str} {blocks : List Bytes}
  {bad : Fin n → Bool}

theorem resolve_healTmp (hs : ProperVersion slot) (root : List Str) :
    ((rObjV bucket key slot).joinStr HEAL_TMP).resolve root =
      (rObject bucket key).resolve root ++ (slotDir slot ++ [HEAL_TMP]) := by
  rw [UnixPath.resolve_joinStr_atom atom_healTmp, resolve_rObjV hs, List.append_assoc]

theorem holdsShard_shelf (hs : ProperVersion slot) {d : Fin n} {G G' : Shelf}
    (h : Shows (site.objDir bucket key d) G (s d))
    (h' : Shows (site.objDir bucket key d) G' (s' d))
    (hsame : G' (.part slot) = G (.part slot)) {i : Nat} :
    HoldsShard S site s (rObjV bucket key slot) blocks i d ↔
      HoldsShard S site s' (rObjV bucket key slot) blocks i d := by
  have hproper : (Place.part slot).Proper := hs
  have hlook : (s d).look ((rObject bucket key).resolve (site.root d) ++ (Place.part slot).rel) =
      (s' d).look ((rObject bucket key).resolve (site.root d) ++ (Place.part slot).rel) :=
    (h.place _ hproper).trans (hsame.symm.trans (h'.place _ hproper).symm)
  unfold HoldsShard shardAt
  rw [resolve_part hs, file?_congr hlook]

theorem holdsShard_of_part (hS : S.codec.Lawful) (hs : ProperVersion slot) {d : Fin n}
    (hup : site.up d = true) {G : Shelf} (h : Shows (site.objDir bucket key d) G (s d))
    (hpart : G (.part slot) = some (.file (.raw (S.partOf d blocks)))) {i : Nat}
    (hi : i < blocks.length) : HoldsShard S site s (rObjV bucket key slot) blocks i d := by
  have hproper : (Place.part slot).Proper := hs
  have hfile : (s d).file? ((rObject bucket key).resolve (site.root d) ++
      (Place.part slot).rel) = some (.raw (S.partOf d blocks)) :=
    file?_eq_some.2 ((h.place _ hproper).trans hpart)
  rw [holdsShard_iff (List.getElem?_eq_getElem hi)]
  refine ⟨hup, ?_⟩
  rw [resolve_part hs, shardAt, hfile]
  exact sliceAt_partOf hS (List.getElem?_eq_getElem hi) d

/-- Pass 1 finds which drives hold which shards. -/
theorem run_detect {rel : UnixPath} (hsum : Unmistaken S site s rel blocks) :
    ∀ (rest : List Bytes) (i : Nat), blocks.drop i = rest →
      site.run (S.detect (rel.joinStr PART) S.codec (List.ofFn fun e => S.sumsOf e blocks) i
        (S.offsetOf blocks i) (rest.map List.length)) s =
      (.ok ((List.range' i rest.length).map fun j d =>
        decide (HoldsShard S site s rel blocks j d)), s) := by
  intro rest
  induction rest with
  | nil => exact fun i hi => rfl
  | cons b rest ih =>
      intro i hi
      obtain ⟨hb, hrest, hoff⟩ := block_at S hi
      have hrow : ∀ d, ((if HoldsShard S site s rel blocks i d then some (S.shard d b)
          else none).isSome) = decide (HoldsShard S site s rel blocks i d) := by
        intro d
        split <;> simp_all
      rw [List.map_cons, detect]
      simp only [Site.run_bind, Site.run_eachDrive, onTree_readShard hsum hb,
        Prog.andThen_ok, hoff, ih (i + 1) hrest, Site.run_pure, hrow]
      rfl

/-- A drive while its shard file is rebuilt: it shows the key, and a bad one has the
shards of the first `i` blocks staged. -/
def Stocked (S : ErasureStore n) (site : Site n) (bucket key : Str) (F : Fin n → Shelf)
    (slot : Option Str) (blocks : List Bytes) (bad : Fin n → Bool) (i : Nat) (d : Fin n)
    (t : Tree Doc) : Prop :=
  Shows (site.objDir bucket key d) (F d) t ∧
    (bad d = true → site.up d = true ∧ Holding (site.objDir bucket key d) slot
      (F d) (S.partOf d (blocks.take i)) t)

/-- Nothing is in the way of staging: every drive can be reached, and has no directory where
the staged file goes. -/
def Clear (site : Site n) (bucket key : Str) (slot : Option Str) (s : Cluster n Doc) : Prop :=
  (∀ d, site.up d = true) ∧
    ∀ d, (s d).look (site.objDir bucket key d ++ (slotDir slot ++ [HEAL_TMP])) ≠ some .dir

/-- Staging begins with empty files on the bad drives, if nothing is in the way. -/
theorem run_openStages (blocks : List Bytes) (bad : Fin n → Bool)
    (hk : Displays site bucket key F s) (hs : ProperVersion slot) :
    ∃ r s', site.run (inTurn (List.finRange n) fun d =>
        if bad d then do
          mustDo d "heal mkdir" (Drive.createDirAll (rObjV bucket key slot))
          mustDo d "heal create" (Drive.create ((rObjV bucket key slot).joinStr HEAL_TMP))
        else pure ()) s = (r, s') ∧
      (r = .ok () ∧ (∀ d, Stocked S site bucket key F slot blocks bad 0 d (s' d)) ∨
        (∃ e, r = .error e) ∧ Displays site bucket key F s' ∧
          ¬ Clear site bucket key slot s) := by
  refine run_everyDrive
    (A := fun d t => Shows (site.objDir bucket key d) (F d) t ∧
      (Clear site bucket key slot s →
        t.look (site.objDir bucket key d ++ (slotDir slot ++ [HEAL_TMP])) ≠ some .dir))
    (C := fun d t => Shows (site.objDir bucket key d) (F d) t)
    (fun _ _ h => h.1) (fun _ _ h => h.1) (fun d u hu => ?_)
    fun d => ⟨hk d, fun hclear => hclear.2 d⟩
  obtain ⟨hu, hfree⟩ := hu
  cases hbad : bad d with
  | false => exact ⟨.ok (), u d, by rw [Function.update_eq_self]; rfl,
      .inl ⟨rfl, hu, fun h => absurd (hbad.symm.trans h) Bool.false_ne_true⟩⟩
  | true =>
      rw [if_pos rfl]
      cases hd : site.up d with
      | false =>
          refine ⟨.error (.internal "heal mkdir"), u d, ?_, .inr ⟨⟨_, rfl⟩, hu, fun hclear => ?_⟩⟩
          · have hdown : site.onTree d (Drive.createDirAll (rObjV bucket key slot)) (u d) =
                (false, u d) := onTree_down hd (u d)
            rw [run_mustDo₂, hdown, if_neg Bool.false_ne_true]
          · rw [hclear.1 d] at hd
            cases hd
      | true =>
          obtain ⟨t₁, h₁, hs₁, hhome⟩ := hu.mkdir hs (List.prefix_refl _)
          have hmk : site.onTree d (Drive.createDirAll (rObjV bucket key slot)) (u d) =
              (true, t₁) := by
            rw [Site.onTree_up hd, LocalDrive.exec_createDirAll, resolve_rObjV hs]
            exact LocalDrive.attempt_some h₁
          have hcreate : site.onTree d (Drive.create ((rObjV bucket key slot).joinStr HEAL_TMP))
              t₁ = LocalDrive.attempt t₁ (t₁.write (site.objDir bucket key d ++
                (slotDir slot ++ [HEAL_TMP])) (.raw [])) := by
            rw [Site.onTree_up hd, LocalDrive.exec_create, resolve_healTmp hs]
            rfl
          rw [run_mustDo₂, hmk, if_pos rfl, hcreate]
          cases h₂ : t₁.write (site.objDir bucket key d ++ (slotDir slot ++ [HEAL_TMP]))
              (.raw []) with
          | none =>
              refine ⟨_, _, rfl, .inr ⟨⟨_, rfl⟩, hs₁, fun hclear => ?_⟩⟩
              -- the directory was made, and it is none that stands there
              have hnot : ¬ site.objDir bucket key d ++ (slotDir slot ++ [HEAL_TMP]) <+:
                  site.objDir bucket key d ++ slotDir slot := fun h0 => by
                have hlen := h0.length_le
                simp at hlen
              have hfree₁ := hfree hclear
              rw [← (look_createDirAll h₁ _).trans (if_neg hnot)] at hfree₁
              rw [← List.append_assoc] at h₂ hfree₁
              have hwritten := (write_isSome (c := .raw [])).2 ⟨hhome, hfree₁⟩
              rw [h₂] at hwritten
              cases hwritten
          | some t₂ =>
              have hhold := Holding.start hu hs h₁ h₂
              exact ⟨_, _, rfl, .inl ⟨rfl, hhold.shows, fun _ => ⟨hd, hhold⟩⟩⟩

/-- Appending one block's shards to the staged files. -/
theorem run_appendShards (hs : ProperVersion slot) {i : Nat} {b : Bytes}
    (hb : blocks[i]? = some b)
    (hst : ∀ d, Stocked S site bucket key F slot blocks bad i d (s d)) :
    ∃ s', site.run (inTurn (List.finRange n) fun d =>
        if bad d then
          mustDo d "heal write" (Drive.append ((rObjV bucket key slot).joinStr HEAL_TMP)
            ((S.shards b).getD d.val []))
        else pure ()) s = (.ok (), s') ∧
      ∀ d, Stocked S site bucket key F slot blocks bad (i + 1) d (s' d) := by
  have hstep : ∀ d (u : Cluster n Doc), Stocked S site bucket key F slot blocks bad i d (u d) →
      ∃ r t, site.run (if bad d then
          mustDo d "heal write" (Drive.append ((rObjV bucket key slot).joinStr HEAL_TMP)
            ((S.shards b).getD d.val []))
        else pure ()) u = (r, Function.update u d t) ∧
        (r = .ok () ∧ Stocked S site bucket key F slot blocks bad (i + 1) d t ∨
          (∃ e, r = .error e) ∧ True ∧ False) := by
    intro d u hu
    cases hbad : bad d with
    | false => exact ⟨.ok (), u d, by rw [Function.update_eq_self]; rfl,
        .inl ⟨rfl, hu.1, fun h => absurd (hbad.symm.trans h) Bool.false_ne_true⟩⟩
    | true =>
        obtain ⟨hd, hhold⟩ := hu.2 hbad
        obtain ⟨t, ht, hhold'⟩ := hhold.append (S.shard d b)
        have hpart : S.partOf d (blocks.take (i + 1)) =
            S.partOf d (blocks.take i) ++ S.shard d b := by
          simp [partOf, List.take_add_one, hb]
        have happend : site.onTree d (Drive.append ((rObjV bucket key slot).joinStr HEAL_TMP)
            ((S.shards b).getD d.val [])) (u d) = (true, t) := by
          rw [Site.onTree_up hd, LocalDrive.exec_append, resolve_healTmp hs]
          exact LocalDrive.attempt_some ht
        rw [if_pos rfl, run_mustDo, happend]
        exact ⟨_, _, rfl, .inl ⟨rfl, hhold'.shows, fun _ => ⟨hd, hpart ▸ hhold'⟩⟩⟩
  obtain ⟨r, s', hrun, hr⟩ := run_everyDrive (fun _ _ _ => trivial) (fun _ _ _ => trivial)
    hstep hst
  rcases hr with ⟨rfl, hr⟩ | ⟨-, -, hX⟩
  · exact ⟨s', hrun, hr⟩
  · exact hX.elim

/-- The shards of the drives that are not bad are those of the block. -/
theorem goodSlots_agree (hS : S.codec.Lawful) (bad : Fin n → Bool) (b : Bytes) :
    let slots := List.ofFn fun d : Fin n => if bad d then none else some (S.shard d b)
    ShardCode.Agrees slots (S.shards b) ∧
      slots.countP Option.isSome = tally fun d => !bad d := by
  refine ⟨⟨by rw [List.length_ofFn, length_shards hS], fun j x hj => ?_⟩, ?_⟩
  · rw [List.getElem?_ofFn] at hj
    split at hj
    · rename_i hjn
      simp only [Option.some.injEq, Option.ite_none_left_eq_some] at hj
      rw [← hj.2]
      exact getElem?_shards hS b ⟨j, hjn⟩
    · cases hj
  · rw [tally, List.ofFn_eq_map, List.countP_map]
    congr 1
    funext d
    simp only [Function.comp_apply]
    cases bad d <;> rfl

/-- Pass 2 reads the shards of the drives that are not bad. -/
theorem onTree_readGood (hsum : Function.Injective S.checksum)
    (hk : Displays site bucket key F s) (hs : ProperVersion slot)
    (hgood : ∀ d, bad d = false → ∀ i, i < blocks.length →
      HoldsShard S site s (rObjV bucket key slot) blocks i d)
    {i : Nat} {b : Bytes} (hb : blocks[i]? = some b) {u : Cluster n Doc}
    (hu : Displays site bucket key F u) (d : Fin n) :
    site.onTree d (if bad d then pure none
        else S.readShard ((rObjV bucket key slot).joinStr PART)
          (List.ofFn fun e => S.sumsOf e blocks) i (S.offsetOf blocks i)
          (S.codec.shardLen b.length) d) (u d) =
      (if bad d then none else some (S.shard d b), u d) := by
  cases hbad : bad d with
  | true => rfl
  | false =>
      have hlt : i < blocks.length := (List.getElem?_eq_some_iff.1 hb).1
      have hholds := (holdsShard_shelf hs (hk d) (hu d) rfl).1 (hgood d hbad i hlt)
      rw [if_neg Bool.false_ne_true, if_neg Bool.false_ne_true,
        onTree_readShard (unmistaken_of_injective hsum site u _ blocks) hb, if_pos hholds]

/-- The rebuild, from block `i` on, where enough drives are not bad. -/
theorem run_rebuild (hS : S.codec.Lawful) (hsum : Function.Injective S.checksum)
    (hk : Displays site bucket key F s) (hs : ProperVersion slot)
    (hgood : ∀ d, bad d = false → ∀ i, i < blocks.length →
      HoldsShard S site s (rObjV bucket key slot) blocks i d)
    (hcount : S.codec.data ≤ tally fun d => !bad d) :
    ∀ (rest : List Bytes) (i : Nat), blocks.drop i = rest → ∀ u : Cluster n Doc,
      (∀ d, Stocked S site bucket key F slot blocks bad i d (u d)) →
      ∃ u', site.run (S.rebuild ((rObjV bucket key slot).joinStr PART)
          ((rObjV bucket key slot).joinStr HEAL_TMP) S.codec
          (List.ofFn fun e => S.sumsOf e blocks) bad i (S.offsetOf blocks i)
          (rest.map List.length)) u = (.ok (), u') ∧
        ∀ d, Stocked S site bucket key F slot blocks bad blocks.length d (u' d) := by
  intro rest
  induction rest with
  | nil =>
      intro i hi u hu
      have hlen := List.drop_eq_nil_iff.1 hi
      refine ⟨u, rfl, fun d => ⟨(hu d).1, fun hbad => ?_⟩⟩
      have hhold := (hu d).2 hbad
      rw [List.take_of_length_le hlen] at hhold
      rwa [List.take_length]
  | cons b rest ih =>
      intro i hi u hu
      obtain ⟨hb, hrest, hoff⟩ := block_at S hi
      obtain ⟨hag, htally⟩ := goodSlots_agree hS bad b
      obtain ⟨u₁, happend, hu₁⟩ := run_appendShards hs hb hu
      obtain ⟨u', hrun, hu'⟩ := ih (i + 1) hrest u₁ hu₁
      refine ⟨u', ?_, hu'⟩
      rw [List.map_cons, rebuild]
      simp only [Site.run_bind, Site.run_eachDrive,
        onTree_readGood hsum hk hs hgood hb fun d => (hu d).1, Prog.andThen_ok]
      rw [Codec.reconstructBlock_encodeBlock hS (encodeBlock_shards hS b) hag
        (by rw [htally]; exact hcount)]
      simp only [encodeBlock_shards hS b, Site.run_bind]
      rw [show (fun d => u d) = u from rfl, happend, Prog.andThen_ok, hoff, hrun]

/-- Where too few drives are not bad, the rebuild ends at the first block. -/
theorem run_rebuild_few (hS : S.codec.Lawful) (hsum : Function.Injective S.checksum)
    (hk : Displays site bucket key F s) (hs : ProperVersion slot)
    (hgood : ∀ d, bad d = false → ∀ i, i < blocks.length →
      HoldsShard S site s (rObjV bucket key slot) blocks i d)
    (hne : blocks ≠ []) (hcount : (tally fun d => !bad d) < S.codec.data) {u : Cluster n Doc}
    (hu : Displays site bucket key F u) :
    ∃ e, site.run (S.rebuild ((rObjV bucket key slot).joinStr PART)
        ((rObjV bucket key slot).joinStr HEAL_TMP) S.codec
        (List.ofFn fun e => S.sumsOf e blocks) bad 0 0 (blocks.map List.length)) u =
      (.error e, u) := by
  obtain ⟨b, rest, rfl⟩ := List.exists_cons_of_ne_nil hne
  obtain ⟨-, htally⟩ := goodSlots_agree hS bad b
  obtain ⟨e, he⟩ := Codec.reconstructBlock_few (n := b.length) (htally ▸ hcount)
  have hread := onTree_readGood hsum hk hs hgood (i := 0) (b := b) rfl hu
  rw [show S.offsetOf (b :: rest) 0 = 0 from rfl] at hread
  refine ⟨.internal "heal: block unrecoverable", ?_⟩
  rw [List.map_cons, rebuild]
  simp only [Site.run_bind, Site.run_eachDrive, hread, Prog.andThen_ok]
  rw [he]
  rfl

/-- The shelf of a drive that has its shard file back. -/
def landedShelf (S : ErasureStore n) (slot : Option Str) (blocks : List Bytes)
    (bad : Fin n → Bool) (F : Fin n → Shelf) (d : Fin n) : Shelf :=
  if bad d then Function.update (F d) (.part slot)
    (some (.file (.raw (S.partOf d blocks))))
  else F d

theorem landedShelf_files (hF : ∀ d, (F d).Files) (d : Fin n) :
    (landedShelf S slot blocks bad F d).Files := by
  intro a
  unfold landedShelf
  split
  · rw [Function.update_apply]
    split
    · simp
    · exact hF d a
  · exact hF d a

/-- The staged files are renamed into place. -/
theorem run_landStages (hs : ProperVersion slot) (hF : ∀ d, (F d).Files)
    (hst : ∀ d, Stocked S site bucket key F slot blocks bad blocks.length d (s d)) :
    ∃ s', site.run (inTurn (List.finRange n) fun d =>
        if bad d then do
          mustDo d "heal finish" (Drive.shutdown ((rObjV bucket key slot).joinStr HEAL_TMP))
          mustDo d "heal rename" (Drive.rename ((rObjV bucket key slot).joinStr HEAL_TMP)
            ((rObjV bucket key slot).joinStr PART))
        else pure ()) s = (.ok (), s') ∧
      ∀ d, (bad d = true → site.up d = true) ∧
        Shows (site.objDir bucket key d) (landedShelf S slot blocks bad F d) (s' d) := by
  have hstep : ∀ d (u : Cluster n Doc),
      Stocked S site bucket key F slot blocks bad blocks.length d (u d) →
      ∃ r t, site.run (if bad d then do
          mustDo d "heal finish" (Drive.shutdown ((rObjV bucket key slot).joinStr HEAL_TMP))
          mustDo d "heal rename" (Drive.rename ((rObjV bucket key slot).joinStr HEAL_TMP)
            ((rObjV bucket key slot).joinStr PART))
        else pure ()) u = (r, Function.update u d t) ∧
        (r = .ok () ∧ ((bad d = true → site.up d = true) ∧
            Shows (site.objDir bucket key d) (landedShelf S slot blocks bad F d) t) ∨
          (∃ e, r = .error e) ∧ True ∧ False) := by
    intro d u hu
    unfold landedShelf
    cases hbad : bad d with
    | false => exact ⟨.ok (), u d, by rw [Function.update_eq_self]; rfl,
        .inl ⟨rfl, fun h => absurd h Bool.false_ne_true, hu.1⟩⟩
    | true =>
        obtain ⟨hd, hhold⟩ := hu.2 hbad
        rw [List.take_length] at hhold
        obtain ⟨t, ht, hland⟩ := hhold.land hs (hF d)
        have hshut : site.onTree d (Drive.shutdown ((rObjV bucket key slot).joinStr HEAL_TMP))
            (u d) = (true, u d) := by
          rw [Site.onTree_up hd, LocalDrive.exec_shutdown]
        have hrename : site.onTree d (Drive.rename ((rObjV bucket key slot).joinStr HEAL_TMP)
            ((rObjV bucket key slot).joinStr PART)) (u d) = (true, t) := by
          rw [Site.onTree_up hd, LocalDrive.exec_rename, resolve_healTmp hs, resolve_part hs]
          exact LocalDrive.attempt_some ht
        rw [if_pos rfl, if_pos rfl, run_mustDo₂, hshut, if_pos rfl, hrename]
        exact ⟨_, _, rfl, .inl ⟨rfl, fun _ => hd, hland⟩⟩
  obtain ⟨r, s', hrun, hr⟩ := run_everyDrive (fun _ _ _ => trivial) (fun _ _ _ => trivial)
    hstep hst
  rcases hr with ⟨rfl, hr⟩ | ⟨-, -, hX⟩
  · exact ⟨s', hrun, hr⟩
  · exact hX.elim

/-- The shelf of a drive that has the metadata back. -/
def describedShelf (slot : Option Str) (m : XlMeta) (bad : Fin n → Bool) (F : Fin n → Shelf)
    (d : Fin n) : Shelf :=
  if bad d then Function.update (F d) (.xl slot) (some (.file (.doc (.xl m)))) else F d

/-- New metadata. -/
theorem run_healMetas (hs : ProperVersion slot) {m : XlMeta} (hF : ∀ d, (F d).Files)
    (hland : ∀ d, (bad d = true → site.up d = true) ∧
      Shows (site.objDir bucket key d) (F d) (s d)) :
    ∃ s', site.run (healMetas (rObjV bucket key slot) m bad) s = (.ok (), s') ∧
      Displays site bucket key (describedShelf slot m bad F) s' := by
  have hproper : (Place.xl slot).Proper := hs
  have hstep : ∀ d (u : Cluster n Doc), ((bad d = true → site.up d = true) ∧
        Shows (site.objDir bucket key d) (F d) (u d)) →
      ∃ r t, site.run (if bad d then do
          mustDo d "heal mkdir meta" (Drive.createDirAll (rObjV bucket key slot))
          mustDo d "heal write meta" (Drive.write ((rObjV bucket key slot).joinStr XL_META)
            (.doc (.xl m)))
        else pure ()) u = (r, Function.update u d t) ∧
        (r = .ok () ∧ Shows (site.objDir bucket key d) (describedShelf slot m bad F d) t ∨
          (∃ e, r = .error e) ∧ True ∧ False) := by
    intro d u hu
    unfold describedShelf
    cases hbad : bad d with
    | false => exact ⟨.ok (), u d, by rw [Function.update_eq_self]; rfl, .inl ⟨rfl, hu.2⟩⟩
    | true =>
        obtain ⟨hd, hshows⟩ := hu
        obtain ⟨t₁, h₁, hs₁, hhome⟩ := hshows.mkdir hs (List.prefix_refl _)
        obtain ⟨t₂, h₂, hs₂⟩ := hs₁.write hproper hhome (hF d _) (.doc (.xl m))
        have hmk : site.onTree d (Drive.createDirAll (rObjV bucket key slot)) (u d) =
            (true, t₁) := by
          rw [Site.onTree_up (hd hbad), LocalDrive.exec_createDirAll, resolve_rObjV hs]
          exact LocalDrive.attempt_some h₁
        have hwrite : site.onTree d (Drive.write ((rObjV bucket key slot).joinStr XL_META)
            (.doc (.xl m))) t₁ = (true, t₂) := by
          rw [Site.onTree_up (hd hbad), LocalDrive.exec_write, resolve_xl hs]
          exact LocalDrive.attempt_some h₂
        rw [if_pos rfl, if_pos rfl, run_mustDo₂, hmk, if_pos rfl, hwrite]
        exact ⟨_, _, rfl, .inl ⟨rfl, hs₂⟩⟩
  obtain ⟨r, s', hrun, hr⟩ := run_everyDrive
    (A := fun d t => (bad d = true → site.up d = true) ∧
      Shows (site.objDir bucket key d) (F d) t)
    (fun _ _ _ => trivial) (fun _ _ _ => trivial) hstep hland
  rcases hr with ⟨rfl, hr⟩ | ⟨-, -, hX⟩
  · exact ⟨s', hrun, hr⟩
  · exact hX.elim

/-- New shard files for the bad drives, or an error that changes no shelf. -/
theorem run_healParts (hS : S.codec.Lawful) (hsum : Function.Injective S.checksum)
    (hk : Displays site bucket key F s) (hs : ProperVersion slot) (hF : ∀ d, (F d).Files)
    (hgood : ∀ d, bad d = false → ∀ i, i < blocks.length →
      HoldsShard S site s (rObjV bucket key slot) blocks i d) (hne : blocks ≠ []) :
    ∃ r s', site.run (S.healParts (rObjV bucket key slot) S.codec
        (List.ofFn fun e => S.sumsOf e blocks) (blocks.map List.length) bad) s = (r, s') ∧
      (r = .ok () ∧ (S.codec.data ≤ tally fun d => !bad d) ∧
          (∀ d, (bad d = true → site.up d = true) ∧
            Shows (site.objDir bucket key d) (landedShelf S slot blocks bad F d) (s' d)) ∨
        (∃ e, r = .error e) ∧ Displays site bucket key F s' ∧
          (Clear site bucket key slot s → (tally fun d => !bad d) < S.codec.data)) := by
  obtain ⟨r₁, s₁, hopen, h₁⟩ := run_openStages blocks bad hk hs
  unfold healParts
  rw [Site.run_bind, hopen]
  rcases h₁ with ⟨rfl, h₁⟩ | ⟨⟨e, rfl⟩, h₁, hclear⟩
  · rw [Prog.andThen_ok, Site.run_bind]
    by_cases hcount : S.codec.data ≤ tally fun d => !bad d
    · obtain ⟨s₂, hrebuild, h₂⟩ := run_rebuild hS hsum hk hs hgood hcount blocks 0 rfl s₁ h₁
      obtain ⟨s₃, hlanded, h₃⟩ := run_landStages hs hF h₂
      rw [show S.offsetOf blocks 0 = 0 from rfl] at hrebuild
      rw [hrebuild]
      exact ⟨.ok (), s₃, hlanded, .inl ⟨rfl, hcount, h₃⟩⟩
    · have hfew := Nat.lt_of_not_le hcount
      obtain ⟨e, hrebuild⟩ := run_rebuild_few hS hsum hk hs hgood hne hfew fun d => (h₁ d).1
      rw [hrebuild]
      exact ⟨.error e, s₁, rfl, .inr ⟨⟨e, rfl⟩, fun d => (h₁ d).1, fun _ => hfew⟩⟩
  · exact ⟨_, _, rfl, .inr ⟨⟨e, rfl⟩, h₁, fun h => absurd h hclear⟩⟩

end

/-! ## One object version -/

/-- A copy some write made: its blocks are those of a body, its metadata the write's. -/
def Copy.Minted {n : Nat} (S : ErasureStore n) (c : Copy) : Prop :=
  ∃ env src contentType userMetadata encrypted etagOverride,
    bodyBlocks S.blockSize src = (c.blocks, false) ∧
      c.xl = S.xlFor env c.blocks contentType userMetadata encrypted etagOverride

/-- Every copy was made by a write. -/
def KeyStates.Minted {n : Nat} (S : ErasureStore n) (K : KeyStates n) : Prop :=
  ∀ d slot c, (K d).slot slot = some c → c.Minted S

theorem bodyBlocks_ne_nil {bs : Nat} {src : Body} {blocks : List Bytes}
    (h : bodyBlocks bs src = (blocks, false)) : blocks ≠ [] := by
  intro h0
  have hlens := blockLens_bodyBlocks h
  rw [h0] at hlens
  cases hlens

namespace Copy.Minted

variable {n : Nat} {S : ErasureStore n} {c : Copy}

theorem ne_nil (h : c.Minted S) : c.blocks ≠ [] := by
  obtain ⟨env, src, contentType, userMetadata, encrypted, etagOverride, hsrc, -⟩ := h
  exact bodyBlocks_ne_nil hsrc

theorem checksums (h : c.Minted S) :
    c.xl.checksums = List.ofFn fun d => S.sumsOf d c.blocks := by
  obtain ⟨env, src, contentType, userMetadata, encrypted, etagOverride, -, hxl⟩ := h
  rw [hxl]
  rfl

theorem codec (h : c.Minted S) : Codec.new S.codec.rs c.xl.data c.xl.parity = .ok S.codec := by
  obtain ⟨env, src, contentType, userMetadata, encrypted, etagOverride, -, hxl⟩ := h
  rw [hxl]
  exact Codec.new_self S.codec

theorem data (h : c.Minted S) : c.xl.data = S.codec.data := by
  obtain ⟨env, src, contentType, userMetadata, encrypted, etagOverride, -, hxl⟩ := h
  rw [hxl]
  rfl

theorem lens (h : c.Minted S) :
    blockLens c.xl.storedSize (max c.xl.blockSize 1) = c.blocks.map List.length := by
  obtain ⟨env, src, contentType, userMetadata, encrypted, etagOverride, hsrc, hxl⟩ := h
  have hlens := blockLens_bodyBlocks hsrc
  rw [hxl]
  show blockLens c.blocks.flatten.length (max S.blockSize 1) = _
  by_cases hbs : S.blockSize = 0
  · rw [hbs, bodyBlocks_zero] at hsrc
    rw [← (Prod.mk.inj hsrc).1]
    rfl
  · rwa [Nat.max_eq_left (Nat.pos_of_ne_zero hbs)]

end Copy.Minted

section

variable {n : Nat} {S : ErasureStore n} {site : Site n} {bucket key : Str}
  {K : KeyStates n} {s : Cluster n Doc} {slot : Option Str}

/-- What a heal of a version can make of what the drives have. -/
inductive Mends (S : ErasureStore n) (site : Site n) (bucket key : Str) (slot : Option Str)
    (K : KeyStates n) (s : Cluster n Doc) : KeyStates n → Prop where
  | same : Mends S site bucket key slot K s K
  | given {c : Copy} {bad : Fin n → Bool} (hup : ∀ d, site.up d = true)
      (hxl : K.xlUp site slot = some c.xl) (hc : c.Minted S)
      (henough : ∀ i, i < c.blocks.length →
        S.codec.data ≤ holders S site s (rObjV bucket key slot) c.blocks i)
      (hsome : ∃ i d, i < c.blocks.length ∧
        ¬ HoldsShard S site s (rObjV bucket key slot) c.blocks i d) :
      Mends S site bucket key slot K s
        fun d => if bad d then (K d).setSlot slot (some c) else K d

theorem Keeps.slot_of_holdsShard (hk : Keeps S site bucket key K s) (hs : ProperVersion slot)
    {blocks : List Bytes} {i : Nat} {d : Fin n}
    (h : HoldsShard S site s (rObjV bucket key slot) blocks i d) : (K d).slot slot ≠ none := by
  intro hnone
  have hproper : (Place.part slot).Proper := hs
  have hlook : (s d).look ((rObject bucket key).resolve (site.root d) ++
      (Place.part slot).rel) = none := by
    refine ((hk d).place _ hproper).trans ?_
    rw [KeyState.shelf, hnone]
    rfl
  obtain ⟨-, hshard⟩ := h
  rw [resolve_part hs, shardAt, file?, hlook] at hshard
  cases hshard

theorem givenShelf_eq (bad : Fin n → Bool) (K : KeyStates n) (c : Copy) (d : Fin n) :
    describedShelf slot c.xl bad (landedShelf S slot c.blocks bad fun d => (K d).shelf S d) d =
      (if bad d then (K d).setSlot slot (some c) else K d).shelf S d := by
  unfold describedShelf landedShelf
  cases bad d with
  | false => rfl
  | true => exact (KeyState.shelf_setSlot slot (some c)).symm

/-- Once it is known which drives are bad. -/
theorem leads_healFound (hS : S.codec.Lawful) (hsum : Function.Injective S.checksum)
    (hk : Keeps S site bucket key K s) (hs : ProperVersion slot) {c : Copy}
    (hxl : K.xlUp site slot = some c.xl) (hc : c.Minted S) {badMeta : Fin n → Bool}
    (hmeta : ∀ d, site.up d = true → (K d).slot slot ≠ none → badMeta d = false)
    (dryRun : Bool) :
    ∃ r K', Leads S site bucket key (S.healFound (rObjV bucket key slot) S.codec c.xl
        (c.blocks.map List.length) badMeta ((List.range' 0 c.blocks.length).map fun j d =>
          decide (HoldsShard S site s (rObjV bucket key slot) c.blocks j d)) dryRun) s r K' ∧
      Mends S site bucket key slot K s K' := by
  let rows : List (Fin n → Bool) := (List.range' 0 c.blocks.length).map fun j d =>
    decide (HoldsShard S site s (rObjV bucket key slot) c.blocks j d)
  let bad : Fin n → Bool := fun d => rows.any fun row => !row d
  have hgood : ∀ d, bad d = false → ∀ i, i < c.blocks.length →
      HoldsShard S site s (rObjV bucket key slot) c.blocks i d := by
    intro d hbad i hi
    have hrow := List.any_eq_false.1 hbad (fun d => decide (HoldsShard S site s
      (rObjV bucket key slot) c.blocks i d)) (List.mem_map.2 ⟨i, by simpa using hi, rfl⟩)
    simpa using hrow
  have hpos : 0 < c.blocks.length := List.length_pos_iff.2 hc.ne_nil
  -- a drive that holds every shard has the copy, and so its metadata
  have hbad : (fun d => badMeta d || bad d) = bad := by
    funext d
    cases hd : bad d with
    | true => exact Bool.or_true _
    | false =>
        have hholds := hgood d hd 0 hpos
        rw [hmeta d hholds.1 (hk.slot_of_holdsShard hs hholds)]
        rfl
  have hsame : ∀ r, ∃ r' K', Leads S site bucket key (pure r : EStore n HealOutcome) s r' K' ∧
      Mends S site bucket key slot K s K' := fun r => ⟨_, K, .pure r hk, .same⟩
  unfold healFound
  show ∃ r K', Leads S site bucket key (if (!(List.finRange n).any bad &&
      !(List.finRange n).any badMeta) = true then (pure HealOutcome.healthy : EStore n _)
    else if ((List.finRange n).any bad && rows.any fun row => decide (tally row < c.xl.data)) =
      true then pure HealOutcome.unrecoverable
    else if dryRun = true then pure (HealOutcome.healed (tally fun d => bad d || badMeta d))
    else do
      (if (List.finRange n).any bad = true then
        S.healParts (rObjV bucket key slot) S.codec c.xl.checksums
          (c.blocks.map List.length) bad
      else pure ())
      healMetas (rObjV bucket key slot) c.xl fun d => badMeta d || bad d
      pure (HealOutcome.healed (tally fun d => bad d || badMeta d))) s r K' ∧
    Mends S site bucket key slot K s K'
  split
  · exact hsame _
  · split
    · exact hsame _
    · split
      · exact hsame _
      · rename_i hneed hfew _
        have hany : (List.finRange n).any bad = true := by
          by_contra hno
          rw [Bool.not_eq_true] at hno
          refine hneed ?_
          have hmetas : (List.finRange n).any badMeta = false := by
            refine List.any_eq_false.2 fun d hd => ?_
            have hb := congrFun hbad d
            rw [Bool.eq_false_iff.2 (List.any_eq_false.1 hno d hd), Bool.or_false] at hb
            rw [hb]
            exact Bool.false_ne_true
          rw [hno, hmetas]
          rfl
        have henough : ∀ i, i < c.blocks.length →
            S.codec.data ≤ holders S site s (rObjV bucket key slot) c.blocks i := by
          intro i hi
          rw [hany, Bool.true_and] at hfew
          have hrow := List.any_eq_false.1 (Bool.eq_false_iff.2 hfew) (fun d =>
            decide (HoldsShard S site s (rObjV bucket key slot) c.blocks i d))
            (List.mem_map.2 ⟨i, by simpa using hi, rfl⟩)
          rw [decide_eq_true_eq, hc.data] at hrow
          exact Nat.le_of_not_lt hrow
        have hsome : ∃ i d, i < c.blocks.length ∧
            ¬ HoldsShard S site s (rObjV bucket key slot) c.blocks i d := by
          obtain ⟨d, -, hd⟩ := List.any_eq_true.1 hany
          obtain ⟨row, hrow, hnot⟩ := List.any_eq_true.1 hd
          obtain ⟨i, hi, rfl⟩ := List.mem_map.1 hrow
          exact ⟨i, d, by simpa using hi, by simpa using hnot⟩
        obtain ⟨r₁, s₁, hparts, h₁⟩ := run_healParts hS hsum hk hs
          (fun d => KeyState.shelf_files) hgood hc.ne_nil
        rw [if_pos hany, hbad, hc.checksums]
        rcases h₁ with ⟨rfl, -, h₁⟩ | ⟨⟨e, rfl⟩, h₁, -⟩
        · obtain ⟨s₂, hmetas, h₂⟩ := run_healMetas hs
            (fun d => landedShelf_files (fun d => KeyState.shelf_files) d) h₁
          replace h₂ : Keeps S site bucket key
              (fun d => if bad d then (K d).setSlot slot (some c) else K d) s₂ :=
            fun d => givenShelf_eq bad K c d ▸ h₂ d
          refine ⟨.ok (.healed (tally fun d => bad d || badMeta d)), _, ⟨s₂, ?_, h₂⟩,
            .given (fun d => ?_) hxl hc henough hsome⟩
          · rw [Site.run_bind, hparts, Prog.andThen_ok, Site.run_bind, hmetas]
            rfl
          · cases hd : bad d with
            | true => exact (h₁ d).1 hd
            | false => exact (hgood d hd 0 hpos).1
        · refine ⟨.error e, K, ⟨s₁, ?_, h₁⟩, .same⟩
          rw [Site.run_bind, hparts]
          rfl

/-- `heal_object`. -/
theorem leads_healObject (hS : S.codec.Lawful) (hsum : Function.Injective S.checksum)
    (hk : Keeps S site bucket key K s) (hm : K.Minted S) (hs : ProperVersion slot)
    (dryRun : Bool) :
    ∃ r K', Leads S site bucket key (S.healObject bucket key slot dryRun) s r K' ∧
      Mends S site bucket key slot K s K' := by
  have hread : site.run (outcome (readXlV bucket key slot)) s =
      (.ok ((K.xlUp site slot).elim (.error .noSuchKey) .ok), s) := by
    rw [Site.run_outcome, hk.run_readXlV hs]
    cases K.xlUp site slot <;> rfl
  unfold healObject
  cases hxl : K.xlUp site slot with
  | none =>
      rw [hxl, Option.elim_none] at hread
      exact ⟨_, K, Leads.read hread (.pure _ hk), .same⟩
  | some m =>
      rw [hxl, Option.elim_some] at hread
      obtain ⟨d, -, hd⟩ := List.exists_of_findSome?_eq_some hxl
      obtain ⟨c, hslot, rfl⟩ : ∃ c, (K d).slot slot = some c ∧ c.xl = m := by
        split at hd
        · exact Option.map_eq_some_iff.1 hd
        · cases hd
      have hc := hm d slot c hslot
      have hdoc : ∀ e, docAt Doc.xl? (s e)
          (((rObjV bucket key slot).joinStr XL_META).resolve (site.root e)) =
          ((K e).slot slot).map Copy.xl := by
        intro e
        rw [resolve_xl hs]
        refine (docAt_shows (hk e) (a := .xl slot) hs Doc.xl?).trans ?_
        rw [KeyState.shelf]
        cases (K e).slot slot <;> rfl
      have hmetas : site.run (eachDrive fun _ => do
          let doc ← Drive.readDoc ((rObjV bucket key slot).joinStr XL_META)
          pure (doc.bind Doc.xl?)) s =
          (.ok fun e => if site.up e then ((K e).slot slot).map Copy.xl else none, s) := by
        rw [Site.run_eachDrive]
        simp only [onTree_readDoc, hdoc]
      have hdetect := run_detect (unmistaken_of_injective hsum site s (rObjV bucket key slot)
        c.blocks) c.blocks 0 rfl
      have hmeta : ∀ e, site.up e = true → (K e).slot slot ≠ none →
          (if site.up e then ((K e).slot slot).map Copy.xl else none).isNone = false := by
        intro e he hslot
        rw [if_pos he, Option.isNone_map]
        exact Option.isNone_eq_false_iff.2 (Option.isSome_iff_ne_none.2 hslot)
      obtain ⟨r, K', hleads, hmends⟩ := leads_healFound hS hsum hk hs hxl hc hmeta dryRun
      refine ⟨r, K', Leads.read hread ?_, hmends⟩
      dsimp only
      rw [hc.codec, hc.lens, hc.checksums]
      exact Leads.read hmetas (Leads.read hdetect hleads)

end

end Kerplace
