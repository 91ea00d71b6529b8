/-
# `Kerplace.Erasure.HealRuns` — heals among the calls on a key

A heal takes the copy of the first drive that has one for what the object is.
In a run of calls on a key with heals between them, a heal whose first copy is
the one the last acknowledged call left is harmless: a reader, whichever drives
it can reach, finds what it would have found before, or that copy; and what it
could read of that copy it still reads.
-/
import Kerplace.Erasure.Mend
import Kerplace.Erasure.KeyRuns
import Kerplace.Erasure.Ledger
import Kerplace.Erasure.RoundTrip
import Kerplace.Erasure.Replicated

namespace Kerplace

open FileTree Prog ErasureStore

/-! ## What a heal of another version may touch -/

/-- The files a heal writes below a version's directory. -/
def HEAL_FILES : List Str := [HEAL_TMP, PART, XL_META]

/-- What a heal of the version at `rel` does to a drive. -/
def HealMay (rel : UnixPath) : DriveOp Doc → Prop
  | .createDirAll p => p = rel
  | .write p c => (∃ f ∈ HEAL_FILES, p = rel.joinStr f) ∧ ∃ m, c = .doc (.xl m)
  | .create p => ∃ f ∈ HEAL_FILES, p = rel.joinStr f
  | .append p _ => ∃ f ∈ HEAL_FILES, p = rel.joinStr f
  | .shutdown p => ∃ f ∈ HEAL_FILES, p = rel.joinStr f
  | .rename src dst =>
      (∃ f ∈ HEAL_FILES, src = rel.joinStr f) ∧ ∃ f ∈ HEAL_FILES, dst = rel.joinStr f
  | .removeFile _ => False
  | .removeDir _ => False
  | .removeDirAll _ => False
  | _ => True

/-- The contract of a heal of the version at `rel`. -/
def healContract (n : Nat) (rel : UnixPath) : Contract (StoreOp n Doc) StoreOp.Ans where
  may
    | .drive _ o => HealMay rel o
    | .lock _ => False
    | .unlock _ => False
  gives _ _ := True

section

variable {n : Nat} {S : ErasureStore n} {rel : UnixPath}

theorem meets_heal {d : Fin n} {o : DriveOp Doc} (ho : HealMay rel o) :
    Meets ((healContract n rel).slot d) (Prog.op o) fun _ => True :=
  ⟨ho, fun _ _ => trivial⟩

theorem meetsE_heal_each {α : Type} {p : Fin n → DriveProg Doc α}
    (hp : ∀ d, Meets ((healContract n rel).slot d) (p d) fun _ => True) :
    MeetsE (healContract n rel) (eachDrive p) fun _ => True :=
  (meetsE_eachDrive (Q := fun _ _ => True) hp).mono fun _ _ => trivial

theorem meetsE_mustDo {d : Fin n} {e : String} {p : DriveProg Doc Bool}
    (hp : Meets ((healContract n rel).slot d) p fun _ => True) :
    MeetsE (healContract n rel) (mustDo d e p) fun _ => True :=
  meetsE_orFail (meetsE_atDrive.2 hp)

theorem meetsE_inTurn {p : Fin n → EStore n Unit}
    (hp : ∀ d, MeetsE (healContract n rel) (p d) fun _ => True) (ds : List (Fin n)) :
    MeetsE (healContract n rel) (inTurn ds p) fun _ => True := by
  induction ds with
  | nil => exact meetsE_pure.2 trivial
  | cons d ds ih => exact (hp d).then fun _ => ih

theorem meets_heal_readShard {checksums : List (List Str)} {p : UnixPath}
    (b offset slen : Nat) (d : Fin n) :
    Meets ((healContract n rel).slot d) (S.readShard p checksums b offset slen d)
      fun _ => True :=
  (meets_heal (o := .readAt p offset slen) trivial).bind fun _ _ => trivial

theorem meetsE_detect {p : UnixPath} {codec : Codec} {checksums : List (List Str)}
    (lens : List Nat) : ∀ b offset,
      MeetsE (healContract n rel) (S.detect p codec checksums b offset lens) fun _ => True := by
  induction lens with
  | nil => exact fun b offset => meetsE_pure.2 trivial
  | cons len lens ih =>
      intro b offset
      refine (meetsE_heal_each fun d => meets_heal_readShard b offset _ d).then fun _ => ?_
      exact (ih _ _).then fun _ => meetsE_pure.2 trivial

theorem meetsE_rebuild {p : UnixPath} {codec : Codec} {checksums : List (List Str)}
    {bad : Fin n → Bool} (lens : List Nat) : ∀ b offset,
      MeetsE (healContract n rel) (S.rebuild p (rel.joinStr HEAL_TMP) codec checksums bad b
        offset lens) fun _ => True := by
  induction lens with
  | nil => exact fun b offset => meetsE_pure.2 trivial
  | cons len lens ih =>
      intro b offset
      refine (meetsE_heal_each fun d => ?_).then fun shards => ?_
      · split
        · exact trivial
        · exact meets_heal_readShard b offset _ d
      · split
        · exact meetsE_throw
        · split
          · exact meetsE_throw
          · refine (meetsE_inTurn (fun d => ?_) _).then fun _ => ih _ _
            split
            · exact meetsE_mustDo (meets_heal (o := .append _ _) ⟨HEAL_TMP, by decide, rfl⟩)
            · exact meetsE_pure.2 trivial

theorem meetsE_healParts {codec : Codec} {checksums : List (List Str)} {lens : List Nat}
    {bad : Fin n → Bool} :
    MeetsE (healContract n rel) (S.healParts rel codec checksums lens bad) fun _ => True := by
  have hfile : ∃ f ∈ HEAL_FILES, rel.joinStr HEAL_TMP = rel.joinStr f :=
    ⟨HEAL_TMP, by decide, rfl⟩
  refine (meetsE_inTurn (fun d => ?_) _).then fun _ => ?_
  · split
    · exact (meetsE_mustDo (meets_heal (o := .createDirAll rel) rfl)).then fun _ =>
        meetsE_mustDo (meets_heal (o := .create _) hfile)
    · exact meetsE_pure.2 trivial
  · refine (meetsE_rebuild lens 0 0).then fun _ => meetsE_inTurn (fun d => ?_) _
    split
    · exact (meetsE_mustDo (meets_heal (o := .shutdown _) hfile)).then fun _ =>
        meetsE_mustDo (meets_heal (o := .rename _ _) ⟨hfile, PART, by decide, rfl⟩)
    · exact meetsE_pure.2 trivial

theorem meetsE_healMetas {m : XlMeta} {bad : Fin n → Bool} :
    MeetsE (healContract n rel) (healMetas rel m bad) fun _ => True := by
  refine meetsE_inTurn (fun d => ?_) _
  split
  · exact (meetsE_mustDo (meets_heal (o := .createDirAll rel) rfl)).then fun _ =>
      meetsE_mustDo (meets_heal (o := .write _ _) ⟨⟨XL_META, by decide, rfl⟩, m, rfl⟩)
  · exact meetsE_pure.2 trivial

theorem meetsE_healFound {codec : Codec} {m : XlMeta} {lens : List Nat}
    {badMeta : Fin n → Bool} {rows : List (Fin n → Bool)} {dryRun : Bool} :
    MeetsE (healContract n rel) (S.healFound rel codec m lens badMeta rows dryRun)
      fun _ => True := by
  unfold healFound
  dsimp only
  split
  · exact meetsE_pure.2 trivial
  · split
    · exact meetsE_pure.2 trivial
    · split
      · exact meetsE_pure.2 trivial
      · refine MeetsE.then (Q := fun _ => True) ?_ fun _ => ?_
        · split
          · exact meetsE_healParts
          · exact meetsE_pure.2 trivial
        · exact meetsE_healMetas.then fun _ => meetsE_pure.2 trivial

theorem meets_heal_readXl {d : Fin n} (p : UnixPath) :
    Meets ((healContract n rel).slot d) (do
      let doc ← Drive.readDoc p
      pure (doc.bind Doc.xl?)) fun _ => True :=
  Meets.bind (R := fun _ => True) (Meets.bind (R := fun _ => True)
    (meets_heal (o := .read p) trivial) fun _ _ => trivial) fun _ _ => trivial

/-- A heal of a version keeps to its contract. -/
theorem meetsE_healObject (bucket key : Str) (vid : Option Str) (dryRun : Bool) :
    MeetsE (healContract n (rObjV bucket key vid)) (S.healObject bucket key vid dryRun)
      fun _ => True := by
  have hread : MeetsE (healContract n (rObjV bucket key vid)) (readXlV bucket key vid)
      fun _ => True := by
    refine MeetsE.then (Q := fun _ => True) ?_ fun hit => ?_
    · refine (meetsE_anyDrive (Q := fun _ => True) fun d => ?_).mono fun _ _ => trivial
      exact (meets_heal_readXl _).mono fun _ _ _ _ => trivial
    · split
      · exact meetsE_pure.2 trivial
      · exact meetsE_throw
  refine MeetsE.then (Q := fun _ => True)
    ((meetsE_outcome hread).mono fun _ _ => trivial) fun r => ?_
  split
  · exact meetsE_pure.2 trivial
  · split
    · exact meetsE_throw
    · refine (meetsE_heal_each fun d => meets_heal_readXl _).then fun metas => ?_
      exact (meetsE_detect _ 0 0).then fun rows => meetsE_healFound

end

/-! ## Versions that lie elsewhere -/

/-- A heal of the version at `other` meets none of the key's files at `dir`. -/
structure Elsewhere (dir other : List Str) : Prop where
  above : ∀ q, OnShelf dir q → ¬ q <+: other
  files : ∀ q, OnShelf dir q → ∀ f ∈ HEAL_FILES, ¬ other ++ [f] <+: q

theorem atom_healFile {f : Str} (hf : f ∈ HEAL_FILES) : UnixPath.Atom f := by
  revert f
  decide

/-- One operation of a heal elsewhere. -/
theorem Elsewhere.shows_step {dir root : List Str} {rel : UnixPath} {F : Shelf}
    {t : Tree Doc} {o : DriveOp Doc} (h : Elsewhere dir (rel.resolve root)) (ho : HealMay rel o)
    (ht : Shows dir F t) : Shows dir F (LocalDrive.step root o t).2 := by
  have hfile : ∀ {p : UnixPath}, (∃ f ∈ HEAL_FILES, p = rel.joinStr f) → ∀ q, OnShelf dir q →
      ¬ p.resolve root <+: q := by
    rintro p ⟨f, hf, rfl⟩ q hq
    rw [UnixPath.resolve_joinStr_atom (atom_healFile hf)]
    exact h.files q hq f hf
  have halters : ∀ {p : UnixPath}, o.Alters p → ∃ f ∈ HEAL_FILES, p = rel.joinStr f := by
    intro p hp
    cases o with
    | create p' => exact (show p = p' from hp) ▸ ho
    | append p' _ => exact (show p = p' from hp) ▸ ho
    | rename src dst =>
        rcases hp with rfl | rfl
        · exact ho.1
        · exact ho.2
    | removeFile p' => exact ho.elim
    | removeDirAll p' => exact ho.elim
    | _ => exact hp.elim
  have hlook : ∀ q, OnShelf dir q → (LocalDrive.step root o t).2.look q = t.look q := by
    intro q hq
    cases LocalDrive.step_effect root q o t with
    | kept hl => exact hl
    | removed p hp hpq => exact absurd hpq (hfile (halters hp) q hq)
    | stored p c hw hpq =>
        subst hw
        exact absurd hpq (hfile ho.1 q hq)
    | filled p b hp hpq => exact absurd hpq (hfile (halters hp) q hq)
    | moved p q' hp hpq => exact absurd hpq (hfile (halters hp) q hq)
    | pruned p hr =>
        subst hr
        exact ho.elim
    | made p hm hqp =>
        subst hm
        rw [show p = rel from ho] at hqp
        exact absurd hqp (h.above q hq)
  refine ⟨fun slot hs q hq => ?_, ?_, fun a ha => ?_⟩
  · have hproper : (Place.part slot).Proper := hs
    have hpart : OnShelf dir (dir ++ (Place.part slot).rel) := .inr ⟨_, hproper, rfl⟩
    have hqpart : q <+: dir ++ (Place.part slot).rel := hq.trans ⟨[PART], List.append_assoc _ _ _⟩
    have hold := ht.dirs slot hs q hq
    cases LocalDrive.step_effect root q o t with
    | kept hl => rw [file?_congr hl, hold]
    | removed p hp hpq => exact absurd (hpq.trans hqpart) (hfile (halters hp) _ hpart)
    | stored p c hw hpq =>
        subst hw
        exact absurd (hpq.trans hqpart) (hfile ho.1 _ hpart)
    | filled p b hp hpq => exact absurd (hpq.trans hqpart) (hfile (halters hp) _ hpart)
    | moved p q' hp hpq => exact absurd (hpq.trans hqpart) (hfile (halters hp) _ hpart)
    | pruned p hr =>
        subst hr
        exact ho.elim
    | made p hm hqp hf hl => rw [file?, hl]
  · rw [hlook _ (.inl rfl)]
    exact ht.tmp
  · rw [hlook _ (.inr ⟨a, ha, rfl⟩)]
    exact ht.place a ha

section

variable {n : Nat} {S : ErasureStore n} {site : Site n} {bucket key : Str}
  {K : KeyStates n} {s : Cluster n Doc}

/-- A heal elsewhere leaves what the drives have of the key. -/
theorem keeps_healObject_elsewhere (hk : Keeps S site bucket key K s) {other : Str}
    {vid : Option Str} (helse : ∀ d, Elsewhere (site.objDir bucket key d)
      ((rObjV bucket other vid).resolve (site.root d))) (dryRun : Bool) :
    Keeps S site bucket key K (site.run (S.healObject bucket other vid dryRun) s).2 := by
  have hop : Honours site.step (healContract n (rObjV bucket other vid))
      (Keeps S site bucket key K) := by
    intro o ho u hu
    cases o with
    | lock m => exact ho.elim
    | unlock m => exact ho.elim
    | drive d o =>
        refine ⟨trivial, ?_⟩
        have hstep : site.step (.drive d o) u =
            ((LocalDrive.stepIf (site.root d) (site.up d) o (u d)).1,
              Function.update u d (LocalDrive.stepIf (site.root d) (site.up d) o (u d)).2) :=
          rfl
        rw [hstep]
        cases hup : site.up d with
        | true => exact Site.update_forall hu ((helse d).shows_step ho (hu d))
        | false =>
            rw [LocalDrive.stepIf_false, Function.update_eq_self]
            exact hu
  exact (MeetsE.run hop (meetsE_healObject bucket other vid dryRun) hk).2

end

/-! ## What readers find -/

/-- What a read of the current metadata answers when the copy found is `R`. -/
def foundAnswer : Option XlMeta → Except S3Error XlMeta
  | some m => .ok m
  | none => .error .noSuchKey

theorem foundAnswer_injective : Function.Injective foundAnswer := by
  intro a b h
  cases a <;> cases b <;> cases h <;> rfl

/-- A reader finds the metadata `m`, and reads the stored bytes it describes whole. -/
structure Served {n : Nat} (S : ErasureStore n) (site : Site n) (bucket key : Str)
    (m : XlMeta) (stored : Bytes) (s : Cluster n Doc) : Prop where
  found : (site.run (readXl bucket key) s).1 = .ok m
  stream : (site.run (S.streamingBody bucket key none m) s).1 = .ok stored
  whole : stored.length = m.storedSize

/-- From `s` to `s'` no reader finds another copy than it found before, unless it is
`R`; and whoever was served `R` still is. -/
structure Harmless {n : Nat} (S : ErasureStore n) (root : Fin n → List Str)
    (bucket key : Str) (R : Option XlMeta) (s s' : Cluster n Doc) : Prop where
  found : ∀ up, ((Site.mk root up).run (readXl bucket key) s').1 =
      ((Site.mk root up).run (readXl bucket key) s).1 ∨
    ((Site.mk root up).run (readXl bucket key) s').1 = foundAnswer R
  served : ∀ up m stored, R = some m → Served S ⟨root, up⟩ bucket key m stored s →
    Served S ⟨root, up⟩ bucket key m stored s'

section

variable {n : Nat} {S : ErasureStore n} {site : Site n} {root : Fin n → List Str}
  {bucket key : Str} {K K' : KeyStates n} {s s' s'' : Cluster n Doc} {R : Option XlMeta}

theorem Harmless.refl : Harmless S root bucket key R s s :=
  ⟨fun _ => .inl rfl, fun _ _ _ _ h => h⟩

theorem Harmless.trans (h : Harmless S root bucket key R s s')
    (h' : Harmless S root bucket key R s' s'') : Harmless S root bucket key R s s'' where
  found up := by
    rcases h'.found up with hf | hf
    · rw [hf]
      exact h.found up
    · exact .inr hf
  served up m stored hm hs := h'.served up m stored hm (h.served up m stored hm hs)

theorem Keeps.readXl_fst (hk : Keeps S site bucket key K s) :
    (site.run (readXl bucket key) s).1 = foundAnswer (K.xlUp site none) := by
  rw [readXl, hk.run_readXlV properVersion_none]
  cases K.xlUp site none <;> rfl

theorem holdsShard_congr (hk : Keeps S site bucket key K s) (hk' : Keeps S site bucket key K' s')
    {d : Fin n} (hslot : (K' d).slot none = (K d).slot none) {blocks : List Bytes} {i : Nat} :
    HoldsShard S site s (rObjV bucket key none) blocks i d ↔
      HoldsShard S site s' (rObjV bucket key none) blocks i d :=
  holdsShard_shelf properVersion_none (hk d) (hk' d) (by
    rw [KeyState.shelf, KeyState.shelf, hslot])

theorem holdsShard_of_slot (hS : S.codec.Lawful) (hk : Keeps S site bucket key K s)
    {d : Fin n} (hup : site.up d = true) {c : Copy} (hslot : (K d).slot none = some c) {i : Nat}
    (hi : i < c.blocks.length) :
    HoldsShard S site s (rObjV bucket key none) c.blocks i d :=
  holdsShard_of_part hS properVersion_none hup (hk d) (by
    rw [KeyState.shelf, hslot]
    rfl) hi

/-- Whoever is served a copy still is once it is found and no drive has lost a shard
of it. -/
theorem Served.more (hS : S.codec.Lawful) (hsum : Function.Injective S.checksum) {c : Copy}
    (hc : c.Minted S) {stored : Bytes} (h : Served S site bucket key c.xl stored s)
    (hfound : (site.run (readXl bucket key) s').1 = .ok c.xl)
    (hmore : ∀ i, i < c.blocks.length → ∀ d,
      HoldsShard S site s (rObjV bucket key none) c.blocks i d →
      HoldsShard S site s' (rObjV bucket key none) c.blocks i d) :
    Served S site bucket key c.xl stored s' := by
  obtain ⟨env, src, contentType, userMetadata, encrypted, etagOverride, hsrc, hxl⟩ := hc
  have hstream := fun u => run_streamingBody hS hsrc env contentType userMetadata encrypted
    etagOverride (unmistaken_of_injective hsum site u (rObjV bucket key none) c.blocks)
  rw [← hxl] at hstream
  obtain ⟨k, hk, hrun, hiff⟩ := hstream s
  obtain ⟨k', hk', hrun', hiff'⟩ := hstream s'
  have hstored : stored = (c.blocks.take k).flatten := by
    have h1 := h.stream
    rw [hrun] at h1
    exact (Except.ok.inj h1).symm
  have hsize : stored.length = c.blocks.flatten.length := by
    rw [h.whole, hxl]
    rfl
  refine ⟨hfound, ?_, h.whole⟩
  rw [hrun', hstored]
  by_cases hflat : c.blocks.flatten = []
  · have hnil : ∀ j, (c.blocks.take j).flatten = [] := fun j =>
      List.flatten_eq_nil_iff.2 fun b hb =>
        List.flatten_eq_nil_iff.1 hflat b (List.mem_of_mem_take hb)
    rw [hnil, hnil]
  · have hfull : k = c.blocks.length := by
      by_contra hne
      have hlt := length_flatten_take_lt (fun b hb => ne_nil_of_mem_bodyBlocks hsrc hflat hb)
        (Nat.lt_of_le_of_ne hk hne)
      rw [← hstored] at hlt
      omega
    have hfull' : k' = c.blocks.length := by
      refine hiff'.2 fun i hi => (hiff.1 hfull i hi).trans (List.countP_mono_left fun d _ hd => ?_)
      exact decide_eq_true (hmore i hi d (of_decide_eq_true hd))
    rw [hfull, hfull']

theorem findSome?_given {α β : Type} {f g : α → Option β} {m : β}
    (h : ∀ a, g a = f a ∨ g a = some m) (l : List α) :
    l.findSome? g = l.findSome? f ∨ l.findSome? g = some m := by
  induction l with
  | nil => exact .inl rfl
  | cons a l ih =>
      rw [List.findSome?_cons, List.findSome?_cons]
      rcases h a with hg | hg
      · rw [hg]
        cases f a with
        | none => exact ih
        | some b => exact .inl rfl
      · rw [hg]
        exact .inr rfl

theorem xlUp_given (c : Copy) (bad : Fin n → Bool) (K : KeyStates n) (site : Site n) :
    KeyStates.xlUp site (fun d => if bad d then (K d).setSlot none (some c) else K d) none =
        K.xlUp site none ∨
      KeyStates.xlUp site (fun d => if bad d then (K d).setSlot none (some c) else K d) none =
        some c.xl := by
  refine findSome?_given (fun d => ?_) _
  cases site.up d with
  | false => exact .inl rfl
  | true =>
      simp only [if_true]
      split
      · exact .inr (by rw [KeyState.slot_setSlot_self]; rfl)
      · exact .inl rfl

theorem KeyStates.exists_slot_of_xlUp {m : XlMeta} {slot : Option Str}
    (h : K.xlUp site slot = some m) : ∃ d c, (K d).slot slot = some c ∧ c.xl = m := by
  obtain ⟨d, -, hd⟩ := List.exists_of_findSome?_eq_some h
  split at hd
  · obtain ⟨c, hslot, hxl⟩ := Option.map_eq_some_iff.1 hd
    exact ⟨d, c, hslot, hxl⟩
  · cases hd

theorem shards_of_xl_eq (hsum : Function.Injective S.checksum) {c c' : Copy}
    (hc : c.Minted S) (hc' : c'.Minted S) (hxl : c.xl = c'.xl) (d : Fin n) :
    c.blocks.map (S.shard d) = c'.blocks.map (S.shard d) := by
  have hsums : S.sumsOf d c.blocks = S.sumsOf d c'.blocks := by
    have hofFn := hc.checksums.symm.trans ((congrArg XlMeta.checksums hxl).trans hc'.checksums)
    exact congrFun (List.ofFn_injective hofFn) d
  refine List.map_injective_iff.2 hsum ?_
  simpa [sumsOf, List.map_map, Function.comp_def] using hsums

/-- So the same drives hold them. -/
theorem holdsShard_of_xl_eq (hS : S.codec.Lawful) (hsum : Function.Injective S.checksum)
    {c c' : Copy} (hc : c.Minted S) (hc' : c'.Minted S) (hxl : c.xl = c'.xl) (rel : UnixPath)
    (i : Nat) (d : Fin n) :
    HoldsShard S site s rel c.blocks i d ↔ HoldsShard S site s rel c'.blocks i d := by
  have hshards := shards_of_xl_eq hsum hc hc' hxl d
  have hoffset : ∀ blocks : List Bytes, S.offsetOf blocks i =
      (((blocks.map (S.shard d)).take i).map List.length).sum := by
    intro blocks
    rw [offsetOf, ← List.map_take, List.map_map]
    congr 2
    funext b
    exact (length_shard hS d b).symm
  have hgetD : ∀ blocks : List Bytes, S.shard d (blocks.getD i []) =
      (blocks.map (S.shard d)).getD i (S.shard d []) := by
    intro blocks
    rw [List.getD_eq_getElem?_getD, List.getD_eq_getElem?_getD, List.getElem?_map]
    cases blocks[i]? <;> rfl
  unfold HoldsShard
  rw [← length_shard hS d, ← length_shard hS d, hoffset, hoffset, hgetD, hgetD, hshards]

theorem length_of_xl_eq (hsum : Function.Injective S.checksum) {c c' : Copy}
    (hc : c.Minted S) (hc' : c'.Minted S) (hxl : c.xl = c'.xl) :
    c.blocks.length = c'.blocks.length := by
  have h := congrArg List.length (shards_of_xl_eq hsum hc hc' hxl S.drive0)
  simpa using h

/-- Drives that keep the same copies serve alike. -/
theorem harmless_of_slots (hS : S.codec.Lawful) (hsum : Function.Injective S.checksum)
    (hk : Keeps S site bucket key K s) (hk' : Keeps S site bucket key K' s') (hm : K.Minted S)
    (hslots : ∀ d, (K' d).slot none = (K d).slot none) :
    Harmless S site.root bucket key R s s' := by
  have hxl : ∀ up, K'.xlUp ⟨site.root, up⟩ none = K.xlUp ⟨site.root, up⟩ none := by
    intro up
    unfold KeyStates.xlUp
    simp only [hslots]
  have hread : ∀ up, ((Site.mk site.root up).run (readXl bucket key) s').1 =
      ((Site.mk site.root up).run (readXl bucket key) s).1 := by
    intro up
    have hup : Keeps S ⟨site.root, up⟩ bucket key K s := hk
    have hup' : Keeps S ⟨site.root, up⟩ bucket key K' s' := hk'
    rw [hup.readXl_fst, hup'.readXl_fst, hxl]
  refine ⟨fun up => .inl (hread up), fun up m stored _ hserved => ?_⟩
  have hup : Keeps S ⟨site.root, up⟩ bucket key K s := hk
  have hup' : Keeps S ⟨site.root, up⟩ bucket key K' s' := hk'
  have hfound := hserved.found
  rw [hup.readXl_fst] at hfound
  cases hcur : K.xlUp ⟨site.root, up⟩ none with
  | none =>
      rw [hcur] at hfound
      cases hfound
  | some m' =>
      rw [hcur] at hfound
      cases hfound
      obtain ⟨d, c, hslot, rfl⟩ := KeyStates.exists_slot_of_xlUp hcur
      exact hserved.more hS hsum (hm d none c hslot) ((hread up).trans hserved.found)
        fun i _ d => (holdsShard_congr hup hup' (hslots d)).1

/-- Giving the drives that lack it the copy that is found harms nobody, if that copy is
the one that should be there. -/
theorem harmless_given (hS : S.codec.Lawful) (hsum : Function.Injective S.checksum) {c : Copy}
    (hc : c.Minted S) {bad : Fin n → Bool} (hk : Keeps S site bucket key K s)
    (hk' : Keeps S site bucket key
      (fun d => if bad d then (K d).setSlot none (some c) else K d) s') :
    Harmless S site.root bucket key (some c.xl) s s' := by
  have hfound : ∀ up, ((Site.mk site.root up).run (readXl bucket key) s').1 =
      ((Site.mk site.root up).run (readXl bucket key) s).1 ∨
      ((Site.mk site.root up).run (readXl bucket key) s').1 = .ok c.xl := by
    intro up
    have hup : Keeps S ⟨site.root, up⟩ bucket key K s := hk
    have hup' : Keeps S ⟨site.root, up⟩ bucket key _ s' := hk'
    rw [hup.readXl_fst, hup'.readXl_fst]
    rcases xlUp_given c bad K ⟨site.root, up⟩ with h | h
    · exact .inl (by rw [h])
    · exact .inr (by rw [h]; rfl)
  refine ⟨hfound, fun up m stored hm hserved => ?_⟩
  cases hm
  have hup : Keeps S ⟨site.root, up⟩ bucket key K s := hk
  have hup' : Keeps S ⟨site.root, up⟩ bucket key _ s' := hk'
  have hstill : ((Site.mk site.root up).run (readXl bucket key) s').1 = .ok c.xl := by
    rcases hfound up with h | h
    · exact h.trans hserved.found
    · exact h
  refine hserved.more hS hsum hc hstill fun i hi d hholds => ?_
  cases hbad : bad d with
  | true =>
      refine holdsShard_of_slot hS hup' hholds.1 ?_ hi
      rw [hbad, if_pos rfl]
      exact KeyState.slot_setSlot_self _ _
  | false =>
      refine (holdsShard_congr hup hup' ?_).1 hholds
      rw [hbad]
      rfl

/-- There is nothing to heal, or nothing to heal with: of the copy found, every drive has
every shard, or of some block fewer than `K` drives have the shard. -/
def HealsNothing (S : ErasureStore n) (site : Site n) (bucket key : Str)
    (s : Cluster n Doc) : Prop :=
  ∃ c : Copy, c.Minted S ∧ (site.run (readXl bucket key) s).1 = .ok c.xl ∧
    ((∀ i, i < c.blocks.length → ∀ d, HoldsShard S site s (rObjV bucket key none) c.blocks i d) ∨
      ∃ i, i < c.blocks.length ∧
        holders S site s (rObjV bucket key none) c.blocks i < S.codec.data)

/-- Some drive cannot be reached, or the copy found is that of `R`, or none if there is
to be none, or nothing can be healed. -/
def HealsRightly (S : ErasureStore n) (site : Site n) (bucket key : Str) (R : Option XlMeta)
    (s : Cluster n Doc) : Prop :=
  (∃ d, site.up d = false) ∨ (site.run (readXl bucket key) s).1 = foundAnswer R ∨
    HealsNothing S site bucket key s

/-- Drives that keep the same copies are healed alike. -/
theorem HealsRightly.of_slots (h : HealsRightly S site bucket key R s)
    (hk : Keeps S site bucket key K s) (hk' : Keeps S site bucket key K' s')
    (hslots : ∀ d, (K' d).slot none = (K d).slot none) :
    HealsRightly S site bucket key R s' := by
  have hread : (site.run (readXl bucket key) s').1 = (site.run (readXl bucket key) s).1 := by
    rw [hk.readXl_fst, hk'.readXl_fst, KeyStates.xlUp, KeyStates.xlUp]
    simp only [hslots]
  refine h.imp id (Or.imp (fun hfound => hread.trans hfound) ?_)
  rintro ⟨c, hc, hfound, hnothing⟩
  have hholds : ∀ i d, HoldsShard S site s (rObjV bucket key none) c.blocks i d ↔
      HoldsShard S site s' (rObjV bucket key none) c.blocks i d := fun i d =>
    holdsShard_congr hk hk' (hslots d)
  refine ⟨c, hc, hread.trans hfound, hnothing.imp (fun hall i hi d =>
    (hholds i d).1 (hall i hi d)) ?_⟩
  rintro ⟨i, hi, hfew⟩
  refine ⟨i, hi, ?_⟩
  unfold holders at hfew ⊢
  simpa only [hholds] using hfew

/-- What a heal of one of the key's versions makes of it harms nobody, if it heals
rightly, and the next one does too. -/
theorem Mends.harmless (hS : S.codec.Lawful) (hsum : Function.Injective S.checksum)
    {other : Str} (hdir : ∀ d, site.objDir bucket other d = site.objDir bucket key d)
    {slot : Option Str} (h : Mends S site bucket other slot K s K')
    (hk : Keeps S site bucket key K s) (hk' : Keeps S site bucket key K' s') (hm : K.Minted S)
    (hright : HealsRightly S site bucket key R s) :
    Harmless S site.root bucket key R s s' ∧ HealsRightly S site bucket key R s' := by
  have hsame : (∀ d, (K' d).slot none = (K d).slot none) →
      Harmless S site.root bucket key R s s' ∧ HealsRightly S site bucket key R s' :=
    fun hslots => ⟨harmless_of_slots hS hsum hk hk' hm hslots, hright.of_slots hk hk' hslots⟩
  cases h with
  | same => exact hsame fun d => rfl
  | given hup hxl hc henough hsome =>
      rename_i c bad
      cases slot with
      | some v =>
          refine hsame fun d => ?_
          dsimp only
          split
          · exact KeyState.slot_setSlot_of_ne (by simp) _
          · rfl
      | none =>
          rcases hright with ⟨d, hd⟩ | hfound | ⟨c', hc', hfound, hnothing⟩
          · rw [hup d] at hd
            cases hd
          · rw [hk.readXl_fst, hxl] at hfound
            obtain rfl := foundAnswer_injective hfound
            have hgiven := harmless_given hS hsum hc hk hk'
            refine ⟨hgiven, .inr (.inl ?_)⟩
            rcases hgiven.found site.up with hf | hf
            · rw [show (Site.mk site.root site.up) = site from rfl] at hf
              rw [hf, hk.readXl_fst, hxl]
            · exact hf
          · -- the copy given is the one found, and of that there was nothing to heal
            rw [hk.readXl_fst, hxl] at hfound
            have hxl' : c.xl = c'.xl := Except.ok.inj hfound
            have hpath : ∀ d, ((rObjV bucket other none).joinStr PART).resolve (site.root d) =
                ((rObjV bucket key none).joinStr PART).resolve (site.root d) := by
              intro d
              rw [resolve_part properVersion_none, resolve_part properVersion_none]
              exact congrArg (· ++ _) (hdir d)
            have hholds : ∀ i d, HoldsShard S site s (rObjV bucket other none) c.blocks i d ↔
                HoldsShard S site s (rObjV bucket key none) c'.blocks i d := by
              intro i d
              rw [← holdsShard_of_xl_eq hS hsum hc hc' hxl' (rObjV bucket key none) i d]
              unfold HoldsShard
              rw [hpath]
            have hlen := length_of_xl_eq hsum hc hc' hxl'
            rcases hnothing with hall | ⟨i, hi, hfew⟩
            · obtain ⟨i, d, hi, hnot⟩ := hsome
              exact absurd ((hholds i d).2 (hall i (hlen ▸ hi) d)) hnot
            · have hcount := henough i (hlen ▸ hi)
              unfold holders at hfew hcount
              simp only [hholds] at hcount
              omega

theorem Mends.minted {other : Str} {slot : Option Str}
    (h : Mends S site bucket other slot K s K') (hm : K.Minted S) : K'.Minted S := by
  cases h with
  | same => exact hm
  | given hup hxl hc henough hsome =>
      intro d v c' hslot
      dsimp only at hslot
      split at hslot
      · by_cases hv : v = slot
        · rw [hv, KeyState.slot_setSlot_self] at hslot
          exact Option.some.inj hslot ▸ hc
        · rw [KeyState.slot_setSlot_of_ne hv] at hslot
          exact hm d v c' hslot
      · exact hm d v c' hslot

theorem Mends.proper {other : Str} {slot : Option Str}
    (h : Mends S site bucket other slot K s K') (hK : K.Proper) : K'.Proper := by
  cases h with
  | same => exact hK
  | given hup hxl hc henough hsome =>
      intro d hist hhist
      dsimp only at hhist
      split at hhist
      · exact hK d hist hhist
      · exact hK d hist hhist

end

/-! ## A scan of the bucket -/

/-- The drives keep the key's files, all of which the server wrote. -/
def Tended {n : Nat} (S : ErasureStore n) (site : Site n) (bucket key : Str)
    (s : Cluster n Doc) : Prop :=
  ∃ K, Keeps S site bucket key K s ∧ K.Proper ∧ K.Minted S

/-- A version a scan finds is one of the key's, or lies elsewhere. -/
def HealPlaced {n : Nat} (site : Site n) (bucket key : Str) (v : Str × Option Str) : Prop :=
  ((∀ d, site.objDir bucket v.1 d = site.objDir bucket key d) ∧ ProperVersion v.2) ∨
    ∀ d, Elsewhere (site.objDir bucket key d) ((rObjV bucket v.1 v.2).resolve (site.root d))

/-- Every version a scan of the bucket finds is one of the key's, or lies elsewhere. -/
def ScanApart {n : Nat} (site : Site n) (bucket key : Str) (s : Cluster n Doc) : Prop :=
  ∀ vs, (site.run (collectObjectDirs bucket) s).1 = .ok vs → ∀ v ∈ vs,
    HealPlaced site bucket key v

section

variable {n : Nat} {S : ErasureStore n} {site : Site n} {bucket key : Str}
  {s s' : Cluster n Doc} {R : Option XlMeta}

/-- From `s` to `s'` the drives stay tended, and a scan that heals rightly does no harm
and goes on healing rightly. -/
structure Heals (S : ErasureStore n) (site : Site n) (bucket key : Str)
    (s s' : Cluster n Doc) : Prop where
  tended : Tended S site bucket key s'
  harmless : ∀ R, HealsRightly S site bucket key R s →
    Harmless S site.root bucket key R s s' ∧ HealsRightly S site bucket key R s'

theorem Heals.refl (h : Tended S site bucket key s) : Heals S site bucket key s s :=
  ⟨h, fun _ hR => ⟨.refl, hR⟩⟩

theorem Heals.trans {s'' : Cluster n Doc} (h : Heals S site bucket key s s')
    (h' : Heals S site bucket key s' s'') : Heals S site bucket key s s'' := by
  refine ⟨h'.tended, fun R hR => ?_⟩
  obtain ⟨hharm, hR'⟩ := h.harmless R hR
  obtain ⟨hharm', hR''⟩ := h'.harmless R hR'
  exact ⟨hharm.trans hharm', hR''⟩

/-- One version. -/
theorem heals_healObject (hS : S.codec.Lawful) (hsum : Function.Injective S.checksum)
    (h : Tended S site bucket key s) {v : Str × Option Str}
    (hv : HealPlaced site bucket key v) (dryRun : Bool) :
    Heals S site bucket key s (site.run (S.healObject bucket v.1 v.2 dryRun) s).2 := by
  obtain ⟨K, hk, hK, hm⟩ := h
  rcases hv with ⟨hdir, hproper⟩ | helse
  · have hother : Keeps S site bucket v.1 K s := by
      intro d
      rw [hdir d]
      exact hk d
    obtain ⟨r, K', ⟨s', hrun, hk'⟩, hmends⟩ :=
      leads_healObject hS hsum hother hm hproper dryRun
    have hkey : Keeps S site bucket key K' s' := by
      intro d
      rw [← hdir d]
      exact hk' d
    rw [hrun]
    exact ⟨⟨K', hkey, hmends.proper hK, hmends.minted hm⟩,
      fun R hR => hmends.harmless hS hsum hdir hk hkey hm hR⟩
  · have hk' := keeps_healObject_elsewhere (S := S) hk helse dryRun
    exact ⟨⟨K, hk', hK, hm⟩, fun R hR => ⟨harmless_of_slots hS hsum hk hk' hm fun d => rfl,
      hR.of_slots hk hk' fun d => rfl⟩⟩

/-- One version after the other. -/
theorem heals_healVersions (hS : S.codec.Lawful) (hsum : Function.Injective S.checksum)
    (dryRun : Bool) (vs : List (Str × Option Str))
    (hvs : ∀ v ∈ vs, HealPlaced site bucket key v) :
    ∀ (report : HealReport) (s : Cluster n Doc), Tended S site bucket key s →
      Heals S site bucket key s (site.run (S.healVersions bucket dryRun vs report) s).2 := by
  induction vs with
  | nil => exact fun report s h => .refl h
  | cons v vs ih =>
      intro report s h
      have hone := heals_healObject hS hsum h (hvs v List.mem_cons_self) dryRun
      rw [healVersions, Site.run_bind]
      rcases hrun : site.run (S.healObject bucket v.1 v.2 dryRun) s with ⟨r, s'⟩
      rw [hrun] at hone
      cases r with
      | error e => exact hone
      | ok r =>
          exact hone.trans (ih (fun w hw => hvs w (List.mem_cons_of_mem v hw)) _ s' hone.tended)

theorem run_collectObjectDirs (site : Site n) (bucket : Str) (s : Cluster n Doc) :
    ∃ vs, site.run (collectObjectDirs bucket) s = (.ok vs, s) := by
  have hsame : (site.run (collectObjectDirs bucket) s).2 = s := by
    refine run_reading (Q := fun _ => True) ?_ s
    exact MeetsE.then (meetsE_each fun _ => meets_call trivial) fun _ => meetsE_pure.2 trivial
  obtain ⟨vs, hok⟩ : ∃ vs, (site.run (collectObjectDirs bucket) s).1 = .ok vs := by
    rw [collectObjectDirs, Site.run_bind, Site.run_eachDrive]
    exact ⟨_, rfl⟩
  exact ⟨vs, Prod.ext hok hsame⟩

/-- `heal` of the bucket. -/
theorem heals_heal (hS : S.codec.Lawful) (hsum : Function.Injective S.checksum)
    (h : Tended S site bucket key s) (hapart : ScanApart site bucket key s) (dryRun : Bool) :
    Heals S site bucket key s (site.run (S.heal (some bucket) dryRun) s).2 := by
  obtain ⟨vs, hcollect⟩ := run_collectObjectDirs site bucket s
  have hscan := heals_healVersions hS hsum dryRun vs
    (hapart vs (congrArg Prod.fst hcollect)) ⟨dryRun, 0, 0, 0, 0⟩ s h
  have hheal : site.run (S.heal (some bucket) dryRun) s =
      if bucketUp site bucket s then
        Prog.andThen (site.run (S.healVersions bucket dryRun vs ⟨dryRun, 0, 0, 0, 0⟩) s)
          fun report s' => (.ok report, s')
      else (.error .noSuchBucket, s) := by
    unfold heal
    rw [Site.run_bind, run_headBucket]
    cases bucketUp site bucket s with
    | false => rfl
    | true =>
        simp only [if_true, Prog.andThen_ok, Site.run_pure, healBuckets, Site.run_bind, hcollect]
  rw [hheal]
  split
  · generalize site.run (S.healVersions bucket dryRun vs ⟨dryRun, 0, 0, 0, 0⟩) s = r at hscan ⊢
    obtain ⟨r, s'⟩ := r
    cases r <;> exact hscan
  · exact .refl h

end

/-! ## Calls make no copy of their own -/

/-- Every copy in `K'` was in `K`, on the same drive. -/
def KeyStates.NoNew {n : Nat} (K K' : KeyStates n) : Prop :=
  ∀ d slot c, (K' d).slot slot = some c → ∃ slot', (K d).slot slot' = some c

namespace KeyStates.NoNew

variable {n : Nat} {S : ErasureStore n} {K K' K'' : KeyStates n} {site : Site n}

theorem refl : NoNew K K := fun _ slot _ h => ⟨slot, h⟩

theorem trans (h : NoNew K K') (h' : NoNew K' K'') : NoNew K K'' := by
  intro d slot c hslot
  obtain ⟨slot', hslot'⟩ := h' d slot c hslot
  exact h d slot' c hslot'

theorem minted (h : NoNew K K') (hm : K.Minted S) : K'.Minted S := by
  intro d slot c hslot
  obtain ⟨slot', hslot'⟩ := h d slot c hslot
  exact hm d slot' c hslot'

theorem onUp {f : KeyState → KeyState}
    (hf : ∀ k slot c, (f k).slot slot = some c → ∃ slot', k.slot slot' = some c) :
    NoNew K (K.onUp site f) := by
  intro d slot c hslot
  unfold KeyStates.onUp at hslot
  split at hslot
  · exact hf _ slot c hslot
  · exact ⟨slot, hslot⟩

theorem clearSlot (v : Option Str) : NoNew K (K.onUp site fun k => k.setSlot v none) := by
  refine onUp fun k slot c hslot => ⟨slot, ?_⟩
  by_cases hv : slot = v
  · rw [hv, KeyState.slot_setSlot_self] at hslot
    cases hslot
  · rwa [KeyState.slot_setSlot_of_ne hv] at hslot

theorem moveSlot (src dst : Option Str) :
    NoNew K (K.onUp site fun k => k.moveSlot src dst) := by
  refine onUp fun k slot c hslot => ?_
  cases hsrc : k.slot src with
  | none =>
      rw [KeyState.moveSlot_eq_of_none hsrc] at hslot
      exact ⟨slot, hslot⟩
  | some c' =>
      rw [KeyState.moveSlot_eq_of_some hsrc] at hslot
      by_cases h1 : slot = src
      · rw [h1, KeyState.slot_setSlot_self] at hslot
        cases hslot
      · rw [KeyState.slot_setSlot_of_ne h1] at hslot
        by_cases h2 : slot = dst
        · rw [h2, KeyState.slot_setSlot_self] at hslot
          exact ⟨src, hsrc.trans hslot⟩
        · rw [KeyState.slot_setSlot_of_ne h2] at hslot
          exact ⟨slot, hslot⟩

theorem bare : NoNew K (K.onUp site fun _ => .bare) := onUp fun _ _ _ h => nomatch h

theorem record (h : VHistory) : NoNew K (K.record site h) :=
  onUp fun _ slot _ hslot => ⟨slot, hslot⟩

theorem seed : NoNew K (K.seed site) := by
  unfold KeyStates.seed
  split
  · exact refl
  · split
    · exact record _
    · exact refl

theorem makeRoom (mode : VMode) (hist : VHistory) : NoNew K (K.makeRoom site mode hist).2 := by
  have hpurge : NoNew K (K.purge site mode hist).2 := by
    unfold KeyStates.purge
    dsimp only
    split
    · exact refl
    · split
      · exact refl
      · split
        · exact clearSlot none
        · split
          · exact clearSlot (some NULL)
          · exact refl
  unfold KeyStates.makeRoom
  dsimp only
  split
  · exact hpurge.trans (moveSlot _ _)
  · exact hpurge

theorem prepare (mode : VMode) : NoNew K (K.prepare site mode).2 := seed.trans (makeRoom mode _)

theorem mark (env : CallEnv) (mode : VMode) : NoNew K (K.mark site env mode) :=
  (prepare mode).trans (record _)

theorem deleteVersion (v : Str) : NoNew K (K.deleteVersion site v).2 := by
  have hdrop : ∀ (K : KeyStates n) idx marker, NoNew K (K.dropStored site v idx marker) := by
    intro K idx marker
    unfold KeyStates.dropStored
    split
    · exact refl
    · split
      · exact clearSlot none
      · exact clearSlot (some v)
  have hnext : ∀ (K : KeyStates n) idx rest, NoNew K (K.promoteNext site idx rest) := by
    intro K idx rest
    unfold KeyStates.promoteNext
    split
    · split
      · exact refl
      · exact moveSlot _ _
    · exact refl
  have hsettle : ∀ (K : KeyStates n) rest, NoNew K (K.settle site rest) := by
    intro K rest
    unfold KeyStates.settle
    split
    · exact bare
    · exact record _
  unfold KeyStates.deleteVersion
  dsimp only
  split
  · exact seed
  · exact seed.trans ((hdrop _ _ _).trans ((hnext _ _ _).trans (hsettle _ _)))

end KeyStates.NoNew

/-- What a write adds is a copy the write made. -/
theorem KeyStates.Minted.write {n : Nat} {S : ErasureStore n} {K : KeyStates n} {site : Site n}
    (hm : K.Minted S) {src : Body} {blocks : List Bytes × Bool} {xl : XlMeta} {env : CallEnv}
    {contentType : Str} {userMetadata : UserMeta} {encrypted : Bool}
    (hblocks : bodyBlocks S.blockSize src = blocks)
    (hxl : S.xlFor env blocks.1 contentType userMetadata encrypted none = xl) :
    (K.write S site blocks xl).Minted S := by
  unfold KeyStates.write
  split
  · exact hm
  · rename_i hended
    split
    · exact KeyStates.NoNew.bare.minted hm
    · intro d slot c hslot
      unfold KeyStates.onUp at hslot
      split at hslot
      · by_cases hv : slot = none
        · rw [hv, KeyState.slot_setSlot_self] at hslot
          cases hslot
          refine ⟨env, src, contentType, userMetadata, encrypted, none, ?_, hxl.symm⟩
          rw [hblocks]
          exact Prod.ext rfl (Bool.eq_false_iff.2 hended)
        · rw [KeyState.slot_setSlot_of_ne hv] at hslot
          exact hm d slot c hslot
      · exact hm d slot c hslot

theorem Effect.minted {n : Nat} {S : ErasureStore n} {site : Site n} {key : Str} {mode : VMode}
    {K K' : KeyStates n} {c : KeyCall} {r : Except S3Error Unit}
    (h : Effect S site key mode K c r K') (hm : K.Minted S) : K'.Minted S := by
  cases h with
  | refused => exact hm
  | read hc => exact hm
  | seeded hc => exact KeyStates.NoNew.seed.minted hm
  | wrote _ hblocks hxl =>
      split
      · exact hm.write hblocks hxl
      · have hprepared : (KeyStates.prepare site mode K).2.Minted S :=
          (KeyStates.NoNew.prepare mode).minted hm
        unfold KeyStates.writeVersioned
        dsimp only
        split
        · exact hprepared.write hblocks hxl
        · exact (KeyStates.NoNew.record _).minted (hprepared.write hblocks hxl)
  | deleted =>
      split
      · exact KeyStates.NoNew.bare.minted hm
      · exact (KeyStates.NoNew.mark _ mode).minted hm
  | dropped => exact (KeyStates.NoNew.deleteVersion _).minted hm

/-! ## Runs -/

/-- A call on the key, or a heal of its bucket. -/
inductive ScanCall where
  | key (call : KeyCall)
  | heal

/-- A step, and the drives it can reach. -/
structure ScanStep (n : Nat) where
  up : Fin n → Bool
  call : ScanCall

section

variable {n : Nat} (S : ErasureStore n) (root : Fin n → List Str) (bucket key : Str)

/-- The store's program for a step. -/
def ScanCall.prog : ScanCall → EStore n Unit
  | .key c => c.prog S bucket key
  | .heal => do
      let _ ← S.heal (some bucket) false
      pure ()

/-- Calls on the key and heals of its bucket, one after the other. -/
def healMachine : Machine (Cluster n Doc) (ScanStep n) (Except S3Error Unit) :=
  ⟨fun s c => (Site.mk root c.up).run (c.call.prog S bucket key) s⟩

/-- What an acknowledged step leaves at the key: the metadata of a put, nothing after a
delete; other steps leave what there was. -/
def ScanCall.leaves (up : Fin n → Bool) (R : Option XlMeta) : ScanCall → Option XlMeta
  | .key (.put env body contentType userMetadata encrypt) =>
      some (S.putXl ⟨up, env, body, contentType, userMetadata, encrypt⟩)
  | .key (.delete _) => none
  | _ => R

/-- The result of the last acknowledged put or delete of a run. -/
def lastResult (vs : List (Visit (Cluster n Doc) (ScanStep n) (Except S3Error Unit))) :
    Option XlMeta :=
  vs.foldl (fun R v => if v.answer = .ok () then v.call.call.leaves S v.call.up R else R) none

end

section

variable {n : Nat} {S : ErasureStore n} {root : Fin n → List Str} {bucket key : Str}
  {s : Cluster n Doc}

/-- A step keeps the key's files, if what a heal finds lies apart. -/
theorem Tended.step (hS : S.codec.Lawful) (hsum : Function.Injective S.checksum)
    (hne : ∀ d, (rObject bucket key).resolve (root d) ≠ []) {up : Fin n → Bool}
    (h : Tended S ⟨root, up⟩ bucket key s) {c : ScanStep n}
    (hapart : c.call = .heal → ScanApart ⟨root, c.up⟩ bucket key s) :
    Tended S ⟨root, up⟩ bucket key ((healMachine S root bucket key).step s c).2 := by
  obtain ⟨K, hk, hK, hm⟩ := h
  have hup : Keeps S ⟨root, c.up⟩ bucket key K s := hk
  obtain ⟨drives, what⟩ := c
  cases what with
  | key c =>
      have hdir : ∀ d, (Site.mk root drives).objDir bucket key d ≠ [] := hne
      obtain ⟨K', hk', heffect⟩ := step_effect hS hdir hup hK c
      exact ⟨K', hk', heffect.proper hK, heffect.minted hm⟩
  | heal =>
      have hheals := (heals_heal hS hsum ⟨K, hup, hK, hm⟩ (hapart rfl) false).tended
      obtain ⟨K', hk', hgood⟩ := hheals
      refine ⟨K', ?_, hgood⟩
      show Keeps S ⟨root, up⟩ bucket key K' ((Site.mk root drives).run _ s).2
      rw [ScanCall.prog, Site.run_unit]
      exact hk'

/-- **Healing never changes logical content.**  On drives that started with nothing of the
key, after any calls on it and heals of its bucket, each with any of the drives out of
reach: a heal that finds the copy of the last acknowledged put, or none after a delete,
or that cannot reach every drive, or has nothing to heal or to heal with, is harmless. -/
theorem healHarmless (hS : S.codec.Lawful) (hsum : Function.Injective S.checksum)
    (hne : ∀ d, (rObject bucket key).resolve (root d) ≠ [])
    (hstart : ∀ d, Untouched (s d) ((rObject bucket key).resolve (root d)))
    (calls : List (ScanStep n)) {pre post : List (Visit _ (ScanStep n) (Except S3Error Unit))}
    {u : Visit (Cluster n Doc) (ScanStep n) (Except S3Error Unit)}
    (hrun : (healMachine S root bucket key).visits s calls = pre ++ u :: post)
    (hapart : ∀ v ∈ pre ++ [u], v.call.call = .heal →
      ScanApart ⟨root, v.call.up⟩ bucket key v.before)
    (hheal : u.call.call = .heal)
    (hright : HealsRightly S ⟨root, u.call.up⟩ bucket key (lastResult S pre) u.before) :
    Harmless S root bucket key (lastResult S pre) u.before
      ((healMachine S root bucket key).step u.before u.call).2 := by
  obtain ⟨before, c, after, rfl, hpre, rfl⟩ := Machine.visits_split hrun
  have hstart' : Tended S ⟨root, fun _ => true⟩ bucket key s := by
    refine ⟨fun _ => .bare, fun d => ?_, fun d h hd => (nomatch hd),
      fun d slot c hc => (nomatch hc)⟩
    rw [KeyState.shelf_bare]
    exact (hstart d).shows
  have htended := Machine.invariant (M := healMachine S root bucket key)
    (P := fun _ t => Tended S ⟨root, fun _ => true⟩ bucket key t) hstart'
    (fun _ t d ht hgood => ht.step hS hsum hne hgood) before
    (fun v hv => hapart v (List.mem_append_left _ (hpre ▸ hv)))
  have hthere : Tended S ⟨root, c.up⟩ bucket key
      ((healMachine S root bucket key).final s before) := htended
  have hscan := hapart _ (List.mem_append_right _ (List.mem_singleton_self _)) hheal
  have hharm := ((heals_heal hS hsum hthere hscan false).harmless (lastResult S pre) hright).1
  obtain ⟨drives, what⟩ := c
  cases hheal
  show Harmless S root bucket key _ _ ((Site.mk root drives).run (do
    let _ ← S.heal (some bucket) false
    pure ()) _).2
  rw [Site.run_unit]
  exact hharm

end

/-- A put of a key on three drives, and another with the drives of `up`. -/
def twoPuts (up : Fin 3 → Bool) : List (ScanStep 3) :=
  [⟨fun _ => true, .key (.put (callAt 'a' 1 isHexLower_a) (.ofBytes [1, 2, 3, 4, 5]) [] [] false)⟩,
    ⟨up, .key (.put (callAt 'b' 2 isHexLower_b) (.ofBytes [7, 8]) [] [] false)⟩]

/-- A heal that reaches every drive. -/
def healAll : ScanStep 3 := ⟨fun _ => true, .heal⟩

/-- Calls on one key of a bucket on three drives, and heals of the bucket. -/
abbrev trioScans : Machine (Cluster 3 Doc) (ScanStep 3) (Except S3Error Unit) :=
  healMachine ErasureStore.trio topRoot "docs".toList "key".toList

/-- The cluster after these puts. -/
abbrev afterPuts (up : Fin 3 → Bool) : Cluster 3 Doc :=
  trioScans.final (withBucket "docs".toList) (twoPuts up)

/-- Drive 2 missed the second put; the heal gives it that put's copy. -/
theorem healHarmless_trio :
    Harmless ErasureStore.trio topRoot "docs".toList "key".toList
      (lastResult ErasureStore.trio (trioScans.visits (withBucket "docs".toList)
        (twoPuts fun d => d ≠ 2)))
      (afterPuts fun d => d ≠ 2) (trioScans.step (afterPuts fun d => d ≠ 2) healAll).2 := by
  have hfound : ((Site.mk topRoot fun _ => true).run (collectObjectDirs "docs".toList)
      (afterPuts fun d => d ≠ 2)).1 = .ok [("key".toList, none)] := by decide +kernel
  refine healHarmless ErasureStore.trio_lawful spell_injective (by decide +kernel)
    (by decide +kernel) (twoPuts (fun d => d ≠ 2) ++ [healAll])
    (u := trioScans.visit (afterPuts fun d => d ≠ 2) healAll)
    (show trioScans.visits (withBucket "docs".toList) _ =
      trioScans.visits (withBucket "docs".toList) (twoPuts fun d => d ≠ 2) ++ _ :: [] from rfl)
    (fun v hv hheal vs hvs w hw => ?_) rfl (.inr (.inl (by decide +kernel)))
  rcases List.mem_append.1 hv with hv | hv
  · have hcall := Machine.call_mem hv
    simp only [twoPuts, List.mem_cons, List.not_mem_nil, or_false] at hcall
    rcases hcall with hcall | hcall
    · rw [hcall] at hheal
      cases hheal
    · rw [hcall] at hheal
      cases hheal
  · obtain rfl := List.mem_singleton.1 hv
    obtain rfl := Except.ok.inj (hfound.symm.trans hvs)
    obtain rfl := List.mem_singleton.1 hw
    exact .inl ⟨fun d => rfl, properVersion_none⟩

/-- Drive 0 missed the second put, which was acknowledged; the heal takes its older copy
for the object and gives it to the drives that have the newer one. -/
theorem heal_spreads_stale :
    (trioScans.visits (withBucket "docs".toList) (twoPuts fun d => d ≠ 0)).map Visit.answer =
      [.ok (), .ok ()] ∧
    ((Site.mk topRoot fun d => d ≠ 0).run (ErasureStore.trio.getObject "docs".toList
      "key".toList) (afterPuts fun d => d ≠ 0)).1.toOption.map Prod.snd = some [7, 8] ∧
    ((Site.mk topRoot fun d => d ≠ 0).run (ErasureStore.trio.getObject "docs".toList
      "key".toList) (trioScans.step (afterPuts fun d => d ≠ 0) healAll).2).1.toOption.map
        Prod.snd = some [1, 2, 3, 4, 5] ∧
    ¬ Harmless ErasureStore.trio topRoot "docs".toList "key".toList
      (lastResult ErasureStore.trio (trioScans.visits (withBucket "docs".toList)
        (twoPuts fun d => d ≠ 0)))
      (afterPuts fun d => d ≠ 0) (trioScans.step (afterPuts fun d => d ≠ 0) healAll).2 :=
  ⟨by decide +kernel, by decide +kernel, by decide +kernel,
    fun h => absurd (h.found fun d => d ≠ 0) (by decide +kernel)⟩

end Kerplace
