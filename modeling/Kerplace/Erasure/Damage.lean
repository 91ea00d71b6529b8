/-
# `Kerplace.Erasure.Damage` — what a heal makes of a damaged object version

An object version as a write left it, and then any of its shard files changed or gone, and
any of its metadata unreadable or gone, while every drive can be reached.  Damage may differ
from block to block and from drive to drive, and a block is lost only when fewer than `K` of
its own shards are left.

The heal counts so too when it decides what can be saved.  When it saves, though, it reads
only the drives that lost no shard at all.
-/
import Kerplace.Erasure.Mend
import Kerplace.Erasure.Replicated

namespace Kerplace

open FileTree Prog ErasureStore

section

variable {n : Nat} (S : ErasureStore n) (site : Site n) (bucket key : Str) (slot : Option Str)
  (c : Copy) (s : Cluster n Doc)

/-- The metadata of the version that can be read on a drive. -/
def metaOn (d : Fin n) : Option XlMeta :=
  docAt Doc.xl? (s d) (((rObjV bucket key slot).joinStr XL_META).resolve (site.root d))

/-- The drive has lost no shard of the version. -/
def WholeDrive (d : Fin n) : Prop :=
  ∀ i, i < c.blocks.length → HoldsShard S site s (rObjV bucket key slot) c.blocks i d

instance (d : Fin n) : Decidable (WholeDrive S site bucket key slot c s d) :=
  inferInstanceAs (Decidable (∀ i, i < c.blocks.length → _))

/-- Of every block at least `K` shards are left. -/
def EnoughShards : Prop :=
  ∀ i, i < c.blocks.length → S.codec.data ≤ holders S site s (rObjV bucket key slot) c.blocks i

instance : Decidable (EnoughShards S site bucket key slot c s) :=
  inferInstanceAs (Decidable (∀ i, i < c.blocks.length → _))

/-- Every drive has the metadata and every shard. -/
def Undamaged : Prop :=
  ∀ d, metaOn site bucket key slot s d = some c.xl ∧ WholeDrive S site bucket key slot c s d

/-- Every drive can be reached, and what metadata can be read of the version is that which
its write made. -/
structure Known : Prop where
  minted : c.Minted S
  up : ∀ d, site.up d = true
  agree : ∀ d m, metaOn site bucket key slot s d = some m → m = c.xl

/-- A version with its shard files and its metadata damaged: files stand where files belong,
and directories where directories do. -/
structure Damaged : Prop extends Known S site bucket key slot c s where
  proper : ProperVersion slot
  shown : ∃ F : Fin n → Shelf, Displays site bucket key F s ∧ ∀ d, (F d).Files
  free : ∀ d, (s d).look (site.objDir bucket key d ++ (slotDir slot ++ [HEAL_TMP])) ≠ some .dir

/-- A heal does for the version what it is there for. -/
structure HealComplete : Prop where
  repairs : EnoughShards S site bucket key slot c s → ∃ o s',
    site.run (S.healObject bucket key slot false) s = (.ok o, s') ∧ o ≠ .unrecoverable ∧
      Undamaged S site bucket key slot c s' ∧
      (site.run (S.streamingBody bucket key slot c.xl) s).1 = .ok c.blocks.flatten ∧
      (site.run (S.streamingBody bucket key slot c.xl) s').1 = .ok c.blocks.flatten ∧
      site.run (S.healObject bucket key slot false) s' = (.ok .healthy, s')
  givesUp : ¬ EnoughShards S site bucket key slot c s →
    site.run (S.healObject bucket key slot false) s = (.ok .unrecoverable, s)
  dryRun : site.run (S.healObject bucket key slot true) s =
    ((site.run (S.healObject bucket key slot false) s).1, s)

end

section

variable {n : Nat} {S : ErasureStore n} {site : Site n} {bucket key : Str} {slot : Option Str}
  {c : Copy} {s s' : Cluster n Doc}

/-! ## What the heal finds -/

/-- The rows of pass 1, one for each block. -/
def foundRows (S : ErasureStore n) (site : Site n) (bucket key : Str) (slot : Option Str)
    (c : Copy) (s : Cluster n Doc) : List (Fin n → Bool) :=
  (List.range' 0 c.blocks.length).map fun i d =>
    decide (HoldsShard S site s (rObjV bucket key slot) c.blocks i d)

theorem bad_eq (d : Fin n) :
    ((foundRows S site bucket key slot c s).any fun row => !row d) =
      !decide (WholeDrive S site bucket key slot c s d) := by
  rw [Bool.eq_iff_iff, Bool.not_eq_true', decide_eq_false_iff_not, List.any_eq_true]
  unfold foundRows WholeDrive
  constructor
  · rintro ⟨row, hrow, hnot⟩ hwhole
    obtain ⟨i, hi, rfl⟩ := List.mem_map.1 hrow
    have hlt : i < c.blocks.length := by simpa using hi
    simp [hwhole i hlt] at hnot
  · intro hnot
    obtain ⟨i, hi, hlost⟩ := not_forall₂.1 hnot
    exact ⟨_, List.mem_map.2 ⟨i, by simpa using hi, rfl⟩, by simpa using hlost⟩

theorem few_iff {k : Nat} (hk : k = S.codec.data) :
    ((foundRows S site bucket key slot c s).any fun row => decide (tally row < k)) = true ↔
      ¬ EnoughShards S site bucket key slot c s := by
  subst hk
  rw [List.any_eq_true]
  unfold foundRows EnoughShards
  constructor
  · rintro ⟨row, hrow, hfew⟩ henough
    obtain ⟨i, hi, rfl⟩ := List.mem_map.1 hrow
    exact absurd (henough i (by simpa using hi)) (Nat.not_le.2 (of_decide_eq_true hfew))
  · intro hnot
    obtain ⟨i, hi, hfew⟩ := not_forall₂.1 hnot
    exact ⟨_, List.mem_map.2 ⟨i, by simpa using hi, rfl⟩, decide_eq_true (Nat.not_le.1 hfew)⟩

theorem run_outcome_readXlV : site.run (outcome (readXlV bucket key slot)) s =
    (.ok (match firstUp site fun d => metaOn site bucket key slot s d with
      | some m => Except.ok m
      | none => Except.error S3Error.noSuchKey), s) := by
  refine (Site.run_outcome _ s).trans ?_
  rw [run_readXlV]
  rfl

theorem run_healObject_unknown (hnone : ∀ d, metaOn site bucket key slot s d = none)
    (dryRun : Bool) :
    site.run (S.healObject bucket key slot dryRun) s = (.ok .unrecoverable, s) := by
  have hfirst : (firstUp site fun d => metaOn site bucket key slot s d) = none := by
    refine List.findSome?_eq_none_iff.2 fun d _ => ?_
    exact (congrArg (fun m => if site.up d then m else none) (hnone d)).trans (ite_self _)
  unfold healObject
  rw [Site.run_bind, run_outcome_readXlV, hfirst]
  rfl

/-- What a heal knows before it decides. -/
theorem run_healObject_found (hsum : Function.Injective S.checksum)
    (h : Known S site bucket key slot c s)
    (hfound : ∃ d, metaOn site bucket key slot s d = some c.xl) (dryRun : Bool) :
    site.run (S.healObject bucket key slot dryRun) s =
      site.run (S.healFound (rObjV bucket key slot) S.codec c.xl (c.blocks.map List.length)
        (fun d => (metaOn site bucket key slot s d).isNone)
        (foundRows S site bucket key slot c s) dryRun) s := by
  have hfirst : (firstUp site fun d => metaOn site bucket key slot s d) = some c.xl := by
    unfold firstUp
    simp only [h.up, if_true]
    cases hnone : (List.finRange n).findSome? fun d => metaOn site bucket key slot s d with
    | none =>
        obtain ⟨d, hd⟩ := hfound
        have hmissing := List.findSome?_eq_none_iff.1 hnone d (List.mem_finRange d)
        rw [hd] at hmissing
        cases hmissing
    | some m =>
        obtain ⟨d, -, hd⟩ := List.exists_of_findSome?_eq_some hnone
        rw [h.agree d m hd]
  have hmetas : site.run (eachDrive fun _ => do
      let doc ← Drive.readDoc ((rObjV bucket key slot).joinStr XL_META)
      pure (doc.bind Doc.xl?)) s = (.ok fun d => metaOn site bucket key slot s d, s) := by
    rw [Site.run_eachDrive]
    simp only [onTree_readDoc, h.up, if_true]
    rfl
  have hdetect := run_detect (unmistaken_of_injective hsum site s (rObjV bucket key slot)
    c.blocks) c.blocks 0 rfl
  rw [show S.offsetOf c.blocks 0 = 0 from rfl] at hdetect
  unfold healObject
  rw [Site.run_bind, run_outcome_readXlV, hfirst, Prog.andThen_ok]
  dsimp only
  rw [h.minted.codec, h.minted.lens, h.minted.checksums]
  dsimp only
  rw [Site.run_bind, hmetas, Prog.andThen_ok, Site.run_bind, hdetect, Prog.andThen_ok]
  rfl

/-! ## What it does -/

theorem enoughShards_of_whole (hwhole : ∀ d, WholeDrive S site bucket key slot c s d) :
    EnoughShards S site bucket key slot c s := by
  intro i hi
  have hall : holders S site s (rObjV bucket key slot) c.blocks i = n := by
    rw [holders, List.countP_eq_length.2 fun d _ => decide_eq_true (hwhole d i hi),
      List.length_finRange]
  have htotal := S.total_eq
  rw [hall]
  unfold Codec.total at htotal
  omega

theorem enoughShards_of_tally
    (h : S.codec.data ≤ tally fun d => decide (WholeDrive S site bucket key slot c s d)) :
    EnoughShards S site bucket key slot c s := by
  intro i hi
  refine h.trans (List.countP_mono_left fun d _ hd => ?_)
  exact decide_eq_true (of_decide_eq_true hd i hi)

/-- Nothing to do. -/
theorem run_healObject_undamaged (hsum : Function.Injective S.checksum)
    (h : Known S site bucket key slot c s)
    (hfound : ∃ d, metaOn site bucket key slot s d = some c.xl)
    (hfine : Undamaged S site bucket key slot c s) (dryRun : Bool) :
    site.run (S.healObject bucket key slot dryRun) s = (.ok .healthy, s) := by
  rw [run_healObject_found hsum h hfound]
  have hpart : ((List.finRange n).any fun d =>
      (foundRows S site bucket key slot c s).any fun row => !row d) = false := by
    refine List.any_eq_false.2 fun d _ => ?_
    rw [bad_eq, decide_eq_true (hfine d).2]
    decide
  have hmeta : ((List.finRange n).any fun d => (metaOn site bucket key slot s d).isNone) =
      false := by
    refine List.any_eq_false.2 fun d _ => ?_
    rw [(hfine d).1]
    exact Bool.false_ne_true
  unfold healFound
  dsimp only
  rw [hpart, hmeta]
  rfl

/-- Too few shards are left of some block. -/
theorem run_healObject_lost (hsum : Function.Injective S.checksum)
    (h : Known S site bucket key slot c s)
    (hfound : ∃ d, metaOn site bucket key slot s d = some c.xl)
    (hlost : ¬ EnoughShards S site bucket key slot c s) (dryRun : Bool) :
    site.run (S.healObject bucket key slot dryRun) s = (.ok .unrecoverable, s) := by
  rw [run_healObject_found hsum h hfound]
  have hpart : ((List.finRange n).any fun d =>
      (foundRows S site bucket key slot c s).any fun row => !row d) = true := by
    by_contra hnone
    rw [Bool.not_eq_true] at hnone
    refine hlost (enoughShards_of_whole fun d => ?_)
    have hd := List.any_eq_false.1 hnone d (List.mem_finRange d)
    rw [bad_eq] at hd
    simpa using hd
  have hfew := (few_iff h.minted.data).2 hlost
  unfold healFound
  dsimp only
  rw [hpart, hfew]
  rfl

/-- There is something to do, and enough is left for it. -/
theorem run_healObject_enough (hsum : Function.Injective S.checksum)
    (h : Known S site bucket key slot c s)
    (hfound : ∃ d, metaOn site bucket key slot s d = some c.xl)
    (henough : EnoughShards S site bucket key slot c s)
    (hdamaged : ¬ Undamaged S site bucket key slot c s) :
    ∃ k, ∀ dryRun, site.run (S.healObject bucket key slot dryRun) s = site.run (
      if dryRun then pure (.healed k)
      else do
        (if (List.finRange n).any fun d => !decide (WholeDrive S site bucket key slot c s d) then
          S.healParts (rObjV bucket key slot) S.codec (List.ofFn fun e => S.sumsOf e c.blocks)
            (c.blocks.map List.length) fun d => !decide (WholeDrive S site bucket key slot c s d)
        else pure ())
        healMetas (rObjV bucket key slot) c.xl fun d =>
          (metaOn site bucket key slot s d).isNone ||
            !decide (WholeDrive S site bucket key slot c s d)
        pure (.healed k)) s := by
  refine ⟨tally fun d => !decide (WholeDrive S site bucket key slot c s d) ||
    (metaOn site bucket key slot s d).isNone, fun dryRun => ?_⟩
  rw [run_healObject_found hsum h hfound]
  have hfew : ((foundRows S site bucket key slot c s).any fun row =>
      decide (tally row < c.xl.data)) = false :=
    Bool.eq_false_iff.2 fun hlost => (few_iff h.minted.data).1 hlost henough
  have hneed : ¬ ((!(List.finRange n).any fun d =>
        !decide (WholeDrive S site bucket key slot c s d)) &&
      !(List.finRange n).any fun d => (metaOn site bucket key slot s d).isNone) = true := by
    intro hnone
    rw [Bool.and_eq_true, Bool.not_eq_true', Bool.not_eq_true', List.any_eq_false,
      List.any_eq_false] at hnone
    refine hdamaged fun d => ⟨?_, ?_⟩
    · have hd := hnone.2 d (List.mem_finRange d)
      cases hmeta : metaOn site bucket key slot s d with
      | none =>
          rw [hmeta] at hd
          exact absurd rfl hd
      | some m => rw [h.agree d m hmeta]
    · simpa using hnone.1 d (List.mem_finRange d)
  unfold healFound
  simp only [bad_eq]
  rw [hfew, if_neg hneed, Bool.and_false, if_neg Bool.false_ne_true, h.minted.checksums]

/-! ## What it leaves -/

theorem metaOn_shelf (hs : ProperVersion slot) {d : Fin n} {G : Shelf}
    (hshow : Shows (site.objDir bucket key d) G (s d)) :
    metaOn site bucket key slot s d =
      match G (.xl slot) with
      | some (.file (.doc j)) => j.xl?
      | _ => none := by
  rw [metaOn, resolve_xl hs]
  exact docAt_shows hshow (a := .xl slot) hs Doc.xl?

theorem WholeDrive.same (hs : ProperVersion slot) {d : Fin n} {F G : Shelf}
    (hF : Shows (site.objDir bucket key d) F (s d))
    (hG : Shows (site.objDir bucket key d) G (s' d)) (hsame : G (.part slot) = F (.part slot))
    (h : WholeDrive S site bucket key slot c s d) : WholeDrive S site bucket key slot c s' d :=
  fun i hi => (holdsShard_shelf hs hF hG hsame).1 (h i hi)

/-- Pass 2 gives back what was lost, where enough drives lost no shard. -/
theorem run_healObject_mends (hS : S.codec.Lawful) (hsum : Function.Injective S.checksum)
    (h : Damaged S site bucket key slot c s)
    (hfound : ∃ d, metaOn site bucket key slot s d = some c.xl)
    (hdamaged : ¬ Undamaged S site bucket key slot c s)
    (hmany : S.codec.data ≤ tally fun d => decide (WholeDrive S site bucket key slot c s d)) :
    ∃ k s', site.run (S.healObject bucket key slot false) s = (.ok (.healed k), s') ∧
      site.run (S.healObject bucket key slot true) s = (.ok (.healed k), s) ∧
      Undamaged S site bucket key slot c s' := by
  obtain ⟨F, hshown, hF⟩ := h.shown
  obtain ⟨k, hrun⟩ := run_healObject_enough hsum h.toKnown hfound (enoughShards_of_tally hmany)
    hdamaged
  let bad : Fin n → Bool := fun d => !decide (WholeDrive S site bucket key slot c s d)
  have hgood : ∀ d, bad d = false → WholeDrive S site bucket key slot c s d := fun d hd =>
    of_decide_eq_true (by simpa [bad] using hd)
  have hparts : ∃ s₁, site.run (if (List.finRange n).any bad then
        S.healParts (rObjV bucket key slot) S.codec (List.ofFn fun e => S.sumsOf e c.blocks)
          (c.blocks.map List.length) bad
      else pure ()) s = (.ok (), s₁) ∧
      ∀ d, Shows (site.objDir bucket key d) (landedShelf S slot c.blocks bad F d) (s₁ d) := by
    cases hneed : (List.finRange n).any bad with
    | false =>
        refine ⟨s, rfl, fun d => ?_⟩
        have hd : bad d = false :=
          Bool.eq_false_iff.2 (List.any_eq_false.1 hneed d (List.mem_finRange d))
        rw [landedShelf, hd, if_neg Bool.false_ne_true]
        exact hshown d
    | true =>
        obtain ⟨r, s₁, hparts, hr⟩ := run_healParts hS hsum hshown h.proper hF hgood
          h.minted.ne_nil
        rcases hr with ⟨rfl, -, hlanded⟩ | ⟨-, -, hfew⟩
        · exact ⟨s₁, hparts, fun d => (hlanded d).2⟩
        · have hcount := hfew ⟨h.up, h.free⟩
          simp only [bad, Bool.not_not] at hcount
          exact absurd hmany (Nat.not_le.2 hcount)
  obtain ⟨s₁, hparts, hlanded⟩ := hparts
  have hfiles : ∀ d, (landedShelf S slot c.blocks bad F d).Files := landedShelf_files hF
  obtain ⟨s₂, hmetas, hdone⟩ : ∃ s₂, site.run (healMetas (rObjV bucket key slot) c.xl fun d =>
        (metaOn site bucket key slot s d).isNone || bad d) s₁ = (.ok (), s₂) ∧
      Displays site bucket key (describedShelf slot c.xl (fun d =>
        (metaOn site bucket key slot s d).isNone || bad d)
        (landedShelf S slot c.blocks bad F)) s₂ :=
    run_healMetas h.proper hfiles fun d => ⟨fun _ => h.up d, hlanded d⟩
  refine ⟨k, s₂, ?_, hrun true, fun d => ⟨?_, ?_⟩⟩
  · rw [hrun, if_neg Bool.false_ne_true, Site.run_bind, hparts, Prog.andThen_ok, Site.run_bind,
      hmetas]
    rfl
  · rw [metaOn_shelf h.proper (hdone d), describedShelf]
    cases hbad : (metaOn site bucket key slot s d).isNone || bad d with
    | true =>
        rw [if_pos rfl, Function.update_self]
        rfl
    | false =>
        obtain ⟨hmeta, hd⟩ := Bool.or_eq_false_iff.1 hbad
        obtain ⟨m, hm⟩ := Option.isSome_iff_exists.1 (Option.isNone_eq_false_iff.1 hmeta)
        rw [if_neg Bool.false_ne_true, landedShelf, hd, if_neg Bool.false_ne_true,
          ← metaOn_shelf h.proper (hshown d), hm, h.agree d m hm]
  · have hpart : describedShelf slot c.xl
          (fun d => (metaOn site bucket key slot s d).isNone || bad d)
          (landedShelf S slot c.blocks bad F) d (.part slot) =
        landedShelf S slot c.blocks bad F d (.part slot) := by
      unfold describedShelf
      split
      · exact Function.update_of_ne (by simp) _ _
      · rfl
    cases hd : bad d with
    | true =>
        refine fun i hi => holdsShard_of_part hS h.proper (h.up d) (hdone d) (hpart.trans ?_) hi
        rw [landedShelf, hd, if_pos rfl, Function.update_self]
    | false =>
        refine (hgood d hd).same h.proper (hshown d) (hdone d) (hpart.trans ?_)
        rw [landedShelf, hd, if_neg Bool.false_ne_true]

/-- Where too few drives lost no shard, it ends in an error. -/
theorem run_healObject_stuck (hS : S.codec.Lawful) (hsum : Function.Injective S.checksum)
    (h : Damaged S site bucket key slot c s)
    (hfound : ∃ d, metaOn site bucket key slot s d = some c.xl)
    (henough : EnoughShards S site bucket key slot c s)
    (hfew : (tally fun d => decide (WholeDrive S site bucket key slot c s d)) < S.codec.data) :
    ∃ e, (site.run (S.healObject bucket key slot false) s).1 = .error e := by
  obtain ⟨F, hshown, hF⟩ := h.shown
  have hlost : ¬ ∀ d, WholeDrive S site bucket key slot c s d := fun hall => by
    have hcount : (tally fun d => decide (WholeDrive S site bucket key slot c s d)) = n := by
      rw [tally, List.countP_eq_length.2 fun d _ => decide_eq_true (hall d),
        List.length_finRange]
    have htotal := S.total_eq
    unfold Codec.total at htotal
    omega
  obtain ⟨k, hrun⟩ := run_healObject_enough hsum h.toKnown hfound henough
    fun hfine => hlost fun d => (hfine d).2
  have hneed : ((List.finRange n).any fun d =>
      !decide (WholeDrive S site bucket key slot c s d)) = true := by
    obtain ⟨d, hd⟩ := not_forall.1 hlost
    exact List.any_eq_true.2 ⟨d, List.mem_finRange d, by simpa using hd⟩
  have hgood : ∀ d, (!decide (WholeDrive S site bucket key slot c s d)) = false →
      WholeDrive S site bucket key slot c s d := fun d hd => of_decide_eq_true (by simpa using hd)
  obtain ⟨r, s₁, hparts, hr⟩ := run_healParts hS hsum hshown h.proper hF hgood h.minted.ne_nil
  rcases hr with ⟨rfl, hmany, -⟩ | ⟨⟨e, rfl⟩, -, -⟩
  · simp only [Bool.not_not] at hmany
    exact absurd hmany (Nat.not_le.2 hfew)
  · refine ⟨e, ?_⟩
    rw [hrun, if_neg Bool.false_ne_true, hneed, if_pos rfl, Site.run_bind, hparts]
    rfl

theorem run_streamingBody_unmistaken (hS : S.codec.Lawful)
    (hsum : Unmistaken S site s (rObjV bucket key slot) c.blocks)
    (hc : c.Minted S) (henough : EnoughShards S site bucket key slot c s) :
    (site.run (S.streamingBody bucket key slot c.xl) s).1 = .ok c.blocks.flatten := by
  obtain ⟨env, src, contentType, userMetadata, encrypted, etagOverride, hsrc, hxl⟩ := hc
  obtain ⟨k, -, hrun, hiff⟩ := run_streamingBody hS hsrc env contentType userMetadata encrypted
    etagOverride hsum
  rw [hxl, hrun, hiff.2 henough, List.take_length]

theorem run_streamingBody_enough (hS : S.codec.Lawful) (hsum : Function.Injective S.checksum)
    (hc : c.Minted S) (henough : EnoughShards S site bucket key slot c s) :
    (site.run (S.streamingBody bucket key slot c.xl) s).1 = .ok c.blocks.flatten :=
  run_streamingBody_unmistaken hS
    (unmistaken_of_injective hsum site s (rObjV bucket key slot) c.blocks) hc henough

theorem unmistaken_of_whole (h : ∀ d, WholeDrive S site bucket key slot c s d) :
    Unmistaken S site s (rObjV bucket key slot) c.blocks := by
  intro i b d x hb _ hx _
  obtain ⟨hi, rfl⟩ := List.getElem?_eq_some_iff.1 hb
  have hholds := (h d i hi).2
  rw [List.getD_eq_getElem?_getD, hb, Option.getD_some] at hholds
  exact Option.some.inj (hx.symm.trans hholds)

/-! ## Three damaged drives -/

/-- Where the object of these drives lies. -/
def loneDir : List Str := ["docs".toList, "key".toList]

/-- What a drive with nothing but one object on it has of the object. -/
def loneShelf (part : Bytes) (m : XlMeta) : Shelf :=
  Function.update (Function.update Shelf.bare (.part none) (some (.file (.raw part))))
    (.xl none) (some (.file (.doc (.xl m))))

/-- Such a drive. -/
def loneDrive (part : Bytes) (m : XlMeta) : Tree Doc :=
  (((FileTree.empty.createDirAll loneDir).bind fun t =>
    t.write (loneDir ++ [PART]) (.raw part)).bind fun t =>
      t.write (loneDir ++ [XL_META]) (.doc (.xl m))).getD .empty

/-- It shows the object, and nothing is staged on it. -/
theorem loneDrive_shows (part : Bytes) (m : XlMeta) :
    Shows loneDir (loneShelf part m) (loneDrive part m) ∧
      (loneDrive part m).look (loneDir ++ [HEAL_TMP]) = none := by
  have hempty : Shows loneDir .bare (FileTree.empty : Tree Doc) := {
    dirs := fun _ _ q _ => by
      by_cases hq : q = []
      · subst hq
        simp [file?]
      · simp [file?, hq]
    tmp := by simp
    place := fun a _ => look_empty _ (by simp [loneDir]) }
  obtain ⟨t₁, h₁, hs₁, hdir⟩ := hempty.mkdir properVersion_none
    (List.prefix_append loneDir (slotDir none))
  rw [← List.append_nil loneDir] at hdir
  obtain ⟨t₂, h₂, hs₂⟩ := hs₁.write (a := .part none) properVersion_none hdir
    (by simp [Shelf.bare]) (.raw part)
  have hdir₂ : t₂.look (loneDir ++ (Place.xl none).home) = some .dir := by
    rw [look_write h₂, if_neg (by decide)]
    exact hdir
  obtain ⟨t₃, h₃, hs₃⟩ := hs₂.write (a := .xl none) properVersion_none hdir₂
    (by simp [Shelf.bare]) (.doc (.xl m))
  have heq : loneDrive part m = t₃ := by
    unfold loneDrive
    rw [h₁, Option.bind_some]
    show ((t₁.write (loneDir ++ (Place.part none).rel) (.raw part)).bind fun t =>
      t.write (loneDir ++ (Place.xl none).rel) (.doc (.xl m))).getD .empty = t₃
    rw [h₂, Option.bind_some, h₃]
    rfl
  rw [heq]
  refine ⟨hs₃, ?_⟩
  rw [look_write h₃, if_neg (by decide), look_write h₂, if_neg (by decide),
    look_createDirAll h₁, if_neg (by decide)]
  exact look_empty _ (by decide)

/-- Two blocks, on three drives that have one of them each. -/
def twoBlocks : Copy :=
  ⟨[[1, 2, 3, 4], [5]],
    trio.xlFor (callAt 'a' 1 isHexLower_a) [[1, 2, 3, 4], [5]] [] [] false none⟩

/-- The drives with such shard files. -/
def loneDrives (parts : Fin 3 → Bytes) : Cluster 3 Doc := fun d => loneDrive (parts d) twoBlocks.xl

/-- Every drive can be reached. -/
def trioUp : Site 3 := ⟨topRoot, fun _ => true⟩

theorem objDir_trioUp (d : Fin 3) : trioUp.objDir "docs".toList "key".toList d = loneDir := by
  decide +revert +kernel

theorem metaOn_loneDrives (parts : Fin 3 → Bytes) (d : Fin 3) :
    metaOn trioUp "docs".toList "key".toList none (loneDrives parts) d = some twoBlocks.xl := by
  have hshow : Shows (trioUp.objDir "docs".toList "key".toList d)
      (loneShelf (parts d) twoBlocks.xl) (loneDrives parts d) := by
    rw [objDir_trioUp]
    exact (loneDrive_shows (parts d) twoBlocks.xl).1
  exact metaOn_shelf properVersion_none hshow

theorem loneDrives_damaged (parts : Fin 3 → Bytes) :
    Damaged trio trioUp "docs".toList "key".toList none twoBlocks (loneDrives parts) where
  minted := ⟨callAt 'a' 1 rfl, .ofBytes [1, 2, 3, 4, 5], [], [], false, none, by decide, rfl⟩
  up _ := rfl
  agree d m hm := (Option.some.inj ((metaOn_loneDrives parts d).symm.trans hm)).symm
  proper := properVersion_none
  shown := by
    refine ⟨fun d => loneShelf (parts d) twoBlocks.xl, fun d => ?_, fun d a => ?_⟩
    · rw [objDir_trioUp]
      exact (loneDrive_shows (parts d) twoBlocks.xl).1
    · simp only [loneShelf, Function.update_apply]
      split
      · simp
      · split
        · simp
        · simp [Shelf.bare]
  free d := by
    rw [objDir_trioUp]
    show (loneDrive (parts d) twoBlocks.xl).look (loneDir ++ [HEAL_TMP]) ≠ _
    rw [(loneDrive_shows (parts d) twoBlocks.xl).2]
    simp

/-! ## Whether it does what it is there for -/

/-- A heal is complete iff some block has fewer than `K` shards left, or some metadata can be
read and at least `K` drives have lost no shard. -/
theorem heal_complete_iff (hS : S.codec.Lawful) (hsum : Function.Injective S.checksum)
    (h : Damaged S site bucket key slot c s) :
    HealComplete S site bucket key slot c s ↔
      ¬ EnoughShards S site bucket key slot c s ∨
        (∃ d, metaOn site bucket key slot s d = some c.xl) ∧
          S.codec.data ≤ tally fun d => decide (WholeDrive S site bucket key slot c s d) := by
  by_cases hfound : ∃ d, metaOn site bucket key slot s d = some c.xl
  · rw [and_iff_right hfound]
    constructor
    · intro hcomplete
      by_contra hnot
      obtain ⟨henough, hfew⟩ := not_or.1 hnot
      obtain ⟨o, s', hrun, -⟩ := hcomplete.repairs (not_not.1 henough)
      obtain ⟨e, he⟩ := run_healObject_stuck hS hsum h hfound (not_not.1 henough)
        (Nat.not_le.1 hfew)
      rw [hrun] at he
      cases he
    · intro hcond
      by_cases henough : EnoughShards S site bucket key slot c s
      · have hmany := hcond.resolve_left (not_not.2 henough)
        have hbefore := run_streamingBody_enough hS hsum h.minted henough
        by_cases hfine : Undamaged S site bucket key slot c s
        · have hrun := run_healObject_undamaged hsum h.toKnown hfound hfine
          exact {
            repairs := fun _ => ⟨.healthy, s, hrun false, by simp, hfine, hbefore, hbefore,
              hrun false⟩
            givesUp := fun hlost => absurd henough hlost
            dryRun := by rw [hrun, hrun] }
        · obtain ⟨k, s', hrun, hdry, hafter⟩ := run_healObject_mends hS hsum h hfound hfine hmany
          have henough' := enoughShards_of_whole fun d => (hafter d).2
          have hknown' : Known S site bucket key slot c s' := {
            minted := h.minted
            up := h.up
            agree := fun d m hm => (Option.some.inj ((hafter d).1.symm.trans hm)).symm }
          exact {
            repairs := fun _ => ⟨.healed k, s', hrun, by simp, hafter, hbefore,
              run_streamingBody_enough hS hsum h.minted henough',
              run_healObject_undamaged hsum hknown' (hfound.imp fun d _ => (hafter d).1) hafter
                false⟩
            givesUp := fun hlost => absurd henough hlost
            dryRun := by rw [hrun, hdry] }
      · have hrun := run_healObject_lost hsum h.toKnown hfound henough
        exact {
          repairs := fun h => absurd h henough
          givesUp := fun _ => hrun false
          dryRun := by rw [hrun, hrun] }
  · have hnone : ∀ d, metaOn site bucket key slot s d = none := fun d =>
      Option.eq_none_iff_forall_ne_some.2 fun m hm => hfound ⟨d, h.agree d m hm ▸ hm⟩
    have hrun := run_healObject_unknown (S := S) hnone
    constructor
    · intro hcomplete
      refine .inl fun henough => ?_
      obtain ⟨o, s', hhealed, hne, -⟩ := hcomplete.repairs henough
      rw [hrun] at hhealed
      exact hne (Except.ok.inj (Prod.mk.inj hhealed).1).symm
    · rintro (hlost | ⟨hsome, -⟩)
      · exact {
          repairs := fun henough => absurd henough hlost
          givesUp := fun _ => hrun false
          dryRun := by rw [hrun, hrun] }
      · exact absurd hsome hfound

end

/-- One drive lost a block, and the others have all. -/
theorem heal_complete_iff_oneBad :
    HealComplete trio trioUp "docs".toList "key".toList none twoBlocks
      (loneDrives fun d => if d = 0 then [1, 2, 3, 4, 9] else [1, 2, 3, 4, 5]) :=
  (heal_complete_iff trio_lawful spell_injective (loneDrives_damaged _)).2
    (.inr ⟨⟨0, metaOn_loneDrives _ 0⟩, by decide +kernel⟩)

/-- Drive 0 lost the last block and the others the first: one shard of each block is left,
and one would do, but no drive lost none. -/
theorem heal_not_complete :
    Damaged trio trioUp "docs".toList "key".toList none twoBlocks
      (loneDrives fun d => if d = 0 then [1, 2, 3, 4, 9] else [9, 2, 3, 4, 5]) ∧
    EnoughShards trio trioUp "docs".toList "key".toList none twoBlocks
      (loneDrives fun d => if d = 0 then [1, 2, 3, 4, 9] else [9, 2, 3, 4, 5]) ∧
    ¬ HealComplete trio trioUp "docs".toList "key".toList none twoBlocks
      (loneDrives fun d => if d = 0 then [1, 2, 3, 4, 9] else [9, 2, 3, 4, 5]) := by
  have henough : EnoughShards trio trioUp "docs".toList "key".toList none twoBlocks
      (loneDrives fun d => if d = 0 then [1, 2, 3, 4, 9] else [9, 2, 3, 4, 5]) := by
    decide +kernel
  refine ⟨loneDrives_damaged _, henough, fun hcomplete => ?_⟩
  obtain ⟨o, s', hrun, -⟩ := hcomplete.repairs henough
  obtain ⟨e, he⟩ := run_healObject_stuck trio_lawful spell_injective (loneDrives_damaged _)
    ⟨0, metaOn_loneDrives _ 0⟩ henough (by decide +kernel)
  rw [hrun] at he
  cases he

end Kerplace
