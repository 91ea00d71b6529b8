/-
# `Kerplace.Erasure.Write` — what a sharded write does to the drives

The write specification: on drives where nothing stands in the way of an
object's directory, `writeSharded` ends in one of three ways, and for each of
them what every path of every drive names afterwards is spelled out.

- the body broke off: only the temporary file has changed (`Staged`);
- too few drives took part: the object's directory is gone (`Wiped`);
- otherwise: shard file and metadata are in place (`Published`).

In all three an unreachable drive keeps its tree.
-/
import Kerplace.Erasure.Store

namespace Kerplace

open FileTree

/-! ## Names the store uses -/

theorem atom_xlMeta : UnixPath.Atom XL_META := by decide
theorem atom_part : UnixPath.Atom PART := by decide
theorem atom_partTmp : UnixPath.Atom PART_TMP := by decide
theorem atom_vdir : UnixPath.Atom VDIR := by decide
theorem atom_history : UnixPath.Atom HISTORY := by decide
/-- Where an object's directory lies on drive `d`. -/
def Site.objDir {n : Nat} (site : Site n) (bucket key : Str) (d : Fin n) : List Str :=
  (rObject bucket key).resolve (site.root d)

theorem Site.resolve_objFile {n : Nat} {site : Site n} {bucket key f : Str} {d : Fin n}
    (hf : UnixPath.Atom f) :
    ((rObject bucket key).joinStr f).resolve (site.root d) =
      site.objDir bucket key d ++ [f] :=
  UnixPath.resolve_joinStr_atom hf _

/-! ## One drive -/

/-- Nothing stands in the way of writing an object at `dir`. -/
structure Open (t : Tree Doc) (dir : List Str) : Prop where
  path : ∀ q, q <+: dir → t.file? q = none
  tmp : t.look (dir ++ [PART_TMP]) ≠ some .dir
  part : t.look (dir ++ [PART]) ≠ some .dir
  xl : t.look (dir ++ [XL_META]) ≠ some .dir

/-- A write that got as far as the temporary file. -/
def Staged (t t' : Tree Doc) (dir : List Str) (tmp : Bytes) : Prop :=
  ∀ q, t'.look q =
    if q <+: dir then some .dir
    else if q = dir ++ [PART_TMP] then some (.file (.raw tmp))
    else t.look q

/-- A write that went through. -/
def Published (t t' : Tree Doc) (dir : List Str) (part : Bytes) (xl : XlMeta) : Prop :=
  ∀ q, t'.look q =
    if q <+: dir then some .dir
    else if q = dir ++ [PART] then some (.file (.raw part))
    else if q = dir ++ [XL_META] then some (.file (.doc (.xl xl)))
    else if q = dir ++ [PART_TMP] then none
    else t.look q

/-- A write that was rolled back. -/
def Wiped (t t' : Tree Doc) (dir : List Str) : Prop :=
  ∀ q, t'.look q =
    if dir <+: q then none
    else if q <+: dir then some .dir
    else t.look q

theorem not_snoc_prefix {dir : List Str} {f : Str} : ¬ dir ++ [f] <+: dir := by
  intro h
  have := h.length_le
  simp at this

theorem Open.prepare {t : Tree Doc} {dir : List Str} (h : Open t dir) :
    ∃ t₁ t₂, t.createDirAll dir = some t₁ ∧
      t₁.write (dir ++ [PART_TMP]) (.raw []) = some t₂ ∧ Staged t t₂ dir [] := by
  obtain ⟨t₁, h₁⟩ := Option.isSome_iff_exists.1 (createDirAll_isSome.2 h.path)
  have hl := look_createDirAll h₁
  have hw : (t₁.write (dir ++ [PART_TMP]) (.raw [])).isSome = true := by
    rw [write_isSome, hl, hl, if_pos (List.prefix_refl dir), if_neg not_snoc_prefix]
    exact ⟨rfl, h.tmp⟩
  obtain ⟨t₂, h₂⟩ := Option.isSome_iff_exists.1 hw
  refine ⟨t₁, t₂, h₁, h₂, fun q => ?_⟩
  rw [look_write h₂, hl]
  by_cases hq : q = dir ++ [PART_TMP]
  · subst hq
    rw [if_pos rfl, if_neg not_snoc_prefix, if_pos rfl]
  · rw [if_neg hq, if_neg hq]

theorem Staged.append {t t₁ : Tree Doc} {dir : List Str} {acc : Bytes}
    (h : Staged t t₁ dir acc) (data : Bytes) :
    ∃ t₂, (t₁.update (dir ++ [PART_TMP]) fun c =>
        c.bytes?.map fun b => .raw (b ++ data)) = some t₂ ∧
      Staged t t₂ dir (acc ++ data) := by
  have hfile : t₁.file? (dir ++ [PART_TMP]) = some (.raw acc) := by
    rw [file?_eq_some, h, if_neg not_snoc_prefix, if_pos rfl]
  obtain ⟨t₂, h₂⟩ := write_of_file? (.raw (acc ++ data)) hfile
  refine ⟨t₂, by simp [update, hfile, Content.bytes?, h₂], fun q => ?_⟩
  rw [look_write h₂, h]
  by_cases hq : q = dir ++ [PART_TMP]
  · subst hq
    rw [if_pos rfl, if_neg not_snoc_prefix, if_pos rfl]
  · simp only [if_neg hq]

/-- Publishing the shard file and the metadata. -/
theorem Staged.publish {t t₁ : Tree Doc} {dir : List Str} {part : Bytes}
    (hopen : Open t dir) (h : Staged t t₁ dir part) (xl : XlMeta) :
    ∃ t₂ t₃, t₁.rename (dir ++ [PART_TMP]) (dir ++ [PART]) = some t₂ ∧
      t₂.write (dir ++ [XL_META]) (.doc (.xl xl)) = some t₃ ∧
      Published t t₃ dir part xl := by
  have hne : dir ++ [PART_TMP] ≠ dir ++ [PART] := by
    simp only [ne_eq, List.append_cancel_left_eq]
    decide
  have hfile : t₁.file? (dir ++ [PART_TMP]) = some (.raw part) := by
    rw [file?_eq_some, h, if_neg not_snoc_prefix, if_pos rfl]
  have hpart : t₁.look (dir ++ [PART]) ≠ some .dir := by
    rw [h, if_neg not_snoc_prefix, if_neg (Ne.symm hne)]
    exact hopen.part
  have hdir : t₁.look dir = some .dir := by
    rw [h, if_pos (List.prefix_refl dir)]
  obtain ⟨t₂, h₂, hleaf⟩ := rename_file hfile hdir hpart hne
  have hw : (t₂.write (dir ++ [XL_META]) (.doc (.xl xl))).isSome = true := by
    have h1 : dir ≠ dir ++ [PART] := by simp
    have h2 : dir ≠ dir ++ [PART_TMP] := by simp
    have h3 : dir ++ [XL_META] ≠ dir ++ [PART] := by
      simp only [ne_eq, List.append_cancel_left_eq]
      decide
    have h4 : dir ++ [XL_META] ≠ dir ++ [PART_TMP] := by
      simp only [ne_eq, List.append_cancel_left_eq]
      decide
    rw [write_isSome, hleaf, hleaf, if_neg h1, if_neg h2, if_neg h3, if_neg h4, h,
      h, if_pos (List.prefix_refl dir), if_neg not_snoc_prefix, if_neg h4]
    exact ⟨rfl, hopen.xl⟩
  obtain ⟨t₃, h₃⟩ := Option.isSome_iff_exists.1 hw
  refine ⟨t₂, t₃, h₂, h₃, fun q => ?_⟩
  rw [look_write h₃, hleaf, h]
  by_cases hx : q = dir ++ [XL_META]
  · subst hx
    have h3 : dir ++ [XL_META] ≠ dir ++ [PART] := by
      simp only [ne_eq, List.append_cancel_left_eq]
      decide
    rw [if_pos rfl, if_neg not_snoc_prefix, if_neg h3, if_pos rfl]
  · rw [if_neg hx, if_neg hx]
    by_cases hp : q = dir ++ [PART]
    · subst hp
      rw [if_pos rfl, if_neg not_snoc_prefix, if_pos rfl]
    · rw [if_neg hp, if_neg hp]
      by_cases ht : q = dir ++ [PART_TMP]
      · subst ht
        rw [if_pos rfl, if_neg not_snoc_prefix, if_pos rfl]
      · rw [if_neg ht, if_neg ht, if_neg ht]

theorem Published.wipe {t t₁ : Tree Doc} {dir : List Str} {part : Bytes} {xl : XlMeta}
    (hne : dir ≠ []) (h : Published t t₁ dir part xl) :
    ∃ t₂, t₁.removeDirAll dir = some t₂ ∧ Wiped t t₂ dir := by
  have hdir : t₁.isDir dir = true := by
    rw [isDir_iff, h, if_pos (List.prefix_refl dir)]
  have h₂ : t₁.removeDirAll dir = some (t₁.cut dir) := by
    simp [removeDirAll, hne, hdir]
  refine ⟨_, h₂, fun q => ?_⟩
  rw [look_removeDirAll h₂, h]
  by_cases hq : dir <+: q
  · rw [if_pos hq, if_pos hq]
  · rw [if_neg hq, if_neg hq]
    have hx : ∀ f, q ≠ dir ++ [f] := fun f h0 => hq (h0 ▸ List.prefix_append _ _)
    rw [if_neg (hx _), if_neg (hx _), if_neg (hx _)]

/-! ## All drives -/

namespace ErasureStore

variable {n : Nat}

/-- The shards of a block, in drive order. -/
def shards (S : ErasureStore n) (block : Bytes) : List Bytes :=
  match S.codec.encodeBlock block with
  | .ok ss => ss
  | .error _ => []

/-- Drive `d`'s shard of a block. -/
def shard (S : ErasureStore n) (d : Fin n) (block : Bytes) : Bytes :=
  (S.shards block).getD d.val []

/-- The shard file of drive `d` for an object's blocks. -/
def partOf (S : ErasureStore n) (d : Fin n) (blocks : List Bytes) : Bytes :=
  (blocks.map (S.shard d)).flatten

/-- The recorded checksums of drive `d` for an object's blocks. -/
def sumsOf (S : ErasureStore n) (d : Fin n) (blocks : List Bytes) : List Str :=
  blocks.map fun block => S.checksum (S.shard d block)

variable {S : ErasureStore n} {site : Site n} {bucket key : Str}

theorem encodeBlock_shards (hS : S.codec.Lawful) (block : Bytes) :
    S.codec.encodeBlock block = .ok (S.shards block) := by
  obtain ⟨ss, hss, -, -⟩ := Codec.encodeBlock_ok hS block
  simp only [shards, hss]

theorem partOf_cons (d : Fin n) (block : Bytes) (blocks : List Bytes) :
    S.partOf d (block :: blocks) = S.shard d block ++ S.partOf d blocks := by
  simp [partOf]

/-- The block loop keeps every live drive live and appends its shards. -/
theorem run_writeBlocks (hS : S.codec.Lawful) (site : Site n) (bucket key : Str)
    {s₀ : Cluster n Doc} {ok : Fin n → Bool} :
    ∀ (blocks : List Bytes) (s : Cluster n Doc) (acc : Fin n → Bytes)
      (sums : Fin n → List Str),
      (∀ d, ok d = true → site.up d = true ∧
        Staged (s₀ d) (s d) (site.objDir bucket key d) (acc d)) →
      (∀ d, ok d = false → s d = s₀ d) →
      ∃ s', site.run (S.writeBlocks ((rObject bucket key).joinStr PART_TMP) blocks ok sums)
          s = (.ok (ok, fun d => sums d ++ S.sumsOf d blocks), s') ∧
        (∀ d, ok d = true →
          Staged (s₀ d) (s' d) (site.objDir bucket key d) (acc d ++ S.partOf d blocks)) ∧
        ∀ d, ok d = false → s' d = s₀ d := by
  intro blocks
  induction blocks with
  | nil =>
      intro s acc sums hlive hdead
      refine ⟨s, by simp [writeBlocks, sumsOf], fun d hd => ?_, hdead⟩
      simpa [partOf] using (hlive d hd).2
  | cons block blocks ih =>
      intro s acc sums hlive hdead
      have hstep : ∀ d, ∃ t,
          site.onTree d
            (if ok d then Drive.append ((rObject bucket key).joinStr PART_TMP)
              ((S.shards block).getD d.val []) else pure false) (s d) = (ok d, t) ∧
          (ok d = true → Staged (s₀ d) t (site.objDir bucket key d)
            (acc d ++ S.shard d block)) ∧
          (ok d = false → t = s₀ d) := by
        intro d
        cases hd : ok d with
        | false =>
            exact ⟨s d, rfl, fun h => Bool.noConfusion h, fun _ => hdead d hd⟩
        | true =>
            obtain ⟨hup, hst⟩ := hlive d hd
            obtain ⟨t, ht, hst'⟩ := hst.append (S.shard d block)
            refine ⟨t, ?_, fun _ => hst', fun h => Bool.noConfusion h⟩
            rw [if_pos rfl, Site.onTree_up hup, LocalDrive.exec_append,
              Site.resolve_objFile atom_partTmp]
            exact LocalDrive.attempt_some ht
      choose t ht hlive' hdead' using hstep
      obtain ⟨s', hrun, hl, hd⟩ := ih t (fun d => acc d ++ S.shard d block)
        (fun d => sums d ++ [S.checksum (S.shard d block)])
        (fun d hd => ⟨(hlive d hd).1, hlive' d hd⟩) hdead'
      refine ⟨s', ?_, fun d hok => ?_, hd⟩
      · rw [writeBlocks, encodeBlock_shards hS]
        simp only [Site.run_bind, Site.run_eachDrive, Prog.andThen_ok, ht]
        refine hrun.trans ?_
        simp [sumsOf, shard]
      · rw [partOf_cons, ← List.append_assoc]
        exact hl d hok

/-- The metadata a write of `blocks` records when every drive's checksums are
there. -/
def xlFor (S : ErasureStore n) (env : CallEnv) (blocks : List Bytes) (contentType : Str)
    (userMetadata : UserMeta) (encrypted : Bool) (etagOverride : Option Str) : XlMeta :=
  S.writtenXl env blocks (fun d => S.sumsOf d blocks) contentType userMetadata encrypted
    etagOverride

/-- How a sharded write ends, on a cluster whose reachable drives are open. -/
structure WriteEnds (S : ErasureStore n) (site : Site n) (bucket key : Str)
    (blocks : List Bytes × Bool) (xl : XlMeta) (s : Cluster n Doc)
    (r : Except S3Error ObjectMeta × Cluster n Doc) : Prop where
  down : ∀ d, site.up d = false → r.2 d = s d
  broken : blocks.2 = true → r.1 = .error (.internal "read body") ∧
    ∀ d, site.up d = true →
      Staged (s d) (r.2 d) (site.objDir bucket key d) (S.partOf d blocks.1)
  short : blocks.2 = false → tally site.up < S.codec.data + 1 →
    r.1 = .error (.internal "write quorum not met") ∧
    ∀ d, site.up d = true → Wiped (s d) (r.2 d) (site.objDir bucket key d)
  done : blocks.2 = false → S.codec.data + 1 ≤ tally site.up →
    r.1 = .ok (metaToObject key xl) ∧
    ∀ d, site.up d = true →
      Published (s d) (r.2 d) (site.objDir bucket key d) (S.partOf d blocks.1) xl

/-- Preparing the drives: exactly the reachable ones get a temporary file. -/
theorem prepare_drives {s : Cluster n Doc}
    (hopen : ∀ d, site.up d = true → Open (s d) (site.objDir bucket key d)) (d : Fin n) :
    ∃ t, site.onTree d (do
          if ← Drive.createDirAll (rObject bucket key) then
            Drive.create ((rObject bucket key).joinStr PART_TMP)
          else pure false) (s d) = (site.up d, t) ∧
      (site.up d = true → Staged (s d) t (site.objDir bucket key d) []) ∧
      (site.up d = false → t = s d) := by
  cases hd : site.up d with
  | false =>
      refine ⟨s d, ?_, fun h => Bool.noConfusion h, fun _ => rfl⟩
      simp only [Site.onTree, hd]
      rfl
  | true =>
      obtain ⟨t₁, t₂, h₁, h₂, hst⟩ := (hopen d hd).prepare
      refine ⟨t₂, ?_, fun _ => hst, fun h => Bool.noConfusion h⟩
      have h₁' : (s d).createDirAll ((rObject bucket key).resolve (site.root d)) =
          some t₁ := h₁
      rw [Site.onTree_up hd, Prog.exec_bind, LocalDrive.exec_createDirAll,
        LocalDrive.attempt_some h₁', if_pos rfl, LocalDrive.exec_create,
        Site.resolve_objFile atom_partTmp]
      exact LocalDrive.attempt_some h₂

/-- Publishing on the drives: exactly the reachable ones succeed. -/
theorem publish_drives {s s₁ : Cluster n Doc} {part : Fin n → Bytes} (xl : XlMeta)
    (hopen : ∀ d, site.up d = true → Open (s d) (site.objDir bucket key d))
    (hst : ∀ d, site.up d = true →
      Staged (s d) (s₁ d) (site.objDir bucket key d) (part d)) (d : Fin n) :
    ∃ t₂ t₃,
      site.onTree d (if site.up d then Drive.rename ((rObject bucket key).joinStr PART_TMP)
          ((rObject bucket key).joinStr PART) else pure false) (s₁ d) = (site.up d, t₂) ∧
      site.onTree d (if site.up d then Drive.write ((rObject bucket key).joinStr XL_META)
          (.doc (.xl xl)) else pure false) t₂ = (site.up d, t₃) ∧
      (site.up d = true →
        Published (s d) t₃ (site.objDir bucket key d) (part d) xl) ∧
      (site.up d = false → t₃ = s₁ d) := by
  cases hd : site.up d with
  | false => exact ⟨s₁ d, s₁ d, rfl, rfl, fun h => Bool.noConfusion h, fun _ => rfl⟩
  | true =>
      obtain ⟨t₂, t₃, h₂, h₃, hpub⟩ := (hst d hd).publish (hopen d hd) xl
      refine ⟨t₂, t₃, ?_, ?_, fun _ => hpub, fun h => Bool.noConfusion h⟩
      · rw [if_pos rfl, Site.onTree_up hd, LocalDrive.exec_rename,
          Site.resolve_objFile atom_partTmp, Site.resolve_objFile atom_part]
        exact LocalDrive.attempt_some h₂
      · rw [if_pos rfl, Site.onTree_up hd, LocalDrive.exec_write,
          Site.resolve_objFile atom_xlMeta]
        exact LocalDrive.attempt_some h₃

/-- Rolling back on the drives. -/
theorem wipe_drives {s s₁ : Cluster n Doc} {part : Fin n → Bytes} {xl : XlMeta}
    (hne : ∀ d, site.objDir bucket key d ≠ [])
    (hpub : ∀ d, site.up d = true →
      Published (s d) (s₁ d) (site.objDir bucket key d) (part d) xl) (d : Fin n) :
    ∃ t, site.onTree d (Drive.removeDirAll (rObject bucket key)) (s₁ d) =
        (site.up d, t) ∧
      (site.up d = true → Wiped (s d) t (site.objDir bucket key d)) ∧
      (site.up d = false → t = s₁ d) := by
  cases hd : site.up d with
  | false =>
      refine ⟨s₁ d, ?_, fun h => Bool.noConfusion h, fun _ => rfl⟩
      rw [Site.onTree, hd]
      rfl
  | true =>
      obtain ⟨t, ht, hw⟩ := (hpub d hd).wipe (hne d)
      refine ⟨t, ?_, fun _ => hw, fun h => Bool.noConfusion h⟩
      rw [Site.onTree_up hd, LocalDrive.exec_removeDirAll]
      exact LocalDrive.attempt_some ht

/-- Publishing staged shards, with every reachable drive still written to. -/
theorem run_publishShards {s s₁ : Cluster n Doc} {part : Fin n → Bytes} (xl : XlMeta)
    (audit : VersionAudit) (haudit : audit = ⟨xl.owner, xl.srcIp⟩)
    (hopen : ∀ d, site.up d = true → Open (s d) (site.objDir bucket key d))
    (hne : ∀ d, site.objDir bucket key d ≠ [])
    (hst : ∀ d, site.up d = true →
      Staged (s d) (s₁ d) (site.objDir bucket key d) (part d))
    (hdown : ∀ d, site.up d = false → s₁ d = s d) :
    ∃ s', (∀ d, site.up d = false → s' d = s d) ∧
      if tally site.up < S.codec.data + 1 then
        site.run (S.publishShards bucket key site.up xl audit) s₁ =
          (.error (.internal "write quorum not met"), s') ∧
        ∀ d, site.up d = true → Wiped (s d) (s' d) (site.objDir bucket key d)
      else
        site.run (S.publishShards bucket key site.up xl audit) s₁ =
          (.ok (metaToObject key xl), s') ∧
        ∀ d, site.up d = true →
          Published (s d) (s' d) (site.objDir bucket key d) (part d) xl := by
  have hshut : ∀ d, site.onTree d (if site.up d then
      Drive.shutdown ((rObject bucket key).joinStr PART_TMP) else pure false) (s₁ d) =
      (site.up d, s₁ d) := by
    intro d
    cases hd : site.up d with
    | false => rfl
    | true => rw [if_pos rfl, Site.onTree_up hd, LocalDrive.exec_shutdown]
  choose t₂ t₃ ht₂ ht₃ hpub hdown₃ using publish_drives xl hopen hst
  have hkeep : ∀ d, site.up d = false → t₃ d = s d :=
    fun d hd => (hdown₃ d hd).trans (hdown d hd)
  unfold publishShards
  by_cases hq : tally site.up < S.codec.data + 1
  · choose t₄ ht₄ hw hdown₄ using wipe_drives hne hpub
    refine ⟨t₄, fun d hd => (hdown₄ d hd).trans (hkeep d hd), ?_⟩
    simp only [Site.run_bind, Site.run_eachDrive, hshut, ht₂, ht₃, Prog.andThen_ok, hq,
      if_true, ht₄, Site.run_throw]
    exact ⟨rfl, hw⟩
  · refine ⟨t₃, hkeep, ?_⟩
    simp only [Site.run_bind, Site.run_eachDrive, hshut, ht₂, ht₃, Prog.andThen_ok, hq,
      if_false, Site.run_pure, haudit]
    exact ⟨rfl, hpub⟩

/-- The specification of a sharded write. -/
theorem run_writeSharded (hS : S.codec.Lawful) {s : Cluster n Doc}
    (hopen : ∀ d, site.up d = true → Open (s d) (site.objDir bucket key d))
    (hne : ∀ d, site.objDir bucket key d ≠ []) (env : CallEnv) (src : Body)
    (contentType : Str) (userMetadata : UserMeta) (encrypted : Bool)
    (etagOverride : Option Str) :
    WriteEnds S site bucket key (bodyBlocks S.blockSize src)
      (S.xlFor env (bodyBlocks S.blockSize src).1 contentType userMetadata encrypted
        etagOverride) s
      (site.run (S.writeSharded env bucket key src contentType userMetadata encrypted
        etagOverride) s) := by
  generalize hblocks : bodyBlocks S.blockSize src = blocks
  choose t₁ ht₁ hst₁ hdown₁ using prepare_drives hopen
  obtain ⟨s₂, hrun₂, hst₂, hdown₂⟩ := run_writeBlocks hS site bucket key blocks.1 t₁
    (fun _ => []) (fun _ => []) (fun d hd => ⟨hd, hst₁ d hd⟩) hdown₁
  simp only [List.nil_append] at hrun₂ hst₂
  obtain ⟨blocks, broken⟩ := blocks
  unfold writeSharded
  simp only [Site.run_bind, Site.run_eachDrive, ht₁, Prog.andThen_ok, hblocks, hrun₂]
  cases broken with
  | true =>
      simp only [if_true]
      exact ⟨hdown₂, fun _ => ⟨rfl, hst₂⟩, fun h => Bool.noConfusion h,
        fun h => Bool.noConfusion h⟩
  | false =>
      obtain ⟨s', hdown', hend⟩ := run_publishShards (S := S)
        (S.xlFor env blocks contentType userMetadata encrypted etagOverride) env.audit rfl
        hopen hne hst₂ hdown₂
      simp only [Bool.false_eq_true, if_false]
      change WriteEnds _ _ _ _ _ _ _ (site.run (S.publishShards bucket key site.up
        (S.xlFor env blocks contentType userMetadata encrypted etagOverride) env.audit) s₂)
      by_cases hq : tally site.up < S.codec.data + 1
      · rw [if_pos hq] at hend
        rw [hend.1]
        exact ⟨hdown', fun h => Bool.noConfusion h, fun _ _ => ⟨rfl, hend.2⟩,
          fun _ h => absurd hq (by omega)⟩
      · rw [if_neg hq] at hend
        rw [hend.1]
        exact ⟨hdown', fun h => Bool.noConfusion h, fun _ h => absurd h hq,
          fun _ _ => ⟨rfl, hend.2⟩⟩

end ErasureStore

end Kerplace
