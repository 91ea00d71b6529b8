/-
# `Kerplace.Erasure.Places` — where things lie on a drive

The path helpers resolved against a drive root, for a bucket name that is one
component and a key that descends: an object's directory, the files in it,
its archive and its history, and the bucket's configuration in the system
area, which no object's directory contains or lies in.
-/
import Kerplace.Erasure.Read
import Kerplace.Storage.Region

namespace Kerplace

open FileTree

/-! ## Keys -/

theorem UnixPath.splitOn_ne_nil (s : Str) : s.splitOn '/' ≠ [] := by
  rw [List.splitOn]
  exact List.splitOnP_ne_nil _ _

/-- A key the validator accepts has a component. -/
theorem validateKey_comps {key : Str} (h : validateKey key = .ok ()) :
    UnixPath.compsOf key ≠ [] := by
  obtain ⟨hne, hhead, -, hseg⟩ := validateKey_ok.1 h
  obtain ⟨c, key, rfl⟩ := List.exists_cons_of_ne_nil hne
  have hc : c ≠ '/' := fun h0 => hhead (by simp [h0])
  have hsplit : (c :: key).splitOn '/' =
      (key.splitOn '/').modifyHead (List.cons c) := by
    rw [List.splitOn, List.splitOnP_cons_eq_if_modifyHead]
    simp [hc, List.splitOn]
  obtain ⟨seg, rest, hrest⟩ := List.exists_cons_of_ne_nil (UnixPath.splitOn_ne_nil key)
  rw [hrest, List.modifyHead_cons] at hsplit
  have hmem : c :: seg ∈ (c :: key).splitOn '/' := by
    rw [hsplit]
    exact List.mem_cons_self
  refine List.ne_nil_of_mem (a := c :: seg) ?_
  simp only [UnixPath.compsOf, List.mem_filter, Bool.and_eq_true, decide_eq_true_eq]
  exact ⟨hmem, by simp, (hseg _ hmem).2⟩

theorem sysDir_head : SYS_DIR.head? = some '.' := rfl

theorem ne_sysDir {bucket : Str} (h : validateBucketName bucket = .ok ()) :
    bucket ≠ SYS_DIR :=
  fun h0 => validateBucketName_head h (h0 ▸ sysDir_head)

theorem atom_sysDir : UnixPath.Atom SYS_DIR := by decide
theorem atom_buckets : UnixPath.Atom BUCKETS := by decide
theorem atom_versioning : UnixPath.Atom VERSIONING := by decide

/-! ## Resolved places -/

section

variable {n : Nat} {site : Site n} {bucket key : Str} {d : Fin n}

theorem resolve_rBucket (hb : UnixPath.Atom bucket) (root : List Str) :
    (rBucket bucket).resolve root = root ++ [bucket] := by
  rw [rBucket, UnixPath.resolve_ofStr hb.descends, hb.compsOf]

theorem resolve_rObject (hb : UnixPath.Atom bucket) (hk : UnixPath.Descends key)
    (root : List Str) :
    (rObject bucket key).resolve root = root ++ bucket :: UnixPath.compsOf key := by
  rw [rObject, UnixPath.resolve_joinStr hk, UnixPath.resolve_ofStr hb.descends,
    hb.compsOf, List.append_assoc, List.singleton_append]

theorem Site.objDir_eq (hb : UnixPath.Atom bucket) (hk : UnixPath.Descends key) :
    site.objDir bucket key d = site.root d ++ bucket :: UnixPath.compsOf key :=
  resolve_rObject hb hk _

theorem Site.objDir_ne_nil (hb : UnixPath.Atom bucket) (hk : UnixPath.Descends key) :
    site.objDir bucket key d ≠ [] := by
  simp [Site.objDir_eq hb hk]

theorem Site.bucket_prefix_objDir (hb : UnixPath.Atom bucket)
    (hk : UnixPath.Descends key) :
    (rBucket bucket).resolve (site.root d) <+: site.objDir bucket key d := by
  rw [resolve_rBucket hb, Site.objDir_eq hb hk, List.prefix_append_right_inj]
  exact ⟨UnixPath.compsOf key, rfl⟩

theorem resolve_rBucketCfg (hb : UnixPath.Atom bucket) {file : Str}
    (hf : UnixPath.Atom file) (root : List Str) :
    (rBucketCfg bucket file).resolve root =
      root ++ [SYS_DIR, BUCKETS, bucket, file] := by
  rw [rBucketCfg, rCfgDir, UnixPath.resolve_joinStr_atom hf,
    UnixPath.resolve_joinStr_atom hb, UnixPath.resolve_joinStr_atom atom_buckets,
    UnixPath.resolve_ofStr atom_sysDir.descends, atom_sysDir.compsOf]
  simp

/-! ## Apart -/

theorem Site.objDir_apart_cfg (hb : UnixPath.Atom bucket) (hsys : bucket ≠ SYS_DIR)
    (hk : UnixPath.Descends key) {b file : Str} (hb' : UnixPath.Atom b)
    (hf : UnixPath.Atom file) :
    Apart (site.objDir bucket key d) ((rBucketCfg b file).resolve (site.root d)) := by
  rw [Site.objDir_eq hb hk, resolve_rBucketCfg hb' hf]
  exact apart_of_ne hsys

end

/-! ## Frames of a write -/

section

variable {t t' : Tree Doc} {dir q : List Str} {part : Bytes} {xl : XlMeta}

theorem Staged.frame (h : Staged t t' dir part) (hq : Apart dir q) :
    t'.look q = t.look q := by
  have hx : q ≠ dir ++ [PART_TMP] := fun h0 => hq.1 (h0 ▸ List.prefix_append _ _)
  rw [h, if_neg hq.2, if_neg hx]

theorem Published.frame (h : Published t t' dir part xl) (hq : Apart dir q) :
    t'.look q = t.look q := by
  have hx : ∀ f, q ≠ dir ++ [f] := fun f h0 => hq.1 (h0 ▸ List.prefix_append _ _)
  rw [h, if_neg hq.2, if_neg (hx _), if_neg (hx _), if_neg (hx _)]

theorem Wiped.frame (h : Wiped t t' dir) (hq : Apart dir q) : t'.look q = t.look q := by
  rw [h, if_neg hq.1, if_neg hq.2]

theorem Staged.path (h : Staged t t' dir part) (hq : q <+: dir) :
    t'.look q = some .dir := by
  rw [h, if_pos hq]

theorem Published.path (h : Published t t' dir part xl) (hq : q <+: dir) :
    t'.look q = some .dir := by
  rw [h, if_pos hq]

theorem Wiped.path (h : Wiped t t' dir) (hq : q <+: dir) (hne : q ≠ dir) :
    t'.look q = some .dir := by
  rw [h, if_neg fun h0 => hne (hq.eq_of_length_le h0.length_le), if_pos hq]

end

end Kerplace
