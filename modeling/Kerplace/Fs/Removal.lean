/-
# `Kerplace.Fs.Removal` — what a delete takes off a listing

A delete changes the files of its key alone, in every versioning mode, and leaves the bucket's
directory.  So it takes off a listing the one key whose payload went, and puts none on it: a
payload that a listing comes to was there before.  The names on the drive are taken to be file
names, the keys to be such as the validator admits, and no two keys that are listed to have a
path in common.
-/
import Kerplace.Fs.Copies
import Kerplace.Fs.Listing
import Kerplace.Fs.Own
import Kerplace.Erasure.Listed

namespace Kerplace

open FileTree Prog UnixPath

namespace FsStore

variable {S : FsStore} {root : List Str} {bucket key : Str} {t t' : Tree FsDoc}

/-! ## Entries -/

/-- The names of the bucket's files are file names. -/
def AtomsIn (root : List Str) (bucket : Str) (t : Tree FsDoc) : Prop :=
  ∀ comps, (t.file? (root ++ bucket :: comps)).isSome = true → ∀ c ∈ comps, Atom c

theorem mem_entries (hb : Atom bucket) {comps : List Str} :
    (comps, true) ∈ t.walk ((bucketPath bucket).resolve root) ↔
      comps ≠ [] ∧ (t.file? (root ++ bucket :: comps)).isSome = true := by
  rw [mem_walk, resolve_bucketPath hb, List.append_assoc, List.singleton_append]
  refine and_congr_right fun _ => ⟨?_, fun hsome => ?_⟩
  · rintro ⟨n, -, hn⟩
    exact hn.symm
  · obtain ⟨c, hc⟩ := Option.isSome_iff_exists.1 hsome
    exact ⟨.file c, file?_eq_some.1 hc, hsome.symm⟩

theorem getLast?_joinSlash {comps : List Str} {c : Str} (hlast : comps.getLast? = some c)
    (hc : c ≠ []) : (joinSlash comps).getLast? = c.getLast? := by
  induction comps with
  | nil => cases hlast
  | cons a comps ih =>
      cases comps with
      | nil =>
          rw [List.getLast?_singleton, Option.some.injEq] at hlast
          rw [hlast]
          simp [joinSlash, List.intercalate]
      | cons b comps =>
          have hrest := ih (by rwa [List.getLast?_cons_cons] at hlast)
          have hne : joinSlash (b :: comps) ≠ [] := fun h0 => by
            rw [h0, List.getLast?_nil] at hrest
            exact hc (List.getLast?_eq_none_iff.1 hrest.symm)
          rw [joinSlash, List.intercalate_cons_of_ne_nil (List.cons_ne_nil _ _)]
          exact (List.getLast?_append_of_ne_nil _ hne).trans hrest

/-- The payload of a key that is read off an entry stands at the entry. -/
theorem compsBelow_of_entry {comps : List Str} (hne : comps ≠ []) (hatoms : ∀ c ∈ comps, Atom c)
    {k : Str} (hkey : keyOfEntry (comps, true) = some k) : compsBelow k .payload = comps := by
  unfold keyOfEntry at hkey
  rw [if_pos rfl] at hkey
  split at hkey
  · rename_i hlast
    split at hkey
    · cases hkey
    · rename_i hdir
      obtain rfl := Option.some.inj hkey
      have hcomps := (ErasureStore.joinSlash_descends hdir fun c hc =>
        hatoms c (List.mem_of_mem_dropLast hc)).2
      simp only [compsBelow, stripSlash, List.getLast?_concat, if_true, List.dropLast_concat,
        hcomps]
      exact List.dropLast_append_getLast? _ hlast
  · obtain rfl := Option.some.inj hkey
    obtain ⟨c, hc⟩ := Option.ne_none_iff_exists'.1 (mt List.getLast?_eq_none_iff.1 hne)
    have hatom := hatoms c (List.mem_of_getLast? hc)
    have hstrip : stripSlash (joinSlash comps) = none := by
      rw [stripSlash, getLast?_joinSlash hc hatom.2.1, if_neg]
      exact fun h0 => hatom.1 (List.mem_of_getLast? h0)
    simp only [compsBelow, hstrip]
    exact (ErasureStore.joinSlash_descends hne hatoms).2

/-- A key that a listing finds: its payload is there, and the key is read off its path. -/
theorem mem_keysIn (hb : Atom bucket) (hatoms : AtomsIn root bucket t) {k : Str} :
    k ∈ keysIn root bucket t ↔ compsBelow k .payload ≠ [] ∧
      (t.file? (root ++ bucket :: compsBelow k .payload)).isSome = true ∧
      keyOfEntry (compsBelow k .payload, true) = some k := by
  rw [keysIn, List.mem_filterMap]
  constructor
  · rintro ⟨⟨comps, f⟩, he, hkey⟩
    have hf : f = true := by
      unfold keyOfEntry at hkey
      split at hkey
      · assumption
      · cases hkey
    subst hf
    obtain ⟨hne, hfile⟩ := (mem_entries hb).1 he
    have hcomps := compsBelow_of_entry hne (hatoms comps hfile) hkey
    rw [hcomps]
    exact ⟨hne, hfile, hkey⟩
  · rintro ⟨hne, hfile, hkey⟩
    exact ⟨_, (mem_entries hb).2 ⟨hne, hfile⟩, hkey⟩

theorem keysIn_nodup_of_atoms (hb : Atom bucket) (hatoms : AtomsIn root bucket t) :
    (keysIn root bucket t).Nodup := by
  have hentry : ∀ e ∈ t.walk ((bucketPath bucket).resolve root), ∀ k, keyOfEntry e = some k →
      e = (compsBelow k .payload, true) := by
    rintro ⟨comps, f⟩ he k hkey
    have hf : f = true := by
      unfold keyOfEntry at hkey
      split at hkey
      · assumption
      · cases hkey
    subst hf
    obtain ⟨hne, hfile⟩ := (mem_entries hb).1 he
    rw [compsBelow_of_entry hne (hatoms comps hfile) hkey]
  refine nodup_filterMap (walk_nodup t _) fun e he e' he' k hk hk' => ?_
  rw [hentry e he k hk, hentry e' he' k hk']

/-! ## A bucket in order -/

/-- A bucket whose names, keys and documents are such as the store makes, with no two listed
keys that have a path in common. -/
structure Orderly (root : List Str) (bucket : Str) (t : Tree FsDoc) : Prop where
  docs : DocsIn ProperFsDoc t
  atoms : AtomsIn root bucket t
  there : t.isDir ((bucketPath bucket).resolve root) = true
  valid : ∀ k ∈ keysIn root bucket t, validateKey k = .ok ()
  apart : ∀ k ∈ keysIn root bucket t, ∀ k' ∈ keysIn root bucket t, k ≠ k' →
    KeysApart root bucket k k'

theorem Accepted.payload_place (h : Accepted bucket key) :
    place root bucket key .payload = root ++ bucket :: compsBelow key .payload :=
  h.place_eq (k := .payload) trivial

namespace Orderly

theorem payload (h : Orderly root bucket t) (hb : validateBucketName bucket = .ok ())
    (hk : key ∈ keysIn root bucket t) :
    (t.file? (place root bucket key .payload)).isSome = true := by
  rw [Accepted.payload_place ⟨hb, h.valid key hk⟩]
  exact ((mem_keysIn (validateBucketName_atom hb) h.atoms).1 hk).2.1

theorem readable (h : Orderly root bucket t) (hb : validateBucketName bucket = .ok ())
    (S : FsStore) : AllReadable S root bucket t := by
  intro k hk
  obtain ⟨c, hc⟩ := Option.isSome_iff_exists.1 (h.payload hb hk)
  have hfile : t.file? ((objectPath bucket k).resolve root) = some c := hc
  unfold storedIn
  rw [hfile]
  exact ⟨_, rfl⟩

end Orderly

/-! ## A delete -/

theorem Accepted.below_bucket (h : Accepted bucket key) {k : FileKind} (hk : k.Proper)
    {comps : List Str} (hpre : place root bucket key k <+: root ++ bucket :: comps) :
    k = .payload := by
  have hsys : SYS_DIR ≠ bucket := fun h0 => ne_sysDir h.bucket h0.symm
  rw [h.place_eq hk, List.prefix_append_right_inj] at hpre
  cases k with
  | payload => rfl
  | _ => exact absurd (List.cons_prefix_cons.1 hpre).1 hsys

theorem meets_deleteObject (env : CallEnv) :
    MeetsE (fsContract (KeyWrites bucket key)) (S.deleteObject env bucket key) fun _ => True :=
  meetsE_deleteObject fun _ h => h

theorem file?_deleteObject (hdocs : DocsIn ProperFsDoc t) (env : CallEnv) {q : List Str}
    (hq : ∀ p, KeyWrites bucket key p → ¬ p.resolve root <+: q) :
    (after root (S.deleteObject env bucket key) t).file? q = t.file? q :=
  (LocalDrive.run_writes (meets_deleteObject env) hdocs).2 q hq

theorem KeysApart.spares {key' : Str} (h : KeysApart root bucket key key')
    (hn : Accepted bucket key') {k : FileKind} (hk : k.Proper) :
    ∀ p, KeyWrites bucket key p → ¬ p.resolve root <+: place root bucket key' k := by
  rintro p (⟨k₀, hk₀, rfl⟩ | ⟨id, rfl⟩)
  · exact h k₀ k hk₀ hk
  · exact tmpFile_apart hn.bucket hn.key hk id root

/-- Pruning spares the directory it stops at. -/
theorem keeps_pruneEmpty {W : UnixPath → Prop} {q : List Str} {stop : UnixPath}
    (hq : ∀ p : UnixPath, p.Plain → p ≠ stop → p.startsWith stop = true → p.resolve root ≠ q)
    (rounds : Nat) : ∀ rel : UnixPath, rel.Plain →
      Meets (LocalDrive.keepingContract W ProperFsDoc root q)
        (Drive.pruneEmpty stop rounds rel) fun _ => True := by
  induction rounds with
  | zero => exact fun _ _ => trivial
  | succ rounds ih =>
      intro rel hrel
      rw [Drive.pruneEmpty]
      split
      · rename_i hcond
        rw [Bool.and_eq_true, decide_eq_true_eq] at hcond
        have hop : Meets (LocalDrive.keepingContract W ProperFsDoc root q)
            (Drive.removeDir rel) fun _ => True := by
          refine ⟨⟨trivial, fun p h0 => ?_⟩, fun _ _ => trivial⟩
          cases h0
          exact hq _ hrel hcond.1 hcond.2
        refine hop.then fun ok => ?_
        split
        · split
          · rename_i p hp
            refine ih p ?_
            rw [UnixPath.parent] at hp
            split at hp
            · cases hp
            · cases hp
              exact ⟨hrel.1, fun hmem => hrel.2 (List.mem_of_mem_dropLast hmem)⟩
          · trivial
        · trivial
      · trivial

theorem keeps_pruneParent {W : UnixPath → Prop} {q : List Str} {p stop : UnixPath}
    (hp : p.Plain) (hq : ∀ p : UnixPath, p.Plain → p ≠ stop → p.startsWith stop = true →
      p.resolve root ≠ q) :
    MeetsE (LocalDrive.keepingContract W ProperFsDoc root q) (pruneParent p stop)
      fun _ => True := by
  unfold pruneParent
  split
  · rename_i dir hdir
    refine meetsE_lift.2 (keeps_pruneEmpty hq (dir.comps.length + 1) dir ?_)
    rw [UnixPath.parent] at hdir
    split at hdir
    · cases hdir
    · cases hdir
      exact ⟨hp.1, fun hmem => hp.2 (List.mem_of_mem_dropLast hmem)⟩
  · exact meetsE_pure.2 trivial

theorem keepsDir_of_own {α : Type} {W F : UnixPath → Prop} {q : List Str} {p : FStore α}
    {Q : α → Prop} (hp : MeetsE (bucketContract bucket W F) p Q) :
    MeetsE (LocalDrive.keepingContract W ProperFsDoc root q) p Q :=
  Meets.weaken hp (fun o ho => ⟨ho.1, fun _ h0 => (own_not_prune o ho (h0 ▸ trivial)).elim⟩)
    fun _ _ _ h => h

theorem keeps_removeFile {W : UnixPath → Prop} {q : List Str} {p : UnixPath} (hp : W p) :
    MeetsE (LocalDrive.keepingContract W ProperFsDoc root q) (onDisk (Drive.removeFile p))
      fun _ => True := by
  refine meetsE_lift.2 ⟨⟨hp, fun _ h0 => ?_⟩, fun _ _ => trivial⟩
  cases h0

/-- The directories below which a delete prunes are not the bucket's. -/
theorem keeps_deleteObject (hn : Accepted bucket key) {W : UnixPath → Prop}
    (hW : ∀ p, KeyWrites bucket key p → W p) (env : CallEnv) :
    MeetsE (LocalDrive.keepingContract W ProperFsDoc root
      ((bucketPath bucket).resolve root)) (S.deleteObject env bucket key) fun _ => True := by
  have hb := validateBucketName_atom hn.bucket
  have howns : Owns W (fun _ => True) bucket key :=
    ⟨fun k hk => hW _ (.inl ⟨k, hk, rfl⟩), fun _ _ => trivial, trivial⟩
  have hbucket : ∀ p : UnixPath, p.Plain → p ≠ bucketPath bucket →
      p.startsWith (bucketPath bucket) = true →
      p.resolve root ≠ (bucketPath bucket).resolve root := by
    intro p hp hne hstart heq
    have hplain : (bucketPath bucket).Plain := hb.plain
    rw [hp.resolve, hplain.resolve, List.append_cancel_left_eq] at heq
    rw [UnixPath.startsWith, Bool.and_eq_true, decide_eq_true_eq] at hstart
    refine hne ?_
    obtain ⟨abs, comps⟩ := p
    cases hstart.1
    cases heq
    rfl
  have hmeta : ∀ p : UnixPath, p.Plain → p ≠ metaRoot.joinStr bucket →
      p.startsWith (metaRoot.joinStr bucket) = true →
      p.resolve root ≠ (bucketPath bucket).resolve root := by
    intro p hp _ hstart heq
    have hplain : (metaRoot.joinStr bucket).Plain := plain_joinStr (by decide) hb.descends
    rw [UnixPath.startsWith, Bool.and_eq_true, List.isPrefixOf_iff_prefix] at hstart
    have hpre : (metaRoot.joinStr bucket).resolve root <+: p.resolve root := by
      rw [hplain.resolve, hp.resolve]
      exact (List.prefix_append_right_inj _).2 hstart.2
    rw [heq, resolve_metaRoot hb, resolve_bucketPath hb, List.prefix_append_right_inj] at hpre
    simpa using hpre.length_le
  have hhead : MeetsE (bucketContract bucket W fun _ => True) (headBucket bucket) fun _ => True :=
    own_headBucket
  refine (keepsDir_of_own hhead).then fun _ => ?_
  refine (keepsDir_of_own (own_versioningMode howns)).then fun mode => ?_
  split
  · refine keepsDir_of_own ((own_seed howns).then fun _ =>
      (own_readHistory howns).bind fun hist hh => ?_)
    refine (own_makeRoom howns hh).bind fun hist' hh' => ?_
    refine (own_writeHistory howns fun v hmem => ?_).then fun _ => meetsE_pure.2 trivial
    rcases List.mem_cons.1 hmem with rfl | hmem
    · exact properId_new env mode
    · exact hh' v hmem
  · refine (keeps_removeFile (howns.writes .payload trivial)).then fun _ => ?_
    refine (keeps_removeFile (howns.writes .metadata trivial)).then fun _ => ?_
    refine (keepsDir_of_own (own_removeSidecars howns fun _ h0 => h0)).then fun _ => ?_
    refine (keeps_pruneParent (keyPath_plain hb hn.key (k := .payload) trivial) hbucket).then
      fun _ => ?_
    exact (keeps_pruneParent (keyPath_plain hb hn.key (k := .metadata) trivial) hmeta).then
      fun _ => meetsE_pure.2 trivial

/-- The bucket's versioning mode. -/
def modeIn (root : List Str) (bucket : Str) (t : Tree FsDoc) : VMode :=
  let status := (docIn FsDoc.status? t ((bucketCfgFile bucket VERSIONING).resolve root)).getD []
  if status = "Enabled".toList then .enabled
  else if status = "Suspended".toList then .suspended
  else .off

theorem run_versioningMode : runE (LocalDrive.step root) (versioningMode bucket) t =
    (.ok (modeIn root bucket t), t) := rfl

/-- A delete leaves the bucket's mode. -/
theorem modeIn_deleted (hdocs : DocsIn ProperFsDoc t) (hn : Accepted bucket key)
    (env : CallEnv) :
    modeIn root bucket (after root (S.deleteObject env bucket key) t) = modeIn root bucket t := by
  have hpath : (bucketCfgFile bucket VERSIONING).resolve root =
      root ++ [SYS_DIR, BUCKETS, bucket, VERSIONING] := by
    rw [bucketCfgFile, bucketCfgDir, resolve_joinStr_atom (by decide),
      resolve_joinStr_atom (validateBucketName_atom hn.bucket), resolve_joinStr_atom (by decide),
      resolve_ofStr atom_sysDir.descends, atom_sysDir.compsOf]
    simp
  have hsys : bucket ≠ SYS_DIR := ne_sysDir hn.bucket
  have hmeta : META ≠ BUCKETS := by decide
  have hversions : VERSIONS ≠ BUCKETS := by decide
  have htmp : TMP ≠ BUCKETS := by decide
  unfold modeIn docIn
  rw [file?_deleteObject hdocs env]
  rintro p (⟨k, hk, rfl⟩ | ⟨id, rfl⟩)
  · rw [show (keyPath bucket key k).resolve root = _ from hn.place_eq hk, hpath,
      List.prefix_append_right_inj]
    cases k <;> simp [treeOf, hsys, hmeta, hversions]
  · rw [resolve_tmpFile, hpath, List.prefix_append_right_inj]
    simp [htmp]

/-- A file of the bucket that a delete leaves was there before. -/
theorem Orderly.older (h : Orderly root bucket t) (hb : validateBucketName bucket = .ok ())
    (hn : Accepted bucket key) (env : CallEnv)
    (hgone : ∀ s, (after root (S.deleteObject env bucket key) t).file?
      (place root bucket key .payload ++ s) = none) {comps : List Str}
    (hsome : ((after root (S.deleteObject env bucket key) t).file?
      (root ++ bucket :: comps)).isSome = true) :
    (t.file? (root ++ bucket :: comps)).isSome = true ∧ comps ≠ compsBelow key .payload := by
  have hne : ¬ place root bucket key .payload <+: root ++ bucket :: comps := by
    rintro ⟨s, hs⟩
    rw [← hs, hgone s] at hsome
    cases hsome
  refine ⟨?_, fun heq => hne (by rw [heq, hn.payload_place])⟩
  rwa [file?_deleteObject h.docs env] at hsome
  rintro p (⟨k, hkind, rfl⟩ | ⟨id, rfl⟩)
  · intro hpre
    obtain rfl := hn.below_bucket hkind hpre
    exact hne hpre
  · rw [resolve_tmpFile, List.prefix_append_right_inj]
    exact fun hpre => ne_sysDir hb (List.cons_prefix_cons.1 hpre).1.symm

/-- A delete leaves the bucket's directory. -/
theorem Orderly.bucket_stays (h : Orderly root bucket t) (hb : validateBucketName bucket = .ok ())
    (hk : key ∈ keysIn root bucket t) (env : CallEnv) :
    (after root (S.deleteObject env bucket key) t).isDir ((bucketPath bucket).resolve root) =
      true := by
  have hatom := validateBucketName_atom hb
  have hn : Accepted bucket key := ⟨hb, h.valid key hk⟩
  refine isDir_iff.2 (LocalDrive.run_keeps (keeps_deleteObject hn (fun _ h0 => h0) env) ?_
    h.docs (isDir_iff.1 h.there))
  rintro p (⟨k, hkind, rfl⟩ | ⟨id, rfl⟩) hpre
  · have hlen := hpre.length_le
    rw [show (keyPath bucket key k).resolve root = _ from hn.place_eq hkind,
      resolve_bucketPath hatom] at hlen hpre
    rw [List.prefix_append_right_inj] at hpre
    have hbelow : place root bucket key k <+: root ++ bucket :: [] := by
      rw [hn.place_eq hkind]
      exact (List.prefix_append_right_inj _).2 hpre
    obtain rfl := hn.below_bucket hkind hbelow
    have hcomps := ((mem_keysIn hatom h.atoms).1 hk).1
    refine hcomps (List.eq_nil_of_length_eq_zero ?_)
    simp [treeOf] at hlen
    simpa using hlen
  · have hlen := hpre.length_le
    rw [resolve_tmpFile, resolve_bucketPath hatom] at hlen
    simp at hlen

/-- What a delete makes of a bucket in order, once the key's payload went: the key is no longer
listed, and what is listed besides keeps its files. -/
theorem Orderly.deleted (h : Orderly root bucket t) (hb : validateBucketName bucket = .ok ())
    (hk : key ∈ keysIn root bucket t) (env : CallEnv)
    (ht' : after root (S.deleteObject env bucket key) t = t')
    (hgone : ∀ s, t'.file? (place root bucket key .payload ++ s) = none) :
    Orderly root bucket t' ∧
      (∀ k, k ∈ keysIn root bucket t' ↔ k ∈ keysIn root bucket t ∧ ¬ key = k) ∧
      ∀ k ∈ keysIn root bucket t', ∀ kind : FileKind, kind.Proper →
        t'.file? (place root bucket k kind) = t.file? (place root bucket k kind) := by
  subst ht'
  have hatom := validateBucketName_atom hb
  have hold {comps : List Str} (hsome : ((after root (S.deleteObject env bucket key) t).file?
      (root ++ bucket :: comps)).isSome = true) :=
    h.older hb ⟨hb, h.valid key hk⟩ env hgone hsome
  have hatoms : AtomsIn root bucket (after root (S.deleteObject env bucket key) t) :=
    fun comps hsome => h.atoms comps (hold hsome).1
  have hkept : ∀ k ∈ keysIn root bucket t, key ≠ k → ∀ kind : FileKind, kind.Proper →
      (after root (S.deleteObject env bucket key) t).file? (place root bucket k kind) =
        t.file? (place root bucket k kind) := fun k hk' hne kind hkind =>
    file?_deleteObject h.docs env
      ((h.apart key hk k hk' hne).spares ⟨hb, h.valid k hk'⟩ hkind)
  have hmem : ∀ k, k ∈ keysIn root bucket (after root (S.deleteObject env bucket key) t) ↔
      k ∈ keysIn root bucket t ∧ ¬ key = k := by
    intro k
    constructor
    · intro hk'
      obtain ⟨hne, hfile, hkey⟩ := (mem_keysIn hatom hatoms).1 hk'
      obtain ⟨hfile', hother⟩ := hold hfile
      exact ⟨(mem_keysIn hatom h.atoms).2 ⟨hne, hfile', hkey⟩, fun heq => hother (heq ▸ rfl)⟩
    · rintro ⟨hk', hne⟩
      obtain ⟨hcomps, hfile, hkey⟩ := (mem_keysIn hatom h.atoms).1 hk'
      refine (mem_keysIn hatom hatoms).2 ⟨hcomps, ?_, hkey⟩
      have hsame := hkept k hk' hne .payload trivial
      rw [Accepted.payload_place ⟨hb, h.valid k hk'⟩] at hsame
      rwa [hsame]
  exact ⟨⟨(LocalDrive.run_writes (meets_deleteObject env) h.docs).1, hatoms,
    h.bucket_stays hb hk env, fun k hk' => h.valid k ((hmem k).1 hk').1,
    fun k hk' k' hk'' hne => h.apart k ((hmem k).1 hk').1 k' ((hmem k').1 hk'').1 hne⟩, hmem,
    fun k hk' => hkept k ((hmem k).1 hk').1 ((hmem k).1 hk').2⟩

/-! ### Without versioning -/

/-- The contract of programs that make nothing. -/
def removesOnly : Contract (DriveOp FsDoc) DriveOp.Ans where
  may o := o.Within ⟨fun _ => True, fun _ => True, fun _ => False, fun _ => False, fun _ => True,
    fun _ => False, fun _ => True⟩ ∨ ∃ p, o = .removeFile p
  gives _ _ := True

theorem file?_removesOnly {α : Type} {p : FStore α} {Q : α → Prop} (hp : MeetsE removesOnly p Q)
    (q : List Str) (hnone : t.file? q = none) : (after root p t).file? q = none := by
  have hon : Honours (LocalDrive.step root) removesOnly fun u => u.file? q = none := by
    rintro o (ho | ⟨p, rfl⟩) u hu
    · refine ⟨trivial, ?_⟩
      rcases LocalDrive.step_file?_or_gone (q := q) ho (fun _ h => h.elim) u with h | h
      · exact h.trans hu
      · exact h
    · refine ⟨trivial, LocalDrive.attempt_snd (P := fun u' => u'.file? q = none) hu
        fun u' h => ?_⟩
      rw [file?_removeFile h]
      split
      · rfl
      · exact hu
  exact (MeetsE.run hon hp hnone).2

theorem removes_pruneEmpty (stop : UnixPath) (rounds : Nat) : ∀ rel : UnixPath,
    Meets removesOnly (Drive.pruneEmpty stop rounds rel) fun _ => True := by
  induction rounds with
  | zero => exact fun _ => trivial
  | succ rounds ih =>
      intro rel
      rw [Drive.pruneEmpty]
      split
      · have hop : Meets removesOnly (Drive.removeDir rel) fun _ => True :=
          ⟨.inl (.inl trivial), fun _ _ => trivial⟩
        refine hop.then fun ok => ?_
        split
        · split
          · exact ih _
          · trivial
        · trivial
      · trivial

theorem removes_pruneParent (p stop : UnixPath) :
    MeetsE removesOnly (pruneParent p stop) fun _ => True := by
  unfold pruneParent
  split
  · rename_i dir _
    exact meetsE_lift.2 (removes_pruneEmpty stop (dir.comps.length + 1) dir)
  · exact meetsE_pure.2 trivial

theorem removes_removeFile (p : UnixPath) :
    MeetsE removesOnly (onDisk (Drive.removeFile p)) fun _ => True :=
  meetsE_lift.2 ⟨.inr ⟨p, rfl⟩, fun _ _ => trivial⟩

theorem removes_removeSidecars (suffixes : List Str) :
    MeetsE removesOnly (removeSidecars bucket key suffixes) fun _ => True := by
  induction suffixes with
  | nil => exact meetsE_pure.2 trivial
  | cons suffix suffixes ih => exact (removes_removeFile _).then fun _ => ih

/-- A delete in a bucket without versioning removes the payload, and makes nothing. -/
theorem file?_deleteObject_off (hthere : t.isDir ((bucketPath bucket).resolve root) = true)
    (hmode : modeIn root bucket t = .off) (env : CallEnv) {q : List Str}
    (hq : t.file? q = none ∨ q = place root bucket key .payload) :
    (after root (S.deleteObject env bucket key) t).file? q = none := by
  let t₁ := (t.removeFile (place root bucket key .payload)).getD t
  have hfile : t₁.file? q = none := by
    rw [file?_removeFile_getD]
    split
    · rfl
    · rename_i hne
      exact hq.resolve_right hne
  have hrun : after root (S.deleteObject env bucket key) t = after root (do
      let _ ← onDisk (Drive.removeFile (metaPath bucket key))
      removeSidecars bucket key SIDECARS
      pruneParent (objectPath bucket key) (bucketPath bucket)
      pruneParent (metaPath bucket key) (metaRoot.joinStr bucket)
      pure (⟨none, false⟩ : DeleteOutcome)) t₁ := by
    unfold after deleteObject
    rw [runE_bind, run_headBucket, hthere, if_pos rfl, andThen_ok, runE_bind,
      run_versioningMode, hmode, andThen_ok, if_neg (not_not.2 rfl), runE_bind, run_onDisk,
      andThen_ok]
    rfl
  rw [hrun]
  refine file?_removesOnly (Q := fun _ => True) ?_ q hfile
  refine (removes_removeFile _).then fun _ => ?_
  refine (removes_removeSidecars _).then fun _ => ?_
  refine (removes_pruneParent _ _).then fun _ => ?_
  exact (removes_pruneParent _ _).then fun _ => meetsE_pure.2 trivial

/-! ### Under versioning -/

/-- The history of a key, if there is one, knows of the current object. -/
def Settled (root : List Str) (bucket key : Str) (t : Tree FsDoc) : Prop :=
  t.look (place root bucket key .history) = none ∨
    canonicalOccupied (historyIn root bucket key t) = true

/-- A versioned delete moves the current payload away, and makes nothing below it. -/
theorem file?_deleteObject_versioned (hthere : t.isDir ((bucketPath bucket).resolve root) = true)
    (hmode : modeIn root bucket t ≠ .off) (hn : Accepted bucket key)
    (hclear : Clear root bucket key t) (hfiled : Filed root bucket key t)
    (hsettled : Settled root bucket key t)
    (hpayload : (t.file? (place root bucket key .payload)).isSome = true) (env : CallEnv)
    (s : List Str) :
    (after root (S.deleteObject env bucket key) t).file?
      (place root bucket key .payload ++ s) = none := by
  obtain ⟨t₁, hseed, h₁, hf₁, helse₁, hsame, hocc⟩ := hclear.seeded (S := S) hn hfiled
  obtain ⟨hist, t₂, hroom, h₂, helse₂, hh, hgone⟩ :=
    h₁.makeRoom hn (modeIn root bucket t) h₁.proper hf₁.occupied
  have hdoc : ProperFsDoc (.history ⟨⟨newVersionId env (modeIn root bucket t), true, env.now, [],
      0⟩ :: hist.versions⟩) := by
    intro h' h0 v hmem
    cases h0
    rcases List.mem_cons.1 hmem with rfl | hmem
    · exact properId_new env _
    · exact hh v hmem
  obtain ⟨t₃, hwrite, h₃, hfile₃⟩ := h₂.write hn made_history hdoc (.internal "mkdir versions")
    (.internal "write history")
  have hafter : after root (S.deleteObject env bucket key) t = t₃ := by
    have hwrite' : runE (LocalDrive.step root) (writeHistory bucket key
        ⟨⟨newVersionId env (modeIn root bucket t), true, env.now, [], 0⟩ :: hist.versions⟩) t₂ =
        (.ok (), t₃) := hwrite
    unfold after deleteObject
    rw [runE_bind, run_headBucket, hthere, if_pos rfl, andThen_ok, runE_bind,
      run_versioningMode, andThen_ok, if_pos hmode, runE_bind, hseed, andThen_ok, runE_bind,
      run_readHistory, andThen_ok, runE_bind, hroom, andThen_ok, runE_bind, hwrite', andThen_ok]
    rfl
  have hfinal : t₃.file? (place root bucket key .payload) = none := by
    rw [hfile₃, if_neg (hn.payload_ne (k := .history) trivial (by simp [treeOf]))]
    exact hgone (hocc hpayload hsettled)
  rw [hafter]
  by_cases hs : s = []
  · rw [hs, List.append_nil, hfinal]
  · -- nothing is made below the payload, which was a file
    have helse : Elsewhere root bucket key t₂ t₃ := fun q hq => (hfile₃ q).trans
      (if_neg fun heq => hq ⟨.history, made_history, heq⟩)
    rw [(helse₁.trans helse₂).trans helse]
    · obtain ⟨c, hc⟩ := Option.isSome_iff_exists.1 hpayload
      rw [file?, look_below (by rw [file?_eq_some.1 hc]; simp) hs]
    · intro hplace
      have heq := hn.antichain _ _ ⟨.payload, made_payload, rfl⟩ hplace (List.prefix_append _ _)
      exact hs (List.append_right_eq_self.1 heq.symm)

theorem Filed.congr (h : Filed root bucket key t)
    (hfiles : ∀ kind : FileKind, kind.Proper →
      t'.file? (place root bucket key kind) = t.file? (place root bucket key kind)) :
    Filed root bucket key t' := by
  intro hist hdoc hocc
  rw [docIn, hfiles .history trivial] at hdoc
  rw [hfiles .payload trivial]
  exact h hist hdoc hocc

/-- The directories that a call on a key may make are no files of a key apart from it. -/
theorem KeysApart.spares_dirs {key' : Str} (h : KeysApart root bucket key' key)
    (hn : Accepted bucket key) (hn' : Accepted bucket key') {k : FileKind} (hk : k.Proper) :
    ∀ p p', KeyWrites bucket key p' → p'.parent = some p →
      ¬ place root bucket key' k <+: p.resolve root := by
  rintro dir p (⟨k₀, hk₀, rfl⟩ | ⟨id, rfl⟩) hparent hpre
  · obtain ⟨dir', x, hdir', hplace⟩ := hn.parent root hk₀
    cases hparent.symm.trans hdir'
    refine h k k₀ hk hk₀ (hpre.trans ?_)
    rw [show (keyPath bucket key k₀).resolve root = _ from hplace]
    exact List.prefix_append _ _
  · rw [tmpFile, parent_joinStr_atom id.atom] at hparent
    cases hparent
    have htmp : tmpDir.resolve root = root ++ [SYS_DIR, TMP] := by
      rw [tmpDir, resolve_joinStr_atom (by decide), resolve_ofStr atom_sysDir.descends,
        atom_sysDir.compsOf]
      simp
    have hsys : SYS_DIR ≠ bucket := fun h0 => ne_sysDir hn.bucket h0.symm
    rw [hn'.place_eq hk, htmp, List.prefix_append_right_inj] at hpre
    cases k <;> simp [treeOf, hsys.symm, show META ≠ TMP by decide,
      show VERSIONS ≠ TMP by decide] at hpre

theorem Clear.deleted {key' : Str} (h : Clear root bucket key' t) (hn' : Accepted bucket key')
    (hn : Accepted bucket key) (hapart : KeysApart root bucket key key')
    (hapart' : KeysApart root bucket key' key) (env : CallEnv) :
    Clear root bucket key' (after root (S.deleteObject env bucket key) t) := by
  have hdocs : DocsIn ProperFsDoc t := fun q j hj => h.docs q j (file?_eq_some.2 hj)
  refine ⟨?_, fun q j hj =>
    (LocalDrive.run_writes (meets_deleteObject env) hdocs).1 q j (file?_eq_some.1 hj)⟩
  rintro p ⟨k, hk, rfl⟩
  have hspares := hapart.spares hn' hk.1
  refine ⟨?_, fun q hq hne => ?_⟩
  · exact LocalDrive.run_writes_not_dir (meets_deleteObject env) hdocs hspares
      (hapart'.spares_dirs hn hn' hk.1) (h.aside _ ⟨k, hk, rfl⟩).1
  · rw [file?_deleteObject hdocs env fun p hp hpre => hspares p hp (hpre.trans hq)]
    exact (h.aside _ ⟨k, hk, rfl⟩).2 q hq hne

theorem Settled.deleted {key' : Str} (h : Settled root bucket key' t)
    (hdocs : DocsIn ProperFsDoc t) (hn' : Accepted bucket key') (hn : Accepted bucket key)
    (hapart : KeysApart root bucket key key') (hapart' : KeysApart root bucket key' key)
    (env : CallEnv) :
    Settled root bucket key' (after root (S.deleteObject env bucket key) t) := by
  have hspares := hapart.spares hn' (k := .history) trivial
  rcases h with hnone | hocc
  · exact .inl (LocalDrive.run_writes_none (meets_deleteObject env) hdocs hspares
      (hapart'.spares_dirs hn hn' (k := .history) trivial) hnone)
  · refine .inr ?_
    unfold historyIn docIn at hocc ⊢
    rwa [file?_deleteObject hdocs env hspares]

end FsStore

end Kerplace
