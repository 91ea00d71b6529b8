/-
# `Kerplace.Fs.Copies` — what a copy makes of a damaged payload

A copy streams its source to a temporary file and moves that into place.  Of a damaged
container the stream ends at the first chunk that does not open, as it ends after the last
one, and what came before is installed as an object of its own.  With nothing in the way of
the destination's files nothing else goes wrong: every step from the temporary file on
succeeds, whatever the bucket's versioning mode.
-/
import Kerplace.Fs.Buckets
import Kerplace.Lib.Leaves
import Kerplace.Erasure.Copies

namespace Kerplace

open FileTree Prog UnixPath

namespace FsStore

variable {S : FsStore} {root : List Str} {bucket key : Str} {t t' : Tree FsDoc}
  {k k' : FileKind}

/-! ## The files a write makes -/

/-- A kind of file that a write may make. -/
def FileKind.Made (k : FileKind) : Prop := k.Proper ∧ ∀ suffix, k ≠ .sidecar suffix

/-- Where a kind of file lies. -/
def place (root : List Str) (bucket key : Str) (k : FileKind) : List Str :=
  (keyPath bucket key k).resolve root

/-- Where a write to a key may put a file. -/
def Places (root : List Str) (bucket key : Str) (p : List Str) : Prop :=
  ∃ k : FileKind, k.Made ∧ p = place root bucket key k

/-- The names the store accepts. -/
structure Accepted (bucket key : Str) : Prop where
  bucket : validateBucketName bucket = .ok ()
  key : validateKey key = .ok ()

theorem Accepted.place_eq (h : Accepted bucket key) (hk : k.Proper) :
    place root bucket key k = root ++ (treeOf bucket k ++ compsBelow key k) := by
  rw [place, resolve_keyPath (validateBucketName_atom h.bucket) h.key hk,
    List.append_assoc]

theorem Accepted.place_ne (h : Accepted bucket key) (hk : k.Proper) (hk' : k'.Proper)
    (htree : treeOf bucket k ≠ treeOf bucket k') :
    place root bucket key k ≠ place root bucket key k' := by
  have hsys : bucket ≠ SYS_DIR := ne_sysDir h.bucket
  have hmeta : META ≠ VERSIONS := by decide
  rw [h.place_eq hk, h.place_eq hk', Ne, List.append_cancel_left_eq]
  intro h0
  cases k <;> cases k' <;>
    simp_all [treeOf, hsys.symm, hmeta.symm]

theorem Accepted.antichain (h : Accepted bucket key) : Antichain (Places root bucket key) := by
  have hsys : bucket ≠ SYS_DIR := ne_sysDir h.bucket
  have hmeta : META ≠ VERSIONS := by decide
  rintro p q ⟨k, ⟨hk, hs⟩, rfl⟩ ⟨k', ⟨hk', hs'⟩, rfl⟩ hpre
  rw [h.place_eq hk, h.place_eq hk'] at hpre ⊢
  rw [List.prefix_append_right_inj] at hpre
  rw [List.append_cancel_left_eq]
  cases k <;> cases k' <;>
    simp_all [treeOf, compsBelow, hsys.symm, hmeta.symm]

theorem Accepted.parent (root : List Str) (h : Accepted bucket key) (hk : k.Proper) :
    ∃ dir x, (keyPath bucket key k).parent = some dir ∧
      place root bucket key k = dir.resolve root ++ [x] := by
  have hplain := keyPath_plain (validateBucketName_atom h.bucket) h.key hk
  have hcomps : (keyPath bucket key k).comps ≠ [] := by
    intro h0
    have hplace : place [] bucket key k = _ := h.place_eq hk
    rw [place, hplain.resolve, h0] at hplace
    cases k <;> simp [treeOf] at hplace
  have hparent : Plain ⟨(keyPath bucket key k).abs, (keyPath bucket key k).comps.dropLast⟩ :=
    ⟨hplain.1, fun hmem => hplain.2 (List.mem_of_mem_dropLast hmem)⟩
  refine ⟨_, (keyPath bucket key k).comps.getLast hcomps, by rw [UnixPath.parent,
    if_neg hcomps], ?_⟩
  rw [place, hplain.resolve, hparent.resolve, List.append_assoc,
    List.dropLast_append_getLast]

/-! ## A destination with nothing in its way -/

/-- Nothing stands in the way of the files a write makes, and the documents are such as the
store writes. -/
structure Clear (root : List Str) (bucket key : Str) (t : Tree FsDoc) : Prop where
  aside : t.SetAside (Places root bucket key)
  docs : ∀ q j, t.file? q = some (.doc j) → ProperFsDoc j

namespace Clear

theorem mkParent (h : Clear root bucket key t) (hn : Accepted bucket key) (hk : k.Made) :
    ∃ t', (FsStore.mkParent (keyPath bucket key k)).exec (LocalDrive.step root) t = (true, t') ∧
      Clear root bucket key t' ∧ (∀ q, t'.file? q = t.file? q) ∧
      ∃ dir x, place root bucket key k = dir ++ [x] ∧ t'.look dir = some .dir := by
  obtain ⟨dir, x, hpar, hplace⟩ := hn.parent root hk.1
  have hmem : Places root bucket key (dir.resolve root ++ [x]) := ⟨k, hk, hplace.symm⟩
  obtain ⟨t₁, h₁⟩ := Option.isSome_iff_exists.1 (h.aside.mkdir_isSome hmem)
  have hfile := file?_createDirAll h₁
  refine ⟨t₁, ?_, ⟨h.aside.mkdir hn.antichain hmem h₁, fun q j hj => h.docs q j ?_⟩, hfile, _, x,
    hplace, ?_⟩
  · unfold FsStore.mkParent
    rw [hpar]
    exact LocalDrive.attempt_some h₁
  · rw [← hfile, hj]
  · rw [look_createDirAll h₁, if_pos (List.prefix_refl _)]

/-- Writing a document. -/
theorem write (h : Clear root bucket key t) (hn : Accepted bucket key) (hk : k.Made)
    {doc : FsDoc} (hdoc : ProperFsDoc doc) (mkdirErr writeErr : S3Error) :
    ∃ t', runE (LocalDrive.step root) (writeDoc mkdirErr writeErr (keyPath bucket key k) doc) t =
        (.ok (), t') ∧ Clear root bucket key t' ∧
      ∀ q, t'.file? q = if q = place root bucket key k then some (.doc doc) else t.file? q := by
  obtain ⟨t₁, hmk, h₁, hfile₁, dir, x, hplace, hdir⟩ := h.mkParent hn hk
  have hmem : Places root bucket key (place root bucket key k) := ⟨k, hk, rfl⟩
  obtain ⟨t₂, h₂⟩ : ∃ t₂, t₁.write (place root bucket key k) (.doc doc) = some t₂ := by
    rw [hplace] at hmem ⊢
    exact Option.isSome_iff_exists.1 (FileTree.write_isSome.2 ⟨hdir, (h₁.aside _ hmem).1⟩)
  have hfile : ∀ q, t₂.file? q =
      if q = place root bucket key k then some (.doc doc) else t.file? q := by
    intro q
    rw [file?_write h₂, hfile₁]
  refine ⟨t₂, ?_, ⟨h₁.aside.write hn.antichain hmem h₂, fun q j hj => ?_⟩, hfile⟩
  · rw [writeDoc, runE_bind, run_orFail, hmk, if_pos rfl, andThen_ok, run_orFail,
      LocalDrive.exec_write, show t₁.write ((keyPath bucket key k).resolve root) (.doc doc) = _
        from h₂]
    rfl
  · rw [hfile] at hj
    split at hj
    · cases hj
      exact hdoc
    · exact h.docs q j hj

/-- Moving a file to where one is to be made, in a directory that is there. -/
theorem rename (h : Clear root bucket key t) (hn : Accepted bucket key) (hk : k.Made)
    {src : UnixPath} {c : Content FsDoc} (hsrc : t.file? (src.resolve root) = some c)
    (hne : src.resolve root ≠ place root bucket key k)
    (hdir : ∃ dir x, place root bucket key k = dir ++ [x] ∧ t.look dir = some .dir) :
    ∃ t', (Drive.rename src (keyPath bucket key k)).exec (LocalDrive.step root) t = (true, t') ∧
      Clear root bucket key t' ∧
      ∀ q, t'.file? q = if q = place root bucket key k then some c
        else if q = src.resolve root then none else t.file? q := by
  obtain ⟨dir, x, hplace, hdir⟩ := hdir
  have hmem : Places root bucket key (place root bucket key k) := ⟨k, hk, rfl⟩
  obtain ⟨t', ht, haside, hfile⟩ : ∃ t', t.rename (src.resolve root)
      (place root bucket key k) = some t' ∧ t'.SetAside (Places root bucket key) ∧ ∀ q,
        t'.file? q = if q = place root bucket key k then some c
          else if q = src.resolve root then none else t.file? q := by
    rw [hplace] at hmem hne ⊢
    exact h.aside.rename hn.antichain hmem hsrc hdir hne
  refine ⟨t', LocalDrive.attempt_some ht, ⟨haside, fun q j hj => ?_⟩, hfile⟩
  rw [hfile] at hj
  split at hj
  · rw [Option.some.inj hj] at hsrc
    exact h.docs _ j hsrc
  · split at hj
    · cases hj
    · exact h.docs q j hj

/-- Moving a file of the key, if it is there and can be moved. -/
theorem tryRename (h : Clear root bucket key t) (hn : Accepted bucket key) (hk : k.Made)
    (hk' : k'.Made) (hne : place root bucket key k ≠ place root bucket key k') :
    ∃ t', ((Drive.rename (keyPath bucket key k) (keyPath bucket key k')).exec
        (LocalDrive.step root) t).2 = t' ∧ Clear root bucket key t' ∧
      ∀ q, q ≠ place root bucket key k → q ≠ place root bucket key k' →
        t'.file? q = t.file? q := by
  cases ht : t.rename (place root bucket key k) (place root bucket key k') with
  | none => exact ⟨t, congrArg Prod.snd (LocalDrive.attempt_none ht), h, fun _ _ _ => rfl⟩
  | some t' =>
      obtain ⟨c, hsrc⟩ : ∃ c, t.file? (place root bucket key k) = some c := by
        cases hlook : t.look (place root bucket key k) with
        | none => exact absurd hlook (rename_src ht)
        | some x =>
            cases x with
            | dir => exact absurd hlook (h.aside _ ⟨k, hk, rfl⟩).1
            | file c => exact ⟨c, file?_eq_some.2 hlook⟩
      obtain ⟨hnil, -, hdir, -⟩ := (rename_isSome hne).1 (Option.isSome_of_eq_some ht)
      obtain ⟨t₁, hexec, h₁, hfile⟩ := h.rename hn hk' hsrc hne
        ⟨_, _, (List.dropLast_append_getLast hnil).symm, isDir_iff.1 hdir⟩
      exact ⟨t₁, congrArg Prod.snd hexec, h₁, fun q hq hq' =>
        (hfile q).trans ((if_neg hq').trans (if_neg hq))⟩

theorem remove (h : Clear root bucket key t) (k : FileKind) :
    ∃ t', ((Drive.removeFile (keyPath bucket key k)).exec (LocalDrive.step root) t).2 = t' ∧
      Clear root bucket key t' ∧
      ∀ q, t'.file? q = if q = place root bucket key k then none else t.file? q := by
  have hfile := file?_removeFile_getD t (place root bucket key k)
  refine ⟨_, rfl, ⟨?_, fun q j hj => ?_⟩, hfile⟩
  · show ((t.removeFile (place root bucket key k)).getD t).SetAside _
    cases ht : t.removeFile (place root bucket key k) with
    | none => exact h.aside
    | some t' => exact h.aside.removeFile ht
  · have hj' : ((t.removeFile (place root bucket key k)).getD t).file? q = some (.doc j) := hj
    rw [hfile] at hj'
    split at hj'
    · cases hj'
    · exact h.docs q j hj'

end Clear

/-- A payload is staged, and nothing is in its way. -/
structure Ready (root : List Str) (bucket key : Str) (tmp : List Str) (data : Bytes)
    (t : Tree FsDoc) : Prop extends Clear root bucket key t where
  staged : t.file? tmp = some (.raw data)
  apart : ∀ k : FileKind, k.Proper → tmp ≠ place root bucket key k

/-! ## The bookkeeping succeeds -/

/-- Where the history has a newest version that is no delete marker, its payload is there. -/
def Filed (root : List Str) (bucket key : Str) (t : Tree FsDoc) : Prop :=
  ∀ h, docIn FsDoc.history? t (place root bucket key .history) = some h →
    canonicalOccupied h = true → (t.file? (place root bucket key .payload)).isSome = true

theorem made_payload : FileKind.payload.Made := ⟨trivial, fun _ => by simp⟩

theorem made_metadata : FileKind.metadata.Made := ⟨trivial, fun _ => by simp⟩

theorem made_history : FileKind.history.Made := ⟨trivial, fun _ => by simp⟩

theorem made_data {vid : Str} (hv : ProperId vid) : (FileKind.archivedData vid).Made :=
  ⟨hv, fun _ => by simp⟩

theorem made_meta {vid : Str} (hv : ProperId vid) : (FileKind.archivedMeta vid).Made :=
  ⟨hv, fun _ => by simp⟩

theorem Accepted.payload_ne (hn : Accepted bucket key) (hk : k.Proper)
    (h : treeOf bucket k ≠ [bucket]) :
    place root bucket key .payload ≠ place root bucket key k :=
  hn.place_ne trivial hk h.symm

theorem run_outcome {α : Type} (p : FStore α) (t : Tree FsDoc) :
    runE (LocalDrive.step root) (outcome p) t =
      (.ok (runE (LocalDrive.step root) p t).1, (runE (LocalDrive.step root) p t).2) :=
  runE_lift p.run t

/-- No file but those that a write makes has changed. -/
def Elsewhere (root : List Str) (bucket key : Str) (t t' : Tree FsDoc) : Prop :=
  ∀ q, ¬ Places root bucket key q → t'.file? q = t.file? q

theorem Elsewhere.trans {t'' : Tree FsDoc} (h : Elsewhere root bucket key t t')
    (h' : Elsewhere root bucket key t' t'') : Elsewhere root bucket key t t'' :=
  fun q hq => (h' q hq).trans (h q hq)

theorem Ready.keep {tmp : List Str} {data : Bytes} (h : Ready root bucket key tmp data t)
    (hc : Clear root bucket key t') (hsame : Elsewhere root bucket key t t') :
    Ready root bucket key tmp data t' :=
  ⟨hc, (hsame tmp fun ⟨k, hk, heq⟩ => h.apart k hk.1 heq).trans h.staged, h.apart⟩

namespace Clear

theorem remove_elsewhere (hk : k.Made)
    (hfile : ∀ q, t'.file? q = if q = place root bucket key k then none else t.file? q) :
    Elsewhere root bucket key t t' :=
  fun q hq => (hfile q).trans (if_neg fun heq => hq ⟨k, hk, heq⟩)

/-- A key without a history gets one, if it has a current object. -/
theorem seed (h : Clear root bucket key t) (hn : Accepted bucket key) :
    ∃ t', runE (LocalDrive.step root) (S.seedLegacyHistory bucket key) t = (.ok (), t') ∧
      Clear root bucket key t' ∧
      (t' = t ∧ ((t.look (place root bucket key .history)).isSome = true ∨
          t.file? (place root bucket key .payload) = none) ∨
        (t.file? (place root bucket key .payload)).isSome = true ∧ ∃ m, ∀ q, t'.file? q =
          if q = place root bucket key .history then some (.doc (.history ⟨[legacyEntry m]⟩))
          else t.file? q) := by
  have hhas : runE (LocalDrive.step root) (hasHistory bucket key) t =
      (.ok (t.look (place root bucket key .history)).isSome, t) := by
    rw [hasHistory, run_onDisk, map_eq_pure_bind, Prog.exec_bind, LocalDrive.exec_stat]
    show (Except.ok ((t.look (place root bucket key .history)).map DriveStat.of).isSome, t) = _
    rw [Option.isSome_map]
  rw [seedLegacyHistory, runE_bind, hhas, andThen_ok]
  cases hlook : t.look (place root bucket key .history) with
  | some x => exact ⟨t, rfl, h, .inl ⟨rfl, .inl rfl⟩⟩
  | none =>
      rw [Option.isSome_none, if_neg Bool.false_ne_true, runE_bind, run_outcome, run_readStored,
        andThen_ok]
      have hpayload : place root bucket key .payload = (objectPath bucket key).resolve root := rfl
      unfold storedIn
      rw [← hpayload]
      cases hp : t.file? (place root bucket key .payload) with
      | none => exact ⟨t, rfl, h, .inl ⟨rfl, .inr rfl⟩⟩
      | some c =>
          have hdoc : ∀ m, ProperFsDoc (.history ⟨[legacyEntry m]⟩) := fun m hist h0 v hv => by
            cases h0
            rw [List.mem_singleton.1 hv]
            exact .inl rfl
          obtain ⟨t', hrun, h', hfile⟩ := h.write hn made_history (hdoc _)
            (.internal "mkdir versions") (.internal "write history")
          exact ⟨t', hrun, h', .inr ⟨rfl, _, hfile⟩⟩

end Clear

/-- The history that is read. -/
def historyIn (root : List Str) (bucket key : Str) (t : Tree FsDoc) : VersionHistory :=
  (docIn FsDoc.history? t (place root bucket key .history)).getD ⟨[]⟩

theorem run_readHistory : runE (LocalDrive.step root) (readHistory bucket key) t =
    (.ok (historyIn root bucket key t), t) := rfl

theorem historyIn_of_file {hist : VersionHistory}
    (h : t.file? (place root bucket key .history) = some (.doc (.history hist))) :
    historyIn root bucket key t = hist := by
  unfold historyIn docIn
  rw [h]
  rfl

theorem Filed.occupied (h : Filed root bucket key t)
    (hocc : canonicalOccupied (historyIn root bucket key t) = true) :
    (t.file? (place root bucket key .payload)).isSome = true := by
  unfold historyIn at hocc
  cases hd : docIn FsDoc.history? t (place root bucket key .history) with
  | none =>
      rw [hd] at hocc
      cases hocc
  | some hist =>
      rw [hd] at hocc
      exact h hist hd hocc

namespace Clear

theorem proper (h : Clear root bucket key t) : ProperVersions (historyIn root bucket key t) := by
  unfold historyIn docIn
  cases hfile : t.file? (place root bucket key .history) with
  | none => exact fun v hv => by cases hv
  | some c =>
      cases c with
      | raw b => exact fun v hv => by cases hv
      | doc j =>
          cases j with
          | history hist => exact h.docs _ _ hfile hist rfl
          | _ => exact fun v hv => by cases hv

/-- What seeding leaves: the payload as it was, and a history that knows of it if the one there
was did. -/
theorem seeded (h : Clear root bucket key t) (hn : Accepted bucket key)
    (hf : Filed root bucket key t) :
    ∃ t', runE (LocalDrive.step root) (S.seedLegacyHistory bucket key) t = (.ok (), t') ∧
      Clear root bucket key t' ∧ Filed root bucket key t' ∧ Elsewhere root bucket key t t' ∧
      t'.file? (place root bucket key .payload) = t.file? (place root bucket key .payload) ∧
      ((t.file? (place root bucket key .payload)).isSome = true →
        t.look (place root bucket key .history) = none ∨
          canonicalOccupied (historyIn root bucket key t) = true →
        canonicalOccupied (historyIn root bucket key t') = true) := by
  obtain ⟨t', hrun, h', ⟨rfl, hkept⟩ | ⟨hp, m, hfile⟩⟩ := h.seed (S := S) hn
  · refine ⟨t', hrun, h', hf, fun _ _ => rfl, rfl,
      fun hsome hor => hor.resolve_left fun hnone => ?_⟩
    rcases hkept with hlook | hpayload
    · rw [hnone] at hlook
      cases hlook
    · rw [hpayload] at hsome
      cases hsome
  · have hsame : t'.file? (place root bucket key .payload) =
        t.file? (place root bucket key .payload) :=
      (hfile _).trans (if_neg (hn.payload_ne (k := .history) trivial (by simp [treeOf])))
    refine ⟨t', hrun, h', fun _ _ _ => by rwa [hsame], fun q hq => (hfile q).trans (if_neg
      fun heq => hq ⟨.history, made_history, heq⟩), hsame, fun _ _ => ?_⟩
    rw [historyIn_of_file ((hfile _).trans (if_pos rfl))]
    rfl

/-- A purge leaves the payload if it leaves the current slot taken, and else removes it. -/
theorem purge (h : Clear root bucket key t) (hn : Accepted bucket key)
    (mode : VMode) {hist : VersionHistory} (hh : ProperVersions hist) :
    ∃ r t', runE (LocalDrive.step root) (purgeNull bucket key mode hist) t = (.ok r, t') ∧
      Clear root bucket key t' ∧ Elsewhere root bucket key t t' ∧ ProperVersions r.1 ∧
      (r.2 = true → canonicalOccupied hist = true ∧
        t'.file? (place root bucket key .payload) = t.file? (place root bucket key .payload)) ∧
      (canonicalOccupied hist = true →
        r.2 = true ∧ r.1.versions ≠ [] ∨ t'.file? (place root bucket key .payload) = none) := by
  have hsome : canonicalOccupied hist = true → hist.versions ≠ [] := fun hocc hnil => by
    rw [canonicalOccupied, hnil] at hocc
    cases hocc
  unfold purgeNull
  dsimp only
  split
  · exact ⟨_, t, rfl, h, fun _ _ => rfl, hh, fun hocc => ⟨hocc, rfl⟩,
      fun hocc => .inl ⟨hocc, hsome hocc⟩⟩
  · split
    · exact ⟨_, t, rfl, h, fun _ _ => rfl, hh, fun hocc => ⟨hocc, rfl⟩,
        fun hocc => .inl ⟨hocc, hsome hocc⟩⟩
    · rename_i idx hidx
      have hrest := properVersions_eraseIdx hh idx
      split
      · obtain ⟨t₁, ht₁, h₁, hfile₁⟩ := h.remove .payload
        obtain ⟨t₂, ht₂, h₂, hfile₂⟩ := h₁.remove .metadata
        refine ⟨(⟨hist.versions.eraseIdx idx⟩, false), t₂, ?_, h₂,
          (remove_elsewhere made_payload hfile₁).trans (remove_elsewhere made_metadata hfile₂),
          hrest, fun hocc => absurd hocc Bool.false_ne_true, fun _ => .inr ?_⟩
        · rw [← ht₂, ← ht₁]
          rfl
        · rw [hfile₂, if_neg (hn.payload_ne (k := .metadata) trivial (by simp [treeOf])), hfile₁,
            if_pos rfl]
      · rename_i hnot
        -- the newest entry stays
        have hleft : canonicalOccupied hist = true → hist.versions.eraseIdx idx ≠ [] := by
          intro hocc hnil
          rw [hocc, Bool.and_true, decide_eq_true_eq] at hnot
          obtain ⟨i, rfl⟩ := Nat.exists_eq_succ_of_ne_zero hnot
          obtain ⟨v, vs, hvs⟩ := List.exists_cons_of_ne_nil (hsome hocc)
          rw [hvs] at hnil
          cases hnil
        split
        · obtain ⟨t₁, ht₁, h₁, hfile₁⟩ := h.remove (.archivedData NULL)
          obtain ⟨t₂, ht₂, h₂, hfile₂⟩ := h₁.remove (.archivedMeta NULL)
          have hnull : ProperId NULL := .inl rfl
          refine ⟨(⟨hist.versions.eraseIdx idx⟩, canonicalOccupied hist), t₂, ?_, h₂,
            (remove_elsewhere (made_data hnull) hfile₁).trans
              (remove_elsewhere (made_meta hnull) hfile₂), hrest, fun hocc => ⟨hocc, ?_⟩,
            fun hocc => .inl ⟨hocc, hleft hocc⟩⟩
          · rw [← ht₂, ← ht₁]
            rfl
          · rw [hfile₂, if_neg (hn.payload_ne (k := .archivedMeta NULL) hnull (by simp [treeOf])),
              hfile₁, if_neg (hn.payload_ne (k := .archivedData NULL) hnull (by simp [treeOf]))]
        · exact ⟨_, t, rfl, h, fun _ _ => rfl, hrest, fun hocc => ⟨hocc, rfl⟩,
            fun hocc => .inl ⟨hocc, hleft hocc⟩⟩

/-- Archiving the current version. -/
theorem demote (h : Clear root bucket key t) (hn : Accepted bucket key)
    {vid : Str} (hv : ProperId vid)
    (hpayload : (t.file? (place root bucket key .payload)).isSome = true) :
    ∃ t', runE (LocalDrive.step root) (demoteCanonical bucket key vid) t = (.ok (), t') ∧
      Clear root bucket key t' ∧ Elsewhere root bucket key t t' ∧
      t'.file? (place root bucket key .payload) = none := by
  obtain ⟨t₁, hmk, h₁, hfile₁, hdir₁⟩ := h.mkParent hn (made_data hv)
  obtain ⟨c, hc⟩ := Option.isSome_iff_exists.1 hpayload
  have hsrc : t₁.file? ((objectPath bucket key).resolve root) = some c := (hfile₁ _).trans hc
  have hne : place root bucket key .payload ≠ place root bucket key (.archivedData vid) :=
    hn.payload_ne hv (by simp [treeOf])
  obtain ⟨t₂, hmove, h₂, hfile₂⟩ := h₁.rename hn (made_data hv) hsrc hne hdir₁
  have hmoved : ∀ q, t₂.file? q = if q = place root bucket key (.archivedData vid) then some c
      else if q = place root bucket key .payload then none else t₁.file? q := hfile₂
  obtain ⟨t₃, ht₃, h₃, hfile₃⟩ := h₂.tryRename hn made_metadata (made_meta hv)
    (hn.place_ne trivial hv (by simp [treeOf, show META ≠ VERSIONS by decide]))
  refine ⟨t₃, ?_, h₃, fun q hq => ?_, ?_⟩
  · have hmk' : (FsStore.mkParent (versionDataPath bucket key vid)).exec (LocalDrive.step root)
        t = (true, t₁) := hmk
    have hmove' : (Drive.rename (objectPath bucket key) (versionDataPath bucket key vid)).exec
        (LocalDrive.step root) t₁ = (true, t₂) := hmove
    rw [demoteCanonical, runE_bind, run_orFail, hmk', if_pos rfl, andThen_ok, runE_bind,
      run_orFail, hmove', if_pos rfl, andThen_ok, ← ht₃]
    rfl
  · have hother : ∀ {k : FileKind}, k.Made → q ≠ place root bucket key k :=
      fun hk heq => hq ⟨_, hk, heq⟩
    rw [hfile₃ q (hother made_metadata) (hother (made_meta hv)), hmoved,
      if_neg (hother (made_data hv)), if_neg (hother made_payload), hfile₁]
  · rw [hfile₃ _ (hn.payload_ne (k := .metadata) trivial (by simp [treeOf]))
      (hn.payload_ne (k := .archivedMeta vid) hv (by simp [treeOf])), hmoved, if_neg hne,
      if_pos rfl]

/-- Room is made by taking away the payload, if the history knows of it. -/
theorem makeRoom (h : Clear root bucket key t) (hn : Accepted bucket key)
    (mode : VMode) {hist : VersionHistory} (hh : ProperVersions hist)
    (hocc : canonicalOccupied hist = true →
      (t.file? (place root bucket key .payload)).isSome = true) :
    ∃ hist' t', runE (LocalDrive.step root) (makeRoom bucket key mode hist) t =
        (.ok hist', t') ∧ Clear root bucket key t' ∧ Elsewhere root bucket key t t' ∧
      ProperVersions hist' ∧
      (canonicalOccupied hist = true → t'.file? (place root bucket key .payload) = none) := by
  obtain ⟨⟨hist', occupied⟩, t₁, hpurge, h₁, helse₁, hh', hleft, htaken⟩ := h.purge hn mode hh
  rw [FsStore.makeRoom, runE_bind, hpurge, andThen_ok]
  dsimp only
  split
  · rename_i v vs hvs
    obtain ⟨hhad, hsame⟩ := hleft rfl
    have hv : ProperId v.versionId := hh' v (by
      dsimp only
      rw [hvs]
      exact List.mem_cons_self)
    obtain ⟨t₂, hdemote, h₂, helse₂, hgone⟩ := h₁.demote hn hv (by rw [hsame]; exact hocc hhad)
    refine ⟨hist', t₂, ?_, h₂, helse₁.trans helse₂, hh', fun _ => hgone⟩
    rw [runE_bind, hdemote]
    rfl
  · rename_i hnot
    refine ⟨hist', t₁, rfl, h₁, helse₁, hh', fun hhad => (htaken hhad).resolve_left ?_⟩
    rintro ⟨hocc', hne⟩
    obtain ⟨v, vs, hvs⟩ := List.exists_cons_of_ne_nil hne
    exact hnot v vs hocc' hvs

end Clear

section

variable {tmp : List Str} {data : Bytes}

/-- A version can be begun. -/
theorem Ready.begin (h : Ready root bucket key tmp data t) (hn : Accepted bucket key)
    (hf : Filed root bucket key t) (env : CallEnv) (mode : VMode) :
    ∃ pending t', runE (LocalDrive.step root) (S.beginWrite env bucket key mode) t =
        (.ok pending, t') ∧ Ready root bucket key tmp data t' ∧
      ∀ r, pending = some r → ProperId r.1 ∧ ProperVersions r.2 := by
  unfold beginWrite
  split
  · exact ⟨none, t, rfl, h, fun r h0 => by cases h0⟩
  · obtain ⟨t₁, hseed, h₁, hf₁, helse₁, -, -⟩ := h.toClear.seeded (S := S) hn hf
    obtain ⟨hist, t₂, hroom, h₂, helse₂, hh, -⟩ := h₁.makeRoom hn mode h₁.proper hf₁.occupied
    refine ⟨some (newVersionId env mode, hist), t₂, ?_, h.keep h₂ (helse₁.trans helse₂),
      fun r h0 => ?_⟩
    · rw [map_eq_pure_bind, runE_bind, beginVersionedWrite, runE_bind, hseed, andThen_ok,
        runE_bind, run_readHistory, andThen_ok, runE_bind, hroom]
      rfl
    · cases h0
      exact ⟨properId_new env mode, hh⟩

/-- From a staged payload to the current object, nothing fails. -/
theorem Ready.install {id : Uuid}
    (h : Ready root bucket key ((tmpFile id).resolve root) data t) (hn : Accepted bucket key)
    (hf : Filed root bucket key t) (env : CallEnv) (etag : Str) (size : Nat)
    (contentType : Str) (userMetadata : UserMeta) (encrypted : Bool) :
    ∃ om m t', runE (LocalDrive.step root) (S.install env bucket key (tmpFile id) etag size
        contentType userMetadata encrypted (pure ())) t = (.ok om, t') ∧
      t'.file? (place root bucket key .payload) = some (.raw data) ∧
      t'.file? (place root bucket key .metadata) = some (.doc (.stored m)) ∧
      m.encrypted = encrypted := by
  obtain ⟨mode, hmode⟩ : ∃ mode, runE (LocalDrive.step root) (versioningMode bucket) t =
      (.ok mode, t) := ⟨_, rfl⟩
  obtain ⟨pending, t₁, hbegin, h₁, hp⟩ := h.begin (S := S) hn hf env mode
  obtain ⟨t₂, hmk, h₂, hfile₂, hdir₂⟩ := h₁.mkParent hn made_payload
  obtain ⟨t₃, hmove, h₃, hfile₃⟩ := h₂.rename hn made_payload
    ((hfile₂ _).trans h₁.staged) (h.apart .payload trivial) hdir₂
  let m : StoredMeta :=
    ⟨etag, size, contentType, userMetadata, env.now, encrypted, pending.map Prod.fst⟩
  have hm : ProperFsDoc (.stored m) := fun _ h0 => by cases h0
  obtain ⟨t₄, hmeta, h₄, hfile₄⟩ := h₃.write hn made_metadata hm (.internal "mkdir meta")
    (.internal "write meta")
  have hne : place root bucket key .payload ≠ place root bucket key .metadata :=
    hn.payload_ne trivial (by simp [treeOf])
  have hpayload : t₄.file? (place root bucket key .payload) = some (.raw data) := by
    rw [hfile₄, if_neg hne, hfile₃, if_pos rfl]
  have hstored : t₄.file? (place root bucket key .metadata) = some (.doc (.stored m)) := by
    rw [hfile₄, if_pos rfl]
  -- The history is written last, elsewhere.
  obtain ⟨t₅, hfinish, hsame⟩ : ∃ t₅, runE (LocalDrive.step root)
      (finishWrite bucket key pending etag size env.now) t₄ = (.ok (), t₅) ∧
      ∀ q, q ≠ place root bucket key .history → t₅.file? q = t₄.file? q := by
    cases pending with
    | none => exact ⟨t₄, rfl, fun _ _ => rfl⟩
    | some r =>
        obtain ⟨vid, hist⟩ := r
        obtain ⟨hv, hh⟩ := hp _ rfl
        have hnew : ProperFsDoc (.history ⟨⟨vid, false, env.now, etag, size⟩ ::
            hist.versions⟩) := by
          intro h' h0 v hmem
          cases h0
          rcases List.mem_cons.1 hmem with rfl | hmem
          · exact hv
          · exact hh v hmem
        obtain ⟨t₅, hwrite, -, hfile₅⟩ := h₄.write hn made_history hnew
          (.internal "mkdir versions") (.internal "write history")
        exact ⟨t₅, hwrite, fun q hq => (hfile₅ q).trans (if_neg hq)⟩
  refine ⟨storedToMeta key m, m, t₅, ?_, ?_, ?_, rfl⟩
  · have hmk' : (FsStore.mkParent (objectPath bucket key)).exec (LocalDrive.step root) t₁ =
        (true, t₂) := hmk
    have hmove' : (Drive.rename (tmpFile id) (objectPath bucket key)).exec
        (LocalDrive.step root) t₂ = (true, t₃) := hmove
    have hmeta' : runE (LocalDrive.step root) (writeMeta bucket key m) t₃ = (.ok (), t₄) := hmeta
    rw [FsStore.install, runE_bind, hmode, andThen_ok, runE_bind, hbegin, andThen_ok, runE_bind,
      moveIntoPlace, runE_bind, run_orFail, hmk', if_pos rfl, andThen_ok, run_orFail, hmove',
      if_pos rfl, andThen_ok]
    dsimp only
    rw [runE_bind, hmeta', andThen_ok, runE_bind, run_onDisk, andThen_ok, runE_bind]
    show andThen (runE (LocalDrive.step root)
      (finishWrite bucket key pending etag size env.now) t₄) _ = _
    rw [hfinish]
    rfl
  · rw [hsame _ (hn.payload_ne (k := .history) trivial (by simp [treeOf])), hpayload]
  · have hother : place root bucket key .metadata ≠ place root bucket key .history :=
      hn.place_ne trivial trivial (by simp [treeOf, show META ≠ VERSIONS by decide])
    rw [hsame _ hother, hstored]

end

/-! ## The copy -/

/-- A copy is whole or fails: acknowledged, it can be read back as `plain`; refused, it has
left the destination's files as they were. -/
structure CopiesWhole (S : FsStore) (root : List Str) (env : FsEnv)
    (srcBucket srcKey bucket key : Str) (encrypt : Bool) (plain : Bytes) (t : Tree FsDoc) :
    Prop where
  ok : ∀ om t', runE (LocalDrive.step root)
      (S.copyObject env srcBucket srcKey bucket key encrypt) t = (.ok om, t') →
    ∃ m, result root (S.getObject bucket key) t' = .ok (m, plain)
  error : ∀ e t', runE (LocalDrive.step root)
      (S.copyObject env srcBucket srcKey bucket key encrypt) t = (.error e, t') →
    ∀ k : FileKind, k.Proper →
      t'.file? (place root bucket key k) = t.file? (place root bucket key k)

/-- A copy is refused before it writes to the key: there is no such bucket, the key is not
valid, the source does not open, no data key can be minted, or no temporary file can be
made. -/
def CopyRefused (S : FsStore) (root : List Str) (env : FsEnv) (bucket key : Str)
    (encrypt encrypted : Bool) (raw : Bytes) (t : Tree FsDoc) : Prop :=
  t.isDir ((bucketPath bucket).resolve root) = false ∨ validateKey key ≠ .ok () ∨
    S.plainBytes encrypted raw = none ∨
    (S.shouldEncrypt encrypt = true ∧ S.crypto.newWrappedDek env.keyRand = none) ∨
    t.write ((tmpFile env.tmpId).resolve root) (.raw []) = none

/-- Nothing is in the way of the destination. -/
structure Unobstructed (root : List Str) (bucket key : Str) (t : Tree FsDoc) : Prop
    extends Clear root bucket key t where
  filed : Filed root bucket key t

/-- What is stored of a body, encrypted if it is to be. -/
def sourceOf (S : FsStore) (env : CallEnv) (body : Body) (encrypted : Bool) : Option Body :=
  if encrypted then S.crypto.encryptingReader env body else some body

theorem sourceOf_eq_none {env : CallEnv} {body : Body} {encrypted : Bool} :
    S.sourceOf env body encrypted = none ↔
      encrypted = true ∧ S.crypto.newWrappedDek env.keyRand = none := by
  unfold sourceOf Crypto.encryptingReader
  cases encrypted with
  | false => simp
  | true =>
      simp only [if_true, true_and]
      cases S.crypto.newWrappedDek env.keyRand <;> simp

theorem sourceOf_clean {env : CallEnv} {plain : Bytes} {encrypted : Bool} {src : Body}
    (h : S.sourceOf env (.ofBytes plain) encrypted = some src) : src.err = false := by
  unfold sourceOf at h
  cases encrypted with
  | false =>
      cases h
      rfl
  | true =>
      rw [if_pos rfl, Crypto.encryptingReader] at h
      split at h
      · cases h
      · cases h
        rfl

theorem plainBytes_sourceOf (hcr : S.crypto.Lawful) {env : CallEnv} {plain : Bytes}
    {encrypted : Bool} {src : Body} (h : S.sourceOf env (.ofBytes plain) encrypted = some src) :
    S.plainBytes encrypted src.data = some plain := by
  cases encrypted with
  | false =>
      cases h
      rfl
  | true => exact Crypto.decrypting_encrypting hcr h

theorem run_writeSource (env : CallEnv) (body : Body) (encrypted : Bool) :
    runE (LocalDrive.step root) (S.writeSource env body encrypted) t =
      (match S.sourceOf env body encrypted with
        | some src => .ok src
        | none => .error (.internal "encrypt object"), t) := by
  unfold writeSource sourceOf
  cases encrypted with
  | false => rfl
  | true =>
      simp only [if_true]
      cases S.crypto.encryptingReader env body <;> rfl

theorem run_headBucket : runE (LocalDrive.step root) (headBucket bucket) t =
    (if t.isDir ((bucketPath bucket).resolve root) then .ok () else .error .noSuchBucket, t) := by
  rw [headBucket, run_orFail, Prog.exec_bind, LocalDrive.exec_stat]
  unfold FileTree.isDir
  cases t.look ((bucketPath bucket).resolve root) with
  | none => rfl
  | some x => cases x <;> rfl

theorem run_readPayload (p : UnixPath) (missing decryptErr : S3Error) (encrypted : Bool)
    {c : Content FsDoc} (h : t.file? (p.resolve root) = some c) :
    runE (LocalDrive.step root) (S.readPayload p missing decryptErr encrypted) t =
      (match S.plainBytes encrypted (c.bytes?.getD []) with
        | some plain => .ok plain
        | none => .error decryptErr, t) := by
  rw [readPayload, runE_bind, run_onDisk, LocalDrive.exec_read, andThen_ok, h]
  dsimp only
  cases S.plainBytes encrypted (c.bytes?.getD []) <;> rfl

/-- Staging a body that does not break off, once the temporary file is made. -/
theorem run_streamToTemp (env : CallEnv) (tmp : UnixPath) {body : Body} (needMd5 : Bool)
    (hbody : body.err = false) {t₁ : Tree FsDoc}
    (h₁ : t.write (tmp.resolve root) (.raw []) = some t₁) :
    ∃ etag t₂, runE (LocalDrive.step root) (S.streamToTemp env tmp body needMd5) t =
        (.ok (etag, body.data.length), t₂) ∧
      t₁.write (tmp.resolve root) (.raw body.data) = some t₂ := by
  have hmade : t₁.file? (tmp.resolve root) = some (.raw []) :=
    (file?_write h₁ _).trans (if_pos rfl)
  obtain ⟨t₂, h₂⟩ := write_of_file? (.raw body.data) hmade
  have happend : t₁.update (tmp.resolve root) (fun c =>
      c.bytes?.map fun b => Content.raw (b ++ body.data)) = some t₂ := by
    rw [FileTree.update, hmade]
    exact h₂
  refine ⟨if needMd5 then hexEncode (S.md5 body.data) else env.opaqueEtag.text, t₂, ?_, h₂⟩
  rw [streamToTemp, runE_bind, run_orFail, LocalDrive.exec_create, LocalDrive.attempt_some h₁,
    if_pos rfl, andThen_ok, runE_bind, run_orFail, LocalDrive.exec_append,
    LocalDrive.attempt_some happend, if_pos rfl, andThen_ok, runE_bind, run_orFail, hbody]
  rfl

section

variable {srcBucket srcKey : Str} {env : FsEnv} {encrypt : Bool} {plain : Bytes}

theorem copiesWhole_of_ok {om : ObjectMeta} (h : runE (LocalDrive.step root)
    (S.copyObject env srcBucket srcKey bucket key encrypt) t = (.ok om, t')) :
    S.CopiesWhole root env srcBucket srcKey bucket key encrypt plain t ↔
      ∃ m, result root (S.getObject bucket key) t' = .ok (m, plain) := by
  refine ⟨fun hw => hw.ok om t' h, fun hm => ⟨fun om' u hu => ?_, fun e u hu => ?_⟩⟩
  · rw [h] at hu
    cases hu
    exact hm
  · rw [h] at hu
    cases hu

theorem copiesWhole_of_error {e : S3Error} (h : runE (LocalDrive.step root)
    (S.copyObject env srcBucket srcKey bucket key encrypt) t = (.error e, t)) :
    S.CopiesWhole root env srcBucket srcKey bucket key encrypt plain t := by
  refine ⟨fun om u hu => ?_, fun e' u hu k hk => ?_⟩
  · rw [h] at hu
    cases hu
  · rw [h] at hu
    cases hu
    rfl

end

/-- A copy, check by check: it is refused with nothing changed, or what its source opens to
is staged and installed. -/
theorem run_copyObject {srcBucket srcKey : Str} (bucket key : Str) (env : FsEnv)
    (encrypt : Bool) {m : StoredMeta} {c : Content FsDoc}
    (hm : storedIn S root srcBucket srcKey t = .ok m)
    (hc : t.file? (place root srcBucket srcKey .payload) = some c) :
    (CopyRefused S root env bucket key encrypt m.encrypted (c.bytes?.getD []) t ∧
      ∃ e, runE (LocalDrive.step root)
        (S.copyObject env srcBucket srcKey bucket key encrypt) t = (.error e, t)) ∨
    (¬ CopyRefused S root env bucket key encrypt m.encrypted (c.bytes?.getD []) t ∧
      ∃ plain src etag size t₁ t₂, S.plainBytes m.encrypted (c.bytes?.getD []) = some plain ∧
        S.sourceOf env.toCallEnv (.ofBytes plain) (S.shouldEncrypt encrypt) = some src ∧
        t.write ((tmpFile env.tmpId).resolve root) (.raw []) = some t₁ ∧
        t₁.write ((tmpFile env.tmpId).resolve root) (.raw src.data) = some t₂ ∧
        runE (LocalDrive.step root) (S.copyObject env srcBucket srcKey bucket key encrypt) t =
          runE (LocalDrive.step root) (S.install env.toCallEnv bucket key (tmpFile env.tmpId) etag
            size m.contentType m.userMetadata (S.shouldEncrypt encrypt) (pure ())) t₂) := by
  rw [copyObject, runE_bind, run_readStored, hm, andThen_ok, runE_bind, run_headBucket]
  cases hb : t.isDir ((bucketPath bucket).resolve root) with
  | false => exact .inl ⟨.inl hb, _, rfl⟩
  | true =>
  rw [if_pos rfl, andThen_ok, runE_bind, runE_ofExcept]
  cases hk : validateKey key with
  | error e => exact .inl ⟨.inr (.inl (by rw [hk]; simp)), e, rfl⟩
  | ok u =>
  rw [andThen_ok, runE_bind, run_readPayload (objectPath srcBucket srcKey) .noSuchKey
    (.internal "decrypt source") m.encrypted hc]
  cases hplain : S.plainBytes m.encrypted (c.bytes?.getD []) with
  | none => exact .inl ⟨.inr (.inr (.inl hplain)), _, rfl⟩
  | some plain =>
  dsimp only
  rw [andThen_ok, runE_bind, run_writeSource]
  cases hsrc : S.sourceOf env.toCallEnv (.ofBytes plain) (S.shouldEncrypt encrypt) with
  | none => exact .inl ⟨.inr (.inr (.inr (.inl (sourceOf_eq_none.1 hsrc)))), _, rfl⟩
  | some src =>
  dsimp only
  rw [andThen_ok, runE_bind]
  cases htmp : t.write ((tmpFile env.tmpId).resolve root) (.raw []) with
  | none =>
      refine .inl ⟨.inr (.inr (.inr (.inr htmp))), .internal "create temp", ?_⟩
      rw [streamToTemp, runE_bind, run_orFail, LocalDrive.exec_create,
        LocalDrive.attempt_none htmp]
      rfl
  | some t₁ =>
  obtain ⟨etag, t₂, hstage, h₂⟩ := run_streamToTemp (S := S) env.toCallEnv (tmpFile env.tmpId)
    (!S.shouldEncrypt encrypt) (sourceOf_clean hsrc) htmp
  refine .inr ⟨?_, plain, src, etag, S.logicalSize (S.shouldEncrypt encrypt) src.data.length, t₁,
    t₂, rfl, hsrc, rfl, h₂, ?_⟩
  · rintro (h | h | h | h | h)
    · rw [hb] at h
      cases h
    · exact h hk
    · rw [hplain] at h
      cases h
    · rw [sourceOf_eq_none.2 h] at hsrc
      cases hsrc
    · rw [htmp] at h
      cases h
  · rw [hstage, andThen_ok]

/-- With nothing in the way, what a copy that is not refused installs is what its source
opened to. -/
theorem copiesWhole_iff (hcr : S.crypto.Lawful) (hb : validateBucketName bucket = .ok ())
    {srcBucket srcKey : Str} {env : FsEnv} {encrypt : Bool} {m : StoredMeta}
    {c : Content FsDoc} {plain : Bytes} (hm : storedIn S root srcBucket srcKey t = .ok m)
    (hc : t.file? (place root srcBucket srcKey .payload) = some c) :
    (CopyRefused S root env bucket key encrypt m.encrypted (c.bytes?.getD []) t →
      S.CopiesWhole root env srcBucket srcKey bucket key encrypt plain t) ∧
    (Unobstructed root bucket key t →
      (S.CopiesWhole root env srcBucket srcKey bucket key encrypt plain t ↔
        CopyRefused S root env bucket key encrypt m.encrypted (c.bytes?.getD []) t ∨
          S.plainBytes m.encrypted (c.bytes?.getD []) = some plain)) := by
  rcases run_copyObject bucket key env encrypt hm hc with
    ⟨href, e, herr⟩ | ⟨href, b, src, etag, size, t₁, t₂, hplain, hsrc, h₁, h₂, hrun⟩
  · have hwhole : S.CopiesWhole root env srcBucket srcKey bucket key encrypt plain t :=
      copiesWhole_of_error herr
    exact ⟨fun _ => hwhole, fun _ => iff_of_true hwhole (.inl href)⟩
  · refine ⟨fun h => absurd h href, fun hu => ?_⟩
    have hk : validateKey key = .ok () := by
      by_contra h
      exact href (.inr (.inl h))
    have hn : Accepted bucket key := ⟨hb, hk⟩
    -- The temporary file is above none of the key's files.
    have hapart : ∀ k : FileKind, k.Proper →
        ¬ (tmpFile env.tmpId).resolve root <+: place root bucket key k := fun k hk' =>
      tmpFile_apart hb hk hk' env.tmpId root
    have hplaces : ∀ q, Places root bucket key q →
        ¬ (tmpFile env.tmpId).resolve root <+: q := by
      rintro q ⟨k, hmade, rfl⟩
      exact hapart k hmade.1
    have hfile : ∀ q, t₂.file? q = if q = (tmpFile env.tmpId).resolve root then
        some (.raw src.data) else t.file? q := by
      intro q
      rw [file?_write h₂, file?_write h₁]
      split <;> rfl
    have hkept : ∀ k : FileKind, k.Proper →
        t₂.file? (place root bucket key k) = t.file? (place root bucket key k) := by
      intro k hk'
      have hne : place root bucket key k ≠ (tmpFile env.tmpId).resolve root :=
        fun h0 => hapart k hk' (h0 ▸ List.prefix_refl _)
      rw [hfile, if_neg hne]
    have hready : Ready root bucket key ((tmpFile env.tmpId).resolve root) src.data t₂ := by
      refine ⟨⟨(hu.aside.write_apart hplaces h₁).write_apart hplaces h₂, fun q j hj => ?_⟩, ?_,
        fun k hk' h0 => hapart k hk' (h0 ▸ List.prefix_refl _)⟩
      · rw [hfile] at hj
        split at hj
        · cases hj
        · exact hu.docs q j hj
      · rw [hfile, if_pos rfl]
    have hfiled : Filed root bucket key t₂ := by
      intro h hh hocc
      unfold docIn at hh
      rw [hkept .history trivial] at hh
      rw [hkept .payload trivial]
      exact hu.filed h hh hocc
    obtain ⟨om, m', t', hinstall, hpayload, hstored, henc⟩ := hready.install (S := S) hn hfiled
      env.toCallEnv etag size m.contentType m.userMetadata (S.shouldEncrypt encrypt)
    have hopens := plainBytes_sourceOf hcr hsrc
    have hget : result root (S.getObject bucket key) t' = .ok (storedToMeta key m', b) := by
      have hin : storedIn S root bucket key t' = .ok m' := by
        unfold storedIn docIn
        rw [show t'.file? ((objectPath bucket key).resolve root) = _ from hpayload,
          show t'.file? ((metaPath bucket key).resolve root) = _ from hstored]
        rfl
      rw [result_getObject, hin]
      dsimp only [Except.bind]
      rw [show t'.file? ((objectPath bucket key).resolve root) = _ from hpayload, henc]
      dsimp only [Content.bytes?, Option.getD_some]
      rw [hopens]
    rw [copiesWhole_of_ok (hrun.trans hinstall), hget, or_iff_right href, hplain]
    simp

/-- A key without a history, with nothing in the way of its payload, its metadata and the
directory of its versions. -/
theorem unobstructed_of_absent
    (hfree : ∀ k ∈ [FileKind.payload, .metadata, .history],
      t.look (place root bucket key k) ≠ some .dir ∧
        ∀ q ∈ (place root bucket key k).inits, q ≠ place root bucket key k → t.file? q = none)
    (habsent : t.look ((versionDir bucket key).resolve root) = none)
    (hdocs : DocsIn ProperFsDoc t) : Unobstructed root bucket key t := by
  have hhistory : place root bucket key .history =
      (versionDir bucket key).resolve root ++ [HISTORY] :=
    resolve_joinStr_atom (show Atom HISTORY by decide) root
  -- An archive stands where the history does, but for its name.
  have harchive : ∀ x, t.look ((versionDir bucket key).resolve root ++ [x]) ≠ some .dir ∧
      ∀ q, q <+: (versionDir bucket key).resolve root ++ [x] →
        q ≠ (versionDir bucket key).resolve root ++ [x] → t.file? q = none := by
    intro x
    refine ⟨by rw [look_below_none _ habsent]; simp, fun q hq hne => ?_⟩
    rcases List.prefix_concat_iff.1 hq with h0 | hq
    · exact absurd h0 hne
    · refine (hfree .history (by simp)).2 q ((List.mem_inits _ _).2 ?_) fun h0 => ?_
      · rw [hhistory]
        exact hq.trans (List.prefix_append _ _)
      · have hlen := hq.length_le
        rw [h0, hhistory, List.length_append, List.length_singleton] at hlen
        omega
  refine ⟨⟨?_, fun q j hj => hdocs q j (file?_eq_some.1 hj)⟩, fun h hh => ?_⟩
  · rintro p ⟨k, ⟨hk, hside⟩, rfl⟩
    have hlisted : ∀ k ∈ [FileKind.payload, .metadata, .history],
        t.look (place root bucket key k) ≠ some .dir ∧ ∀ q, q <+: place root bucket key k →
          q ≠ place root bucket key k → t.file? q = none := fun k hk =>
      ⟨(hfree k hk).1, fun q hq => (hfree k hk).2 q ((List.mem_inits _ _).2 hq)⟩
    cases k with
    | payload => exact hlisted .payload (by simp)
    | metadata => exact hlisted .metadata (by simp)
    | sidecar suffix => exact absurd rfl (hside suffix)
    | history => exact hlisted .history (by simp)
    | archivedData vid =>
        have hplace : place root bucket key (.archivedData vid) = _ :=
          resolve_joinStr_atom (atom_properId hk (by decide) (by decide)) root
        rw [hplace]
        exact harchive _
    | archivedMeta vid =>
        have hplace : place root bucket key (.archivedMeta vid) = _ :=
          resolve_joinStr_atom (atom_properId hk (by decide) (by decide)) root
        rw [hplace]
        exact harchive _
  · unfold docIn at hh
    rw [hhistory, file?, look_below_none _ habsent] at hh
    cases hh

end FsStore

/-! ## Both backends -/

open ErasureStore (Original readXl)

/-- On the erasure store a copy is whole or fails exactly when it is refused, when enough
drives for a write can be reached and enough of these hold every block of the source, or
when too few can be reached and they have nothing of the destination.  On the filesystem
store it is whole or fails when it is refused; and if nothing is in the way of the
destination, otherwise exactly when the source's payload still opens to all of it. -/
theorem copies_whole_iff {n : Nat} {S : ErasureStore n} {F : FsStore} (hS : S.codec.Lawful)
    (hsum : Function.Injective S.checksum) (hcr : S.crypto.Lawful) (hcrF : F.crypto.Lawful)
    {bucket : Str} (hb : validateBucketName bucket = .ok ()) (env : FsEnv)
    (srcBucket srcKey key : Str) (encrypt : Bool) :
    (∀ (site : Site n) (s : Cluster n Doc) (o : Original S), Kept S site.root bucket key s →
      (site.run (readXl srcBucket srcKey) s).1 = .ok o.xl →
      (S.CopiesWhole site env.toCallEnv srcBucket srcKey bucket key encrypt o.plain s ↔
        S.CopyRefused site env.toCallEnv srcBucket srcKey bucket key encrypt o s ∨
          if tally site.up < S.codec.data + 1 then ErasureStore.Unheld site bucket key s
          else o.Whole site srcBucket srcKey s)) ∧
    ∀ (root : List Str) (t : Tree FsDoc) (m : StoredMeta) (c : Content FsDoc) (plain : Bytes),
      FsStore.storedIn F root srcBucket srcKey t = .ok m →
      t.file? (FsStore.place root srcBucket srcKey .payload) = some c →
      (F.CopyRefused root env bucket key encrypt m.encrypted (c.bytes?.getD []) t →
        F.CopiesWhole root env srcBucket srcKey bucket key encrypt plain t) ∧
      (FsStore.Unobstructed root bucket key t →
        (F.CopiesWhole root env srcBucket srcKey bucket key encrypt plain t ↔
          F.CopyRefused root env bucket key encrypt m.encrypted (c.bytes?.getD []) t ∨
            F.plainBytes m.encrypted (c.bytes?.getD []) = some plain)) := by
  refine ⟨fun site s o hkept hxl => ?_, fun root t m c plain hm hc =>
    FsStore.copiesWhole_iff hcrF hb hm hc⟩
  obtain ⟨K, hk, hK⟩ := hkept
  exact ErasureStore.copiesWhole_iff hS hsum hcr hb hk hK hxl

/-! ## One source -/

/-- Five bytes on three drives. -/
def fiveBytes : Original ErasureStore.trio where
  plain := [1, 2, 3, 4, 5]
  env := callAt 'a' 1 isHexLower_a
  encrypted := false
  contentType := []
  userMetadata := []
  etagOverride := none
  src := .ofBytes [1, 2, 3, 4, 5]
  source := rfl
  sized := by decide

/-- The cluster after they were put. -/
def fiveStored : Cluster 3 Doc :=
  ((Site.mk topRoot fun _ => true).run (ErasureStore.trio.putObject fiveBytes.env "docs".toList
    "key".toList (.ofBytes fiveBytes.plain) [] [] false) (withBucket "docs".toList)).2

/-- Of every shard file only the first block is left. -/
def fiveCut : Cluster 3 Doc := fun d =>
  ((fiveStored d).write (((rObject "docs".toList "key".toList).joinStr PART).resolve [])
    (.raw [1, 2, 3, 4])).getD (fiveStored d)

/-- A bucket with one encrypted object of two bytes. -/
def twoStored : Tree FsDoc :=
  FsStore.reached FsStore.plainStore [] .empty [.createBucket "docs".toList,
    .put (FsStore.fsCallAt 'a' 1 isHexLower_a) "docs".toList "key".toList (.ofBytes [1, 2]) [] []
      true]

/-- Of its container only the header is left. -/
def twoCut : Tree FsDoc :=
  let path := FsStore.place [] "docs".toList "key".toList .payload
  (twoStored.write path (.raw ((((twoStored.file? path).bind Content.bytes?).getD []).take
    Crypto.tagged.headerLen))).getD twoStored

theorem copies_whole_undamaged :
    ErasureStore.trio.CopiesWhole ⟨topRoot, fun _ => true⟩ (callAt 'b' 2 rfl) "docs".toList
      "key".toList "docs".toList "copy".toList false [1, 2, 3, 4, 5] fiveStored ∧
    FsStore.plainStore.CopiesWhole [] (FsStore.fsCallAt 'b' 2 rfl) "docs".toList "key".toList
      "docs".toList "copy".toList false [1, 2] twoStored := by
  obtain ⟨hstore, hfs⟩ := copies_whole_iff (F := FsStore.plainStore) ErasureStore.trio_lawful
    spell_injective Crypto.tagged_lawful Crypto.tagged_lawful
    (show validateBucketName "docs".toList = .ok () by decide +kernel)
    (FsStore.fsCallAt 'b' 2 rfl) "docs".toList "key".toList "copy".toList false
  constructor
  · refine (hstore ⟨topRoot, fun _ => true⟩ fiveStored fiveBytes
      (kept_of_untouched (by decide +kernel)) (by decide +kernel)).2 (.inr ?_)
    rw [if_neg (by decide)]
    decide +kernel
  · have hempty : ∀ q, (FileTree.empty : Tree FsDoc).file? q = none := by
      intro q
      cases q with
      | nil => rfl
      | cons x q => rw [file?, look_empty _ (by simp)]
    have hmeta : (FsStore.storedIn FsStore.plainStore [] "docs".toList "key".toList
        twoStored).toOption.isSome = true := by decide +kernel
    have hfile : (twoStored.file? (FsStore.place [] "docs".toList "key".toList
        .payload)).isSome = true := by decide +kernel
    have hopens : ((FsStore.storedIn FsStore.plainStore [] "docs".toList "key".toList
        twoStored).toOption.bind fun m => (twoStored.file? (FsStore.place [] "docs".toList
          "key".toList .payload)).bind fun c => FsStore.plainStore.plainBytes m.encrypted
            (c.bytes?.getD [])) = some [1, 2] := by decide +kernel
    obtain ⟨c, hc⟩ := Option.isSome_iff_exists.1 hfile
    cases hm : FsStore.storedIn FsStore.plainStore [] "docs".toList "key".toList twoStored with
    | error e =>
        rw [hm] at hmeta
        cases hmeta
    | ok m =>
        rw [hm, hc] at hopens
        exact ((hfs [] twoStored m c [1, 2] hm hc).2 (FsStore.unobstructed_of_absent
          (by decide +kernel) (by decide +kernel)
          (FsStore.docsIn_reached hempty _))).2 (.inr hopens)

/-- Both copies are acknowledged, and give back the first block, and nothing. -/
theorem copies_truncated :
    (((Site.mk topRoot fun _ => true).run (ErasureStore.trio.copyObject (callAt 'b' 2 rfl)
        "docs".toList "key".toList "docs".toList "copy".toList false)
        fiveCut).1.toOption.isSome = true ∧
      ¬ ErasureStore.trio.CopiesWhole ⟨topRoot, fun _ => true⟩ (callAt 'b' 2 rfl) "docs".toList
        "key".toList "docs".toList "copy".toList false [1, 2, 3, 4, 5] fiveCut) ∧
    ((FsStore.result [] (FsStore.plainStore.copyObject (FsStore.fsCallAt 'b' 2 rfl) "docs".toList
        "key".toList "docs".toList "copy".toList false) twoCut).toOption.isSome = true ∧
      ¬ FsStore.plainStore.CopiesWhole [] (FsStore.fsCallAt 'b' 2 rfl) "docs".toList
        "key".toList "docs".toList "copy".toList false [1, 2] twoCut) := by
  refine ⟨⟨by decide +kernel, fun hw => ?_⟩, by decide +kernel, fun hw => ?_⟩
  · have hread : ((Site.mk topRoot fun _ => true).run (ErasureStore.trio.getObject "docs".toList
        "copy".toList) ((Site.mk topRoot fun _ => true).run (ErasureStore.trio.copyObject
          (callAt 'b' 2 rfl) "docs".toList "key".toList "docs".toList "copy".toList false)
            fiveCut).2).1.toOption.map Prod.snd = some [1, 2, 3, 4] := by decide +kernel
    cases hrun : (Site.mk topRoot fun _ => true).run (ErasureStore.trio.copyObject
        (callAt 'b' 2 rfl) "docs".toList "key".toList "docs".toList "copy".toList false)
        fiveCut with
    | mk r s' =>
    rw [hrun] at hread
    cases r with
    | error e =>
        have hok : ((Site.mk topRoot fun _ => true).run (ErasureStore.trio.copyObject
            (callAt 'b' 2 rfl) "docs".toList "key".toList "docs".toList "copy".toList false)
            fiveCut).1.toOption.isSome = true := by decide +kernel
        rw [hrun] at hok
        cases hok
    | ok om =>
        obtain ⟨m, hm⟩ := hw.ok om s' hrun
        rw [hm] at hread
        cases hread
  · have hread : (FsStore.result [] (FsStore.plainStore.getObject "docs".toList "copy".toList)
        (runE (LocalDrive.step []) (FsStore.plainStore.copyObject (FsStore.fsCallAt 'b' 2 rfl)
          "docs".toList "key".toList "docs".toList "copy".toList false)
            twoCut).2).toOption.map Prod.snd = some [] := by decide +kernel
    cases hrun : runE (LocalDrive.step []) (FsStore.plainStore.copyObject
        (FsStore.fsCallAt 'b' 2 rfl) "docs".toList "key".toList "docs".toList "copy".toList
        false) twoCut with
    | mk r t =>
    rw [hrun] at hread
    cases r with
    | error e =>
        have hok : (FsStore.result [] (FsStore.plainStore.copyObject (FsStore.fsCallAt 'b' 2 rfl)
            "docs".toList "key".toList "docs".toList "copy".toList false)
            twoCut).toOption.isSome = true := by decide +kernel
        rw [FsStore.result, hrun] at hok
        cases hok
    | ok om =>
        obtain ⟨m, hm⟩ := hw.ok om t hrun
        rw [hm] at hread
        cases hread

end Kerplace
