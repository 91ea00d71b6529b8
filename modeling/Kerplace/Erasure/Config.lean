/-
# `Kerplace.Erasure.Config` — bucket configurations and histories as replicated files

Every configuration of a bucket is one small file on every drive.  It is written
to all drives that can be reached and read from one of them: the first that has a
copy, or for the versioning status the one with the most protective copy, or for
a version history the one with the highest epoch.  Each call is specified here by
what it makes of that one file on each drive, and by what its reading rule takes
from the copies it can reach.
-/
import Kerplace.Erasure.Put
import Kerplace.Storage.Region
import Kerplace.Lib.Leaves

namespace Kerplace

open FileTree Prog

/-- The files of the other bucket configurations. -/
def SSE : Str := "sse.json".toList
def POLICY : Str := "policy.json".toList
def LIFECYCLE : Str := "lifecycle.xml".toList

namespace ErasureStore

variable {n : Nat}

/-- Write a configuration of a bucket that exists. -/
def setBucketCfg (bucket file : Str) (doc : Doc) : EStore n Unit := do
  headBucket bucket
  metaWriteAll (rBucketCfg bucket file) doc

/-- `get_bucket_encryption`. -/
def getBucketEncryption (bucket : Str) : EStore n (Option Str) :=
  readCfg (rBucketCfg bucket SSE) Doc.sse?

/-- `set_bucket_encryption`. -/
def setBucketEncryption (bucket sseType : Str) : EStore n Unit :=
  setBucketCfg bucket SSE (.sse sseType)

/-- `delete_bucket_encryption`. -/
def deleteBucketEncryption (bucket : Str) : EStore n Unit := metaDelAll (rBucketCfg bucket SSE)

/-- `get_bucket_policy`. -/
def getBucketPolicy (bucket : Str) : EStore n (Option Str) :=
  readCfg (rBucketCfg bucket POLICY) Doc.text?

/-- `set_bucket_policy`. -/
def setBucketPolicy (bucket policy : Str) : EStore n Unit :=
  setBucketCfg bucket POLICY (.text policy)

/-- `delete_bucket_policy`. -/
def deleteBucketPolicy (bucket : Str) : EStore n Unit := metaDelAll (rBucketCfg bucket POLICY)

/-- `get_bucket_lifecycle`. -/
def getBucketLifecycle (bucket : Str) : EStore n (Option Str) :=
  readCfg (rBucketCfg bucket LIFECYCLE) Doc.text?

/-- `set_bucket_lifecycle`. -/
def setBucketLifecycle (bucket xml : Str) : EStore n Unit :=
  setBucketCfg bucket LIFECYCLE (.text xml)

/-- `delete_bucket_lifecycle`. -/
def deleteBucketLifecycle (bucket : Str) : EStore n Unit :=
  metaDelAll (rBucketCfg bucket LIFECYCLE)

/-- What every change of a history does: read it, change its entries, write it back.  The
history as it was written is the result. -/
def updateHistory (bucket key : Str) (change : List VEntry → List VEntry) :
    EStore n VHistory := do
  let hist ← readHistory bucket key
  writeHistory bucket key { hist with versions := change hist.versions }
  pure { versions := change hist.versions, epoch := hist.epoch + 1 }

variable {site : Site n} {s s' : Cluster n Doc} {L : Fin n → List Str → Prop}
  {dir : UnixPath} {f : Str}

/-! ## Writing and removing one file -/

/-- A call that put `c` into the file `rel` of every reachable drive, or took the file
away, and left everything else: no other file changed, and what was set aside still is. -/
structure Put (site : Site n) (L : Fin n → List Str → Prop) (rel : UnixPath)
    (c : Option (Content Doc)) (s s' : Cluster n Doc) : Prop where
  down : ∀ d, site.up d = false → s' d = s d
  up : ∀ d, site.up d = true → (s' d).file? (rel.resolve (site.root d)) = c
  other : ∀ d q, q ≠ rel.resolve (site.root d) → (s' d).file? q = (s d).file? q
  free : ∀ d, (s' d).SetAside (L d)

/-- Whether any drive can be reached. -/
def someUp (site : Site n) : Bool := (List.finRange n).any site.up

theorem tally_eq_zero {ok : Fin n → Bool} : tally ok = 0 ↔ ∀ d, ok d = false := by
  simp [tally, List.countP_eq_zero]

/-- Writing a file on one drive, with its directory. -/
theorem onTree_writeFile (hf : UnixPath.Atom f) {d : Fin n} (hup : site.up d = true)
    (hL : Antichain (L d)) {t : Tree Doc} (hfree : t.SetAside (L d))
    (hmem : L d ((dir.joinStr f).resolve (site.root d))) (doc : Doc) :
    ∃ t', site.onTree d (do
        let _ ← Drive.createDirAll dir
        Drive.write (dir.joinStr f) (.doc doc)) t = (true, t') ∧
      (∀ q, t'.file? q = if q = (dir.joinStr f).resolve (site.root d) then some (.doc doc)
        else t.file? q) ∧ t'.SetAside (L d) := by
  have hpath := UnixPath.resolve_joinStr_atom (p := dir) hf (site.root d)
  rw [hpath] at hmem ⊢
  obtain ⟨t₁, h₁⟩ := Option.isSome_iff_exists.1 (hfree.mkdir_isSome hmem)
  obtain ⟨t₂, h₂⟩ := Option.isSome_iff_exists.1
    (hfree.write_isSome hL hmem h₁ (c := Content.doc doc))
  refine ⟨t₂, ?_, fun q => ?_, (hfree.mkdir hL hmem h₁).write hL hmem h₂⟩
  · rw [Site.onTree_up hup, exec_bind, LocalDrive.exec_createDirAll,
      LocalDrive.attempt_some h₁, LocalDrive.exec_write, hpath, LocalDrive.attempt_some h₂]
  · rw [file?_write h₂, file?_createDirAll h₁]

variable (site dir) in
/-- A replicated write lands on every reachable drive. -/
theorem run_metaWriteAll (hf : UnixPath.Atom f) (hL : ∀ d, Antichain (L d))
    (hfree : ∀ d, (s d).SetAside (L d))
    (hmem : ∀ d, L d ((dir.joinStr f).resolve (site.root d))) (doc : Doc) :
    ∃ s', site.run (metaWriteAll (dir.joinStr f) doc) s =
        (if someUp site then .ok () else .error (.internal "metadata write: no drive reachable"),
          s') ∧ Put site L (dir.joinStr f) (some (.doc doc)) s s' := by
  let prog : Fin n → DriveProg Doc Bool := fun _ => do
    let _ ← Drive.createDirAll dir
    Drive.write (dir.joinStr f) (.doc doc)
  have hone : ∀ d, site.up d = true → _ := fun d hup =>
    onTree_writeFile hf hup (hL d) (hfree d) (hmem d) doc
  have hok : ∀ d, (site.onTree d (prog d) (s d)).1 = site.up d := by
    intro d
    cases hup : site.up d with
    | true =>
        obtain ⟨t', ht', -⟩ := hone d hup
        exact congrArg Prod.fst ht'
    | false =>
        rw [Site.onTree, hup]
        rfl
  have htally : (tally fun d => (site.onTree d (prog d) (s d)).1) = 0 ↔ someUp site = false := by
    rw [tally_eq_zero, someUp, List.any_eq_false]
    exact forall_congr' fun d => by simp [hok]
  refine ⟨fun d => (site.onTree d (prog d) (s d)).2, ?_, ⟨fun d hup => ?_, fun d hup => ?_,
    fun d q hq => ?_, fun d => ?_⟩⟩
  · unfold metaWriteAll
    rw [UnixPath.parent_joinStr_atom hf, Site.run_bind, Site.run_eachDrive, andThen_ok]
    show site.run (if tally (fun d => (site.onTree d (prog d) (s d)).1) = 0 then _ else _) _ = _
    cases hsome : someUp site with
    | false =>
        rw [if_pos (htally.2 hsome)]
        rfl
    | true =>
        rw [if_neg fun h0 => by rw [htally.1 h0] at hsome; cases hsome]
        rfl
  · exact Site.onTree_down_snd hup _ _
  · obtain ⟨t', ht', hfiles, -⟩ := hone d hup
    show ((site.onTree d (prog d) (s d)).2).file? _ = _
    rw [show site.onTree d (prog d) (s d) = _ from ht', hfiles, if_pos rfl]
  · cases hup : site.up d with
    | true =>
        obtain ⟨t', ht', hfiles, -⟩ := hone d hup
        show ((site.onTree d (prog d) (s d)).2).file? _ = _
        rw [show site.onTree d (prog d) (s d) = _ from ht', hfiles, if_neg hq]
    | false => exact congrArg (FileTree.file? · q) (Site.onTree_down_snd hup _ _)
  · cases hup : site.up d with
    | true =>
        obtain ⟨t', ht', -, hset⟩ := hone d hup
        show ((site.onTree d (prog d) (s d)).2).SetAside _
        rw [show site.onTree d (prog d) (s d) = _ from ht']
        exact hset
    | false =>
        show ((site.onTree d (prog d) (s d)).2).SetAside _
        rw [Site.onTree_down_snd hup]
        exact hfree d

variable (site) in
/-- A replicated removal takes the file from every reachable drive. -/
theorem run_metaDelAll (rel : UnixPath) (hfree : ∀ d, (s d).SetAside (L d)) :
    ∃ s', site.run (metaDelAll rel) s = (.ok (), s') ∧ Put site L rel none s s' := by
  refine ⟨fun d => (site.onTree d (Drive.removeFile rel) (s d)).2, ?_, ⟨fun d hup => ?_,
    fun d hup => ?_, fun d q hq => ?_, fun d => ?_⟩⟩
  · unfold metaDelAll
    rw [Site.run_bind, Site.run_eachDrive, andThen_ok, Site.run_pure]
  · exact Site.onTree_down_snd hup _ _
  · show ((site.onTree d (Drive.removeFile rel) (s d)).2).file? _ = _
    rw [Site.onTree_up hup, LocalDrive.exec_removeFile]
    cases hr : (s d).removeFile (rel.resolve (site.root d)) with
    | none =>
        show (s d).file? _ = none
        cases hc : (s d).file? (rel.resolve (site.root d)) with
        | none => rfl
        | some c =>
            have := removeFile_isSome hc
            rw [hr] at this
            cases this
    | some t' =>
        show t'.file? _ = none
        rw [file?_removeFile hr, if_pos rfl]
  · cases hup : site.up d with
    | false => exact congrArg (FileTree.file? · q) (Site.onTree_down_snd hup _ _)
    | true =>
        show ((site.onTree d (Drive.removeFile rel) (s d)).2).file? q = _
        rw [Site.onTree_up hup, LocalDrive.exec_removeFile]
        refine LocalDrive.attempt_snd (P := fun t => t.file? q = (s d).file? q) rfl
          fun t' ht => ?_
        rw [file?_removeFile ht, if_neg hq]
  · cases hup : site.up d with
    | false =>
        show ((site.onTree d (Drive.removeFile rel) (s d)).2).SetAside _
        rw [Site.onTree_down_snd hup]
        exact hfree d
    | true =>
        show ((site.onTree d (Drive.removeFile rel) (s d)).2).SetAside _
        rw [Site.onTree_up hup, LocalDrive.exec_removeFile]
        exact LocalDrive.attempt_snd (P := fun t => t.SetAside (L d)) (hfree d)
          fun t' ht => (hfree d).removeFile ht

/-! ## Reading -/

/-- A configuration is read from the first reachable drive with a copy. -/
theorem run_readCfg {α : Type} (rel : UnixPath) (decode : Doc → Option α) :
    site.run (readCfg rel decode) s =
      (.ok (((firstUp site fun d => (s d).file? (rel.resolve (site.root d))).bind
        Content.doc?).bind decode), s) := by
  have hread : ∀ d (t : Tree Doc), site.onTree d (Drive.read rel) t =
      (if site.up d then t.file? (rel.resolve (site.root d)) else none, t) := by
    intro d t
    cases hup : site.up d with
    | false =>
        rw [Site.onTree, hup]
        rfl
    | true =>
        rw [Site.onTree_up hup, LocalDrive.exec_read]
        rfl
  unfold readCfg metaReadAny
  rw [Site.run_bind, Site.run_anyDrive fun d t => by rw [hread]]
  simp only [hread, andThen_ok, Site.run_pure]
  rfl

theorem run_getBucketVersioning (bucket : Str) :
    site.run (getBucketVersioning bucket) s =
      (.ok (bestStatus (docsUp site Doc.status? (rBucketCfg bucket VERSIONING) s)), s) := by
  unfold getBucketVersioning
  simp only [Site.run_bind, Site.run_eachDrive, onTree_readDoc, andThen_ok, Site.run_pure]
  rfl

/-- The first copy of several. -/
theorem firstUp_eq {α : Type} {g : Fin n → Option α} {d : Fin n} {a : α}
    (hup : site.up d = true) (hd : g d = some a)
    (hbefore : ∀ d' < d, site.up d' = true → g d' = none) : firstUp site g = some a := by
  unfold firstUp
  rw [List.findSome?_eq_some_iff]
  refine ⟨(List.finRange n).take d, d, (List.finRange n).drop (d + 1), ?_, ?_, ?_⟩
  · have hlt : d.val < (List.finRange n).length := by rw [List.length_finRange]; exact d.2
    have := List.take_append_drop d.val (List.finRange n)
    rw [List.drop_eq_getElem_cons hlt] at this
    simpa using this.symm
  · rw [if_pos hup, hd]
  · intro d' hd'
    obtain ⟨i, hi, rfl⟩ := List.mem_take_iff_getElem.1 hd'
    simp only [List.getElem_finRange]
    split
    · rename_i hup'
      refine hbefore _ ?_ hup'
      rw [Fin.lt_def]
      simp only [Fin.val_cast]
      omega
    · rfl

theorem firstUp_none {α : Type} {g : Fin n → Option α}
    (h : ∀ d, site.up d = true → g d = none) : firstUp site g = none := by
  unfold firstUp
  rw [List.findSome?_eq_none_iff]
  intro d _
  split
  · rename_i hup
    exact h d hup
  · rfl

/-- The ranks of the statuses there are. -/
theorem statusRank_inj {a b : Str} (ha : 0 < statusRank a) (h : statusRank a = statusRank b) :
    a = b := by
  unfold statusRank at ha h
  split at h
  · rename_i h₁
    split at h
    · rename_i h₂
      rw [h₁, h₂]
    · split at h <;> omega
  · split at h
    · rename_i h₁
      split at h
      · omega
      · split at h
        · rename_i h₂
          rw [h₁, h₂]
        · omega
    · rename_i h₁ h₂
      rw [if_neg h₁, if_neg h₂] at ha
      omega

/-- The fold over the statuses ends in one of them that none outranks, or where it began
if none outranks that. -/
theorem foldl_bestStatus (found : List (Option Str)) : ∀ best : Str,
    let r := found.foldl (fun best s? =>
      match s? with
      | some s => if statusRank s > statusRank best then s else best
      | none => best) best
    (r = best ∨ some r ∈ found) ∧ statusRank best ≤ statusRank r ∧
      ∀ s, some s ∈ found → statusRank s ≤ statusRank r := by
  induction found with
  | nil => exact fun best => ⟨.inl rfl, le_refl _, fun s hs => absurd hs List.not_mem_nil⟩
  | cons x found ih =>
      intro best
      cases x with
      | none =>
          obtain ⟨hr, hle, hall⟩ := ih best
          refine ⟨hr.imp_right (List.mem_cons_of_mem _), hle, fun s hs => ?_⟩
          rcases List.mem_cons.1 hs with h0 | hs
          · cases h0
          · exact hall s hs
      | some y =>
          dsimp only
          rw [List.foldl_cons]
          dsimp only
          split
          · rename_i hgt
            obtain ⟨hr, hle, hall⟩ := ih y
            refine ⟨?_, by omega, fun s hs => ?_⟩
            · rcases hr with hr | hr
              · exact .inr (List.mem_cons.2 (.inl (congrArg some hr)))
              · exact .inr (List.mem_cons_of_mem _ hr)
            · rcases List.mem_cons.1 hs with h0 | hs
              · cases h0
                exact hle
              · exact hall s hs
          · rename_i hgt
            obtain ⟨hr, hle, hall⟩ := ih best
            refine ⟨hr.imp_right (List.mem_cons_of_mem _), hle, fun s hs => ?_⟩
            rcases List.mem_cons.1 hs with h0 | hs
            · cases h0
              omega
            · exact hall s hs

theorem bestStatus_unranked {found : List (Option Str)}
    (h : ∀ s, some s ∈ found → statusRank s = 0) : bestStatus found = [] := by
  unfold bestStatus
  induction found with
  | nil => rfl
  | cons x found ih =>
      have hrest := ih fun s hs => h s (List.mem_cons_of_mem _ hs)
      cases x with
      | none => exact hrest
      | some y =>
          have hy := h y (List.mem_cons_self ..)
          rw [List.foldl_cons]
          dsimp only
          rw [if_neg (by omega)]
          exact hrest

theorem mem_docsUp {α : Type} {site : Site n} {decode : Doc → Option α} {rel : UnixPath}
    {s : Cluster n Doc} {a : α} :
    some a ∈ docsUp site decode rel s ↔
      ∃ d, site.up d = true ∧ docAt decode (s d) (rel.resolve (site.root d)) = some a := by
  rw [docsUp, List.mem_ofFn]
  refine exists_congr fun d => ?_
  split
  · rename_i hup
    exact ⟨fun h => ⟨hup, h⟩, And.right⟩
  · rename_i hup
    exact ⟨fun h => (by cases h), fun h => absurd h.1 hup⟩

/-- Versioning is off where no drive in reach says otherwise. -/
theorem modeOf_eq_off {site : Site n} {bucket : Str} {s : Cluster n Doc} :
    modeOf site bucket s = .off ↔
      ∀ d st, site.up d = true →
        docAt Doc.status? (s d) ((rBucketCfg bucket VERSIONING).resolve (site.root d)) =
          some st → statusRank st = 0 := by
  have hrank : ∀ st : Str, modeOfStatus st = .off ↔ statusRank st = 0 := by
    intro st
    unfold modeOfStatus statusRank
    split
    · simp
    · split <;> simp
  rw [modeOf, hrank]
  constructor
  · intro h d st hup hdoc
    have hle := (foldl_bestStatus _ []).2.2 st (mem_docsUp.2 ⟨d, hup, hdoc⟩)
    exact Nat.le_zero.1 (hle.trans_eq h)
  · intro h
    rw [bestStatus_unranked fun st hst => ?_]
    · rfl
    · obtain ⟨d, hup, hdoc⟩ := mem_docsUp.1 hst
      exact h d st hup hdoc

/-- A status that is among those found and that none outranks is the one taken; one of no
rank need not be found. -/
theorem bestStatus_eq {found : List (Option Str)} {st : Str}
    (hst : some st ∈ found ∧ 0 < statusRank st ∨ st = [])
    (hmax : ∀ s, some s ∈ found → statusRank s ≤ statusRank st) : bestStatus found = st := by
  obtain ⟨hr, -, hall⟩ := foldl_bestStatus found []
  change (bestStatus found = [] ∨ some (bestStatus found) ∈ found) at hr
  change ∀ s, some s ∈ found → statusRank s ≤ statusRank (bestStatus found) at hall
  have hzero : statusRank [] = 0 := by decide
  rcases hst with ⟨hmem, hpos⟩ | rfl
  · -- What was taken has the rank of `st`, so it is `st`.
    rcases hr with hr | hr
    · have := hall st hmem
      rw [hr] at this
      omega
    · exact (statusRank_inj hpos (le_antisymm (hall st hmem) (hmax _ hr))).symm
  · -- Nothing found has a rank, so nothing was taken over the empty status.
    exact bestStatus_unranked fun s hs => by
      have := hmax s hs
      omega

/-- A history that is among those found, and that every other found is older than, is the
one taken. -/
theorem bestHistory_eq {found : List (Option VHistory)} {h : VHistory} (hmem : some h ∈ found)
    (hmax : ∀ h', some h' ∈ found → h' = h ∨ h'.epoch < h.epoch) :
    bestHistory found = some h := by
  have hfold : ∀ (l : List (Option VHistory)) (best : Option VHistory),
      (∀ x, best = some x ∨ some x ∈ l → x = h ∨ x.epoch < h.epoch) →
      (best = some h ∨ some h ∈ l) →
      l.foldl newer best = some h := by
    intro l
    induction l with
    | nil => exact fun best _ hb => hb.resolve_right List.not_mem_nil
    | cons y l ih =>
        intro best hall hb
        rw [List.foldl_cons]
        cases y with
        | none =>
            refine ih best (fun x hx => hall x (hx.imp_right (List.mem_cons_of_mem _))) ?_
            refine hb.imp_right fun hm => ?_
            rcases List.mem_cons.1 hm with h0 | hm
            · cases h0
            · exact hm
        | some z =>
            have hz := hall z (.inr (List.mem_cons_self ..))
            have hrest : ∀ x, some x ∈ l → x = h ∨ x.epoch < h.epoch := fun x hx =>
              hall x (.inr (List.mem_cons_of_mem _ hx))
            cases best with
            | none =>
                refine ih _ (fun x hx => hx.elim (fun h0 => Option.some.inj h0 ▸ hz) (hrest x)) ?_
                rcases hb with h0 | hm
                · cases h0
                · exact (List.mem_cons.1 hm).imp_left fun h0 => h0.symm
            | some x =>
                have hx := hall x (.inl rfl)
                dsimp only [newer]
                split
                · refine ih _ (fun x hx => hx.elim (fun h0 => Option.some.inj h0 ▸ hz)
                    (hrest x)) ?_
                  rcases hb with h0 | hm
                  · -- The history itself is outranked by none.
                    cases h0
                    rcases hz with rfl | hlt <;> omega
                  · exact (List.mem_cons.1 hm).imp_left fun h0 => h0.symm
                · refine ih _ (fun y hy => hy.elim (fun h0 => Option.some.inj h0 ▸ hx)
                    (hrest y)) ?_
                  rcases hb with h0 | hm
                  · exact .inl h0
                  · rcases List.mem_cons.1 hm with h0 | hm
                    · cases h0
                      rcases hx with rfl | hlt
                      · exact .inl rfl
                      · omega
                    · exact .inr hm
  rw [bestHistory_eq_foldl]
  exact hfold found none (fun x hx => hx.elim (fun h0 => by cases h0) (hmax x)) (.inr hmem)

theorem bestHistory_none {found : List (Option VHistory)} (h : ∀ x, some x ∉ found) :
    bestHistory found = none := by
  have hall : found = List.replicate found.length none := by
    refine List.eq_replicate_iff.2 ⟨rfl, fun x hx => ?_⟩
    cases x with
    | none => rfl
    | some y => exact absurd hx (h y)
  rw [hall, bestHistory]
  induction found.length with
  | zero => rfl
  | succ k ih => exact ih

end ErasureStore

end Kerplace
