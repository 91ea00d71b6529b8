/-
# `Kerplace.Erasure.VersionRuns` — the versions of a key over runs

Puts, copies, deletes, deletes of versions and changes of versioning, one after the other
with every drive healthy, on any keys of which none is nested with the key at hand.
Whatever their order, the drives have the versions that the acknowledged calls add up to,
and what a call wrote is read under its id until that id is deleted or written again.
-/
import Kerplace.Erasure.Chronicle

namespace Kerplace

open FileTree Prog ErasureStore Versions

/-! ## The calls of a run -/

/-- A call on a key, or on the versioning of a bucket. -/
inductive StoreCall where
  | on (bucket key : Str) (c : VersionCall)
  | setVersioning (bucket : Str) (enable : Bool)

namespace StoreCall

variable {n : Nat} (S : ErasureStore n) (site : Site n) (bucket key : Str)

/-- The store's program for a call. -/
def prog : StoreCall → EStore n Unit
  | on b k c => c.prog S b k
  | .setVersioning b enable =>
      setBucketVersioning b (if enable then "Enabled".toList else "Suspended".toList)

/-- The identifier a call mints. -/
def fresh : StoreCall → Option Str
  | on _ _ c => c.fresh
  | .setVersioning _ _ => none

/-- The names are the store's, and the call's key is the one at hand or not nested with it. -/
def Beside : StoreCall → Prop
  | on b k _ => validateBucketName b = .ok () ∧ validateKey k = .ok () ∧
      (b = bucket ∧ k = key ∨
        Apart (b :: UnixPath.compsOf k) (bucket :: UnixPath.compsOf key))
  | .setVersioning b _ => validateBucketName b = .ok ()

instance (bucket key : Str) : (c : StoreCall) → Decidable (c.Beside bucket key)
  | on b k _ => inferInstanceAs (Decidable (validateBucketName b = .ok () ∧
      validateKey k = .ok () ∧ (b = bucket ∧ k = key ∨
        (¬ b :: UnixPath.compsOf k <+: bucket :: UnixPath.compsOf key ∧
          ¬ bucket :: UnixPath.compsOf key <+: b :: UnixPath.compsOf k))))
  | .setVersioning b _ => inferInstanceAs (Decidable (validateBucketName b = .ok ()))

/-- What a call makes of the key's versions. -/
def change (s : Cluster n Doc) (vs : KeyVersions) : StoreCall → KeyVersions
  | on b k c => if b = bucket ∧ k = key then c.change S site bucket key s vs else vs
  | .setVersioning _ _ => vs

end StoreCall

section

variable {n : Nat} (S : ErasureStore n) (root : Fin n → List Str) (bucket key : Str)

/-- Calls one after the other, with every drive in reach. -/
def storeMachine : Machine (Cluster n Doc) StoreCall (Except S3Error Unit) :=
  ⟨fun s c => (allUp root).run (c.prog S) s⟩

/-- The versions that a run's calls add up to. -/
def versionsAfter : Cluster n Doc → KeyVersions → List StoreCall → KeyVersions
  | _, vs, [] => vs
  | s, vs, c :: cs => versionsAfter ((storeMachine S root).step s c).2
      (c.change S (allUp root) bucket key s vs) cs

end

/-! ## One call -/

section

variable {n : Nat} {S : ErasureStore n} {root : Fin n → List Str} {bucket key : Str}
  {used : List Str} {vs : KeyVersions} {t : Cluster n Doc}

/-- A copy puts what it reads. -/
theorem run_copyObject_put {site : Site n} (env : CallEnv) (srcBucket srcKey : Str)
    (encrypt : Bool) :
    site.run (S.copyObject env srcBucket srcKey bucket key encrypt) t =
      match (site.run (S.getObject srcBucket srcKey) t).1 with
      | .ok (m, bytes) => site.run (S.putObject env bucket key (.ofBytes bytes) m.contentType
          m.userMetadata encrypt) t
      | .error e => (.error e, t) := by
  have hget : MeetsE (storeContract n readingRegion fun _ => False)
      (S.getObject srcBucket srcKey) fun _ => True :=
    MeetsE.then (meetsE_readXlAt trivial) fun m => MeetsE.then (meetsE_readBodyAt trivial m)
      fun _ => meetsE_pure.2 trivial
  have hsame : (site.run (S.getObject srcBucket srcKey) t).2 = t := run_reading hget t
  rw [copyObject, Site.run_bind]
  generalize site.run (S.getObject srcBucket srcKey) t = r at hsame ⊢
  obtain ⟨r, t'⟩ := r
  obtain rfl : t' = t := hsame
  cases r <;> rfl

/-- On any key, a call is one of those whose paths are known, or none at all. -/
theorem VersionCall.run_prog {site : Site n} (c : VersionCall) (b k : Str) :
    (site.run (c.prog S b k) t).2 = t ∨
      ∃ kc : KeyCall, site.run (c.prog S b k) t = site.run (kc.prog S b k) t := by
  cases c with
  | put env body contentType userMetadata encrypt =>
      exact .inr ⟨.put env body contentType userMetadata encrypt, rfl⟩
  | copy env srcBucket srcKey encrypt =>
      have hrun : site.run (S.copyObject env srcBucket srcKey b k encrypt) t = _ :=
        run_copyObject_put env srcBucket srcKey encrypt
      cases hget : (site.run (S.getObject srcBucket srcKey) t).1 with
      | error e =>
          rw [hget] at hrun
          refine .inl ?_
          show (site.run (do let _ ← _; pure ()) t).2 = t
          rw [Site.run_unit, hrun]
      | ok r =>
          obtain ⟨m, bytes⟩ := r
          rw [hget] at hrun
          refine .inr ⟨.put env (.ofBytes bytes) m.contentType m.userMetadata encrypt, ?_⟩
          show site.run (do let _ ← _; pure ()) t = site.run (do let _ ← _; pure ()) t
          rw [Site.run_unit, Site.run_unit, hrun]
  | delete env => exact .inr ⟨.delete env, rfl⟩
  | deleteVersion i => exact .inr ⟨.deleteVersion i, rfl⟩

theorem run_unit_ok {α : Type} {site : Site n} {p : EStore n α}
    (hp : (site.run (do let _ ← p; pure ()) t).1 = .ok ()) : ∃ a, (site.run p t).1 = .ok a := by
  rw [Site.run_unit] at hp
  cases hr : (site.run p t).1 with
  | ok a => exact ⟨a, rfl⟩
  | error e =>
      rw [hr] at hp
      cases hp

theorem used_cons (used : List Str) (c : StoreCall) (calls : List StoreCall) :
    used ++ (c :: calls).filterMap StoreCall.fresh =
      (used ++ c.fresh.toList) ++ calls.filterMap StoreCall.fresh := by
  rw [List.append_assoc, List.filterMap_cons]
  cases c.fresh <;> rfl

theorem fresh_of_nodup {c : StoreCall} {later : List Str}
    (h : ((used ++ c.fresh.toList) ++ later).Nodup) : ∀ f, c.fresh = some f → f ∉ used := by
  intro f hf hused
  rw [hf] at h
  exact (List.nodup_append.1 (List.nodup_append.1 h).1).2.2 f hused f
    (List.mem_singleton_self f) rfl

namespace Chronicled

/-- What an acknowledged call on the key makes of its versions. -/
theorem onKey (hS : S.codec.Lawful) (hb : validateBucketName bucket = .ok ())
    (hkey : validateKey key = .ok ()) (h : Chronicled S root bucket key used vs t)
    (c : VersionCall) (hfresh : ∀ f, c.fresh = some f → f ∉ used)
    (hok : ((allUp root).run (c.prog S bucket key) t).1 = .ok ()) :
    Chronicled S root bucket key (used ++ c.fresh.toList)
      (c.change S (allUp root) bucket key t vs)
      ((allUp root).run (c.prog S bucket key) t).2 := by
  cases c with
  | put env body contentType userMetadata encrypt =>
      obtain ⟨m, hm⟩ := run_unit_ok hok
      obtain ⟨src, hsrc, -, hnext⟩ := h.put hb hkey hS (hfresh _ rfl) hm
      unfold VersionCall.change VersionCall.stores VersionCall.copyOf
      dsimp only
      rw [hsrc]
      show Chronicled S root bucket key _ _ ((allUp root).run (do let _ ← _; pure ()) t).2
      rw [Site.run_unit]
      exact hnext
  | copy env srcBucket srcKey encrypt =>
      obtain ⟨m, hm⟩ := run_unit_ok hok
      rw [run_copyObject_put] at hm
      cases hget : ((allUp root).run (S.getObject srcBucket srcKey) t).1 with
      | error e =>
          rw [hget] at hm
          cases hm
      | ok r =>
          rw [hget] at hm
          obtain ⟨src, hsrc, -, hnext⟩ := h.put hb hkey hS (hfresh _ rfl) hm
          unfold VersionCall.change VersionCall.stores VersionCall.copyOf
          dsimp only
          rw [hget]
          dsimp only
          rw [hsrc]
          show Chronicled S root bucket key _ _ ((allUp root).run (do let _ ← _; pure ()) t).2
          rw [Site.run_unit, run_copyObject_put, hget]
          exact hnext
  | delete env =>
      obtain ⟨o, ho⟩ := run_unit_ok hok
      show Chronicled S root bucket key _ _ ((allUp root).run (do let _ ← _; pure ()) t).2
      rw [Site.run_unit]
      exact h.delete hb hkey (hfresh _ rfl) ho
  | deleteVersion i =>
      obtain ⟨o, ho⟩ := run_unit_ok hok
      show Chronicled S root bucket key (used ++ []) _
        ((allUp root).run (do let _ ← _; pure ()) t).2
      rw [Site.run_unit, List.append_nil]
      exact h.deleteVersion hb hkey ho

/-- What an acknowledged call makes of them. -/
theorem step (hS : S.codec.Lawful) (hb : validateBucketName bucket = .ok ())
    (hkey : validateKey key = .ok ()) (h : Chronicled S root bucket key used vs t)
    (c : StoreCall) (hbeside : c.Beside bucket key) (hfresh : ∀ f, c.fresh = some f → f ∉ used)
    (hok : ((storeMachine S root).step t c).1 = .ok ()) :
    Chronicled S root bucket key (used ++ c.fresh.toList)
      (c.change S (allUp root) bucket key t vs) ((storeMachine S root).step t c).2 := by
  cases c with
  | on b k c =>
      obtain ⟨hb', hk', hplace⟩ := hbeside
      by_cases hsame : b = bucket ∧ k = key
      · obtain ⟨rfl, rfl⟩ := hsame
        rw [StoreCall.change, if_pos ⟨rfl, rfl⟩]
        exact h.onKey hS hb hkey c hfresh hok
      · have happart : ∀ d, Apart ((allUp root).objDir b k d)
            ((allUp root).objDir bucket key d) := by
          intro d
          have hcomps := hplace.resolve_left hsame
          rw [Site.objDir_eq (validateBucketName_atom hb') (validateKey_plain hk'),
            Site.objDir_eq (validateBucketName_atom hb) (validateKey_plain hkey)]
          refine ⟨fun hp => hcomps.1 ?_, fun hp => hcomps.2 ?_⟩
          · exact (List.prefix_append_right_inj _).1 hp
          · exact (List.prefix_append_right_inj _).1 hp
        rw [StoreCall.change, if_neg hsame]
        refine minting ?_ _
        show Chronicled S root bucket key used vs ((allUp root).run (c.prog S b k) t).2
        have hprog : ((allUp root).run (c.prog S b k) t).2 = t ∨ ∃ kc : KeyCall,
            (allUp root).run (c.prog S b k) t = (allUp root).run (kc.prog S b k) t :=
          c.run_prog b k
        rcases hprog with hstay | ⟨kc, hrun⟩
        · rw [hstay]
          exact h
        · rw [hrun]
          exact h.otherKey hb hb' hk' happart kc
  | setVersioning b enable =>
      refine minting ?_ _
      show Chronicled S root bucket key used vs
        ((allUp root).run (setBucketVersioning b _) t).2
      by_cases hsame : b = bucket
      · subst hsame
        refine h.setVersioning hb hkey ?_ hok
        cases enable <;> decide
      · exact h.otherVersioning hb hkey hbeside hsame _

/-- What a run of acknowledged calls makes of them. -/
theorem run (hS : S.codec.Lawful) (hb : validateBucketName bucket = .ok ())
    (hkey : validateKey key = .ok ()) (calls : List StoreCall) :
    ∀ {used : List Str} {vs : KeyVersions} {t : Cluster n Doc},
      Chronicled S root bucket key used vs t → (∀ c ∈ calls, c.Beside bucket key) →
      (∀ v ∈ (storeMachine S root).visits t calls, v.answer = .ok ()) →
      (used ++ calls.filterMap StoreCall.fresh).Nodup →
      Chronicled S root bucket key (used ++ calls.filterMap StoreCall.fresh)
        (versionsAfter S root bucket key t vs calls) ((storeMachine S root).final t calls) := by
  induction calls with
  | nil =>
      intro used vs t h _ _ _
      rw [List.filterMap_nil, List.append_nil]
      exact h
  | cons c calls ih =>
      intro used vs t h hbeside hok hfresh
      rw [used_cons] at hfresh ⊢
      rw [Machine.visits_cons] at hok
      obtain ⟨hfirst, hrest⟩ := List.forall_mem_cons.1 hok
      obtain ⟨hc, hcalls⟩ := List.forall_mem_cons.1 hbeside
      exact ih (h.step hS hb hkey c hc (fresh_of_nodup hfresh) hfirst) hcalls hrest hfresh

theorem start (hdocs : ProperCluster t)
    (hnew : ∀ d, Untouched (t d) ((rObject bucket key).resolve (root d))) :
    Chronicled S root bucket key [] [] t where
  kept := ⟨.bare, keeps_of_untouched hnew, .bare, fun _ => rfl⟩
  docs := hdocs
  ids _ hv := nomatch hv
  proper _ hv := nomatch hv
  minted _ hv := nomatch hv

end Chronicled

end

/-! ## Reading a version back -/

namespace ErasureStore

variable {n : Nat} (S : ErasureStore n)

/-- What a write takes of its body. -/
def takenOf (body : Body) (encrypt : Bool) : Bytes :=
  if S.shouldEncrypt encrypt then Crypto.sealable body else body.data

variable {S}

theorem takenOf_ofBytes (bytes : Bytes) (encrypt : Bool) :
    S.takenOf (.ofBytes bytes) encrypt = bytes := by
  unfold takenOf
  split
  · exact Crypto.sealable_ofBytes bytes
  · rfl

/-- What a write stored is read as what it took. -/
theorem bytesOf_copyFrom (hcr : S.crypto.Lawful) (hblock : 0 < S.blockSize) {env : CallEnv}
    {body src : Body} {encrypt : Bool}
    (hsrc : S.sourceOf env body (S.shouldEncrypt encrypt) = some src)
    (hend : (bodyBlocks S.blockSize src).2 = false) (contentType : Str)
    (userMetadata : UserMeta) :
    S.bytesOf (VersionCall.copyFrom S env src contentType userMetadata encrypt) =
      .ok (S.takenOf body encrypt) := by
  have henc : (VersionCall.copyFrom S env src contentType userMetadata encrypt).xl.encrypted =
      S.shouldEncrypt encrypt := rfl
  have hflat : (VersionCall.copyFrom S env src contentType userMetadata encrypt).blocks.flatten =
      src.data := (bodyBlocks_whole hblock (Prod.ext rfl hend)).2
  unfold bytesOf takenOf
  unfold sourceOf at hsrc
  rw [henc, hflat]
  by_cases he : S.shouldEncrypt encrypt = true
  · rw [if_pos he] at hsrc ⊢
    rw [if_pos he, Crypto.decrypting_encrypting hcr hsrc]
  · rw [if_neg he] at hsrc ⊢
    rw [if_neg he, Option.some.inj hsrc]

end ErasureStore

section

variable {n : Nat} {S : ErasureStore n} {root : Fin n → List Str} {bucket key : Str}
  {used : List Str} {vs : KeyVersions} {t : Cluster n Doc}

/-- Where something is of a key, its bucket is. -/
theorem bucketUp_of_slot {site : Site n} (hb : validateBucketName bucket = .ok ())
    (hkey : validateKey key = .ok ()) {d : Fin n} (hup : site.up d = true) {k : KeyState}
    (hk : Keeps S site bucket key (fun _ => k) t) {slot : Option Str} (hs : ProperVersion slot)
    {c : Copy} (hslot : k.slot slot = some c) : bucketUp site bucket t = true := by
  have htop : (t d).look (site.objDir bucket key d) = some .dir := by
    refine (hk d).top_dir (a := .xl slot) hs ?_
    rw [KeyState.shelf, hslot]
    exact Option.some_ne_none _
  refine List.any_eq_true.2 ⟨d, List.mem_finRange d, ?_⟩
  rw [hup, Bool.true_and]
  obtain ⟨rest, hrest⟩ : (rBucket bucket).resolve (site.root d) <+: site.objDir bucket key d :=
    Site.bucket_prefix_objDir (validateBucketName_atom hb) (validateKey_plain hkey)
  rw [← hrest] at htop
  by_cases hnil : rest = []
  · rw [hnil, List.append_nil] at htop
    exact isDir_of_look htop
  · exact isDir_of_look (look_ancestor hnil htop)

namespace Chronicled

/-- A version is read, under its id, as what it is. -/
theorem getObjectVersion (hS : S.codec.Lawful)
    (hb : validateBucketName bucket = .ok ()) (hkey : validateKey key = .ok ())
    (h : Chronicled S root bucket key used vs t) {v : Version Str VEntry Copy} (hv : v ∈ vs)
    {c : Copy} (hbody : v.body = some c) {bytes : Bytes} (hbytes : S.bytesOf c = .ok bytes) :
    ((allUp root).run (S.getObjectVersion bucket key v.id) t).1 =
      .ok ({ metaToObject key c.xl with versionId := some v.id }, bytes) := by
  obtain ⟨k, hk, hrec, -⟩ := h.kept
  have hdrives : 0 < n := by
    have hdata := S.codec.data_pos
    have htotal := S.total_eq
    rw [Codec.total] at htotal
    omega
  obtain ⟨k', slot, hseed, hfind, hslot, hkc, hkc'⟩ :=
    hrec.findVersion (allUp_up root) ⟨0, hdrives⟩ hv hbody
  have hs : ProperVersion slot := by
    rcases hslot with rfl | rfl
    · exact properVersion_none
    · exact fun w hw => Option.some.inj hw ▸ h.proper v hv
  have hbucket := bucketUp_of_slot (d := ⟨0, hdrives⟩) hb hkey rfl hk hs hkc
  obtain ⟨t', hlocate, hk'⟩ := leads_locateVersion hk hbucket v.id
  rw [hfind] at hlocate
  rw [hseed] at hk'
  have hread : (allUp root).run (readXlV bucket key slot) t' = (.ok c.xl, t') := by
    rw [hk'.run_readXlV hs, KeyStates.xlUp_same (fun _ => rfl) ⟨0, hdrives⟩, hkc']
    rfl
  have hstream := run_readBody_kept hS (fun _ => rfl) hk' hs (h.minted v hv c hbody) hkc'
  rw [ErasureStore.getObjectVersion, Site.run_bind, hlocate, Prog.andThen_ok, Site.run_bind,
    hread, Prog.andThen_ok, Site.run_bind]
  generalize (allUp root).run (S.readBody bucket key slot c.xl) t' = r at hstream ⊢
  obtain ⟨r, t''⟩ := r
  obtain rfl : r = .ok bytes := hstream.trans hbytes
  rfl

end Chronicled

end

/-! ## Versions that stay -/

namespace VersionCall

variable {n : Nat} (S : ErasureStore n) (site : Site n)

/-- What a write takes; a copy takes what it reads of its source. -/
def wrote (s : Cluster n Doc) : VersionCall → Option (CallEnv × Bytes)
  | put env body _ _ encrypt => some (env, S.takenOf body encrypt)
  | copy env srcBucket srcKey _ =>
      match (site.run (S.getObject srcBucket srcKey) s).1 with
      | .ok (_, bytes) => some (env, bytes)
      | .error _ => none
  | _ => none

end VersionCall

/-- The id that a write in a mode gives its version. -/
def writtenId (env : CallEnv) (mode : VMode) : Str :=
  if mode = .off then NULL else newVersionId env mode

/-- A call that takes a version of the key away: it deletes the version's id, or writes the
null version anew. -/
def StoreCall.Drops (bucket key i : Str) (mode : VMode) : StoreCall → Prop
  | on b k (.deleteVersion j) => b = bucket ∧ k = key ∧ j = i
  | on b k _ => b = bucket ∧ k = key ∧ i = NULL ∧ mode ≠ .enabled
  | .setVersioning _ _ => False

instance (bucket key i : Str) (mode : VMode) :
    (c : StoreCall) → Decidable (c.Drops bucket key i mode)
  | .on b k (.deleteVersion j) => inferInstanceAs (Decidable (b = bucket ∧ k = key ∧ j = i))
  | .on b k (.put ..) | .on b k (.copy ..) | .on b k (.delete _) =>
      inferInstanceAs (Decidable (b = bucket ∧ k = key ∧ i = NULL ∧ mode ≠ .enabled))
  | .setVersioning _ _ => inferInstanceAs (Decidable False)

section

variable {n : Nat} {S : ErasureStore n} {root : Fin n → List Str} {bucket key : Str}
  {used : List Str} {vs : KeyVersions} {t : Cluster n Doc}

theorem found_written (key : Str) (vs : KeyVersions) (env : CallEnv) (mode : VMode)
    (c : Copy) :
    ∃ v, lookup (KeyState.Records.written key env mode vs c) (writtenId env mode) = some v ∧
      v.id = writtenId env mode ∧ v.body = some c := by
  unfold KeyState.Records.written writtenId
  by_cases hoff : mode = .off
  · rw [if_pos hoff, if_pos hoff]
    exact ⟨legacyVersion c, rfl, rfl, rfl⟩
  · rw [if_neg hoff, if_neg hoff]
    exact ⟨_, lookup_push_self, rfl, rfl⟩

namespace Chronicled

theorem null_of_off (h : Chronicled S root bucket key used vs t)
    (hoff : modeOf (allUp root) bucket t = .off) : ∀ v ∈ vs, v.id = NULL := by
  obtain ⟨k, -, hrec, hnone⟩ := h.kept
  intro v hv
  rcases hrec.history with ⟨e, he⟩ | ⟨-, hvs⟩
  · rw [hnone hoff] at he
    cases he
  · rcases hvs with rfl | ⟨c, rfl⟩
    · cases hv
    · obtain rfl := List.mem_singleton.1 hv
      rfl

/-- A version stays when another is written, unless it is the null version and is replaced. -/
theorem lookup_push (h : Chronicled S root bucket key used vs t) {env : CallEnv}
    (hfresh : env.freshId.text ∉ used) {i : Str} {v : Version Str VEntry Copy}
    (hlook : lookup vs i = some v)
    (hdrop : ¬ (i = NULL ∧ modeOf (allUp root) bucket t ≠ .enabled)) (info : VEntry)
    (body : Option Copy) :
    lookup (push vs ⟨newVersionId env (modeOf (allUp root) bucket t), info, body⟩) i =
      some v := by
  obtain rfl := lookup_id hlook
  have hne := h.fresh_ne hfresh v (lookup_mem hlook)
  rw [lookup_push_of_ne, hlook]
  intro hid
  cases hmode : modeOf (allUp root) bucket t with
  | off => exact hdrop ⟨h.null_of_off hmode v (lookup_mem hlook), by simp [hmode]⟩
  | enabled =>
      rw [hmode] at hid
      exact hne hid
  | suspended =>
      rw [hmode] at hid
      exact hdrop ⟨hid, by simp [hmode]⟩

theorem lookup_written (h : Chronicled S root bucket key used vs t) {env : CallEnv}
    (hfresh : env.freshId.text ∉ used) {i : Str} {v : Version Str VEntry Copy}
    (hlook : lookup vs i = some v)
    (hdrop : ¬ (i = NULL ∧ modeOf (allUp root) bucket t ≠ .enabled)) (c : Copy) :
    lookup (KeyState.Records.written key env (modeOf (allUp root) bucket t) vs c) i = some v := by
  unfold KeyState.Records.written
  by_cases hoff : modeOf (allUp root) bucket t = .off
  · obtain rfl := lookup_id hlook
    refine absurd ⟨h.null_of_off hoff v (lookup_mem hlook), ?_⟩ hdrop
    rw [hoff]
    exact fun h0 => nomatch h0
  · rw [if_neg hoff]
    exact h.lookup_push hfresh hlook hdrop _ _

/-- A version stays over a call that does not take it away. -/
theorem lookup_step (h : Chronicled S root bucket key used vs t) {c : StoreCall}
    (hfresh : ∀ f, c.fresh = some f → f ∉ used) {i : Str} {v : Version Str VEntry Copy}
    (hlook : lookup vs i = some v)
    (hdrop : ¬ c.Drops bucket key i (modeOf (allUp root) bucket t)) :
    lookup (c.change S (allUp root) bucket key t vs) i = some v := by
  cases c with
  | setVersioning b enable => exact hlook
  | on b k c =>
      by_cases hsame : b = bucket ∧ k = key
      · obtain ⟨rfl, rfl⟩ := hsame
        rw [StoreCall.change, if_pos ⟨rfl, rfl⟩]
        cases c with
        | put env body contentType userMetadata encrypt =>
            have hdrop' := fun h0 => hdrop ⟨rfl, rfl, h0⟩
            unfold VersionCall.change VersionCall.stores
            dsimp only
            cases VersionCall.copyOf S env body contentType userMetadata encrypt with
            | none => exact hlook
            | some c => exact h.lookup_written (hfresh _ rfl) hlook hdrop' c
        | copy env srcBucket srcKey encrypt =>
            have hdrop' := fun h0 => hdrop ⟨rfl, rfl, h0⟩
            unfold VersionCall.change VersionCall.stores
            dsimp only
            cases ((allUp root).run (S.getObject srcBucket srcKey) t).1 with
            | error e => exact hlook
            | ok r =>
                dsimp only
                cases VersionCall.copyOf S env (.ofBytes r.2) r.1.contentType r.1.userMetadata
                  encrypt with
                | none => exact hlook
                | some c => exact h.lookup_written (hfresh _ rfl) hlook hdrop' c
        | delete env =>
            have hdrop' := fun h0 => hdrop ⟨rfl, rfl, h0⟩
            unfold VersionCall.change
            dsimp only
            by_cases hoff : modeOf (allUp root) b t = .off
            · obtain rfl := lookup_id hlook
              refine absurd ⟨h.null_of_off hoff v (lookup_mem hlook), ?_⟩ hdrop'
              rw [hoff]
              exact fun h0 => nomatch h0
            · rw [if_neg hoff]
              exact h.lookup_push (hfresh _ rfl) hlook hdrop' _ _
        | deleteVersion j =>
            have hne : i ≠ j := fun h0 => hdrop ⟨rfl, rfl, h0.symm⟩
            exact (lookup_without_of_ne hne).trans hlook
      · rw [StoreCall.change, if_neg hsame]
        exact hlook

/-- And over a run of such calls. -/
theorem lookup_run (hS : S.codec.Lawful) (hb : validateBucketName bucket = .ok ())
    (hkey : validateKey key = .ok ()) {i : Str} {v : Version Str VEntry Copy}
    (calls : List StoreCall) :
    ∀ {used : List Str} {vs : KeyVersions} {t : Cluster n Doc},
      Chronicled S root bucket key used vs t → (∀ c ∈ calls, c.Beside bucket key) →
      (∀ w ∈ (storeMachine S root).visits t calls, w.answer = .ok () ∧
        ¬ w.call.Drops bucket key i (modeOf (allUp root) bucket w.before)) →
      (used ++ calls.filterMap StoreCall.fresh).Nodup → lookup vs i = some v →
      lookup (versionsAfter S root bucket key t vs calls) i = some v := by
  induction calls with
  | nil => exact fun _ _ _ _ hlook => hlook
  | cons c calls ih =>
      intro used vs t h hbeside hok hfresh hlook
      rw [used_cons] at hfresh
      rw [Machine.visits_cons] at hok
      obtain ⟨⟨hfirst, hdrop⟩, hrest⟩ := List.forall_mem_cons.1 hok
      obtain ⟨hc, hcalls⟩ := List.forall_mem_cons.1 hbeside
      have hnew := fresh_of_nodup hfresh
      exact ih (h.step hS hb hkey c hc hnew hfirst) hcalls hrest hfresh
        (h.lookup_step hnew hlook hdrop)

/-- An acknowledged write is a version, with what the write took. -/
theorem lookup_wrote (hS : S.codec.Lawful) (hcr : S.crypto.Lawful) (hblock : 0 < S.blockSize)
    (hb : validateBucketName bucket = .ok ()) (hkey : validateKey key = .ok ())
    (h : Chronicled S root bucket key used vs t) {c : VersionCall}
    (hfresh : ∀ f, c.fresh = some f → f ∉ used)
    (hok : ((allUp root).run (c.prog S bucket key) t).1 = .ok ()) {env : CallEnv} {bytes : Bytes}
    (hwrote : c.wrote S (allUp root) t = some (env, bytes)) :
    ∃ v stored, lookup (c.change S (allUp root) bucket key t vs)
        (writtenId env (modeOf (allUp root) bucket t)) = some v ∧
      v.id = writtenId env (modeOf (allUp root) bucket t) ∧ v.body = some stored ∧
      S.bytesOf stored = .ok bytes := by
  cases c with
  | put env' body contentType userMetadata encrypt =>
      obtain ⟨rfl, rfl⟩ := Prod.mk.inj (Option.some.inj hwrote)
      obtain ⟨m, hm⟩ := run_unit_ok hok
      obtain ⟨src, hsrc, hend, -⟩ := h.put hb hkey hS (hfresh _ rfl) hm
      unfold VersionCall.change VersionCall.stores VersionCall.copyOf
      dsimp only
      rw [hsrc]
      obtain ⟨v, hlook, hid, hbody⟩ := found_written key vs env' (modeOf (allUp root) bucket t)
        (VersionCall.copyFrom S env' src contentType userMetadata encrypt)
      exact ⟨v, _, hlook, hid, hbody, bytesOf_copyFrom hcr hblock hsrc hend _ _⟩
  | copy env' srcBucket srcKey encrypt =>
      obtain ⟨m, hm⟩ := run_unit_ok hok
      rw [run_copyObject_put] at hm
      unfold VersionCall.wrote at hwrote
      unfold VersionCall.change VersionCall.stores VersionCall.copyOf
      dsimp only at hwrote ⊢
      cases hget : ((allUp root).run (S.getObject srcBucket srcKey) t).1 with
      | error e =>
          rw [hget] at hm
          cases hm
      | ok r =>
          obtain ⟨found, read⟩ := r
          rw [hget] at hm hwrote
          obtain ⟨rfl, rfl⟩ := Prod.mk.inj (Option.some.inj hwrote)
          obtain ⟨src, hsrc, hend, -⟩ := h.put hb hkey hS (hfresh _ rfl) hm
          dsimp only
          rw [hsrc]
          obtain ⟨v, hlook, hid, hbody⟩ := found_written key vs env'
            (modeOf (allUp root) bucket t)
            (VersionCall.copyFrom S env' src found.contentType found.userMetadata encrypt)
          refine ⟨v, _, hlook, hid, hbody, ?_⟩
          rw [bytesOf_copyFrom hcr hblock hsrc hend, takenOf_ofBytes]
  | delete env' => cases hwrote
  | deleteVersion j => cases hwrote

end Chronicled

/-- **The versions of a key.**  From drives that have nothing of a key, whatever is put,
copied and deleted, on it and on keys not nested with it, and however versioning is set on
the way: all drives have the versions that the calls on the key add up to, with history,
current slot and archive belonging together.  And what a write took is read under the id it
was given, until a call deletes that id or replaces the null version. -/
theorem versions_kept (hS : S.codec.Lawful) (hcr : S.crypto.Lawful) (hblock : 0 < S.blockSize)
    (hb : validateBucketName bucket = .ok ()) (hkey : validateKey key = .ok ())
    (hdocs : ProperCluster t)
    (hnew : ∀ d, Untouched (t d) ((rObject bucket key).resolve (root d)))
    (calls : List StoreCall) (hbeside : ∀ c ∈ calls, c.Beside bucket key)
    (hok : ∀ v ∈ (storeMachine S root).visits t calls, v.answer = .ok ())
    (hfresh : (calls.filterMap StoreCall.fresh).Nodup) :
    (∃ k, Keeps S (allUp root) bucket key (fun _ => k) ((storeMachine S root).final t calls) ∧
      k.Records (versionsAfter S root bucket key t [] calls) ∧ k.Consistent) ∧
    ∀ (pre : List StoreCall) (c : VersionCall) (post : List StoreCall) (env : CallEnv)
      (bytes : Bytes), calls = pre ++ .on bucket key c :: post →
      c.wrote S (allUp root) ((storeMachine S root).final t pre) = some (env, bytes) →
      (∀ v ∈ (storeMachine S root).visits
          ((storeMachine S root).final t (pre ++ [.on bucket key c])) post,
        ¬ v.call.Drops bucket key
          (writtenId env (modeOf (allUp root) bucket ((storeMachine S root).final t pre)))
          (modeOf (allUp root) bucket v.before)) →
      ∃ m, ((allUp root).run (S.getObjectVersion bucket key
          (writtenId env (modeOf (allUp root) bucket ((storeMachine S root).final t pre))))
        ((storeMachine S root).final t calls)).1 = .ok (m, bytes) := by
  have hstart : Chronicled S root bucket key [] [] t := .start hdocs hnew
  have hend := hstart.run hS hb hkey calls hbeside hok (by simpa using hfresh)
  obtain ⟨k, hk, hrec, -⟩ := hend.kept
  refine ⟨⟨k, hk, hrec, hrec.consistent⟩, ?_⟩
  intro pre c post env bytes hcalls hwrote hdrop
  subst hcalls
  -- Up to the write, over it, and from it to the end.
  rw [Machine.visits_append, Machine.visits_cons] at hok
  obtain ⟨hokpre, hokrest⟩ := List.forall_mem_append.1 hok
  obtain ⟨hokc, hokpost⟩ := List.forall_mem_cons.1 hokrest
  obtain ⟨hbpre, hbrest⟩ := List.forall_mem_append.1 hbeside
  obtain ⟨hbc, hbpost⟩ := List.forall_mem_cons.1 hbrest
  rw [List.filterMap_append] at hfresh
  have h₁ := hstart.run hS hb hkey pre hbpre hokpre
    (by simpa using (List.nodup_append.1 hfresh).1)
  rw [List.nil_append] at h₁
  rw [used_cons] at hfresh
  have hnewid := fresh_of_nodup hfresh
  have h₂ := h₁.step hS hb hkey _ hbc hnewid hokc
  obtain ⟨v, stored, hlook, hid, hbody, hbytes⟩ := h₁.lookup_wrote hS hcr hblock hb hkey hnewid
    hokc hwrote
  rw [Machine.final_snoc] at hdrop
  have hchange : (StoreCall.on bucket key c).change S (allUp root) bucket key
      ((storeMachine S root).final t pre) (versionsAfter S root bucket key t [] pre) =
      c.change S (allUp root) bucket key ((storeMachine S root).final t pre)
        (versionsAfter S root bucket key t [] pre) := if_pos ⟨rfl, rfl⟩
  rw [hchange] at h₂
  have hlast := h₂.lookup_run hS hb hkey post hbpost
    (fun w hw => ⟨hokpost w hw, hdrop w hw⟩) hfresh hlook
  have hmem := lookup_mem hlast
  have hread := (h₂.run hS hb hkey post hbpost hokpost hfresh).getObjectVersion hS hb hkey hmem
     hbody hbytes
  rw [hid] at hread
  rw [Machine.final_append]
  exact ⟨_, hread⟩

end

/-- A put before versioning, and one after; a copy to another key; with versioning suspended,
a delete, which takes away what was put first. -/
def versionedCalls : List StoreCall :=
  [.on "docs".toList "key".toList (.put (callAt 'a' 1 isHexLower_a) (.ofBytes [1, 2]) [] []
      false),
    .setVersioning "docs".toList true,
    .on "docs".toList "key".toList (.put (callAt 'b' 2 isHexLower_b) (.ofBytes [3]) [] [] true),
    .on "docs".toList "other".toList (.copy (callAt 'c' 3 isHexLower_c) "docs".toList
      "key".toList false),
    .setVersioning "docs".toList false,
    .on "docs".toList "key".toList (.delete (callAt 'd' 4 isHexLower_d))]

theorem versions_kept_trio :
    ∃ m, ((allUp topRoot).run (trio.getObjectVersion "docs".toList "key".toList
        (List.replicate 32 'b'))
      ((storeMachine trio topRoot).final (withBucket "docs".toList) versionedCalls)).1 =
        .ok (m, [3]) := by
  have hid : writtenId (callAt 'b' 2 isHexLower_b) (modeOf (allUp topRoot) "docs".toList
      ((storeMachine trio topRoot).final (withBucket "docs".toList)
        (versionedCalls.take 2))) = List.replicate 32 'b' := by decide +kernel
  have hkept := (@versions_kept 3 trio topRoot _ _ _ ErasureStore.trio_lawful Crypto.tagged_lawful
    (by decide) (by decide +kernel) (by decide +kernel) (properCluster_withBucket "docs".toList)
    (by decide +kernel) versionedCalls (by decide +kernel) (by decide +kernel)
    (by decide +kernel)).2 (versionedCalls.take 2)
    (.put (callAt 'b' 2 isHexLower_b) (.ofBytes [3]) [] [] true) (versionedCalls.drop 3)
    (callAt 'b' 2 isHexLower_b) [3] rfl rfl (by rw [hid]; decide +kernel)
  rwa [hid] at hkept

end Kerplace
