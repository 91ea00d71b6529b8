/-
# `Kerplace.Fs.Isolation` — what a call on one key leaves of another

A run of calls on the filesystem store, and what one more call on a key does to what is
stored and listed of another key of the bucket.  The paths of two keys decide it: where
no file of the one is, or stands above, a file of the other, nothing of the other changes.
The validator admits keys for which that fails, such as two spellings of one path.
-/
import Kerplace.Fs.Places
import Kerplace.Erasure.Listing
import Kerplace.Lib.Machine

namespace Kerplace

open FileTree Prog UnixPath

namespace FsStore

variable {S : FsStore} {root : List Str} {bucket key : Str} {t t' : Tree FsDoc}

/-! ## Reading -/

/-- The result of a call. -/
def result {α : Type} (root : List Str) (p : FStore α) (t : Tree FsDoc) : Except S3Error α :=
  (runE (LocalDrive.step root) p t).1

/-- The tree a call leaves. -/
def after {α : Type} (root : List Str) (p : FStore α) (t : Tree FsDoc) : Tree FsDoc :=
  (runE (LocalDrive.step root) p t).2

theorem run_onDisk {α : Type} (p : DriveProg FsDoc α) (t : Tree FsDoc) :
    runE (LocalDrive.step root) (onDisk p) t =
      (.ok (p.exec (LocalDrive.step root) t).1, (p.exec (LocalDrive.step root) t).2) :=
  runE_lift p t

/-- The document of type `α` at a path. -/
def docIn {α : Type} (decode : FsDoc → Option α) (t : Tree FsDoc) (p : List Str) : Option α :=
  ((t.file? p).bind Content.doc?).bind decode

/-- What `read_stored` finds. -/
def storedIn (S : FsStore) (root : List Str) (bucket key : Str) (t : Tree FsDoc) :
    Except S3Error StoredMeta :=
  match t.file? ((objectPath bucket key).resolve root) with
  | none => .error .noSuchKey
  | some payload => .ok ((docIn FsDoc.stored? t ((metaPath bucket key).resolve root)).getD
      (reconstructed (S.fileLen payload) (S.modified (objectPath bucket key)) none))

theorem run_readStored :
    runE (LocalDrive.step root) (S.readStored bucket key) t =
      (storedIn S root bucket key t, t) := by
  unfold readStored storedIn
  rw [runE_bind, run_onDisk, andThen_ok, LocalDrive.exec_read]
  cases t.file? ((objectPath bucket key).resolve root) with
  | none => rfl
  | some payload =>
      dsimp only
      rw [runE_bind, run_onDisk, andThen_ok, LocalDrive.exec_readDoc]
      unfold docIn
      cases ((t.file? ((metaPath bucket key).resolve root)).bind Content.doc?).bind
        FsDoc.stored? with
      | none => rfl
      | some m => rfl

/-! ## What is seen of a key -/

/-- The key a listing reads off a payload's path below the bucket. -/
def keyOfEntry (e : List Str × Bool) : Option Str :=
  if e.2 then
    if e.1.getLast? = some DIR_MARKER then
      if e.1.dropLast = [] then none else some (joinSlash e.1.dropLast ++ ['/'])
    else some (joinSlash e.1)
  else none

/-- The walk of a listing comes to the key's payload, and reads the key off it. -/
def Listed (root : List Str) (bucket key : Str) (t : Tree FsDoc) : Prop :=
  (compsBelow key .payload, true) ∈ t.walk ((bucketPath bucket).resolve root) ∧
    keyOfEntry (compsBelow key .payload, true) = some key

/-- Nothing stored or listed of a key changed. -/
structure Undisturbed (S : FsStore) (root : List Str) (bucket key : Str) (t t' : Tree FsDoc) :
    Prop where
  get : result root (S.getObject bucket key) t' = result root (S.getObject bucket key) t
  tags : result root (S.getObjectTags bucket key) t' =
    result root (S.getObjectTags bucket key) t
  retention : result root (S.getObjectRetention bucket key) t' =
    result root (S.getObjectRetention bucket key) t
  legalHold : result root (S.getObjectLegalHold bucket key) t' =
    result root (S.getObjectLegalHold bucket key) t
  history : result root (readHistory bucket key) t' = result root (readHistory bucket key) t
  archives : ∀ vid, ProperId vid →
    t'.file? ((versionDataPath bucket key vid).resolve root) =
        t.file? ((versionDataPath bucket key vid).resolve root) ∧
      t'.file? ((versionMetaPath bucket key vid).resolve root) =
        t.file? ((versionMetaPath bucket key vid).resolve root)
  listed : Listed root bucket key t' ↔ Listed root bucket key t

theorem storedIn_congr
    (h : ∀ k : FileKind, k.Proper → t'.file? ((keyPath bucket key k).resolve root) =
      t.file? ((keyPath bucket key k).resolve root)) :
    storedIn S root bucket key t' = storedIn S root bucket key t := by
  have hpayload : t'.file? ((objectPath bucket key).resolve root) = _ := h .payload trivial
  have hmeta : t'.file? ((metaPath bucket key).resolve root) = _ := h .metadata trivial
  unfold storedIn docIn
  rw [hpayload, hmeta]
  rfl

theorem result_getSidecar {α : Type} {suffix : Str} {decode : FsDoc → Option α} :
    result root (S.getSidecar bucket key suffix decode) t =
      (storedIn S root bucket key t).map fun _ =>
        docIn decode t ((objectSidecar bucket key suffix).resolve root) := by
  unfold result getSidecar headObject
  rw [runE_bind, runE_bind, run_readStored]
  cases storedIn S root bucket key t with
  | error e => rfl
  | ok m => rfl

theorem result_getObject :
    result root (S.getObject bucket key) t =
      (storedIn S root bucket key t).bind fun m =>
        match t.file? ((objectPath bucket key).resolve root) with
        | none => .error .noSuchKey
        | some c =>
            match S.plainBytes m.encrypted (c.bytes?.getD []) with
            | some plain => .ok (storedToMeta key m, plain)
            | none => .error (.internal "decrypt object") := by
  unfold result getObject
  rw [runE_bind, run_readStored]
  cases storedIn S root bucket key t with
  | error e => rfl
  | ok m =>
      rw [andThen_ok, runE_bind]
      unfold readPayload
      rw [runE_bind, run_onDisk, LocalDrive.exec_read, andThen_ok]
      dsimp only [Except.bind]
      cases t.file? ((objectPath bucket key).resolve root) with
      | none => rfl
      | some c =>
          dsimp only
          cases S.plainBytes m.encrypted (c.bytes?.getD []) with
          | none => rfl
          | some plain => rfl

theorem result_readHistory :
    result root (readHistory bucket key) t =
      .ok ((docIn FsDoc.history? t ((historyPath bucket key).resolve root)).getD ⟨[]⟩) := rfl

/-- A key whose files are as they were is undisturbed. -/
theorem undisturbed (hb : validateBucketName bucket = .ok ()) (hk : validateKey key = .ok ())
    (h : ∀ k : FileKind, k.Proper → t'.file? ((keyPath bucket key k).resolve root) =
      t.file? ((keyPath bucket key k).resolve root)) :
    Undisturbed S root bucket key t t' := by
  have hstored := storedIn_congr (S := S) h
  have hsidecar : ∀ {α : Type} (suffix : Str) (decode : FsDoc → Option α),
      suffix ∈ SIDECARS → result root (S.getSidecar bucket key suffix decode) t' =
        result root (S.getSidecar bucket key suffix decode) t := by
    intro α suffix decode hs
    have hfile : t'.file? ((objectSidecar bucket key suffix).resolve root) = _ :=
      h (.sidecar suffix) hs
    rw [result_getSidecar, result_getSidecar, hstored]
    unfold docIn
    rw [hfile]
    rfl
  have hpayload : t'.file? ((objectPath bucket key).resolve root) = _ := h .payload trivial
  have hhistory : t'.file? ((historyPath bucket key).resolve root) = _ := h .history trivial
  refine ⟨?_, hsidecar TAGS _ (by decide), hsidecar RETENTION _ (by decide),
    hsidecar LEGALHOLD _ (by decide), ?_, fun vid hv => ⟨h (.archivedData vid) hv,
      h (.archivedMeta vid) hv⟩, ?_⟩
  · rw [result_getObject, result_getObject, hstored, hpayload]
    rfl
  · rw [result_readHistory, result_readHistory]
    unfold docIn
    rw [hhistory]
    rfl
  · -- The payload's entry is in the walk just when the payload is a file.
    have hpath := resolve_keyPath (validateBucketName_atom hb) hk
      (k := .payload) trivial root
    have hwalk : ∀ u : Tree FsDoc, (compsBelow key .payload, true) ∈
        u.walk ((bucketPath bucket).resolve root) ↔ compsBelow key .payload ≠ [] ∧
          (u.file? ((objectPath bucket key).resolve root)).isSome = true := by
      intro u
      rw [mem_walk, resolve_bucketPath (validateBucketName_atom hb),
        show (objectPath bucket key).resolve root = _ from hpath]
      refine and_congr Iff.rfl ⟨?_, fun hsome => ?_⟩
      · rintro ⟨n, -, hn⟩
        exact hn.symm
      · obtain ⟨c, hc⟩ := Option.isSome_iff_exists.1 hsome
        exact ⟨.file c, file?_eq_some.1 hc, hsome.symm⟩
    unfold Listed
    rw [hwalk, hwalk, hpayload]
    rfl

/-! ## Runs -/

/-- The calls of a run: those on keys and those that set a bucket up. -/
inductive FsCall where
  | createBucket (bucket : Str)
  | setBucketVersioning (bucket status : Str)
  | put (env : FsEnv) (bucket key : Str) (body : Body) (contentType : Str)
      (userMetadata : UserMeta) (encrypt : Bool)
  | copy (env : FsEnv) (srcBucket srcKey bucket key : Str) (encrypt : Bool)
  | delete (env : CallEnv) (bucket key : Str)
  | deleteVersion (bucket key vid : Str)
  | setTags (bucket key : Str) (tags : UserMeta)
  | deleteTags (bucket key : Str)
  | setRetention (bucket key data : Str)
  | setLegalHold (bucket key status : Str)
  | findVersion (bucket key vid : Str)

namespace FsCall

/-- What a call does with the store; its answer is left out. -/
def prog (S : FsStore) : FsCall → FStore Unit
  | createBucket b => FsStore.createBucket b
  | setBucketVersioning b st => FsStore.setBucketVersioning b st
  | put env b k body ct um enc => do let _ ← S.putObject env b k body ct um enc
  | copy env sb sk b k enc => do let _ ← S.copyObject env sb sk b k enc
  | delete env b k => do let _ ← S.deleteObject env b k
  | deleteVersion b k vid => do let _ ← S.deleteObjectVersion b k vid
  | setTags b k tags => S.setObjectTags b k tags
  | deleteTags b k => S.deleteObjectTags b k
  | setRetention b k data => S.setObjectRetention b k data
  | setLegalHold b k st => S.setObjectLegalHold b k st
  | findVersion b k vid => do let _ ← S.findVersion b k vid

/-- The key a call changes. -/
def target : FsCall → Option (Str × Str)
  | createBucket _ => none
  | setBucketVersioning _ _ => none
  | put _ b k _ _ _ _ => some (b, k)
  | copy _ _ _ b k _ => some (b, k)
  | delete _ b k => some (b, k)
  | deleteVersion b k _ => some (b, k)
  | setTags b k _ => some (b, k)
  | deleteTags b k => some (b, k)
  | setRetention b k _ => some (b, k)
  | setLegalHold b k _ => some (b, k)
  | findVersion b k _ => some (b, k)

/-- A call on a key changes that key's files and temporary files alone. -/
theorem meets (c : FsCall) {W : UnixPath → Prop}
    (hW : ∀ b k, c.target = some (b, k) → ∀ p, KeyWrites b k p → W p)
    (hbucket : ∀ b, c = .createBucket b → DirOf W (bucketPath b))
    (hcfg : ∀ b st, c = .setBucketVersioning b st → W (bucketCfgFile b VERSIONING)) :
    MeetsE (fsContract W) (c.prog S) fun _ => True := by
  cases c with
  | createBucket b => exact meetsE_createBucket (hbucket b rfl)
  | setBucketVersioning b st => exact meetsE_setBucketVersioning (hcfg b st rfl)
  | put env b k body ct um enc =>
      exact (meetsE_putObject (hW b k rfl)).then fun _ => meetsE_pure.2 trivial
  | copy env sb sk b k enc =>
      exact (meetsE_copyObject (hW b k rfl)).then fun _ => meetsE_pure.2 trivial
  | delete env b k =>
      exact (meetsE_deleteObject (hW b k rfl)).then fun _ => meetsE_pure.2 trivial
  | deleteVersion b k vid =>
      exact (meetsE_deleteObjectVersion (hW b k rfl)).then fun _ => meetsE_pure.2 trivial
  | setTags b k tags =>
      exact meetsE_setSidecar (hW b k rfl) (show TAGS ∈ SIDECARS by decide)
        fun _ h => by cases h
  | deleteTags b k => exact meetsE_deleteObjectTags (hW b k rfl)
  | setRetention b k data =>
      exact meetsE_setSidecar (hW b k rfl) (show RETENTION ∈ SIDECARS by decide)
        fun _ h => by cases h
  | setLegalHold b k st =>
      exact meetsE_setSidecar (hW b k rfl) (show LEGALHOLD ∈ SIDECARS by decide)
        fun _ h => by cases h
  | findVersion b k vid =>
      exact (meetsE_findVersion (hW b k rfl)).then fun _ => meetsE_pure.2 trivial

end FsCall

/-- The store taking calls. -/
def fsMachine (S : FsStore) (root : List Str) :
    Machine (Tree FsDoc) FsCall (Except S3Error Unit) where
  step t c := runE (LocalDrive.step root) (c.prog S) t

theorem dirOf_true (dir : UnixPath) : DirOf (fun _ => True) dir :=
  ⟨dir.joinStr TMP, trivial, UnixPath.parent_joinStr_atom (by decide)⟩

/-- The tree after a run of a store opened on `start`. -/
def reached (S : FsStore) (root : List Str) (start : Tree FsDoc) (calls : List FsCall) :
    Tree FsDoc := (fsMachine S root).final (after root new start) calls

theorem docsIn_reached {start : Tree FsDoc} (h0 : ∀ q, start.file? q = none)
    (calls : List FsCall) : DocsIn ProperFsDoc (reached S root start calls) := by
  refine Machine.invariant (P := fun _ u => DocsIn ProperFsDoc u)
    ?_ (fun _ u c hu _ => ?_) calls fun _ _ => trivial
  · refine (LocalDrive.run_writes (meetsE_new (W := fun _ => True) fun dir _ => dirOf_true dir)
      fun q j hj => ?_).1
    have := h0 q
    rw [file?_eq_some.2 hj] at this
    cases this
  · exact (LocalDrive.run_writes (c.meets (W := fun _ => True) (fun _ _ _ _ _ => trivial)
      (fun b _ => dirOf_true _) fun _ _ _ => trivial) hu).1

/-- No file of the first key is, or stands above, a file of the second. -/
def KeysApart (root : List Str) (bucket key key' : Str) : Prop :=
  ∀ k k' : FileKind, k.Proper → k'.Proper →
    ¬ (keyPath bucket key k).resolve root <+: (keyPath bucket key' k').resolve root

/-- After any run, a call on one key leaves a key apart from it undisturbed. -/
theorem keys_isolated (S : FsStore) (root : List Str) (start : Tree FsDoc)
    (hstart : ∀ q, start.file? q = none) (calls : List FsCall) (bucket key key' : Str)
    (hbucket : validateBucketName bucket = .ok ()) (hkey' : validateKey key' = .ok ())
    (hapart : KeysApart root bucket key key') (c : FsCall)
    (htarget : c.target = some (bucket, key)) :
    Undisturbed S root bucket key' (reached S root start calls)
      (reached S root start (calls ++ [c])) := by
  refine undisturbed hbucket hkey' fun k' hk' => ?_
  rw [reached, Machine.final_snoc]
  refine (LocalDrive.run_writes (W := KeyWrites bucket key) (c.meets (fun b k h => ?_)
    (fun b h => ?_) fun b st h => ?_) (docsIn_reached hstart calls)).2 _ ?_
  · rw [htarget] at h
    cases h
    exact fun _ hp => hp
  · rw [h] at htarget
    cases htarget
  · rw [h] at htarget
    cases htarget
  · rintro p (⟨k, hk, rfl⟩ | ⟨id, rfl⟩)
    · exact hapart k k' hk hk'
    · exact tmpFile_apart hbucket hkey' hk' id root

/-! ## A store without encryption -/

/-- A store that never encrypts. -/
def plainStore : FsStore where
  crypto := Crypto.tagged
  encryptAll := false
  md5 := fun _ => []
  encodedLen := fun _ => 0
  modified := fun _ => 0

/-- The surroundings of a call that draws the digits given. -/
def fsCallAt (digit : Char) (now : Int) (h : isHexLower digit = true) : FsEnv :=
  { callAt digit now h with
    tmpId := (callAt digit now h).freshId
    sealedId := (callAt digit now h).freshId }

/-- An object in a bucket. -/
def oneKey (key : Str) : List FsCall :=
  [.createBucket "docs".toList,
    .put (fsCallAt 'a' 1 isHexLower_a) "docs".toList key (.ofBytes [1, 2]) [] [] false]

/-- A put of a second object. -/
def putOther (key : Str) : FsCall :=
  .put (fsCallAt 'b' 2 isHexLower_b) "docs".toList key (.ofBytes [3]) [] [] false

/-- Every file of a key of one segment begins, below its tree, with the key. -/
theorem compsBelow_atom {key : Str} (hk : Atom key) (hslash : key.getLast? ≠ some '/')
    {k : FileKind} (hkind : k.Proper) :
    ∃ suf rest, compsBelow key k = (key ++ suf) :: rest := by
  have hsuffix : ∀ {suf : Str}, '/' ∉ suf → 2 < suf.length → compsOf (key ++ suf) =
      [key ++ suf] := fun hsuf hlen => by
    refine Atom.compsOf ⟨fun h => (List.mem_append.1 h).elim hk.1 hsuf, ?_, ?_, ?_⟩ <;>
      · intro h0
        have := congrArg List.length h0
        simp only [List.length_append, List.length_cons, List.length_nil] at this
        omega
  have hstrip : stripSlash key = none := if_neg hslash
  cases k with
  | payload => exact ⟨[], [], by rw [compsBelow, hstrip, List.append_nil]; exact hk.compsOf⟩
  | metadata => exact ⟨JSON, [], by rw [compsBelow, hstrip]; exact hsuffix (by decide) (by decide)⟩
  | sidecar suffix =>
      refine ⟨'.' :: suffix, [], ?_⟩
      have : suffix ∈ SIDECARS := hkind
      simp only [SIDECARS, List.mem_cons, List.not_mem_nil, or_false] at this
      rcases this with rfl | rfl | rfl <;> exact hsuffix (by decide) (by decide)
  | history => exact ⟨[], _, by rw [compsBelow, hk.compsOf, List.append_nil]; rfl⟩
  | archivedData vid => exact ⟨[], _, by rw [compsBelow, hk.compsOf, List.append_nil]; rfl⟩
  | archivedMeta vid => exact ⟨[], _, by rw [compsBelow, hk.compsOf, List.append_nil]; rfl⟩

/-- Keys of one segment, neither a prefix of the other, are apart. -/
theorem keysApart_atoms {key' : Str} (hb : validateBucketName bucket = .ok ())
    (hk : validateKey key = .ok ()) (hk' : validateKey key' = .ok ()) (ha : Atom key)
    (ha' : Atom key') (hpre : ¬ key <+: key') (hpre' : ¬ key' <+: key) :
    KeysApart root bucket key key' := by
  have hlast : ∀ {s : Str}, Atom s → s.getLast? ≠ some '/' :=
    fun hs h0 => hs.1 (List.mem_of_getLast? h0)
  have hne : ∀ {suf suf' : Str}, key ++ suf ≠ key' ++ suf' := fun h0 =>
    (List.prefix_or_prefix_of_prefix (List.prefix_append key _)
      (h0 ▸ List.prefix_append key' _)).elim hpre hpre'
  have hsys : SYS_DIR ≠ bucket := fun h => ne_sysDir hb h.symm
  have htree : META ≠ VERSIONS := by decide
  intro k k' hkind hkind'
  obtain ⟨suf, rest, hcomps⟩ := compsBelow_atom ha (hlast ha) hkind
  obtain ⟨suf', rest', hcomps'⟩ := compsBelow_atom ha' (hlast ha') hkind'
  have hatom := validateBucketName_atom hb
  rw [resolve_keyPath hatom hk hkind, resolve_keyPath hatom hk' hkind', hcomps, hcomps',
    List.append_assoc, List.append_assoc, List.prefix_append_right_inj]
  cases k <;> cases k' <;> simp [treeOf, hsys, hsys.symm, htree, htree.symm, hne]

/-- A put of a second object leaves the first. -/
theorem keys_isolated_docs :
    Undisturbed plainStore [] "docs".toList "one".toList
      (reached plainStore [] .empty (oneKey "one".toList))
      (reached plainStore [] .empty (oneKey "one".toList ++ [putOther "two".toList])) := by
  refine keys_isolated plainStore [] .empty (fun q => ?_) _ "docs".toList "two".toList
    "one".toList (by decide) (by decide) (keysApart_atoms (by decide) (by decide) (by decide)
      (by decide) (by decide) (by decide) (by decide)) _ rfl
  cases q with
  | nil => rfl
  | cons x q => rw [file?, look_empty _ (by simp)]

/-- Two spellings of one path are two keys: a put of the second replaces the first. -/
theorem double_slash_overwrites :
    validateKey "a/b".toList = .ok () ∧ validateKey "a//b".toList = .ok () ∧
      ¬ Undisturbed plainStore [] "docs".toList "a/b".toList
        (reached plainStore [] .empty (oneKey "a/b".toList))
        (reached plainStore [] .empty (oneKey "a/b".toList ++ [putOther "a//b".toList])) :=
  ⟨by decide, by decide, fun h => absurd h.get (by decide +kernel)⟩

end FsStore

end Kerplace
