/-
# `Kerplace.Fs.Independence` — a write beside a delete of another key

Calls on different keys take turns, one file operation at a time.  The directories their files
lie in are shared: a write makes its directory and then moves a file into it, and a delete
removes directories it finds empty.  While that does not happen in between, each call comes to
what it comes to alone.
-/
import Kerplace.Fs.Own

namespace Kerplace

open FileTree Prog UnixPath

namespace FsStore

/-- A call that writes an object. -/
inductive ObjectWrite where
  | put (env : FsEnv) (body : Body) (contentType : Str) (userMetadata : UserMeta)
      (encrypt : Bool)
  | copy (env : FsEnv) (srcBucket srcKey : Str) (encrypt : Bool)

namespace ObjectWrite

/-- What it does. -/
def prog (S : FsStore) (bucket key : Str) : ObjectWrite → FStore ObjectMeta
  | put env body contentType userMetadata encrypt =>
      S.putObject env bucket key body contentType userMetadata encrypt
  | copy env srcBucket srcKey encrypt => S.copyObject env srcBucket srcKey bucket key encrypt

/-- Its temporary file. -/
def tmp : ObjectWrite → UnixPath
  | put env _ _ _ _ => tmpFile env.tmpId
  | copy env _ _ _ => tmpFile env.tmpId

/-- The files of another key it reads. -/
def Reads : ObjectWrite → UnixPath → Prop
  | put _ _ _ _ _ => fun _ => False
  | copy _ srcBucket srcKey _ => KeyFile srcBucket srcKey

end ObjectWrite

/-- Each call has its result of running alone, and of each key there is what its call alone
leaves. -/
structure Independent (S : FsStore) (root : List Str) (bucket key key' : Str)
    (w : ObjectWrite) (env : CallEnv) (t : Tree FsDoc) (written : Except S3Error ObjectMeta)
    (deleted : Except S3Error DeleteOutcome) (t' : Tree FsDoc) : Prop where
  write : written = result root (w.prog S bucket key) t
  delete : deleted = result root (S.deleteObject env bucket key') t
  contains : Undisturbed S root bucket key (after root (w.prog S bucket key) t) t'
  lacks : Undisturbed S root bucket key' (after root (S.deleteObject env bucket key') t) t'

/-- The two calls, before their first turns. -/
def sideBySide (S : FsStore) (bucket key key' : Str) (w : ObjectWrite) (env : CallEnv)
    (t : Tree FsDoc) : Race (DriveOp FsDoc) DriveOp.Ans (Except S3Error ObjectMeta)
      (Except S3Error DeleteOutcome) (Tree FsDoc) :=
  ⟨(w.prog S bucket key).run, (S.deleteObject env bucket key').run, t⟩

variable {S : FsStore} {root : List Str} {bucket key key' : Str} {w : ObjectWrite}
  {env : CallEnv} {t : Tree FsDoc}

theorem resolve_bucketCfg (hb : Atom bucket) (root : List Str) :
    (bucketCfgFile bucket VERSIONING).resolve root =
      root ++ [SYS_DIR, BUCKETS, bucket, VERSIONING] := by
  rw [bucketCfgFile, bucketCfgDir, resolve_joinStr_atom (by decide), resolve_joinStr_atom hb,
    resolve_joinStr_atom (by decide), resolve_ofStr atom_sysDir.descends, atom_sysDir.compsOf]
  simp

theorem keyPath_not_above (hb : validateBucketName bucket = .ok ())
    (hk : validateKey key = .ok ()) {k : FileKind} (hkind : k.Proper) {d x : Str}
    {rest : List Str} (hmeta : META ≠ d) (hversions : VERSIONS ≠ d) :
    ¬ (keyPath bucket key k).resolve root <+: root ++ SYS_DIR :: d :: x :: rest := by
  have hsys : bucket ≠ SYS_DIR := ne_sysDir hb
  rw [resolve_keyPath (validateBucketName_atom hb) hk hkind, List.append_assoc,
    List.prefix_append_right_inj]
  cases k <;> simp [treeOf, hsys, hmeta, hversions]

theorem settles_write {W F : UnixPath → Prop} (h : Owns W F bucket key) (htmp : W w.tmp)
    (hreads : ∀ p, w.Reads p → F p) :
    Settles (bucketContract bucket W F) DriveOp.IsPrune (fileStep root (bucketPath bucket))
      (w.prog S bucket key).run := by
  cases w with
  | put env body contentType userMetadata encrypt =>
      exact settles_of_own (own_putObject h htmp)
  | copy env srcBucket srcKey encrypt =>
      exact settles_of_own (own_copyObject h htmp fun k hk => hreads _ ⟨k, hk, rfl⟩)

/-- **Independent keys.**  After any run, a put or copy of a key and a delete of another take
turns.  If no file of the one key is, or stands above, one of the other, the deleted key is
not the copy's source, and nothing is in the way of either call, alone or at any of its turns,
then each has its result of running alone, and leaves its key as it does alone. -/
theorem keys_independent (S : FsStore) (root : List Str) (start : Tree FsDoc)
    (hstart : ∀ q, start.file? q = none) (calls : List FsCall) (bucket key key' : Str)
    (hb : validateBucketName bucket = .ok ()) (hkey : validateKey key = .ok ())
    (hkey' : validateKey key' = .ok ()) (w : ObjectWrite) (env : CallEnv)
    (hapart : KeysApart root bucket key key') (hapart' : KeysApart root bucket key' key)
    (hsource : ∀ q, w.Reads q → ∀ k : FileKind, k.Proper →
      ¬ (keyPath bucket key' k).resolve root <+: q.resolve root)
    (hwrite : Unhindered root (bucketPath bucket) (w.prog S bucket key).run
      (reached S root start calls))
    (hdelete : Unhindered root (bucketPath bucket) (S.deleteObject env bucket key').run
      (reached S root start calls)) (turns : List Bool)
    (hfree : ∀ v ∈ (raceMachine (LocalDrive.step root)).visits
      (sideBySide S bucket key key' w env (reached S root start calls)) turns,
      TurnFree root (bucketPath bucket) v)
    (written : Except S3Error ObjectMeta) (deleted : Except S3Error DeleteOutcome)
    (hover : ((raceMachine (LocalDrive.step root)).final
      (sideBySide S bucket key key' w env (reached S root start calls)) turns).Over
        written deleted) :
    Independent S root bucket key key' w env (reached S root start calls) written deleted
      ((raceMachine (LocalDrive.step root)).final
        (sideBySide S bucket key key' w env (reached S root start calls)) turns).state := by
  have hatom := validateBucketName_atom hb
  let W : UnixPath → Prop := fun p => KeyFile bucket key p ∨ p = w.tmp
  let F : UnixPath → Prop := fun p =>
    KeyFile bucket key p ∨ p = bucketCfgFile bucket VERSIONING ∨ w.Reads p
  let W' : UnixPath → Prop := KeyFile bucket key'
  let F' : UnixPath → Prop := fun p =>
    KeyFile bucket key' p ∨ p = bucketCfgFile bucket VERSIONING
  have hown : Owns W F bucket key :=
    ⟨fun k hk => .inl ⟨k, hk, rfl⟩, fun k hk => .inl ⟨k, hk, rfl⟩, .inr (.inl rfl)⟩
  have hown' : Owns W' F' bucket key' :=
    ⟨fun k hk => ⟨k, hk, rfl⟩, fun k hk => .inl ⟨k, hk, rfl⟩, .inr rfl⟩
  obtain ⟨id, hid⟩ : ∃ id, w.tmp = tmpFile id := by
    cases w <;> exact ⟨_, rfl⟩
  have hconfig : ∀ {k : FileKind} {key : Str}, k.Proper → validateKey key = .ok () →
      ¬ (keyPath bucket key k).resolve root <+:
        (bucketCfgFile bucket VERSIONING).resolve root := by
    intro k key hk hkey
    rw [resolve_bucketCfg hatom]
    exact keyPath_not_above hb hkey hk (by decide) (by decide)
  have hout : OutOfWay root W W' F' := by
    rintro q hq p (⟨k, hk, rfl⟩ | rfl)
    · rcases hq with ⟨k', hk', rfl⟩ | ⟨k', hk', rfl⟩ | rfl
      · exact hapart k k' hk hk'
      · exact hapart k k' hk hk'
      · exact hconfig hk hkey
    · rw [hid]
      rcases hq with ⟨k', hk', rfl⟩ | ⟨k', hk', rfl⟩ | rfl
      · exact tmpFile_apart hb hkey' hk' id root
      · exact tmpFile_apart hb hkey' hk' id root
      · rw [resolve_tmpFile, resolve_bucketCfg hatom, List.prefix_append_right_inj]
        have hne : TMP ≠ BUCKETS := by decide
        simp [hne]
  have hout' : OutOfWay root W' W F := by
    rintro q hq p ⟨k, hk, rfl⟩
    rcases hq with (⟨k', hk', rfl⟩ | rfl) | ⟨k', hk', rfl⟩ | rfl | hq
    · exact hapart' k k' hk hk'
    · rw [hid, resolve_tmpFile]
      exact keyPath_not_above hb hkey' hk (by decide) (by decide)
    · exact hapart' k k' hk hk'
    · exact hconfig hk hkey'
    · exact hsource q hq k hk
  obtain ⟨hwritten, hdeleted, hkeyfiles, hkeyfiles'⟩ := race_independent
    (docsIn_reached hstart calls) (settles_write hown (.inr rfl) fun p hp => .inr (.inr hp))
    (settles_deleteObject hown') hout hout' hwrite hdelete hfree hover
  exact ⟨hwritten, hdeleted,
    undisturbed hb hkey fun k hk => hkeyfiles _ (.inl (.inl ⟨k, hk, rfl⟩)),
    undisturbed hb hkey' fun k hk => hkeyfiles' _ (.inl ⟨k, hk, rfl⟩)⟩

/-! ## Two keys -/

/-- A put of one byte. -/
def putByte : ObjectWrite := .put (fsCallAt 'b' 2 isHexLower_b) (.ofBytes [3]) [] [] false

/-- The put makes its directory, the delete runs, and the put goes on. -/
def deleteInside : List Bool :=
  List.replicate 6 true ++ List.replicate 9 false ++ List.replicate 3 true

theorem keys_independent_docs : ∃ written deleted,
    ((raceMachine (LocalDrive.step [])).final (sideBySide plainStore "docs".toList "two".toList
      "one".toList putByte (callAt 'c' 3 rfl) (reached plainStore [] .empty
        (oneKey "one".toList))) deleteInside).Over written deleted ∧
    Independent plainStore [] "docs".toList "two".toList "one".toList putByte (callAt 'c' 3 rfl)
      (reached plainStore [] .empty (oneKey "one".toList)) written deleted
      ((raceMachine (LocalDrive.step [])).final (sideBySide plainStore "docs".toList "two".toList
        "one".toList putByte (callAt 'c' 3 rfl) (reached plainStore [] .empty
          (oneKey "one".toList))) deleteInside).state := by
  have hover : (returned ((raceMachine (LocalDrive.step [])).final (sideBySide plainStore
      "docs".toList "two".toList "one".toList putByte (callAt 'c' 3 rfl) (reached plainStore []
        .empty (oneKey "one".toList))) deleteInside).left).isSome = true ∧
      (returned ((raceMachine (LocalDrive.step [])).final (sideBySide plainStore
      "docs".toList "two".toList "one".toList putByte (callAt 'c' 3 rfl) (reached plainStore []
        .empty (oneKey "one".toList))) deleteInside).right).isSome = true := by decide +kernel
  obtain ⟨written, hwritten⟩ := Option.isSome_iff_exists.1 hover.1
  obtain ⟨deleted, hdeleted⟩ := Option.isSome_iff_exists.1 hover.2
  refine ⟨written, deleted, ⟨hwritten, hdeleted⟩, keys_independent plainStore [] .empty
    (fun q => ?_) (oneKey "one".toList) "docs".toList "two".toList "one".toList (by decide)
    (by decide) (by decide) putByte (callAt 'c' 3 rfl) ?_ ?_ (fun _ h => h.elim)
    (by decide +kernel) (by decide +kernel) deleteInside (by decide +kernel) written deleted
    ⟨hwritten, hdeleted⟩⟩
  · cases q with
    | nil => rfl
    | cons x q => rw [file?, look_empty _ (by simp)]
  · exact keysApart_atoms (by decide) (by decide) (by decide) (by decide) (by decide)
      (by decide) (by decide)
  · exact keysApart_atoms (by decide) (by decide) (by decide) (by decide) (by decide)
      (by decide) (by decide)

/-- An object in a directory of its own. -/
def inDirectory : Tree FsDoc :=
  reached plainStore [] .empty [.createBucket "docs".toList,
    .put (fsCallAt 'a' 1 isHexLower_a) "docs".toList "d/x".toList (.ofBytes [1, 2]) [] [] false]

/-- The delete removes the directory the put has just made sure of, and the put, which alone
is acknowledged, fails. -/
theorem keys_interfere : ∃ written deleted,
    ((raceMachine (LocalDrive.step [])).final (sideBySide plainStore "docs".toList "d/y".toList
      "d/x".toList putByte (callAt 'c' 3 rfl) inDirectory) deleteInside).Over written deleted ∧
    ¬ Independent plainStore [] "docs".toList "d/y".toList "d/x".toList putByte
      (callAt 'c' 3 rfl) inDirectory written deleted
      ((raceMachine (LocalDrive.step [])).final (sideBySide plainStore "docs".toList
        "d/y".toList "d/x".toList putByte (callAt 'c' 3 rfl) inDirectory) deleteInside).state := by
  have hleft : (returned ((raceMachine (LocalDrive.step [])).final (sideBySide plainStore
      "docs".toList "d/y".toList "d/x".toList putByte (callAt 'c' 3 rfl) inDirectory)
        deleteInside).left).map Except.isOk = some false := by decide +kernel
  have hright : (returned ((raceMachine (LocalDrive.step [])).final (sideBySide plainStore
      "docs".toList "d/y".toList "d/x".toList putByte (callAt 'c' 3 rfl) inDirectory)
        deleteInside).right).isSome = true := by decide +kernel
  have halone : (result [] (putByte.prog plainStore "docs".toList "d/y".toList)
      inDirectory).isOk = true := by decide +kernel
  obtain ⟨written, hwritten, hfailed⟩ := Option.map_eq_some_iff.1 hleft
  obtain ⟨deleted, hdeleted⟩ := Option.isSome_iff_exists.1 hright
  refine ⟨written, deleted, ⟨hwritten, hdeleted⟩, fun h => ?_⟩
  rw [h.write, halone] at hfailed
  cases hfailed

end FsStore

end Kerplace
