/-
# `Kerplace.Erasure.Listing` — object and version listings

A listing walks a bucket on every reachable drive, takes the union, reads off
which directories are keys, and pages over the sorted keys.
-/
import Kerplace.Erasure.Store
import Mathlib.Data.List.Sort
import Mathlib.Data.List.Lex
import Mathlib.Data.Char

namespace Kerplace

/-! ## Strings as the listings use them -/

/-- `str::find`: where `pat` first starts. -/
def findStr (pat : Str) : Str → Option Nat
  | [] => if pat = [] then some 0 else none
  | c :: s => if pat.isPrefixOf (c :: s) then some 0 else (findStr pat s).map (· + 1)

/-- Insert into a sorted list without repetition, as into a `BTreeSet`. -/
def insertKey (k : Str) : List Str → List Str
  | [] => [k]
  | x :: xs => if k < x then k :: x :: xs else if k = x then x :: xs else x :: insertKey k xs

/-- A `BTreeSet` of strings, in order. -/
def keySet (ks : List Str) : List Str := ks.foldl (fun acc k => insertKey k acc) []

/-- Path components joined with `/`. -/
def joinSlash (comps : List Str) : Str := ['/'].intercalate comps

/-- The common prefix a key is rolled up into, if the delimiter occurs after
the listing's prefix. -/
def rollUp (pre : Str) (delimiter : Option Str) (key : Str) : Option Str :=
  match delimiter.filter (fun d => decide (d ≠ [])) with
  | none => none
  | some delim =>
      let rest := key.drop pre.length
      (findStr delim rest).map fun idx => pre ++ rest.take idx ++ delim

/-- `VersionListing`. -/
structure VersionListing where
  versions : List ObjectVersion
  commonPrefixes : List Str
  isTruncated : Bool
  deriving DecidableEq

/-- `Listing`. -/
structure Listing where
  objects : List ObjectMeta
  commonPrefixes : List Str
  isTruncated : Bool
  nextContinuationToken : Option Str
  deriving DecidableEq

/-- What paging over object keys has gathered. -/
structure Page where
  common : List Str
  chosen : List Str
  count : Nat
  truncated : Bool
  next : Option Str
  deriving DecidableEq

/-- The key loop of `list_objects_v2`. -/
def pageKeys (pre : Str) (delimiter token startAfter : Option Str) (maxKeys : Nat) :
    List Str → Page → Page
  | [], pg => pg
  | key :: keys, pg =>
      if token.any (fun t => decide (key < t)) || startAfter.any (fun a => decide (key ≤ a))
      then pageKeys pre delimiter token startAfter maxKeys keys pg
      else
        match rollUp pre delimiter key with
        | some cp =>
            if cp ∈ pg.common then
              pageKeys pre delimiter token startAfter maxKeys keys pg
            else if pg.count ≥ maxKeys then { pg with truncated := true, next := some key }
            else
              pageKeys pre delimiter token startAfter maxKeys keys
                { pg with common := insertKey cp pg.common, count := pg.count + 1 }
        | none =>
            if pg.count ≥ maxKeys then { pg with truncated := true, next := some key }
            else
              pageKeys pre delimiter token startAfter maxKeys keys
                { pg with chosen := pg.chosen ++ [key], count := pg.count + 1 }

namespace ErasureStore

variable {n : Nat}

/-- `walk_union`: every entry on some drive, once. -/
def walkUnion (bucket : Str) : EStore n (List (List Str × Bool)) := do
  let found ← eachDrive fun _ => Drive.walk (rBucket bucket)
  pure (((List.ofFn found).flatMap fun e => e.getD []).foldl
    (fun out e => if e ∈ out then out else out ++ [e]) [])

/-- The key of an entry that is a current `kp.meta`. -/
def currentKey (e : List Str × Bool) : Option Str :=
  if e.2 && e.1.getLast? = some XL_META then
    let dir := e.1.dropLast
    if VDIR ∈ dir || dir = [] then none else some (joinSlash dir)
  else none

/-- The key of an entry that is a history file. -/
def historyKey (e : List Str × Bool) : Option Str :=
  if e.2 && e.1.getLast? = some HISTORY then
    let dir := e.1.dropLast.dropLast
    if dir = [] then none else some (joinSlash dir)
  else none

/-- The objects of chosen keys, those without readable metadata left out. -/
def listedObjects : List Str → Str → EStore n (List ObjectMeta)
  | [], _ => pure []
  | key :: keys, bucket => do
      let r ← outcome (readXl bucket key)
      let rest ← listedObjects keys bucket
      pure (match r with
        | .ok m => metaToObject key m :: rest
        | .error _ => rest)

/-- `list_objects_v2`. -/
def listObjectsV2 (bucket pre : Str) (delimiter token startAfter : Option Str)
    (maxKeys : Nat) : EStore n Listing := do
  headBucket bucket
  let entries ← walkUnion bucket
  let keys := (entries.filterMap currentKey).filter fun k => pre.isPrefixOf k
  let pg := pageKeys pre delimiter token startAfter maxKeys
    (keys.insertionSort (· ≤ ·)) ⟨[], [], 0, false, none⟩
  let objects ← listedObjects pg.chosen bucket
  pure ⟨objects, pg.common, pg.truncated, pg.next⟩

/-- The listing row of a history entry at position `i`. -/
def entryRow (key : Str) (i : Nat) (v : VEntry) : ObjectVersion :=
  ⟨key, v.versionId, i == 0, stampOf v.lastModified, v.etag, v.size, v.deleteMarker,
    VersionAudit.orNone ⟨v.owner, v.srcIp⟩⟩

/-- The listing row of a current object without a history. -/
def currentRow (key : Str) (m : XlMeta) : ObjectVersion :=
  ⟨key, NULL, true, stampOf m.lastModified, m.etag, m.size, false,
    VersionAudit.orNone ⟨m.owner, m.srcIp⟩⟩

/-- The rows of one key. -/
def keyRows (bucket key : Str) (versioned : Bool) : EStore n (List ObjectVersion) := do
  if versioned then
    let hist ← readHistory bucket key
    pure (hist.versions.mapIdx (entryRow key))
  else
    match ← outcome (readXl bucket key) with
    | .ok m => pure [currentRow key m]
    | .error _ => pure []

/-- The key loop of `list_object_versions`. -/
def pageVersions (bucket pre : Str) (delimiter : Option Str) (maxKeys : Nat)
    (versioned : List Str) : List Str → VersionListing → EStore n VersionListing
  | [], acc => pure acc
  | key :: keys, acc =>
      match rollUp pre delimiter key with
      | some cp =>
          if cp ∈ acc.commonPrefixes then
            pageVersions bucket pre delimiter maxKeys versioned keys acc
          else if acc.versions.length + acc.commonPrefixes.length ≥ maxKeys then
            pure { acc with isTruncated := true }
          else
            pageVersions bucket pre delimiter maxKeys versioned keys
              { acc with commonPrefixes := insertKey cp acc.commonPrefixes }
      | none => do
          let rows ← keyRows bucket key (decide (key ∈ versioned))
          let room := maxKeys - (acc.versions.length + acc.commonPrefixes.length)
          let acc' := { acc with versions := acc.versions ++ rows.take room }
          if rows.length > room then pure { acc' with isTruncated := true }
          else pageVersions bucket pre delimiter maxKeys versioned keys acc'

/-- `list_object_versions`.  The two markers are not used. -/
def listObjectVersions (bucket pre : Str) (delimiter : Option Str) (maxKeys : Nat) :
    EStore n VersionListing := do
  headBucket bucket
  let entries ← walkUnion bucket
  let versioned := keySet (entries.filterMap historyKey)
  let current := keySet (entries.filterMap currentKey)
  let all := keySet ((versioned.filter fun k => pre.isPrefixOf k) ++
    current.filter fun k => pre.isPrefixOf k && decide (k ∉ versioned))
  pageVersions bucket pre delimiter maxKeys versioned all ⟨[], [], false⟩

/-- `list_buckets`: the names, from the first drive that answers. -/
def listBuckets : EStore n (List Str) := do
  match ← anyDrive fun _ => Drive.readDir ⟨false, []⟩ with
  | none => throw (.internal "list buckets: no drive reachable")
  | some entries =>
      pure ((entries.filterMap fun e =>
        if e.1 = SYS_DIR || !e.2 then none else some e.1).insertionSort (· ≤ ·))

/-- `delete_bucket`. -/
def deleteBucket (bucket : Str) : EStore n Unit := do
  if !(← metaStatAny (rBucket bucket)) then throw .noSuchBucket
  let listing ← listObjectsV2 bucket [] none none none 1
  if !listing.objects.isEmpty then throw .bucketNotEmpty
  let _ ← eachDrive fun _ => do
    let _ ← Drive.removeDirAll (rBucket bucket)
    Drive.removeDirAll (rCfgDir bucket)

end ErasureStore

end Kerplace
