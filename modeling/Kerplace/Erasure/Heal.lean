/-
# `Kerplace.Erasure.Heal` — the heal scan

A heal walks a bucket on every drive, takes the union of the object versions
it finds, and inspects each: the first readable metadata is taken as what the
version is, every shard is checked against it, and a drive whose shard file or
metadata does not pass is given a new one, rebuilt from the drives that do.
-/
import Kerplace.Erasure.Listing

namespace Kerplace

namespace ErasureStore

variable {n : Nat}

/-- The file a rebuilt shard file is staged in. -/
def HEAL_TMP : Str := PART ++ ".heal.tmp".toList

/-! ## What there is to heal -/

/-- The order of `(String, Option<String>)`. -/
def versionLt (a b : Str × Option Str) : Bool :=
  decide (a.1 < b.1) || (decide (a.1 = b.1) &&
    match a.2, b.2 with
    | none, some _ => true
    | some v, some w => decide (v < w)
    | _, none => false)

/-- Insert into a sorted list without repetition, as into a `BTreeSet`. -/
def insertVersion (k : Str × Option Str) : List (Str × Option Str) → List (Str × Option Str)
  | [] => [k]
  | x :: xs =>
      if versionLt k x then k :: x :: xs
      else if k = x then x :: xs
      else x :: insertVersion k xs

/-- The object version an entry of a walk belongs to. -/
def versionAt (e : List Str × Bool) : Option (Str × Option Str) :=
  if e.2 && (e.1.getLast? = some XL_META || e.1.getLast? = some PART) then
    let comps := e.1.dropLast
    if comps = [] then none
    else
      match comps.findIdx? (· = VDIR) with
      | none => some (joinSlash comps, none)
      | some pos =>
          if 0 < pos then
            (comps[pos + 1]?).map fun v => (joinSlash (comps.take pos), some v)
          else none
  else none

/-- `collect_object_dirs`. -/
def collectObjectDirs (bucket : Str) : EStore n (List (Str × Option Str)) := do
  let found ← eachDrive fun _ => Drive.walk (rBucket bucket)
  pure ((((List.ofFn found).flatMap fun e => e.getD []).filterMap versionAt).foldl
    (fun acc k => insertVersion k acc) [])

/-! ## One object version -/

/-- `HealOutcome`. -/
inductive HealOutcome where
  | healthy
  | healed (shards : Nat)
  | unrecoverable
  deriving DecidableEq

/-- The loop over drives that ends at the first error. -/
def inTurn : List (Fin n) → (Fin n → EStore n Unit) → EStore n Unit
  | [], _ => pure ()
  | d :: ds, p => do
      p d
      inTurn ds p

/-- One drive operation whose failure ends the call. -/
def mustDo (d : Fin n) (e : String) (p : DriveProg Doc Bool) : EStore n Unit :=
  orFail (.internal e) (atDrive d p)

variable (S : ErasureStore n)

/-- Pass 1 from block `b` on: for each block, which drives have its shard. -/
def detect (partRel : UnixPath) (codec : Codec) (checksums : List (List Str)) :
    Nat → Nat → List Nat → EStore n (List (Fin n → Bool))
  | _, _, [] => pure []
  | b, offset, len :: lens => do
      let slen := codec.shardLen len
      let found ← eachDrive (S.readShard partRel checksums b offset slen)
      let rows ← detect partRel codec checksums (b + 1) (offset + slen) lens
      pure ((fun d => (found d).isSome) :: rows)

/-- The block loop of pass 2: rebuild each block from the drives not in `badPart`, cut
it into shards again, and append to the staged files of the others. -/
def rebuild (partRel tmpRel : UnixPath) (codec : Codec) (checksums : List (List Str))
    (badPart : Fin n → Bool) : Nat → Nat → List Nat → EStore n Unit
  | _, _, [] => pure ()
  | b, offset, len :: lens => do
      let slen := codec.shardLen len
      let shards ← eachDrive fun d =>
        if badPart d then pure none else S.readShard partRel checksums b offset slen d
      match codec.reconstructBlock (List.ofFn shards) len with
      | .error _ => throw (.internal "heal: block unrecoverable")
      | .ok block =>
          match codec.encodeBlock block with
          | .error _ => throw (.internal "heal encode")
          | .ok reshards => do
              inTurn (List.finRange n) fun d =>
                if badPart d then
                  mustDo d "heal write" (Drive.append tmpRel (reshards.getD d.val []))
                else pure ()
              rebuild partRel tmpRel codec checksums badPart (b + 1) (offset + slen) lens

/-- Pass 2: new shard files for the drives in `badPart`, staged and then renamed. -/
def healParts (relDir : UnixPath) (codec : Codec) (checksums : List (List Str))
    (lens : List Nat) (badPart : Fin n → Bool) : EStore n Unit := do
  let partRel := relDir.joinStr PART
  let tmpRel := relDir.joinStr HEAL_TMP
  inTurn (List.finRange n) fun d =>
    if badPart d then do
      mustDo d "heal mkdir" (Drive.createDirAll relDir)
      mustDo d "heal create" (Drive.create tmpRel)
    else pure ()
  S.rebuild partRel tmpRel codec checksums badPart 0 0 lens
  inTurn (List.finRange n) fun d =>
    if badPart d then do
      mustDo d "heal finish" (Drive.shutdown tmpRel)
      mustDo d "heal rename" (Drive.rename tmpRel partRel)
    else pure ()

/-- New metadata for the drives in `bad`. -/
def healMetas (relDir : UnixPath) (m : XlMeta) (bad : Fin n → Bool) : EStore n Unit :=
  inTurn (List.finRange n) fun d =>
    if bad d then do
      mustDo d "heal mkdir meta" (Drive.createDirAll relDir)
      mustDo d "heal write meta" (Drive.write (relDir.joinStr XL_META) (.doc (.xl m)))
    else pure ()

/-- What `heal_object` does once it knows which drives lack the metadata and, for each
block, which have its shard.  The least number of good shards over the blocks is below
`K` if that of some block is. -/
def healFound (relDir : UnixPath) (codec : Codec) (m : XlMeta) (lens : List Nat)
    (badMeta : Fin n → Bool) (rows : List (Fin n → Bool)) (dryRun : Bool) :
    EStore n HealOutcome :=
  let badPart := fun d => rows.any fun row => !row d
  let needPart := (List.finRange n).any badPart
  let needMeta := (List.finRange n).any badMeta
  if !needPart && !needMeta then pure .healthy
  else if needPart && rows.any (fun row => decide (tally row < m.data)) then
    pure .unrecoverable
  else
    let rewritten := tally fun d => badPart d || badMeta d
    if dryRun then pure (.healed rewritten)
    else do
      (if needPart then S.healParts relDir codec m.checksums lens badPart else pure ())
      healMetas relDir m fun d => badMeta d || badPart d
      pure (.healed rewritten)

/-- `heal_object`. -/
def healObject (bucket key : Str) (vid : Option Str) (dryRun : Bool) :
    EStore n HealOutcome := do
  match ← outcome (readXlV bucket key vid) with
  | .error _ => pure .unrecoverable
  | .ok m =>
    match Codec.new S.codec.rs m.data m.parity with
    | .error _ => throw (.internal "heal codec")
    | .ok codec => do
      let relDir := rObjV bucket key vid
      let lens := blockLens m.storedSize (max m.blockSize 1)
      let metas ← eachDrive fun _ => do
        let doc ← Drive.readDoc (relDir.joinStr XL_META)
        pure (doc.bind Doc.xl?)
      let rows ← S.detect (relDir.joinStr PART) codec m.checksums 0 0 lens
      S.healFound relDir codec m lens (fun d => (metas d).isNone) rows dryRun

/-! ## The scan -/

/-- `HealReport`. -/
structure HealReport where
  dryRun : Bool
  objectsScanned : Nat
  objectsHealed : Nat
  shardsRewritten : Nat
  objectsUnrecoverable : Nat
  deriving DecidableEq

/-- Count one object version. -/
def HealReport.count (report : HealReport) : HealOutcome → HealReport
  | .healthy => { report with objectsScanned := report.objectsScanned + 1 }
  | .healed shards =>
      { report with
        objectsScanned := report.objectsScanned + 1
        objectsHealed := report.objectsHealed + 1
        shardsRewritten := report.shardsRewritten + shards }
  | .unrecoverable =>
      { report with
        objectsScanned := report.objectsScanned + 1
        objectsUnrecoverable := report.objectsUnrecoverable + 1 }

/-- Heal object versions one after the other. -/
def healVersions (bucket : Str) (dryRun : Bool) :
    List (Str × Option Str) → HealReport → EStore n HealReport
  | [], report => pure report
  | v :: vs, report => do
      let r ← S.healObject bucket v.1 v.2 dryRun
      healVersions bucket dryRun vs (report.count r)

/-- The buckets of a scan, one after the other. -/
def healBuckets (dryRun : Bool) : List Str → HealReport → EStore n HealReport
  | [], report => pure report
  | b :: bs, report => do
      let versions ← collectObjectDirs b
      let report ← S.healVersions b dryRun versions report
      healBuckets dryRun bs report

/-- `heal`: one bucket, or all. -/
def heal (bucket : Option Str) (dryRun : Bool) : EStore n HealReport := do
  let buckets ←
    match bucket with
    | some b => do
        headBucket b
        pure [b]
    | none => listBuckets
  S.healBuckets dryRun buckets ⟨dryRun, 0, 0, 0, 0⟩

end ErasureStore

end Kerplace
