/-
# `Kerplace.Erasure.ConfigRuns` — what a replicated file is read as, over whole runs

A run changes and reads bucket configurations and version histories, each call
with drives of its own out of reach.  An acknowledged change is on the drives it
reached; the others keep what they had.  So a read is current where its rule takes
a copy that took the last change.  For a history the rule is the epoch, and one
reachable drive with the last copy is enough, as long as every change met one as
well: then epochs grow, and the last copy has the highest.  For the others the rule
does not look for the last copy, and that it finds it has to be asked.
-/
import Kerplace.Erasure.Config
import Kerplace.Erasure.Replicated
import Kerplace.Lib.Machine

namespace Kerplace

open FileTree Prog ErasureStore

/-- The replicated files. -/
inductive ConfigFile where
  | versioning (bucket : Str)
  | encryption (bucket : Str)
  | policy (bucket : Str)
  | lifecycle (bucket : Str)
  | history (bucket key : Str)
  deriving DecidableEq

namespace ConfigFile

/-- The directory of a file, and its name in it. -/
def dir : ConfigFile → UnixPath
  | .versioning b => rCfgDir b
  | .encryption b => rCfgDir b
  | .policy b => rCfgDir b
  | .lifecycle b => rCfgDir b
  | .history b k => (rObject b k).joinStr VDIR

def name : ConfigFile → Str
  | .versioning _ => VERSIONING
  | .encryption _ => SSE
  | .policy _ => POLICY
  | .lifecycle _ => LIFECYCLE
  | .history _ _ => HISTORY

/-- Where a file is, relative to a drive's root. -/
def rel (f : ConfigFile) : UnixPath := f.dir.joinStr f.name

theorem atom_name (f : ConfigFile) : UnixPath.Atom f.name := by
  cases f with
  | versioning b => exact (show UnixPath.Atom VERSIONING by decide)
  | encryption b => exact (show UnixPath.Atom SSE by decide)
  | policy b => exact (show UnixPath.Atom POLICY by decide)
  | lifecycle b => exact (show UnixPath.Atom LIFECYCLE by decide)
  | history b k => exact (show UnixPath.Atom HISTORY by decide)

end ConfigFile

/-- The calls of a run. -/
inductive ConfigCall where
  | setBucketVersioning (bucket status : Str)
  | setBucketEncryption (bucket sseType : Str)
  | setBucketPolicy (bucket policy : Str)
  | setBucketLifecycle (bucket xml : Str)
  | deleteBucketEncryption (bucket : Str)
  | deleteBucketPolicy (bucket : Str)
  | deleteBucketLifecycle (bucket : Str)
  | updateHistory (bucket key : Str) (change : List VEntry → List VEntry)
  | getBucketVersioning (bucket : Str)
  | getBucketEncryption (bucket : Str)
  | getBucketPolicy (bucket : Str)
  | getBucketLifecycle (bucket : Str)
  | readHistory (bucket key : Str)

/-- What a call answers. -/
inductive ConfigAnswer where
  | done
  | status (s : Str)
  | value (v : Option Str)
  | history (h : VHistory)
  deriving DecidableEq

namespace ConfigCall

variable {n : Nat}

/-- The file a call is about. -/
def file : ConfigCall → ConfigFile
  | setBucketVersioning b _ => .versioning b
  | setBucketEncryption b _ => .encryption b
  | setBucketPolicy b _ => .policy b
  | setBucketLifecycle b _ => .lifecycle b
  | deleteBucketEncryption b => .encryption b
  | deleteBucketPolicy b => .policy b
  | deleteBucketLifecycle b => .lifecycle b
  | updateHistory b k _ => .history b k
  | getBucketVersioning b => .versioning b
  | getBucketEncryption b => .encryption b
  | getBucketPolicy b => .policy b
  | getBucketLifecycle b => .lifecycle b
  | readHistory b k => .history b k

/-- What a call does with the store. -/
def prog : ConfigCall → EStore n ConfigAnswer
  | setBucketVersioning b s => do
      ErasureStore.setBucketVersioning b s
      pure .done
  | setBucketEncryption b s => do
      ErasureStore.setBucketEncryption b s
      pure .done
  | setBucketPolicy b s => do
      ErasureStore.setBucketPolicy b s
      pure .done
  | setBucketLifecycle b s => do
      ErasureStore.setBucketLifecycle b s
      pure .done
  | deleteBucketEncryption b => do
      ErasureStore.deleteBucketEncryption b
      pure .done
  | deleteBucketPolicy b => do
      ErasureStore.deleteBucketPolicy b
      pure .done
  | deleteBucketLifecycle b => do
      ErasureStore.deleteBucketLifecycle b
      pure .done
  | updateHistory b k change => do
      let h ← ErasureStore.updateHistory b k change
      pure (.history h)
  | getBucketVersioning b => do
      let s ← ErasureStore.getBucketVersioning b
      pure (.status s)
  | getBucketEncryption b => do
      let v ← ErasureStore.getBucketEncryption b
      pure (.value v)
  | getBucketPolicy b => do
      let v ← ErasureStore.getBucketPolicy b
      pure (.value v)
  | getBucketLifecycle b => do
      let v ← ErasureStore.getBucketLifecycle b
      pure (.value v)
  | readHistory b k => do
      let h ← ErasureStore.readHistory b k
      pure (.history h)

/-- What an acknowledged call left in its file: a document, or no file; `none` if it
changed nothing. -/
def stored : ConfigCall → Except S3Error ConfigAnswer → Option (Option Doc)
  | setBucketVersioning _ s, .ok _ => some (some (.status s))
  | setBucketEncryption _ s, .ok _ => some (some (.sse s))
  | setBucketPolicy _ s, .ok _ => some (some (.text s))
  | setBucketLifecycle _ s, .ok _ => some (some (.text s))
  | deleteBucketEncryption _, .ok _ => some none
  | deleteBucketPolicy _, .ok _ => some none
  | deleteBucketLifecycle _, .ok _ => some none
  | updateHistory _ _ _, .ok (.history h) => some (some (.history h))
  | _, _ => none

end ConfigCall

/-- The store taking calls, each with the drives that can be reached during it. -/
def configMachine {n : Nat} (root : Fin n → List Str) :
    Machine (Cluster n Doc) ((Fin n → Bool) × ConfigCall) (Except S3Error ConfigAnswer) where
  step s c := Site.run ⟨root, c.1⟩ c.2.prog s

/-- One step of a run. -/
abbrev ConfigVisit (n : Nat) :=
  Visit (Cluster n Doc) ((Fin n → Bool) × ConfigCall) (Except S3Error ConfigAnswer)

namespace ConfigVisit

variable {n : Nat}

/-- The last acknowledged change of a file: the drives it reached, and what it left. -/
def lastChange (f : ConfigFile) (vs : List (ConfigVisit n)) :
    Option ((Fin n → Bool) × Option Doc) :=
  vs.foldl (fun last v =>
    match v.call.2.stored v.answer with
    | some x => if v.call.2.file = f then some (v.call.1, x) else last
    | none => last) none

/-- The value of the last acknowledged change. -/
def lastDoc (f : ConfigFile) (vs : List (ConfigVisit n)) : Option Doc :=
  (lastChange f vs).bind Prod.snd

/-- A read answers with the value of the last acknowledged change. -/
def Current (vs : List (ConfigVisit n)) (v : ConfigVisit n) : Prop :=
  let last := lastDoc v.call.2.file vs
  match v.call.2 with
  | .getBucketVersioning _ => v.answer = .ok (.status ((last.bind Doc.status?).getD []))
  | .getBucketEncryption _ => v.answer = .ok (.value (last.bind Doc.sse?))
  | .getBucketPolicy _ => v.answer = .ok (.value (last.bind Doc.text?))
  | .getBucketLifecycle _ => v.answer = .ok (.value (last.bind Doc.text?))
  | .readHistory _ _ => v.answer = .ok (.history ((last.bind Doc.history?).getD ⟨[], 0⟩))
  | _ => True

/-- The copy of a file on a drive. -/
def copy (root : Fin n → List Str) (s : Cluster n Doc) (f : ConfigFile) (d : Fin n) :
    Option (Content Doc) :=
  (s d).file? (f.rel.resolve (root d))

/-- The first reachable drive with a copy took the last change; or that removed the file,
and no reachable drive has a copy. -/
def FirstFresh (root : Fin n → List Str) (vs : List (ConfigVisit n)) (v : ConfigVisit n) :
    Prop :=
  match lastChange v.call.2.file vs with
  | some (took, some _) => ∃ d, v.call.1 d = true ∧ took d = true ∧
      ∀ d' < d, v.call.1 d' = true → copy root v.before v.call.2.file d' = none
  | some (_, none) => ∀ d, v.call.1 d = true → copy root v.before v.call.2.file d = none
  | none => True

/-- A reachable drive took the last change. -/
def SomeFresh (vs : List (ConfigVisit n)) (v : ConfigVisit n) : Prop :=
  match lastChange v.call.2.file vs with
  | some (took, _) => ∃ d, v.call.1 d = true ∧ took d = true
  | none => True

/-- The last status is one of the three there are, and no reachable drive has a more
protective one. -/
def Outranks (root : Fin n → List Str) (vs : List (ConfigVisit n)) (v : ConfigVisit n) : Prop :=
  match lastDoc v.call.2.file vs with
  | some (.status st) => (0 < statusRank st ∨ st = []) ∧
      ∀ d, v.call.1 d = true → ∀ st',
        docAt Doc.status? (v.before d) (v.call.2.file.rel.resolve (root d)) = some st' →
          statusRank st' ≤ statusRank st
  | _ => True

/-- A read, or a change that begins with one, comes to a copy that took the last change. -/
def Fresh (root : Fin n → List Str) (vs : List (ConfigVisit n)) (v : ConfigVisit n) : Prop :=
  match v.call.2 with
  | .getBucketVersioning _ => SomeFresh vs v ∧ Outranks root vs v
  | .getBucketEncryption _ => FirstFresh root vs v
  | .getBucketPolicy _ => FirstFresh root vs v
  | .getBucketLifecycle _ => FirstFresh root vs v
  | .readHistory _ _ => SomeFresh vs v
  | .updateHistory _ _ _ => SomeFresh vs v
  | _ => True

instance (root : Fin n → List Str) (vs : List (ConfigVisit n)) (v : ConfigVisit n) :
    Decidable (FirstFresh root vs v) :=
  match h : lastChange v.call.2.file vs with
  | some (took, some _) => decidable_of_iff (∃ d, v.call.1 d = true ∧ took d = true ∧
      ∀ d' < d, v.call.1 d' = true → copy root v.before v.call.2.file d' = none)
      (by rw [FirstFresh, h])
  | some (_, none) => decidable_of_iff
      (∀ d, v.call.1 d = true → copy root v.before v.call.2.file d = none)
      (by rw [FirstFresh, h])
  | none => isTrue (by rw [FirstFresh, h]; trivial)

instance (vs : List (ConfigVisit n)) (v : ConfigVisit n) : Decidable (SomeFresh vs v) :=
  match h : lastChange v.call.2.file vs with
  | some (took, _) => decidable_of_iff (∃ d, v.call.1 d = true ∧ took d = true)
      (by rw [SomeFresh, h])
  | none => isTrue (by rw [SomeFresh, h]; trivial)

instance (root : Fin n → List Str) (vs : List (ConfigVisit n)) (v : ConfigVisit n) :
    Decidable (Outranks root vs v) :=
  decidable_of_iff (∀ st ∈ (lastDoc v.call.2.file vs).bind Doc.status?,
      (0 < statusRank st ∨ st = []) ∧ ∀ d, v.call.1 d = true → ∀ st' ∈
        docAt Doc.status? (v.before d) (v.call.2.file.rel.resolve (root d)),
          statusRank st' ≤ statusRank st) (by
    unfold Outranks
    cases lastDoc v.call.2.file vs with
    | none => simp
    | some doc => cases doc <;> simp [Doc.status?])

instance (root : Fin n → List Str) (vs : List (ConfigVisit n)) (v : ConfigVisit n) :
    Decidable (Fresh root vs v) :=
  match v with
  | ⟨s, (up, .getBucketVersioning b), r⟩ => inferInstanceAs
      (Decidable (SomeFresh vs ⟨s, (up, .getBucketVersioning b), r⟩ ∧
        Outranks root vs ⟨s, (up, .getBucketVersioning b), r⟩))
  | ⟨s, (up, .getBucketEncryption b), r⟩ => inferInstanceAs
      (Decidable (FirstFresh root vs ⟨s, (up, .getBucketEncryption b), r⟩))
  | ⟨s, (up, .getBucketPolicy b), r⟩ => inferInstanceAs
      (Decidable (FirstFresh root vs ⟨s, (up, .getBucketPolicy b), r⟩))
  | ⟨s, (up, .getBucketLifecycle b), r⟩ => inferInstanceAs
      (Decidable (FirstFresh root vs ⟨s, (up, .getBucketLifecycle b), r⟩))
  | ⟨s, (up, .readHistory b k), r⟩ => inferInstanceAs
      (Decidable (SomeFresh vs ⟨s, (up, .readHistory b k), r⟩))
  | ⟨s, (up, .updateHistory b k change), r⟩ => inferInstanceAs
      (Decidable (SomeFresh vs ⟨s, (up, .updateHistory b k change), r⟩))
  | ⟨_, (_, .setBucketVersioning ..), _⟩ => isTrue trivial
  | ⟨_, (_, .setBucketEncryption ..), _⟩ => isTrue trivial
  | ⟨_, (_, .setBucketPolicy ..), _⟩ => isTrue trivial
  | ⟨_, (_, .setBucketLifecycle ..), _⟩ => isTrue trivial
  | ⟨_, (_, .deleteBucketEncryption ..), _⟩ => isTrue trivial
  | ⟨_, (_, .deleteBucketPolicy ..), _⟩ => isTrue trivial
  | ⟨_, (_, .deleteBucketLifecycle ..), _⟩ => isTrue trivial

end ConfigVisit

open ConfigVisit

/-- The paths of the files that calls are about, on one drive. -/
def configPaths (calls : List ConfigCall) (root : List Str) (p : List Str) : Prop :=
  ∃ c ∈ calls, p = c.file.rel.resolve root

/-- No file of a call lies below another's, and different files are different paths. -/
def Separate {n : Nat} (root : Fin n → List Str) (calls : List ConfigCall) : Prop :=
  ∀ d, ∀ c ∈ calls, ∀ c' ∈ calls,
    c.file.rel.resolve (root d) <+: c'.file.rel.resolve (root d) → c.file = c'.file

/-- Nothing is set yet, and nothing is in the way. -/
def Unset {n : Nat} (root : Fin n → List Str) (calls : List ConfigCall) (s : Cluster n Doc) :
    Prop :=
  ∀ d, (s d).SetAside (configPaths calls (root d)) ∧
    ∀ c ∈ calls, copy root s c.file d = none

/-! ## What one call does -/

section

variable {n : Nat} {root : Fin n → List Str} {calls : List ConfigCall}

theorem antichain_configPaths (hsep : Separate root calls) (d : Fin n) :
    Antichain (configPaths calls (root d)) := by
  rintro p q ⟨c, hc, rfl⟩ ⟨c', hc', rfl⟩ hpre
  rw [hsep d c hc c' hc' hpre]

/-- A call that read, or failed, left all drives as they were; any other left its document,
or no file, on the drives it reached. -/
def ConfigEffect (root : Fin n → List Str) (calls : List ConfigCall) (up : Fin n → Bool)
    (c : ConfigCall) (s : Cluster n Doc) (r : Except S3Error ConfigAnswer)
    (s' : Cluster n Doc) : Prop :=
  (c.stored r = none ∧ s' = s) ∨
    ∃ x, c.stored r = some x ∧
      ErasureStore.Put ⟨root, up⟩ (fun d => configPaths calls (root d)) c.file.rel
        (x.map Content.doc) s s' ∧
      ∀ b k change, c = .updateHistory b k change →
        ∃ vs, x = some (.history ⟨vs, (historyOf ⟨root, up⟩ b k s).epoch + 1⟩)

variable {up : Fin n → Bool} {s : Cluster n Doc}

/-- Setting a configuration. -/
theorem effect_set (hsep : Separate root calls)
    (hfree : ∀ d, (s d).SetAside (configPaths calls (root d))) {c : ConfigCall} (hc : c ∈ calls)
    {bucket : Str} {doc : Doc} {set : EStore n Unit}
    (hset : set = do
      headBucket bucket
      metaWriteAll c.file.rel doc)
    (hstored : ∀ r, c.stored r = match r with | .ok _ => some (some doc) | .error _ => none)
    (hupdate : ∀ b k change, c ≠ .updateHistory b k change) :
    ConfigEffect root calls up c s
      (Site.run ⟨root, up⟩ (do
        set
        pure ConfigAnswer.done) s).1
      (Site.run ⟨root, up⟩ (do
        set
        pure ConfigAnswer.done) s).2 := by
  subst hset
  obtain ⟨s', hrun, hput⟩ := run_metaWriteAll ⟨root, up⟩ c.file.dir
    c.file.atom_name (fun d => antichain_configPaths hsep d) hfree (fun d => ⟨c, hc, rfl⟩) doc
  rw [Site.run_bind, Site.run_bind, run_headBucket]
  by_cases hbucket : bucketUp ⟨root, up⟩ bucket s = true
  · rw [if_pos hbucket, andThen_ok,
      show Site.run ⟨root, up⟩ (metaWriteAll c.file.rel doc) s = _ from hrun]
    cases hsome : someUp ⟨root, up⟩ with
    | true =>
        exact .inr ⟨some doc, hstored _, hput, fun b k change h0 =>
          absurd h0 (hupdate b k change)⟩
    | false =>
        -- No drive was reached, so none changed.
        refine .inl ⟨hstored _, funext fun d => hput.down d ?_⟩
        have := List.any_eq_false.1 hsome d (List.mem_finRange d)
        simpa using this
  · rw [if_neg hbucket]
    exact .inl ⟨hstored _, rfl⟩

theorem effect_delete (hfree : ∀ d, (s d).SetAside (configPaths calls (root d)))
    {c : ConfigCall}
    (hstored : ∀ r, c.stored r = match r with | .ok _ => some none | .error _ => none)
    (hupdate : ∀ b k change, c ≠ .updateHistory b k change) :
    ConfigEffect root calls up c s
      (Site.run ⟨root, up⟩ (do
        metaDelAll c.file.rel
        pure ConfigAnswer.done) s).1
      (Site.run ⟨root, up⟩ (do
        metaDelAll c.file.rel
        pure ConfigAnswer.done) s).2 := by
  obtain ⟨s', hrun, hput⟩ := run_metaDelAll ⟨root, up⟩ c.file.rel hfree
  rw [Site.run_bind, hrun, andThen_ok]
  exact .inr ⟨none, hstored _, hput, fun b k change h0 => absurd h0 (hupdate b k change)⟩

theorem effect_read {c : ConfigCall} {α : Type} {p : EStore n α} {answer : α → ConfigAnswer}
    (hp : (Site.run ⟨root, up⟩ p s).2 = s) (hstored : ∀ r, c.stored r = none) :
    ConfigEffect root calls up c s (Site.run ⟨root, up⟩ (do let a ← p; pure (answer a)) s).1
      (Site.run ⟨root, up⟩ (do let a ← p; pure (answer a)) s).2 := by
  refine .inl ⟨hstored _, ?_⟩
  rw [Site.run_bind]
  rcases hr : Site.run ⟨root, up⟩ p s with ⟨r, s'⟩
  rw [hr] at hp
  cases r with
  | error e => exact hp
  | ok a => exact hp

/-- Changing a history. -/
theorem effect_update (hsep : Separate root calls)
    (hfree : ∀ d, (s d).SetAside (configPaths calls (root d))) {b k : Str}
    {change : List VEntry → List VEntry} (hc : ConfigCall.updateHistory b k change ∈ calls) :
    ConfigEffect root calls up (.updateHistory b k change) s
      (Site.run ⟨root, up⟩ (ConfigCall.updateHistory b k change).prog s).1
      (Site.run ⟨root, up⟩ (ConfigCall.updateHistory b k change).prog s).2 := by
  have hmem : ∀ d, configPaths calls (root d)
      ((((rObject b k).joinStr VDIR).joinStr HISTORY).resolve (root d)) := fun d => ⟨_, hc, rfl⟩
  have hrun := fun doc => run_metaWriteAll ⟨root, up⟩ ((rObject b k).joinStr VDIR)
    (f := HISTORY) (by decide) (fun d => antichain_configPaths hsep d) hfree hmem doc
  obtain ⟨s', hrun, hput⟩ := hrun (.history
    ⟨change (historyOf ⟨root, up⟩ b k s).versions, (historyOf ⟨root, up⟩ b k s).epoch + 1⟩)
  simp only [ConfigCall.prog, ErasureStore.updateHistory, writeHistory, Site.run_bind,
    run_readHistory, andThen_ok]
  rw [show rHistory b k = ((rObject b k).joinStr VDIR).joinStr HISTORY from rfl, hrun]
  cases hsome : someUp ⟨root, up⟩ with
  | true =>
      refine .inr ⟨_, rfl, hput, ?_⟩
      rintro _ _ _ h0
      cases h0
      exact ⟨_, rfl⟩
  | false =>
      refine .inl ⟨rfl, funext fun d => hput.down d ?_⟩
      have := List.any_eq_false.1 hsome d (List.mem_finRange d)
      simpa using this

/-- Every call. -/
theorem effect_step (hsep : Separate root calls)
    (hfree : ∀ d, (s d).SetAside (configPaths calls (root d))) {c : ConfigCall}
    (hc : c ∈ calls) :
    ConfigEffect root calls up c s ((configMachine root).step s (up, c)).1
      ((configMachine root).step s (up, c)).2 := by
  cases c with
  | setBucketVersioning b st =>
      exact effect_set hsep hfree hc rfl
        (fun r => by cases r <;> rfl) (fun _ _ _ h0 => by cases h0)
  | setBucketEncryption b st =>
      exact effect_set hsep hfree hc rfl
        (fun r => by cases r <;> rfl) (fun _ _ _ h0 => by cases h0)
  | setBucketPolicy b st =>
      exact effect_set hsep hfree hc rfl
        (fun r => by cases r <;> rfl) (fun _ _ _ h0 => by cases h0)
  | setBucketLifecycle b st =>
      exact effect_set hsep hfree hc rfl
        (fun r => by cases r <;> rfl) (fun _ _ _ h0 => by cases h0)
  | deleteBucketEncryption b =>
      exact effect_delete hfree (fun r => by cases r <;> rfl) (fun _ _ _ h0 => by cases h0)
  | deleteBucketPolicy b =>
      exact effect_delete hfree (fun r => by cases r <;> rfl) (fun _ _ _ h0 => by cases h0)
  | deleteBucketLifecycle b =>
      exact effect_delete hfree (fun r => by cases r <;> rfl) (fun _ _ _ h0 => by cases h0)
  | updateHistory b k change => exact effect_update hsep hfree hc
  | getBucketVersioning b =>
      exact effect_read (by rw [run_getBucketVersioning]) (fun r => by cases r <;> rfl)
  | getBucketEncryption b =>
      exact effect_read (congrArg Prod.snd (run_readCfg _ _)) (fun r => by cases r <;> rfl)
  | getBucketPolicy b =>
      exact effect_read (congrArg Prod.snd (run_readCfg _ _)) (fun r => by cases r <;> rfl)
  | getBucketLifecycle b =>
      exact effect_read (congrArg Prod.snd (run_readCfg _ _)) (fun r => by cases r <;> rfl)
  | readHistory b k =>
      exact effect_read (by rw [run_readHistory]) (fun r => by cases r <;> rfl)

end

/-! ## The copies over a run -/

namespace ConfigVisit

variable {n : Nat}

theorem lastChange_snoc (f : ConfigFile) (vs : List (ConfigVisit n)) (v : ConfigVisit n) :
    lastChange f (vs ++ [v]) =
      match v.call.2.stored v.answer with
      | some x => if v.call.2.file = f then some (v.call.1, x) else lastChange f vs
      | none => lastChange f vs := by
  rw [lastChange, List.foldl_append]
  rfl

theorem lastChange_stored {f : ConfigFile} {vs : List (ConfigVisit n)} {took : Fin n → Bool}
    {x : Option Doc} (h : lastChange f vs = some (took, x)) :
    ∃ c r, ConfigCall.file c = f ∧ c.stored r = some x := by
  induction vs using List.reverseRecOn with
  | nil => cases h
  | append_singleton vs v ih =>
      rw [lastChange_snoc] at h
      split at h
      · rename_i y hy
        split at h
        · rename_i hf
          cases h
          exact ⟨v.call.2, v.answer, hf, hy⟩
        · exact ih h
      · exact ih h

theorem lastChange_versioning {b : Str} {vs : List (ConfigVisit n)} {took : Fin n → Bool}
    {x : Option Doc} (h : lastChange (.versioning b) vs = some (took, x)) :
    ∃ st, x = some (.status st) := by
  obtain ⟨c, r, hf, hx⟩ := lastChange_stored h
  cases c with
  | setBucketVersioning b' st =>
      cases r with
      | error e => cases hx
      | ok a =>
          cases hx
          exact ⟨_, rfl⟩
  | getBucketVersioning b' => cases r <;> cases hx
  | _ => cases hf

end ConfigVisit

/-- What holds of the copies after a run: the drives that took a file's last change have
what it left, nothing that was never changed has a copy, and of a history every copy is the
last one or older. -/
structure CopiesKept {n : Nat} (root : Fin n → List Str) (calls : List ConfigCall)
    (vs : List (ConfigVisit n)) (s : Cluster n Doc) : Prop where
  free : ∀ d, (s d).SetAside (configPaths calls (root d))
  took : ∀ c ∈ calls, ∀ took x, lastChange c.file vs = some (took, x) →
    ∀ d, took d = true → copy root s c.file d = x.map Content.doc
  unset : ∀ c ∈ calls, lastChange c.file vs = none → ∀ d, copy root s c.file d = none
  newest : ∀ c ∈ calls, ∀ b k, c.file = .history b k → ∀ took x,
    lastChange (.history b k) vs = some (took, x) → ∃ h, x = some (.history h) ∧
      ∀ d h', docAt Doc.history? (s d) ((rHistory b k).resolve (root d)) = some h' →
        h' = h ∨ h'.epoch < h.epoch

section

variable {n : Nat} {root : Fin n → List Str} {calls : List ConfigCall}
  {vs : List (ConfigVisit n)} {s : Cluster n Doc} {v : ConfigVisit n}

/-- With a reachable drive that took the last change of a history, the history read is the
last one; and none of its copies is newer. -/
theorem CopiesKept.historyOf (hk : CopiesKept root calls vs s) {b k : Str} (hv : v.call.2 ∈ calls)
    (hf : v.call.2.file = .history b k) (hfresh : SomeFresh vs v) :
    ErasureStore.historyOf ⟨root, v.call.1⟩ b k s =
        ((lastDoc (.history b k) vs).bind Doc.history?).getD ⟨[], 0⟩ ∧
      ∀ d h', docAt Doc.history? (s d) ((rHistory b k).resolve (root d)) = some h' →
        h'.epoch ≤ (ErasureStore.historyOf ⟨root, v.call.1⟩ b k s).epoch := by
  unfold SomeFresh at hfresh
  rw [hf] at hfresh
  unfold ErasureStore.historyOf lastDoc
  cases hlast : lastChange (.history b k) vs with
  | none =>
      have hno : ∀ d, docAt Doc.history? (s d) ((rHistory b k).resolve (root d)) = none :=
        fun d => by
          have := hk.unset _ hv (hf ▸ hlast) d
          rw [hf] at this
          rw [docAt, show (s d).file? ((rHistory b k).resolve (root d)) = none from this]
          rfl
      rw [bestHistory_none fun h hm => by
        obtain ⟨d, -, hd⟩ := mem_docsUp.1 hm
        rw [hno] at hd
        cases hd]
      exact ⟨rfl, fun d h' hd => by rw [hno] at hd; cases hd⟩
  | some last =>
      obtain ⟨took, x⟩ := last
      rw [hlast] at hfresh
      obtain ⟨d, hup, htook⟩ := hfresh
      obtain ⟨h, rfl, hnew⟩ := hk.newest _ hv b k hf took x hlast
      have hcopy := hk.took _ hv took _ (hf ▸ hlast) d htook
      rw [hf] at hcopy
      have hdoc : docAt Doc.history? (s d) ((rHistory b k).resolve (root d)) = some h := by
        rw [docAt, show (s d).file? ((rHistory b k).resolve (root d)) = _ from hcopy]
        rfl
      rw [bestHistory_eq (mem_docsUp.2 ⟨d, hup, hdoc⟩) fun h' hm => by
        obtain ⟨d', -, hd'⟩ := mem_docsUp.1 hm
        exact hnew d' h' hd']
      refine ⟨rfl, fun d' h' hd' => ?_⟩
      rcases hnew d' h' hd' with rfl | hlt
      · exact le_refl _
      · exact hlt.le

theorem docAt_history {d : Fin n} {b k : Str} {c : Option (Content Doc)}
    (h : copy root s (.history b k) d = c) :
    docAt Doc.history? (s d) ((rHistory b k).resolve (root d)) =
      (c.bind Content.doc?).bind Doc.history? := by
  rw [docAt, show (s d).file? ((rHistory b k).resolve (root d)) = c from h]

theorem Separate.ne (hsep : Separate root calls) {c c' : ConfigCall} (hc : c ∈ calls)
    (hc' : c' ∈ calls) (hf : c.file ≠ c'.file) (d : Fin n) :
    c'.file.rel.resolve (root d) ≠ c.file.rel.resolve (root d) := fun h0 =>
  hf (hsep d c hc c' hc' (h0 ▸ List.prefix_refl _))

theorem stored_history {c : ConfigCall} {r : Except S3Error ConfigAnswer} {x : Option Doc}
    {b k : Str} (hf : c.file = .history b k) (hx : c.stored r = some x) :
    ∃ change, c = .updateHistory b k change := by
  cases c with
  | updateHistory b' k' change =>
      cases hf
      exact ⟨change, rfl⟩
  | readHistory b' k' => cases r <;> cases hx
  | _ => cases hf

/-- One call keeps the copies in order. -/
theorem CopiesKept.step {s' : Cluster n Doc} (hsep : Separate root calls)
    (hk : CopiesKept root calls vs s) (hv : v.call.2 ∈ calls) (hfresh : Fresh root vs v)
    (heffect : ConfigEffect root calls v.call.1 v.call.2 s v.answer s') :
    CopiesKept root calls (vs ++ [v]) s' := by
  rcases heffect with ⟨hnone, rfl⟩ | ⟨x, hx, hput, hupdate⟩
  · -- The call changed nothing.
    have hlast : ∀ f, lastChange f (vs ++ [v]) = lastChange f vs := fun f => by
      rw [lastChange_snoc, hnone]
    refine ⟨hk.free, fun c hc => ?_, fun c hc => ?_, fun c hc b k hf => ?_⟩
    · rw [hlast]
      exact hk.took c hc
    · rw [hlast]
      exact hk.unset c hc
    · rw [hlast]
      exact hk.newest c hc b k hf
  · have hsame : ∀ f, v.call.2.file = f → lastChange f (vs ++ [v]) = some (v.call.1, x) :=
      fun f hf => by
        rw [lastChange_snoc, hx]
        exact if_pos hf
    have hother : ∀ f, v.call.2.file ≠ f → lastChange f (vs ++ [v]) = lastChange f vs :=
      fun f hf => by
        rw [lastChange_snoc, hx]
        exact if_neg hf
    have hcopy : ∀ c ∈ calls, v.call.2.file ≠ c.file → ∀ d,
        copy root s' c.file d = copy root s c.file d := fun c hc hf d =>
      hput.other d _ (hsep.ne hv hc hf d)
    refine ⟨hput.free, fun c hc took y hlast d htook => ?_, fun c hc hlast d => ?_,
      fun c hc b k hf took y hlast => ?_⟩
    · by_cases hf : v.call.2.file = c.file
      · rw [hsame _ hf] at hlast
        cases hlast
        rw [← hf]
        exact hput.up d htook
      · rw [hother _ hf] at hlast
        rw [hcopy c hc hf]
        exact hk.took c hc took y hlast d htook
    · by_cases hf : v.call.2.file = c.file
      · rw [hsame _ hf] at hlast
        cases hlast
      · rw [hother _ hf] at hlast
        rw [hcopy c hc hf]
        exact hk.unset c hc hlast d
    · by_cases hvf : v.call.2.file = c.file
      · -- The change of this history: the drives it reached have it, and every other copy
        -- was there before, so it is older.
        have hvh : v.call.2.file = .history b k := hvf.trans hf
        rw [hsame _ hvh] at hlast
        cases hlast
        obtain ⟨change, hchange⟩ := stored_history hvh hx
        obtain ⟨es, rfl⟩ := hupdate b k change hchange
        have hsome : SomeFresh vs v := by
          unfold Fresh at hfresh
          rw [hchange] at hfresh
          exact hfresh
        refine ⟨_, rfl, fun d h' hd => ?_⟩
        cases hup : v.call.1 d with
        | true =>
            have hnew : copy root s' (.history b k) d = _ := hvh ▸ hput.up d hup
            rw [docAt_history hnew] at hd
            exact .inl (Option.some.inj hd).symm
        | false =>
            rw [hput.down d hup] at hd
            exact .inr (Nat.lt_succ_of_le ((hk.historyOf hv hvh hsome).2 d h' hd))
      · have hvh : v.call.2.file ≠ .history b k := fun h0 => hvf (h0.trans hf.symm)
        rw [hother _ hvh] at hlast
        obtain ⟨h, hh, hnew⟩ := hk.newest c hc b k hf took y hlast
        refine ⟨h, hh, fun d h' hd => hnew d h' ?_⟩
        have hold := hcopy c hc hvf d
        rw [hf] at hold
        rw [← hd, docAt_history hold]
        rfl

/-- A read answers by what it finds. -/
theorem CopiesKept.firstUp (hk : CopiesKept root calls vs s) (hv : v.call.2 ∈ calls)
    (hbefore : v.before = s) (hfresh : FirstFresh root vs v) :
    ErasureStore.firstUp ⟨root, v.call.1⟩ (copy root s v.call.2.file) =
      (lastDoc v.call.2.file vs).map Content.doc := by
  unfold FirstFresh at hfresh
  unfold lastDoc
  cases hlast : lastChange v.call.2.file vs with
  | none => exact firstUp_none fun d _ => hk.unset _ hv hlast d
  | some last =>
      obtain ⟨took, x⟩ := last
      rw [hlast, hbefore] at hfresh
      cases x with
      | none => exact firstUp_none hfresh
      | some doc =>
          obtain ⟨d, hup, htook, hfirst⟩ := hfresh
          exact firstUp_eq hup (hk.took _ hv took _ hlast d htook) hfirst

/-- The versioning status read. -/
theorem CopiesKept.bestStatus (hk : CopiesKept root calls vs s) {b : Str} (hv : v.call.2 ∈ calls)
    (hf : v.call.2.file = .versioning b) (hbefore : v.before = s) (hfresh : SomeFresh vs v)
    (hrank : Outranks root vs v) :
    ErasureStore.bestStatus
        (docsUp ⟨root, v.call.1⟩ Doc.status? (rBucketCfg b VERSIONING) s) =
      ((lastDoc (.versioning b) vs).bind Doc.status?).getD [] := by
  unfold SomeFresh at hfresh
  unfold Outranks lastDoc at hrank
  unfold lastDoc
  rw [hf] at hfresh hrank
  rw [hbefore] at hrank
  cases hlast : lastChange (.versioning b) vs with
  | none =>
      refine bestStatus_unranked fun st hst => ?_
      obtain ⟨d, -, hd⟩ := mem_docsUp.1 hst
      have := hk.unset _ hv (hf ▸ hlast) d
      rw [hf] at this
      rw [docAt, show (s d).file? ((rBucketCfg b VERSIONING).resolve (root d)) = none from this]
        at hd
      cases hd
  | some last =>
      obtain ⟨took, x⟩ := last
      obtain ⟨st, rfl⟩ := lastChange_versioning hlast
      rw [hlast] at hfresh hrank
      obtain ⟨d, hup, htook⟩ := hfresh
      obtain ⟨hpos, hmax⟩ := hrank
      have hcopy := hk.took _ hv took _ (hf ▸ hlast) d htook
      rw [hf] at hcopy
      refine bestStatus_eq (hpos.imp_left fun h0 => ⟨mem_docsUp.2 ⟨d, hup, ?_⟩, h0⟩)
        fun st' hst' => ?_
      · rw [docAt, show (s d).file? ((rBucketCfg b VERSIONING).resolve (root d)) = _ from hcopy]
        rfl
      · obtain ⟨d', hup', hd'⟩ := mem_docsUp.1 hst'
        exact hmax d' hup' st' hd'

theorem CopiesKept.readCfg (hk : CopiesKept root calls vs s) {α : Type}
    (decode : Doc → Option α) (hv : v.call.2 ∈ calls) (hbefore : v.before = s)
    (hfresh : FirstFresh root vs v) :
    Site.run ⟨root, v.call.1⟩ (ErasureStore.readCfg v.call.2.file.rel decode) s =
      (.ok ((lastDoc v.call.2.file vs).bind decode), s) := by
  rw [run_readCfg]
  have hfirst := hk.firstUp hv hbefore hfresh
  rw [show ErasureStore.firstUp (Site.mk root v.call.1) (fun d =>
    (s d).file? (v.call.2.file.rel.resolve (root d))) = _ from hfirst]
  cases lastDoc v.call.2.file vs with
  | none => rfl
  | some doc => rfl

/-- A read that comes to a copy of the last change is current. -/
theorem CopiesKept.current (hk : CopiesKept root calls vs s) {up : Fin n → Bool} {c : ConfigCall}
    (hc : c ∈ calls) (hfresh : Fresh root vs ((configMachine root).visit s (up, c))) :
    Current vs ((configMachine root).visit s (up, c)) := by
  cases c with
  | getBucketVersioning b =>
      have h := hk.bestStatus (v := (configMachine root).visit s (up, .getBucketVersioning b)) hc
        rfl rfl hfresh.1 hfresh.2
      show (Site.run ⟨root, up⟩ (do
        let st ← ErasureStore.getBucketVersioning b
        pure (ConfigAnswer.status st)) s).1 = _
      rw [Site.run_bind, run_getBucketVersioning, andThen_ok,
        show ErasureStore.bestStatus (docsUp ⟨root, up⟩ Doc.status? (rBucketCfg b VERSIONING) s)
          = _ from h]
      rfl
  | getBucketEncryption b =>
      have h := hk.readCfg (v := (configMachine root).visit s (up, .getBucketEncryption b))
        Doc.sse? hc rfl hfresh
      show (Site.run ⟨root, up⟩ (do
        let x ← ErasureStore.getBucketEncryption b
        pure (ConfigAnswer.value x)) s).1 = _
      rw [Site.run_bind, show Site.run ⟨root, up⟩ (ErasureStore.getBucketEncryption b) s = _ from h]
      rfl
  | getBucketPolicy b =>
      have h := hk.readCfg (v := (configMachine root).visit s (up, .getBucketPolicy b))
        Doc.text? hc rfl hfresh
      show (Site.run ⟨root, up⟩ (do
        let x ← ErasureStore.getBucketPolicy b
        pure (ConfigAnswer.value x)) s).1 = _
      rw [Site.run_bind, show Site.run ⟨root, up⟩ (ErasureStore.getBucketPolicy b) s = _ from h]
      rfl
  | getBucketLifecycle b =>
      have h := hk.readCfg (v := (configMachine root).visit s (up, .getBucketLifecycle b))
        Doc.text? hc rfl hfresh
      show (Site.run ⟨root, up⟩ (do
        let x ← ErasureStore.getBucketLifecycle b
        pure (ConfigAnswer.value x)) s).1 = _
      rw [Site.run_bind, show Site.run ⟨root, up⟩ (ErasureStore.getBucketLifecycle b) s = _ from h]
      rfl
  | readHistory b k =>
      have h := (hk.historyOf (v := (configMachine root).visit s (up, .readHistory b k)) hc rfl
        hfresh).1
      show (Site.run ⟨root, up⟩ (do
        let x ← ErasureStore.readHistory b k
        pure (ConfigAnswer.history x)) s).1 = _
      rw [Site.run_bind, run_readHistory, andThen_ok,
        show ErasureStore.historyOf ⟨root, up⟩ b k s = _ from h]
      rfl
  | _ => trivial

theorem Unset.kept (h : Unset root calls s) : CopiesKept root calls [] s :=
  ⟨fun d => (h d).1, fun _ _ _ _ h0 => (by cases h0), fun c hc _ d => (h d).2 c hc,
    fun _ _ _ _ _ _ _ h0 => (by cases h0)⟩

end

/-! ## Runs -/

/-- In every run from drives on which nothing is set, every read that comes to a copy of the
last acknowledged change, as the changes that begin with a read do, answers with it. -/
theorem reads_current {n : Nat} (root : Fin n → List Str)
    (cs : List ((Fin n → Bool) × ConfigCall)) (s : Cluster n Doc)
    (hsep : Separate root (cs.map Prod.snd)) (hunset : Unset root (cs.map Prod.snd) s)
    (hfresh : ∀ pre v post, (configMachine root).visits s cs = pre ++ v :: post →
      Fresh root pre v) :
    ∀ pre v post, (configMachine root).visits s cs = pre ++ v :: post → Current pre v := by
  have hrun : (∀ pre v post, (configMachine root).visits s cs = pre ++ v :: post →
        Fresh root pre v) →
      CopiesKept root (cs.map Prod.snd) ((configMachine root).visits s cs)
          ((configMachine root).final s cs) ∧
        ∀ pre v post, (configMachine root).visits s cs = pre ++ v :: post → Current pre v := by
    refine Machine.invariant (M := configMachine root)
      (P := fun vs t => (∀ pre v post, vs = pre ++ v :: post → Fresh root pre v) →
        CopiesKept root (cs.map Prod.snd) vs t ∧
          ∀ pre v post, vs = pre ++ v :: post → Current pre v)
      (fun _ => ⟨hunset.kept, ?_⟩) ?_ cs
      fun v hv => Machine.call_mem hv
    · intro pre v post h0
      exact absurd h0 (by simp)
    · rintro vs t ⟨up, c⟩ ih hc hall
      obtain ⟨hk, hcurrent⟩ := ih fun pre v post h =>
        hall pre v (post ++ [_]) (by rw [h, List.append_assoc, List.cons_append])
      have hmem : c ∈ cs.map Prod.snd := List.mem_map.2 ⟨_, hc, rfl⟩
      have hlast := hall vs _ [] rfl
      refine ⟨hk.step hsep hmem hlast (effect_step hsep hk.free hmem), fun pre v post h => ?_⟩
      -- The read is the last visit, or one before it.
      rcases List.eq_nil_or_concat post with rfl | ⟨post, w, rfl⟩
      · obtain ⟨rfl, hv⟩ := List.append_inj' h rfl
        obtain rfl := List.singleton_inj.1 hv
        exact hk.current hmem hlast
      · rw [List.concat_eq_append, ← List.cons_append, ← List.append_assoc] at h
        exact hcurrent pre v post (List.append_inj' h rfl).1
  exact (hrun hfresh).2

/-! ## Three drives -/

theorem unset_of_inits {n : Nat} {root : Fin n → List Str} {calls : List ConfigCall}
    {s : Cluster n Doc}
    (h : ∀ d, ∀ c ∈ calls, (s d).look (c.file.rel.resolve (root d)) = none ∧
      ∀ q ∈ (c.file.rel.resolve (root d)).inits, (s d).file? q = none) :
    Unset root calls s := by
  refine fun d => ⟨?_, fun c hc => (h d c hc).2 _ ((List.mem_inits _ _).2 (List.prefix_refl _))⟩
  rintro p ⟨c, hc, rfl⟩
  refine ⟨fun h0 => ?_, fun q hq _ => (h d c hc).2 q ((List.mem_inits _ _).2 hq)⟩
  rw [(h d c hc).1] at h0
  cases h0

/-- Versioning is enabled, a history changed twice and a policy set twice, with different
drives out of reach, and each is read. -/
def configCalls : List ((Fin 3 → Bool) × ConfigCall) :=
  [(fun d => d ≠ 2, .setBucketVersioning "docs".toList "Enabled".toList),
    (fun d => d ≠ 0, .getBucketVersioning "docs".toList),
    (fun d => d ≠ 0, .updateHistory "docs".toList "key".toList id),
    (fun d => d ≠ 1, .updateHistory "docs".toList "key".toList id),
    (fun d => d ≠ 2, .readHistory "docs".toList "key".toList),
    (fun _ => true, .setBucketPolicy "docs".toList "old".toList),
    (fun d => d ≠ 2, .setBucketPolicy "docs".toList "new".toList),
    (fun d => d ≠ 0, .getBucketPolicy "docs".toList)]

theorem reads_current_trio :
    ((configMachine topRoot).visits (withBucket "docs".toList) configCalls).length = 8 ∧
      ∀ pre v post, (configMachine topRoot).visits (withBucket "docs".toList) configCalls =
        pre ++ v :: post → Current pre v :=
  ⟨by decide +kernel, reads_current topRoot configCalls (withBucket "docs".toList)
    (by unfold Separate; decide +kernel) (unset_of_inits (by decide +kernel))
    (Machine.forall_cut (by decide +kernel))⟩

/-- Drive 0 misses the second policy, and is the first asked. -/
def missedPolicy : List ((Fin 3 → Bool) × ConfigCall) :=
  [(fun _ => true, .setBucketPolicy "docs".toList "old".toList),
    (fun d => d ≠ 0, .setBucketPolicy "docs".toList "new".toList),
    (fun _ => true, .getBucketPolicy "docs".toList)]

/-- Both policies are acknowledged, and the first is read. -/
theorem stale_policy_read :
    ((configMachine topRoot).visits (withBucket "docs".toList) missedPolicy).map Visit.answer =
        [.ok .done, .ok .done, .ok (.value (some "old".toList))] ∧
      ¬ ∀ pre v post, (configMachine topRoot).visits (withBucket "docs".toList) missedPolicy =
        pre ++ v :: post → Current pre v := by
  refine ⟨by decide +kernel, fun h => ?_⟩
  have hread := h _ _ [] ((configMachine topRoot).visits_snoc (withBucket "docs".toList)
    (missedPolicy.take 2) (fun _ => true, .getBucketPolicy "docs".toList))
  have hanswer : ((configMachine topRoot).step ((configMachine topRoot).final
      (withBucket "docs".toList) (missedPolicy.take 2))
        (fun _ => true, .getBucketPolicy "docs".toList)).1 =
      .ok (.value ((lastDoc (.policy "docs".toList) ((configMachine topRoot).visits
        (withBucket "docs".toList) (missedPolicy.take 2))).bind Doc.text?)) := hread
  exact absurd hanswer (by decide +kernel)

end Kerplace
