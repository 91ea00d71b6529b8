/-
# `Kerplace.Cluster.KeyLocks` — the local locks, one for each key

A gateway keeps a mutex for each key it has been asked for, behind a counted pointer.  To
acquire, a task takes the lock of the map, looks through the map if it has grown large and
takes out what only the map points to, gets the key's mutex or makes one, lets go of the map
and waits for the mutex.

Other tasks get and drop mutexes all the while.  They drop pointers without the lock of the
map, so each entry is looked at in a step of its own.
-/
import Kerplace.Lib.Machine
import Kerplace.Lib.UnixPath
import Mathlib.Algebra.Order.Group.Multiset

namespace Kerplace

/-- Where a task that has got a mutex from the map has got to: it waits, its guard is live,
or it has let go and is about to drop the pointer. -/
inductive LockPhase where
  | waiting
  | holding
  | dropping
  deriving DecidableEq

/-- A task between `clone` and the drop of its pointer. -/
structure KeyTask where
  key : Str
  arc : Nat
  phase : LockPhase
  deriving DecidableEq

/-- An acquisition that holds the lock of the map: its key, and the entries it has still to
look at. -/
structure Entering where
  key : Str
  todo : List Str

/-- `LocalKeyLocks`, the mutexes it has made and the tasks that have one.  Mutexes are
numbered as they are made. -/
structure LocalKeyLocks where
  map : Std.ExtTreeMap Str Nat
  strong : Nat → Nat
  locked : Nat → Bool
  made : Nat
  tasks : Multiset KeyTask
  entering : Option Entering

/-- The steps of tasks. -/
inductive KeyLockStep where
  /-- Take the lock of the map; its entries come in this order. -/
  | enter (key : Str) (order : List Str)
  /-- Look at the next entry. -/
  | look
  /-- Get the mutex, and let go of the map. -/
  | clone
  /-- The mutex is granted. -/
  | grant (t : KeyTask)
  /-- The guard goes, or the wait is given up. -/
  | release (t : KeyTask)
  /-- The pointer is dropped. -/
  | drop (t : KeyTask)

namespace LocalKeyLocks

/-- `LocalKeyLocks::new`. -/
def new : LocalKeyLocks := ⟨∅, fun _ => 0, fun _ => false, 0, 0, none⟩

/-- The entry of a key is kept if something beside the map points to its mutex. -/
def retain (L : LocalKeyLocks) (key : Str) : LocalKeyLocks :=
  match L.map[key]? with
  | some arc =>
      if L.strong arc > 1 then L
      else { L with map := L.map.erase key
                    strong := Function.update L.strong arc (L.strong arc - 1) }
  | none => L

/-- `entry`, `or_insert_with` and `clone`. -/
def cloneEntry (L : LocalKeyLocks) (key : Str) : LocalKeyLocks :=
  match L.map[key]? with
  | some arc =>
      { L with strong := Function.update L.strong arc (L.strong arc + 1)
               tasks := ⟨key, arc, .waiting⟩ ::ₘ L.tasks }
  | none =>
      { L with map := L.map.insert key L.made
               strong := Function.update L.strong L.made 2
               locked := Function.update L.locked L.made false
               made := L.made + 1
               tasks := ⟨key, L.made, .waiting⟩ ::ₘ L.tasks }

/-- Where a task has got to. -/
def setPhase (L : LocalKeyLocks) (t : KeyTask) (phase : LockPhase) : LocalKeyLocks :=
  { L with tasks := { t with phase } ::ₘ L.tasks.erase t }

/-- A step, if it can be taken. -/
def step? (L : LocalKeyLocks) : KeyLockStep → Option LocalKeyLocks
  | .enter key order =>
      if L.entering.isNone ∧ order.Perm L.map.keys then
        some { L with entering := some ⟨key, if L.map.size > 1024 then order else []⟩ }
      else none
  | .look =>
      match L.entering with
      | some ⟨key, k :: todo⟩ => some { L.retain k with entering := some ⟨key, todo⟩ }
      | _ => none
  | .clone =>
      match L.entering with
      | some ⟨key, []⟩ => some { L.cloneEntry key with entering := none }
      | _ => none
  | .grant t =>
      if t ∈ L.tasks ∧ t.phase = .waiting ∧ L.locked t.arc = false then
        some { L.setPhase t .holding with locked := Function.update L.locked t.arc true }
      else none
  | .release t =>
      if t ∈ L.tasks ∧ t.phase = .holding then
        some { L.setPhase t .dropping with locked := Function.update L.locked t.arc false }
      else if t ∈ L.tasks ∧ t.phase = .waiting then some (L.setPhase t .dropping)
      else none
  | .drop t =>
      if t ∈ L.tasks ∧ t.phase = .dropping then
        some { L with tasks := L.tasks.erase t
                      strong := Function.update L.strong t.arc (L.strong t.arc - 1) }
      else none

end LocalKeyLocks

/-- The tasks of a process, step by step; a step that cannot be taken leaves everything. -/
def keyLocksMachine : Machine LocalKeyLocks KeyLockStep Bool :=
  ⟨fun L s =>
    match L.step? s with
    | some L' => (true, L')
    | none => (false, L)⟩

/-- The guards of a key that are live. -/
def LocalKeyLocks.guards (L : LocalKeyLocks) (key : Str) : Nat :=
  L.tasks.countP fun t => t.key = key ∧ t.phase = .holding

/-- How many tasks point to a mutex. -/
def LocalKeyLocks.pointers (L : LocalKeyLocks) (arc : Nat) : Nat :=
  L.tasks.countP fun t => t.arc = arc

/-- How many tasks hold a mutex. -/
def LocalKeyLocks.holders (L : LocalKeyLocks) (arc : Nat) : Nat :=
  L.tasks.countP fun t => t.arc = arc ∧ t.phase = .holding

/-- What every step keeps.  The map and the tasks agree on which mutex a key has, and the
count of a mutex in the map is that of its pointers. -/
structure LocksAgree (L : LocalKeyLocks) : Prop where
  entry : ∀ t ∈ L.tasks, L.map[t.key]? = some t.arc
  counted : ∀ (key : Str) arc, L.map[key]? = some arc → L.strong arc = L.pointers arc + 1
  apart : ∀ (key key' : Str) arc, L.map[key]? = some arc → L.map[key']? = some arc → key = key'
  made : ∀ (key : Str) arc, L.map[key]? = some arc → arc < L.made
  excluded : ∀ arc, L.holders arc = if L.locked arc then 1 else 0

/-! ## Counting tasks -/

section

variable {L : LocalKeyLocks} {t : KeyTask}

theorem pointers_cons (L : LocalKeyLocks) (t : KeyTask) (arc : Nat) :
    Multiset.countP (fun u : KeyTask => u.arc = arc) (t ::ₘ L.tasks) =
      L.pointers arc + if t.arc = arc then 1 else 0 := Multiset.countP_cons _ _ _

theorem pointers_setPhase (ht : t ∈ L.tasks) (phase : LockPhase) (arc : Nat) :
    (L.setPhase t phase).pointers arc = L.pointers arc := by
  change Multiset.countP _ ({ t with phase } ::ₘ L.tasks.erase t) = Multiset.countP _ L.tasks
  rw [← Multiset.cons_erase ht, Multiset.erase_cons_head, Multiset.countP_cons,
    Multiset.countP_cons]

theorem holders_setPhase (ht : t ∈ L.tasks) (phase : LockPhase) (arc : Nat) :
    (L.setPhase t phase).holders arc + (if t.arc = arc ∧ t.phase = .holding then 1 else 0) =
      L.holders arc + if t.arc = arc ∧ phase = .holding then 1 else 0 := by
  change Multiset.countP _ ({ t with phase } ::ₘ L.tasks.erase t) + _ =
    Multiset.countP _ L.tasks + _
  rw [← Multiset.cons_erase ht, Multiset.erase_cons_head, Multiset.countP_cons,
    Multiset.countP_cons]
  dsimp only
  omega

theorem mem_setPhase {phase : LockPhase} {u : KeyTask} (h : u ∈ (L.setPhase t phase).tasks) :
    u = { t with phase } ∨ u ∈ L.tasks := by
  rcases Multiset.mem_cons.1 h with h | h
  · exact .inl h
  · exact .inr (Multiset.mem_of_mem_erase h)

/-! ## One step -/

namespace LocksAgree

theorem unused (h : LocksAgree L) {key : Str} {arc : Nat} (hentry : L.map[key]? = some arc)
    (hstrong : ¬L.strong arc > 1) : ∀ u ∈ L.tasks, u.arc ≠ arc := by
  have hcount := h.counted key arc hentry
  have hzero : L.pointers arc = 0 := by omega
  exact Multiset.countP_eq_zero.1 hzero

/-- Looking at an entry keeps the map and the tasks in agreement. -/
theorem retain (h : LocksAgree L) (key : Str) : LocksAgree (L.retain key) := by
  unfold LocalKeyLocks.retain
  split
  next arc hentry =>
    split
    next => exact h
    next hstrong =>
      have hold : ∀ (k : Str) x, (L.map.erase key)[k]? = some x →
          k ≠ key ∧ L.map[k]? = some x := by
        intro k x hk
        rw [Std.ExtTreeMap.getElem?_erase] at hk
        split at hk
        · cases hk
        next hne =>
          exact ⟨fun heq => hne (by rw [heq]; exact Std.ReflOrd.compare_self), hk⟩
      refine ⟨fun u hu => ?_, fun k x hk => ?_, fun k k' x hk hk' => ?_, fun k x hk => ?_,
        h.excluded⟩
      · have hne : u.key ≠ key := by
          intro heq
          have hsame := h.entry u hu
          rw [heq, hentry] at hsame
          exact h.unused hentry hstrong u hu (Option.some.inj hsame).symm
        change (L.map.erase key)[u.key]? = some u.arc
        rw [Std.ExtTreeMap.getElem?_erase,
          if_neg fun hcmp => hne (Std.LawfulEqOrd.eq_of_compare hcmp).symm]
        exact h.entry u hu
      · obtain ⟨hne, hk⟩ := hold k x hk
        have hx : x ≠ arc := fun heq => hne (h.apart k key arc (heq ▸ hk) hentry)
        change Function.update L.strong arc _ x = _
        rw [Function.update_of_ne hx]
        exact h.counted k x hk
      · exact h.apart k k' x (hold k x hk).2 (hold k' x hk').2
      · exact h.made k x (hold k x hk).2
  next => exact h

theorem pointers_made (h : LocksAgree L) : L.pointers L.made = 0 := by
  refine Multiset.countP_eq_zero.2 fun u hu heq => ?_
  exact absurd (h.made u.key u.arc (h.entry u hu)) (by rw [heq]; exact Nat.lt_irrefl _)

theorem holders_le (L : LocalKeyLocks) (arc : Nat) : L.holders arc ≤ L.pointers arc := by
  unfold LocalKeyLocks.holders LocalKeyLocks.pointers
  rw [Multiset.countP_eq_card_filter, Multiset.countP_eq_card_filter]
  exact Multiset.card_le_card (Multiset.monotone_filter_right _ fun u hu => hu.1)

/-- Getting the mutex of a key keeps the map and the tasks in agreement. -/
theorem cloneEntry (h : LocksAgree L) (key : Str) : LocksAgree (L.cloneEntry key) := by
  have hholders : ∀ arc x, Multiset.countP
      (fun u : KeyTask => u.arc = x ∧ u.phase = .holding) (⟨key, arc, .waiting⟩ ::ₘ L.tasks) =
        L.holders x :=
    fun arc x => Multiset.countP_cons_of_neg _ fun hu => by cases hu.2
  unfold LocalKeyLocks.cloneEntry
  split
  next arc hentry =>
    refine ⟨fun u hu => ?_, fun k x hk => ?_, h.apart, h.made, fun x => ?_⟩
    · rcases Multiset.mem_cons.1 hu with rfl | hu
      · exact hentry
      · exact h.entry u hu
    · have hcount := h.counted k x hk
      change Function.update L.strong arc _ x = Multiset.countP _ (_ ::ₘ L.tasks) + 1
      rw [pointers_cons]
      by_cases hx : arc = x
      · subst hx
        rw [Function.update_self, if_pos rfl]
        omega
      · rw [Function.update_of_ne (Ne.symm hx), if_neg hx]
        omega
    · exact (hholders arc x).trans (h.excluded x)
  next hnone =>
    have hold : ∀ (k : Str) x, (L.map.insert key L.made)[k]? = some x →
        (k = key ∧ x = L.made) ∨ (L.map[k]? = some x ∧ x < L.made) := by
      intro k x hk
      by_cases heq : k = key
      · subst heq
        rw [Std.ExtTreeMap.getElem?_insert_self] at hk
        exact .inl ⟨rfl, (Option.some.inj hk).symm⟩
      · rw [Std.ExtTreeMap.getElem?_insert,
          if_neg fun hcmp => heq (Std.LawfulEqOrd.eq_of_compare hcmp).symm] at hk
        exact .inr ⟨hk, h.made k x hk⟩
    refine ⟨fun u hu => ?_, fun k x hk => ?_, fun k k' x hk hk' => ?_, fun k x hk => ?_,
      fun x => ?_⟩
    · change (L.map.insert key L.made)[u.key]? = some u.arc
      rcases Multiset.mem_cons.1 hu with rfl | hu
      · exact Std.ExtTreeMap.getElem?_insert_self
      · have hu := h.entry u hu
        have hne : u.key ≠ key := fun heq => by rw [heq, hnone] at hu; cases hu
        rw [Std.ExtTreeMap.getElem?_insert,
          if_neg fun hcmp => hne (Std.LawfulEqOrd.eq_of_compare hcmp).symm]
        exact hu
    · change Function.update L.strong L.made 2 x = Multiset.countP _ (_ ::ₘ L.tasks) + 1
      rw [pointers_cons]
      rcases hold k x hk with ⟨rfl, rfl⟩ | ⟨hk, hx⟩
      · rw [Function.update_self, if_pos rfl, h.pointers_made]
      · rw [Function.update_of_ne hx.ne, if_neg hx.ne']
        exact h.counted k x hk
    · rcases hold k x hk with ⟨rfl, rfl⟩ | ⟨hk, hx⟩
      · rcases hold k' _ hk' with ⟨rfl, -⟩ | ⟨-, hx⟩
        · rfl
        · exact absurd hx (Nat.lt_irrefl _)
      · rcases hold k' x hk' with ⟨-, rfl⟩ | ⟨hk', -⟩
        · exact absurd hx (Nat.lt_irrefl _)
        · exact h.apart k k' x hk hk'
    · change x < L.made + 1
      rcases hold k x hk with ⟨-, rfl⟩ | ⟨-, hx⟩
      · exact Nat.lt_succ_self _
      · exact hx.trans (Nat.lt_succ_self _)
    · refine (hholders L.made x).trans ?_
      change L.holders x = if Function.update L.locked L.made false x then 1 else 0
      by_cases hx : x = L.made
      · subst hx
        rw [Function.update_self]
        have hle := holders_le L L.made
        rw [h.pointers_made] at hle
        exact Nat.le_zero.1 hle
      · rw [Function.update_of_ne hx]
        exact h.excluded x

theorem setPhase (h : LocksAgree L) (ht : t ∈ L.tasks) (phase : LockPhase)
    {locked : Nat → Bool}
    (hlocked : ∀ arc, (L.setPhase t phase).holders arc = if locked arc then 1 else 0) :
    LocksAgree { L.setPhase t phase with locked } where
  entry u hu := by
    rcases mem_setPhase hu with rfl | hu
    · exact h.entry t ht
    · exact h.entry u hu
  counted k x hk := (h.counted k x hk).trans
    (congrArg (· + 1) (pointers_setPhase ht phase x).symm)
  apart := h.apart
  made := h.made
  excluded := hlocked

/-- The pointer that is dropped is one the count had. -/
theorem drop (h : LocksAgree L) (ht : t ∈ L.tasks) (hphase : t.phase = .dropping) :
    LocksAgree { L with tasks := L.tasks.erase t
                        strong := Function.update L.strong t.arc (L.strong t.arc - 1) } := by
  have hpointers : ∀ x, L.pointers x =
      Multiset.countP (fun u : KeyTask => u.arc = x) (L.tasks.erase t) +
        if t.arc = x then 1 else 0 := by
    intro x
    unfold LocalKeyLocks.pointers
    conv_lhs => rw [← Multiset.cons_erase ht]
    exact Multiset.countP_cons _ _ _
  refine ⟨fun u hu => h.entry u (Multiset.mem_of_mem_erase hu), fun k x hk => ?_, h.apart,
    h.made, fun x => ?_⟩
  · have hcount := h.counted k x hk
    have hsplit := hpointers x
    change Function.update L.strong t.arc _ x = Multiset.countP _ (L.tasks.erase t) + 1
    by_cases hx : t.arc = x
    · subst hx
      rw [if_pos rfl] at hsplit
      rw [Function.update_self]
      omega
    · rw [if_neg hx] at hsplit
      rw [Function.update_of_ne (Ne.symm hx)]
      omega
  · refine Eq.trans ?_ (h.excluded x)
    unfold LocalKeyLocks.holders
    conv_rhs => rw [← Multiset.cons_erase ht]
    exact (Multiset.countP_cons_of_neg _ fun hu => by rw [hphase] at hu; cases hu.2).symm

/-- A mutex is locked just when a task holds it: so it is for a grant. -/
theorem holders_grant (h : LocksAgree L) (ht : t ∈ L.tasks) (hphase : t.phase = .waiting)
    (hfree : L.locked t.arc = false) (arc : Nat) :
    (L.setPhase t .holding).holders arc =
      if Function.update L.locked t.arc true arc then 1 else 0 := by
  have hmoved := holders_setPhase ht .holding arc
  have hbefore := h.excluded arc
  rw [if_neg fun hu => by rw [hphase] at hu; cases hu.2] at hmoved
  by_cases harc : t.arc = arc
  · subst harc
    rw [hfree, if_neg Bool.false_ne_true] at hbefore
    rw [if_pos ⟨rfl, rfl⟩, hbefore] at hmoved
    rw [Function.update_self, if_pos rfl]
    exact hmoved
  · rw [if_neg fun hu => harc hu.1] at hmoved
    rw [Function.update_of_ne (Ne.symm harc), ← hbefore]
    exact hmoved

theorem holders_release (h : LocksAgree L) (ht : t ∈ L.tasks) (hphase : t.phase = .holding)
    (arc : Nat) : (L.setPhase t .dropping).holders arc =
      if Function.update L.locked t.arc false arc then 1 else 0 := by
  have hmoved := holders_setPhase ht .dropping arc
  have hbefore := h.excluded arc
  have hgone : ¬(t.arc = arc ∧ LockPhase.dropping = .holding) := fun hu => by cases hu.2
  rw [if_neg hgone] at hmoved
  by_cases harc : t.arc = arc
  · subst harc
    rw [if_pos ⟨rfl, hphase⟩] at hmoved
    rw [Function.update_self, if_neg Bool.false_ne_true]
    split at hbefore <;> omega
  · rw [if_neg fun hu => harc hu.1] at hmoved
    rw [Function.update_of_ne (Ne.symm harc), ← hbefore]
    exact hmoved

/-- One step keeps the map and the tasks in agreement. -/
theorem step (h : LocksAgree L) {s : KeyLockStep} {L' : LocalKeyLocks} (hs : L.step? s = some L') :
    LocksAgree L' := by
  cases s with
  | enter key order =>
      simp only [LocalKeyLocks.step?] at hs
      split at hs
      next =>
        obtain rfl := Option.some.inj hs
        exact ⟨h.entry, h.counted, h.apart, h.made, h.excluded⟩
      next => cases hs
  | look =>
      simp only [LocalKeyLocks.step?] at hs
      split at hs
      next key k todo _ =>
        obtain rfl := Option.some.inj hs
        obtain ⟨hentry, hcounted, hapart, hmade, hexcluded⟩ := h.retain k
        exact ⟨hentry, hcounted, hapart, hmade, hexcluded⟩
      next => cases hs
  | clone =>
      simp only [LocalKeyLocks.step?] at hs
      split at hs
      next key _ =>
        obtain rfl := Option.some.inj hs
        obtain ⟨hentry, hcounted, hapart, hmade, hexcluded⟩ := h.cloneEntry key
        exact ⟨hentry, hcounted, hapart, hmade, hexcluded⟩
      next => cases hs
  | grant t =>
      simp only [LocalKeyLocks.step?] at hs
      split at hs
      next hcan =>
        obtain rfl := Option.some.inj hs
        exact h.setPhase hcan.1 .holding (h.holders_grant hcan.1 hcan.2.1 hcan.2.2)
      next => cases hs
  | release t =>
      simp only [LocalKeyLocks.step?] at hs
      split at hs
      next hcan =>
        obtain rfl := Option.some.inj hs
        exact h.setPhase hcan.1 .dropping (h.holders_release hcan.1 hcan.2)
      next =>
        split at hs
        next hcan =>
          obtain rfl := Option.some.inj hs
          refine h.setPhase hcan.1 .dropping fun arc => ?_
          have hmoved := holders_setPhase hcan.1 .dropping arc
          rw [if_neg fun hu => (by rw [hcan.2] at hu; cases hu.2 : False),
            if_neg fun hu => (by cases hu.2 : False)] at hmoved
          exact hmoved.trans (h.excluded arc)
        next => cases hs
  | drop t =>
      simp only [LocalKeyLocks.step?] at hs
      split at hs
      next hcan =>
        obtain rfl := Option.some.inj hs
        exact h.drop hcan.1 hcan.2
      next => cases hs

/-! ## What agreement gives -/

theorem same_arc (h : LocksAgree L) {u : KeyTask} (ht : t ∈ L.tasks) (hu : u ∈ L.tasks)
    (hkey : t.key = u.key) : t.arc = u.arc := by
  have hentry := h.entry t ht
  rw [hkey, h.entry u hu] at hentry
  exact (Option.some.inj hentry).symm

theorem guards_le_one (h : LocksAgree L) (key : Str) : L.guards key ≤ 1 := by
  by_contra hmany
  have hpos : 0 < L.guards key := by omega
  obtain ⟨t, ht, rfl, -⟩ := Multiset.countP_pos.1 hpos
  have hguards : L.guards t.key = L.holders t.arc := by
    refine Multiset.countP_congr rfl fun u hu => propext (and_congr_left' ⟨fun hkey => ?_, ?_⟩)
    · exact h.same_arc hu ht hkey
    · exact fun harc => h.apart _ _ _ (h.entry u hu) (harc ▸ h.entry t ht)
  rw [hguards, h.excluded] at hmany
  split at hmany <;> omega

theorem new : LocksAgree .new where
  entry t ht := absurd ht (Multiset.notMem_zero t)
  counted k arc hk := by
    have hnone : LocalKeyLocks.new.map[k]? = none := Std.ExtTreeMap.getElem?_empty
    rw [hnone] at hk
    cases hk
  apart k _ arc hk := by
    have hnone : LocalKeyLocks.new.map[k]? = none := Std.ExtTreeMap.getElem?_empty
    rw [hnone] at hk
    cases hk
  made k arc hk := by
    have hnone : LocalKeyLocks.new.map[k]? = none := Std.ExtTreeMap.getElem?_empty
    rw [hnone] at hk
    cases hk
  excluded _ := rfl

/-- The map and the tasks agree in every state that is reached. -/
theorem final (steps : List KeyLockStep) : LocksAgree (keyLocksMachine.final .new steps) := by
  have hstep : ∀ (vs : List (Visit LocalKeyLocks KeyLockStep Bool)) (L : LocalKeyLocks)
      (s : KeyLockStep), LocksAgree L → True → LocksAgree (keyLocksMachine.step L s).2 := by
    intro _ L s h _
    cases hs : L.step? s with
    | some L' =>
        have hnext : (keyLocksMachine.step L s).2 = L' := by
          simp only [keyLocksMachine, hs]
        rw [hnext]
        exact h.step hs
    | none =>
        have hnext : (keyLocksMachine.step L s).2 = L := by
          simp only [keyLocksMachine, hs]
        rw [hnext]
        exact h
  exact Machine.invariant LocksAgree.new hstep steps fun _ _ => trivial

end LocksAgree

end

/-- However the steps of tasks come, a key has at most one live guard, and the mutex of each
task is the one the map has for its key, so that the next to acquire the key gets that. -/
theorem local_key_locks_exclude (steps : List KeyLockStep) :
    (∀ key, (keyLocksMachine.final .new steps).guards key ≤ 1) ∧
    ∀ t ∈ (keyLocksMachine.final .new steps).tasks,
      (keyLocksMachine.final .new steps).map[t.key]? = some t.arc ∧
      ⟨t.key, t.arc, .waiting⟩ ∈ ((keyLocksMachine.final .new steps).cloneEntry t.key).tasks := by
  have h := LocksAgree.final steps
  refine ⟨h.guards_le_one, fun t ht => ⟨h.entry t ht, ?_⟩⟩
  unfold LocalKeyLocks.cloneEntry
  rw [h.entry t ht]
  exact Multiset.mem_cons_self _ _

end Kerplace
