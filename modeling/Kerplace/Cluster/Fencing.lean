/-
# `Kerplace.Cluster.Fencing` — a stale guard's drive requests

A drive request carries the token its node granted the guard, if the fencing
context has one under the base the drive is reached at.  A node that since
granted the resource to another owner has a greater token in its slot, as long
as it remembers the slot, and rejects the request.  A request for a node that
granted the guard nothing carries no token and is not checked at all, and
neither is one whose resource has a name that is not printable ASCII.
-/
import Kerplace.Cluster.Exclusion

namespace Kerplace

/-! ## A granted token in its slot -/

namespace LockTable

variable {m : LockTable} {now : Instant} {r r' o o' : Str} {ttl : Duration} {t t' : Nat}

/-- The slot has a token not below `t`, and with `t` itself no owner but `o`. -/
def Backs (m : LockTable) (r : Str) (t : Nat) (o : Str) : Prop :=
  ∃ s, m[r]? = some s ∧ t ≤ s.token ∧ (s.token = t → s.owner = o ∨ s.owner = [])

/-- The slot has a token above `t`. -/
def Supersedes (m : LockTable) (r : Str) (t : Nat) : Prop :=
  ∃ s, m[r]? = some s ∧ t < s.token

theorem backs_of_granted (h : (m.acquire now r o ttl).1 = some t) :
    Backs (m.acquire now r o ttl).2 r t o := by
  obtain ⟨hfree, ht⟩ := acquire_eq_some.1 h
  refine ⟨_, getElem?_acquire_self, ?_⟩
  rw [if_neg (by rw [hfree]; exact Bool.false_ne_true)]
  exact ⟨ht.ge, fun _ => .inl rfl⟩

/-- A grant out of a slot that backs a token keeps it backed; to another owner it
supersedes the token. -/
theorem token_grant {s : Slot} (hle : t ≤ s.token)
    (hown : s.token = t → s.owner = o ∨ s.owner = []) (hwrap : s.token + 1 < 2 ^ 64)
    (ho' : o' ≠ []) (now : Instant) (ttl : Duration) :
    t ≤ (s.grant now o' ttl).token ∧
      ((s.grant now o' ttl).token = t → o' = o) := by
  rw [Slot.grant]
  simp only
  split
  · rename_i hre
    rw [Slot.reentrant, Bool.and_eq_true, decide_eq_true_eq] at hre
    refine ⟨hle, fun ht => ?_⟩
    rcases hown ht with h | h
    · exact hre.1.symm.trans h
    · exact absurd (hre.1.symm.trans h) ho'
  · rw [bumped_of_lt hwrap]
    exact ⟨by omega, fun ht => by omega⟩

/-- A remembered slot keeps backing a token, whatever is asked of the table. -/
theorem Backs.step (h : Backs m r t o) {c : Call} (hc : c.Named)
    (hrem : Remembers r (machine.visit ⟨now, m⟩ c)) :
    Backs (machine.step ⟨now, m⟩ c).2.table r t o := by
  obtain ⟨s, hs, hle, hown⟩ := h
  cases c with
  | acquire r' o' ttl =>
      obtain ⟨hkeep, hwrap⟩ : ¬ m.Drops now r ∧
        (r' = r → ∀ s, m[r]? = some s → s.token + 1 < 2 ^ 64) := hrem r' o' ttl rfl
      have hcollect := (getElem?_collect_of_not_drops hkeep).trans hs
      change Backs (m.acquire now r' o' ttl).2 r t o
      by_cases hr : r' = r
      · subst hr
        have hslot : m.slotFor now r' = s := by rw [slotFor, hcollect, Option.getD_some]
        refine ⟨_, getElem?_acquire_self, ?_⟩
        rw [hslot]
        split
        · exact ⟨hle, hown⟩
        · obtain ⟨hle', hsame⟩ := token_grant hle hown (hwrap rfl s hs) hc now ttl
          exact ⟨hle', fun ht => .inl (hsame ht)⟩
      · exact ⟨s, by rw [getElem?_acquire_of_ne hr, hcollect], hle, hown⟩
  | release r' o' =>
      change Backs (m.release r' o').2 r t o
      rw [Backs, getElem?_release, hs]
      split
      · refine ⟨_, rfl, ?_⟩
        beta_reduce
        by_cases h0 : s.owner = o'
        · rw [if_pos h0]
          exact ⟨hle, fun _ => .inr rfl⟩
        · rw [if_neg h0]
          exact ⟨hle, hown⟩
      · exact ⟨s, rfl, hle, hown⟩
  | fenceOk r' t' => exact ⟨s, hs, hle, hown⟩
  | pass d => exact ⟨s, hs, hle, hown⟩

theorem Backs.superseded (h : Backs m r t o) (ho' : o' ≠ []) (hne : o' ≠ o)
    (hgrant : (m.acquire now r o' ttl).1 = some t')
    (hrem : Remembers r (machine.visit ⟨now, m⟩ (.acquire r o' ttl))) :
    Supersedes (m.acquire now r o' ttl).2 r t := by
  obtain ⟨s, hs, hle, hown⟩ := h
  obtain ⟨hkeep, hwrap⟩ : ¬ m.Drops now r ∧
    (r = r → ∀ s, m[r]? = some s → s.token + 1 < 2 ^ 64) := hrem r o' ttl rfl
  have hslot : m.slotFor now r = s := by
    rw [slotFor, getElem?_collect_of_not_drops hkeep, hs, Option.getD_some]
  refine ⟨_, getElem?_acquire_self, ?_⟩
  rw [if_neg (by rw [(acquire_eq_some.1 hgrant).1]; exact Bool.false_ne_true), hslot]
  obtain ⟨hle', hsame⟩ := token_grant hle hown (hwrap rfl s hs) ho' now ttl
  exact Nat.lt_of_le_of_ne hle' fun ht => hne (hsame ht.symm)

theorem Supersedes.step (h : Supersedes m r t) {c : Call}
    (hrem : Remembers r (machine.visit ⟨now, m⟩ c)) :
    Supersedes (machine.step ⟨now, m⟩ c).2.table r t := by
  obtain ⟨s, hs, hlt⟩ := h
  obtain ⟨s', hs', hle⟩ := token_step hs hrem
  exact ⟨s', hs', Nat.lt_of_lt_of_le hlt hle⟩

theorem Supersedes.fenceOk (h : Supersedes m r t) : m.fenceOk r t = false := by
  obtain ⟨s, hs, hlt⟩ := h
  rw [LockTable.fenceOk, hs, decide_eq_false_iff_not]
  omega

end LockTable

namespace Sys

variable {G : Type} {D : Deployment G} {s : Sys G} {e : Event G} {a : Nat} {n : Str}
  {x x' : Attempt G} {t : Nat}

/-! ## What a step makes known -/

theorem Moves.settled (h : Moves D s e a x x') (hs : x.phase.settled = true) :
    x'.phase.settled = true ∧ x'.tokens = x.tokens := by
  cases h with
  | stays => exact ⟨hs, rfl⟩
  | granted he hp ht =>
      rw [hp] at hs
      cases hs
  | passed hp =>
      rw [hp] at hs
      cases hs
  | wins he hp hq => exact ⟨rfl, rfl⟩
  | retires hc hsettle => exact ⟨hsettle hs, rfl⟩
  | retries hp =>
      rw [hp] at hs
      cases hs

/-- A node's token is the one there was, or the one it now granted. -/
theorem Moves.token (h : Moves D s e a x x') (ht : x'.tokens[n]? = some t) :
    x.tokens[n]? = some t ∨
      (e = .ask a .answered ∧ ∃ round todo, x.phase = .asking round (n :: todo) ∧
        (s.exec n (.acquire x.resource x.owner.text LOCK_TTL)).1 = .token (some t)) := by
  cases h with
  | stays => exact .inl ht
  | granted he hp hgrant =>
      rename_i round host todo t'
      simp only [Std.ExtTreeMap.getElem?_insert, Std.LawfulEqCmp.compare_eq_iff_eq] at ht
      split at ht
      · rename_i hh
        subst hh
        cases ht
        exact .inr ⟨he, round, todo, hp, hgrant⟩
      · exact .inl ht
  | passed hp => exact .inl ht
  | wins he hp hq => exact .inl ht
  | retires hc hs => exact .inl ht
  | retries hp => cases ht

theorem of_outcomeOf {host r o : Str} {c : LockTable.Call} {ans : LockTable.Answer}
    (h : outcomeOf host c ans = .granted n r o) :
    host = n ∧ ∃ ttl t, c = .acquire r o ttl ∧ ans = .token (some t) := by
  unfold outcomeOf at h
  split at h
  · cases h
    exact ⟨rfl, _, _, rfl, rfl⟩
  · cases h

theorem outcomeOf_ne {host : Str} {c : LockTable.Call} {ans : LockTable.Answer} {o : Outcome}
    (h : outcomeOf host c ans = o) : (∀ a, o ≠ .guarded a) ∧ ∀ a n ok, o ≠ .verdict a n ok := by
  unfold outcomeOf at h
  split at h
  · subst h
    constructor
    · intro a h0
      cases h0
    · intro a n ok h0
      cases h0
  · subst h
    constructor
    · intro a h0
      cases h0
    · intro a n ok h0
      cases h0

variable [DecidableEq G]

/-- A guard made known is held. -/
theorem step_guarded (h : (step D s e).1 = .guarded a) :
    ∃ x, (step D s e).2.attempts[a]? = some x ∧ x.phase.settled = true := by
  cases e with
  | conclude b =>
      simp only [step] at h ⊢
      split at h
      · rename_i y hb
        split at h
        · rename_i round hp
          split at h
          · rename_i hq
            cases h
            refine ⟨{ y with phase := .held }, ?_, rfl⟩
            rw [if_pos hq, put, List.getElem?_set, if_pos rfl,
              if_pos (List.getElem?_eq_some_iff.1 hb).1]
          · cases h
        · cases h
      · cases h
  | ask b rpc =>
      simp only [step] at h
      split at h
      · split at h
        · cases rpc with
          | failed => cases h
          | answered =>
              simp only [ask] at h
              split at h
              · exact absurd h ((outcomeOf_ne rfl).1 a)
              · cases h
        · cases h
      · cases h
  | deliver i =>
      simp only [step] at h
      split at h
      · exact absurd h ((outcomeOf_ne rfl).1 a)
      · cases h
  | free b rpc =>
      simp only [step] at h
      repeat' split at h
      all_goals first | cases h | (cases rpc <;> cases h)
  | lock | again | drop | send | arrive =>
      simp only [step] at h
      repeat' split at h
      all_goals cases h
  | pass d => cases h

/-- A grant made known was made by the node in this step. -/
theorem step_granted {r o : Str} (h : (step D s e).1 = .granted n r o) :
    ∃ ttl t, Makes s e n (.acquire r o ttl) ∧
      ((s.tables n).acquire s.now r o ttl).1 = some t ∧
      (step D s e).2.tables n = ((s.tables n).acquire s.now r o ttl).2 := by
  cases e with
  | ask b rpc =>
      simp only [step] at h
      split at h
      · rename_i x hb
        split at h
        · rename_i round host todo hp
          cases rpc with
          | failed => cases h
          | answered =>
              simp only [ask] at h
              split at h
              · rename_i t ht
                obtain ⟨rfl, ttl, t', hc, hans⟩ := of_outcomeOf h
                cases hc
                refine ⟨_, t', .ask hb hp, LockTable.Answer.token.inj hans, ?_⟩
                simp only [step, hb, hp, ask, ht]
                exact Function.update_self _ _ _
              · cases h
        · cases h
      · cases h
  | deliver i =>
      simp only [step] at h
      split at h
      · rename_i host c hi
        obtain ⟨rfl, ttl, t, rfl, hans⟩ := of_outcomeOf h
        refine ⟨ttl, t, .deliver hi, LockTable.Answer.token.inj hans, ?_⟩
        simp only [step, hi]
        exact Function.update_self _ _ _
      · cases h
  | free b rpc =>
      simp only [step] at h
      repeat' split at h
      all_goals first | cases h | (cases rpc <;> cases h)
  | lock | conclude | again | drop | send | arrive =>
      simp only [step] at h
      repeat' split at h
      all_goals cases h
  | pass d => cases h

/-- A request under way was, or it is sent now, with the headers of the fencing
context. -/
theorem step_sent {q : DriveRequest} (h : q ∈ (step D s e).2.sent) :
    q ∈ s.sent ∨ ∃ (x : Attempt G) (entry : NodeEntry), e = .send q.attempt entry ∧
      s.attempts[q.attempt]? = some x ∧ x.phase = .held ∧ q.host = lockBase entry.addr ∧
      q.fence = x.tokens[driveBase (D.gateway x.gateway).tls entry.addr]?.map fun t =>
        (x.resource, t) := by
  cases e with
  | send b entry =>
      simp only [step] at h
      split at h
      · rename_i x hb
        split at h
        · rename_i hheld
          split at h
          · rcases List.mem_append.1 h with hold | hnew
            · exact .inl hold
            · obtain rfl := List.mem_singleton.1 hnew
              exact .inr ⟨x, entry, rfl, hb, hheld.1, rfl, rfl⟩
          · exact .inl h
        · exact .inl h
      · exact .inl h
  | ask b rpc =>
      simp only [step] at h
      split at h
      · split at h
        · cases rpc with
          | failed => exact .inl h
          | answered =>
              simp only [ask] at h
              split at h <;> exact .inl h
        · exact .inl h
      · exact .inl h
  | free b rpc =>
      simp only [step] at h
      repeat' split at h
      all_goals first | exact .inl h | (cases rpc <;> exact .inl h)
  | arrive i =>
      simp only [step] at h
      split at h
      · exact .inl (List.mem_of_mem_eraseIdx h)
      · exact .inl h
  | lock | conclude | again | drop | deliver =>
      simp only [step] at h
      repeat' split at h
      all_goals exact .inl h
  | pass d => exact .inl h

/-- A verdict made known is the node's check of a request under way. -/
theorem step_verdict {ok : Bool} (h : (step D s e).1 = .verdict a n ok) :
    ∃ q ∈ s.sent, q.attempt = a ∧ q.host = n ∧ ∀ r t, q.fence = some (r, t) →
      headerRead r = some r → ok = (s.tables n).fenceOk r t := by
  cases e with
  | arrive i =>
      simp only [step] at h
      split at h
      · rename_i q hi
        cases h
        refine ⟨q, List.mem_of_getElem? hi, rfl, rfl, fun r t hf hread => ?_⟩
        rw [hf]
        dsimp only
        rw [hread]
      · cases h
  | ask b rpc =>
      simp only [step] at h
      split at h
      · split at h
        · cases rpc with
          | failed => cases h
          | answered =>
              simp only [ask] at h
              split at h
              · exact absurd h ((outcomeOf_ne rfl).2 a n ok)
              · cases h
        · cases h
      · cases h
  | deliver i =>
      simp only [step] at h
      split at h
      · exact absurd h ((outcomeOf_ne rfl).2 a n ok)
      · cases h
  | free b rpc =>
      simp only [step] at h
      repeat' split at h
      all_goals first | cases h | (cases rpc <;> cases h)
  | lock | conclude | again | drop | send =>
      simp only [step] at h
      repeat' split at h
      all_goals cases h
  | pass d => cases h

/-! ## The invariant -/

/-- No step makes node `n` forget the slot of `r`. -/
def Recalls (n r : Str) (v : Visit (Sys G) (Event G) Outcome) : Prop :=
  ∀ c, Makes v.before v.call n c →
    LockTable.Remembers r (LockTable.machine.visit ⟨v.before.now, v.before.tables n⟩ c)

/-- What attempt `a` sends node `n` under its guard carries the token of that node. -/
def Carries (D : Deployment G) (a : Nat) (n : Str) (v : Visit (Sys G) (Event G) Outcome) :
    Prop :=
  ∀ (entry : NodeEntry) (x : Attempt G), v.call = .send a entry → lockBase entry.addr = n →
    v.before.attempts[a]? = some x → x.phase = .held →
    driveBase (D.gateway x.gateway).tls entry.addr = n ∧ n ∈ x.tokens

/-- Once node `n` granted `r` to another owner after attempt `a` got its guard on `r`,
it rejects what `a` sent it. -/
def Fenced (a : Nat) (n r : Str) (vs : List (Visit (Sys G) (Event G) Outcome)) : Prop :=
  ∀ (u w v : Visit (Sys G) (Event G) Outcome) (x : Attempt G) (o : Str) (ok : Bool),
    [u, w, v].Sublist vs → u.answer = .guarded a → w.answer = .granted n r o →
    v.answer = .verdict a n ok → v.before.attempts[a]? = some x → x.resource = r →
    x.owner.text ≠ o → ok = false

/-- What holds of every state and the record before it: node `n` backs the token it
granted attempt `a`, the guard and the requests sent keep that token, and a grant to
another owner supersedes it. -/
structure Traced (a : Nat) (n r : Str) (vs : List (Visit (Sys G) (Event G) Outcome))
    (s : Sys G) : Prop where
  late : Attributed s
  backed : ∀ (x : Attempt G) (t : Nat), s.attempts[a]? = some x → x.resource = r →
    x.tokens[n]? = some t → (s.tables n).Backs r t x.owner.text
  guarded : ∀ u ∈ vs, u.answer = .guarded a →
    ∃ x, s.attempts[a]? = some x ∧ x.phase.settled = true
  sent : ∀ q ∈ s.sent, q.attempt = a → q.host = n → ∃ x t, s.attempts[a]? = some x ∧
    x.phase.settled = true ∧ x.tokens[n]? = some t ∧ q.fence = some (x.resource, t)
  superseded : ∀ (u w : Visit (Sys G) (Event G) Outcome) (x : Attempt G) (o : Str) (t : Nat),
    [u, w].Sublist vs → u.answer = .guarded a → w.answer = .granted n r o →
    s.attempts[a]? = some x → x.resource = r → x.owner.text ≠ o → x.tokens[n]? = some t →
    (s.tables n).Supersedes r t

omit [DecidableEq G] in
theorem traced_init (a : Nat) (n r : Str) (now : Instant) :
    Traced a n r [] (init now : Sys G) where
  late q hq := by simp [init] at hq
  backed x t hx := by simp [init] at hx
  guarded u hu := absurd hu List.not_mem_nil
  sent q hq := by simp [init] at hq
  superseded u w x o t h := by simp at h

omit [DecidableEq G] in
theorem Makes.named {c : LockTable.Call} (h : Makes s e n c) (hlate : Attributed s) :
    c.Named := by
  have hname : ∀ {y : Attempt G}, Names y c → c.Named := by
    rintro y (rfl | rfl)
    · exact uuid_ne_nil _
    · exact uuid_ne_nil _
  cases h with
  | ask ha hp => exact hname (.inl rfl)
  | free _ ha hp => exact hname (.inr rfl)
  | deliver hi =>
      obtain ⟨b, y, hy, hyn⟩ := hlate _ (List.mem_of_getElem? hi)
      exact hname hyn

theorem step_table (D : Deployment G) (s : Sys G) (e : Event G) (n : Str) :
    (step D s e).2.tables n = s.tables n ∨ ∃ c, Makes s e n c ∧
      (step D s e).2.tables n = (LockTable.machine.step ⟨s.now, s.tables n⟩ c).2.table := by
  rcases step_tables D s e with ⟨host, c, hmakes, htab, -⟩ | ⟨htab, -⟩
  · by_cases hh : host = n
    · subst hh
      exact .inr ⟨c, hmakes, by rw [htab, exec]; exact Function.update_self _ _ _⟩
    · refine .inl ?_
      rw [htab, exec]
      exact Function.update_of_ne (Ne.symm hh) _ _
  · exact .inl (by rw [htab])

section Step

variable {r o : Str} {vs : List (Visit (Sys G) (Event G) Outcome)}

theorem backs_step (h : (s.tables n).Backs r t o) (hlate : Attributed s)
    (hrec : Recalls n r ((machine D).visit s e)) :
    ((step D s e).2.tables n).Backs r t o := by
  rcases step_table D s e n with htab | ⟨c, hmakes, htab⟩
  · exact htab ▸ h
  · exact htab ▸ h.step (hmakes.named hlate) (hrec c hmakes)

theorem supersedes_step (h : (s.tables n).Supersedes r t)
    (hrec : Recalls n r ((machine D).visit s e)) :
    ((step D s e).2.tables n).Supersedes r t := by
  rcases step_table D s e n with htab | ⟨c, hmakes, htab⟩
  · exact htab ▸ h
  · exact htab ▸ h.step (hrec c hmakes)

theorem backs_of_ask {round : Nat} {todo : List Str} (hx : s.attempts[a]? = some x)
    (hp : x.phase = .asking round (n :: todo))
    (ht : (s.exec n (.acquire x.resource x.owner.text LOCK_TTL)).1 = .token (some t)) :
    ((step D s (.ask a .answered)).2.tables n).Backs x.resource t x.owner.text := by
  have hgrant : ((s.tables n).acquire s.now x.resource x.owner.text LOCK_TTL).1 = some t :=
    LockTable.Answer.token.inj ht
  rw [step_ask_granted hx hp ht, put, exec]
  simp only [Function.update_self]
  exact LockTable.backs_of_granted hgrant

theorem Traced.step (h : Traced a n r vs s) (hrec : Recalls n r ((machine D).visit s e))
    (hcarry : Carries D a n ((machine D).visit s e)) :
    Traced a n r (vs ++ [(machine D).visit s e]) (step D s e).2 where
  late := h.late.step
  backed x' t hx' hres ht := by
    rcases step_attempt hx' with ⟨x, hx, hmove⟩ | ⟨-, htok, -⟩
    · obtain ⟨-, hresx, howner⟩ := hmove.sameCall
      rw [howner]
      rcases hmove.token ht with hold | ⟨rfl, round, todo, hp, hgrant⟩
      · exact backs_step (h.backed x t hx (hresx.symm.trans hres) hold) h.late hrec
      · rw [← hres, hresx]
        exact backs_of_ask hx hp hgrant
    · rw [htok, Std.ExtTreeMap.getElem?_empty] at ht
      cases ht
  guarded u hu hans := by
    rcases List.mem_append.1 hu with hold | hnew
    · obtain ⟨x, hx, hset⟩ := h.guarded u hold hans
      obtain ⟨x', hx', hmove⟩ := step_keeps D e hx
      exact ⟨x', hx', (hmove.settled hset).1⟩
    · rw [List.mem_singleton.1 hnew] at hans
      exact step_guarded hans
  sent q hq ha hn := by
    have hkeep : ∀ (x : Attempt G) (t : Nat), s.attempts[a]? = some x →
        x.phase.settled = true → x.tokens[n]? = some t → q.fence = some (x.resource, t) →
        ∃ x' t, (Sys.step D s e).2.attempts[a]? = some x' ∧ x'.phase.settled = true ∧
          x'.tokens[n]? = some t ∧ q.fence = some (x'.resource, t) := by
      intro x t hx hset ht hf
      obtain ⟨x', hx', hmove⟩ := step_keeps D e hx
      obtain ⟨hset', htok⟩ := hmove.settled hset
      exact ⟨x', t, hx', hset', by rw [htok, ht], by rw [hmove.sameCall.2.1, hf]⟩
    rcases step_sent hq with hold | ⟨x, entry, he, hx, hheld, hhost, hf⟩
    · obtain ⟨x, t, hx, hset, ht, hf⟩ := h.sent q hold ha hn
      exact hkeep x t hx hset ht hf
    · subst ha
      obtain ⟨hbase, hmem⟩ := hcarry entry x he (hhost.symm.trans hn) hx hheld
      have ht : x.tokens[n]? = some x.tokens[n] := Std.ExtTreeMap.getElem?_eq_some_getElem hmem
      refine hkeep x _ hx (by rw [hheld]; rfl) ht ?_
      rw [hf, hbase, ht, Option.map_some]
  superseded u w x' o t hsub hu hw hx' hres hne ht := by
    -- the guard was there before this step, so the token is the guard's
    have hback : u ∈ vs → ∃ x, s.attempts[a]? = some x ∧ x.resource = r ∧
        x.owner = x'.owner ∧ x.tokens[n]? = some t := by
      intro hmem
      obtain ⟨x, hx, hset⟩ := h.guarded u hmem hu
      obtain ⟨y, hy, hmove⟩ := step_keeps D e hx
      rw [hx'] at hy
      cases hy
      obtain ⟨-, hresx, howner⟩ := hmove.sameCall
      exact ⟨x, hx, hresx.symm.trans hres, howner.symm, by rw [← (hmove.settled hset).2, ht]⟩
    have hends : ([u] ++ [w]).Sublist (vs ++ [(machine D).visit s e]) := hsub
    rcases Machine.sublist_snoc hends with hold | ⟨hwv, hold⟩
    · obtain ⟨x, hx, hresx, howner, htx⟩ := hback (hold.subset List.mem_cons_self)
      rw [← howner] at hne
      exact supersedes_step (h.superseded u w x o t hold hu hw hx hresx hne htx) hrec
    · obtain ⟨x, hx, hresx, howner, htx⟩ := hback (List.singleton_sublist.1 hold)
      rw [← howner] at hne
      rw [hwv] at hw
      obtain ⟨ttl, t', hmakes, hgrant, htab⟩ := step_granted hw
      rw [htab]
      exact (h.backed x t hx hresx htx).superseded (hmakes.named h.late) (Ne.symm hne) hgrant
        (hrec _ hmakes)

end Step

/-- Where node `n` never forgets the slot of `r`, the name of `r` arrives as it was sent, and
everything attempt `a` sends the node carries its token, the node rejects what `a` sent once
it granted `r` to another owner, in every run. -/
theorem staleRejected (D : Deployment G) (now : Instant) (events : List (Event G)) (a : Nat)
    (n : Str) {r : Str} (hread : headerRead r = some r)
    (hrun : ∀ v ∈ (machine D).visits (init now) events, Recalls n r v ∧ Carries D a n v) :
    Fenced a n r ((machine D).visits (init now) events) := by
  intro u w v x o ok hsub hu hw hv hx hres hne
  obtain ⟨pre, post, hsplit, hpre⟩ := Machine.split_of_sublist [u, w] hsub
  obtain ⟨before, c, after, -, hbefore, rfl⟩ := Machine.visits_split hsplit
  have htraced : Traced a n r pre ((machine D).final (init now) before) := by
    rw [← hbefore]
    have hgood : ∀ v' ∈ (machine D).visits (init now) before,
        Recalls n r v' ∧ Carries D a n v' := by
      intro v' hv'
      refine hrun v' ?_
      rw [hsplit, ← hbefore]
      exact List.mem_append_left _ hv'
    refine Machine.invariant (P := Traced a n r) (traced_init a n r now) ?_ before hgood
    exact fun vs s e h hgood => h.step hgood.1 hgood.2
  obtain ⟨q, hq, hqa, hqn, hcheck⟩ := step_verdict hv
  obtain ⟨y, t, hy, -, ht, hf⟩ := htraced.sent q hq hqa hqn
  have hxy : y = x := Option.some.inj (hy.symm.trans hx)
  subst hxy
  rw [hcheck _ _ hf (hres ▸ hread), hres]
  exact (htraced.superseded u w y o t hpre hu hw hx hres hne ht).fenceOk

end Sys

theorem LockTable.remembers_of_small {m : LockTable} {now : Instant} {r : Str}
    (hsize : m.size ≤ 4096) (htoken : ∀ s ∈ m[r]?, s.token + 1 < 2 ^ 64) (c : Call) :
    Remembers r (machine.visit ⟨now, m⟩ c) := by
  intro r' o' ttl hc
  refine ⟨fun hdrop => ?_, fun _ s hs => htoken s hs⟩
  have hlarge : m.size > 4096 := hdrop.1
  omega

/-- Three nodes and two gateways beside them. -/
def besides : Deployment (Fin 2) := lettered ['a', 'b', 'c'] fun _ => none

/-- A guard of all three nodes, a request under it for the last one, which arrives
when the leases have ended and that node has granted the resource to the next. -/
def overdue : List (Event (Fin 2)) :=
  [.lock 0 ['r'] (ownerAt 'a' isHexLower_a), .ask 0 .answered, .ask 0 .answered, .ask 0 .answered,
    .conclude 0, .send 0 ⟨2, ['c']⟩, .pass LOCK_TTL, .lock 1 ['r'] (ownerAt 'b' isHexLower_b),
    .ask 1 .answered, .ask 1 .answered, .ask 1 .answered, .arrive 0]

theorem staleRejected_overdue :
    Sys.Fenced 0 (lockBase ['c']) ['r'] ((Sys.machine besides).visits (Sys.init 0) overdue) := by
  refine Sys.staleRejected besides 0 overdue 0 (lockBase ['c']) (by decide) fun v hv => ?_
  have hsmall : ∀ v ∈ (Sys.machine besides).visits (Sys.init 0) overdue,
      (v.before.tables (lockBase ['c'])).size ≤ 4096 ∧
      (∀ s ∈ (v.before.tables (lockBase ['c']))[['r']]?, s.token + 1 < 2 ^ 64) ∧
      ∀ x ∈ v.before.attempts[0]?, x.phase = .held → lockBase ['c'] ∈ x.tokens := by
    decide +kernel
  obtain ⟨hsize, htoken, hmem⟩ := hsmall v hv
  refine ⟨fun c _ => LockTable.remembers_of_small hsize htoken c, ?_⟩
  intro entry x hcall hbase hx hheld
  have hentry := Machine.call_mem hv
  rw [hcall] at hentry
  simp only [overdue, List.mem_cons, List.not_mem_nil, or_false, reduceCtorEq, false_or,
    Event.send.injEq, true_and] at hentry
  subst hentry
  refine ⟨?_, hmem x hx hheld⟩
  change driveBase false ['c'] = lockBase ['c']
  decide

/-- A guard of two nodes out of three: the third did not answer, so a request for it has
no token, and it is accepted when the next owner has that node's grant. -/
def unfenced : List (Event (Fin 2)) :=
  [.lock 0 ['r'] (ownerAt 'a' isHexLower_a), .ask 0 .answered, .ask 0 .answered, .ask 0 .failed,
    .conclude 0, .lock 1 ['r'] (ownerAt 'b' isHexLower_b), .ask 1 .answered, .ask 1 .answered,
    .ask 1 .answered, .send 0 ⟨2, ['c']⟩, .arrive 0]

theorem unfenced_accepted :
    ¬ Sys.Fenced 0 (lockBase ['c']) ['r']
      ((Sys.machine besides).visits (Sys.init 0) unfenced) := by
  intro h
  have horder : List.Pairwise (· < ·) ([⟨4, by decide +kernel⟩, ⟨8, by decide +kernel⟩,
      ⟨10, by decide +kernel⟩] :
      List (Fin ((Sys.machine besides).visits (Sys.init 0) unfenced).length)) := by
    simp
  have hsub := List.map_getElem_sublist horder
  obtain ⟨x, hx, hname⟩ : ∃ x, (((Sys.machine besides).visits (Sys.init 0) unfenced).get
      ⟨10, by decide +kernel⟩).before.attempts[0]? = some x ∧
      (x.resource, x.owner.text) = (['r'], (ownerAt 'a' rfl).text) :=
    Option.map_eq_some_iff.1 (by decide +kernel)
  obtain ⟨hres, howner⟩ := Prod.mk.inj hname
  have hrejected := h _ _ _ x (ownerAt 'b' rfl).text true hsub (by decide +kernel)
    (by decide +kernel) (by decide +kernel) hx hres (by rw [howner]; decide)
  cases hrejected

end Kerplace
