/-
# `Kerplace.Handlers.Lifecycle` — one pass of the lifecycle worker

The worker is written against the store trait, so here against whatever lists, deletes and
answers for locks as a store does.  It goes through the rules, and for each through the pages
of the listing under the rule's prefix, and deletes from that listing as it goes.

A page is continued from the first key that was not on it.  What is deleted lies before
that key, so the pages to come are those there would have been: the paging is one walk over
the keys that were there at the start, and the deletions do not disturb it.
-/
import Kerplace.Handlers.ObjectLock
import Kerplace.Storage.Paging
import Mathlib.Data.List.Dedup

namespace Kerplace

/-! ## Expirations -/

/-- How old an object is, in whole days. -/
def wholeDays (lastModified now : Int) : Int := (now - lastModified).tdiv 86400

namespace LifecycleExpiration

variable (exp : LifecycleExpiration) (L : LockText) (lastModified now : Int)

/-- The age or the date that the expiration names has come. -/
def Reached : Prop :=
  (∃ days ∈ exp.days, (days.toNat : Int) ≤ wholeDays lastModified now) ∨
    ∃ date ∈ exp.date.bind L.rfc3339, date ≤ now

/-- The age has come, or, where none is named, the date. -/
def Plain : Prop :=
  (∃ days ∈ exp.days, (days.toNat : Int) ≤ wholeDays lastModified now) ∨
    exp.days = none ∧ ∃ date ∈ exp.date.bind L.rfc3339, date ≤ now

/-- The day count is too large for an `i64`, and what it wraps to has come. -/
def Wraps : Prop :=
  ∃ days ∈ exp.days, 2 ^ 63 ≤ days.toNat ∧
    (days.toNat : Int) - 2 ^ 64 ≤ wholeDays lastModified now

/-- The date has come, but a day count stands beside it. -/
def Hidden : Prop := exp.days ≠ none ∧ ∃ date ∈ exp.date.bind L.rfc3339, date ≤ now

variable {exp L lastModified now}

theorem reached_iff : exp.Reached L lastModified now ↔
    exp.Plain L lastModified now ∨ exp.Hidden L now := by
  unfold Reached Plain Hidden
  by_cases hdays : exp.days = none
  · simp [hdays]
  · simp [hdays]

end LifecycleExpiration

theorem toInt64_toInt (days : UInt64) : days.toInt64.toInt =
    if 2 ^ 63 ≤ days.toNat then (days.toNat : Int) - 2 ^ 64 else (days.toNat : Int) := by
  have hbits : days.toInt64.toInt = days.toBitVec.toInt := rfl
  rw [hbits, BitVec.toInt_eq_toNat_cond]
  show (if 2 * days.toNat < 2 ^ 64 then (days.toNat : Int) else (days.toNat : Int) - 2 ^ 64) = _
  split
  · rw [if_neg (by omega)]
  · rw [if_pos (by omega)]

/-- What `should_expire` goes by. -/
theorem shouldExpire_iff {L : LockText} {exp : LifecycleExpiration} {lastModified now : Int} :
    shouldExpire L exp lastModified now = true ↔
      exp.Plain L lastModified now ∨ exp.Wraps lastModified now := by
  unfold shouldExpire LifecycleExpiration.Plain LifecycleExpiration.Wraps
  cases hdays : exp.days with
  | none =>
    cases hdate : exp.date.bind L.rfc3339 with
    | none => simp
    | some date => simp
  | some days =>
    have hlt := days.toNat_lt
    simp only [Option.mem_def, Option.some.injEq, exists_eq_left', decide_eq_true_eq,
      toInt64_toInt, wholeDays, reduceCtorEq, false_and, or_false]
    split
    · omega
    · omega

/-! ## The worker -/

/-- `LifecycleFilter`. -/
structure LifecycleFilter where
  pre : Option Str

/-- `NoncurrentVersionExpiration`. -/
structure NoncurrentVersionExpiration where
  noncurrentDays : UInt64

/-- `LifecycleRule`. -/
structure LifecycleRule where
  id : Option Str
  status : Str
  filter : Option LifecycleFilter
  expiration : Option LifecycleExpiration
  noncurrentVersionExpiration : Option NoncurrentVersionExpiration

/-- The prefix that `expire_bucket` lists under. -/
def LifecycleRule.pre (r : LifecycleRule) : Str := (r.filter.bind LifecycleFilter.pre).getD []

/-- The expiration of an enabled rule. -/
def LifecycleRule.active (r : LifecycleRule) : Option LifecycleExpiration :=
  if eqIgnoreAsciiCase r.status "Enabled".toList then r.expiration else none

/-- What the worker uses of a store, for one bucket: `list_objects_v2` without a delimiter,
the two locks of an object, and `delete_object`. -/
structure ExpiryStore (σ : Type) where
  listObjectsV2 : (pre : Str) → (token : Option Str) → (maxKeys : Nat) → σ →
    Except S3Error Listing
  getObjectLegalHold : (key : Str) → σ → Except S3Error (Option Str)
  getObjectRetention : (key : Str) → σ → Except S3Error (Option Str)
  deleteObject : (key : Str) → σ → σ

namespace ExpiryStore

variable {σ : Type} (S : ExpiryStore σ) (L : LockText)

/-- `object_locked`. -/
def objectLocked (now : Int) (key : Str) (s : σ) : Bool :=
  let retained := match S.getObjectRetention key s with
    | .ok (some raw) => L.retains now raw
    | _ => false
  match S.getObjectLegalHold key s with
  | .ok (some status) => if eqIgnoreAsciiCase status ON then true else retained
  | _ => retained

/-- The body of the loop over the objects of a page. -/
def expireObject (exp : LifecycleExpiration) (now : Int) (s : σ) (obj : ObjectMeta) : σ :=
  if shouldExpire L exp obj.lastModified now then
    if S.objectLocked L now obj.key s then s else S.deleteObject obj.key s
  else s

/-- `expire_objects`: at most `fuel` pages. -/
def expireObjects (pre : Str) (exp : LifecycleExpiration) (now : Int) :
    Nat → Option Str → σ → Option σ
  | 0, _, _ => none
  | fuel + 1, continuation, s =>
      match S.listObjectsV2 pre continuation 1000 s with
      | .error _ => some s
      | .ok listing =>
          let s' := listing.objects.foldl (S.expireObject L exp now) s
          if listing.isTruncated then
            expireObjects pre exp now fuel listing.nextContinuationToken s'
          else some s'

/-- The loop of `expire_bucket` over the rules. -/
def expireRules (fuel : Nat) (now : Int) : List LifecycleRule → σ → Option σ
  | [], s => some s
  | r :: rules, s =>
      match r.active with
      | none => expireRules fuel now rules s
      | some exp => do
          let s ← S.expireObjects L r.pre exp now fuel none s
          expireRules fuel now rules s

/-! ## What a pass relies on -/

/-- `s'` is `s` with some objects taken away; those left are as they were. -/
structure Shrunk (S : ExpiryStore σ) (keys : σ → List Str) (obj : σ → Str → ObjectMeta)
    (gone : Str → Prop) (s s' : σ) : Prop where
  mem : ∀ k, k ∈ keys s' ↔ k ∈ keys s ∧ ¬ gone k
  obj_eq : ∀ k ∈ keys s', obj s' k = obj s k
  hold_eq : ∀ k ∈ keys s', S.getObjectLegalHold k s' = S.getObjectLegalHold k s
  retention_eq : ∀ k ∈ keys s', S.getObjectRetention k s' = S.getObjectRetention k s

/-- The store answers for a bucket that nobody else changes, in the states of `I`: `keys` are
its keys and `obj` their metadata, and a listing is a page of them.  Deleting a key that is
there, or that went with another, takes away the keys that it `takes`. -/
structure Serves (S : ExpiryStore σ) (I : σ → Prop) (keys : σ → List Str)
    (obj : σ → Str → ObjectMeta) (takes : Str → Str → Prop) : Prop where
  takes_self : ∀ k, takes k k
  takes_trans : ∀ {k k' k''}, takes k k' → takes k' k'' → takes k k''
  keys_nodup : ∀ {s}, I s → (keys s).Nodup
  obj_key : ∀ s k, (obj s k).key = k
  list_eq : ∀ {s}, I s → ∀ pre token m, S.listObjectsV2 pre token m s =
    .ok ((pageKeys pre none token none m
      (((keys s).filter fun k => pre.isPrefixOf k).insertionSort (· ≤ ·))
      ⟨[], [], 0, false, none⟩).listing (obj s))
  delete : ∀ {s s₀ k}, I s → I s₀ → k ∈ keys s₀ → (k ∈ keys s ∨ ∃ k₀, k₀ ≠ k ∧ takes k₀ k) →
    I (S.deleteObject k s) ∧ Shrunk S keys obj (takes k) s (S.deleteObject k s)

variable {S L} {I : σ → Prop} {keys : σ → List Str} {obj : σ → Str → ObjectMeta}
  {takes : Str → Str → Prop}

namespace Shrunk

variable {gone gone' : Str → Prop} {s s' s'' : σ}

theorem refl (s : σ) : Shrunk S keys obj (fun _ => False) s s :=
  ⟨fun _ => ⟨fun h => ⟨h, not_false⟩, fun h => h.1⟩, fun _ _ => rfl, fun _ _ => rfl,
    fun _ _ => rfl⟩

theorem trans (h : Shrunk S keys obj gone s s') (h' : Shrunk S keys obj gone' s' s'') :
    Shrunk S keys obj (fun k => gone k ∨ gone' k) s s'' where
  mem k := by rw [h'.mem, h.mem, not_or, and_assoc]
  obj_eq k hk := (h'.obj_eq k hk).trans (h.obj_eq k ((h'.mem k).1 hk).1)
  hold_eq k hk := (h'.hold_eq k hk).trans (h.hold_eq k ((h'.mem k).1 hk).1)
  retention_eq k hk := (h'.retention_eq k hk).trans (h.retention_eq k ((h'.mem k).1 hk).1)

theorem congr (h : Shrunk S keys obj gone s s') (hiff : ∀ k ∈ keys s, gone k ↔ gone' k) :
    Shrunk S keys obj gone' s s' where
  mem k := by rw [h.mem]; exact and_congr_right fun hk => not_congr (hiff k hk)
  obj_eq := h.obj_eq
  hold_eq := h.hold_eq
  retention_eq := h.retention_eq

theorem locked_eq (h : Shrunk S keys obj gone s s') {now : Int} {k : Str} (hk : k ∈ keys s') :
    S.objectLocked L now k s' = S.objectLocked L now k s := by
  rw [objectLocked, objectLocked, h.hold_eq k hk, h.retention_eq k hk]

end Shrunk

/-- An object that the worker takes away under an expiration. -/
def Taken (S : ExpiryStore σ) (L : LockText) (obj : σ → Str → ObjectMeta)
    (exp : LifecycleExpiration) (now : Int) (s : σ) (k : Str) : Prop :=
  shouldExpire L exp (obj s k).lastModified now = true ∧ S.objectLocked L now k s = false

theorem Shrunk.taken_iff {gone : Str → Prop} {s s' : σ} (h : Shrunk S keys obj gone s s')
    {exp : LifecycleExpiration} {now : Int} {k : Str} (hk : k ∈ keys s') :
    Taken S L obj exp now s' k ↔ Taken S L obj exp now s k := by
  rw [Taken, Taken, h.obj_eq k hk, h.locked_eq hk]

/-- A key that is taken with a key of `D`. -/
def Gone (keys : σ → List Str) (takes : Str → Str → Prop) (D : σ → Str → Prop) (s : σ)
    (k' : Str) : Prop :=
  ∃ k ∈ keys s, D s k ∧ takes k k'

/-- Nothing that is taken away changes what else is in `D`. -/
def Local (S : ExpiryStore σ) (keys : σ → List Str) (obj : σ → Str → ObjectMeta)
    (D : σ → Str → Prop) : Prop :=
  ∀ {gone s s'}, Shrunk S keys obj gone s s' → ∀ k ∈ keys s', (D s' k ↔ D s k)

theorem Shrunk.andThen (h : S.Serves I keys obj takes) {D E : σ → Str → Prop}
    (hE : Local S keys obj E) {s s' s'' : σ} (hD : Shrunk S keys obj (Gone keys takes D s) s s')
    (hs : Shrunk S keys obj (Gone keys takes E s') s' s'') :
    Shrunk S keys obj (Gone keys takes (fun s k => D s k ∨ E s k) s) s s'' := by
  refine (hD.trans hs).congr fun k' _ => ⟨?_, ?_⟩
  · rintro (⟨k, hk, hd, htakes⟩ | ⟨k, hk, he, htakes⟩)
    · exact ⟨k, hk, .inl hd, htakes⟩
    · exact ⟨k, ((hD.mem k).1 hk).1, .inr ((hE hD k hk).1 he), htakes⟩
  · rintro ⟨k, hk, hd | he, htakes⟩
    · exact .inl ⟨k, hk, hd, htakes⟩
    · by_cases hgone : Gone keys takes D s k
      · obtain ⟨k₀, hk₀, hd, hfirst⟩ := hgone
        exact .inl ⟨k₀, hk₀, hd, h.takes_trans hfirst htakes⟩
      · have hleft := (hD.mem k).2 ⟨hk, hgone⟩
        exact .inr ⟨k, hleft, (hE hD k hleft).2 he, htakes⟩

/-! ## Objects one after the other -/

/-- What the objects already gone through took with them. -/
def TakenBy (S : ExpiryStore σ) (L : LockText) (obj : σ → Str → ObjectMeta)
    (takes : Str → Str → Prop) (exp : LifecycleExpiration) (now : Int) (s : σ)
    (done : List Str) (k' : Str) : Prop :=
  ∃ k ∈ done, Taken S L obj exp now s k ∧ takes k k'

theorem takenBy_snoc {exp : LifecycleExpiration} {now : Int} {s : σ} {done : List Str}
    {k k' : Str} : TakenBy S L obj takes exp now s (done ++ [k]) k' ↔
      TakenBy S L obj takes exp now s done k' ∨ Taken S L obj exp now s k ∧ takes k k' := by
  simp [TakenBy, or_and_right, exists_or]

/-- The worker at one object of a page, `s₀` the state that the page was listed in. -/
theorem expireObject_shrunk (h : S.Serves I keys obj takes) {exp : LifecycleExpiration}
    {now : Int} {s₀ s : σ} (hI₀ : I s₀) (hI : I s) {done : List Str}
    (hs : Shrunk S keys obj (TakenBy S L obj takes exp now s₀ done) s₀ s) {k : Str}
    (hk : k ∈ keys s₀) (hnew : k ∉ done) :
    I (S.expireObject L exp now s (obj s₀ k)) ∧
      Shrunk S keys obj (TakenBy S L obj takes exp now s₀ (done ++ [k])) s₀
        (S.expireObject L exp now s (obj s₀ k)) := by
  unfold expireObject
  rw [h.obj_key]
  by_cases hgone : TakenBy S L obj takes exp now s₀ done k
  · -- it went with another, and all that it takes went with that
    obtain ⟨j, hj, htaken, hjk⟩ := hgone
    have hall : ∀ k', takes k k' → TakenBy S L obj takes exp now s₀ done k' :=
      fun k' htakes => ⟨j, hj, htaken, h.takes_trans hjk htakes⟩
    have hsame : Shrunk S keys obj (TakenBy S L obj takes exp now s₀ (done ++ [k])) s₀ s :=
      hs.congr fun k' _ => by
        rw [takenBy_snoc]
        exact ⟨.inl, fun hor => hor.elim id fun hand => hall k' hand.2⟩
    split
    · split
      · exact ⟨hI, hsame⟩
      · obtain ⟨hI', hdel⟩ := h.delete hI hI₀ hk
          (.inr ⟨j, fun heq => hnew (heq ▸ hj), hjk⟩)
        refine ⟨hI', (hs.trans hdel).congr fun k' _ => ?_⟩
        rw [takenBy_snoc]
        exact ⟨fun hor => .inl (hor.elim id (hall k')), fun hor => .inl
          (hor.elim id fun hand => hall k' hand.2)⟩
    · exact ⟨hI, hsame⟩
  · have hleft : k ∈ keys s := (hs.mem k).2 ⟨hk, hgone⟩
    rw [hs.locked_eq hleft]
    by_cases hexp : shouldExpire L exp (obj s₀ k).lastModified now = true
    · by_cases hlock : S.objectLocked L now k s₀ = true
      · rw [if_pos hexp, if_pos hlock]
        refine ⟨hI, hs.congr fun k' _ => ?_⟩
        rw [takenBy_snoc]
        exact ⟨.inl, fun hor => hor.elim id fun hand =>
          absurd (hlock.symm.trans hand.1.2) (by decide)⟩
      · rw [if_pos hexp, if_neg hlock]
        obtain ⟨hI', hdel⟩ := h.delete hI hI₀ hk (.inl hleft)
        refine ⟨hI', (hs.trans hdel).congr fun k' _ => ?_⟩
        rw [takenBy_snoc]
        exact or_congr_right (and_iff_right ⟨hexp, Bool.eq_false_of_not_eq_true hlock⟩).symm
    · rw [if_neg hexp]
      refine ⟨hI, hs.congr fun k' _ => ?_⟩
      rw [takenBy_snoc]
      exact ⟨.inl, fun hor => hor.elim id fun hand => absurd hand.1.1 hexp⟩

/-- The worker at the objects of a page. -/
theorem foldl_expireObject_shrunk (h : S.Serves I keys obj takes) {exp : LifecycleExpiration}
    {now : Int} {s₀ : σ} (hI₀ : I s₀) : ∀ (ks done : List Str) (s : σ), I s →
    (done ++ ks).Nodup → (∀ k ∈ ks, k ∈ keys s₀) →
    Shrunk S keys obj (TakenBy S L obj takes exp now s₀ done) s₀ s →
    I ((ks.map (obj s₀)).foldl (S.expireObject L exp now) s) ∧
      Shrunk S keys obj (TakenBy S L obj takes exp now s₀ (done ++ ks)) s₀
        ((ks.map (obj s₀)).foldl (S.expireObject L exp now) s) := by
  intro ks
  induction ks with
  | nil =>
    intro done s hI _ _ hs
    rw [List.append_nil]
    exact ⟨hI, hs⟩
  | cons k ks ih =>
    intro done s hI hnodup hsub hs
    have hnew : k ∉ done := fun hk =>
      (List.nodup_append.1 hnodup).2.2 k hk k List.mem_cons_self rfl
    obtain ⟨hI', hs'⟩ := expireObject_shrunk h hI₀ hI hs (hsub k List.mem_cons_self) hnew
    rw [List.append_cons] at hnodup ⊢
    exact ih (done ++ [k]) _ hI' hnodup (fun k' hk' => hsub k' (List.mem_cons_of_mem _ hk')) hs'

/-- What goes with a page that is worked through. -/
theorem page_shrunk (h : S.Serves I keys obj takes) (exp : LifecycleExpiration) (now : Int) {s : σ}
    (hI : I s) {part : List Str} (hnodup : part.Nodup) (hsub : ∀ k ∈ part, k ∈ keys s) :
    I ((part.map (obj s)).foldl (S.expireObject L exp now) s) ∧
      Shrunk S keys obj (Gone keys takes (fun s k => k ∈ part ∧ Taken S L obj exp now s k) s) s
        ((part.map (obj s)).foldl (S.expireObject L exp now) s) := by
  obtain ⟨hI', hpage⟩ := foldl_expireObject_shrunk h hI part [] s hI hnodup hsub
    ((Shrunk.refl s).congr fun k _ => by simp [TakenBy])
  refine ⟨hI', hpage.congr fun k' _ => exists_congr fun k => ?_⟩
  rw [List.nil_append]
  constructor
  · rintro ⟨hk, htaken, htakes⟩
    exact ⟨hsub k hk, ⟨hk, htaken⟩, htakes⟩
  · rintro ⟨-, ⟨hk, htaken⟩, htakes⟩
    exact ⟨hk, htaken, htakes⟩

/-! ## Pages -/

theorem mem_fromToken {token : Option Str} {ks : List Str} {k : Str} :
    k ∈ fromToken token ks ↔ k ∈ ks ∧ ∀ t ∈ token, t ≤ k := by
  unfold fromToken
  rw [List.mem_filter]
  refine and_congr_right fun _ => ?_
  cases token with
  | none => simp
  | some t => simp

/-- The keys that a walk under a prefix has yet to come to. -/
def ahead (keys : σ → List Str) (pre : Str) (token : Option Str) (s : σ) : List Str :=
  fromToken token (wantedKeys pre none (keys s))

theorem mem_ahead {pre : Str} {token : Option Str} {s : σ} {k : Str} :
    k ∈ ahead keys pre token s ↔ k ∈ keys s ∧ pre <+: k ∧ ∀ t ∈ token, t ≤ k := by
  rw [ahead, mem_fromToken, mem_wantedKeys, Wanted]
  simp [and_assoc]

theorem ahead_sorted (h : S.Serves I keys obj takes) (pre : Str) (token : Option Str) {s : σ}
    (hI : I s) : (ahead keys pre token s).Pairwise (· < ·) :=
  (wantedKeys_sorted pre none (h.keys_nodup hI)).filter _

/-- A page without a delimiter is a beginning of what there is to list, and names the rest. -/
theorem list_page (h : S.Serves I keys obj takes) (pre : Str) (token : Option Str) {s : σ}
    (hI : I s) : ∃ part rest l, ahead keys pre token s = part ++ rest ∧
      S.listObjectsV2 pre token 1000 s = .ok l ∧ l.objects = part.map (obj s) ∧
      l.isTruncated = !rest.isEmpty ∧ l.nextContinuationToken = rest.head? ∧
      (rest ≠ [] → part ≠ []) := by
  obtain ⟨part, rest, pg, hsplit, hpage, hok⟩ :=
    listing_page (fun token m => h.list_eq hI pre token m) token 1000
  have hplain : plainKeys pre none part = part := List.filter_eq_self.2 fun k _ => rfl
  have hcommon : pg.common = [] := by
    have hnone : part.filterMap (rollUp pre none) = [] :=
      List.filterMap_eq_nil_iff.2 fun k _ => rfl
    rw [hpage.common, prefixesOf, hnone]
    rfl
  refine ⟨part, rest, _, hsplit, hok, ?_, hpage.truncated, hpage.next, fun hne hnil => ?_⟩
  · rw [Page.listing, hpage.chosen, hplain]
  · have hfull := hpage.full hne
    rw [hpage.chosen, hplain, hcommon, hnil] at hfull
    exact absurd hfull (by decide)

/-- What a walk from a token on takes away under an expiration. -/
def Walked (S : ExpiryStore σ) (L : LockText) (obj : σ → Str → ObjectMeta) (pre : Str)
    (exp : LifecycleExpiration) (now : Int) (token : Option Str) (s : σ) (k : Str) : Prop :=
  (pre <+: k ∧ ∀ t ∈ token, t ≤ k) ∧ Taken S L obj exp now s k

theorem local_walked (pre : Str) (exp : LifecycleExpiration) (now : Int) (token : Option Str) :
    Local S keys obj (Walked S L obj pre exp now token) :=
  fun hs _ hk => and_congr_right fun _ => hs.taken_iff hk

/-- A walk ends, given a page for each key that is ahead of it: by induction on how many are,
of which a page that is not the last leaves fewer. -/
theorem expireObjects_shrunk (h : S.Serves I keys obj takes) (pre : Str)
    (exp : LifecycleExpiration) (now : Int) (n : Nat) : ∀ (token : Option Str) (s : σ), I s →
    (ahead keys pre token s).length ≤ n → ∃ s',
      (∀ fuel, n < fuel → S.expireObjects L pre exp now fuel token s = some s') ∧ I s' ∧
      Shrunk S keys obj (Gone keys takes (Walked S L obj pre exp now token) s) s s' := by
  induction n using Nat.strong_induction_on with
  | _ n ih =>
    intro token s hI hlen
    obtain ⟨part, rest, l, hsplit, hlist, hobjects, htrunc, hnext, hpos⟩ :=
      list_page h pre token hI
    have hsorted := ahead_sorted h pre token hI
    rw [hsplit] at hsorted hlen
    have hmem (k : Str) : k ∈ part ++ rest ↔ k ∈ keys s ∧ pre <+: k ∧ ∀ t ∈ token, t ≤ k :=
      hsplit ▸ mem_ahead
    obtain ⟨hI', hpage⟩ := page_shrunk (L := L) h exp now hI
      (List.nodup_append.1 (nodup_of_sorted hsorted)).1
      fun k hk => ((hmem k).1 (List.mem_append_left _ hk)).1
    cases rest with
    | nil =>
      refine ⟨_, fun fuel hfuel => ?_, hI', hpage.congr fun k' _ => ?_⟩
      · obtain ⟨fuel, rfl⟩ := Nat.exists_eq_add_of_lt (Nat.zero_lt_of_lt hfuel)
        rw [Nat.zero_add, expireObjects, hlist]
        dsimp only
        rw [hobjects, htrunc]
        rfl
      · rw [List.append_nil] at hmem
        refine exists_congr fun k => and_congr_right fun hk => and_congr_left fun _ => ?_
        dsimp only [Walked]
        rw [hmem, and_iff_right hk]
    | cons t rest =>
      -- what is left of the rest of the walk
      have hlater (k : Str) (hk : k ∈ t :: rest) : t ≤ k := by
        rcases List.mem_cons.1 hk with rfl | hk
        · exact le_refl _
        · exact ((List.pairwise_cons.1 (List.pairwise_append.1 hsorted).2.1).1 k hk).le
      have hearlier (k : Str) (hk : k ∈ part) : k < t :=
        (List.pairwise_append.1 hsorted).2.2 k hk t List.mem_cons_self
      have htoken : ∀ t' ∈ token, t' ≤ t :=
        ((hmem t).1 (List.mem_append_right _ List.mem_cons_self)).2.2
      have hsub : (ahead keys pre (some t)
          ((part.map (obj s)).foldl (S.expireObject L exp now) s)).Subperm (t :: rest) := by
        refine List.subperm_of_subset (nodup_of_sorted (ahead_sorted h pre (some t) hI'))
          fun k hk => ?_
        obtain ⟨hk, hpre, hle⟩ := mem_ahead.1 hk
        have hin := (hmem k).2 ⟨((hpage.mem k).1 hk).1, hpre,
          fun t' ht' => (htoken t' ht').trans (hle t rfl)⟩
        exact (List.mem_append.1 hin).resolve_left fun hpart =>
          absurd (hle t rfl) (not_le.2 (hearlier k hpart))
      have hfewer : (t :: rest).length < n := by
        have hpart := List.length_pos_iff.2 (hpos (List.cons_ne_nil _ _))
        rw [List.length_append] at hlen
        omega
      obtain ⟨s', hrun, hIs', hrest⟩ := ih _ hfewer (some t) _ hI' hsub.length_le
      refine ⟨s', fun fuel hfuel => ?_, hIs', ?_⟩
      · obtain ⟨fuel, rfl⟩ := Nat.exists_eq_add_of_lt (Nat.zero_lt_of_lt hfuel)
        rw [Nat.zero_add] at hfuel ⊢
        rw [expireObjects, hlist]
        dsimp only
        rw [hobjects, htrunc, hnext]
        exact hrun fuel (by omega)
      · refine (hpage.andThen h (local_walked pre exp now (some t)) hrest).congr fun k' _ => ?_
        refine exists_congr fun k => and_congr_right fun hk => and_congr_left fun _ => ?_
        dsimp only [Walked]
        rw [← or_and_right]
        refine and_congr_left fun _ => ?_
        constructor
        · rintro (hpart | ⟨hpre, hle⟩)
          · exact ((hmem k).1 (List.mem_append_left _ hpart)).2
          · exact ⟨hpre, fun t' ht' => (htoken t' ht').trans (hle t rfl)⟩
        · intro hwanted
          rcases List.mem_append.1 ((hmem k).2 ⟨hk, hwanted⟩) with hpart | hrest
          · exact .inl hpart
          · exact .inr ⟨hwanted.1, fun t' ht' => by
              rw [← Option.mem_some_iff.1 ht']
              exact hlater k hrest⟩

/-! ## A pass -/

/-- An object that some rule takes away. -/
def Expired (S : ExpiryStore σ) (L : LockText) (obj : σ → Str → ObjectMeta) (now : Int)
    (rules : List LifecycleRule) (s : σ) (k : Str) : Prop :=
  ∃ r ∈ rules, ∃ exp, r.active = some exp ∧ r.pre <+: k ∧ Taken S L obj exp now s k

theorem local_expired (now : Int) (rules : List LifecycleRule) :
    Local S keys obj (Expired S L obj now rules) :=
  fun hs _ hk => exists_congr fun _ => and_congr_right fun _ => exists_congr fun _ =>
    and_congr_right fun _ => and_congr_right fun _ => hs.taken_iff hk

theorem expired_cons {now : Int} {r : LifecycleRule} {rules : List LifecycleRule} {s : σ}
    {k : Str} : Expired S L obj now (r :: rules) s k ↔
      (∃ exp, r.active = some exp ∧ r.pre <+: k ∧ Taken S L obj exp now s k) ∨
        Expired S L obj now rules s k := by
  simp [Expired]

/-- A pass takes away what some rule expires and no lock holds, and what goes with that; the
rest it leaves as it was. -/
theorem expireRules_shrunk (h : S.Serves I keys obj takes) (now : Int) :
    ∀ (rules : List LifecycleRule) (s : σ), I s → ∃ s',
      (∀ fuel, (keys s).length < fuel → S.expireRules L fuel now rules s = some s') ∧ I s' ∧
      Shrunk S keys obj (Gone keys takes (Expired S L obj now rules) s) s s' := by
  intro rules
  induction rules with
  | nil =>
    refine fun s hI => ⟨s, fun _ _ => rfl, hI, (Shrunk.refl s).congr fun k _ =>
      ⟨False.elim, ?_⟩⟩
    rintro ⟨-, -, ⟨r, hr, -⟩, -⟩
    exact absurd hr List.not_mem_nil
  | cons r rules ih =>
    intro s hI
    cases hactive : r.active with
    | none =>
      obtain ⟨s', hs', hI', hshrunk⟩ := ih s hI
      have hrun : ∀ fuel, (keys s).length < fuel →
          S.expireRules L fuel now (r :: rules) s = some s' := fun fuel hfuel => by
        rw [expireRules, hactive]
        exact hs' fuel hfuel
      refine ⟨s', hrun, hI', hshrunk.congr fun k' _ => exists_congr fun k =>
        and_congr_right fun _ => and_congr_left fun _ => ?_⟩
      rw [expired_cons, hactive]
      simp
    | some exp =>
      have hlen : (ahead keys r.pre none s).length ≤ (keys s).length := by
        refine (List.subperm_of_subset (nodup_of_sorted (ahead_sorted h r.pre none hI))
          fun k hk => ?_).length_le
        exact (mem_ahead.1 hk).1
      obtain ⟨s₁, hs₁, hI₁, hfirst⟩ :=
        expireObjects_shrunk (L := L) h r.pre exp now _ none s hI hlen
      have hlen₁ : (keys s₁).length ≤ (keys s).length := by
        refine (List.subperm_of_subset (h.keys_nodup hI₁) fun k hk => ?_).length_le
        exact ((hfirst.mem k).1 hk).1
      obtain ⟨s', hs', hI', hrest⟩ := ih s₁ hI₁
      refine ⟨s', fun fuel hfuel => ?_, hI',
        (hfirst.andThen h (local_expired now rules) hrest).congr fun k' _ => exists_congr fun k =>
          and_congr_right fun _ => and_congr_left fun _ => ?_⟩
      · rw [expireRules, hactive]
        dsimp only
        rw [hs₁ fuel hfuel]
        exact hs' fuel (lt_of_le_of_lt hlen₁ hfuel)
      · rw [expired_cons, hactive]
        simp [Walked]

/-! ## What a pass is to do -/

/-- The object is locked: a hold on it is on, or it is retained until after `now`. -/
def Locked (S : ExpiryStore σ) (L : LockText) (now : Int) (s : σ) (k : Str) : Prop :=
  (∃ status, S.getObjectLegalHold k s = .ok (some status) ∧
    eqIgnoreAsciiCase status ON = true) ∨
  ∃ raw date until_, S.getObjectRetention k s = .ok (some raw) ∧
    L.retainUntilDate raw = some (some date) ∧ L.rfc3339 date = some until_ ∧ now < until_

theorem not_locked {now : Int} {s : σ} {k : Str} (hhold : S.getObjectLegalHold k s = .ok none)
    (hretention : S.getObjectRetention k s = .ok none) : ¬ Locked S L now s k := by
  rintro (⟨status, h, -⟩ | ⟨raw, -, -, h, -⟩)
  · rw [hhold] at h
    cases h
  · rw [hretention] at h
    cases h

theorem retains_iff {now : Int} {raw : Str} : L.retains now raw = true ↔
    ∃ date until_, L.retainUntilDate raw = some (some date) ∧
      L.rfc3339 date = some until_ ∧ now < until_ := by
  unfold LockText.retains
  rcases L.retainUntilDate raw with _ | _ | date
  · simp
  · simp
  · cases hdate : L.rfc3339 date with
    | none => simp [hdate]
    | some until_ => simp [hdate]

theorem objectLocked_iff {now : Int} {s : σ} {k : Str} :
    S.objectLocked L now k s = true ↔ Locked S L now s k := by
  have hretained : (match S.getObjectRetention k s with
      | .ok (some raw) => L.retains now raw
      | _ => false) = true ↔
      ∃ raw date until_, S.getObjectRetention k s = .ok (some raw) ∧
        L.retainUntilDate raw = some (some date) ∧ L.rfc3339 date = some until_ ∧
        now < until_ := by
    rcases S.getObjectRetention k s with e | _ | raw
    · simp
    · simp
    · simp [retains_iff]
  unfold objectLocked Locked
  rcases S.getObjectLegalHold k s with e | _ | status
  · simpa using hretained
  · simpa using hretained
  · by_cases hon : eqIgnoreAsciiCase status ON = true
    · simp [hon]
    · simpa [hon] using hretained

/-- An enabled rule under whose prefix the key lies has such an expiration. -/
def SomeRule (P : LifecycleExpiration → Prop) (rules : List LifecycleRule) (k : Str) : Prop :=
  ∃ r ∈ rules, ∃ exp, r.active = some exp ∧ r.pre <+: k ∧ P exp

theorem SomeRule.or_iff {P Q : LifecycleExpiration → Prop} {rules : List LifecycleRule}
    {k : Str} : SomeRule (fun exp => P exp ∨ Q exp) rules k ↔
      SomeRule P rules k ∨ SomeRule Q rules k := by
  constructor
  · rintro ⟨r, hr, exp, hexp, hpre, hP | hQ⟩
    · exact .inl ⟨r, hr, exp, hexp, hpre, hP⟩
    · exact .inr ⟨r, hr, exp, hexp, hpre, hQ⟩
  · rintro (⟨r, hr, exp, hexp, hpre, hP⟩ | ⟨r, hr, exp, hexp, hpre, hQ⟩)
    · exact ⟨r, hr, exp, hexp, hpre, .inl hP⟩
    · exact ⟨r, hr, exp, hexp, hpre, .inr hQ⟩

theorem SomeRule.congr {P Q : LifecycleExpiration → Prop} (h : ∀ exp, P exp ↔ Q exp)
    {rules : List LifecycleRule} {k : Str} : SomeRule P rules k ↔ SomeRule Q rules k := by
  obtain rfl : P = Q := funext fun exp => propext (h exp)
  exact Iff.rfl

/-- An object that no lock holds, under an enabled rule with such an expiration. -/
def Due (S : ExpiryStore σ) (L : LockText) (now : Int) (P : LifecycleExpiration → Prop)
    (rules : List LifecycleRule) (s : σ) (k : Str) : Prop :=
  ¬ Locked S L now s k ∧ SomeRule P rules k

/-- A pass ends, given a page for each key, and takes away the objects that no lock holds
and that some enabled rule has come to expire, and no others. -/
def PassExact (S : ExpiryStore σ) (L : LockText) (keys : σ → List Str)
    (obj : σ → Str → ObjectMeta) (now : Int) (rules : List LifecycleRule) (s : σ) : Prop :=
  ∃ s', (∀ fuel, (keys s).length < fuel → S.expireRules L fuel now rules s = some s') ∧
    ∀ k, k ∈ keys s' ↔ k ∈ keys s ∧
      ¬ Due S L now (fun exp => exp.Reached L (obj s k).lastModified now) rules s k

theorem expired_iff {now : Int} {rules : List LifecycleRule} {s : σ} {k : Str} :
    Expired S L obj now rules s k ↔
      Due S L now (fun exp => exp.Plain L (obj s k).lastModified now) rules s k ∨
        Due S L now (fun exp => exp.Wraps (obj s k).lastModified now) rules s k := by
  unfold Due
  rw [← and_or_left, ← SomeRule.or_iff, ← objectLocked_iff, Bool.not_eq_true]
  constructor
  · rintro ⟨r, hr, exp, hexp, hpre, hshould, hlock⟩
    exact ⟨hlock, r, hr, exp, hexp, hpre, shouldExpire_iff.1 hshould⟩
  · rintro ⟨hlock, r, hr, exp, hexp, hpre, hreached⟩
    exact ⟨r, hr, exp, hexp, hpre, shouldExpire_iff.2 hreached, hlock⟩

theorem due_reached_iff {now : Int} {rules : List LifecycleRule} {s : σ} {k : Str} :
    Due S L now (fun exp => exp.Reached L (obj s k).lastModified now) rules s k ↔
      Due S L now (fun exp => exp.Plain L (obj s k).lastModified now) rules s k ∨
        Due S L now (fun exp => exp.Hidden L now) rules s k := by
  unfold Due
  rw [← and_or_left, ← SomeRule.or_iff]
  exact and_congr_right fun _ => SomeRule.congr fun exp => LifecycleExpiration.reached_iff

/-- Of the objects that are not plainly due, those under a date that a day count hides are just
those under a day count that wraps, and those that go with another that is due by the worker's
count. -/
def DuesMet (S : ExpiryStore σ) (L : LockText) (keys : σ → List Str) (obj : σ → Str → ObjectMeta)
    (takes : Str → Str → Prop) (now : Int) (rules : List LifecycleRule) (s : σ) : Prop :=
  ∀ k ∈ keys s,
    ¬ Due S L now (fun exp => exp.Plain L (obj s k).lastModified now) rules s k →
    (Due S L now (fun exp => exp.Hidden L now) rules s k ↔
      Due S L now (fun exp => exp.Wraps (obj s k).lastModified now) rules s k ∨
      ∃ k₀ ∈ keys s, k₀ ≠ k ∧ takes k₀ k ∧
        (Due S L now (fun exp => exp.Plain L (obj s k₀).lastModified now) rules s k₀ ∨
          Due S L now (fun exp => exp.Wraps (obj s k₀).lastModified now) rules s k₀))

/-- On every store that serves a pass, that is just when it is exact. -/
theorem passExact_iff (h : S.Serves I keys obj takes) (now : Int) (rules : List LifecycleRule)
    {s : σ} (hs : I s) :
    PassExact S L keys obj now rules s ↔ DuesMet S L keys obj takes now rules s := by
  obtain ⟨s', hrun, -, hshrunk⟩ := expireRules_shrunk (L := L) h now rules s hs
  -- a key goes by itself or with another
  have hgone (k : Str) (hk : k ∈ keys s) : Gone keys takes (Expired S L obj now rules) s k ↔
      Expired S L obj now rules s k ∨
        ∃ k₀ ∈ keys s, k₀ ≠ k ∧ takes k₀ k ∧ Expired S L obj now rules s k₀ := by
    constructor
    · rintro ⟨k₀, hk₀, hexp, htakes⟩
      by_cases heq : k₀ = k
      · exact .inl (heq ▸ hexp)
      · exact .inr ⟨k₀, hk₀, heq, htakes, hexp⟩
    · rintro (hexp | ⟨k₀, hk₀, -, htakes, hexp⟩)
      · exact ⟨k, hk, hexp, h.takes_self k⟩
      · exact ⟨k₀, hk₀, hexp, htakes⟩
  constructor
  · rintro ⟨s'', hrun', hexact⟩ k hk hplain
    have heq := (hrun _ (Nat.lt_succ_self _)).symm.trans (hrun' _ (Nat.lt_succ_self _))
    obtain rfl := Option.some.inj heq
    have hkept := not_iff_not.1
      (and_congr_right_iff.1 ((hshrunk.mem k).symm.trans (hexact k)) hk)
    rw [hgone k hk, due_reached_iff] at hkept
    simpa only [hplain, false_or, expired_iff] using hkept.symm
  · intro hcond
    refine ⟨s', hrun, fun k => ?_⟩
    rw [hshrunk.mem, due_reached_iff]
    refine and_congr_right fun hk => not_congr ?_
    rw [hgone k hk]
    by_cases hplain : Due S L now (fun exp => exp.Plain L (obj s k).lastModified now) rules s k
    · exact ⟨fun _ => .inl hplain, fun _ => .inl (expired_iff.2 (.inl hplain))⟩
    · simpa only [hplain, false_or, expired_iff] using (hcond k hk hplain).symm

end ExpiryStore

end Kerplace
