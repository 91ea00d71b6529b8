/-
# `Kerplace.Crypto.DekCache` — unwrapped data keys, for a while

A KMS provider keeps the data keys it has unwrapped, each until an instant set when it was
put in.  What has expired is swept only when the cache is full, and if nothing has, one key
is thrown out, whichever the map's own order names first.

An instant that has no representation makes the addition panic, under the lock of the
cache, which nobody can take after that.
-/
import Kerplace.Crypto.Minting

namespace Kerplace

/-- `KMS_CACHE_CAP`. -/
def KMS_CACHE_CAP : Nat := 4096

/-- The last instant there is, in nanoseconds. -/
def INSTANT_MAX : Nat := 2 ^ 63 * 10 ^ 9 - 1

/-- `CachedDek`. -/
structure CachedDek where
  bytes : Bytes
  expiry : Nat
  deriving DecidableEq

/-- `DekCache`. -/
structure DekCache where
  map : Std.ExtTreeMap Bytes CachedDek

/-- Which key a map names first, if it has any. -/
structure KeyOrder where
  first : Std.ExtTreeMap Bytes CachedDek → Option Bytes
  mem_of_first : ∀ {m k}, first m = some k → k ∈ m
  first_isSome : ∀ {m}, 0 < m.size → (first m).isSome = true

/-- The order of the keys themselves. -/
def KeyOrder.ascending : KeyOrder where
  first m := m.keys.head?
  mem_of_first h := Std.ExtTreeMap.mem_keys.1 (List.mem_of_mem_head? h)
  first_isSome h := by
    rw [List.isSome_head?, ← List.length_pos_iff, Std.ExtTreeMap.length_keys]
    exact h

namespace DekCache

/-- `DekCache::default`. -/
def empty : DekCache := ⟨∅⟩

/-- `DekCache::get`. -/
def get (now : Nat) (token : Bytes) (c : DekCache) : Option Bytes :=
  match c.map[token]? with
  | some e => if e.expiry > now then some e.bytes else none
  | none => none

/-- What `put` makes room by. -/
def sweep (order : KeyOrder) (now : Nat) (c : DekCache) : DekCache :=
  if c.map.size ≥ KMS_CACHE_CAP then
    let kept := c.map.filter fun _ e => decide (e.expiry > now)
    if kept.size ≥ KMS_CACHE_CAP then
      match order.first kept with
      | some k => ⟨kept.erase k⟩
      | none => ⟨kept⟩
    else ⟨kept⟩
  else c

/-- `DekCache::put`, and whether it came back. -/
def put (order : KeyOrder) (now ttl : Nat) (token bytes : Bytes) (c : DekCache) :
    Bool × DekCache :=
  let c := c.sweep order now
  if now + ttl ≤ INSTANT_MAX then (true, ⟨c.map.insert token ⟨bytes, now + ttl⟩⟩)
  else (false, c)

end DekCache

/-- The cache of a provider and its lock. -/
structure KmsCache where
  cache : DekCache
  poisoned : Bool

/-- What is asked of the cache, and when. -/
inductive CacheCall where
  | get (now : Nat) (token : Bytes)
  | put (now : Nat) (token dek : Bytes) (order : KeyOrder)

/-- What the cache does. -/
inductive CacheAnswer where
  | got (dek : Option Bytes)
  | put
  | panicked
  deriving DecidableEq

namespace KmsCache

/-- A cache nobody has used. -/
def fresh : KmsCache := ⟨.empty, false⟩

/-- `cache_get`. -/
def cacheGet (ttl now : Nat) (token : Bytes) (K : KmsCache) : CacheAnswer × KmsCache :=
  if ttl = 0 then (.got none, K)
  else if K.poisoned then (.panicked, K)
  else (.got (K.cache.get now token), K)

/-- `cache_put`. -/
def cachePut (ttl now : Nat) (token dek : Bytes) (order : KeyOrder) (K : KmsCache) :
    CacheAnswer × KmsCache :=
  if ttl = 0 then (.put, K)
  else if K.poisoned then (.panicked, K)
  else
    match K.cache.put order now ttl token dek with
    | (true, cache) => (.put, ⟨cache, false⟩)
    | (false, cache) => (.panicked, ⟨cache, true⟩)

end KmsCache

/-- Calls of one cache, whose entries live for `ttl`. -/
def dekCacheMachine (ttl : Nat) : Machine KmsCache CacheCall CacheAnswer :=
  ⟨fun K call =>
    match call with
    | .get now token => K.cacheGet ttl now token
    | .put now token dek order => K.cachePut ttl now token dek order⟩

/-- A call that puts a key under the token. -/
def CacheCall.Puts (token : Bytes) : CacheCall → Prop
  | .get _ _ => False
  | .put _ token' _ _ => token' = token

/-! ## One call -/

namespace DekCache

variable {order : KeyOrder} {now ttl : Nat} {token bytes : Bytes} {c : DekCache}

/-- After a sweep there is room for one more. -/
theorem size_sweep (h : c.map.size ≤ KMS_CACHE_CAP) :
    (c.sweep order now).map.size < KMS_CACHE_CAP := by
  unfold sweep
  split
  next hfull =>
    dsimp only
    split
    next hkept =>
      have hpos : 0 < (c.map.filter fun _ e => decide (e.expiry > now)).size :=
        Nat.lt_of_lt_of_le (by decide) hkept
      have hle : (c.map.filter fun _ e => decide (e.expiry > now)).size ≤ c.map.size :=
        Std.ExtTreeMap.size_filter_le_size
      obtain ⟨k, hk⟩ := Option.isSome_iff_exists.1 (order.first_isSome hpos)
      rw [hk]
      dsimp only
      have hmem := Std.ExtTreeMap.mem_iff_contains.1 (order.mem_of_first hk)
      rw [Std.ExtTreeMap.size_erase, if_pos hmem]
      omega
    next hkept => exact Nat.lt_of_not_le hkept
  next hfull => exact Nat.lt_of_not_le hfull

/-- While nothing has expired, a sweep of a full cache takes one key out. -/
theorem size_sweep_live (hlive : ∀ (k : Bytes) (e : CachedDek),
    c.map[k]? = some e → now < e.expiry) :
    (c.sweep order now).map.size =
      if c.map.size ≥ KMS_CACHE_CAP then c.map.size - 1 else c.map.size := by
  have hall : (c.map.filter fun _ e => decide (e.expiry > now)) = c.map :=
    Std.ExtTreeMap.filter_eq_self_iff.2 fun k hk => decide_eq_true
      (hlive k _ (Std.ExtTreeMap.getElem?_eq_some_getElem hk))
  unfold sweep
  rw [hall]
  split
  next hfull =>
    dsimp only
    have hpos : 0 < c.map.size := Nat.lt_of_lt_of_le (by decide) hfull
    obtain ⟨k, hk⟩ := Option.isSome_iff_exists.1 (order.first_isSome hpos)
    have hmem := Std.ExtTreeMap.mem_iff_contains.1 (order.mem_of_first hk)
    rw [hk, if_pos hfull]
    dsimp only
    rw [Std.ExtTreeMap.size_erase, if_pos hmem]
  next => rfl

/-- What is there after a sweep was there before. -/
theorem getElem?_sweep {k : Bytes} {e : CachedDek} (h : (c.sweep order now).map[k]? = some e) :
    c.map[k]? = some e := by
  have hfilter : (c.map.filter fun _ e => decide (e.expiry > now))[k]? = some e →
      c.map[k]? = some e := by
    intro h
    rw [Std.ExtTreeMap.getElem?_filter'] at h
    obtain ⟨hsome, -⟩ := Option.filter_eq_some_iff.1 h
    exact hsome
  unfold sweep at h
  split at h
  next =>
    dsimp only at h
    split at h
    next =>
      split at h
      next k' _ =>
        rw [Std.ExtTreeMap.getElem?_erase] at h
        split at h
        · cases h
        · exact hfilter h
      next => exact hfilter h
    next => exact hfilter h
  next => exact h

theorem size_put (h : c.map.size ≤ KMS_CACHE_CAP) :
    (c.put order now ttl token bytes).2.map.size ≤ KMS_CACHE_CAP := by
  have hroom : (c.sweep order now).map.size < KMS_CACHE_CAP := size_sweep h
  unfold put
  dsimp only
  split
  · refine Nat.le_trans Std.ExtTreeMap.size_insert_le ?_
    exact hroom
  · exact hroom.le

/-- An entry after a put is the one just put, or was there for another token. -/
theorem getElem?_put {k : Bytes} {e : CachedDek} (hok : (c.put order now ttl token bytes).1 = true)
    (h : (c.put order now ttl token bytes).2.map[k]? = some e) :
    (token = k ∧ e = ⟨bytes, now + ttl⟩) ∨ (token ≠ k ∧ c.map[k]? = some e) := by
  unfold put at hok h
  dsimp only at hok h
  split at hok
  next hrep =>
    rw [if_pos hrep] at h
    dsimp only at h
    by_cases hk : token = k
    · subst hk
      rw [Std.ExtTreeMap.getElem?_insert_self] at h
      exact .inl ⟨rfl, (Option.some.inj h).symm⟩
    · rw [Std.ExtTreeMap.getElem?_insert,
        if_neg fun hcmp => hk (Std.LawfulEqOrd.eq_of_compare hcmp)] at h
      exact .inr ⟨hk, getElem?_sweep h⟩
  next => cases hok

end DekCache

/-! ## Every call after another -/

/-- A record of calls. -/
abbrev CacheRecord := List (Visit KmsCache CacheCall CacheAnswer)

/-- The record has a put of this key under the token, with no put under it after that, and
the key lives until `expiry`. -/
def LastPut (ttl : Nat) (vs : CacheRecord) (token dek : Bytes) (expiry : Nat) : Prop :=
  ∃ pre u post now order, vs = pre ++ u :: post ∧ u.call = .put now token dek order ∧
    u.answer = .put ∧ expiry = now + ttl ∧ ∀ w ∈ post, ¬w.call.Puts token

theorem LastPut.snoc {ttl : Nat} {vs : CacheRecord} {token dek : Bytes} {expiry : Nat}
    (h : LastPut ttl vs token dek expiry) {v : Visit KmsCache CacheCall CacheAnswer}
    (hv : ¬v.call.Puts token) : LastPut ttl (vs ++ [v]) token dek expiry := by
  obtain ⟨pre, u, post, now, order, rfl, hcall, hanswer, hexpiry, hpost⟩ := h
  refine ⟨pre, u, post ++ [v], now, order, by rw [List.append_assoc, List.cons_append], hcall,
    hanswer, hexpiry, fun w hw => ?_⟩
  rcases List.mem_append.1 hw with hw | hw
  · exact hpost w hw
  · rw [List.mem_singleton.1 hw]
    exact hv

/-- The cache is not over its capacity, and while its lock can be taken each entry is the
last that was put under its token. -/
structure CacheKept (ttl : Nat) (vs : CacheRecord) (K : KmsCache) : Prop where
  off : ttl = 0 → K.cache.map = ∅
  bounded : K.cache.map.size ≤ KMS_CACHE_CAP
  entries : K.poisoned = false → ∀ token e, K.cache.map[token]? = some e →
    LastPut ttl vs token e.bytes e.expiry

/-- What a get gives is what was put last under the token, and has not expired. -/
def FreshDek (ttl : Nat) (before : CacheRecord) (v : Visit KmsCache CacheCall CacheAnswer) : Prop :=
  ∀ now token dek, v.call = .get now token → v.answer = .got (some dek) →
    ∃ expiry, LastPut ttl before token dek expiry ∧ now < expiry

section

variable {ttl : Nat} {vs : CacheRecord} {K : KmsCache}

theorem cacheGet_snd {now : Nat} {token : Bytes} : (K.cacheGet ttl now token).2 = K := by
  unfold KmsCache.cacheGet
  split
  · rfl
  · split <;> rfl

theorem CacheKept.get (h : CacheKept ttl vs K) (now : Nat) (token : Bytes) :
    FreshDek ttl vs ((dekCacheMachine ttl).visit K (.get now token)) := by
  intro now' token' dek hcall hanswer
  obtain ⟨rfl, rfl⟩ := CacheCall.get.inj hcall
  change (K.cacheGet ttl now token).1 = .got (some dek) at hanswer
  unfold KmsCache.cacheGet at hanswer
  split at hanswer
  · cases hanswer
  · split at hanswer
    · cases hanswer
    next hfree =>
      have hgot := CacheAnswer.got.inj hanswer
      unfold DekCache.get at hgot
      split at hgot
      next e he =>
        split at hgot
        next hlive =>
          obtain rfl := Option.some.inj hgot
          exact ⟨e.expiry, h.entries (Bool.eq_false_iff.2 hfree) token e he, hlive⟩
        next => cases hgot
      next => cases hgot

theorem cachePut_snd_of_poisoned {now : Nat} {token dek : Bytes} {order : KeyOrder}
    (httl : ttl ≠ 0) (h : K.poisoned = true) : (K.cachePut ttl now token dek order).2 = K := by
  unfold KmsCache.cachePut
  rw [if_neg httl, if_pos h]

theorem cachePut_of_free {now : Nat} {token dek : Bytes} {order : KeyOrder}
    (httl : ttl ≠ 0) (h : K.poisoned = false) : K.cachePut ttl now token dek order =
      (if (K.cache.put order now ttl token dek).1 then .put else .panicked,
        ⟨(K.cache.put order now ttl token dek).2,
          !(K.cache.put order now ttl token dek).1⟩) := by
  unfold KmsCache.cachePut
  rw [if_neg httl, if_neg (Bool.eq_false_iff.1 h)]
  rcases K.cache.put order now ttl token dek with ⟨_ | _, cache⟩
  · rfl
  · rfl

theorem CacheKept.put (h : CacheKept ttl vs K) (now : Nat) (token dek : Bytes) (order : KeyOrder) :
    CacheKept ttl (vs ++ [(dekCacheMachine ttl).visit K (.put now token dek order)])
      (K.cachePut ttl now token dek order).2 := by
  by_cases httl : ttl = 0
  · -- nothing is ever in a cache that is off
    have hsame : (K.cachePut ttl now token dek order).2 = K := by
      unfold KmsCache.cachePut
      rw [if_pos httl]
    rw [hsame]
    refine ⟨h.off, h.bounded, fun _ k e he => ?_⟩
    rw [h.off httl, Std.ExtTreeMap.getElem?_empty] at he
    cases he
  cases hlock : K.poisoned with
  | true =>
      rw [cachePut_snd_of_poisoned httl hlock]
      refine ⟨h.off, h.bounded, fun hfree => ?_⟩
      rw [hlock] at hfree
      cases hfree
  | false =>
      have hstep : K.cachePut ttl now token dek order = _ := cachePut_of_free httl hlock
      rw [hstep]
      refine ⟨fun h0 => absurd h0 httl, DekCache.size_put h.bounded, fun hfree k e he => ?_⟩
      have hok : (K.cache.put order now ttl token dek).1 = true := by
        simpa using hfree
      rcases DekCache.getElem?_put hok he with ⟨rfl, rfl⟩ | ⟨hne, hold⟩
      · refine ⟨vs, _, [], now, order, rfl, rfl, ?_, rfl, fun w hw => absurd hw List.not_mem_nil⟩
        change (K.cachePut ttl now token dek order).1 = .put
        rw [hstep, if_pos hok]
      · exact (h.entries hlock k e hold).snoc hne

theorem CacheKept.step (h : CacheKept ttl vs K) (c : CacheCall) :
    CacheKept ttl (vs ++ [(dekCacheMachine ttl).visit K c]) ((dekCacheMachine ttl).step K c).2 := by
  cases c with
  | put now token dek order => exact h.put now token dek order
  | get now token =>
      have hsame : ((dekCacheMachine ttl).step K (.get now token)).2 = K := cacheGet_snd
      rw [hsame]
      exact ⟨h.off, h.bounded, fun hfree k e he => (h.entries hfree k e he).snoc id⟩

end

theorem cacheKept_fresh (ttl : Nat) : CacheKept ttl [] .fresh where
  off _ := rfl
  bounded := Nat.zero_le _
  entries _ k e he := by
    have hnone : (KmsCache.fresh.cache.map)[k]? = none := Std.ExtTreeMap.getElem?_empty
    rw [hnone] at he
    cases he

/-- The cache never holds more than its capacity, and a get gives nothing, or what was put
last under the token and has not expired; and that whatever the times are. -/
theorem dekCache_bounded_and_fresh (ttl : Nat) (calls : List CacheCall) :
    ((dekCacheMachine ttl).final .fresh calls).cache.map.size ≤ KMS_CACHE_CAP ∧
    ∀ pre v post, (dekCacheMachine ttl).visits .fresh calls = pre ++ v :: post →
      FreshDek ttl pre v := by
  have hgood : ∀ pre v post, (dekCacheMachine ttl).visits .fresh calls = pre ++ v :: post →
      True := fun _ _ _ _ => trivial
  constructor
  · exact (Machine.invariant (cacheKept_fresh ttl) (fun vs K c h _ => h.step c) calls
      fun _ _ => trivial).bounded
  · intro pre v post hsplit
    obtain ⟨K, c, rfl, hkept, -⟩ := Machine.invariant_cut (cacheKept_fresh ttl)
      (fun vs K c h _ => h.step c) hgood pre v post hsplit
    cases c with
    | get now token => exact hkept.get now token
    | put now token dek order => exact fun now' token' dek' hcall => by cases hcall

/-! ## A full cache -/

/-- A cache that is put to by itself at one time: what it holds, of the tokens there were. -/
structure FilledBy (now : Nat) (tokens : List Bytes) (K : KmsCache) : Prop where
  free : K.poisoned = false
  size : K.cache.map.size = min tokens.length KMS_CACHE_CAP
  entries : ∀ (k : Bytes) (e : CachedDek), K.cache.map[k]? = some e → k ∈ tokens ∧ now < e.expiry

/-- One more key, under a token of its own. -/
theorem FilledBy.put {ttl now : Nat} {tokens : List Bytes} {K : KmsCache}
    (h : FilledBy now tokens K) (httl : 0 < ttl) (hrep : now + ttl ≤ INSTANT_MAX) {token : Bytes}
    (hnew : token ∉ tokens) (dek : Bytes) (order : KeyOrder) :
    FilledBy now (tokens ++ [token]) (K.cachePut ttl now token dek order).2 := by
  have hok : (K.cache.put order now ttl token dek).1 = true := by
    unfold DekCache.put
    dsimp only
    rw [if_pos hrep]
  rw [cachePut_of_free httl.ne' h.free, if_pos hok]
  refine ⟨by rw [hok]; rfl, ?_, fun k e he => ?_⟩
  · have habsent : token ∉ (K.cache.sweep order now).map := by
      intro hmem
      obtain ⟨e, he⟩ := Option.isSome_iff_exists.1 (Std.ExtTreeMap.mem_iff_isSome_getElem?.1 hmem)
      exact hnew (h.entries _ e (DekCache.getElem?_sweep he)).1
    have hroom : (K.cache.sweep order now).map.size = _ :=
      DekCache.size_sweep_live fun k e he => (h.entries k e he).2
    show (K.cache.put order now ttl token dek).2.map.size = _
    unfold DekCache.put
    dsimp only
    rw [if_pos hrep]
    dsimp only
    rw [Std.ExtTreeMap.size_insert, if_neg (mt Std.ExtTreeMap.contains_iff_mem.1 habsent), hroom,
      h.size, List.length_append, List.length_singleton]
    have hcap : KMS_CACHE_CAP = 4096 := rfl
    split <;> omega
  · rcases DekCache.getElem?_put hok he with ⟨rfl, rfl⟩ | ⟨-, hold⟩
    · exact ⟨List.mem_append_right _ List.mem_cons_self, Nat.lt_add_of_pos_right httl⟩
    · exact ⟨List.mem_append_left _ (h.entries k e hold).1, (h.entries k e hold).2⟩

theorem dekCache_fills {ttl now : Nat} (httl : 0 < ttl) (hrep : now + ttl ≤ INSTANT_MAX)
    (dek : Bytes) (order : KeyOrder) (tokens : List Bytes) (hnodup : tokens.Nodup) :
    FilledBy now tokens ((dekCacheMachine ttl).final .fresh
      (tokens.map fun token => .put now token dek order)) := by
  induction tokens using List.reverseRecOn with
  | nil =>
      refine ⟨rfl, rfl, fun k e he => ?_⟩
      have hnone : (KmsCache.fresh.cache.map)[k]? = none := Std.ExtTreeMap.getElem?_empty
      exact nomatch hnone.symm.trans he
  | append_singleton tokens token ih =>
      obtain ⟨htokens, -, hnew⟩ := List.nodup_append.1 hnodup
      rw [List.map_append, List.map_singleton, Machine.final_snoc]
      exact (ih htokens).put httl hrep (fun h => hnew token h token List.mem_cons_self rfl) dek
        order

theorem dekCache_fills_once_over :
    FilledBy 0 ((List.range (KMS_CACHE_CAP + 1)).map fun i => List.replicate i 0)
      ((dekCacheMachine 1).final .fresh (((List.range (KMS_CACHE_CAP + 1)).map fun i =>
        List.replicate i 0).map fun token => .put 0 token [7] .ascending)) :=
  dekCache_fills (by decide) (by decide) [7] .ascending _
    (List.pairwise_map.2 (List.nodup_range.imp fun hne h => hne (by
      simpa using congrArg List.length h)))

end Kerplace
