/-
# `Kerplace.Handlers.LifecycleDocs` — what a lifecycle document says, and what is read of it

A document is an open thing: beside a prefix its filters may hold tags, sizes, several
conditions under one `And`, and whatever comes to be written there later.  The types that
read it name the prefix of the filter alone, and the deserializer passes over what the types
do not name.

So a document has two readings here.  The one of the server follows the types, field by
field.  The other says which conditions a rule states, and what it is for an object to
satisfy them.  An element that neither knows may mean anything.
-/
import Kerplace.Handlers.LifecycleStores

namespace Kerplace

/-! ## Documents -/

/-- An element: its name, the text in it and the elements in it. -/
inductive Xml where
  | element (name text : Str) (children : List Xml)

namespace Xml

/-- The name of an element. -/
def name : Xml → Str
  | element name _ _ => name

/-- The text in an element. -/
def text : Xml → Str
  | element _ text _ => text

/-- The elements in an element. -/
def children : Xml → List Xml
  | element _ _ children => children

/-- The elements of a name in an element. -/
def named (x : Xml) (tag : Str) : List Xml := x.children.filter fun c => decide (c.name = tag)

/-- A `String` field. -/
def readText (x : Xml) : Option Str := if x.children.isEmpty then some x.text else none

/-- `str::parse::<u64>`: a leading plus sign is allowed. -/
def parseU64 (s : Str) : Option UInt64 :=
  let digits := match s with
    | '+' :: digits => digits
    | _ => s
  if digits = [] ∨ digits.any (fun c => !c.isDigit) then none
  else
    let n : Nat := Nat.ofDigitChars 10 digits 0
    if n < 2 ^ 64 then some (UInt64.ofNat n) else none

/-- A `u64` field. -/
def readU64 (x : Xml) : Option UInt64 := x.readText.bind parseU64

/-- An optional field of a struct.  A field that stands there twice is an error. -/
def optional {α : Type} (x : Xml) (tag : Str) (read : Xml → Option α) : Option (Option α) :=
  match x.named tag with
  | [] => some none
  | [c] => (read c).map some
  | _ => none

/-- A field that has to be there. -/
def required {α : Type} (x : Xml) (tag : Str) (read : Xml → Option α) : Option α :=
  (x.optional tag read).join

end Xml

/-! ## The reading of the server -/

/-- `LifecycleFilter`, deserialized. -/
def LifecycleFilter.read (x : Xml) : Option LifecycleFilter := do
  let pre ← x.optional "Prefix".toList Xml.readText
  pure ⟨pre⟩

/-- `LifecycleExpiration`, deserialized. -/
def LifecycleExpiration.read (x : Xml) : Option LifecycleExpiration := do
  let days ← x.optional "Days".toList Xml.readU64
  let date ← x.optional "Date".toList Xml.readText
  pure ⟨days, date⟩

/-- `NoncurrentVersionExpiration`, deserialized. -/
def NoncurrentVersionExpiration.read (x : Xml) : Option NoncurrentVersionExpiration := do
  let noncurrentDays ← x.required "NoncurrentDays".toList Xml.readU64
  pure ⟨noncurrentDays⟩

/-- `LifecycleRule`, deserialized. -/
def LifecycleRule.read (x : Xml) : Option LifecycleRule := do
  let id ← x.optional "ID".toList Xml.readText
  let status ← x.required "Status".toList Xml.readText
  let filter ← x.optional "Filter".toList LifecycleFilter.read
  let expiration ← x.optional "Expiration".toList LifecycleExpiration.read
  let noncurrent ← x.optional "NoncurrentVersionExpiration".toList
    NoncurrentVersionExpiration.read
  pure ⟨id, status, filter, expiration, noncurrent⟩

/-- `LifecycleConfiguration`. -/
structure LifecycleConfiguration where
  rules : List LifecycleRule

/-- `LifecycleConfiguration`, deserialized. -/
def LifecycleConfiguration.read (x : Xml) : Option LifecycleConfiguration := do
  let rules ← (x.named "Rule".toList).mapM LifecycleRule.read
  pure ⟨rules⟩

section

variable (parse : Str → Option Xml)

/-- `xml::from_xml::<LifecycleConfiguration>`, where `parse` reads the elements of a text. -/
def lifecycleFromXml (raw : Str) : Option LifecycleConfiguration :=
  (parse raw).bind LifecycleConfiguration.read

/-- `put_bucket_lifecycle`: the document that is stored. -/
def putBucketLifecycle (raw : Str) : Except S3Error Str :=
  match lifecycleFromXml parse raw with
  | none => .error (.invalidArgument "bad LifecycleConfiguration XML")
  | some _ => .ok raw

/-- `expire_bucket`, where `stored` is the document of the bucket. -/
def ExpiryStore.expireBucket {σ : Type} (S : ExpiryStore σ) (L : LockText) (fuel : Nat)
    (now : Int) (stored : Option Str) (s : σ) : Option (Except String σ) :=
  match stored with
  | none => some (.ok s)
  | some raw =>
      match lifecycleFromXml parse raw with
      | none => some (.error "bad LifecycleConfiguration XML")
      | some cfg => (S.expireRules L fuel now cfg.rules s).map .ok

end

/-! ## What a document says -/

/-- What an element says of an object with such tags, where this does not say it. -/
abbrev Unknown : Type := Xml → List (Str × Str) → ObjectMeta → Prop

namespace Xml

/-- The conditions of a rule: a prefix that stands in the rule itself, and all that its
filter holds, one by one or several under an `And`. -/
def conditions (e : Xml) : List Xml :=
  e.named "Prefix".toList ++ (e.named "Filter".toList).flatMap fun f =>
    f.children.flatMap fun c => if c.name = "And".toList then c.children else [c]

/-- An object satisfies a condition. -/
def Holds (other : Unknown) (tags : List (Str × Str)) (m : ObjectMeta) (c : Xml) : Prop :=
  if c.name = "Prefix".toList then c.text <+: m.key
  else if c.name = "Tag".toList then
    ∃ key ∈ c.named "Key".toList, ∃ value ∈ c.named "Value".toList, (key.text, value.text) ∈ tags
  else if c.name = "ObjectSizeGreaterThan".toList then
    ∃ size, parseU64 c.text = some size ∧ size.toNat < m.size
  else if c.name = "ObjectSizeLessThan".toList then
    ∃ size, parseU64 c.text = some size ∧ m.size < size.toNat
  else other c tags m

/-- The rule is enabled. -/
def Enabled (e : Xml) : Prop :=
  ∃ c ∈ e.named "Status".toList, eqIgnoreAsciiCase c.text "Enabled".toList = true

/-- The key lies under the prefix in the filter of the rule, where there is one. -/
def UnderFilter (e : Xml) (k : Str) : Prop :=
  ∀ f ∈ e.named "Filter".toList, ∀ p ∈ f.named "Prefix".toList, p.text <+: k

/-- The rule has such an expiration. -/
def Expires (P : LifecycleExpiration → Prop) (e : Xml) : Prop :=
  ∃ x ∈ e.named "Expiration".toList, ∃ exp, LifecycleExpiration.read x = some exp ∧ P exp

/-- An object satisfies every condition of the rule, and its time has come. -/
structure Satisfied (L : LockText) (other : Unknown) (now : Int) (tags : List (Str × Str))
    (m : ObjectMeta) (e : Xml) : Prop where
  enabled : e.Enabled
  reached : e.Expires fun exp => exp.Reached L m.lastModified now
  holds : ∀ c ∈ e.conditions, c.Holds other tags m

end Xml

/-! ## The two readings compared -/

/-- What an optional field comes from. -/
theorem optional_eq_some {α : Type} {x : Xml} {tag : Str} {read : Xml → Option α}
    {field : Option α} (h : x.optional tag read = some field) :
    (x.named tag = [] ∧ field = none) ∨
      ∃ c a, x.named tag = [c] ∧ read c = some a ∧ field = some a := by
  unfold Xml.optional at h
  match hnamed : x.named tag with
  | [] =>
    rw [hnamed] at h
    exact .inl ⟨rfl, (Option.some.inj h).symm⟩
  | [c] =>
    rw [hnamed] at h
    obtain ⟨a, ha, hfield⟩ := Option.map_eq_some_iff.1 h
    exact .inr ⟨c, a, rfl, ha, hfield.symm⟩
  | c :: c' :: cs =>
    rw [hnamed] at h
    cases h

theorem required_eq_some {α : Type} {x : Xml} {tag : Str} {read : Xml → Option α} {a : α}
    (h : x.required tag read = some a) : ∃ c, x.named tag = [c] ∧ read c = some a := by
  rcases optional_eq_some (Option.join_eq_some_iff.1 h) with ⟨-, hnone⟩ | ⟨c, b, hc, hb, hab⟩
  · cases hnone
  · exact ⟨c, hc, hb.trans hab.symm⟩

theorem read_rule {e : Xml} {r : LifecycleRule} (h : LifecycleRule.read e = some r) :
    e.required "Status".toList Xml.readText = some r.status ∧
      e.optional "Filter".toList LifecycleFilter.read = some r.filter ∧
      e.optional "Expiration".toList LifecycleExpiration.read = some r.expiration := by
  simp only [LifecycleRule.read, Option.bind_eq_bind, Option.bind_eq_some_iff,
    Option.pure_def, Option.some.injEq] at h
  obtain ⟨id, -, status, hstatus, filter, hfilter, expiration, hexp, noncurrent, -, rfl⟩ := h
  exact ⟨hstatus, hfilter, hexp⟩

theorem read_enabled {e : Xml} {r : LifecycleRule} (h : LifecycleRule.read e = some r) :
    eqIgnoreAsciiCase r.status "Enabled".toList = true ↔ e.Enabled := by
  obtain ⟨c, hc, htext⟩ := required_eq_some (read_rule h).1
  have hstatus : c.text = r.status := by
    unfold Xml.readText at htext
    split at htext
    · exact Option.some.inj htext
    · cases htext
  rw [Xml.Enabled, hc, ← hstatus]
  simp

/-- The prefix read is that in the filter. -/
theorem read_underFilter {e : Xml} {r : LifecycleRule} (h : LifecycleRule.read e = some r)
    {k : Str} : r.pre <+: k ↔ e.UnderFilter k := by
  unfold Xml.UnderFilter LifecycleRule.pre
  rcases optional_eq_some (read_rule h).2.1 with ⟨hf, hfilter⟩ | ⟨f, filter, hf, hread, hfilter⟩
  · rw [hf, hfilter]
    simp
  · simp only [LifecycleFilter.read, Option.bind_eq_bind, Option.bind_eq_some_iff,
      Option.pure_def, Option.some.injEq] at hread
    obtain ⟨pre, hpre, rfl⟩ := hread
    rw [hf, hfilter]
    rcases optional_eq_some hpre with ⟨hp, rfl⟩ | ⟨p, text, hp, htext, rfl⟩
    · simp only [List.mem_singleton, forall_eq, hp, List.not_mem_nil, false_implies,
        implies_true, iff_true]
      exact List.nil_prefix
    · unfold Xml.readText at htext
      split at htext
      · obtain rfl := Option.some.inj htext
        simp only [List.mem_singleton, forall_eq, hp]
        exact Iff.rfl
      · cases htext

theorem read_expires {e : Xml} {r : LifecycleRule} (h : LifecycleRule.read e = some r)
    {P : LifecycleExpiration → Prop} :
    (∃ exp, r.expiration = some exp ∧ P exp) ↔ e.Expires P := by
  unfold Xml.Expires
  rcases optional_eq_some (read_rule h).2.2 with ⟨hx, hexp⟩ | ⟨x, exp, hx, hread, hexp⟩
  · rw [hx, hexp]
    simp
  · rw [hx, hexp]
    simp [hread]

/-- A rule acts on a key as its document says of status, filter prefix and expiration. -/
theorem read_acts {e : Xml} {r : LifecycleRule} (h : LifecycleRule.read e = some r)
    {P : LifecycleExpiration → Prop} {k : Str} :
    (∃ exp, r.active = some exp ∧ r.pre <+: k ∧ P exp) ↔
      e.Enabled ∧ e.UnderFilter k ∧ e.Expires P := by
  rw [← read_enabled h, ← read_underFilter h, ← read_expires h]
  unfold LifecycleRule.active
  by_cases henabled : eqIgnoreAsciiCase r.status "Enabled".toList = true
  · rw [if_pos henabled]
    constructor
    · rintro ⟨exp, hexp, hpre, hP⟩
      exact ⟨henabled, hpre, exp, hexp, hP⟩
    · rintro ⟨-, hpre, exp, hexp, hP⟩
      exact ⟨exp, hexp, hpre, hP⟩
  · rw [if_neg henabled]
    constructor
    · rintro ⟨exp, hexp, -⟩
      cases hexp
    · exact fun hacts => absurd hacts.1 henabled

/-- What is read of a list, element by element. -/
theorem mem_mapM {α β : Type} {read : α → Option β} : ∀ {xs : List α} {ys : List β},
    xs.mapM read = some ys →
    (∀ y ∈ ys, ∃ x ∈ xs, read x = some y) ∧ ∀ x ∈ xs, ∃ y ∈ ys, read x = some y := by
  intro xs
  induction xs with
  | nil =>
    intro ys h
    obtain rfl := Option.some.inj h
    exact ⟨fun y hy => absurd hy List.not_mem_nil, fun x hx => absurd hx List.not_mem_nil⟩
  | cons x xs ih =>
    intro ys h
    simp only [List.mapM_cons, Option.bind_eq_bind, Option.bind_eq_some_iff, Option.pure_def,
      Option.some.injEq] at h
    obtain ⟨y, hy, ys, hys, rfl⟩ := h
    obtain ⟨hback, hforth⟩ := ih hys
    constructor
    · intro y' hy'
      rcases List.mem_cons.1 hy' with rfl | hy'
      · exact ⟨x, List.mem_cons_self, hy⟩
      · obtain ⟨x', hx', hread⟩ := hback y' hy'
        exact ⟨x', List.mem_cons_of_mem _ hx', hread⟩
    · intro x' hx'
      rcases List.mem_cons.1 hx' with rfl | hx'
      · exact ⟨y, List.mem_cons_self, hy⟩
      · obtain ⟨y', hy', hread⟩ := hforth x' hx'
        exact ⟨y', List.mem_cons_of_mem _ hy', hread⟩

theorem read_someRule {doc : Xml} {cfg : LifecycleConfiguration}
    (h : LifecycleConfiguration.read doc = some cfg) {P : LifecycleExpiration → Prop} {k : Str} :
    ExpiryStore.SomeRule P cfg.rules k ↔
      ∃ e ∈ doc.named "Rule".toList, e.Enabled ∧ e.UnderFilter k ∧ e.Expires P := by
  simp only [LifecycleConfiguration.read, Option.bind_eq_bind, Option.bind_eq_some_iff,
    Option.pure_def, Option.some.injEq] at h
  obtain ⟨rules, hrules, rfl⟩ := h
  obtain ⟨hback, hforth⟩ := mem_mapM hrules
  constructor
  · rintro ⟨r, hr, hacts⟩
    obtain ⟨e, he, hread⟩ := hback r hr
    exact ⟨e, he, (read_acts hread).1 hacts⟩
  · rintro ⟨e, he, hacts⟩
    obtain ⟨r, hr, hread⟩ := hforth e he
    exact ⟨r, hr, (read_acts hread).2 hacts⟩

/-! ## Two documents -/

/-- An element with a text. -/
def leaf (name text : String) : Xml := .element name.toList text.toList []

/-- An element with elements. -/
def node (name : String) (children : List Xml) : Xml := .element name.toList [] children

/-- The logs. -/
def logs : Xml := leaf "Prefix" "logs/"

/-- The logs with a tag. -/
def taggedLogs : Xml :=
  node "And" [logs, node "Tag" [leaf "Key" "class", leaf "Value" "temp"]]

/-- The rule that expires after thirty days what such a filter lets through. -/
def thirtyDays (filter : Xml) : Xml :=
  node "Rule" [leaf "Status" "Enabled", node "Filter" [filter],
    node "Expiration" [leaf "Days" "30"]]

/-- A document of such a rule, as a text. -/
def thirtyDaysText (filter : Str) : Str :=
  "<LifecycleConfiguration><Rule><Status>Enabled</Status><Filter>".toList ++ (filter ++
    "</Filter><Expiration><Days>30</Days></Expiration></Rule></LifecycleConfiguration>".toList)

theorem thirtyDaysText_injective {f f' : Str} (h : thirtyDaysText f = thirtyDaysText f') :
    f = f' :=
  List.append_cancel_right (List.append_cancel_left h)

/-- The text of the logs. -/
def logsText : Str := thirtyDaysText "<Prefix>logs/</Prefix>".toList

/-- The text of the logs with a tag. -/
def taggedLogsText : Str := thirtyDaysText
  "<And><Prefix>logs/</Prefix><Tag><Key>class</Key><Value>temp</Value></Tag></And>".toList

/-- What the two texts are read as. -/
def parseTwo (raw : Str) : Option Xml :=
  if raw = logsText then some (node "LifecycleConfiguration" [thirtyDays logs])
  else if raw = taggedLogsText then
    some (node "LifecycleConfiguration" [thirtyDays taggedLogs])
  else none

/-! ## Soundness -/

namespace ExpiryStore

variable {σ : Type} {S : ExpiryStore σ} {L : LockText} {I : σ → Prop} {keys : σ → List Str}
  {obj : σ → Str → ObjectMeta} {takes : Str → Str → Prop}

/-- A pass under the stored document ends, and what it takes away satisfied every condition
of an enabled rule of the document. -/
def FiltersSound (S : ExpiryStore σ) (L : LockText) (keys : σ → List Str)
    (obj : σ → Str → ObjectMeta) (parse : Str → Option Xml) (other : Unknown)
    (tags : Str → List (Str × Str)) (now : Int) (stored : Str) (doc : Xml) (s : σ) : Prop :=
  ∃ s', (∀ fuel, (keys s).length < fuel →
      S.expireBucket parse L fuel now (some stored) s = some (.ok s')) ∧
    ∀ k ∈ keys s, k ∉ keys s' →
      ∃ e ∈ doc.named "Rule".toList, e.Satisfied L other now (tags k) (obj s k)

/-- The object is not locked, and an enabled rule of the document has it under the prefix in
its filter and an expiration that the server counts as come. -/
def Reaped (S : ExpiryStore σ) (L : LockText) (obj : σ → Str → ObjectMeta) (now : Int)
    (doc : Xml) (s : σ) (k : Str) : Prop :=
  ¬ Locked S L now s k ∧ ∃ e ∈ doc.named "Rule".toList, e.Enabled ∧ e.UnderFilter k ∧
    e.Expires fun exp => exp.Plain L (obj s k).lastModified now ∨
      exp.Wraps (obj s k).lastModified now

/-- The pass of an accepted document. -/
theorem expireBucket_accepted (h : S.Serves I keys obj takes) {parse : Str → Option Xml}
    {raw stored : Str} {doc : Xml} (hdoc : parse raw = some doc)
    (hput : putBucketLifecycle parse raw = .ok stored) (now : Int) {s : σ} (hs : I s) :
    ∃ s', (∀ fuel, (keys s).length < fuel →
        S.expireBucket parse L fuel now (some stored) s = some (.ok s')) ∧
      ∀ k ∈ keys s, k ∉ keys s' ↔ ∃ k₀ ∈ keys s, Reaped S L obj now doc s k₀ ∧ takes k₀ k := by
  unfold putBucketLifecycle at hput
  cases hcfg : lifecycleFromXml parse raw with
  | none =>
    rw [hcfg] at hput
    cases hput
  | some cfg =>
    rw [hcfg] at hput
    obtain rfl := Except.ok.inj hput
    have hread : LifecycleConfiguration.read doc = some cfg := by
      rw [lifecycleFromXml, hdoc] at hcfg
      exact hcfg
    obtain ⟨s', hrun, -, hshrunk⟩ := expireRules_shrunk (L := L) h now cfg.rules s hs
    refine ⟨s', fun fuel hfuel => ?_, fun k hk => ?_⟩
    · rw [expireBucket, hcfg]
      dsimp only
      rw [hrun fuel hfuel]
      rfl
    · rw [hshrunk.mem, not_and, not_not]
      refine (imp_iff_right hk).trans (exists_congr fun k₀ => and_congr_right fun _ =>
        and_congr_left fun _ => ?_)
      rw [expired_iff, Reaped, ← read_someRule hread, SomeRule.or_iff, Due, Due, and_or_left]

end ExpiryStore

/-! ## Documents whose conditions are honoured -/

namespace Xml

/-- A condition that lets a key of such a size through, whatever the tags of the object and
whatever an unknown element means: a prefix of the key, or a bound on the size. -/
def Admits (k : Str) (size : Nat) (c : Xml) : Prop :=
  (c.name = "Prefix".toList ∧ c.text <+: k) ∨
    (c.name = "ObjectSizeGreaterThan".toList ∧ ∃ n, parseU64 c.text = some n ∧ n.toNat < size) ∨
    (c.name = "ObjectSizeLessThan".toList ∧ ∃ n, parseU64 c.text = some n ∧ size < n.toNat)

theorem Admits.holds {other : Unknown} {tags : List (Str × Str)} {m : ObjectMeta} {c : Xml}
    (h : c.Admits m.key m.size) : c.Holds other tags m := by
  rcases h with ⟨hname, hpre⟩ | ⟨hname, hsize⟩ | ⟨hname, hsize⟩
  · rw [Holds, if_pos hname]
    exact hpre
  · rw [Holds, hname, if_neg (by decide), if_neg (by decide), if_pos rfl]
    exact hsize
  · rw [Holds, hname, if_neg (by decide), if_neg (by decide), if_neg (by decide), if_pos rfl]
    exact hsize

theorem admits_of_holds {m : ObjectMeta} {c : Xml} (h : c.Holds (fun _ _ _ => False) [] m) :
    c.Admits m.key m.size := by
  unfold Holds at h
  split at h
  · exact .inl ⟨by assumption, h⟩
  · split at h
    · obtain ⟨key, -, value, -, hmem⟩ := h
      exact absurd hmem List.not_mem_nil
    · split at h
      · exact .inr (.inl ⟨by assumption, h⟩)
      · split at h
        · exact .inr (.inr ⟨by assumption, h⟩)
        · exact h.elim

end Xml

namespace LifecycleExpiration

/-- It has come whenever `exp` has come by the server's count: its day count is no higher, which
helps only the object whose age was counted, or its date is no later. -/
def NoLater (L : LockText) (alone : Prop) (exp exp' : LifecycleExpiration) : Prop :=
  (alone ∧ ∃ days ∈ exp.days, ∃ days' ∈ exp'.days, days.toNat < 2 ^ 63 ∧
    days'.toNat ≤ days.toNat) ∨
  (exp.days = none ∧ ∃ date ∈ exp.date.bind L.rfc3339,
    ∃ date' ∈ exp'.date.bind L.rfc3339, date' ≤ date)

/-- It can come: it has a day count, or a date that can be read. -/
def CanCome (L : LockText) (exp : LifecycleExpiration) : Prop :=
  exp.days ≠ none ∨ exp.date.bind L.rfc3339 ≠ none

variable {L : LockText} {exp exp' : LifecycleExpiration} {lastModified lastModified' now : Int}

theorem canCome (h : exp.Plain L lastModified now ∨ exp.Wraps lastModified now) :
    exp.CanCome L := by
  rcases h with (⟨days, hdays, -⟩ | ⟨-, date, hdate, -⟩) | ⟨days, hdays, -⟩
  · exact .inl (Option.ne_none_iff_exists'.2 ⟨days, hdays⟩)
  · exact .inr (Option.ne_none_iff_exists'.2 ⟨date, hdate⟩)
  · exact .inl (Option.ne_none_iff_exists'.2 ⟨days, hdays⟩)

/-- What is no later has come. -/
theorem NoLater.reached {alone : Prop} (h : exp.NoLater L alone exp')
    (halone : alone → lastModified' = lastModified)
    (hcome : exp.Plain L lastModified now ∨ exp.Wraps lastModified now) :
    exp'.Reached L lastModified' now := by
  rcases h with ⟨hsame, days, hdays, days', hdays', hlt, hle⟩ |
    ⟨hnone, date, hdate, date', hdate', hle⟩
  · rw [halone hsame]
    have hage : (days.toNat : Int) ≤ wholeDays lastModified now := by
      rcases hcome with (⟨d, hd, hage⟩ | ⟨hno, -⟩) | ⟨d, hd, hbig, -⟩
      · exact Option.mem_unique hd hdays ▸ hage
      · rw [hno] at hdays
        cases hdays
      · exact absurd hlt (not_lt.2 (Option.mem_unique hd hdays ▸ hbig))
    exact .inl ⟨days', hdays', (Int.ofNat_le.2 hle).trans hage⟩
  · have hnow : date ≤ now := by
      rcases hcome with (⟨d, hd, -⟩ | ⟨-, d, hd, hnow⟩) | ⟨d, hd, -⟩
      · rw [hnone] at hd
        cases hd
      · exact Option.mem_unique hd hdate ▸ hnow
      · rw [hnone] at hd
        cases hd
    exact .inr ⟨date', hdate', hle.trans hnow⟩

end LifecycleExpiration

/-- Every enabled rule whose expiration can come is backed: for each key under the prefix in its
filter, each key that goes with it and each size there is an enabled rule whose conditions let
the key of that size through by prefixes and size bounds alone, and which comes no later. -/
def Xml.Honoured (L : LockText) (takes : Str → Str → Prop) (names : List Str) (doc : Xml) :
    Prop :=
  ∀ e ∈ doc.named "Rule".toList, e.Enabled → ∀ exp, e.Expires (· = exp) → exp.CanCome L →
    ∀ k₀ ∈ names, e.UnderFilter k₀ → ∀ k ∈ names, takes k₀ k → ∀ size : Nat,
      ∃ e' ∈ doc.named "Rule".toList, e'.Enabled ∧ (∀ c ∈ e'.conditions, c.Admits k size) ∧
        e'.Expires fun exp' => exp.NoLater L (k = k₀) exp'

namespace ExpiryStore

/-! ## A shelf of objects -/

/-- What a shelf says of an object: its key, its size, and when it was put there. -/
def shelfObject (size : Nat) (lastModified : Str → Int) (key : Str) : ObjectMeta :=
  ⟨key, size, [], lastModified key, [], [], false, none, none⟩

/-- A store that is nothing but the keys of a bucket, whose objects never change; no object in
it is locked, and a key that is deleted takes others with it. -/
def shelf (obj : Str → ObjectMeta) (takes : Str → Str → Prop) [DecidableRel takes] :
    ExpiryStore (List Str) where
  listObjectsV2 pre token m s :=
    .ok ((pageKeys pre none token none m
      ((s.dedup.filter fun k => pre.isPrefixOf k).insertionSort (· ≤ ·))
      ⟨[], [], 0, false, none⟩).listing obj)
  getObjectLegalHold _ _ := .ok none
  getObjectRetention _ _ := .ok none
  deleteObject key s := s.filter fun k => ¬ takes key k

theorem shelf_serves {obj : Str → ObjectMeta} {takes : Str → Str → Prop} [DecidableRel takes]
    (hkey : ∀ k, (obj k).key = k) (hself : ∀ k, takes k k)
    (htrans : ∀ {k k' k''}, takes k k' → takes k' k'' → takes k k'') :
    (shelf obj takes).Serves (fun _ => True) List.dedup (fun _ => obj) takes where
  takes_self := hself
  takes_trans := htrans
  keys_nodup _ := List.nodup_dedup _
  obj_key _ := hkey
  list_eq _ _ _ _ := rfl
  delete _ _ _ _ := ⟨trivial, fun k => by simp [shelf], fun _ _ => rfl, fun _ _ => rfl,
    fun _ _ => rfl⟩

/-! ## The theorem -/

section

variable {σ : Type} {S : ExpiryStore σ} {L : LockText} {I : σ → Prop} {keys : σ → List Str}
  {obj : σ → Str → ObjectMeta} {takes : Str → Str → Prop} {parse : Str → Option Xml}
  {raw stored : Str} {doc : Xml}

/-- A pass is sound iff what is reaped, and what goes with it, satisfies some rule. -/
theorem filtersSound_iff (h : S.Serves I keys obj takes) (hdoc : parse raw = some doc)
    (hput : putBucketLifecycle parse raw = .ok stored) {other : Unknown}
    {tags : Str → List (Str × Str)} {now : Int} {s : σ} (hs : I s) :
    FiltersSound S L keys obj parse other tags now stored doc s ↔
      ∀ k₀ ∈ keys s, Reaped S L obj now doc s k₀ → ∀ k ∈ keys s, takes k₀ k →
        ∃ e ∈ doc.named "Rule".toList, e.Satisfied L other now (tags k) (obj s k) := by
  obtain ⟨s', hrun, hgone⟩ := expireBucket_accepted (L := L) h hdoc hput now hs
  constructor
  · rintro ⟨s'', hrun', hsound⟩ k₀ hk₀ hreaped k hk htakes
    have heq := (hrun _ (Nat.lt_succ_self _)).symm.trans (hrun' _ (Nat.lt_succ_self _))
    obtain rfl := Except.ok.inj (Option.some.inj heq)
    exact hsound k hk ((hgone k hk).2 ⟨k₀, hk₀, hreaped, htakes⟩)
  · intro hcond
    refine ⟨s', hrun, fun k hk hnot => ?_⟩
    obtain ⟨k₀, hk₀, hreaped, htakes⟩ := (hgone k hk).1 hnot
    exact hcond k₀ hk₀ hreaped k hk htakes

/-- Whatever the objects of such keys are, on whatever store, and whenever a pass is made, it is
sound. -/
def SoundOver (L : LockText) (parse : Str → Option Xml) (stored : Str) (doc : Xml)
    (takes : Str → Str → Prop) (names : List Str) : Prop :=
  ∀ (σ : Type) (S : ExpiryStore σ) (I : σ → Prop) (keys : σ → List Str)
    (obj : σ → Str → ObjectMeta), S.Serves I keys obj takes → ∀ s, I s →
    (∀ k, k ∈ keys s ↔ k ∈ names) → ∀ other tags now,
      FiltersSound S L keys obj parse other tags now stored doc s

theorem sound_of_honoured (hdoc : parse raw = some doc)
    (hput : putBucketLifecycle parse raw = .ok stored) {names : List Str}
    (hdone : doc.Honoured L takes names) : SoundOver L parse stored doc takes names := by
  intro σ S I keys obj h s hs hnames other tags now
  refine (filtersSound_iff h hdoc hput hs).2 ?_
  rintro k₀ hk₀ ⟨-, e, he, henabled, hunder, x, hx, exp, hread, hcome⟩ k hk htakes
  obtain ⟨e', he', henabled', hadmits, x', hx', exp', hread', hlater⟩ :=
    hdone e he henabled exp ⟨x, hx, exp, hread, rfl⟩ (LifecycleExpiration.canCome hcome) k₀
      ((hnames k₀).1 hk₀) hunder k ((hnames k).1 hk) htakes (obj s k).size
  refine ⟨e', he', henabled', ⟨x', hx', exp', hread', hlater.reached (fun heq => ?_) hcome⟩,
    fun c hc => ?_⟩
  · rw [heq]
  · refine Xml.Admits.holds ?_
    rw [h.obj_key]
    exact hadmits c hc

theorem exists_lt_all (l : List Int) : ∃ m, ∀ x ∈ l, m < x := by
  induction l with
  | nil => exact ⟨0, fun x hx => absurd hx List.not_mem_nil⟩
  | cons y l ih =>
    obtain ⟨m, hm⟩ := ih
    refine ⟨min m (y - 1), List.forall_mem_cons.2 ⟨by omega, fun x hx => ?_⟩⟩
    exact lt_of_le_of_lt (min_le_left _ _) (hm x hx)

theorem exists_before (L : LockText) (doc : Xml) : ∃ now, ∀ e ∈ doc.named "Rule".toList,
    ∀ x ∈ e.named "Expiration".toList, ∀ exp, LifecycleExpiration.read x = some exp →
      ∀ date ∈ exp.date.bind L.rfc3339, now < date := by
  obtain ⟨now, hnow⟩ := exists_lt_all ((doc.named "Rule".toList).flatMap fun e =>
    (e.named "Expiration".toList).filterMap fun x =>
      (LifecycleExpiration.read x).bind fun exp => exp.date.bind L.rfc3339)
  refine ⟨now, fun e he x hx exp hread date hdate => hnow date ?_⟩
  refine List.mem_flatMap.2 ⟨e, he, List.mem_filterMap.2 ⟨x, hx, ?_⟩⟩
  rw [hread]
  exact hdate

theorem wholeDays_tomorrow (now : Int) : wholeDays (now + 86400) now = -1 := by
  have hdiff : now - (now + 86400) = -86400 := by omega
  rw [wholeDays, hdiff]
  rfl

theorem wholeDays_ago (now : Int) (days : Nat) : wholeDays (now - days * 86400) now = days := by
  have hdiff : now - (now - days * 86400) = days * 86400 := by omega
  rw [wholeDays, hdiff, Int.mul_tdiv_cancel _ (by decide)]

theorem not_reached_tomorrow {exp : LifecycleExpiration} {now : Int}
    (hnow : ∀ date ∈ exp.date.bind L.rfc3339, now < date) : ¬ exp.Reached L (now + 86400) now := by
  rintro (⟨days, -, hle⟩ | ⟨date, hdate, hle⟩)
  · rw [wholeDays_tomorrow] at hle
    omega
  · exact absurd (hnow date hdate) (not_lt.2 hle)

/-- What a sound document makes of a rule, for objects of one size without tags of which none is
locked. -/
theorem satisfied_of_sound (hdoc : parse raw = some doc)
    (hput : putBucketLifecycle parse raw = .ok stored) (hself : ∀ k, takes k k)
    (htrans : ∀ {k k' k''}, takes k k' → takes k' k'' → takes k k'') {names : List Str}
    (hsound : SoundOver L parse stored doc takes names) {e : Xml}
    (he : e ∈ doc.named "Rule".toList) (henabled : e.Enabled) {exp : LifecycleExpiration}
    (hexp : e.Expires (· = exp)) {k₀ k : Str} (hk₀ : k₀ ∈ names) (hunder : e.UnderFilter k₀)
    (hk : k ∈ names) (htakes : takes k₀ k) (size : Nat) (lastModified : Str → Int) (now : Int)
    (hcome : exp.Plain L (lastModified k₀) now ∨ exp.Wraps (lastModified k₀) now) :
    ∃ e' ∈ doc.named "Rule".toList, e'.Satisfied L (fun _ _ _ => False) now []
      (shelfObject size lastModified k) := by
  classical
  have hkey : ∀ k, (shelfObject size lastModified k).key = k := fun _ => rfl
  have hserves := shelf_serves hkey hself htrans
  have hmem (j : Str) : j ∈ names.dedup ↔ j ∈ names := List.mem_dedup
  refine (filtersSound_iff hserves hdoc hput trivial).1 (hsound _ _ _ _ _ hserves names trivial
    hmem (fun _ _ _ => False) (fun _ => []) now) k₀ ((hmem k₀).2 hk₀) ⟨?_, e, he, henabled,
    hunder, ?_⟩ k ((hmem k).2 hk) htakes
  · exact not_locked rfl rfl
  · obtain ⟨x, hx, exp', hread, rfl⟩ := hexp
    exact ⟨x, hx, exp', hread, hcome⟩

/-- The passes over such keys are sound, whatever the objects are, iff the document is
honoured. -/
theorem soundOver_iff (hdoc : parse raw = some doc)
    (hput : putBucketLifecycle parse raw = .ok stored) (hself : ∀ k, takes k k)
    (htrans : ∀ {k k' k''}, takes k k' → takes k' k'' → takes k k'') (names : List Str) :
    SoundOver L parse stored doc takes names ↔ doc.Honoured L takes names := by
  refine ⟨fun hsound e he henabled exp hexp hcan k₀ hk₀ hunder k hk htakes size => ?_,
    sound_of_honoured hdoc hput⟩
  have hfind := satisfied_of_sound hdoc hput hself htrans hsound he henabled hexp hk₀ hunder hk
    htakes size
  obtain ⟨before, hbefore⟩ := exists_before L doc
  cases hdays : exp.days with
  | none =>
    -- the day of the date, of objects that have no age yet
    have hdate := hcan.resolve_left (not_not.2 hdays)
    obtain ⟨date, hdate⟩ := Option.ne_none_iff_exists'.1 hdate
    obtain ⟨e', he', hsat⟩ := hfind (fun _ => date + 86400) date
      (.inl (.inr ⟨hdays, date, hdate, le_refl _⟩))
    refine ⟨e', he', hsat.enabled, fun c hc => Xml.admits_of_holds (hsat.holds c hc), ?_⟩
    obtain ⟨x', hx', exp', hread', hreached⟩ := hsat.reached
    refine ⟨x', hx', exp', hread', .inr ⟨hdays, date, hdate, ?_⟩⟩
    rcases hreached with ⟨days', -, hle⟩ | hcome
    · rw [show (shelfObject size (fun _ => date + 86400) k).lastModified = date + 86400 from rfl,
        wholeDays_tomorrow] at hle
      omega
    · exact hcome
  | some days =>
    by_cases hlt : days.toNat < 2 ^ 63
    · -- before all dates, the object just as old as the rule says and no other of any age
      obtain ⟨e', he', hsat⟩ := hfind
        (fun j => if j = k₀ then before - days.toNat * 86400 else before + 86400) before
        (.inl (.inl ⟨days, hdays, by rw [if_pos rfl, wholeDays_ago]⟩))
      refine ⟨e', he', hsat.enabled, fun c hc => Xml.admits_of_holds (hsat.holds c hc), ?_⟩
      obtain ⟨x', hx', exp', hread', hreached⟩ := hsat.reached
      have hdates := hbefore e' he' x' hx' exp' hread'
      dsimp only [shelfObject] at hreached
      by_cases heq : k = k₀
      · rw [if_pos heq] at hreached
        rcases hreached with ⟨days', hdays', hle⟩ | ⟨date, hdate, hle⟩
        · rw [wholeDays_ago] at hle
          exact ⟨x', hx', exp', hread', .inl ⟨heq, days, hdays, days', hdays', hlt,
            Int.ofNat_le.1 hle⟩⟩
        · exact absurd (hdates date hdate) (not_lt.2 hle)
      · rw [if_neg heq] at hreached
        exact absurd hreached (not_reached_tomorrow hdates)
    · -- a count that wraps comes before any age
      have hwrap : exp.Wraps (before + 86400) before := by
        refine ⟨days, hdays, not_lt.1 hlt, ?_⟩
        rw [wholeDays_tomorrow]
        have := days.toNat_lt
        omega
      obtain ⟨e', he', hsat⟩ := hfind (fun _ => before + 86400) before (.inr hwrap)
      obtain ⟨x', hx', exp', hread', hreached⟩ := hsat.reached
      exact absurd hreached (not_reached_tomorrow (hbefore e' he' x' hx' exp' hread'))

end

theorem sound_of_serves (h : S.Serves I keys obj takes) (hdoc : parse raw = some doc)
    (hput : putBucketLifecycle parse raw = .ok stored) {s : σ} (hs : I s)
    (hdone : doc.Honoured L takes (keys s)) (other : Unknown) (tags : Str → List (Str × Str))
    (now : Int) : FiltersSound S L keys obj parse other tags now stored doc s :=
  sound_of_honoured hdoc hput hdone σ S I keys obj h s hs (fun _ => Iff.rfl) other tags now

end ExpiryStore

open ExpiryStore UnixPath

theorem put_logsText : parseTwo logsText = some (node "LifecycleConfiguration" [thirtyDays logs]) ∧
    putBucketLifecycle parseTwo logsText = .ok logsText := by
  have hdoc : parseTwo logsText = some (node "LifecycleConfiguration" [thirtyDays logs]) :=
    if_pos rfl
  have hread : (lifecycleFromXml parseTwo logsText).isSome = true := by
    rw [lifecycleFromXml, hdoc]
    decide +kernel
  obtain ⟨cfg, hcfg⟩ := Option.isSome_iff_exists.1 hread
  exact ⟨hdoc, by rw [putBucketLifecycle, hcfg]⟩

theorem put_taggedLogsText :
    parseTwo taggedLogsText = some (node "LifecycleConfiguration" [thirtyDays taggedLogs]) ∧
      putBucketLifecycle parseTwo taggedLogsText = .ok taggedLogsText := by
  have hdoc : parseTwo taggedLogsText =
      some (node "LifecycleConfiguration" [thirtyDays taggedLogs]) :=
    (if_neg fun h => absurd (thirtyDaysText_injective h) (by decide)).trans (if_pos rfl)
  have hread : (lifecycleFromXml parseTwo taggedLogsText).isSome = true := by
    rw [lifecycleFromXml, hdoc]
    decide +kernel
  obtain ⟨cfg, hcfg⟩ := Option.isSome_iff_exists.1 hread
  exact ⟨hdoc, by rw [putBucketLifecycle, hcfg]⟩

/-- The rule of the logs is its own backing. -/
theorem honoured_logs {L : LockText} {takes : Str → Str → Prop} {names : List Str}
    (hlogs : ∀ k₀ ∈ names, "logs/".toList <+: k₀ → ∀ k ∈ names, takes k₀ k → k = k₀) :
    (node "LifecycleConfiguration" [thirtyDays logs]).Honoured L takes names := by
  have hrules : (node "LifecycleConfiguration" [thirtyDays logs]).named "Rule".toList =
      [thirtyDays logs] := rfl
  have hfilters : (thirtyDays logs).named "Filter".toList = [node "Filter" [logs]] := rfl
  have hprefixes : (node "Filter" [logs]).named "Prefix".toList = [logs] := rfl
  have hconditions : (thirtyDays logs).conditions = [logs] := rfl
  have hexpirations : (thirtyDays logs).named "Expiration".toList =
      [node "Expiration" [leaf "Days" "30"]] := rfl
  have hread : LifecycleExpiration.read (node "Expiration" [leaf "Days" "30"]) =
      some ⟨some 30, none⟩ := rfl
  rw [Xml.Honoured, hrules]
  intro e he henabled exp hexp _ k₀ hk₀ hunder k hk htakes size
  obtain rfl := List.mem_singleton.1 he
  have hlog := hunder _ (hfilters ▸ List.mem_singleton_self _) logs
    (hprefixes ▸ List.mem_singleton_self _)
  obtain rfl := hlogs k₀ hk₀ hlog k hk htakes
  refine ⟨_, List.mem_singleton_self _, henabled, fun c hc => ?_, ?_⟩
  · rw [hconditions, List.mem_singleton] at hc
    subst hc
    exact .inl ⟨rfl, hlog⟩
  · obtain ⟨x, hx, exp', hread', rfl⟩ := hexp
    rw [hexpirations, List.mem_singleton] at hx
    subst hx
    obtain rfl := Option.some.inj (hread'.symm.trans hread)
    exact ⟨_, hexpirations ▸ List.mem_singleton_self _, _, hread,
      .inl ⟨rfl, 30, rfl, 30, rfl, by decide, le_refl _⟩⟩

end Kerplace
