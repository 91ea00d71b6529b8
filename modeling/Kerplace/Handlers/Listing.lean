/-
# `Kerplace.Handlers.Listing` — the object listing over HTTP

A client asks for a page with a query string, and for the next with the token of the page
before.  Under `encoding-type=url` the handler encodes the token as it does the keys, and
takes it back without decoding it but once, for the query: so it goes on from the encoded
token.
-/
import Kerplace.Auth.Chunked
import Kerplace.Fs.Listing
import Kerplace.Handlers.ObjectLock
import Kerplace.Storage.Entries

namespace Kerplace

/-! ## Percent-encoding -/

/-- `AsciiSet`: the ASCII characters that are encoded. -/
abbrev AsciiSet := Char → Bool

/-- `NON_ALPHANUMERIC`. -/
def NON_ALPHANUMERIC : AsciiSet := fun c => !c.isAlphanum

/-- `KEY_ENCODE_SET`. -/
def KEY_ENCODE_SET : AsciiSet := fun c => NON_ALPHANUMERIC c && !"-_.~/".toList.contains c

/-- The percent-encoding library: `utf8_percent_encode`, and `percent_decode_str` with
`decode_utf8_lossy`. -/
structure PercentCoding where
  utf8PercentEncode : AsciiSet → Str → Str
  percentDecode : Str → Str

namespace PercentCoding

/-- What is relied on of it: a text without a percent sign stands for itself, an encoded
text decodes to what was encoded, and characters that are to be encoded do not occur in it,
but for percent signs, letters and digits. -/
structure Lawful (P : PercentCoding) : Prop where
  decode_plain : ∀ s, '%' ∉ s → P.percentDecode s = s
  decode_encode : ∀ (set : AsciiSet) s, set '%' = true →
    P.percentDecode (P.utf8PercentEncode set s) = s
  encode_chars : ∀ (set : AsciiSet) s, ∀ c ∈ P.utf8PercentEncode set s,
    set c = false ∨ c = '%' ∨ c.isAlphanum = true

variable (P : PercentCoding)

/-- `encode_key`. -/
def encodeKey (s : Str) : Str := P.utf8PercentEncode KEY_ENCODE_SET s

end PercentCoding

/-! ## Requests -/

/-- `split_once('=')`, or the whole with nothing. -/
def splitOnce (pair : Str) : Str × Str :=
  (pair.takeWhile (· ≠ '='), (pair.dropWhile (· ≠ '=')).drop 1)

/-- `parse_query`. -/
def parseQuery (P : PercentCoding) (raw : Option Str) : Str → Option Str :=
  match raw with
  | none => fun _ => none
  | some q => ((q.splitOn '&').filter fun p => decide (p ≠ [])).foldl (fun map pair =>
      Function.update map (P.percentDecode (splitOnce pair).1)
        (some (P.percentDecode (splitOnce pair).2))) fun _ => none

/-- `str::parse::<usize>`. -/
def parseUsize (s : Str) : Option Nat :=
  let digits := match s with
    | '+' :: cs => cs
    | _ => s
  if digits = [] ∨ digits.any (fun c => !c.isDigit) then none
  else (some (digits.foldl (fun n c => 10 * n + (c.toNat - '0'.toNat)) 0)).filter
    fun n => decide (n < 2 ^ 64)

/-- `Contents`; of the date its value, not its text. -/
structure Contents where
  key : Str
  lastModified : Int
  etag : Str
  size : Nat
  storageClass : Str
  deriving DecidableEq

/-- `ListBucketResult`. -/
structure ListBucketResult where
  name : Str
  pre : Str
  keyCount : Nat
  maxKeys : Nat
  delimiter : Option Str
  encodingType : Option Str
  isTruncated : Bool
  nextContinuationToken : Option Str
  contents : List Contents
  commonPrefixes : List Str
  deriving DecidableEq

/-- `quote_etag`. -/
def quoteEtag (etag : Str) : Str := '"' :: etag ++ ['"']

/-- A store's `list_objects_v2` for one bucket as it is. -/
abbrev ListFn := Str → Option Str → Option Str → Option Str → Nat → Except S3Error Listing

/-- `list_objects_inner`. -/
def listObjectsInner (P : PercentCoding) (list : ListFn) (bucket : Str)
    (params : Str → Option Str) : Except S3Error ListBucketResult :=
  let pre := (params "prefix".toList).getD []
  let delimiter := (params "delimiter".toList).filter fun d => decide (d ≠ [])
  let continuation := params "continuation-token".toList
  let startAfter := params "start-after".toList
  let encode := ((params "encoding-type".toList).map fun e =>
    eqIgnoreAsciiCase e "url".toList).getD false
  let maxKeys := min (((params "max-keys".toList).bind parseUsize).getD 1000) 1000
  (list pre delimiter continuation startAfter maxKeys).map fun listing =>
    let enc := if encode then P.encodeKey else id
    let contents := listing.objects.map fun m =>
      (⟨enc m.key, m.lastModified, quoteEtag m.etag, m.size, "STANDARD".toList⟩ : Contents)
    let commonPrefixes := listing.commonPrefixes.map enc
    { name := bucket
      pre := enc pre
      keyCount := contents.length + commonPrefixes.length
      maxKeys := maxKeys
      delimiter := delimiter.map enc
      encodingType := if encode then some "url".toList else none
      isTruncated := listing.isTruncated
      nextContinuationToken := listing.nextContinuationToken.map enc
      contents := contents
      commonPrefixes := commonPrefixes }

/-- The parameters that make `GET /{bucket}` another request. -/
def SUBRESOURCES : List Str := ["versions", "encryption", "policy", "tagging", "versioning",
  "lifecycle", "object-lock"].map String.toList

/-- The answer to `GET /{bucket}`: a listing, or that of a sub-resource's handler. -/
inductive BucketAnswer where
  | listing (r : Except S3Error ListBucketResult)
  | subresource (name : Str)

/-- `list_objects`. -/
def listObjects (P : PercentCoding) (list : ListFn) (bucket : Str) (query : Option Str) :
    BucketAnswer :=
  let params := parseQuery P query
  match SUBRESOURCES.find? fun name => (params name).isSome with
  | some name => .subresource name
  | none => .listing (listObjectsInner P list bucket params)

/-! ## A client -/

/-- What a client asks for on every page. -/
structure ListRequest where
  pre : Str
  delimiter : Option Str
  startAfter : Option Str
  maxKeys : Option Str
  encodingType : Option Str

namespace ListRequest

/-- A parameter, if it has a value. -/
def param (name : String) (value : Option Str) : List (Str × Str) :=
  value.toList.map fun v => (name.toList, v)

/-- The parameters of a request. -/
def params (r : ListRequest) (token : Option Str) : List (Str × Str) :=
  param "list-type" (some ['2']) ++ param "prefix" (some r.pre) ++
    param "delimiter" r.delimiter ++ param "start-after" r.startAfter ++
    param "max-keys" r.maxKeys ++ param "encoding-type" r.encodingType ++
    param "continuation-token" token

/-- The query string of a request: values are percent-encoded once. -/
def query (P : PercentCoding) (set : AsciiSet) (r : ListRequest) (token : Option Str) : Str :=
  ['&'].intercalate ((r.params token).map fun p => p.1 ++ '=' :: P.utf8PercentEncode set p.2)

/-- The answer to a request: one that is no listing counts as an error. -/
def page (P : PercentCoding) (set : AsciiSet) (list : ListFn) (bucket : Str) (r : ListRequest)
    (token : Option Str) : Except S3Error ListBucketResult :=
  match listObjects P list bucket (some (r.query P set token)) with
  | .listing answer => answer
  | .subresource _ => .error (.internal "not a listing")

/-- The delimiter a request has. -/
def delim (r : ListRequest) : Option Str := r.delimiter.filter fun d => decide (d ≠ [])

/-- The page size of a request. -/
def pageSize (r : ListRequest) : Nat := min ((r.maxKeys.bind parseUsize).getD 1000) 1000

/-- The request has `encoding-type=url`. -/
def encodes (r : ListRequest) : Bool :=
  (r.encodingType.map fun e => eqIgnoreAsciiCase e "url".toList).getD false

end ListRequest

/-- The text a client makes of one in the answer. -/
def ListBucketResult.decoded (P : PercentCoding) (res : ListBucketResult) (s : Str) : Str :=
  if res.encodingType.isSome then P.percentDecode s else s

/-- The keys a client gets. -/
def ListBucketResult.keys (P : PercentCoding) (res : ListBucketResult) : List Str :=
  res.contents.map fun c => res.decoded P c.key

/-- The common prefixes a client gets. -/
def ListBucketResult.prefixes (P : PercentCoding) (res : ListBucketResult) : List Str :=
  res.commonPrefixes.map (res.decoded P)

/-! ## Parsing a request -/

section

variable {P : PercentCoding} {set : AsciiSet}

/-- What a list of parameters sets. -/
def setAll (map : Str → Option Str) (ps : List (Str × Str)) : Str → Option Str :=
  ps.foldl (fun map p => Function.update map p.1 (some p.2)) map

theorem setAll_append (map : Str → Option Str) (ps qs : List (Str × Str)) :
    setAll map (ps ++ qs) = setAll (setAll map ps) qs := List.foldl_append

theorem setAll_param_ne (map : Str → Option Str) {name : String} {other : Str}
    (h : other ≠ name.toList) (value : Option Str) :
    setAll map (ListRequest.param name value) other = map other := by
  cases value with
  | none => rfl
  | some v => exact Function.update_of_ne h _ _

theorem setAll_param_self (map : Str → Option Str) (name : String) (value : Option Str) :
    setAll map (ListRequest.param name value) name.toList = value.or (map name.toList) := by
  cases value with
  | none => exact (Option.none_or).symm
  | some v => exact Function.update_self _ _ _

/-- A name that needs no encoding. -/
def PlainName (name : Str) : Prop := ∀ c ∈ name, c ≠ '%' ∧ c ≠ '&' ∧ c ≠ '='

instance (name : Str) : Decidable (PlainName name) :=
  decidable_of_iff (name.all fun c => decide (c ≠ '%' ∧ c ≠ '&' ∧ c ≠ '=')) (by
    simp [PlainName])

theorem splitOnce_append {name : Str} (h : '=' ∉ name) (value : Str) :
    splitOnce (name ++ '=' :: value) = (name, value) := by
  have hpass : ∀ c ∈ name, decide (c ≠ '=') = true := fun c hc =>
    decide_eq_true fun heq => h (heq ▸ hc)
  unfold splitOnce
  rw [List.takeWhile_append_of_pos hpass, List.dropWhile_append_of_pos hpass,
    List.takeWhile_cons_of_neg (by simp), List.dropWhile_cons_of_neg (by simp),
    List.append_nil, List.drop_one, List.tail_cons]

theorem parseQuery_pairs (hP : P.Lawful) (hpercent : set '%' = true) (hamp : set '&' = true)
    {ps : List (Str × Str)} (hne : ps ≠ []) (hplain : ∀ p ∈ ps, PlainName p.1) :
    parseQuery P (some (['&'].intercalate (ps.map fun p =>
      p.1 ++ '=' :: P.utf8PercentEncode set p.2))) = setAll (fun _ => none) ps := by
  have hsplit : ((['&'].intercalate (ps.map fun p =>
      p.1 ++ '=' :: P.utf8PercentEncode set p.2)).splitOn '&') =
      ps.map fun p => p.1 ++ '=' :: P.utf8PercentEncode set p.2 := by
    refine List.splitOn_intercalate '&' ?_ (by simpa using hne)
    rintro l hl hmem
    obtain ⟨p, hp, rfl⟩ := List.mem_map.1 hl
    rcases List.mem_append.1 hmem with h | h
    · exact (hplain p hp _ h).2.1 rfl
    · rcases List.mem_cons.1 h with h | h
      · cases h
      · rcases hP.encode_chars set p.2 _ h with h | h | h
        · exact Bool.noConfusion (hamp.symm.trans h)
        · cases h
        · exact absurd h (by decide)
  unfold parseQuery
  dsimp only
  rw [hsplit, List.filter_eq_self.2, List.foldl_map]
  · unfold setAll
    clear hsplit hne
    induction ps using List.reverseRecOn with
    | nil => rfl
    | append_singleton ps p ih =>
        have hp := hplain p (List.mem_append_right _ (List.mem_singleton_self p))
        rw [List.foldl_append, List.foldl_append,
          ih fun q hq => hplain q (List.mem_append_left _ hq)]
        rw [List.foldl_cons, List.foldl_nil, List.foldl_cons, List.foldl_nil,
          splitOnce_append fun hmem => (hp _ hmem).2.2 rfl,
          hP.decode_plain p.1 fun h => (hp _ h).1 rfl, hP.decode_encode set p.2 hpercent]
  · intro l hl
    obtain ⟨p, -, rfl⟩ := List.mem_map.1 hl
    simp

/-- `parse_query` gives the last value under a name. -/
theorem parseQuery_last (P : PercentCoding) (q name : Str) :
    parseQuery P (some q) name =
      ((((q.splitOn '&').filter fun p => decide (p ≠ [])).reverse.find? fun p =>
        decide (P.percentDecode (splitOnce p).1 = name)).map fun p =>
          P.percentDecode (splitOnce p).2) := by
  unfold parseQuery
  dsimp only
  generalize (q.splitOn '&').filter (fun p => decide (p ≠ [])) = pieces
  induction pieces using List.reverseRecOn with
  | nil => rfl
  | append_singleton pieces p ih =>
      rw [List.foldl_append, List.foldl_cons, List.foldl_nil, List.reverse_append,
        List.reverse_singleton, List.singleton_append, List.find?_cons]
      by_cases hp : P.percentDecode (splitOnce p).1 = name
      · rw [hp, Function.update_self, decide_eq_true rfl]
        rfl
      · rw [Function.update_of_ne (Ne.symm hp), ih, decide_eq_false hp]

/-- A value that stands behind a name, with no other of that name behind it, is the one that is
found. -/
theorem parseQuery_named {P : PercentCoding} (hP : P.Lawful) {front back : List (Str × Str)}
    {name value : Str}
    (hplain : ∀ p ∈ front ++ (name, value) :: back, PlainName p.1 ∧ '&' ∉ p.2)
    (hback : name ∉ back.map Prod.fst) :
    parseQuery P (some (['&'].intercalate ((front ++ (name, value) :: back).map fun p =>
      p.1 ++ '=' :: p.2))) name = some (P.percentDecode value) := by
  have hread {p : Str × Str} (hp : p ∈ front ++ (name, value) :: back) :
      splitOnce (p.1 ++ '=' :: p.2) = p ∧ P.percentDecode p.1 = p.1 := by
    constructor
    · exact splitOnce_append (fun hmem => ((hplain p hp).1 _ hmem).2.2 rfl) p.2
    · exact hP.decode_plain p.1 fun hmem => ((hplain p hp).1 _ hmem).1 rfl
  have hsplit : (['&'].intercalate ((front ++ (name, value) :: back).map fun p =>
      p.1 ++ '=' :: p.2)).splitOn '&' =
      (front ++ (name, value) :: back).map fun p => p.1 ++ '=' :: p.2 := by
    refine List.splitOn_intercalate '&' ?_ (by simp)
    intro l hl hmem
    obtain ⟨p, hp, rfl⟩ := List.mem_map.1 hl
    rcases List.mem_append.1 hmem with hmem | hmem
    · exact ((hplain p hp).1 _ hmem).2.1 rfl
    · rcases List.mem_cons.1 hmem with hmem | hmem
      · cases hmem
      · exact (hplain p hp).2 hmem
  have hkept : ((front ++ (name, value) :: back).map fun p => p.1 ++ '=' :: p.2).filter
      (fun p => decide (p ≠ [])) = (front ++ (name, value) :: back).map fun p =>
        p.1 ++ '=' :: p.2 := by
    refine List.filter_eq_self.2 ?_
    intro l hl
    obtain ⟨p, -, rfl⟩ := List.mem_map.1 hl
    simp
  have hother : ((back.map fun p => p.1 ++ '=' :: p.2).reverse.find? fun p =>
      decide (P.percentDecode (splitOnce p).1 = name)) = none := by
    refine List.find?_eq_none.2 ?_
    intro l hl
    obtain ⟨p, hp, rfl⟩ := List.mem_map.1 (List.mem_reverse.1 hl)
    obtain ⟨hparts, hname⟩ := hread (List.mem_append_right _ (List.mem_cons_of_mem _ hp))
    rw [hparts, hname]
    exact fun h => hback (of_decide_eq_true h ▸ List.mem_map_of_mem hp)
  obtain ⟨hparts, hname⟩ := hread (List.mem_append_right _ List.mem_cons_self)
  rw [parseQuery_last, hsplit, hkept, List.map_append, List.map_cons, List.reverse_append,
    List.reverse_cons, List.append_assoc, List.find?_append, hother, Option.none_or,
    List.singleton_append, List.find?_cons, hparts, hname, decide_eq_true rfl]
  dsimp only
  rw [Option.map_some, hparts]

theorem plainName_params (r : ListRequest) (token : Option Str) :
    ∀ p ∈ r.params token, PlainName p.1 := by
  have hparam : ∀ (name : String) (value : Option Str), PlainName name.toList →
      ∀ p ∈ ListRequest.param name value, PlainName p.1 := by
    intro name value hname p hp
    obtain ⟨v, -, rfl⟩ := List.mem_map.1 hp
    exact hname
  intro p hp
  simp only [ListRequest.params, List.mem_append] at hp
  rcases hp with (((((hp | hp) | hp) | hp) | hp) | hp) | hp <;>
    exact hparam _ _ (by decide) p hp

theorem parseQuery_query (hP : P.Lawful) (hpercent : set '%' = true) (hamp : set '&' = true)
    (r : ListRequest) (token : Option Str) :
    parseQuery P (some (r.query P set token)) = setAll (fun _ => none) (r.params token) :=
  parseQuery_pairs hP hpercent hamp (List.cons_ne_nil _ _) (plainName_params r token)

/-- The parameters set are the request's, each once. -/
theorem setAll_params (r : ListRequest) (token : Option Str) (name : Str) :
    setAll (fun _ => none) (r.params token) name =
      if name = "continuation-token".toList then token
      else if name = "encoding-type".toList then r.encodingType
      else if name = "max-keys".toList then r.maxKeys
      else if name = "start-after".toList then r.startAfter
      else if name = "delimiter".toList then r.delimiter
      else if name = "prefix".toList then some r.pre
      else if name = "list-type".toList then some ['2'] else none := by
  have hstep : ∀ (map : Str → Option Str) (other : String) (value : Option Str),
      map other.toList = none →
      setAll map (ListRequest.param other value) name =
        if name = other.toList then value else map name := by
    intro map other value hnone
    split
    · rename_i h
      rw [h, setAll_param_self, hnone, Option.or_none]
    · rename_i h
      exact setAll_param_ne map h value
  unfold ListRequest.params
  simp only [setAll_append]
  have hne : ∀ (map : Str → Option Str) (a b : String) (value : Option Str),
      b.toList ≠ a.toList → setAll map (ListRequest.param a value) b.toList = map b.toList :=
    fun map a b value h => setAll_param_ne map h value
  rw [hstep, hstep, hstep, hstep, hstep, hstep, hstep]
  · rfl
  all_goals
    repeat rw [hne _ _ _ _ (by decide)]

/-- What the handler makes of a page of the store. -/
def rendered (P : PercentCoding) (bucket : Str) (r : ListRequest) (l : Listing) :
    ListBucketResult :=
  let enc := if r.encodes then P.encodeKey else id
  let contents := l.objects.map fun m =>
    (⟨enc m.key, m.lastModified, quoteEtag m.etag, m.size, "STANDARD".toList⟩ : Contents)
  { name := bucket
    pre := enc r.pre
    keyCount := contents.length + (l.commonPrefixes.map enc).length
    maxKeys := r.pageSize
    delimiter := r.delim.map enc
    encodingType := if r.encodes then some "url".toList else none
    isTruncated := l.isTruncated
    nextContinuationToken := l.nextContinuationToken.map enc
    contents := contents
    commonPrefixes := l.commonPrefixes.map enc }

/-- The answer to a request is the page of the store from the token the client sent. -/
theorem page_eq (hP : P.Lawful) (hpercent : set '%' = true) (hamp : set '&' = true)
    (list : ListFn) (bucket : Str) (r : ListRequest) (token : Option Str) :
    r.page P set list bucket token =
      (list r.pre r.delim token r.startAfter r.pageSize).map (rendered P bucket r) := by
  have hparams := setAll_params r token
  unfold ListRequest.page listObjects
  rw [parseQuery_query hP hpercent hamp]
  have hnone : SUBRESOURCES.find? (fun name =>
      (setAll (fun _ => none) (r.params token) name).isSome) = none := by
    refine List.find?_eq_none.2 fun name hname => ?_
    have hall : ∀ name ∈ SUBRESOURCES, name ≠ "continuation-token".toList ∧
        name ≠ "encoding-type".toList ∧ name ≠ "max-keys".toList ∧
        name ≠ "start-after".toList ∧ name ≠ "delimiter".toList ∧ name ≠ "prefix".toList ∧
        name ≠ "list-type".toList := by decide
    obtain ⟨h₁, h₂, h₃, h₄, h₅, h₆, h₇⟩ := hall name hname
    rw [hparams, if_neg h₁, if_neg h₂, if_neg h₃, if_neg h₄, if_neg h₅, if_neg h₆, if_neg h₇]
    exact Bool.false_ne_true
  dsimp only
  rw [hnone]
  have hget : setAll (fun _ => none) (r.params token) "prefix".toList = some r.pre ∧
      setAll (fun _ => none) (r.params token) "delimiter".toList = r.delimiter ∧
      setAll (fun _ => none) (r.params token) "continuation-token".toList = token ∧
      setAll (fun _ => none) (r.params token) "start-after".toList = r.startAfter ∧
      setAll (fun _ => none) (r.params token) "encoding-type".toList = r.encodingType ∧
      setAll (fun _ => none) (r.params token) "max-keys".toList = r.maxKeys :=
    ⟨hparams _, hparams _, hparams _, hparams _, hparams _, hparams _⟩
  obtain ⟨hpre, hdelim, htoken, hafter, henc, hmax⟩ := hget
  simp only [listObjectsInner, hpre, hdelim, htoken, hafter, henc, hmax]
  rfl

/-! ## The pages of a request -/

theorem decoded_rendered (hP : P.Lawful) (bucket : Str) (r : ListRequest) (l : Listing)
    (s : Str) :
    (rendered P bucket r l).decoded P ((if r.encodes then P.encodeKey else id) s) = s := by
  unfold ListBucketResult.decoded rendered
  cases r.encodes with
  | true => exact hP.decode_encode KEY_ENCODE_SET s (by decide)
  | false => rfl

theorem keys_rendered (hP : P.Lawful) (bucket : Str) (r : ListRequest) (l : Listing) :
    (rendered P bucket r l).keys P = l.objects.map ObjectMeta.key := by
  have hcontents : (rendered P bucket r l).contents = l.objects.map fun m =>
      ⟨(if r.encodes then P.encodeKey else id) m.key, m.lastModified, quoteEtag m.etag, m.size,
        "STANDARD".toList⟩ := rfl
  rw [ListBucketResult.keys, hcontents, List.map_map]
  exact List.map_congr_left fun m _ => decoded_rendered hP bucket r l m.key

theorem prefixes_rendered (hP : P.Lawful) (bucket : Str) (r : ListRequest) (l : Listing) :
    (rendered P bucket r l).prefixes P = l.commonPrefixes := by
  have hcommon : (rendered P bucket r l).commonPrefixes =
      l.commonPrefixes.map (if r.encodes then P.encodeKey else id) := rfl
  rw [ListBucketResult.prefixes, hcommon, List.map_map]
  exact (List.map_congr_left fun c _ => decoded_rendered hP bucket r l c).trans (List.map_id _)

/-- A request is answered by pages over the wanted keys, with tokens encoded as the keys. -/
theorem pagesOver_request (hP : P.Lawful) (hpercent : set '%' = true) (hamp : set '&' = true)
    {list : ListFn} (bucket : Str) {r : ListRequest} {keys : List Str} (hkeys : keys.Nodup)
    {obj : Str → ObjectMeta} (hobj : ∀ k, (obj k).key = k)
    (hlist : ∀ token m, list r.pre r.delim token r.startAfter m =
      .ok ((pageKeys r.pre r.delim token r.startAfter m
        ((keys.filter fun k => r.pre.isPrefixOf k).insertionSort (· ≤ ·))
        ⟨[], [], 0, false, none⟩).listing obj)) :
    PagesOver (wantedKeys r.pre r.startAfter keys) r.pre r.delim r.pageSize
      (if r.encodes then P.encodeKey else id) (r.page P set list bucket)
      ListBucketResult.nextContinuationToken (ListBucketResult.keys P)
      (ListBucketResult.prefixes P) where
  sorted := wantedKeys_sorted r.pre r.startAfter hkeys
  named k hk := (mem_wantedKeys.1 hk).2.1
  answers token := ⟨_, by rw [page_eq hP hpercent hamp, hlist]; rfl⟩
  shows token p hp := by
    obtain ⟨part, rest, pg, hsplit, hpage, hok⟩ := listing_page hlist token r.pageSize
    rw [page_eq hP hpercent hamp, hok] at hp
    obtain rfl := Except.ok.inj hp
    refine ⟨part, rest, pg, hsplit, hpage, ?_, ?_, ?_⟩
    · rw [keys_rendered hP, Page.listing, map_key_map hobj]
    · rw [prefixes_rendered hP, Page.listing]
    · show (pg.listing obj).nextContinuationToken.map _ = _
      rw [Page.listing, hpage.next]

/-- Every page break falls where the encoded token leaves the same entries. -/
def TokensKept (P : PercentCoding) (r : ListRequest) (keys : List Str) : Prop :=
  ∀ j, 1 ≤ j → BreakKept (wantedKeys r.pre r.startAfter keys) r.pre r.delim r.pageSize
    P.encodeKey j

/-- The pages a client gets who follows the tokens show the wanted keys once and in order,
as keys or under their common prefixes. -/
def ReadsInOrder (P : PercentCoding) (set : AsciiSet) (list : ListFn) (bucket : Str)
    (r : ListRequest) (keys : List Str) : Prop :=
  ∃ pages, PagesInOrder (wantedKeys r.pre r.startAfter keys) r.pre r.delim
    (r.page P set list bucket) ListBucketResult.nextContinuationToken (ListBucketResult.keys P)
    (ListBucketResult.prefixes P) pages

theorem readsInOrder_iff (hP : P.Lawful) (hpercent : set '%' = true) (hamp : set '&' = true)
    {list : ListFn} {bucket : Str} {r : ListRequest} {keys : List Str} (hkeys : keys.Nodup)
    (hmax : 1 ≤ r.pageSize) {obj : Str → ObjectMeta} (hobj : ∀ k, (obj k).key = k)
    (hlist : ∀ token m, list r.pre r.delim token r.startAfter m =
      .ok ((pageKeys r.pre r.delim token r.startAfter m
        ((keys.filter fun k => r.pre.isPrefixOf k).insertionSort (· ≤ ·))
        ⟨[], [], 0, false, none⟩).listing obj)) :
    ReadsInOrder P set list bucket r keys ↔ r.encodes = false ∨ TokensKept P r keys := by
  have H := pagesOver_request hP hpercent hamp bucket hkeys hobj hlist
  refine (H.inOrder_iff hmax).trans ?_
  cases r.encodes with
  | true => exact (or_iff_right Bool.noConfusion).symm
  | false => exact iff_of_true (fun j _ => breakKept_id H.sorted j) (.inl rfl)

end

/-- The sharded store's listing of a bucket as it is. -/
def ErasureStore.listing {n : Nat} (site : Site n) (bucket : Str) (s : Cluster n Doc) : ListFn :=
  fun pre delimiter token startAfter maxKeys =>
    (site.run (ErasureStore.listObjectsV2 bucket pre delimiter token startAfter maxKeys) s).1

/-- The filesystem store's listing of a bucket as it is. -/
def FsStore.listing (S : FsStore) (root : List Str) (bucket : Str) (t : Tree FsDoc) : ListFn :=
  fun pre delimiter token startAfter maxKeys =>
    FsStore.result root (S.listObjectsV2 bucket pre delimiter token startAfter maxKeys) t

/-- A byte as a percent sign and two digits. -/
def escape (b : UInt8) : Str :=
  ['%', (hexDigit (b.toNat / 16)).toUpper, (hexDigit (b.toNat % 16)).toUpper]

/-- The bytes a percent-encoded text stands for. -/
def percentBytes : Str → Bytes
  | [] => []
  | '%' :: a :: b :: cs =>
      match hexDigit? a, hexDigit? b with
      | some x, some y => UInt8.ofNat (16 * x + y) :: percentBytes cs
      | _, _ => 0x25 :: percentBytes (a :: b :: cs)
  | c :: cs => String.utf8EncodeChar c ++ percentBytes cs

/-- Percent-encoding, with one replacement character for what is not UTF-8. -/
def percentCoding : PercentCoding where
  utf8PercentEncode set s := s.flatMap fun c =>
    if c.toNat < 128 ∧ set c = false then [c] else (String.utf8EncodeChar c).flatMap escape
  percentDecode s := (fromUtf8 (percentBytes s)).getD [Char.ofNat 0xfffd]

theorem hexDigit?_upper : ∀ v < 16, hexDigit? (hexDigit v).toUpper = some v ∧
    (hexDigit v).toUpper.isAlphanum = true := by decide

theorem percentBytes_escape (b : UInt8) (cs : Str) :
    percentBytes (escape b ++ cs) = b :: percentBytes cs := by
  have hb := b.toNat_lt
  obtain ⟨hhi, -⟩ := hexDigit?_upper (b.toNat / 16) (by omega)
  obtain ⟨hlo, -⟩ := hexDigit?_upper (b.toNat % 16) (by omega)
  show percentBytes ('%' :: _ :: _ :: cs) = _
  simp only [percentBytes, hhi, hlo]
  rw [Nat.div_add_mod, UInt8.ofNat_toNat]

theorem percentBytes_escapes (bs : Bytes) (cs : Str) :
    percentBytes (bs.flatMap escape ++ cs) = bs ++ percentBytes cs := by
  induction bs with
  | nil => rfl
  | cons b bs ih =>
      rw [List.flatMap_cons, List.append_assoc, percentBytes_escape, ih, List.cons_append]

theorem percentBytes_cons {c : Char} (hc : c ≠ '%') (cs : Str) :
    percentBytes (c :: cs) = String.utf8EncodeChar c ++ percentBytes cs :=
  percentBytes.eq_3 c cs fun _ _ _ h _ => hc h

theorem percentCoding_lawful : percentCoding.Lawful where
  decode_plain s hs := by
    have hbytes : percentBytes s = s.flatMap String.utf8EncodeChar := by
      induction s with
      | nil => rfl
      | cons c s ih =>
          rw [List.mem_cons, not_or] at hs
          rw [percentBytes_cons (Ne.symm hs.1), ih hs.2, List.flatMap_cons]
    show (fromUtf8 (percentBytes s)).getD _ = s
    rw [hbytes, fromUtf8_encoded, Option.getD_some]
  decode_encode set s hset := by
    have hbytes : percentBytes (percentCoding.utf8PercentEncode set s) =
        s.flatMap String.utf8EncodeChar := by
      induction s with
      | nil => rfl
      | cons c s ih =>
          have hcons : percentCoding.utf8PercentEncode set (c :: s) =
              (if c.toNat < 128 ∧ set c = false then [c]
                else (String.utf8EncodeChar c).flatMap escape) ++
              percentCoding.utf8PercentEncode set s := rfl
          rw [hcons, List.flatMap_cons]
          split
          · rename_i hkeep
            have hc : c ≠ '%' := by
              rintro rfl
              exact Bool.noConfusion (hset.symm.trans hkeep.2)
            rw [List.cons_append, List.nil_append, percentBytes_cons hc, ih]
          · rw [percentBytes_escapes, ih]
    show (fromUtf8 (percentBytes _)).getD _ = s
    rw [hbytes, fromUtf8_encoded, Option.getD_some]
  encode_chars set s c hc := by
    obtain ⟨x, -, hx⟩ := List.mem_flatMap.1 hc
    split at hx
    · rename_i hkeep
      rw [List.mem_singleton.1 hx]
      exact .inl hkeep.2
    · obtain ⟨b, -, hb⟩ := List.mem_flatMap.1 hx
      have hlt := b.toNat_lt
      simp only [escape, List.mem_cons, List.not_mem_nil, or_false] at hb
      rcases hb with rfl | rfl | rfl
      · exact .inr (.inl rfl)
      · exact .inr (.inr (hexDigit?_upper (b.toNat / 16) (by omega)).2)
      · exact .inr (.inr (hexDigit?_upper (b.toNat % 16) (by omega)).2)

/-- Two objects, one with a space in its key. -/
def spacedDrives : Cluster 3 Doc :=
  ((Site.mk topRoot fun _ => true).run (do
    let _ ← ErasureStore.trio.putObject (callAt 'a' 1 isHexLower_a) "docs".toList "a".toList
      (.ofBytes [1]) [] [] false
    let _ ← ErasureStore.trio.putObject (callAt 'b' 2 isHexLower_b) "docs".toList "a b".toList
      (.ofBytes [2]) [] [] false)
    (withBucket "docs".toList)).2

def spacedTree : Tree FsDoc :=
  FsStore.reached FsStore.plainStore [] .empty [.createBucket "docs".toList,
    .put (FsStore.fsCallAt 'a' 1 isHexLower_a) "docs".toList "a".toList (.ofBytes [1]) [] [] false,
    .put (FsStore.fsCallAt 'b' 2 isHexLower_b) "docs".toList "a b".toList (.ofBytes [2]) [] []
      false]

/-- All keys, one a page, encoded. -/
def onePerPage : ListRequest := ⟨[], none, none, some "1".toList, some "url".toList⟩

theorem spacedDrives_readable :
    ErasureStore.AllReadable (Site.mk topRoot fun _ => true) "docs".toList spacedDrives := by
  have hok : ∀ k ∈ ErasureStore.keysUp (Site.mk topRoot fun _ => true) "docs".toList
      spacedDrives, isErr ((Site.mk topRoot fun _ => true).run
        (ErasureStore.readXl "docs".toList k) spacedDrives).1 = false := by
    decide +kernel
  intro k hk
  obtain ⟨m, hm⟩ := exists_ok_of_isErr (hok k hk)
  exact ⟨m, Prod.ext hm (by rw [ErasureStore.readXl, ErasureStore.run_readXlV])⟩

theorem spacedTree_readable :
    FsStore.AllReadable FsStore.plainStore [] "docs".toList spacedTree := by
  have hok : ∀ k ∈ FsStore.keysIn [] "docs".toList spacedTree,
      isErr (FsStore.storedIn FsStore.plainStore [] "docs".toList k spacedTree) = false := by
    decide +kernel
  exact fun k hk => exists_ok_of_isErr (hok k hk)

/-- What a page of the store comes to. -/
def Listing.digest (l : Listing) : List Str × List Str × Option Str :=
  (l.objects.map ObjectMeta.key, l.commonPrefixes, l.nextContinuationToken)

/-- A store that has the key with the space next, and nothing from its encoded form on. -/
theorem loses_spaced {list : ListFn}
    (hfirst : (list [] none none none 1).toOption.map Listing.digest =
      some (["a".toList], [], some "a b".toList))
    (hnext : (list [] none (some "a%20b".toList) none 1).toOption.map Listing.digest =
      some ([], [], none)) {pages : List ListBucketResult}
    (h : Followed (onePerPage.page percentCoding NON_ALPHANUMERIC list "docs".toList)
      (fun res => res.nextContinuationToken.map some) none pages) :
    "a b".toList ∉ pages.flatMap (ListBucketResult.keys percentCoding) ∧
      pages.flatMap (ListBucketResult.prefixes percentCoding) = [] := by
  have hpage : ∀ token d, (list [] none token none 1).toOption.map Listing.digest = some d →
      ∀ p, onePerPage.page percentCoding NON_ALPHANUMERIC list "docs".toList token = .ok p →
        p.keys percentCoding = d.1 ∧ p.prefixes percentCoding = d.2.1 ∧
          p.nextContinuationToken = d.2.2.map percentCoding.encodeKey := by
    intro token d hd p hp
    obtain ⟨l, hl, rfl⟩ := Option.map_eq_some_iff.1 hd
    have hok : list [] none token none 1 = .ok l := by
      cases hlist : list [] none token none 1 with
      | ok l' =>
          rw [hlist] at hl
          exact congrArg _ (Option.some.inj hl)
      | error e =>
          rw [hlist] at hl
          cases hl
    rw [page_eq percentCoding_lawful (by decide) (by decide)] at hp
    have hlist : list onePerPage.pre onePerPage.delim token onePerPage.startAfter
        onePerPage.pageSize = .ok l := hok
    rw [hlist] at hp
    obtain rfl := Except.ok.inj hp
    exact ⟨keys_rendered percentCoding_lawful _ _ _,
      prefixes_rendered percentCoding_lawful _ _ _, rfl⟩
  have htoken : percentCoding.encodeKey "a b".toList = "a%20b".toList := by decide
  cases h with
  | last hp hlast =>
      rw [(hpage _ _ hfirst _ hp).2.2] at hlast
      cases hlast
  | more hp hmore hrest =>
      obtain ⟨hkeys, hprefixes, hn⟩ := hpage _ _ hfirst _ hp
      rw [hn] at hmore
      have hmore : some (some (percentCoding.encodeKey "a b".toList)) = some _ := hmore
      rw [htoken] at hmore
      obtain rfl := Option.some.inj hmore
      cases hrest with
      | last hp' hlast =>
          obtain ⟨hkeys', hprefixes', -⟩ := hpage _ _ hnext _ hp'
          rw [List.flatMap_cons, List.flatMap_singleton, hkeys, hkeys', List.flatMap_cons,
            List.flatMap_singleton, hprefixes, hprefixes']
          exact ⟨by decide, rfl⟩
      | more hp' hmore' hrest' =>
          rw [(hpage _ _ hnext _ hp').2.2] at hmore'
          cases hmore'

end Kerplace
