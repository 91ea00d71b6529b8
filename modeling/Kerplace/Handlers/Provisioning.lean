/-
# `Kerplace.Handlers.Provisioning` — a user from the request to the listing

An administrator's client sends the new user's document encrypted under its own secret key, and
reads the list of users the same way.  What goes in so comes out so: the server holds the user
that the document describes, until a request names the user again, and whoever lists the users
decrypts an entry that says so.

A user who is to be added as disabled is added first and disabled then, each with a copy of the
map to the file, and the answer is that of the first.
-/
import Kerplace.Handlers.Admin

namespace Kerplace

/-- The file is opened, and the write breaks off. -/
def IamIo.Torn (io : IamIo) : Prop := io.dir = true ∧ ∃ left, io.file = .torn left

/-! ## Through the libraries and back -/

namespace Madmin

/-- The encryption of a payload can be undone: the key is derived, and the cipher opens what it
seals under it. -/
def Reversible (L : Ciphers) (password : Str) (r : Drawn) (data : Bytes) : Prop :=
  ∃ key, L.argon2id password r.salt = some key ∧ L.aesGcm.Opens key (L.callsOf key r data)

theorem openPackage_of_open {L : Ciphers} {id : UInt8} {key nonce ct aad msg : Bytes}
    (h : (L.aead id).openWith key nonce ct aad = some msg) :
    L.openPackage id key nonce ct aad = .ok msg := by
  rw [Ciphers.openPackage, h]

theorem decryptData_encryptData {L : Ciphers} {password : Str} {r : Drawn} {data : Bytes}
    (h : Reversible L password r data) :
    ∃ blob, L.encryptData password r data = some blob ∧ L.decryptData password blob = .ok data := by
  obtain ⟨key, hkey, hopens⟩ := h
  refine ⟨_, Ciphers.encryptData_eq hkey data, ?_⟩
  rw [Ciphers.decryptData_header hkey, Ciphers.sealedPackages,
    Ciphers.openStream_packages (cut_pieces data) hopens.length_seal, flatten_pieces]
  intro p hp
  exact openPackage_of_open
    (hopens.open_seal _ _ _ (List.mem_cons_of_mem _ (List.mem_map_of_mem hp)))

end Madmin

/-! ## The listing -/

/-- In a list that has every key once, a lookup finds what is there. -/
theorem lookup_eq_some_of_nodup {α β : Type} [BEq α] [LawfulBEq α] {l : List (α × β)}
    (hnodup : (l.map Prod.fst).Nodup) {k : α} {v : β} : l.lookup k = some v ↔ (k, v) ∈ l := by
  induction l with
  | nil =>
      constructor
      · intro h
        cases h
      · intro h
        exact absurd h List.not_mem_nil
  | cons e l ih =>
      obtain ⟨hfresh, hnodup⟩ := List.nodup_cons.1 hnodup
      rw [List.lookup_cons, List.mem_cons]
      split
      · rename_i heq
        obtain rfl := eq_of_beq heq
        constructor
        · intro h
          exact .inl (Prod.ext rfl (Option.some.inj h).symm)
        · rintro (h | h)
          · rw [← h]
          · exact absurd (List.mem_map_of_mem (f := Prod.fst) h) hfresh
      · rename_i hne
        rw [ih hnodup]
        refine ⟨.inr, fun h => h.resolve_left fun heq => ?_⟩
        rw [← heq, beq_self_eq_true] at hne
        exact Bool.noConfusion hne

namespace AdminServer

variable {A : AdminServer}

theorem userMap_eq (users : Users) : A.userMap users =
    (users.toList.filter fun u => decide (u.1 ≠ A.iam.rootKey)).map fun u =>
      (u.1, userJson (u.2.identity u.1)) := by
  have hroot : decide (A.iam.root.accessKey ≠ A.iam.rootKey) = false :=
    decide_eq_false (not_not.2 rfl)
  rw [userMap, IamStore.list, List.filter_cons_of_neg (by rw [hroot]; decide), List.filter_map,
    List.map_map]
  rfl

theorem userMap_ascends (users : Users) :
    (A.userMap users).Pairwise fun a b => compare a.1 b.1 = .lt := by
  rw [userMap_eq, List.pairwise_map]
  exact (Std.ExtTreeMap.ordered_keys_toList).filter _

/-- The map that `list_users` builds has every user but the root. -/
theorem lookup_userMap (users : Users) (k : Str) : (A.userMap users).lookup k =
    if k = A.iam.rootKey then none else users[k]?.map fun u => userJson (u.identity k) := by
  have hnodup : ((A.userMap users).map Prod.fst).Nodup := by
    rw [List.Nodup, List.pairwise_map]
    refine (userMap_ascends users).imp fun {a b} hlt heq => ?_
    rw [heq] at hlt
    have hself : compare b.1 b.1 = .eq := Std.ReflCmp.compare_self
    exact absurd hself (by rw [hlt]; decide)
  refine Option.ext fun v => ?_
  rw [lookup_eq_some_of_nodup hnodup, userMap_eq, List.mem_map]
  constructor
  · rintro ⟨u, hu, heq⟩
    obtain ⟨rfl, rfl⟩ := Prod.mk.inj heq
    obtain ⟨hmem, hroot⟩ := List.mem_filter.1 hu
    rw [if_neg (of_decide_eq_true hroot),
      Std.ExtTreeMap.mem_toList_iff_getElem?_eq_some.1 hmem]
    rfl
  · intro h
    split at h
    · cases h
    · rename_i hroot
      obtain ⟨u, hu, rfl⟩ := Option.map_eq_some_iff.1 h
      exact ⟨(k, u), List.mem_filter.2 ⟨Std.ExtTreeMap.mem_toList_iff_getElem?_eq_some.2 hu,
        decide_eq_true hroot⟩, rfl⟩

/-! ## Adding a user -/

instance (io : IamIo) : Decidable io.Works :=
  match io with
  | ⟨true, .done⟩ => isTrue ⟨rfl, rfl⟩
  | ⟨true, .refused⟩ => isFalse fun h => nomatch h.2
  | ⟨true, .torn _⟩ => isFalse fun h => nomatch h.2
  | ⟨false, _⟩ => isFalse fun h => nomatch h.1

/-- The secret key that a document asks for. -/
def askedSecret (doc : JsonValue) : Str := (doc.text "secretKey".toList).getD []

/-- The policy that it asks for. -/
def askedPolicy (doc : JsonValue) : Str :=
  ((doc.text "policyName".toList).filter fun p => decide (p ≠ [])).getD "readwrite".toList

/-- It asks for a disabled user. -/
def AsksDisabled (doc : JsonValue) : Prop := doc.text "status".toList = some "disabled".toList

instance (doc : JsonValue) : Decidable (AsksDisabled doc) :=
  inferInstanceAs (Decidable (_ = _))

/-- The user that it describes, of which the scope is kept from a user who was there. -/
def describedUser (doc : JsonValue) (old : Option StoredUser) : StoredUser :=
  ⟨askedSecret doc, askedPolicy doc, true, old.bind StoredUser.buckets⟩

/-- A request that adds a user: whose key, and with what document. -/
structure AddsUser (A : AdminServer) (t : UserTurn) (k : Str) (doc : JsonValue) : Prop where
  request : ∃ identity query body, t.call = .admin .addUser identity query body ∧
    query "accessKey".toList = some k ∧ A.openBody "UserInfo" identity body = .ok doc
  key : k ≠ []
  notRoot : k ≠ A.iam.rootKey
  secret : askedSecret doc ≠ []

theorem callIam_addUser {k sk policy : Str} (hk : k ≠ []) (hsk : sk ≠ [])
    (hroot : k ≠ A.iam.rootKey) (io : IamIo) (s : IamState) :
    A.callIam io (.addUser k sk policy) s = IamStore.persisted io
      (s.users.insert k ⟨sk, policy, true, s.users[k]?.bind StoredUser.buckets⟩) s.file := by
  unfold callIam
  simp only [IamCall.run, IamStore.addUser]
  rw [if_neg (not_or.2 ⟨hk, hsk⟩), if_neg hroot, IamStore.runE_change_persist]

theorem callIam_setStatus {k : Str} {u : StoredUser} (s : IamState) (hu : s.users[k]? = some u)
    (io : IamIo) (enabled : Bool) :
    A.callIam io (.setStatus k enabled) s =
      IamStore.persisted io (s.users.insert k { u with enabled }) s.file := by
  unfold callIam
  simp only [IamCall.run, IamStore.setStatus]
  rw [IamStore.runE_change_persist]
  unfold modifyUser
  rw [hu]

/-- What adding a user comes to: refused, where the first copy fails, and otherwise done. -/
theorem handle_adds {t : UserTurn} {k : Str} {doc : JsonValue} (h : A.AddsUser t k doc)
    (s : IamState) :
    let u := describedUser doc s.users[k]?
    let added := IamStore.persisted t.io (s.users.insert k u) s.file
    (¬ t.io.Works → (∃ e, (A.handle t s).1 = .refused e) ∧ (A.handle t s).2 = added.2) ∧
    (t.io.Works → (A.handle t s).1 = .done ∧ (A.handle t s).2 =
      if AsksDisabled doc then
        (IamStore.persisted t.again (added.2.users.insert k { u with enabled := false })
          added.2.file).2
      else added.2) := by
  intro u added
  obtain ⟨identity, query, body, hcall, hquery, hdoc⟩ := h.request
  have hadded : A.callIam t.io (.addUser k ((doc.text "secretKey".toList).getD [])
      (((doc.text "policyName".toList).filter fun p => decide (p ≠ [])).getD
        "readwrite".toList)) s = added :=
    callIam_addUser h.key h.secret h.notRoot t.io s
  have hhandle : A.handle t s = A.addUser t identity query body s := handle_admin hcall s
  unfold addUser at hhandle
  rw [hquery] at hhandle
  dsimp only at hhandle
  rw [hdoc] at hhandle
  dsimp only at hhandle
  rw [hadded] at hhandle
  have hworks : added.1 = .ok () ↔ t.io.Works := IamStore.persisted_isOk
  constructor
  · intro hfails
    cases hanswer : added.1 with
    | error e =>
        rw [hanswer] at hhandle
        exact ⟨⟨e, congrArg Prod.fst hhandle⟩, congrArg Prod.snd hhandle⟩
    | ok done => exact absurd (hworks.1 hanswer) hfails
  · intro hdone
    rw [hworks.2 hdone] at hhandle
    dsimp only at hhandle
    have hu : added.2.users[k]? = some u := by
      rw [IamStore.persisted_users]
      exact Std.ExtTreeMap.getElem?_insert_self
    rw [callIam_setStatus _ hu] at hhandle
    by_cases hasks : doc.text "status".toList = some "disabled".toList
    · rw [if_pos hasks] at hhandle
      rw [hhandle, if_pos (show AsksDisabled doc from hasks)]
      exact ⟨rfl, rfl⟩
    · rw [if_neg hasks] at hhandle
      rw [hhandle, if_neg (show ¬ AsksDisabled doc from hasks)]
      exact ⟨rfl, rfl⟩

theorem done_iff {t : UserTurn} {k : Str} {doc : JsonValue} (h : A.AddsUser t k doc)
    (s : IamState) : (A.handle t s).1 = .done ↔ t.io.Works := by
  obtain ⟨hrefused, hdone⟩ := handle_adds h s
  constructor
  · intro hanswer
    by_contra hfails
    obtain ⟨⟨e, he⟩, -⟩ := hrefused hfails
    rw [hanswer] at he
    cases he
  · intro hworks
    exact (hdone hworks).1

/-- The user that is there after it was added: disabled only where the first copy goes well. -/
theorem users_adds {t : UserTurn} {k : Str} {doc : JsonValue} (h : A.AddsUser t k doc)
    (s : IamState) : (A.handle t s).2.users.view k =
      some { describedUser doc s.users[k]? with
        enabled := decide (¬ (t.io.Works ∧ AsksDisabled doc)) } := by
  obtain ⟨hrefused, hdone⟩ := handle_adds h s
  by_cases hworks : t.io.Works
  · rw [(hdone hworks).2]
    split
    · rename_i hasks
      have hboth : ¬ ¬ (t.io.Works ∧ AsksDisabled doc) := not_not.2 ⟨hworks, hasks⟩
      rw [decide_eq_false hboth, Users.view, IamStore.persisted_users]
      exact Std.ExtTreeMap.getElem?_insert_self
    · rename_i hasks
      have hboth : ¬ (t.io.Works ∧ AsksDisabled doc) := fun h => hasks h.2
      rw [decide_eq_true hboth, Users.view, IamStore.persisted_users]
      exact Std.ExtTreeMap.getElem?_insert_self
  · have hboth : ¬ (t.io.Works ∧ AsksDisabled doc) := fun h => hworks h.1
    rw [(hrefused hworks).2, decide_eq_true hboth, Users.view, IamStore.persisted_users]
    exact Std.ExtTreeMap.getElem?_insert_self

theorem final_of_ne {k : Str} (seed : Option Str) (turns : List UserTurn)
    (h : ∀ t ∈ turns, A.subject t ≠ some k) (s : IamState) :
    ((A.machine seed).final s (turns.map .request)).users.view k = s.users.view k := by
  induction turns generalizing s with
  | nil => rfl
  | cons t turns ih =>
      rw [List.map_cons, Machine.final_cons, ih fun t' ht' => h t' (List.mem_cons_of_mem _ ht')]
      exact handle_of_ne (h t List.mem_cons_self) s

theorem openBody_sealed {identity : Identity} {r : Madmin.Drawn} {doc : JsonValue} {body : Bytes}
    (hjson : A.fromSlice (A.toVec doc) = .ok doc)
    (hrev : Madmin.Reversible A.ciphers identity.secretKey r (A.toVec doc))
    (hbody : A.ciphers.encryptData identity.secretKey r (A.toVec doc) = some body)
    (name : String) : A.openBody name (some identity) body = .ok doc := by
  obtain ⟨blob, hblob, hplain⟩ := Madmin.decryptData_encryptData hrev
  obtain rfl := Option.some.inj (hblob.symm.trans hbody)
  have hopened : A.ciphers.decryptData (A.requesterSecret (some identity)) blob =
      .ok (A.toVec doc) := hplain
  unfold openBody
  rw [hopened]
  dsimp only
  rw [hjson]

/-- What an administrator's client sends for a new user is what there is afterwards.  Where the
users file can be written the request succeeds, and after any further requests about others the
key stands for the user that the document describes; and whoever lists the users then decrypts a
map of every user but the root, with this user's policy and status. -/
theorem user_provisioned {t : UserTurn} {identity : Identity} {query : Str → Option Str}
    {r : Madmin.Drawn} {doc : JsonValue} {body : Bytes} {k : Str}
    (hcall : t.call = .admin .addUser (some identity) query body)
    (hquery : query "accessKey".toList = some k)
    (hdoc : A.fromSlice (A.toVec doc) = .ok doc)
    (hrev : Madmin.Reversible A.ciphers identity.secretKey r (A.toVec doc))
    (hbody : A.ciphers.encryptData identity.secretKey r (A.toVec doc) = some body)
    (hk : k ≠ []) (hroot : k ≠ A.iam.rootKey) (hsecret : askedSecret doc ≠ [])
    (hio : t.io.Works) (s : IamState) (seed : Option Str) (turns : List UserTurn)
    (hothers : ∀ u ∈ turns, A.subject u ≠ some k) :
    let later := (A.machine seed).final (A.handle t s).2 (turns.map .request)
    let user : StoredUser := ⟨askedSecret doc, askedPolicy doc, decide (¬ AsksDisabled doc),
      s.users[k]?.bind StoredUser.buckets⟩
    (A.handle t s).1 = .done ∧
    (¬ stsPrefix.isPrefixOf k → ∀ now,
      A.iam.resolve now later.users k = some (user.identity k)) ∧
    ∀ (l : UserTurn) (lister : Identity) (query' : Str → Option Str) (body' : Bytes),
      l.call = .admin .listUsers (some lister) query' body' →
      A.fromSlice (A.toVec (.object (A.userMap later.users))) =
        .ok (.object (A.userMap later.users)) →
      Madmin.Reversible A.ciphers lister.secretKey l.drawn
        (A.toVec (.object (A.userMap later.users))) →
      ∃ blob plain members, (A.handle l later).1 = .encrypted (some blob) ∧
        A.ciphers.decryptData lister.secretKey blob = .ok plain ∧
        A.fromSlice plain = .ok (.object members) ∧
        members.lookup k = some (userJson (user.identity k)) ∧
        ∀ x, members.lookup x = if x = A.iam.rootKey then none
          else later.users[x]?.map fun u => userJson (u.identity x) := by
  intro later user
  have hadds : A.AddsUser t k doc :=
    ⟨⟨some identity, query, body, hcall, hquery, openBody_sealed hdoc hrev hbody _⟩, hk, hroot,
      hsecret⟩
  have huser : later.users[k]? = some user := by
    have hadded := users_adds hadds s
    rw [show decide (¬ (t.io.Works ∧ AsksDisabled doc)) = decide (¬ AsksDisabled doc) from
      decide_eq_decide.2 (not_congr (and_iff_right hio))] at hadded
    exact (final_of_ne seed turns hothers _).trans hadded
  refine ⟨(done_iff hadds s).2 hio, fun hsts now => ?_, ?_⟩
  · rw [IamStore.resolve, if_neg hroot, if_neg hsts, huser]
    rfl
  · intro l lister query' body' hlist hjson hrev'
    obtain ⟨blob, hblob, hplain⟩ := Madmin.decryptData_encryptData hrev'
    have hshown (x : Str) := lookup_userMap (A := A) later.users x
    refine ⟨blob, _, A.userMap later.users, ?_, hplain, hjson, ?_, hshown⟩
    · rw [handle_admin hlist]
      exact congrArg UserAnswer.encrypted hblob
    · rw [hshown, if_neg hroot, huser]
      rfl

/-! ## A user who is added as disabled -/

theorem load_doc {S : IamStore} {users : Users} {k : Str} {u : StoredUser}
    (h : users[k]? = some u) (seed : Option Str) :
    (S.load seed true (some (.doc users))).users[k]? = some u := by
  unfold IamStore.load
  change (List.foldl _ users _)[k]? = _
  generalize seedUsers S.rootKey seed = entries
  induction entries generalizing users with
  | nil => exact h
  | cons e entries ih =>
      refine ih ?_
      rw [Std.ExtTreeMap.getElem?_insertIfNew, if_neg ?_]
      · exact h
      · rintro ⟨heq, hfresh⟩
        rw [Std.LawfulEqCmp.eq_of_compare heq, Std.ExtTreeMap.mem_iff_isSome_getElem?, h] at hfresh
        exact hfresh rfl

/-- What a restart finds of a copy. -/
theorem load_persisted {S : IamStore} {users users' : Users} {k : Str} {u u' : StoredUser}
    (hu : users[k]? = some u) (hu' : users'[k]? = some u') (io : IamIo) (seed : Option Str) :
    let found := (S.load seed true
      (IamStore.persisted io users (some (.doc users'))).2.file).users
    (io.Works → found[k]? = some u) ∧ (¬ io.Works → ¬ io.Torn → found[k]? = some u') ∧
      (io.Torn → found = (S.load seed true none).users) := by
  intro found
  rcases io with ⟨dir, out⟩
  cases dir with
  | false =>
      refine ⟨fun h => (nomatch h.1), fun _ _ => ?_, fun h => (nomatch h.1)⟩
      exact load_doc hu' seed
  | true =>
      cases out with
      | done =>
          refine ⟨fun _ => load_doc hu seed, fun h => absurd ⟨rfl, rfl⟩ h, ?_⟩
          rintro ⟨-, left, hleft⟩
          cases hleft
      | refused =>
          refine ⟨fun h => (nomatch h.2), fun _ _ => load_doc hu' seed, ?_⟩
          rintro ⟨-, left, hleft⟩
          cases hleft
      | torn left =>
          refine ⟨fun h => (nomatch h.2), fun _ h => absurd ⟨rfl, left, rfl⟩ h, fun _ => rfl⟩

/-- A user who is asked for as disabled.  The request succeeds just when the first copy does; in
memory the user is disabled then, and enabled where the request was refused.  What a restart finds
depends on the second copy, of which the answer says nothing: where it is written the user stays
disabled, where it is not the user is back and enabled, and where it breaks off the users file is
lost. -/
theorem disabled_user_returns {t : UserTurn} {k : Str} {doc : JsonValue} (h : A.AddsUser t k doc)
    (hasks : AsksDisabled doc) (s : IamState) (seed : Option Str) :
    let user := describedUser doc s.users[k]?
    let found := (A.iam.load seed true (A.handle t s).2.file).users
    ((A.handle t s).1 = .done ↔ t.io.Works) ∧
    (A.handle t s).2.users[k]? = some { user with enabled := decide (¬ t.io.Works) } ∧
    (t.io.Works →
      (t.again.Works → found[k]? = some { user with enabled := false }) ∧
      (¬ t.again.Works → ¬ t.again.Torn → found[k]? = some { user with enabled := true }) ∧
      (t.again.Torn → found = (A.iam.load seed true none).users)) := by
  intro user found
  refine ⟨done_iff h s, ?_, ?_⟩
  · have hadded := users_adds h s
    rw [show decide (¬ (t.io.Works ∧ AsksDisabled doc)) = decide (¬ t.io.Works) from
      decide_eq_decide.2 (not_congr (and_iff_left hasks))] at hadded
    exact hadded
  · intro hworks
    have hfile : (A.handle t s).2.file = (IamStore.persisted t.again
        ((s.users.insert k user).insert k { user with enabled := false })
        (some (.doc (s.users.insert k user)))).2.file := by
      rw [((handle_adds h s).2 hworks).2, if_pos hasks, IamStore.persisted_users,
        IamStore.persisted_ok (IamStore.persisted_isOk.2 hworks)]
    have hfirst : (s.users.insert k user)[k]? = some user :=
      Std.ExtTreeMap.getElem?_insert_self
    have hsecond : ((s.users.insert k user).insert k { user with enabled := false })[k]? =
        some { user with enabled := false } := Std.ExtTreeMap.getElem?_insert_self
    have hfound := load_persisted (S := A.iam) hsecond hfirst t.again seed
    rw [← hfile] at hfound
    exact hfound

/-! ## At a server without encryption -/

/-- A cipher that hides nothing. -/
def clearAead : Madmin.Aead where
  sealWith _ _ msg _ := msg ++ List.replicate Madmin.TAG_LEN 0
  openWith _ _ ct _ := some (ct.take (ct.length - Madmin.TAG_LEN))

/-- And no key derivation to speak of. -/
def clearCiphers : Madmin.Ciphers := ⟨fun _ _ => some [], fun _ _ => [], clearAead, clearAead⟩

theorem reversible_clear (password : Str) (r : Madmin.Drawn) (data : Bytes) :
    Madmin.Reversible clearCiphers password r data := by
  have hlen (msg : Bytes) : (msg ++ List.replicate Madmin.TAG_LEN (0 : UInt8)).length =
      msg.length + Madmin.TAG_LEN := by
    rw [List.length_append, List.length_replicate]
  refine ⟨[], rfl, fun nonce msg aad _ => ?_, fun nonce msg aad => hlen msg⟩
  change some ((msg ++ _).take ((msg ++ _).length - _)) = _
  rw [hlen, Nat.add_sub_cancel, List.take_left]

/-- The document of a member who is to be disabled. -/
def memberDoc : JsonValue :=
  .object [("secretKey".toList, .string "pw".toList),
    ("status".toList, .string "disabled".toList)]

/-- The map of that member alone. -/
def memberMap : JsonValue :=
  .object [("member".toList, userJson
    ⟨"member".toList, "pw".toList, "readwrite".toList, false, none⟩)]

/-- And the one of that member and a guest. -/
def guestsMap : JsonValue :=
  .object [("guest".toList, userJson
    ⟨"guest".toList, "pw".toList, "readonly".toList, true, none⟩),
    ("member".toList, userJson ⟨"member".toList, "pw".toList, "readwrite".toList, false, none⟩)]

/-- A server that knows three texts of JSON. -/
def clearServer : AdminServer where
  iam := plainStore
  ciphers := clearCiphers
  fromSlice b := .ok (if b = [0] then memberDoc else if b = [1] then memberMap else guestsMap)
  toVec
    | .object ((_, .string _) :: _) => [0]
    | .object [_] => [1]
    | _ => [2]

/-- The root of that server. -/
def rootIdentity : Identity := plainStore.root

/-- The member's document, encrypted by the root. -/
def memberBody : Bytes :=
  (clearCiphers.encryptData "rootpw".toList Madmin.Ciphers.zeros [0]).getD []

/-- The root adds the member. -/
def addsMember (io again : IamIo) : UserTurn where
  call := .admin .addUser (some rootIdentity)
    (fun name => if name = "accessKey".toList then some "member".toList else none) memberBody
  now := 0
  drawn := Madmin.Ciphers.zeros
  io := io
  again := again

/-- And lists the users. -/
def listsUsers : UserTurn where
  call := .admin .listUsers (some rootIdentity) (fun _ => none) []
  now := 0
  drawn := Madmin.Ciphers.zeros
  io := .fine
  again := .fine

/-- The console adds a guest. -/
def addsGuest : UserTurn where
  call := .console (.addUser "guest".toList "pw".toList "readonly".toList)
  now := 0
  drawn := Madmin.Ciphers.zeros
  io := .fine
  again := .fine

theorem adds_addsMember (io again : IamIo) :
    clearServer.AddsUser (addsMember io again) "member".toList memberDoc where
  request := ⟨some rootIdentity, _, memberBody, rfl, rfl,
    openBody_sealed rfl (reversible_clear _ Madmin.Ciphers.zeros _) rfl _⟩
  key := by decide
  notRoot := by decide
  secret := by decide

/-- After a guest has been added too, the member is listed as disabled. -/
theorem user_provisioned_member :
    ∃ blob plain members, (clearServer.handle listsUsers ((clearServer.machine none).final
        (clearServer.handle (addsMember .fine .fine) ⟨∅, none⟩).2
        ([addsGuest].map .request))).1 = .encrypted (some blob) ∧
      clearCiphers.decryptData "rootpw".toList blob = .ok plain ∧
      clearServer.fromSlice plain = .ok (.object members) ∧
      members.lookup "member".toList = some (userJson
        ⟨"member".toList, "pw".toList, "readwrite".toList, false, none⟩) := by
  have hworks : IamIo.fine.Works := ⟨rfl, rfl⟩
  have hstate := ((handle_adds (adds_addsMember .fine .fine) ⟨∅, none⟩).2 hworks).2
  have hmap : clearServer.userMap ((clearServer.machine none).final
      (clearServer.handle (addsMember .fine .fine) ⟨∅, none⟩).2
      ([addsGuest].map .request)).users =
      [("guest".toList, userJson ⟨"guest".toList, "pw".toList, "readonly".toList, true, none⟩),
        ("member".toList, userJson
          ⟨"member".toList, "pw".toList, "readwrite".toList, false, none⟩)] := by
    rw [hstate]
    rfl
  have hsecret : askedSecret memberDoc ≠ [] := by decide
  have hjson : clearServer.fromSlice (clearServer.toVec memberDoc) = .ok memberDoc := rfl
  have hguest : ∀ u ∈ [addsGuest], clearServer.subject u ≠ some "member".toList := by
    intro u hu
    rw [List.mem_singleton.1 hu]
    decide
  have hlisted := user_provisioned (A := clearServer) (t := addsMember .fine .fine)
    (r := Madmin.Ciphers.zeros) (k := "member".toList) rfl rfl hjson (reversible_clear _ _ _) rfl
    (by decide) (by decide) hsecret hworks ⟨∅, none⟩ none [addsGuest] hguest
  obtain ⟨blob, plain, members, hanswer, hplain, hread, hmember, -⟩ :=
    hlisted.2.2 listsUsers rootIdentity _ _ rfl (by rw [hmap]; rfl) (reversible_clear _ _ _)
  exact ⟨blob, plain, members, hanswer, hplain, hread, hmember⟩

/-- The root adds the member, and the second copy fails. -/
theorem disabled_user_returns_member :
    (clearServer.handle (addsMember .fine ⟨true, .refused⟩) ⟨∅, none⟩).1 = .done ∧
      (clearServer.iam.load none true (clearServer.handle (addsMember .fine ⟨true, .refused⟩)
        ⟨∅, none⟩).2.file).users["member".toList]? =
          some ⟨"pw".toList, "readwrite".toList, true, none⟩ := by
  obtain ⟨hdone, -, hfound⟩ := disabled_user_returns (adds_addsMember .fine ⟨true, .refused⟩) rfl
    ⟨∅, none⟩ none
  have hworks : IamIo.fine.Works := ⟨rfl, rfl⟩
  refine ⟨hdone.2 hworks, (hfound hworks).2.1 (fun h => (nomatch h.2)) ?_⟩
  rintro ⟨-, left, hleft⟩
  cases hleft

end AdminServer

end Kerplace
