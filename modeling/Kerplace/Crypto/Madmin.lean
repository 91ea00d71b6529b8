/-
# `Kerplace.Crypto.Madmin` — the stream of encrypted admin payloads

A payload is cut into packages of 16 KiB, each sealed under a nonce that holds its number
and with a flag that says whether it is the last.  The reader finds the packages by their
length alone: it takes full packages while more than one is left, and what remains is the
last.

The two ciphers and the key derivations are parameters.  In the second part the cipher is
ideal: under the stream's key it opens what was sealed in making the stream, and nothing
else.  So the reader accepts the packages in order and from the first on, and stops at the
package that was sealed as the last.
-/
import Kerplace.Lib.Chunks
import Kerplace.Storage.Types

namespace Kerplace

namespace Madmin

/-! ## The stream -/

/-- `ID_ARGON2_AESGCM`. -/
def ID_ARGON2_AESGCM : UInt8 := 0x00

/-- `ID_ARGON2_CHACHA`. -/
def ID_ARGON2_CHACHA : UInt8 := 0x01

/-- `ID_PBKDF2_AESGCM`. -/
def ID_PBKDF2_AESGCM : UInt8 := 0x02

/-- `SALT_LEN`. -/
def SALT_LEN : Nat := 32

/-- `NONCE_PREFIX_LEN`. -/
def NONCE_PREFIX_LEN : Nat := 8

/-- `BUF_SIZE`. -/
def BUF_SIZE : Nat := 16384

/-- `TAG_LEN`. -/
def TAG_LEN : Nat := 16

/-- The length of a full package. -/
def MAX_PKG : Nat := BUF_SIZE + TAG_LEN

/-- `MadminError`. -/
inductive MadminError where
  | format
  | unsupportedCipher (id : UInt8)
  | decrypt
  deriving DecidableEq

/-- An authenticated cipher. -/
structure Aead where
  sealWith : (key nonce msg aad : Bytes) → Bytes
  openWith : (key nonce ct aad : Bytes) → Option Bytes

/-- What the stream takes from libraries. -/
structure Ciphers where
  argon2id : Str → Bytes → Option Bytes
  pbkdf2 : Str → Bytes → Bytes
  aesGcm : Aead
  chacha : Aead

/-- What `encrypt_data` draws at random. -/
structure Drawn where
  salt : Bytes
  noncePrefix : Bytes
  length_salt : salt.length = SALT_LEN
  length_noncePrefix : noncePrefix.length = NONCE_PREFIX_LEN

/-- `u32::to_le_bytes`. -/
def u32LE (n : Nat) : Bytes :=
  [UInt8.ofNat n, UInt8.ofNat (n / 256), UInt8.ofNat (n / 65536), UInt8.ofNat (n / 16777216)]

/-- `package_nonce`. -/
def packageNonce (noncePrefix : Bytes) (seq : Nat) : Bytes := noncePrefix ++ u32LE seq

/-- `package_aad`. -/
def packageAad (flag : UInt8) (refTag : Bytes) : Bytes := flag :: refTag

/-- A data package before it is sealed. -/
structure Package where
  seq : Nat
  flag : UInt8
  msg : Bytes

/-- The packages of the pieces of a payload: the last has the flag. -/
def packages : Nat → List Bytes → List Package
  | _, [] => []
  | seq, [chunk] => [⟨seq, 0x80, chunk⟩]
  | seq, chunk :: chunk' :: rest => ⟨seq, 0x00, chunk⟩ :: packages (seq + 1) (chunk' :: rest)

/-- The pieces of a payload: one empty piece of an empty payload. -/
def pieces (data : Bytes) : List Bytes := if data = [] then [[]] else chunks BUF_SIZE data

namespace Ciphers

variable (L : Ciphers)

/-- `derive_key`. -/
def deriveKey (id : UInt8) (password : Str) (salt : Bytes) : Except MadminError Bytes :=
  if id = ID_ARGON2_AESGCM ∨ id = ID_ARGON2_CHACHA then
    match L.argon2id password salt with
    | some key => .ok key
    | none => .error .format
  else if id = ID_PBKDF2_AESGCM then .ok (L.pbkdf2 password salt)
  else .error (.unsupportedCipher id)

/-- The cipher of an id. -/
def aead (id : UInt8) : Aead := if id = ID_ARGON2_CHACHA then L.chacha else L.aesGcm

/-- `seal_package`. -/
def sealPackage (id : UInt8) (key nonce msg aad : Bytes) : Bytes :=
  (L.aead id).sealWith key nonce msg aad

/-- `open_package`. -/
def openPackage (id : UInt8) (key nonce ct aad : Bytes) : Except MadminError Bytes :=
  match (L.aead id).openWith key nonce ct aad with
  | some msg => .ok msg
  | none => .error .decrypt

/-- `reference_tag`. -/
def referenceTag (id : UInt8) (key noncePrefix : Bytes) : Bytes :=
  L.sealPackage id key (packageNonce noncePrefix 0) [] []

/-- A package, sealed. -/
def sealed (id : UInt8) (key noncePrefix : Bytes) (p : Package) : Bytes :=
  L.sealPackage id key (packageNonce noncePrefix p.seq) p.msg
    (packageAad p.flag (L.referenceTag id key noncePrefix))

/-- `encrypt_data`; nothing where the key derivation fails. -/
def encryptData (password : Str) (r : Drawn) (data : Bytes) : Option Bytes :=
  match L.deriveKey ID_ARGON2_AESGCM password r.salt with
  | .ok key => some (r.salt ++ ID_ARGON2_AESGCM :: r.noncePrefix ++
      (packages 1 (pieces data)).flatMap (L.sealed ID_ARGON2_AESGCM key r.noncePrefix))
  | .error _ => none

/-- The loop of `decrypt_data`. -/
def openStream (id : UInt8) (key noncePrefix refTag : Bytes) (seq : Nat) (rest : Bytes) :
    Except MadminError Bytes :=
  if rest.length ≤ MAX_PKG then
    if rest.length < TAG_LEN then .error .format
    else L.openPackage id key (packageNonce noncePrefix seq) rest (packageAad 0x80 refTag)
  else
    match L.openPackage id key (packageNonce noncePrefix seq) (rest.take MAX_PKG)
        (packageAad 0x00 refTag) with
    | .error e => .error e
    | .ok out =>
        match openStream id key noncePrefix refTag (seq + 1) (rest.drop MAX_PKG) with
        | .error e => .error e
        | .ok more => .ok (out ++ more)
termination_by rest.length
decreasing_by
  rw [List.length_drop]
  have : 0 < MAX_PKG := by decide
  omega

/-- `decrypt_data`. -/
def decryptData (password : Str) (blob : Bytes) : Except MadminError Bytes :=
  let header := SALT_LEN + 1 + NONCE_PREFIX_LEN
  if blob.length < header then .error .format
  else
    let salt := blob.take SALT_LEN
    let id := (blob.drop SALT_LEN).headD 0
    let noncePrefix := (blob.drop (SALT_LEN + 1)).take NONCE_PREFIX_LEN
    match L.deriveKey id password salt with
    | .error e => .error e
    | .ok key =>
        L.openStream id key noncePrefix (L.referenceTag id key noncePrefix) 1
          (blob.drop header)

end Ciphers

/-! ## The cipher -/

/-- What is sealed in making a stream: the empty message of the reference tag, and the
packages. -/
def calls (noncePrefix refTag : Bytes) (ps : List Package) : List (Bytes × Bytes × Bytes) :=
  (packageNonce noncePrefix 0, [], []) ::
    ps.map fun p => (packageNonce noncePrefix p.seq, p.msg, packageAad p.flag refTag)

/-- Opening undoes sealing, and a tag is what the two lengths differ by. -/
structure Aead.Opens (a : Aead) (key : Bytes) (calls : List (Bytes × Bytes × Bytes)) : Prop
    where
  open_seal : ∀ nonce msg aad, (nonce, msg, aad) ∈ calls →
    a.openWith key nonce (a.sealWith key nonce msg aad) aad = some msg
  length_seal : ∀ nonce msg aad, (a.sealWith key nonce msg aad).length = msg.length + TAG_LEN

/-- An ideal cipher opens only what was sealed. -/
def Aead.OpensOnly (a : Aead) (key : Bytes) (calls : List (Bytes × Bytes × Bytes)) : Prop :=
  ∀ nonce ct aad msg, a.openWith key nonce ct aad = some msg →
    (nonce, msg, aad) ∈ calls ∧ ct = a.sealWith key nonce msg aad

/-! ## The pieces and their packages -/

/-- Pieces that are full but for the last. -/
inductive Cut : List Bytes → Prop
  | last {c : Bytes} : c.length ≤ BUF_SIZE → Cut [c]
  | cons {c c' : Bytes} {cs : List Bytes} : c.length = BUF_SIZE → Cut (c' :: cs) →
      Cut (c :: c' :: cs)

theorem cut_pieces (data : Bytes) : Cut (pieces data) := by
  have hblocked : ∀ {cs : List Bytes}, Blocked BUF_SIZE cs → cs ≠ [] → Cut cs := by
    intro cs hcs
    induction hcs with
    | nil => exact fun h => absurd rfl h
    | last _ hle => exact fun _ => .last hle
    | @cons b bs hb _ ih =>
      intro _
      cases bs with
      | nil => exact .last hb.le
      | cons b' bs => exact .cons hb (ih (List.cons_ne_nil _ _))
  unfold pieces
  split
  · exact .last (Nat.zero_le _)
  · rename_i hne
    exact hblocked (blocked_chunks (by decide) data)
      fun hnil => hne ((chunks_eq_nil (by decide)).1 hnil)

theorem flatten_pieces (data : Bytes) : (pieces data).flatten = data := by
  unfold pieces
  split
  · rename_i hnil
    rw [hnil]
    rfl
  · exact flatten_chunks (by decide) data

theorem u32LE_injective {m n : Nat} (hm : m < 2 ^ 32) (hn : n < 2 ^ 32)
    (h : u32LE m = u32LE n) : m = n := by
  simp only [u32LE, List.cons.injEq, ← UInt8.toNat_inj, UInt8.toNat_ofNat'] at h
  omega

theorem packageNonce_injective {noncePrefix : Bytes} {m n : Nat} (hm : m < 2 ^ 32)
    (hn : n < 2 ^ 32) (h : packageNonce noncePrefix m = packageNonce noncePrefix n) : m = n :=
  u32LE_injective hm hn (List.append_cancel_left h)

theorem seq_of_mem_packages {seq : Nat} {cs : List Bytes} {p : Package}
    (h : p ∈ packages seq cs) : seq ≤ p.seq ∧ p.seq < seq + cs.length := by
  induction seq, cs using packages.induct with
  | case1 seq => exact absurd h List.not_mem_nil
  | case2 seq chunk =>
    rw [List.mem_singleton.1 h]
    exact ⟨le_rfl, Nat.lt_succ_self _⟩
  | case3 seq chunk chunk' rest ih =>
    rcases List.mem_cons.1 h with rfl | h
    · exact ⟨le_rfl, Nat.lt_add_of_pos_right (Nat.succ_pos _)⟩
    · obtain ⟨hlow, hhigh⟩ := ih h
      rw [List.length_cons]
      omega

theorem length_flatten_le {bs bs' : List Bytes} (h : bs.Sublist bs') :
    bs.flatten.length ≤ bs'.flatten.length := by
  induction h with
  | slnil => exact le_rfl
  | cons b _ ih =>
    rw [List.flatten_cons, List.length_append]
    exact Nat.le_add_left_of_le ih
  | cons_cons b _ ih =>
    rw [List.flatten_cons, List.flatten_cons, List.length_append, List.length_append]
    exact Nat.add_le_add_left ih _

theorem length_flatten_lt {bs bs' : List Bytes} (h : bs.Sublist bs') (hne : bs ≠ bs')
    (hpos : ∀ b ∈ bs', 0 < b.length) : bs.flatten.length < bs'.flatten.length := by
  induction h with
  | slnil => exact absurd rfl hne
  | @cons l₁ l₂ b hsub _ =>
    have hle := length_flatten_le hsub
    have hb := hpos b List.mem_cons_self
    rw [List.flatten_cons, List.length_append]
    omega
  | @cons_cons l₁ l₂ b _ ih =>
    have hlt := ih (fun heq => hne (by rw [heq])) fun x hx => hpos x (List.mem_cons_of_mem _ hx)
    rw [List.flatten_cons, List.flatten_cons, List.length_append, List.length_append]
    omega

namespace Ciphers

variable {L : Ciphers}

theorem sealPackage_aes (key nonce msg aad : Bytes) :
    L.sealPackage ID_ARGON2_AESGCM key nonce msg aad = L.aesGcm.sealWith key nonce msg aad := rfl

/-- The salt, the id and the nonce prefix. -/
def header (r : Drawn) : Bytes := r.salt ++ ID_ARGON2_AESGCM :: r.noncePrefix

theorem length_header (r : Drawn) : (header r).length = SALT_LEN + 1 + NONCE_PREFIX_LEN := by
  rw [header, List.length_append, List.length_cons, r.length_salt, r.length_noncePrefix,
    Nat.add_right_comm, Nat.add_assoc]

variable (L) in
/-- The packages of a payload, sealed. -/
def sealedPackages (key : Bytes) (r : Drawn) (data : Bytes) : List Bytes :=
  (packages 1 (pieces data)).map (L.sealed ID_ARGON2_AESGCM key r.noncePrefix)

variable (L) in
/-- What is sealed for a payload. -/
def callsOf (key : Bytes) (r : Drawn) (data : Bytes) : List (Bytes × Bytes × Bytes) :=
  calls r.noncePrefix (L.referenceTag ID_ARGON2_AESGCM key r.noncePrefix)
    (packages 1 (pieces data))

theorem encryptData_eq {password : Str} {r : Drawn} {key : Bytes}
    (hkey : L.argon2id password r.salt = some key) (data : Bytes) :
    L.encryptData password r data =
      some (header r ++ (L.sealedPackages key r data).flatten) := by
  have hderive : L.deriveKey ID_ARGON2_AESGCM password r.salt = .ok key := by
    rw [deriveKey, if_pos (.inl rfl), hkey]
  rw [encryptData, hderive]
  rfl

/-- Behind a stream's own header, the loop reads with the stream's key. -/
theorem decryptData_header {password : Str} {r : Drawn} {key : Bytes}
    (hkey : L.argon2id password r.salt = some key) (stream : Bytes) :
    L.decryptData password (header r ++ stream) =
      L.openStream ID_ARGON2_AESGCM key r.noncePrefix
        (L.referenceTag ID_ARGON2_AESGCM key r.noncePrefix) 1 stream := by
  have hlen : ¬ (header r ++ stream).length < SALT_LEN + 1 + NONCE_PREFIX_LEN := by
    rw [List.length_append, length_header]
    omega
  have hparts : header r ++ stream =
      r.salt ++ (ID_ARGON2_AESGCM :: (r.noncePrefix ++ stream)) := by
    rw [header, List.append_assoc, List.cons_append]
  have hsalt : (header r ++ stream).take SALT_LEN = r.salt := by
    rw [hparts]
    exact List.take_left' r.length_salt
  have hid : (header r ++ stream).drop SALT_LEN =
      ID_ARGON2_AESGCM :: (r.noncePrefix ++ stream) := by
    rw [hparts]
    exact List.drop_left' r.length_salt
  have hprefix : ((header r ++ stream).drop (SALT_LEN + 1)).take NONCE_PREFIX_LEN =
      r.noncePrefix := by
    rw [← List.drop_drop, hid, List.drop_succ_cons, List.drop_zero]
    exact List.take_left' r.length_noncePrefix
  have hstream : (header r ++ stream).drop (SALT_LEN + 1 + NONCE_PREFIX_LEN) = stream :=
    List.drop_left' (length_header r)
  have hderive : L.deriveKey ID_ARGON2_AESGCM password r.salt = .ok key := by
    rw [deriveKey, if_pos (.inl rfl), hkey]
  rw [decryptData, if_neg hlen]
  simp only [hsalt, hid, hprefix, hstream, List.headD_cons, hderive]

section Loop

variable {key noncePrefix : Bytes} {seq : Nat} {cs : List Bytes}

theorem length_sealed
    (hlen : ∀ nonce msg aad, (L.aesGcm.sealWith key nonce msg aad).length = msg.length + TAG_LEN)
    (p : Package) :
    (L.sealed ID_ARGON2_AESGCM key noncePrefix p).length = p.msg.length + TAG_LEN := by
  rw [sealed, sealPackage_aes, hlen]

theorem flatten_sealed_pos {c : Bytes}
    (hlen : ∀ nonce msg aad, (L.aesGcm.sealWith key nonce msg aad).length = msg.length + TAG_LEN) :
    0 < ((packages seq (c :: cs)).map
      (L.sealed ID_ARGON2_AESGCM key noncePrefix)).flatten.length := by
  obtain ⟨p, ps, hps⟩ : ∃ p ps, packages seq (c :: cs) = p :: ps := by
    cases cs with
    | nil => exact ⟨_, _, rfl⟩
    | cons c' cs => exact ⟨_, _, rfl⟩
  rw [hps, List.map_cons, List.flatten_cons, List.length_append, length_sealed hlen]
  exact Nat.lt_of_lt_of_le (by decide : 0 < TAG_LEN)
    (le_trans (Nat.le_add_left _ _) (Nat.le_add_right _ _))

/-- The reader takes the packages apart again. -/
theorem openStream_packages (hcut : Cut cs)
    (hlen : ∀ nonce msg aad, (L.aesGcm.sealWith key nonce msg aad).length = msg.length + TAG_LEN)
    (hopen : ∀ p ∈ packages seq cs, L.openPackage ID_ARGON2_AESGCM key
      (packageNonce noncePrefix p.seq) (L.sealed ID_ARGON2_AESGCM key noncePrefix p)
      (packageAad p.flag (L.referenceTag ID_ARGON2_AESGCM key noncePrefix)) = .ok p.msg) :
    L.openStream ID_ARGON2_AESGCM key noncePrefix
      (L.referenceTag ID_ARGON2_AESGCM key noncePrefix) seq
      ((packages seq cs).map (L.sealed ID_ARGON2_AESGCM key noncePrefix)).flatten =
        .ok cs.flatten := by
  induction hcut generalizing seq with
  | @last c hc =>
    have hsealed : (L.sealed ID_ARGON2_AESGCM key noncePrefix ⟨seq, 0x80, c⟩).length =
        c.length + TAG_LEN := length_sealed hlen _
    have hopened := hopen ⟨seq, 0x80, c⟩ (List.mem_singleton_self _)
    dsimp only at hopened
    rw [packages, List.map_singleton, List.flatten_singleton, List.flatten_singleton, openStream,
      if_pos (by rw [hsealed]; exact Nat.add_le_add_right hc _),
      if_neg (by rw [hsealed]; omega)]
    exact hopened
  | @cons c c' cs hc hcut ih =>
    have hsealed : (L.sealed ID_ARGON2_AESGCM key noncePrefix ⟨seq, 0x00, c⟩).length =
        c.length + TAG_LEN := length_sealed hlen _
    have hopened := hopen ⟨seq, 0x00, c⟩ List.mem_cons_self
    dsimp only at hopened
    have hmore := ih fun p hp => hopen p (List.mem_cons_of_mem _ hp)
    have hfull : (L.sealed ID_ARGON2_AESGCM key noncePrefix ⟨seq, 0x00, c⟩).length = MAX_PKG := by
      rw [hsealed, hc]
      rfl
    have hlong : ¬ (L.sealed ID_ARGON2_AESGCM key noncePrefix ⟨seq, 0x00, c⟩ ++
        ((packages (seq + 1) (c' :: cs)).map
          (L.sealed ID_ARGON2_AESGCM key noncePrefix)).flatten).length ≤ MAX_PKG := by
      rw [List.length_append, hfull, not_le]
      exact Nat.lt_add_of_pos_right (flatten_sealed_pos hlen)
    rw [packages, List.map_cons, List.flatten_cons, openStream, if_neg hlong,
      List.take_left' hfull, List.drop_left' hfull, hopened]
    dsimp only
    rw [hmore]
    rfl

/-- The cipher opens the packages only, each under its number and flag. -/
def OpensPackages (L : Ciphers) (key noncePrefix : Bytes) (seq : Nat) (ps : List Package) :
    Prop :=
  ∀ seq' ct flag msg, seq ≤ seq' → seq' < 2 ^ 32 →
    L.openPackage ID_ARGON2_AESGCM key (packageNonce noncePrefix seq') ct
      (packageAad flag (L.referenceTag ID_ARGON2_AESGCM key noncePrefix)) = .ok msg →
    ∃ p ∈ ps, p.seq = seq' ∧ p.flag = flag ∧ ct = L.sealed ID_ARGON2_AESGCM key noncePrefix p

/-- What the reader accepts is the packages, in order and all of them. -/
theorem eq_of_openStream (hcut : Cut cs) (hbound : seq + cs.length ≤ 2 ^ 32)
    (honly : OpensPackages L key noncePrefix seq (packages seq cs)) {rest out : Bytes}
    (h : L.openStream ID_ARGON2_AESGCM key noncePrefix
      (L.referenceTag ID_ARGON2_AESGCM key noncePrefix) seq rest = .ok out) :
    rest = ((packages seq cs).map (L.sealed ID_ARGON2_AESGCM key noncePrefix)).flatten := by
  induction hcut generalizing seq rest out with
  | @last c hc =>
    have hseq : seq < 2 ^ 32 := hbound
    rw [openStream] at h
    split at h
    · split at h
      · cases h
      obtain ⟨p, hp, -, -, rfl⟩ := honly seq rest 0x80 out le_rfl hseq h
      rw [List.mem_singleton.1 hp, packages, List.map_singleton, List.flatten_singleton]
    · split at h
      · cases h
      · rename_i hfirst
        -- more is left than the last package, which has the flag
        obtain ⟨p, hp, -, hflag, -⟩ := honly seq _ 0x00 _ le_rfl hseq hfirst
        rw [List.mem_singleton.1 hp] at hflag
        exact absurd hflag (show (0x80 : UInt8) ≠ 0x00 by decide)
  | @cons c c' cs hc hcut ih =>
    have hseq : seq < 2 ^ 32 := by
      simp only [List.length_cons] at hbound
      omega
    have hfirst {p : Package} (hp : p ∈ packages seq (c :: c' :: cs)) (hpseq : p.seq = seq) :
        p = ⟨seq, 0x00, c⟩ := by
      rcases List.mem_cons.1 hp with rfl | hp
      · rfl
      · have := (seq_of_mem_packages hp).1
        omega
    have honly' : OpensPackages L key noncePrefix (seq + 1) (packages (seq + 1) (c' :: cs)) := by
      intro seq' ct flag msg hle hlt hopened
      obtain ⟨p, hp, hpseq, hrest⟩ := honly seq' ct flag msg (by omega) hlt hopened
      rcases List.mem_cons.1 hp with rfl | hp
      · dsimp only at hpseq
        omega
      · exact ⟨p, hp, hpseq, hrest⟩
    rw [openStream] at h
    split at h
    · split at h
      · cases h
      -- a package that is not the last does not have the flag
      obtain ⟨p, hp, hpseq, hflag, -⟩ := honly seq rest 0x80 out le_rfl hseq h
      rw [hfirst hp hpseq] at hflag
      exact absurd hflag (show (0x00 : UInt8) ≠ 0x80 by decide)
    · split at h
      · cases h
      rename_i hopened
      split at h
      · cases h
      rename_i hmore
      obtain ⟨p, hp, hpseq, -, htake⟩ := honly seq _ 0x00 _ le_rfl hseq hopened
      have hdrop := ih (by simp only [List.length_cons] at hbound ⊢; omega) honly' hmore
      rw [hfirst hp hpseq] at htake
      rw [packages, List.map_cons, List.flatten_cons, ← htake, ← hdrop, List.take_append_drop]

end Loop

/-- An ideal cipher opens a payload's packages only. -/
theorem opensPackages_of_only {key : Bytes} {r : Drawn} {data : Bytes}
    (hsize : (pieces data).length < 2 ^ 32 - 1)
    (honly : L.aesGcm.OpensOnly key (L.callsOf key r data)) :
    OpensPackages L key r.noncePrefix 1 (packages 1 (pieces data)) := by
  intro seq ct flag msg hpos hlt hopened
  have hopened : L.aesGcm.openWith key (packageNonce r.noncePrefix seq) ct
      (packageAad flag (L.referenceTag ID_ARGON2_AESGCM key r.noncePrefix)) = some msg := by
    unfold openPackage at hopened
    split at hopened
    · rename_i msg' hsome
      cases hopened
      exact hsome
    · cases hopened
  obtain ⟨hcall, rfl⟩ := honly _ _ _ _ hopened
  rcases List.mem_cons.1 hcall with hcall | hcall
  · -- the number of the reference tag is no package's
    have hzero := packageNonce_injective hlt (by decide) (Prod.mk.inj hcall).1
    omega
  · obtain ⟨p, hp, hcall⟩ := List.mem_map.1 hcall
    obtain ⟨hnonce, hcall⟩ := Prod.mk.inj hcall
    obtain ⟨rfl, haad⟩ := Prod.mk.inj hcall
    have hseq := (seq_of_mem_packages hp).2
    obtain rfl := packageNonce_injective (by omega) hlt hnonce
    obtain rfl := (List.cons.inj haad).1
    exact ⟨p, hp, rfl, rfl, rfl⟩

/-- An encrypted payload reads back as itself; and with an ideal cipher a stream cut short, a
stream with anything behind it, and one put together anew of its packages is refused unless
it is the same stream again, which with packages left out or doubled it never is. -/
theorem madmin_stream_exact (L : Ciphers) (password : Str) (r : Drawn) {key : Bytes}
    (hkey : L.argon2id password r.salt = some key) (data : Bytes)
    (hsize : (pieces data).length < 2 ^ 32 - 1)
    (hopens : L.aesGcm.Opens key (L.callsOf key r data)) :
    ∃ blob, L.encryptData password r data = some blob ∧
      L.decryptData password blob = .ok data ∧
      (L.aesGcm.OpensOnly key (L.callsOf key r data) →
        (∀ blob', blob' <+: blob → blob' ≠ blob →
          ∃ e, L.decryptData password blob' = .error e) ∧
        (∀ extra, extra ≠ [] → ∃ e, L.decryptData password (blob ++ extra) = .error e) ∧
        ∀ ps, (∀ b ∈ ps, b ∈ L.sealedPackages key r data) →
          (header r ++ ps.flatten ≠ blob →
            ∃ e, L.decryptData password (header r ++ ps.flatten) = .error e) ∧
          (ps.Sublist (L.sealedPackages key r data) ∨
              (L.sealedPackages key r data).Sublist ps →
            ps ≠ L.sealedPackages key r data → header r ++ ps.flatten ≠ blob)) := by
  have hcut := cut_pieces data
  refine ⟨_, encryptData_eq hkey data, ?_, fun honly => ?_⟩
  · rw [decryptData_header hkey, sealedPackages, openStream_packages hcut hopens.length_seal,
      flatten_pieces]
    intro p hp
    have hcall := hopens.open_seal _ _ _ (List.mem_cons_of_mem _ (List.mem_map_of_mem hp))
    rw [openPackage, sealed, sealPackage_aes]
    exact congrArg (fun res : Option Bytes => match res with
      | some msg => Except.ok msg
      | none => .error MadminError.decrypt) hcall
  -- no other stream is accepted behind the header
  have hrefused (stream : Bytes) (hne : header r ++ stream ≠
      header r ++ (L.sealedPackages key r data).flatten) :
      ∃ e, L.decryptData password (header r ++ stream) = .error e := by
    cases hout : L.decryptData password (header r ++ stream) with
    | error e => exact ⟨e, rfl⟩
    | ok out =>
      rw [decryptData_header hkey] at hout
      have hstream := eq_of_openStream hcut (by omega) (opensPackages_of_only hsize honly) hout
      exact absurd (congrArg (header r ++ ·) hstream) hne
  refine ⟨fun blob' hpre hne => ?_, fun extra hextra => ?_, fun ps hps => ⟨hrefused _, ?_⟩⟩
  · by_cases hshort : blob'.length < SALT_LEN + 1 + NONCE_PREFIX_LEN
    · exact ⟨.format, by rw [decryptData, if_pos hshort]⟩
    · obtain ⟨stream, rfl⟩ : header r <+: blob' := List.prefix_of_prefix_length_le
        (List.prefix_append _ _) hpre (by rw [length_header]; omega)
      exact hrefused stream hne
  · rw [List.append_assoc]
    refine hrefused _ fun heq => hextra ?_
    exact List.append_cancel_left ((List.append_cancel_left heq).trans (List.append_nil _).symm)
  · intro hsub hne heq
    have hflat := congrArg List.length (List.append_cancel_left heq)
    have hpos : ∀ b ∈ L.sealedPackages key r data, 0 < b.length := by
      intro b hb
      obtain ⟨p, -, rfl⟩ := List.mem_map.1 hb
      rw [length_sealed hopens.length_seal]
      exact Nat.lt_of_lt_of_le (by decide : 0 < TAG_LEN) (Nat.le_add_left _ _)
    rcases hsub with hsub | hsub
    · exact absurd hflat (length_flatten_lt hsub hne hpos).ne
    · exact absurd hflat (length_flatten_lt hsub hne.symm fun b hb => hpos b (hps b hb)).ne'

/-- Zeros for what is drawn. -/
def zeros : Drawn :=
  ⟨List.replicate SALT_LEN 0, List.replicate NONCE_PREFIX_LEN 0, List.length_replicate,
    List.length_replicate⟩

/-- A cipher with a tag of zeros, which opens what is on record. -/
def recorded (calls : List (Bytes × Bytes × Bytes)) : Aead where
  sealWith _ _ msg _ := msg ++ List.replicate TAG_LEN 0
  openWith _ nonce ct aad := calls.findSome? fun c =>
    if c.1 = nonce ∧ c.2.2 = aad ∧ ct = c.2.1 ++ List.replicate TAG_LEN 0 then some c.2.1 else none

theorem opens_recorded (key : Bytes) (calls : List (Bytes × Bytes × Bytes)) :
    (recorded calls).Opens key calls where
  open_seal := by
    intro nonce msg aad hcall
    cases hopened : (recorded calls).openWith key nonce (msg ++ List.replicate TAG_LEN 0) aad with
    | none =>
      have hnone := List.findSome?_eq_none_iff.1 hopened _ hcall
      rw [if_pos ⟨rfl, rfl, rfl⟩] at hnone
      cases hnone
    | some msg' =>
      obtain ⟨c, -, hc⟩ := List.exists_of_findSome?_eq_some hopened
      obtain ⟨⟨-, -, hct⟩, hmsg⟩ := Option.ite_none_right_eq_some.1 hc
      refine hopened.trans ?_
      rw [← hmsg, List.append_cancel_right hct]
  length_seal := fun nonce msg aad =>
    List.length_append.trans (congrArg _ List.length_replicate)

theorem opensOnly_recorded (key : Bytes) (calls : List (Bytes × Bytes × Bytes)) :
    (recorded calls).OpensOnly key calls := by
  intro nonce ct aad msg hopened
  obtain ⟨c, hcall, hc⟩ := List.exists_of_findSome?_eq_some hopened
  obtain ⟨⟨rfl, rfl, rfl⟩, hmsg⟩ := Option.ite_none_right_eq_some.1 hc
  obtain rfl := Option.some.inj hmsg
  exact ⟨hcall, rfl⟩

/-- A full piece and a short one. -/
def twoPieces : List Bytes := [1 :: List.replicate (BUF_SIZE - 1) 0, [2]]

theorem pieces_twoPieces : pieces twoPieces.flatten = twoPieces := by
  have hfull : (1 :: List.replicate (BUF_SIZE - 1) 0 : Bytes).length = BUF_SIZE := by
    rw [List.length_cons, List.length_replicate]
    decide
  have hblocked : Blocked BUF_SIZE twoPieces := .cons hfull (.last (by decide) (by decide))
  have hne : twoPieces.flatten ≠ [] := by
    rw [twoPieces, List.flatten_cons, List.cons_append]
    exact List.cons_ne_nil _ _
  rw [pieces, if_neg hne, chunks_flatten (by decide) hblocked]

/-- The ciphers of a server that sealed these two. -/
def twoSealed : Ciphers :=
  let calls := calls zeros.noncePrefix (List.replicate TAG_LEN 0) (packages 1 twoPieces)
  ⟨fun _ _ => some [], fun _ _ => [], recorded calls, recorded calls⟩

/-- A payload of two packages: its stream reads back; cut short by a byte, with a byte behind it,
with its packages the other way round, with the last left out or doubled, it is refused. -/
theorem madmin_stream_exact_two :
    ∃ blob, twoSealed.encryptData "secret".toList zeros twoPieces.flatten = some blob ∧
      twoSealed.decryptData "secret".toList blob = .ok twoPieces.flatten ∧
      ∀ blob' ∈ blob.dropLast :: (blob ++ [0]) :: [[1, 0], [0], [0, 1, 1]].map (fun order =>
          header zeros ++ (order.map fun i =>
            (twoPieces.getD i []) ++ List.replicate TAG_LEN 0).flatten),
        ∃ e, twoSealed.decryptData "secret".toList blob' = .error e := by
  have hcalls : twoSealed.callsOf [] zeros twoPieces.flatten =
      calls zeros.noncePrefix (List.replicate TAG_LEN 0) (packages 1 twoPieces) := by
    rw [callsOf, pieces_twoPieces]
    rfl
  have hsealed : twoSealed.sealedPackages [] zeros twoPieces.flatten =
      twoPieces.map (· ++ List.replicate TAG_LEN 0) := by
    rw [sealedPackages, pieces_twoPieces]
    rfl
  obtain ⟨blob, hblob, hplain, hedited⟩ := madmin_stream_exact twoSealed "secret".toList zeros
    rfl twoPieces.flatten (by rw [pieces_twoPieces]; decide)
    (hcalls ▸ opens_recorded [] _)
  obtain ⟨hcut, hextra, hpackages⟩ := hedited (hcalls ▸ opensOnly_recorded [] _)
  rw [hsealed] at hpackages
  have hbytes : blob = header zeros ++ (twoPieces.map (· ++ List.replicate TAG_LEN 0)).flatten := by
    rw [← hsealed]
    exact Option.some.inj (hblob.symm.trans (encryptData_eq rfl _))
  have hne : blob ≠ [] := by
    rw [hbytes]
    exact List.cons_ne_nil _ _
  refine ⟨blob, hblob, hplain, fun blob' hblob' => ?_⟩
  rcases List.mem_cons.1 hblob' with rfl | hblob'
  · refine hcut _ (List.dropLast_prefix _) fun heq => ?_
    have hlen := congrArg List.length heq
    have hpos := List.length_pos_iff.2 hne
    rw [List.length_dropLast] at hlen
    omega
  rcases List.mem_cons.1 hblob' with rfl | hblob'
  · exact hextra [0] (List.cons_ne_nil _ _)
  obtain ⟨order, horder, rfl⟩ := List.mem_map.1 hblob'
  have hlookup (i : Nat) (hi : i < 2) : twoPieces.getD i [] ++ List.replicate TAG_LEN 0 ∈
      twoPieces.map (· ++ List.replicate TAG_LEN 0) := by
    refine List.mem_map_of_mem ?_
    obtain rfl | rfl : i = 0 ∨ i = 1 := by omega
    · exact List.mem_cons_self
    · exact List.mem_cons_of_mem _ List.mem_cons_self
  simp only [List.mem_cons, List.not_mem_nil, or_false] at horder
  have hall : ∀ i ∈ order, i < 2 := by
    rcases horder with rfl | rfl | rfl
    · decide
    · decide
    · decide
  obtain ⟨hrefused, hcounted⟩ := hpackages
    (order.map fun i => twoPieces.getD i [] ++ List.replicate TAG_LEN 0) fun b hb => by
      obtain ⟨i, hi, rfl⟩ := List.mem_map.1 hb
      exact hlookup i (hall i hi)
  refine hrefused ?_
  rcases horder with rfl | rfl | rfl
  · -- the short piece comes first
    rw [hbytes]
    intro heq
    have hhead := congrArg List.head? (List.append_cancel_left heq)
    cases hhead
  · refine hcounted (.inl ?_) ?_
    · exact .cons_cons _ (.cons _ .slnil)
    · exact fun heq => nomatch congrArg List.length heq
  · refine hcounted (.inr ?_) ?_
    · exact .cons_cons _ (.cons_cons _ (.cons _ .slnil))
    · exact fun heq => nomatch congrArg List.length heq

end Ciphers

end Madmin

end Kerplace
