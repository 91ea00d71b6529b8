/-
# `Kerplace.Crypto.KeyFiles` — key material over restarts

The two providers that keep something on the host read it when the server starts, and make
and store it on the first start.  What is there may be cut short or be no key at all, reads
and writes may fail, and a start may end anywhere, a write half done.

Whether a file is there is told from whether it could be read.  So a start that cannot read
a key makes a new one, and writes it over the old.
-/
import Kerplace.Crypto.Container
import Kerplace.Auth.Framing
import Kerplace.Erasure.Layout
import Kerplace.Lib.Machine

namespace Kerplace

/-! ## The key directory -/

/-- The files of the key directory. -/
inductive SysFile where
  | masterKey
  | pqBin
  | passphraseSalt
  | passphraseCheck
  deriving DecidableEq

/-- What the directory holds. -/
abbrev KeyDir : Type := SysFile → Option Bytes

/-- How a write ends: done; or failed, with the file as it was or with the first bytes in
it.  A start that stops there has failed the write. -/
inductive WriteFate where
  | done
  | failed (kept : Option Nat)

/-- `std::fs::write`. -/
def writeKeyFile (fate : WriteFate) (f : SysFile) (data : Bytes) (dir : KeyDir) :
    Bool × KeyDir :=
  match fate with
  | .done => (true, Function.update dir f (some data))
  | .failed none => (false, dir)
  | .failed (some j) => (false, Function.update dir f (some (data.take j)))

def MLKEM_SEED_LEN : Nat := 64
def MLKEM_EK_LEN : Nat := 1568
def SALT_LEN : Nat := 16
def NONCE_LEN : Nat := 12
def ALG_AES_MASTER : UInt8 := 1
def ALG_MLKEM : UInt8 := 2

/-- The text whose seal tells a right passphrase. -/
def SENTINEL : Bytes := utf8 "KerPlace.passphrase.verifier.v1!".toList

/-- One start of the server: which reads succeed, which directories can be made, how writes
end, whether the start comes back, and what is drawn at random. -/
structure Start where
  read : SysFile → Bool
  mkdir : SysFile → Bool
  fate : SysFile → WriteFate
  returns : Bool
  master : Bytes
  seed : Bytes
  salt : Bytes
  nonce : Bytes
  length_master : master.length = 32
  length_seed : seed.length = MLKEM_SEED_LEN
  length_salt : salt.length = SALT_LEN
  length_nonce : nonce.length = NONCE_LEN

/-- What a start reads of a file. -/
def Start.reads (e : Start) (dir : KeyDir) (f : SysFile) : Option Bytes :=
  if e.read f then dir f else none

/-! ## The providers -/

/-- What the providers take from libraries: AES-256-GCM, ML-KEM-1024 and Argon2id. -/
structure KeyCiphers where
  sealWith : (key nonce msg : Bytes) → Bytes
  openWith : (key nonce ct : Bytes) → Option Bytes
  encapsulationKey : (seed : Bytes) → Bytes
  ekFromSlice : Bytes → Bool
  encapsulate : (ek draw : Bytes) → Bytes × Bytes
  decapsulate : (seed ct : Bytes) → Option Bytes
  argon2id : (passphrase salt : Bytes) → Option Bytes

/-- `PqKeypair`. -/
structure PqKeypair where
  seed : Bytes
  ek : Bytes
  deriving DecidableEq

/-- A provider that completed its start. -/
inductive KeyProvider where
  | file (master : Bytes) (pq : PqKeypair)
  | passphrase (kek : Bytes)
  deriving DecidableEq

/-- Which provider a server is set to, with the passphrase if it needs one. -/
inductive ProviderKind where
  | file
  | passphrase (passphrase : Bytes)

/-- What is drawn for a data key. -/
structure DekDraw where
  encaps : Bytes
  nonce : Bytes
  dek : Bytes
  length_nonce : nonce.length = NONCE_LEN
  length_dek : dek.length = 32

namespace KeyCiphers

variable (C : KeyCiphers)

/-- `wrap_dek`. -/
def wrapDek (master nonce dek : Bytes) : Bytes := nonce ++ C.sealWith master nonce dek

/-- `unwrap_dek`. -/
def unwrapDekWith (master wrapped : Bytes) : Option Bytes :=
  if wrapped.length < NONCE_LEN + TAG_LEN then none
  else (C.openWith master (wrapped.take NONCE_LEN) (wrapped.drop NONCE_LEN)).filter fun p =>
    decide (p.length = 32)

/-- `MasterKey::load_or_generate`. -/
def masterLoadOrGenerate (e : Start) (dir : KeyDir) : Option Bytes × KeyDir :=
  match (e.reads dir .masterKey).bind fromUtf8 with
  | some contents =>
      ((hexDecode (trim contents)).filter fun raw => decide (raw.length = 32), dir)
  | none =>
      if e.mkdir .masterKey then
        let (ok, dir) := writeKeyFile (e.fate .masterKey) .masterKey
          (utf8 (hexEncode e.master)) dir
        (if ok then some e.master else none, dir)
      else (none, dir)

/-- `PqKeypair::load_or_generate`. -/
def pqLoadOrGenerate (e : Start) (dir : KeyDir) : Option PqKeypair × KeyDir :=
  match (e.reads dir .pqBin).filter fun data =>
      decide (data.length = MLKEM_SEED_LEN + MLKEM_EK_LEN) with
  | some data =>
      (if C.ekFromSlice (data.drop MLKEM_SEED_LEN) then
        some ⟨data.take MLKEM_SEED_LEN, data.drop MLKEM_SEED_LEN⟩ else none, dir)
  | none =>
      let kp : PqKeypair := ⟨e.seed, C.encapsulationKey e.seed⟩
      if e.mkdir .pqBin then
        let (ok, dir) := writeKeyFile (e.fate .pqBin) .pqBin (kp.seed ++ kp.ek) dir
        (if ok then some kp else none, dir)
      else (none, dir)

/-- `FileKeyProvider::load`. -/
def loadFile (e : Start) (dir : KeyDir) : Option KeyProvider × KeyDir :=
  match masterLoadOrGenerate e dir with
  | (none, dir) => (none, dir)
  | (some master, dir) =>
      match C.pqLoadOrGenerate e dir with
      | (none, dir) => (none, dir)
      | (some pq, dir) => (some (.file master pq), dir)

/-- `PassphraseKeyProvider::open_or_init`. -/
def openOrInit (passphrase : Bytes) (e : Start) (dir : KeyDir) : Option KeyProvider × KeyDir :=
  if passphrase = [] then (none, dir)
  else
    match e.reads dir .passphraseSalt with
    | some salt =>
        (do
          let kek ← C.argon2id passphrase salt
          let blob ← e.reads dir .passphraseCheck
          if C.unwrapDekWith kek blob = some SENTINEL then some (.passphrase kek) else none, dir)
    | none =>
        match C.argon2id passphrase e.salt with
        | none => (none, dir)
        | some kek =>
            if e.mkdir .passphraseSalt then
              match writeKeyFile (e.fate .passphraseSalt) .passphraseSalt e.salt dir with
              | (false, dir) => (none, dir)
              | (true, dir) =>
                  let (ok, dir) := writeKeyFile (e.fate .passphraseCheck) .passphraseCheck
                    (C.wrapDek kek e.nonce SENTINEL) dir
                  (if ok then some (.passphrase kek) else none, dir)
            else (none, dir)

/-- What a server does with the key directory as it starts. -/
def startWith : ProviderKind → Start → KeyDir → Option KeyProvider × KeyDir
  | .file, e, dir => C.loadFile e dir
  | .passphrase passphrase, e, dir => C.openOrInit passphrase e dir

/-- A start, which may stop at its end. -/
def start (kind : ProviderKind) (e : Start) (dir : KeyDir) : Option KeyProvider × KeyDir :=
  ((C.startWith kind e dir).1.filter fun _ => e.returns, (C.startWith kind e dir).2)

/-- `new_wrapped_dek`. -/
def newWrappedDek (r : DekDraw) : KeyProvider → Bytes × WrappedDek
  | .file _ pq =>
      ((C.encapsulate pq.ek r.encaps).2, ⟨ALG_MLKEM, (C.encapsulate pq.ek r.encaps).1⟩)
  | .passphrase kek => (r.dek, ⟨ALG_AES_MASTER, C.wrapDek kek r.nonce r.dek⟩)

/-- `unwrap_dek`. -/
def unwrapDek (w : WrappedDek) : KeyProvider → Option Bytes
  | .file master pq =>
      if w.alg = ALG_AES_MASTER then C.unwrapDekWith master w.bytes
      else if w.alg = ALG_MLKEM then C.decapsulate pq.seed w.bytes
      else none
  | .passphrase kek => if w.alg = ALG_AES_MASTER then C.unwrapDekWith kek w.bytes else none

end KeyCiphers

/-- Starts of one server on one directory. -/
def startMachine (C : KeyCiphers) (kind : ProviderKind) :
    Machine KeyDir Start (Option KeyProvider) := ⟨fun dir e => C.start kind e dir⟩

/-! ## What is asked of starts -/

/-- The libraries do what they promise. -/
structure KeyCiphers.Lawful (C : KeyCiphers) : Prop where
  open_seal : ∀ key nonce msg, C.openWith key nonce (C.sealWith key nonce msg) = some msg
  length_seal : ∀ key nonce msg, (C.sealWith key nonce msg).length = msg.length + TAG_LEN
  length_ek : ∀ seed, seed.length = MLKEM_SEED_LEN →
    (C.encapsulationKey seed).length = MLKEM_EK_LEN
  ek_ok : ∀ seed, seed.length = MLKEM_SEED_LEN → C.ekFromSlice (C.encapsulationKey seed) = true
  decapsulate_encapsulate : ∀ seed draw, seed.length = MLKEM_SEED_LEN →
    C.decapsulate seed (C.encapsulate (C.encapsulationKey seed) draw).1 =
      some (C.encapsulate (C.encapsulationKey seed) draw).2

/-- Nothing goes wrong in the start. -/
structure Start.Clean (e : Start) : Prop where
  read : ∀ f, e.read f = true
  mkdir : ∀ f, e.mkdir f = true
  fate : ∀ f, e.fate f = .done
  returns : e.returns = true

/-- A start where nothing goes wrong completes. -/
def CanStart (C : KeyCiphers) (kind : ProviderKind) (dir : KeyDir) : Prop :=
  ∃ e : Start, e.Clean ∧ (C.start kind e dir).1.isSome = true

/-- Key material survives these starts: no file with key material is changed, what one
provider wrapped every later one unwraps, and a start that did not complete leaves starts
possible if they were. -/
structure KeysStable (C : KeyCiphers) (kind : ProviderKind)
    (vs : List (Visit KeyDir Start (Option KeyProvider))) : Prop where
  kept : ∀ v ∈ vs, ∀ f, f ≠ .passphraseCheck → ∀ b, v.before f = some b →
    (C.start kind v.call v.before).2 f = some b
  unwraps : vs.Pairwise fun v w => ∀ P Q, v.answer = some P → w.answer = some Q →
    ∀ r, C.unwrapDek (C.newWrappedDek r P).2 Q = some (C.newWrappedDek r P).1
  restarts : ∀ v ∈ vs, v.answer = none → CanStart C kind v.before →
    CanStart C kind (C.start kind v.call v.before).2

/-- The write leaves all of the data. -/
def StoresWhole (data : Bytes) : WriteFate → Prop
  | .done => True
  | .failed none => False
  | .failed (some j) => data.length ≤ j

/-- The start can write the file, if only a part of it. -/
def Start.Writes (e : Start) (f : SysFile) : Prop :=
  e.mkdir f = true ∧ e.fate f ≠ .failed none

/-- A start that can write the master key can read the one that is there, which is a text;
and if none is there it writes all of it. -/
def MasterCareful (dir : KeyDir) (e : Start) : Prop :=
  e.Writes .masterKey →
    (∀ b, dir .masterKey = some b → e.read .masterKey = true ∧ (fromUtf8 b).isSome = true) ∧
    (dir .masterKey = none →
      StoresWhole (utf8 (hexEncode e.master)) (e.fate .masterKey))

/-- A start that can write the keypair can read the one that is there, which is of the
length of one; and a keypair that is read is one. -/
def PqCareful (C : KeyCiphers) (dir : KeyDir) (e : Start) : Prop :=
  ∀ b, dir .pqBin = some b →
    (e.Writes .pqBin →
      e.read .pqBin = true ∧ b.length = MLKEM_SEED_LEN + MLKEM_EK_LEN) ∧
    (e.read .pqBin = true → b.length = MLKEM_SEED_LEN + MLKEM_EK_LEN →
      C.ekFromSlice (b.drop MLKEM_SEED_LEN) = true →
      b.drop MLKEM_SEED_LEN = C.encapsulationKey (b.take MLKEM_SEED_LEN))

/-- A start that can write the salt can read the one that is there; and if none is there it
writes the salt and the check whole. -/
def SaltCareful (C : KeyCiphers) (passphrase : Bytes) (dir : KeyDir) (e : Start) : Prop :=
  passphrase ≠ [] → e.Writes .passphraseSalt →
    ∀ kek, C.argon2id passphrase e.salt = some kek →
      (∀ b, dir .passphraseSalt = some b → e.read .passphraseSalt = true) ∧
      (dir .passphraseSalt = none → e.fate .passphraseSalt = .done ∧
        StoresWhole (C.wrapDek kek e.nonce SENTINEL) (e.fate .passphraseCheck))

/-- What is asked of a start, by provider. -/
def Careful (C : KeyCiphers) (dir : KeyDir) (e : Start) : ProviderKind → Prop
  | .file => MasterCareful dir e ∧ PqCareful C dir e
  | .passphrase passphrase => SaltCareful C passphrase dir e

end Kerplace
