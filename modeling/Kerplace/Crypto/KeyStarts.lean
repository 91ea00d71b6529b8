/-
# `Kerplace.Crypto.KeyStarts` — starts after starts

What one careful start does with each file, and from it what all of them do: what is in the
files stays in them, so each provider that completes has what the one before had.
-/
import Kerplace.Crypto.KeyFiles
import Kerplace.Auth.Chunked

namespace Kerplace

/-! ## Hexadecimal -/

theorem hexVal_hexDigit {v : Nat} (h : v < 16) : hexVal (hexDigit v) = some v := by
  revert v
  decide

theorem hexDecode_hexEncode (b : Bytes) : hexDecode (hexEncode b) = some b := by
  induction b with
  | nil => rfl
  | cons x b ih =>
    have hx := x.toNat_lt
    show hexDecode (hexDigit (x.toNat / 16) :: hexDigit (x.toNat % 16) :: hexEncode b) = _
    rw [hexDecode, hexVal_hexDigit (by omega), hexVal_hexDigit (by omega), ih]
    dsimp only
    rw [Nat.div_add_mod, UInt8.ofNat_toNat]

theorem trim_hexEncode (b : Bytes) : trim (hexEncode b) = hexEncode b := by
  have hdigit : ∀ c ∈ hexEncode b, isWhitespace c = false := by
    intro c hc
    obtain ⟨x, -, hc⟩ := List.mem_flatMap.1 hc
    have hnone : ∀ v < 16, isWhitespace (hexDigit v) = false := by decide
    have hx := x.toNat_lt
    rcases List.mem_cons.1 hc with rfl | hc
    · exact hnone _ (by omega)
    · obtain rfl := List.mem_singleton.1 hc
      exact hnone _ (by omega)
  rw [trim, dropWhile_of_not hdigit, trimEndMatches_of_not hdigit]

/-! ## What a provider has -/

/-- The master key file says this key. -/
def MasterText (dir : KeyDir) (master : Bytes) : Prop :=
  ∃ b s, dir .masterKey = some b ∧ fromUtf8 b = some s ∧
    ((hexDecode (trim s)).filter fun raw => decide (raw.length = 32)) = some master

/-- The keypair file says this keypair, and it is one. -/
def PqStored (C : KeyCiphers) (dir : KeyDir) (pq : PqKeypair) : Prop :=
  dir .pqBin = some (pq.seed ++ pq.ek) ∧ pq.seed.length = MLKEM_SEED_LEN ∧
    pq.ek.length = MLKEM_EK_LEN ∧ pq.ek = C.encapsulationKey pq.seed

/-- The files hold the provider's key material. -/
def HoldsKeys (C : KeyCiphers) (dir : KeyDir) : ProviderKind → KeyProvider → Prop
  | .file, .file master pq => MasterText dir master ∧ PqStored C dir pq
  | .passphrase passphrase, .passphrase kek =>
      ∃ salt, dir .passphraseSalt = some salt ∧ C.argon2id passphrase salt = some kek
  | .file, .passphrase _ => False
  | .passphrase _, .file _ _ => False

/-! ## One start -/

section

variable {C : KeyCiphers} {kind : ProviderKind} {e : Start} {dir : KeyDir} {P Q : KeyProvider}

theorem writeKeyFile_other {fate : WriteFate} {f f' : SysFile} {data : Bytes} (h : f' ≠ f) :
    (writeKeyFile fate f data dir).2 f' = dir f' := by
  unfold writeKeyFile
  split
  · exact Function.update_of_ne h _ _
  · rfl
  · exact Function.update_of_ne h _ _

theorem writeKeyFile_done {fate : WriteFate} {f : SysFile} {data : Bytes}
    (h : (writeKeyFile fate f data dir).1 = true) :
    (writeKeyFile fate f data dir).2 = Function.update dir f (some data) := by
  unfold writeKeyFile at h ⊢
  split at h
  · rfl
  · cases h
  · cases h

theorem writeKeyFile_whole {fate : WriteFate} {f : SysFile} {data : Bytes}
    (h : StoresWhole data fate) :
    (writeKeyFile fate f data dir).2 = Function.update dir f (some data) := by
  unfold writeKeyFile
  split
  · rfl
  · exact h.elim
  · dsimp only
    rw [List.take_of_length_le h]

theorem writeKeyFile_dir {fate : WriteFate} {f : SysFile} {data : Bytes}
    (h : fate ≠ .failed none) : ∃ b, b <+: data ∧
      (writeKeyFile fate f data dir).2 = Function.update dir f (some b) := by
  unfold writeKeyFile
  split
  · exact ⟨data, List.prefix_refl _, rfl⟩
  · exact absurd rfl h
  next j => exact ⟨data.take j, List.take_prefix _ _, rfl⟩

theorem not_writes {α : Type} {f : SysFile} {data : Bytes} {x : α} (h : ¬e.Writes f) :
    (if e.mkdir f then
      (if (writeKeyFile (e.fate f) f data dir).1 then some x else none,
        (writeKeyFile (e.fate f) f data dir).2)
    else (none, dir)) = (none, dir) := by
  by_cases hmkdir : e.mkdir f = true
  · have hfate : e.fate f = .failed none := by
      by_contra hfate
      exact h ⟨hmkdir, hfate⟩
    rw [if_pos hmkdir, hfate]
    rfl
  · exact if_neg hmkdir

theorem reads_some {f : SysFile} {b : Bytes} (h : e.reads dir f = some b) :
    e.read f = true ∧ dir f = some b := by
  unfold Start.reads at h
  split at h
  next hread => exact ⟨hread, h⟩
  next => cases h

theorem reads_of_read {f : SysFile} (h : e.read f = true) : e.reads dir f = dir f := if_pos h

theorem masterLoadOrGenerate_other {f : SysFile} (h : f ≠ .masterKey) :
    (KeyCiphers.masterLoadOrGenerate e dir).2 f = dir f := by
  unfold KeyCiphers.masterLoadOrGenerate
  split
  · rfl
  · split
    · exact writeKeyFile_other h
    · rfl

theorem pqLoadOrGenerate_other {f : SysFile} (h : f ≠ .pqBin) :
    (C.pqLoadOrGenerate e dir).2 f = dir f := by
  unfold KeyCiphers.pqLoadOrGenerate
  split
  · rfl
  · split
    · exact writeKeyFile_other h
    · rfl

theorem masterText_generated {master : Bytes} (h : master.length = 32) :
    ((hexDecode (trim (hexEncode master))).filter fun raw => decide (raw.length = 32)) =
      some master := by
  rw [trim_hexEncode, hexDecode_hexEncode, Option.filter_some, decide_eq_true h, if_pos rfl]

/-- What a careful start does with the master key: it leaves the one that is there, or
writes the first. -/
theorem MasterCareful.cases (h : MasterCareful dir e) :
    ((KeyCiphers.masterLoadOrGenerate e dir).2 = dir ∧
      ∀ master, (KeyCiphers.masterLoadOrGenerate e dir).1 = some master → MasterText dir master) ∨
    (dir .masterKey = none ∧
      (KeyCiphers.masterLoadOrGenerate e dir).2 =
        Function.update dir .masterKey (some (utf8 (hexEncode e.master))) ∧
      ∀ master, (KeyCiphers.masterLoadOrGenerate e dir).1 = some master → master = e.master) := by
  unfold KeyCiphers.masterLoadOrGenerate
  cases hread : (e.reads dir .masterKey).bind fromUtf8 with
  | some s =>
      obtain ⟨b, hb, hs⟩ := Option.bind_eq_some_iff.1 hread
      exact .inl ⟨rfl, fun master hmaster => ⟨b, s, (reads_some hb).2, hs, hmaster⟩⟩
  | none =>
      dsimp only
      by_cases hwrites : e.Writes .masterKey
      · obtain ⟨hpresent, habsent⟩ := h hwrites
        have hnone : dir .masterKey = none := by
          by_contra hsome
          obtain ⟨b, hb⟩ := Option.ne_none_iff_exists'.1 hsome
          obtain ⟨hr, hutf⟩ := hpresent b hb
          rw [reads_of_read hr, hb, Option.bind_some] at hread
          rw [hread] at hutf
          cases hutf
        refine .inr ⟨hnone, ?_, fun master hmaster => ?_⟩
        · rw [if_pos hwrites.1]
          exact writeKeyFile_whole (habsent hnone)
        · rw [if_pos hwrites.1] at hmaster
          dsimp only at hmaster
          split at hmaster
          · exact (Option.some.inj hmaster).symm
          · cases hmaster
      · rw [not_writes hwrites]
        exact .inl ⟨rfl, fun master hmaster => by cases hmaster⟩

/-- What a careful start does with the keypair: it leaves the one that is there, or writes
a first one, or its beginning. -/
theorem PqCareful.cases (h : PqCareful C dir e) :
    ((C.pqLoadOrGenerate e dir).2 = dir ∧
      ∀ pq, (C.pqLoadOrGenerate e dir).1 = some pq → PqStored C dir pq) ∨
    (dir .pqBin = none ∧ ∃ b, b <+: e.seed ++ C.encapsulationKey e.seed ∧
      (C.pqLoadOrGenerate e dir).2 = Function.update dir .pqBin (some b) ∧
      ∀ pq, (C.pqLoadOrGenerate e dir).1 = some pq →
        pq = ⟨e.seed, C.encapsulationKey e.seed⟩ ∧ b = e.seed ++ C.encapsulationKey e.seed) := by
  unfold KeyCiphers.pqLoadOrGenerate
  cases hread : (e.reads dir .pqBin).filter fun data =>
      decide (data.length = MLKEM_SEED_LEN + MLKEM_EK_LEN) with
  | some b =>
      obtain ⟨hb, hlen⟩ := Option.filter_eq_some_iff.1 hread
      obtain ⟨hr, hb⟩ := reads_some hb
      have hlen := of_decide_eq_true hlen
      refine .inl ⟨rfl, fun pq hpq => ?_⟩
      dsimp only at hpq
      split at hpq
      next hek =>
        obtain rfl := Option.some.inj hpq
        refine ⟨?_, ?_, ?_, (h b hb).2 hr hlen hek⟩
        · rw [List.take_append_drop]
          exact hb
        · rw [List.length_take, hlen]
          rfl
        · rw [List.length_drop, hlen]
          rfl
      next => cases hpq
  | none =>
      dsimp only
      by_cases hwrites : e.Writes .pqBin
      · have hnone : dir .pqBin = none := by
          by_contra hsome
          obtain ⟨b, hb⟩ := Option.ne_none_iff_exists'.1 hsome
          obtain ⟨hr, hlen⟩ := (h b hb).1 hwrites
          rw [reads_of_read hr, hb, Option.filter_some, decide_eq_true hlen] at hread
          cases hread
        rw [if_pos hwrites.1]
        obtain ⟨b, hpre, hdir⟩ : ∃ b, b <+: e.seed ++ C.encapsulationKey e.seed ∧
          (writeKeyFile (e.fate .pqBin) .pqBin (e.seed ++ C.encapsulationKey e.seed) dir).2 =
            Function.update dir .pqBin (some b) := writeKeyFile_dir hwrites.2
        refine .inr ⟨hnone, b, hpre, hdir, fun pq hpq => ?_⟩
        dsimp only at hpq
        split at hpq
        next hok =>
          refine ⟨(Option.some.inj hpq).symm, ?_⟩
          have hself := congrFun (hdir.symm.trans (writeKeyFile_done hok)) .pqBin
          rw [Function.update_self, Function.update_self] at hself
          exact Option.some.inj hself
        next => cases hpq
      · rw [not_writes hwrites]
        exact .inl ⟨rfl, fun pq hpq => by cases hpq⟩

/-- What a careful start does with the salt: it leaves the one that is there, or writes the
first one with its check. -/
theorem SaltCareful.cases {passphrase : Bytes} (h : SaltCareful C passphrase dir e) :
    ((C.openOrInit passphrase e dir).2 = dir ∧
      ∀ P, (C.openOrInit passphrase e dir).1 = some P →
        HoldsKeys C dir (.passphrase passphrase) P) ∨
    (passphrase ≠ [] ∧ dir .passphraseSalt = none ∧
      ∃ kek, C.argon2id passphrase e.salt = some kek ∧
      (C.openOrInit passphrase e dir).2 = Function.update
        (Function.update dir .passphraseSalt (some e.salt))
        .passphraseCheck (some (C.wrapDek kek e.nonce SENTINEL)) ∧
      ∀ P, (C.openOrInit passphrase e dir).1 = some P → P = .passphrase kek) := by
  unfold KeyCiphers.openOrInit
  by_cases hne : passphrase = []
  · rw [if_pos hne]
    exact .inl ⟨rfl, fun P hP => by cases hP⟩
  rw [if_neg hne]
  cases hread : e.reads dir .passphraseSalt with
  | some salt =>
      refine .inl ⟨rfl, fun P hP => ?_⟩
      obtain ⟨kek, hkek, hP⟩ := Option.bind_eq_some_iff.1 hP
      obtain ⟨blob, -, hP⟩ := Option.bind_eq_some_iff.1 hP
      split at hP
      next =>
        obtain rfl := Option.some.inj hP
        exact ⟨salt, (reads_some hread).2, hkek⟩
      next => cases hP
  | none =>
      dsimp only
      cases hkek : C.argon2id passphrase e.salt with
      | none => exact .inl ⟨rfl, fun P hP => by cases hP⟩
      | some kek =>
          dsimp only
          by_cases hmkdir : e.mkdir .passphraseSalt = true
          · rw [if_pos hmkdir]
            by_cases hfate : e.fate .passphraseSalt = .failed none
            · rw [hfate]
              exact .inl ⟨rfl, fun P hP => by cases hP⟩
            · obtain ⟨hpresent, habsent⟩ := h hne ⟨hmkdir, hfate⟩ kek hkek
              have hnone : dir .passphraseSalt = none := by
                by_contra hsome
                obtain ⟨b, hb⟩ := Option.ne_none_iff_exists'.1 hsome
                rw [reads_of_read (hpresent b hb), hb] at hread
                cases hread
              obtain ⟨hdone, hwhole⟩ := habsent hnone
              rw [hdone]
              refine .inr ⟨hne, hnone, kek, rfl, writeKeyFile_whole hwhole, fun P hP => ?_⟩
              change (if _ then some (KeyProvider.passphrase kek) else none) = some P at hP
              split at hP
              next => exact (Option.some.inj hP).symm
              next => cases hP
          · rw [if_neg hmkdir]
            exact .inl ⟨rfl, fun P hP => by cases hP⟩

theorem loadFile_dir : (C.loadFile e dir).2 = (KeyCiphers.masterLoadOrGenerate e dir).2 ∨
    (C.loadFile e dir).2 =
      (C.pqLoadOrGenerate e (KeyCiphers.masterLoadOrGenerate e dir).2).2 := by
  unfold KeyCiphers.loadFile
  rcases KeyCiphers.masterLoadOrGenerate e dir with ⟨_ | master, dir₁⟩
  · exact .inl rfl
  · dsimp only
    rcases C.pqLoadOrGenerate e dir₁ with ⟨_ | pq, dir₂⟩
    · exact .inr rfl
    · exact .inr rfl

/-- A provider that completed has what both files gave it. -/
theorem loadFile_some (h : (C.loadFile e dir).1 = some P) :
    ∃ master pq, P = .file master pq ∧
      (KeyCiphers.masterLoadOrGenerate e dir).1 = some master ∧
      (C.pqLoadOrGenerate e (KeyCiphers.masterLoadOrGenerate e dir).2).1 = some pq ∧
      (C.loadFile e dir).2 =
        (C.pqLoadOrGenerate e (KeyCiphers.masterLoadOrGenerate e dir).2).2 := by
  unfold KeyCiphers.loadFile at h ⊢
  rcases hmaster : KeyCiphers.masterLoadOrGenerate e dir with ⟨_ | master, dir₁⟩
  · rw [hmaster] at h
    cases h
  · rw [hmaster] at h
    dsimp only at h ⊢
    rcases hpq : C.pqLoadOrGenerate e dir₁ with ⟨_ | pq, dir₂⟩
    · rw [hpq] at h
      cases h
    · rw [hpq] at h
      exact ⟨master, pq, (Option.some.inj h).symm, rfl, rfl, rfl⟩

/-! ## What there is stays -/

theorem update_kept {f f' : SysFile} {b : Bytes} {x : Option Bytes} (hf : dir f = none)
    (hb : dir f' = some b) : Function.update dir f x f' = some b := by
  rw [Function.update_of_ne (fun h => by rw [h, hf] at hb; cases hb)]
  exact hb

theorem MasterCareful.kept {f : SysFile} {b : Bytes} (h : MasterCareful dir e)
    (hb : dir f = some b) : (KeyCiphers.masterLoadOrGenerate e dir).2 f = some b := by
  rcases h.cases with ⟨hdir, -⟩ | ⟨hnone, hdir, -⟩
  · rw [hdir]
    exact hb
  · rw [hdir]
    exact update_kept hnone hb

theorem PqCareful.kept {f : SysFile} {b : Bytes} (h : PqCareful C dir e)
    (hb : dir f = some b) : (C.pqLoadOrGenerate e dir).2 f = some b := by
  rcases h.cases with ⟨hdir, -⟩ | ⟨hnone, x, -, hdir, -⟩
  · rw [hdir]
    exact hb
  · rw [hdir]
    exact update_kept hnone hb

theorem pqCareful_master (hpq : PqCareful C dir e) :
    PqCareful C (KeyCiphers.masterLoadOrGenerate e dir).2 e := by
  unfold PqCareful
  rw [masterLoadOrGenerate_other (by decide)]
  exact hpq

/-- A careful start changes no key, no keypair and no salt. -/
theorem Careful.kept {f : SysFile} {b : Bytes} (h : Careful C dir e kind)
    (hf : f ≠ .passphraseCheck) (hb : dir f = some b) :
    (C.start kind e dir).2 f = some b := by
  cases kind with
  | file =>
      obtain ⟨hmaster, hpq⟩ := h
      have hdirs : (C.loadFile e dir).2 = _ ∨ (C.loadFile e dir).2 = _ := loadFile_dir
      rcases hdirs with hdir | hdir
      · exact (congrFun hdir f).trans (hmaster.kept hb)
      · exact (congrFun hdir f).trans ((pqCareful_master hpq).kept (hmaster.kept hb))
  | passphrase passphrase =>
      rcases SaltCareful.cases h with ⟨hdir, -⟩ | ⟨-, hnone, kek, -, hdir, -⟩
      · exact (congrFun hdir f).trans hb
      · refine (congrFun hdir f).trans ?_
        rw [Function.update_of_ne hf]
        exact update_kept hnone hb

/-! ## What a provider has stays -/

theorem MasterCareful.text {master : Bytes} (h : MasterCareful dir e)
    (hsome : (KeyCiphers.masterLoadOrGenerate e dir).1 = some master) :
    MasterText (KeyCiphers.masterLoadOrGenerate e dir).2 master := by
  rcases h.cases with ⟨hdir, htext⟩ | ⟨-, hdir, hmaster⟩
  · rw [hdir]
    exact htext master hsome
  · rw [hdir, hmaster master hsome]
    exact ⟨_, hexEncode e.master, Function.update_self _ _ _, fromUtf8_encoded _,
      masterText_generated e.length_master⟩

theorem PqCareful.stored (hC : C.Lawful) {pq : PqKeypair} (h : PqCareful C dir e)
    (hsome : (C.pqLoadOrGenerate e dir).1 = some pq) :
    PqStored C (C.pqLoadOrGenerate e dir).2 pq := by
  rcases h.cases with ⟨hdir, hstored⟩ | ⟨-, x, -, hdir, hpq⟩
  · rw [hdir]
    exact hstored pq hsome
  · obtain ⟨rfl, rfl⟩ := hpq pq hsome
    rw [hdir]
    exact ⟨Function.update_self _ _ _, e.length_seed, hC.length_ek _ e.length_seed, rfl⟩

theorem start_answer (h : (C.start kind e dir).1 = some P) :
    (C.startWith kind e dir).1 = some P := (Option.filter_eq_some_iff.1 h).1

/-- A careful start that completes leaves what the provider has in the files. -/
theorem Careful.holds (hC : C.Lawful) (h : Careful C dir e kind)
    (hsome : (C.start kind e dir).1 = some P) : HoldsKeys C (C.start kind e dir).2 kind P := by
  have hanswer := start_answer hsome
  cases kind with
  | file =>
      obtain ⟨hmaster, hpq⟩ := h
      obtain ⟨master, pq, rfl, hm, hp, hdir⟩ := loadFile_some hanswer
      have hpq₁ := pqCareful_master hpq
      have hafter : (C.start .file e dir).2 = _ := hdir
      rw [hafter]
      refine ⟨?_, hpq₁.stored hC hp⟩
      obtain ⟨b, s, hb, hs, hdec⟩ := hmaster.text hm
      exact ⟨b, s, (pqLoadOrGenerate_other (by decide)).trans hb, hs, hdec⟩
  | passphrase passphrase =>
      rcases SaltCareful.cases h with ⟨hdir, hholds⟩ | ⟨-, -, kek, hkek, hdir, hP⟩
      · have hafter : (C.start (.passphrase passphrase) e dir).2 = dir := hdir
        rw [hafter]
        exact hholds P hanswer
      · obtain rfl := hP P hanswer
        refine ⟨e.salt, (congrFun hdir _).trans ?_, hkek⟩
        rw [Function.update_of_ne (by decide), Function.update_self]

theorem Careful.holds_kept (h : Careful C dir e kind) (hP : HoldsKeys C dir kind P) :
    HoldsKeys C (C.start kind e dir).2 kind P := by
  cases kind with
  | file =>
      cases P with
      | file master pq =>
          obtain ⟨⟨b, s, hb, hs⟩, hpq, hrest⟩ := hP
          exact ⟨⟨b, s, h.kept (by decide) hb, hs⟩, h.kept (by decide) hpq, hrest⟩
      | passphrase kek => exact hP.elim
  | passphrase passphrase =>
      cases P with
      | file master pq => exact hP.elim
      | passphrase kek =>
          obtain ⟨salt, hsalt, hkek⟩ := hP
          exact ⟨salt, h.kept (by decide) hsalt, hkek⟩

/-- The files hold the material of one provider only. -/
theorem HoldsKeys.unique (hP : HoldsKeys C dir kind P) (hQ : HoldsKeys C dir kind Q) : P = Q := by
  cases kind with
  | file =>
      cases P with
      | passphrase kek => exact hP.elim
      | file master pq =>
          cases Q with
          | passphrase kek => exact hQ.elim
          | file master' pq' =>
              obtain ⟨⟨b, s, hb, hs, hm⟩, hp, hseed, -, -⟩ := hP
              obtain ⟨⟨b', s', hb', hs', hm'⟩, hp', hseed', -, -⟩ := hQ
              obtain rfl := Option.some.inj (hb.symm.trans hb')
              obtain rfl := Option.some.inj (hs.symm.trans hs')
              obtain rfl := Option.some.inj (hm.symm.trans hm')
              obtain ⟨hs, he⟩ := List.append_inj (Option.some.inj (hp.symm.trans hp'))
                (hseed.trans hseed'.symm)
              obtain ⟨seed, ek⟩ := pq
              obtain ⟨seed', ek'⟩ := pq'
              obtain rfl : seed = seed' := hs
              obtain rfl : ek = ek' := he
              rfl
  | passphrase passphrase =>
      cases P with
      | file master pq => exact hP.elim
      | passphrase kek =>
          cases Q with
          | file master pq => exact hQ.elim
          | passphrase kek' =>
              obtain ⟨salt, hs, hk⟩ := hP
              obtain ⟨salt', hs', hk'⟩ := hQ
              obtain rfl := Option.some.inj (hs.symm.trans hs')
              rw [Option.some.inj (hk.symm.trans hk')]

theorem unwrap_wrapDek (hC : C.Lawful) {key nonce msg : Bytes}
    (hnonce : nonce.length = NONCE_LEN) (hmsg : msg.length = 32) :
    C.unwrapDekWith key (C.wrapDek key nonce msg) = some msg := by
  unfold KeyCiphers.unwrapDekWith KeyCiphers.wrapDek
  have hlen : ¬(nonce ++ C.sealWith key nonce msg).length < NONCE_LEN + TAG_LEN := by
    rw [List.length_append, hC.length_seal]
    omega
  rw [if_neg hlen, ← hnonce, List.take_left, List.drop_left, hC.open_seal, Option.filter_some,
    decide_eq_true hmsg, if_pos rfl]

theorem HoldsKeys.unwraps (hC : C.Lawful) (hP : HoldsKeys C dir kind P) (r : DekDraw) :
    C.unwrapDek (C.newWrappedDek r P).2 P = some (C.newWrappedDek r P).1 := by
  cases P with
  | file master pq =>
      cases kind with
      | passphrase passphrase => exact hP.elim
      | file =>
          obtain ⟨-, -, hseed, -, hek⟩ := hP
          change C.decapsulate pq.seed (C.encapsulate pq.ek r.encaps).1 =
            some (C.encapsulate pq.ek r.encaps).2
          rw [hek]
          exact hC.decapsulate_encapsulate _ _ hseed
  | passphrase kek => exact unwrap_wrapDek hC r.length_nonce r.length_dek

/-! ## A start that did not complete -/

/-- The master key file is no text, or says a key. -/
def MasterReadable (dir : KeyDir) : Prop :=
  ∀ b s, dir .masterKey = some b → fromUtf8 b = some s →
    ((hexDecode (trim s)).filter fun raw => decide (raw.length = 32)).isSome = true

/-- The keypair file is of the wrong length, or its key is one. -/
def PqReadable (C : KeyCiphers) (dir : KeyDir) : Prop :=
  ∀ b, dir .pqBin = some b → b.length = MLKEM_SEED_LEN + MLKEM_EK_LEN →
    C.ekFromSlice (b.drop MLKEM_SEED_LEN) = true

theorem Start.Clean.reads (he : e.Clean) : e.reads dir = dir :=
  funext fun f => reads_of_read (he.read f)

theorem Start.Clean.write (he : e.Clean) (f : SysFile) (data : Bytes) :
    writeKeyFile (e.fate f) f data dir = (true, Function.update dir f (some data)) := by
  rw [he.fate f]
  rfl

theorem clean_master (he : e.Clean) :
    (KeyCiphers.masterLoadOrGenerate e dir).1.isSome = true ↔ MasterReadable dir := by
  unfold KeyCiphers.masterLoadOrGenerate
  rw [he.reads]
  cases hb : (dir .masterKey).bind fromUtf8 with
  | some s =>
      obtain ⟨b, hb, hs⟩ := Option.bind_eq_some_iff.1 hb
      refine ⟨fun h b' s' hb' hs' => ?_, fun h => h b s hb hs⟩
      obtain rfl := Option.some.inj (hb.symm.trans hb')
      obtain rfl := Option.some.inj (hs.symm.trans hs')
      exact h
  | none =>
      dsimp only
      rw [if_pos (he.mkdir _), he.write]
      refine ⟨fun _ b s hb' hs => ?_, fun _ => rfl⟩
      rw [hb', Option.bind_some, hs] at hb
      cases hb

theorem clean_pq (he : e.Clean) :
    (C.pqLoadOrGenerate e dir).1.isSome = true ↔ PqReadable C dir := by
  unfold KeyCiphers.pqLoadOrGenerate
  rw [he.reads]
  cases hb : (dir .pqBin).filter fun data =>
      decide (data.length = MLKEM_SEED_LEN + MLKEM_EK_LEN) with
  | some b =>
      obtain ⟨hb, hlen⟩ := Option.filter_eq_some_iff.1 hb
      refine ⟨fun h b' hb' hlen' => ?_, fun h => ?_⟩
      · obtain rfl := Option.some.inj (hb.symm.trans hb')
        by_contra hek
        dsimp only at h
        rw [if_neg hek] at h
        cases h
      · dsimp only
        rw [if_pos (h b hb (of_decide_eq_true hlen))]
        rfl
  | none =>
      dsimp only
      rw [if_pos (he.mkdir _), he.write]
      refine ⟨fun _ b hb' hlen => ?_, fun _ => rfl⟩
      rw [hb', Option.filter_some, decide_eq_true hlen] at hb
      cases hb

/-- When a start where nothing goes wrong completes. -/
theorem clean_loadFile (he : e.Clean) :
    (C.loadFile e dir).1.isSome = true ↔ MasterReadable dir ∧ PqReadable C dir := by
  have hmaster : (KeyCiphers.masterLoadOrGenerate e dir).1.isSome = true ↔ _ := clean_master he
  have hpq : (C.pqLoadOrGenerate e (KeyCiphers.masterLoadOrGenerate e dir).2).1.isSome = true ↔
    _ := clean_pq he
  have hsame : PqReadable C (KeyCiphers.masterLoadOrGenerate e dir).2 ↔ PqReadable C dir := by
    unfold PqReadable
    rw [masterLoadOrGenerate_other (by decide)]
  rw [hsame] at hpq
  unfold KeyCiphers.loadFile
  rcases h₁ : KeyCiphers.masterLoadOrGenerate e dir with ⟨_ | master, dir₁⟩
  · rw [h₁] at hmaster
    exact ⟨fun h => (by cases h), fun h => by cases hmaster.2 h.1⟩
  · rw [h₁] at hmaster hpq
    dsimp only at hmaster hpq ⊢
    rcases h₂ : C.pqLoadOrGenerate e dir₁ with ⟨_ | pq, dir₂⟩
    · rw [h₂] at hpq
      exact ⟨fun h => (by cases h), fun h => by cases hpq.2 h.2⟩
    · rw [h₂] at hpq
      exact ⟨fun _ => ⟨hmaster.1 rfl, hpq.1 rfl⟩, fun _ => rfl⟩

theorem clean_start (he : e.Clean) :
    (C.start kind e dir).1.isSome = (C.startWith kind e dir).1.isSome := by
  unfold KeyCiphers.start
  cases (C.startWith kind e dir).1 with
  | none => rfl
  | some P => rw [Option.filter_some, he.returns, if_pos rfl]

theorem MasterCareful.readable (h : MasterCareful dir e) (hreadable : MasterReadable dir) :
    MasterReadable (KeyCiphers.masterLoadOrGenerate e dir).2 := by
  rcases h.cases with ⟨hdir, -⟩ | ⟨-, hdir, -⟩
  · rw [hdir]
    exact hreadable
  · intro b s hb hs
    rw [hdir, Function.update_self] at hb
    obtain rfl := Option.some.inj hb
    obtain rfl := Option.some.inj ((fromUtf8_encoded _).symm.trans hs)
    rw [masterText_generated e.length_master]
    rfl

theorem PqCareful.readable (hC : C.Lawful) (h : PqCareful C dir e)
    (hreadable : PqReadable C dir) : PqReadable C (C.pqLoadOrGenerate e dir).2 := by
  rcases h.cases with ⟨hdir, -⟩ | ⟨-, x, hpre, hdir, -⟩
  · rw [hdir]
    exact hreadable
  · intro b hb hlen
    rw [hdir, Function.update_self] at hb
    obtain rfl := Option.some.inj hb
    -- a beginning of the whole length is the whole
    have hall : x = e.seed ++ C.encapsulationKey e.seed := by
      refine hpre.eq_of_length ?_
      rw [hlen, List.length_append, e.length_seed, hC.length_ek _ e.length_seed]
    rw [hall, ← e.length_seed, List.drop_left]
    exact hC.ek_ok _ e.length_seed

theorem clean_openOrInit (hC : C.Lawful) {passphrase salt kek nonce : Bytes} (he : e.Clean)
    (hne : passphrase ≠ []) (hnonce : nonce.length = NONCE_LEN)
    (hsalt : dir .passphraseSalt = some salt) (hkek : C.argon2id passphrase salt = some kek)
    (hcheck : dir .passphraseCheck = some (C.wrapDek kek nonce SENTINEL)) :
    (C.openOrInit passphrase e dir).1.isSome = true := by
  unfold KeyCiphers.openOrInit
  rw [if_neg hne, he.reads, hsalt]
  dsimp only
  rw [hkek, hcheck]
  change Option.isSome (if C.unwrapDekWith kek (C.wrapDek kek nonce SENTINEL) = some SENTINEL then
    some (KeyProvider.passphrase kek) else none) = true
  rw [unwrap_wrapDek hC hnonce rfl, if_pos rfl]
  rfl

/-- A careful start leaves starts possible. -/
theorem Careful.restarts (hC : C.Lawful) (h : Careful C dir e kind)
    (hstarts : CanStart C kind dir) : CanStart C kind (C.start kind e dir).2 := by
  obtain ⟨clean, hclean, hsome⟩ := hstarts
  refine ⟨clean, hclean, ?_⟩
  rw [clean_start hclean] at hsome ⊢
  cases kind with
  | file =>
      obtain ⟨hmaster, hpq⟩ := (clean_loadFile hclean).1 hsome
      refine (clean_loadFile hclean).2 ?_
      obtain ⟨hcareful, hcarefulPq⟩ := h
      have hcarefulPq₁ := pqCareful_master hcarefulPq
      have hmaster₁ := hcareful.readable hmaster
      have hpq₁ : PqReadable C (KeyCiphers.masterLoadOrGenerate e dir).2 := by
        unfold PqReadable
        rw [masterLoadOrGenerate_other (by decide)]
        exact hpq
      have hdirs : (C.start .file e dir).2 = _ ∨ (C.start .file e dir).2 = _ := loadFile_dir
      rcases hdirs with hdir | hdir
      · rw [hdir]
        exact ⟨hmaster₁, hpq₁⟩
      · rw [hdir]
        refine ⟨?_, hcarefulPq₁.readable hC hpq₁⟩
        unfold MasterReadable
        rw [pqLoadOrGenerate_other (by decide)]
        exact hmaster₁
  | passphrase passphrase =>
      rcases SaltCareful.cases h with ⟨hdir, -⟩ | ⟨hne, -, kek, hkek, hdir, -⟩
      · have hafter : (C.start (.passphrase passphrase) e dir).2 = dir := hdir
        rw [hafter]
        exact hsome
      · refine clean_openOrInit hC hclean hne e.length_nonce ?_ hkek ?_
        · refine (congrFun hdir _).trans ?_
          rw [Function.update_of_ne (by decide), Function.update_self]
        · exact (congrFun hdir _).trans (Function.update_self _ _ _)

/-! ## Every start after another -/

/-- What the run so far leaves: the files hold what each provider had. -/
def KeptSoFar (C : KeyCiphers) (kind : ProviderKind)
    (vs : List (Visit KeyDir Start (Option KeyProvider))) (dir : KeyDir) : Prop :=
  KeysStable C kind vs ∧ ∀ v ∈ vs, ∀ P, v.answer = some P → HoldsKeys C dir kind P

theorem KeptSoFar.step (hC : C.Lawful) {vs : List (Visit KeyDir Start (Option KeyProvider))}
    (hkept : KeptSoFar C kind vs dir) (h : Careful C dir e kind) :
    KeptSoFar C kind (vs ++ [(startMachine C kind).visit dir e]) (C.start kind e dir).2 := by
  obtain ⟨hstable, hholds⟩ := hkept
  refine ⟨⟨fun v hv => ?_, ?_, fun v hv => ?_⟩, fun v hv P hP => ?_⟩
  · rcases List.mem_append.1 hv with hv | hv
    · exact hstable.kept v hv
    · obtain rfl := List.mem_singleton.1 hv
      exact fun f hf b hb => h.kept hf hb
  · refine List.pairwise_append.2 ⟨hstable.unwraps, List.pairwise_singleton _ _, ?_⟩
    intro v hv w hw P Q hP hQ r
    obtain rfl := List.mem_singleton.1 hw
    -- what the start found is what the earlier one left
    have hbefore := h.holds_kept (hholds v hv P hP)
    obtain rfl := hbefore.unique (h.holds hC hQ)
    exact hbefore.unwraps hC r
  · rcases List.mem_append.1 hv with hv | hv
    · exact hstable.restarts v hv
    · obtain rfl := List.mem_singleton.1 hv
      exact fun _ hstarts => h.restarts hC hstarts
  · rcases List.mem_append.1 hv with hv | hv
    · exact h.holds_kept (hholds v hv P hP)
    · obtain rfl := List.mem_singleton.1 hv
      exact h.holds hC hP

end

/-- Key material survives starts that are all careful. -/
theorem keyMaterial_stable {C : KeyCiphers} (hC : C.Lawful) (kind : ProviderKind) (dir : KeyDir)
    (starts : List Start)
    (hcareful : ∀ v ∈ (startMachine C kind).visits dir starts, Careful C v.before v.call kind) :
    KeysStable C kind ((startMachine C kind).visits dir starts) := by
  have hstart : KeptSoFar C kind [] dir :=
    ⟨⟨fun v hv => absurd hv List.not_mem_nil, List.Pairwise.nil,
      fun v hv => absurd hv List.not_mem_nil⟩, fun v hv => absurd hv List.not_mem_nil⟩
  exact (Machine.invariant hstart (fun vs dir e hkept h => KeptSoFar.step hC hkept h) starts
    hcareful).1

/-- A start where nothing goes wrong, which draws the byte `x` over and over. -/
def Start.plain (x : UInt8) : Start where
  read _ := true
  mkdir _ := true
  fate _ := .done
  returns := true
  master := List.replicate 32 x
  seed := List.replicate MLKEM_SEED_LEN x
  salt := List.replicate SALT_LEN x
  nonce := List.replicate NONCE_LEN x
  length_master := List.length_replicate
  length_seed := List.length_replicate
  length_salt := List.length_replicate
  length_nonce := List.length_replicate

/-- Ciphers that hide nothing. -/
def plainCiphers : KeyCiphers where
  sealWith _ _ msg := msg ++ List.replicate TAG_LEN 0
  openWith _ _ ct := some (ct.take (ct.length - TAG_LEN))
  encapsulationKey seed := seed ++ List.replicate (MLKEM_EK_LEN - MLKEM_SEED_LEN) 0
  ekFromSlice ek := decide (ek.length = MLKEM_EK_LEN)
  encapsulate ek _ := ([], ek.take MLKEM_SEED_LEN)
  decapsulate seed _ := some seed
  argon2id _ salt := some salt

theorem plainCiphers_lawful : plainCiphers.Lawful where
  open_seal key nonce msg := by
    change some ((msg ++ List.replicate TAG_LEN 0).take
      ((msg ++ List.replicate TAG_LEN 0).length - TAG_LEN)) = some msg
    rw [List.length_append, List.length_replicate, Nat.add_sub_cancel, List.take_left]
  length_seal key nonce msg := by
    change (msg ++ List.replicate TAG_LEN 0).length = _
    rw [List.length_append, List.length_replicate]
  length_ek seed hseed := by
    change (seed ++ List.replicate (MLKEM_EK_LEN - MLKEM_SEED_LEN) 0).length = _
    rw [List.length_append, List.length_replicate, hseed]
    rfl
  ek_ok seed hseed := by
    refine decide_eq_true ?_
    change (seed ++ List.replicate (MLKEM_EK_LEN - MLKEM_SEED_LEN) 0).length = _
    rw [List.length_append, List.length_replicate, hseed]
    rfl
  decapsulate_encapsulate seed draw hseed := by
    change some seed = some ((seed ++ List.replicate (MLKEM_EK_LEN - MLKEM_SEED_LEN) 0).take
      MLKEM_SEED_LEN)
    rw [← hseed, List.take_left]

theorem keyMaterial_stable_plain :
    KeysStable plainCiphers .file
      ((startMachine plainCiphers .file).visits (fun _ => none) [Start.plain 1]) ∧
    KeysStable plainCiphers (.passphrase [7])
      ((startMachine plainCiphers (.passphrase [7])).visits (fun _ => none)
        [Start.plain 1, Start.plain 2]) := by
  refine ⟨keyMaterial_stable plainCiphers_lawful .file (fun _ => none) [Start.plain 1] ?_,
    keyMaterial_stable plainCiphers_lawful (.passphrase [7]) (fun _ => none)
      [Start.plain 1, Start.plain 2] ?_⟩
  · intro v hv
    obtain rfl := List.mem_singleton.1 hv
    exact ⟨fun _ => ⟨fun b hb => (by cases hb), fun _ => trivial⟩, fun b hb => by cases hb⟩
  · intro v hv
    have hcall := Machine.call_mem hv
    obtain ⟨x, hx⟩ : ∃ x, v.call = Start.plain x := by
      rcases List.mem_cons.1 hcall with h | h
      · exact ⟨1, h⟩
      · exact ⟨2, List.mem_singleton.1 h⟩
    rw [hx]
    exact fun _ _ kek _ => ⟨fun _ _ => rfl, fun _ => ⟨rfl, trivial⟩⟩

/-- A start that can read no file, and makes and writes all of them again. -/
def Start.blind (x : UInt8) : Start := { Start.plain x with read := fun _ => false }

/-- What `Start.plain x` and `Start.blind x` make where they find nothing. -/
def plainProvider (x : UInt8) : KeyProvider :=
  .file (List.replicate 32 x) ⟨List.replicate MLKEM_SEED_LEN x,
    plainCiphers.encapsulationKey (List.replicate MLKEM_SEED_LEN x)⟩

/-- A start that cannot read the files takes them not to be there: what the provider before
it wrapped is lost. -/
theorem keyMaterial_not_stable :
    ¬∀ (C : KeyCiphers), C.Lawful → ∀ (kind : ProviderKind) (dir : KeyDir) (starts : List Start),
      KeysStable C kind ((startMachine C kind).visits dir starts) := by
  intro h
  have hstable := h plainCiphers plainCiphers_lawful .file (fun _ => none)
    [Start.plain 1, Start.blind 2]
  have hlost := (List.pairwise_cons.1 hstable.unwraps).1 _ List.mem_cons_self
    (plainProvider 1) (plainProvider 2) rfl rfl
    ⟨[], List.replicate NONCE_LEN 0, List.replicate 32 0, List.length_replicate,
      List.length_replicate⟩
  have hhead := congrArg (fun b => b.bind List.head?) hlost
  revert hhead
  decide

end Kerplace
