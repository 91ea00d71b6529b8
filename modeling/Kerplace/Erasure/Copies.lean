/-
# `Kerplace.Erasure.Copies` — what a copy makes of a source that lost shards

A copy reads its source to the end of the stream, and the stream ends where a block cannot
be rebuilt as it ends after the last one.  What came up to there is written as an object of
its own, under its own length and ETag, so the loss is not seen again.  A copy that is
refused changes nothing; one that reaches fewer drives than a write needs removes what
they had of the destination.
-/
import Kerplace.Erasure.Serial

namespace Kerplace

open FileTree

namespace ErasureStore

variable {n : Nat} {S : ErasureStore n} {site : Site n} {s : Cluster n Doc}

/-! ## The source -/

/-- An object as it was stored: its plaintext, and what was made of it. -/
structure Original {n : Nat} (S : ErasureStore n) where
  plain : Bytes
  env : CallEnv
  encrypted : Bool
  contentType : Str
  userMetadata : UserMeta
  etagOverride : Option Str
  src : Body
  source : S.sourceOf env (.ofBytes plain) encrypted = some src
  sized : 0 < S.blockSize

theorem sourceOf_clean {env : CallEnv} {plain : Bytes} {encrypted : Bool} {src : Body}
    (h : S.sourceOf env (.ofBytes plain) encrypted = some src) : src.err = false := by
  unfold sourceOf at h
  cases encrypted with
  | false =>
      cases h
      rfl
  | true =>
      rw [if_pos rfl] at h
      unfold Crypto.encryptingReader at h
      split at h
      · cases h
      · cases h
        rfl

theorem bodyBlocks_clean {bs : Nat} (hbs : 0 < bs) {src : Body} (h : src.err = false) :
    (bodyBlocks bs src).2 = false := by
  rw [bodyBlocks, if_neg (by omega), h]
  rfl

namespace Original

/-- Its blocks. -/
def blocks (o : Original S) : List Bytes := (bodyBlocks S.blockSize o.src).1

/-- Its metadata. -/
def xl (o : Original S) : XlMeta :=
  S.xlFor o.env o.blocks o.contentType o.userMetadata o.encrypted o.etagOverride

theorem bodyBlocks_eq (o : Original S) : bodyBlocks S.blockSize o.src = (o.blocks, false) :=
  Prod.ext rfl (bodyBlocks_clean o.sized (sourceOf_clean o.source))

/-- What can be read of the source as it is now: its leading blocks, up to one that too
few reachable drives hold, opened if they are encrypted. -/
def readable (o : Original S) (site : Site n) (bucket key : Str) (s : Cluster n Doc) :
    Option Bytes :=
  let raw := (o.blocks.take (S.rebuilt site s (rObjV bucket key none) o.blocks 0
    o.blocks.length)).flatten
  if o.encrypted then S.crypto.decryptingReader raw else some raw

/-- Enough reachable drives hold every block. -/
def Whole (o : Original S) (site : Site n) (bucket key : Str) (s : Cluster n Doc) : Prop :=
  o.blocks.flatten ≠ [] → ∀ i, i < o.blocks.length →
    S.codec.data ≤ holders S site s (rObjV bucket key none) o.blocks i

instance (o : Original S) (site : Site n) (bucket key : Str) (s : Cluster n Doc) :
    Decidable (o.Whole site bucket key s) := by
  unfold Whole
  infer_instance

variable {o : Original S} {bucket key : Str}

theorem run_readBody (hS : S.codec.Lawful) (hsum : Function.Injective S.checksum)
    (o : Original S) : site.run (S.readBody bucket key none o.xl) s =
      (match o.readable site bucket key s with
        | some plain => .ok plain
        | none => .error (.internal "decrypt object"), s) := by
  have hrun := run_streamingBody_rebuilt (s := s) hS o.bodyBlocks_eq o.env o.contentType
    o.userMetadata o.encrypted o.etagOverride
    (unmistaken_of_injective hsum site s (rObjV bucket key none) o.blocks)
  have henc : o.xl.encrypted = o.encrypted := rfl
  rw [readBody, Site.run_bind, show site.run (S.streamingBody bucket key none o.xl) s = _
    from hrun, Prog.andThen_ok, henc]
  unfold readable
  cases o.encrypted with
  | false => rfl
  | true =>
      rw [if_pos rfl, if_pos rfl]
      cases S.crypto.decryptingReader _ <;> rfl

theorem readable_eq_iff (hS : S.codec.Lawful) (hcr : S.crypto.Lawful)
    (hsum : Function.Injective S.checksum) :
    o.readable site bucket key s = some o.plain ↔ o.Whole site bucket key s := by
  have hbody : (site.run (S.readBody bucket key none o.xl) s).1 = .ok o.plain ↔ _ :=
    run_readBody_eq_iff hS hcr o.source o.bodyBlocks_eq o.contentType o.userMetadata
      o.etagOverride (unmistaken_of_injective hsum site s (rObjV bucket key none) o.blocks)
  rw [run_readBody hS hsum] at hbody
  refine Iff.trans ?_ (hbody.trans ⟨fun h => h.2.2, fun h => ⟨.inl o.sized, fun _ => rfl, h⟩⟩)
  cases o.readable site bucket key s <;> simp

end Original

/-! ## The destination -/

/-- Nothing there is of a key has changed. -/
def SameKey (site : Site n) (bucket key : Str) (s s' : Cluster n Doc) : Prop :=
  ∀ d (a : Place), a.Proper → (s' d).look (site.objDir bucket key d ++ a.rel) =
    (s d).look (site.objDir bucket key d ++ a.rel)

/-- The reachable drives have nothing of a key. -/
def Unheld (site : Site n) (bucket key : Str) (s : Cluster n Doc) : Prop :=
  ∀ d, site.up d = true → ∀ a : Place, a.Proper →
    (s d).look (site.objDir bucket key d ++ a.rel) = none

/-- A copy is whole or fails: acknowledged, it can be read back as `plain`; refused, it
has left the destination as it was. -/
structure CopiesWhole (S : ErasureStore n) (site : Site n) (env : CallEnv)
    (srcBucket srcKey bucket key : Str) (encrypt : Bool) (plain : Bytes) (s : Cluster n Doc) :
    Prop where
  ok : ∀ om s', site.run (S.copyObject env srcBucket srcKey bucket key encrypt) s = (.ok om, s') →
    ∃ m, (site.run (S.getObject bucket key) s').1 = .ok (m, plain)
  error : ∀ e s', site.run (S.copyObject env srcBucket srcKey bucket key encrypt) s =
    (.error e, s') → SameKey site bucket key s s'

/-- A copy is refused before it writes: there is no such bucket, the key is not valid,
nothing of the source can be opened, or no data key can be minted. -/
def CopyRefused (S : ErasureStore n) (site : Site n) (env : CallEnv)
    (srcBucket srcKey bucket key : Str) (encrypt : Bool) (o : Original S) (s : Cluster n Doc) :
    Prop :=
  bucketUp site bucket s = false ∨ validateKey key ≠ .ok () ∨
    o.readable site srcBucket srcKey s = none ∨
    (S.shouldEncrypt encrypt = true ∧ S.crypto.newWrappedDek env.keyRand = none)

section

variable {srcBucket srcKey bucket key : Str} {env : CallEnv} {encrypt : Bool} {plain : Bytes}
  {o : Original S} {s' : Cluster n Doc}

theorem copiesWhole_of_ok {om : ObjectMeta}
    (h : site.run (S.copyObject env srcBucket srcKey bucket key encrypt) s = (.ok om, s')) :
    S.CopiesWhole site env srcBucket srcKey bucket key encrypt plain s ↔
      ∃ m, (site.run (S.getObject bucket key) s').1 = .ok (m, plain) := by
  refine ⟨fun hw => hw.ok om s' h, fun hm => ⟨fun om' t ht => ?_, fun e t ht => ?_⟩⟩
  · rw [h] at ht
    cases ht
    exact hm
  · rw [h] at ht
    cases ht

theorem copiesWhole_of_error {e : S3Error}
    (h : site.run (S.copyObject env srcBucket srcKey bucket key encrypt) s = (.error e, s')) :
    S.CopiesWhole site env srcBucket srcKey bucket key encrypt plain s ↔
      SameKey site bucket key s s' := by
  refine ⟨fun hw => hw.error e s' h, fun hm => ⟨fun om t ht => ?_, fun e' t ht => ?_⟩⟩
  · rw [h] at ht
    cases ht
  · rw [h] at ht
    cases ht
    exact hm

theorem sourceOf_eq_none {body : Body} {encrypted : Bool} :
    S.sourceOf env body encrypted = none ↔
      encrypted = true ∧ S.crypto.newWrappedDek env.keyRand = none := by
  unfold sourceOf Crypto.encryptingReader
  cases encrypted with
  | false => simp
  | true =>
      simp only [if_true, true_and]
      cases S.crypto.newWrappedDek env.keyRand <;> simp

/-- A copy puts what it could read of its source. -/
theorem run_copyObject (hS : S.codec.Lawful) (hsum : Function.Injective S.checksum)
    (hxl : (site.run (readXl srcBucket srcKey) s).1 = .ok o.xl) :
    site.run (S.copyObject env srcBucket srcKey bucket key encrypt) s =
      match o.readable site srcBucket srcKey s with
      | none => (.error (.internal "decrypt object"), s)
      | some plain => site.run (S.putObject env bucket key (.ofBytes plain) o.contentType
          o.userMetadata encrypt) s := by
  have hread : site.run (readXl srcBucket srcKey) s = (.ok o.xl, s) := by
    have hrun : site.run (readXl srcBucket srcKey) s = _ := run_readXlV srcBucket srcKey none
    rw [hrun] at hxl ⊢
    rw [← hxl]
  have hget : site.run (S.getObject srcBucket srcKey) s =
      (match o.readable site srcBucket srcKey s with
        | some plain => .ok (metaToObject srcKey o.xl, plain)
        | none => .error (.internal "decrypt object"), s) := by
    rw [getObject, Site.run_bind, hread, Prog.andThen_ok, Site.run_bind,
      Original.run_readBody hS hsum]
    cases o.readable site srcBucket srcKey s <;> rfl
  rw [copyObject, Site.run_bind, hget]
  cases o.readable site srcBucket srcKey s <;> rfl

end

/-! ## What a put leaves -/

section

variable {bucket key : Str} {K : KeyStates n} {env : CallEnv} {mode : VMode}
  {blocks : List Bytes × Bool} {xl : XlMeta} {d : Fin n}

/-- What a put that is not refused makes of what the drives have. -/
def KeyStates.put (S : ErasureStore n) (site : Site n) (key : Str) (env : CallEnv)
    (mode : VMode) (blocks : List Bytes × Bool) (xl : XlMeta) (K : KeyStates n) : KeyStates n :=
  if mode = .off then K.write S site blocks xl
  else K.writeVersioned S site key env mode blocks xl

theorem put_short (hend : blocks.2 = false) (hq : tally site.up < S.codec.data + 1)
    (hd : site.up d = true) : KeyStates.put S site key env mode blocks xl K d = .bare := by
  have hwrite : ∀ K₀ : KeyStates n, K₀.write S site blocks xl d = .bare := by
    intro K₀
    rw [KeyStates.write, hend, if_neg Bool.false_ne_true, if_pos hq, KeyStates.onUp, if_pos hd]
  have hanswer : writeAnswer S site key blocks xl =
      .error (.internal "write quorum not met") := by
    rw [writeAnswer, hend, if_neg Bool.false_ne_true, if_pos hq]
  unfold KeyStates.put
  split
  · exact hwrite K
  · unfold KeyStates.writeVersioned
    rw [hanswer]
    exact hwrite _

/-- With a write quorum they have the new copy at the current slot. -/
theorem put_slot (hend : blocks.2 = false) (hq : ¬ tally site.up < S.codec.data + 1)
    (hd : site.up d = true) :
    (KeyStates.put S site key env mode blocks xl K d).slot none = some ⟨blocks.1, xl⟩ := by
  have hwrite : ∀ K₀ : KeyStates n, (K₀.write S site blocks xl d).slot none =
      some ⟨blocks.1, xl⟩ := by
    intro K₀
    rw [KeyStates.write, hend, if_neg Bool.false_ne_true, if_neg hq, KeyStates.onUp, if_pos hd]
    exact KeyState.slot_setSlot_self _ _
  have hanswer : writeAnswer S site key blocks xl = .ok (metaToObject key xl) := by
    rw [writeAnswer, hend, if_neg Bool.false_ne_true, if_neg hq]
  unfold KeyStates.put
  split
  · exact hwrite K
  · unfold KeyStates.writeVersioned
    rw [hanswer]
    exact (congrFun (slot_record site _ _ d) none).trans (hwrite _)

/-- A put that is not refused leads there. -/
theorem leads_putObject {s : Cluster n Doc} (hS : S.codec.Lawful)
    (hne : ∀ d, site.objDir bucket key d ≠ []) (hk : Keeps S site bucket key K s)
    (hK : K.Proper) (hb : bucketUp site bucket s = true) (hkey : validateKey key = .ok ())
    {body src : Body} {contentType : Str} {userMetadata : UserMeta} {encrypt : Bool}
    (hsrc : S.sourceOf env body (S.shouldEncrypt encrypt) = some src)
    (hblocks : bodyBlocks S.blockSize src = blocks)
    (hxl : S.xlFor env blocks.1 contentType userMetadata (S.shouldEncrypt encrypt) none = xl) :
    ∃ f : ObjectMeta → ObjectMeta, Leads S site bucket key
      (S.putObject env bucket key body contentType userMetadata encrypt) s
      ((writeAnswer S site key blocks xl).map f)
      (KeyStates.put S site key env (modeOf site bucket s) blocks xl K) := by
  have hrun : site.run (S.putObject env bucket key body contentType userMetadata encrypt) s = _ :=
    run_putObject env bucket key body contentType userMetadata encrypt
  simp only [hb, hkey, hsrc, Bool.true_eq_false, if_false] at hrun
  unfold KeyStates.put
  by_cases hoff : modeOf site bucket s = .off
  · rw [if_pos hoff] at hrun ⊢
    obtain ⟨s', hwrite, hk'⟩ := leads_writeSharded hS hk hne env src contentType
      userMetadata (S.shouldEncrypt encrypt) none hblocks hxl
    refine ⟨id, s', hrun.trans (hwrite.trans ?_), hk'⟩
    cases writeAnswer S site key blocks xl <;> rfl
  · rw [if_neg hoff] at hrun ⊢
    obtain ⟨s', hwrite, hk'⟩ := leads_writeVersioned hS hk hK (tally_of_bucketUp hb) hne env
      (modeOf site bucket s) src contentType userMetadata (S.shouldEncrypt encrypt) hblocks hxl
    exact ⟨_, s', hrun.trans hwrite, hk'⟩

end

/-! ## The copy -/

/-- With no write quorum in reach, a copy that is not refused removes what the reachable
drives have of the destination; with one, it puts what it could read of the source. -/
theorem copiesWhole_iff (hS : S.codec.Lawful) (hsum : Function.Injective S.checksum)
    (hcr : S.crypto.Lawful) {srcBucket srcKey bucket key : Str} {env : CallEnv}
    {encrypt : Bool} {o : Original S} {K : KeyStates n}
    (hb : validateBucketName bucket = .ok ()) (hk : Keeps S site bucket key K s)
    (hK : K.Proper) (hxl : (site.run (readXl srcBucket srcKey) s).1 = .ok o.xl) :
    S.CopiesWhole site env srcBucket srcKey bucket key encrypt o.plain s ↔
      S.CopyRefused site env srcBucket srcKey bucket key encrypt o s ∨
        if tally site.up < S.codec.data + 1 then Unheld site bucket key s
        else o.Whole site srcBucket srcKey s := by
  have hrun : site.run (S.copyObject env srcBucket srcKey bucket key encrypt) s = _ :=
    run_copyObject hS hsum hxl
  cases hread : o.readable site srcBucket srcKey s with
  | none =>
      rw [hread] at hrun
      exact iff_of_true ((copiesWhole_of_error hrun).2 fun _ _ _ => rfl)
        (.inl (.inr (.inr (.inl hread))))
  | some plain =>
      rw [hread] at hrun
      dsimp only at hrun
      by_cases href : S.CopyRefused site env srcBucket srcKey bucket key encrypt o s
      · -- Each check fails before the first change.
        obtain ⟨e, he⟩ : ∃ e, site.run (S.putObject env bucket key (.ofBytes plain)
            o.contentType o.userMetadata encrypt) s = (.error e, s) := by
          rw [run_putObject]
          split
          · exact ⟨_, rfl⟩
          · rename_i hup
            split
            · exact ⟨_, rfl⟩
            · rename_i hkey
              split
              · exact ⟨_, rfl⟩
              · rename_i src hsrc
                rcases href with h | h | h | h
                · exact absurd h hup
                · exact absurd hkey h
                · rw [hread] at h
                  cases h
                · rw [sourceOf_eq_none.2 h] at hsrc
                  cases hsrc
        exact iff_of_true ((copiesWhole_of_error (hrun.trans he)).2 fun _ _ _ => rfl)
          (.inl href)
      · obtain ⟨hup, hkey, hdek⟩ : bucketUp site bucket s = true ∧ validateKey key = .ok () ∧
            S.sourceOf env (.ofBytes plain) (S.shouldEncrypt encrypt) ≠ none := by
          refine ⟨?_, ?_, fun h => href (.inr (.inr (.inr (sourceOf_eq_none.1 h))))⟩
          · by_contra h
            exact href (.inl (by simpa using h))
          · by_contra h
            exact href (.inr (.inl h))
        obtain ⟨src, hsrc⟩ := Option.ne_none_iff_exists'.1 hdek
        have hend : (bodyBlocks S.blockSize src).2 = false :=
          bodyBlocks_clean o.sized (sourceOf_clean hsrc)
        have hne : ∀ d, site.objDir bucket key d ≠ [] := fun d =>
          Site.objDir_ne_nil (validateBucketName_atom hb) (validateKey_plain hkey)
        have hleads : ∃ f : ObjectMeta → ObjectMeta, Leads S site bucket key (S.putObject env
            bucket key (.ofBytes plain) o.contentType o.userMetadata encrypt) s _ _ :=
          leads_putObject hS hne hk hK hup hkey hsrc rfl rfl
        obtain ⟨f, s', hput, hk'⟩ := hleads
        by_cases hq : tally site.up < S.codec.data + 1
        · have hanswer : ∀ xl, writeAnswer S site key (bodyBlocks S.blockSize src) xl =
              .error (.internal "write quorum not met") := by
            intro xl
            rw [writeAnswer, hend, if_neg Bool.false_ne_true, if_pos hq]
          rw [if_pos hq]
          rw [hanswer] at hput
          have hnone : ∀ d, site.up d = true → ∀ a : Place, a.Proper →
              (s' d).look (site.objDir bucket key d ++ a.rel) = none := by
            intro d hd a ha
            refine ((hk' d).place a ha).trans ?_
            rw [put_short hend hq hd, KeyState.shelf_bare]
            rfl
          refine (copiesWhole_of_error (hrun.trans hput)).trans
            ⟨fun h => .inr fun d hd a ha => (h d a ha).symm.trans (hnone d hd a ha), ?_⟩
          rintro (h | hunheld) d a ha
          · exact absurd h href
          · by_cases hd : site.up d = true
            · rw [hnone d hd a ha, hunheld d hd a ha]
            · have hdown := Site.run_down (by simpa using hd) (S.putObject env bucket key
                (.ofBytes plain) o.contentType o.userMetadata encrypt) s
              rw [hput] at hdown
              rw [show s' d = s d from hdown]
        · rw [if_neg hq]
          have hanswer : ∀ xl, writeAnswer S site key (bodyBlocks S.blockSize src) xl =
              .ok (metaToObject key xl) := by
            intro xl
            rw [writeAnswer, hend, if_neg Bool.false_ne_true, if_neg hq]
          rw [hanswer] at hput
          let c : PutCall n :=
            ⟨site.up, env, .ofBytes plain, o.contentType, o.userMetadata, encrypt⟩
          have hsource : S.putSource c = some src := hsrc
          have hblocks : S.putBlocks c = bodyBlocks S.blockSize src := by
            rw [putBlocks, hsource]
          have hxl' : S.putXl c = S.xlFor env (bodyBlocks S.blockSize src).1 o.contentType
              o.userMetadata (S.shouldEncrypt encrypt) none := by
            rw [putXl, hblocks]
          have hsound : c.Sound S .off :=
            ⟨fun _ _ => .inl o.sized, fun _ => rfl, fun _ _ => .inl rfl⟩
          have hget := hk'.getObject_up hS hsum hcr (by omega) (by omega) hsound
            (by rw [hblocks, hend]) fun d hd => by rw [put_slot hend hq hd, hblocks, hxl']
          refine (copiesWhole_of_ok (hrun.trans hput)).trans ?_
          rw [hget, or_iff_right href, ← Original.readable_eq_iff hS hcr hsum, hread]
          simp [c, Body.ofBytes]

end ErasureStore

end Kerplace
