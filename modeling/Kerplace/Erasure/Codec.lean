/-
# `Kerplace.Erasure.Codec` — blocks to shards and back

The Reed-Solomon block codec: a block is cut into `K` data shards of one
length, zero padded, and the library adds `M` parity shards.  The library
itself is a parameter; `Mds` is what the codec relies on.  The main result
is that a block is rebuilt from any `K` of its shards.
-/
import Kerplace.Lib.Chunks
import Kerplace.Lib.ShardCode
import Kerplace.Storage.Types

namespace Kerplace

/-- `CodecError`. -/
inductive CodecError where
  | badConfig
  | tooManyMissing
  | badShardLen
  | rs
  deriving DecidableEq

/-- `Codec`: a shape the constructor accepted, with its library. -/
structure Codec where
  data : Nat
  parity : Nat
  rs : ShardCode UInt8
  data_pos : 0 < data
  parity_pos : 0 < parity
  total_le : data + parity ≤ 256

namespace Codec

/-- `Codec::new`. -/
def new (rs : ShardCode UInt8) (data parity : Nat) : Except CodecError Codec :=
  if h : data = 0 ∨ parity = 0 ∨ data + parity > 256 then .error .badConfig
  else .ok ⟨data, parity, rs, by omega, by omega, by omega⟩

/-- `Codec::total`. -/
def total (c : Codec) : Nat := c.data + c.parity

/-- `Codec::shard_len`. -/
def shardLen (c : Codec) (blockLen : Nat) : Nat :=
  max ((blockLen + c.data - 1) / c.data) 1

/-- The `i`-th data shard: its piece of the block, zero padded. -/
def dataShard (slen : Nat) (block : Bytes) (i : Nat) : Bytes :=
  let piece := (block.drop (i * slen)).take slen
  piece ++ List.replicate (slen - piece.length) 0

/-- The `K` data shards of a block. -/
def dataShards (c : Codec) (block : Bytes) : List Bytes :=
  (List.range c.data).map (dataShard (c.shardLen block.length) block)

/-- `Codec::encode_block`. -/
def encodeBlock (c : Codec) (block : Bytes) : Except CodecError (List Bytes) :=
  let slen := c.shardLen block.length
  match c.rs.encode c.data c.parity
      (c.dataShards block ++ List.replicate c.parity (List.replicate slen 0)) with
  | some shards => .ok shards
  | none => .error .rs

/-- The first `K` shards laid end to end, each of the expected length. -/
def gather (slen : Nat) : List (Option Bytes) → Except CodecError Bytes
  | [] => .ok []
  | none :: _ => .error .rs
  | some s :: shards =>
      if s.length ≠ slen then .error .badShardLen
      else (gather slen shards).map (s ++ ·)

/-- `Codec::reconstruct_block`. -/
def reconstructBlock (c : Codec) (shards : List (Option Bytes)) (blockLen : Nat) :
    Except CodecError Bytes :=
  if shards.length ≠ c.total then .error .badShardLen
  else if shards.countP Option.isSome < c.data then .error .tooManyMissing
  else
    match c.rs.reconstruct c.data c.parity shards with
    | none => .error .tooManyMissing
    | some full =>
        (gather (c.shardLen blockLen) (full.take c.data)).map (List.take blockLen)

/-! ## What a shape's codec promises -/

/-- The library keeps its promise at the codec's shape. -/
def Lawful (c : Codec) : Prop := c.rs.Mds 0 c.data c.parity

theorem new_self (c : Codec) : new c.rs c.data c.parity = .ok c := by
  have h1 := c.data_pos
  have h2 := c.parity_pos
  have h3 := c.total_le
  rw [new, dif_neg (by omega)]

variable {c : Codec}

theorem shardLen_pos (c : Codec) (n : Nat) : 0 < c.shardLen n := by
  unfold shardLen
  omega

theorem le_data_mul_shardLen (c : Codec) (n : Nat) : n ≤ c.data * c.shardLen n := by
  have hk := c.data_pos
  have h1 : n ≤ c.data * ((n + c.data - 1) / c.data) := by
    have := Nat.div_add_mod (n + c.data - 1) c.data
    have := Nat.mod_lt (n + c.data - 1) hk
    omega
  exact h1.trans (Nat.mul_le_mul_left _ (Nat.le_max_left _ _))

theorem length_dataShard (slen : Nat) (block : Bytes) (i : Nat) :
    (dataShard slen block i).length = slen := by
  simp only [dataShard, List.length_append, List.length_take, List.length_replicate]
  omega

theorem length_dataShards (c : Codec) (block : Bytes) :
    (c.dataShards block).length = c.data := by
  simp [dataShards]

theorem mem_dataShards {block s : Bytes} (h : s ∈ c.dataShards block) :
    s.length = c.shardLen block.length := by
  obtain ⟨i, -, rfl⟩ := List.mem_map.1 h
  exact length_dataShard _ _ _

theorem dataShard_succ (slen : Nat) (block : Bytes) (i : Nat) :
    dataShard slen block (i + 1) = dataShard slen (block.drop slen) i := by
  have : (i + 1) * slen = slen + i * slen := by
    rw [Nat.succ_mul, Nat.add_comm]
  simp only [dataShard, List.drop_drop, this]

/-- Laid end to end the data shards start with the block. -/
theorem take_flatten_dataShards (slen : Nat) :
    ∀ (k : Nat) (block : Bytes), block.length ≤ k * slen →
      ((List.range k).map (dataShard slen block)).flatten.take block.length = block := by
  intro k
  induction k with
  | zero =>
      intro block h
      simp only [Nat.zero_mul, Nat.le_zero_eq, List.length_eq_zero_iff] at h
      rw [h]
      rfl
  | succ k ih =>
      intro block h
      rw [Nat.succ_mul] at h
      have hrest : (List.range k).map (dataShard slen block ∘ Nat.succ) =
          (List.range k).map (dataShard slen (block.drop slen)) :=
        List.map_congr_left fun i _ => dataShard_succ slen block i
      rw [List.range_succ_eq_map, List.map_cons, List.map_map, hrest, List.flatten_cons]
      by_cases hle : block.length ≤ slen
      · have hfirst : dataShard slen block 0 =
            block ++ List.replicate (slen - block.length) 0 := by
          simp [dataShard, List.take_of_length_le hle]
        rw [hfirst, List.append_assoc, List.take_left]
      · have hfirst : dataShard slen block 0 = block.take slen := by
          simp only [dataShard, Nat.zero_mul, List.drop_zero, List.length_take]
          rw [Nat.min_eq_left (by omega), Nat.sub_self, List.replicate_zero,
            List.append_nil]
        have hlen : (block.take slen).length = slen := by
          rw [List.length_take]
          omega
        have hdrop := ih (block.drop slen) (by rw [List.length_drop]; omega)
        rw [List.length_drop] at hdrop
        rw [hfirst, List.take_append, hlen, hdrop, List.take_of_length_le (by omega),
          List.take_append_drop]

theorem encodeBlock_ok (hc : c.Lawful) (block : Bytes) :
    ∃ shards, c.encodeBlock block = .ok shards ∧ shards.length = c.total ∧
      ∀ s ∈ shards, s.length = c.shardLen block.length := by
  obtain ⟨ps, hps, hlen, henc⟩ := hc.encode_eq (c.dataShards block)
    (c.shardLen block.length) (c.length_dataShards block) (c.shardLen_pos _)
    fun s hs => mem_dataShards hs
  refine ⟨c.dataShards block ++ ps, by rw [encodeBlock, henc], ?_, ?_⟩
  · rw [List.length_append, length_dataShards, hps]
    rfl
  · intro s hs
    rcases List.mem_append.1 hs with h | h
    · exact mem_dataShards h
    · exact hlen s h

theorem gather_map_some {slen : Nat} :
    ∀ {ss : List Bytes}, (∀ s ∈ ss, s.length = slen) →
      gather slen (ss.map some) = .ok ss.flatten
  | [], _ => rfl
  | s :: ss, h => by
      have hs := h s (List.mem_cons_self)
      have ih := gather_map_some fun t ht => h t (List.mem_cons_of_mem s ht)
      simp [gather, hs, ih, Except.map]

/-- Any `K` of a block's shards give the block back. -/
theorem reconstructBlock_encodeBlock (hc : c.Lawful) {block : Bytes}
    {shards : List Bytes} (henc : c.encodeBlock block = .ok shards)
    {slots : List (Option Bytes)} (hag : ShardCode.Agrees slots shards)
    (hcount : c.data ≤ slots.countP Option.isSome) :
    c.reconstructBlock slots block.length = .ok block := by
  have hds := c.length_dataShards block
  obtain ⟨ps, hps, -, henc'⟩ := hc.encode_eq (c.dataShards block)
    (c.shardLen block.length) hds (c.shardLen_pos _) fun s hs => mem_dataShards hs
  obtain rfl : c.dataShards block ++ ps = shards := by
    rw [encodeBlock, henc'] at henc
    cases henc
    rfl
  have hrec := hc.reconstruct_eq _ ps _ hds (c.shardLen_pos _)
    (fun s hs => mem_dataShards hs) henc' slots hag hcount
  have hlen : slots.length = c.total := by
    rw [hag.1, List.length_append, hds, hps]
    rfl
  rw [reconstructBlock, if_neg (by simp [hlen]), if_neg (by omega), hrec]
  have htake : ((c.dataShards block ++ ps).map some).take c.data =
      (c.dataShards block).map some := by
    rw [List.map_append, ← hds, ← List.length_map some, List.take_left]
  simp only [htake, gather_map_some fun s hs => mem_dataShards hs, Except.map]
  rw [dataShards, take_flatten_dataShards _ _ _ (le_data_mul_shardLen c block.length)]

theorem reconstructBlock_few {slots : List (Option Bytes)} {n : Nat}
    (h : slots.countP Option.isSome < c.data) :
    ∃ e, c.reconstructBlock slots n = .error e := by
  unfold reconstructBlock
  by_cases hl : slots.length ≠ c.total
  · exact ⟨_, if_pos hl⟩
  · exact ⟨.tooManyMissing, by rw [if_neg hl, if_pos h]⟩

end Codec

end Kerplace
