/-
# `Kerplace.Erasure.Replicated` — the simplest erasure store

One data shard repeated on every parity drive, checksums that spell out the
bytes, and a cipher that only appends a tag.  Everything the theorems ask of
a store's parameters holds of it, for every number of drives.
-/
import Kerplace.Erasure.Put

namespace Kerplace

/-- The bytes as the characters of their numbers. -/
def spell (b : Bytes) : Str := b.map fun x => Char.ofNat x.toNat

theorem ofNat_toNat_injective :
    Function.Injective fun x : UInt8 => Char.ofNat x.toNat := by
  intro x y h
  have hval : ∀ z : UInt8, (Char.ofNat z.toNat).toNat = z.toNat := fun z => by
    have hz := z.toNat_lt
    rw [Char.ofNat, dif_pos (Or.inl (by omega))]
    rfl
  have := congrArg Char.toNat h
  simp only [hval] at this
  exact UInt8.toNat_inj.1 this

theorem spell_injective : Function.Injective spell :=
  List.map_injective_iff.2 ofNat_toNat_injective

namespace ErasureStore

/-- One data shard on `1 + parity` drives. -/
def replicated (parity blockSize : Nat) (hpos : 0 < parity) (hle : 1 + parity ≤ 256) :
    ErasureStore (1 + parity) where
  codec := ⟨1, parity, .replication, by omega, hpos, hle⟩
  total_eq := rfl
  blockSize := blockSize
  crypto := .tagged
  encryptAll := false
  checksum := spell
  md5 := id

theorem replicated_lawful {parity blockSize : Nat} (hpos : 0 < parity)
    (hle : 1 + parity ≤ 256) : (replicated parity blockSize hpos hle).codec.Lawful :=
  ShardCode.replication_mds 0 parity

/-- Three drives, two of them parity, and blocks of four bytes. -/
def trio : ErasureStore 3 := replicated 2 4 (by decide) (by decide)

theorem trio_lawful : trio.codec.Lawful := replicated_lawful _ _

end ErasureStore

/-- Every drive's directory is the root of its machine. -/
def topRoot {n : Nat} : Fin n → List Str := fun _ => []

/-- A cluster with nothing but one bucket on every drive. -/
def withBucket {n : Nat} (bucket : Str) : Cluster n Doc := fun _ =>
  (FileTree.empty.createDirAll [bucket]).getD .empty

end Kerplace
