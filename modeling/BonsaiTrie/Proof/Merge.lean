import BonsaiTrie.Proof.Codec
import BonsaiTrie.Proof.HashMapDb
import BonsaiTrie.Proof.Refine

/-!
# Keys of modified leaves

`bytes_to_bitvec` gives back all the bits of the bytes of a key, the padding of
the last one included: the key comes back when its length is a multiple of
eight, and another one is refused by `set` for its length.
-/

namespace Bonsai

open Pack Run

theorem length_unpack_pack (bits : List Bool) : (unpack (pack bits)).length = 8 * ((bits.length + 7) / 8) := by
  rw [Path.length_unpack, length_pack]

/-- What comes back of a key: its bits, and the padding. -/
theorem bytesToBitvec_bytes {key : BitSlice} (hhead : key.head = 0) (hpos : 0 < key.len) :
    bytesToBitvec (bitsliceToBytes key) = some ⟨key.head, unpack (pack key.bits)⟩ := by
  have hne : ¬ key.bits.isEmpty := by
    rw [List.isEmpty_iff]
    exact List.ne_nil_of_length_pos hpos
  rw [bitsliceToBytes, if_neg hne, bytesToBitvec, BitSlice.rawSlice, hhead]
  rfl

/-- The bits come back without padding when they fill their bytes. -/
theorem unpack_pack_eq_iff (bits : List Bool) : unpack (pack bits) = bits ↔ 8 ∣ bits.length := by
  constructor
  · intro h
    have := length_unpack_pack bits
    rw [h] at this
    omega
  · intro h
    have hlen : (unpack (pack bits)).length = bits.length := by
      rw [length_unpack_pack]
      omega
    rw [← List.take_of_length_le hlen.le, take_unpack_pack]

/-- The key of a modified leaf comes back exactly when its length is a multiple of eight; then a merge
writes that key, and otherwise it is refused. -/
theorem bytesToBitvec_bitsliceToBytes (key : BitSlice) (hhead : key.head = 0) (hpos : 1 ≤ key.len) (_hlen : key.len ≤ 255) :
    (bytesToBitvec (bitsliceToBytes key) = some key ↔ 8 ∣ key.len) ∧
      ∀ [FeltCodec] {DB ID : Type} [BonsaiDatabase DB] (st : BonsaiStorage DB ID) (identifier : ByteVec)
        (op : InsertOrRemove Felt), (st.treeOf identifier).maxHeight.toNat = key.len →
        (8 ∣ key.len → BonsaiStorage.mergeLeaf identifier (bitsliceToBytes key) op st =
          match op with
          | .insert v => BonsaiStorage.insert identifier key v st
          | .remove => BonsaiStorage.remove identifier key st) ∧
        (¬ 8 ∣ key.len → ∃ st', BonsaiStorage.mergeLeaf identifier (bitsliceToBytes key) op st =
          .error (.error (.keyLength key.len (8 * ((key.len + 7) / 8)))) st') := by
  have hiff : bytesToBitvec (bitsliceToBytes key) = some key ↔ 8 ∣ key.len := by
    rw [bytesToBitvec_bytes hhead hpos, Option.some.injEq, BitSlice.len, ← unpack_pack_eq_iff]
    constructor
    · exact fun h => congrArg BitSlice.bits h
    · intro h
      rw [h]
  refine ⟨hiff, fun st identifier op hheight => ⟨fun hdvd => ?_, fun hdvd => ?_⟩⟩
  · rw [BonsaiStorage.mergeLeaf, hiff.mpr hdvd]
    cases op <;> rfl
  · let key' : BitSlice := ⟨key.head, unpack (pack key.bits)⟩
    have hlen' : key'.len = 8 * ((key.len + 7) / 8) := length_unpack_pack key.bits
    have hne : key'.len ≠ (st.treeOf identifier).maxHeight.toNat := by
      rw [hlen', hheight]
      omega
    have hset (v : Felt) : ∃ st', BonsaiStorage.insert identifier key' v st =
        .error (.error (.keyLength key.len (8 * ((key.len + 7) / 8)))) st' := by
      have hrun := MerkleTree.set_keyLength st.db hne v
      rw [hheight, hlen'] at hrun
      refine ⟨{ st with trees := st.trees.insert identifier (st.treeOf identifier) }, ?_⟩
      rw [BonsaiStorage.insert, MerkleTrees.set, MerkleTrees.onTree, hrun]
    rw [BonsaiStorage.mergeLeaf, bytesToBitvec_bytes hhead hpos]
    cases op with
    | insert v => exact hset v
    | remove => exact hset 0

theorem bytesToBitvec_bitsliceToBytes_eight :
    bytesToBitvec (bitsliceToBytes (.aligned [true, false, false, true, false, false, false, true])) =
      some (.aligned [true, false, false, true, false, false, false, true]) :=
  (bytesToBitvec_bitsliceToBytes (.aligned [true, false, false, true, false, false, false, true]) rfl (by decide)
    (by decide)).1.mpr (by decide)

/-- The key of a leaf of height 251 comes back with 256 bits. -/
theorem bytesToBitvec_padded :
    bytesToBitvec (bitsliceToBytes (.aligned (List.replicate 251 true))) =
      some (.aligned (List.replicate 251 true ++ List.replicate 5 false)) := by
  decide +kernel

end Bonsai
