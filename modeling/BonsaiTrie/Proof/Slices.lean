import BonsaiTrie.Proof.HashMapDb
import BonsaiTrie.Spec.Slices

/-!
# Keys that are spelled differently

The cache, the flat table and the death row use the backing bytes of a key, the
rest of the tree its bits. Two slices of the same bits have the same bytes
exactly when they are `Backed` alike (`bytes_eq_iff`); where every prefix of a
key is, it can be respelled anywhere in a run (`respelled_run`).
-/

namespace Bonsai

open Run

namespace BitSlice

variable {s s' : BitSlice}

theorem bytes_eq_iff (h : s.bits = s'.bits) : bitsliceToBytes s = bitsliceToBytes s' ↔ s.Backed s' := by
  obtain ⟨head, bits⟩ := s
  obtain ⟨head', bits'⟩ := s'
  obtain rfl : bits = bits' := h
  rw [Backed, bitsliceToBytes, bitsliceToBytes]
  by_cases hb : bits = []
  · simp [hb]
  · rw [if_neg (by simpa using hb), if_neg (by simpa using hb), List.cons.injEq, rawSlice, rawSlice, Pack.pack_shift_iff,
      Fin.val_inj]
    simp [len, hb]

/-- The bytes of every prefix are the same. -/
theorem Respelled.bytes_upTo (h : s.Respelled s') (d : Nat) : bitsliceToBytes (s.upTo d) = bitsliceToBytes (s'.upTo d) :=
  (bytes_eq_iff (by rw [upTo, upTo, h.bits])).mpr (h.backed d)

theorem upTo_len (s : BitSlice) : s.upTo s.len = s := by rw [upTo, len, List.take_length]

theorem Respelled.len_eq (h : s.Respelled s') : s.len = s'.len := by rw [len, len, h.bits]

theorem Respelled.bytes (h : s.Respelled s') : bitsliceToBytes s = bitsliceToBytes s' := by
  rw [← upTo_len s, h.bytes_upTo, h.len_eq, upTo_len]

end BitSlice

section

variable [FeltCodec] {DB ID : Type} [BonsaiDatabase DB] {key key' : BitSlice}

namespace MerkleTree

omit [FeltCodec] in
theorem splitEdge_congr {E : Type} (h : key.Respelled key') (keyBytes : ByteVec) (value : Felt) (nodeId : NodeKey)
    (edge : EdgeNode) : (splitEdge key keyBytes value nodeId edge : M E Unit) = splitEdge key' keyBytes value nodeId edge := by
  simp only [splitEdge, h.bits, h.len_eq, h.bytes_upTo]

/-- A write does not depend on the spelling of its key. -/
theorem set_congr (db : KeyValueDB DB ID) (h : key.Respelled key') (value : Felt) : set db key value = set db key' value := by
  simp only [set, deleteLeaf, deleteWalk, setWalk, setAt, setRoot, splitEdge_congr h, h.bits, h.len_eq]
  rw [h.bytes]

end MerkleTree

variable [Id ID] {T : Type} [BonsaiPersistentDatabase DB ID T]

/-- Nor does any other call. -/
theorem Access.run_congr (H : StarkHash) {a a' : Access ID} (h : a.Respelled a') :
    (Access.run H a : MerkleTrees.M DB ID Reply) = Access.run H a' := by
  cases h with
  | insert identifier value h =>
    simp only [run, BonsaiStorage.insert, MerkleTrees.set, MerkleTree.set_congr _ h]
  | remove identifier h => simp only [run, BonsaiStorage.remove, MerkleTrees.set, MerkleTree.set_congr _ h]
  | get identifier h =>
    simp only [run, BonsaiStorage.get, MerkleTrees.get, MerkleTree.get]
    rw [h.bytes]
  | contains identifier h =>
    simp only [run, BonsaiStorage.contains, MerkleTrees.contains, MerkleTree.contains]
    rw [h.bytes]
  | rootHash identifier => rfl
  | commit ords logOrd id => rfl

/-- Slices of the same bits have the same bytes exactly when they are backed alike, and where this holds
of every prefix of a key, respelling it anywhere in a run changes no result and no state. -/
theorem respelled_run (H : StarkHash) :
    (∀ s s' : BitSlice, s.bits = s'.bits → (bitsliceToBytes s = bitsliceToBytes s' ↔ s.Backed s')) ∧
      ∀ (st : BonsaiStorage DB ID) (as as' : List (Access ID)), List.Forall₂ Access.Respelled as as' →
        Trace.answers (Access.run H) as st = Trace.answers (Access.run H) as' st ∧
          Trace.after (Access.run H) as st = Trace.after (Access.run H) as' st := by
  refine ⟨fun s s' => BitSlice.bytes_eq_iff, fun st as as' h => ?_⟩
  exact (Trace.congr (h.imp fun a a' => Access.run_congr H)).symm

end

/-- A key that is written. -/
def writtenKey : BitSlice := .aligned [false]

/-- The same bit, from another bit of its byte. -/
def shiftedKey : BitSlice := ⟨⟨3, by decide⟩, [false]⟩

theorem respelled_shiftedKey : writtenKey.Respelled shiftedKey := by
  refine ⟨rfl, fun d => ?_⟩
  rcases d with _ | d
  · exact .inl rfl
  · exact .inr (.inr ⟨by simp [writtenKey, BitSlice.aligned, BitSlice.upTo], by
      simp [writtenKey, shiftedKey, BitSlice.aligned, BitSlice.upTo, BitSlice.len]⟩)

theorem respelled_run_zero :
    Trace.answers (Access.run fun a b => a + b) [.insert [] writtenKey 1, .get [] writtenKey] (BonsaiStorage.inMemory 1) =
      Trace.answers (Access.run fun a b => a + b) [.insert [] writtenKey 1, .get [] shiftedKey] (BonsaiStorage.inMemory 1) :=
  ((respelled_run fun a b => a + b).2 (BonsaiStorage.inMemory 1) _ _
    (.cons (.insert [] 1 ⟨rfl, fun _ => .inr (.inl rfl)⟩) (.cons (.get [] respelled_shiftedKey) .nil))).1

/-- A key with a bit that is set is not found under another spelling. -/
theorem respelled_not_found :
    (BitSlice.aligned [true]).bits = (BitSlice.mk 3 [true]).bits ∧
      Trace.answers (Access.run fun a b => a + b) [.insert [] (.aligned [true]) 1, .get [] (.aligned [true])]
        (BonsaiStorage.inMemory 1) = [.ok .done, .ok (.value (some 1))] ∧
      Trace.answers (Access.run fun a b => a + b) [.insert [] (.aligned [true]) 1, .get [] ⟨3, [true]⟩]
        (BonsaiStorage.inMemory 1) = [.ok .done, .ok (.value none)] := by
  refine ⟨rfl, ?_, ?_⟩ <;> decide +kernel

end Bonsai
