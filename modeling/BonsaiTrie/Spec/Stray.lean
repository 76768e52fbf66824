import BonsaiTrie.Framework.PatriciaMap
import BonsaiTrie.Impl.Bits

/-!
# The database keys of several trees

`set` puts the key of an edge it splits on the death row as the bytes of a
slice of the caller's key, without the identifier of the tree; the nodes of a
tree are under the identifier and the path. What it takes for these keys not
to be those of other nodes.
-/

namespace Bonsai

open Patricia

/-- The key an edge's split puts on the death row is that of no other node of the trie. -/
def NoStray {α : Type} (identifier : ByteVec) (t : Trie α) (key : BitSlice) : Prop :=
  ∀ d q c, t.sub (key.bits.take d) = some (.edge q c) → ¬ q <+: key.bits.drop d →
    ∀ p, t.HasNode p → p ≠ key.bits.take d → bitsliceToBytes (key.upTo d) ≠ identifier ++ Path.encode p

/-- It is one of the shape of the trie. -/
theorem NoStray.of_sameShape {α β : Type} {identifier : ByteVec} {t : Trie α} {t' : Trie β} {key : BitSlice}
    (h : NoStray identifier t key) (hs : SameShape t t') : NoStray identifier t' key := by
  intro d q c hsub hq p hp
  obtain ⟨c', hc'⟩ := SameShape.sub_edge (Eq.symm hs) hsub
  exact h d q c' hc' hq p ((hs.hasNode p).mpr hp)

/-- Identifiers whose trees have no database keys in common. -/
def Apart (n : Nat) (S : Set ByteVec) : Prop :=
  ∀ X ∈ S, ∀ Y ∈ S, X ≠ Y → ∀ p q : Path, p.length ≤ n → q.length < n → X ++ p.encode ≠ Y ++ q.encode

/-- There is nothing to keep apart with one identifier. -/
theorem apart_singleton (n : Nat) (X : ByteVec) : Apart n {X} := by
  rintro Y rfl Z rfl hne
  exact (hne rfl).elim

end Bonsai
