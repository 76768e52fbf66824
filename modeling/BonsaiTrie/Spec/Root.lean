import BonsaiTrie.Framework.PatriciaMap
import BonsaiTrie.Impl.Felt

/-!
# The root of a map

The Merkle-Patricia root of a finite map from keys of one length to field
elements, said of the map alone.
-/

namespace Bonsai

open Patricia

/-- The root of a map on the keys of length `n`: zero if it has none; the hash of the roots of its
halves if both have keys; else the hash of the longest shared prefix over the root of the rest. -/
def merkleRoot (H : StarkHash) (n : Nat) (M : Path → Option Felt) : Felt :=
  mapDigest 0 id (hashBinaryNode H) (edgeHash H) n M

end Bonsai
