import BonsaiTrie.Framework.Trace
import BonsaiTrie.Impl.Storage
import BonsaiTrie.Spec.Leaves

/-!
# Calls on one tree

The calls on the tree of the empty identifier, and what they do to its leaves:
asking for a proof does nothing to them.
-/

namespace Bonsai

/-- A call on the tree of the empty identifier. -/
inductive Call where
  | set (key : BitSlice) (value : Felt)
  | getMultiProof (keys : List BitSlice)
  | commit (ords : HashOrders)

namespace Call

/-- The call; a proof is not kept. -/
def run [FeltCodec] {DB ID : Type} [BonsaiDatabase DB] (H : StarkHash) : Call → MerkleTrees.M DB ID Unit
  | set key value => MerkleTrees.set [] key value
  | getMultiProof keys => do let _ ← MerkleTrees.getMultiProof H [] keys
  | commit ords => MerkleTrees.commit H ords

/-- The keys are stored from the first bit of a byte. -/
def Aligned : Call → Prop
  | set key _ => key.head.val = 0
  | getMultiProof _ => True
  | commit _ => True

/-- The keys have the length of those of the tree. -/
def Fits (n : Nat) : Call → Prop
  | set key _ => key.len = n
  | getMultiProof keys => ∀ key ∈ keys, key.len = n
  | commit _ => True

/-- What the call does to the leaves: a key of another length is refused. -/
def leaves (n : Nat) (s : Leaves) : Call → Leaves
  | set key value => if key.len = n then s.set key.bits value else s
  | getMultiProof _ => s
  | commit _ => s.commit

end Call

end Bonsai
