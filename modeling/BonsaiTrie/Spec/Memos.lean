import BonsaiTrie.Spec.Calls
import BonsaiTrie.Spec.Overlay

/-!
# Memoised hashes

The hash that a handle should have, computed from what it leads to without the
memos (`Hashes`), and the calls that leave no memo stale: a `set` that walks
may keep no node with a memo on the way of its key (`keptOn`), since it changes
what is below.
-/

namespace Bonsai

/-- The hash of what a handle leads to; a handle that is a hash stands for it. -/
inductive Hashes (H : StarkHash) (nodes : NodeKey → Option Node) : NodeHandle → Felt → Prop where
  | hash (felt : Felt) : Hashes H nodes (.hash felt) felt
  | binary {key : NodeKey} {node : BinaryNode} {left right : Felt} : nodes key = some (.binary node) →
      Hashes H nodes node.left left → Hashes H nodes node.right right →
      Hashes H nodes (.inMemory key) (hashBinaryNode H left right)
  | edge {key : NodeKey} {node : EdgeNode} {child : Felt} : nodes key = some (.edge node) →
      Hashes H nodes node.child child → Hashes H nodes (.inMemory key) (edgeHash H node.path child)

namespace MerkleTree

/-- Every memo is the hash of what is below its node. -/
def MemosFresh (H : StarkHash) (tree : MerkleTree) : Prop :=
  ∀ key node felt, tree.nodes.slots key = some node → node.getHash = some felt →
    Hashes H tree.nodes.slots (.inMemory key) felt

variable [FeltCodec] {DB ID : Type} [BonsaiDatabase DB] (db : KeyValueDB DB ID) (tree : MerkleTree)

/-- The nodes that the rest of a key leads to from a handle; `fuel` bounds the steps. -/
def wayBelow : Nat → NodeHandle → Path → Path → List Node
  | _, _, _, [] => []
  | 0, _, _, _ :: _ => []
  | fuel + 1, h, path, b :: rest =>
    match nodeAt db tree h path with
    | none => []
    | some (.binary node) =>
      .binary node :: wayBelow fuel (node.getChild (Direction.ofBool b)) (path ++ [b]) rest
    | some (.edge node) =>
      .edge node ::
        if node.path.isPrefixOf (b :: rest) then
          wayBelow fuel node.child (path ++ node.path) ((b :: rest).drop node.path.length)
        else []

/-- The nodes that a key leads to from the root, in memory or in the database. -/
def wayTo (key : Path) : List Node :=
  match rootHandle db tree with
  | none => []
  | some h => wayBelow db tree key.length h [] key

/-- The nodes on the way of a key that `set` keeps, the last first: an insertion puts others in the place
of an edge that the key leaves; a deletion takes away the edge over the leaf and the binary node. -/
def keptOn (key : Path) (value : Felt) : List Node :=
  match (wayTo db tree key).reverse with
  | [] => []
  | .binary node :: above => if value = 0 then above else .binary node :: above
  | .edge node :: above =>
    if value = 0 then above.tail
    else if node.height + (node.commonPath key).length = key.length then .edge node :: above
    else above

/-- `set` returns before it walks: the key is not there, or has a pending value, or the value already. -/
def ExitsEarly (key : BitSlice) (value : Felt) : Prop :=
  let pending := tree.cacheLeafModified.lookup (bitsliceToBytes key)
  let stored := db.get (TrieKey.new tree.identifier .flat (bitsliceToBytes key))
  if value = 0 then pending = some .remove ∨ pending = none ∧ stored = .ok none
  else (∃ old, pending = some (.insert old)) ∨ stored = .ok (some (FeltCodec.encode value))

end MerkleTree

/-- No node that the call keeps over what it changes has a memo. -/
def Call.Unmemoised [FeltCodec] {DB ID : Type} [BonsaiDatabase DB] (st : MerkleTrees DB ID) : Call → Prop
  | .set key value => key.len = (st.treeOf []).maxHeight.toNat → ¬ (st.treeOf []).ExitsEarly st.db key value →
      ∀ node ∈ (st.treeOf []).keptOn st.db key.bits value, node.getHash = none
  | .getMultiProof _ => True
  | .commit _ => True

end Bonsai
