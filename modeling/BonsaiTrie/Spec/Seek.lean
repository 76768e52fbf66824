import BonsaiTrie.Framework.PatriciaMap
import BonsaiTrie.Impl.Iterator

/-!
# What a seek should show

A node as it looks whether its children are loaded or not (`Look`): a handle
that was a hash and a handle to a node with that hash look the same. The looks
of the nodes on the way of an iterator are to be those of the trie's nodes on
the way to the key (`Trie.course`), with the hashes the tree has for them
(`MerkleTree.known`).
-/

namespace Bonsai

open Patricia

/-- A node's memo, height and path, and the hashes its handles lead to. -/
inductive Look where
  | binary (memo : Option Felt) (height : Nat) (left right : Option Felt)
  | edge (memo : Option Felt) (height : Nat) (path : Path) (child : Option Felt)
  deriving DecidableEq

namespace MerkleTree

/-- The hash a handle leads to: the memo of its node, when it is loaded. -/
def handleHash (nodes : NodeKey → Option Node) : NodeHandle → Option Felt
  | .hash felt => some felt
  | .inMemory key => (nodes key).bind Node.getHash

def lookOf (nodes : NodeKey → Option Node) : Node → Look
  | .binary b => .binary b.hash b.height (handleHash nodes b.left) (handleHash nodes b.right)
  | .edge e => .edge e.hash e.height e.path (handleHash nodes e.child)

variable (H : StarkHash)

/-- The hash known of the subtrie at a path below a handle: the memo, where the node is loaded. -/
def hashAt (nodes : NodeKey → Option Node) : Trie Felt → NodeHandle → Path → Option Felt
  | t, .hash _, p => (t.sub p).map (Trie.digest id (hashBinaryNode H) (edgeHash H))
  | _, .inMemory key, [] => (nodes key).bind Node.getHash
  | .binary l r, .inMemory key, bit :: p =>
    match nodes key with
    | some (.binary b) => if bit then hashAt nodes r b.right p else hashAt nodes l b.left p
    | _ => none
  | .edge q c, .inMemory key, bit :: p =>
    match nodes key with
    | some (.edge e) => if q <+: bit :: p then hashAt nodes c e.child ((bit :: p).drop q.length) else none
    | _ => none
  | .leaf _, .inMemory _, _ :: _ => none

/-- The hash that a tree knows of the subtrie at a path. -/
def known (tree : MerkleTree) (t : Trie Felt) (p : Path) : Option Felt :=
  match tree.rootNode with
  | some (.loaded key) => hashAt H tree.nodes.slots t (.inMemory key) p
  | _ => (t.sub p).map (Trie.digest id (hashBinaryNode H) (edgeHash H))

end MerkleTree

/-- The look of the node of a trie at a path, with the hashes known. -/
def lookAt (known : Path → Option Felt) (p : Path) : Trie Felt → Option Look
  | .leaf _ => none
  | .binary _ _ => some (.binary (known p) p.length (known (p ++ [false])) (known (p ++ [true])))
  | .edge q _ => some (.edge (known p) p.length q (known (p ++ q)))

namespace MerkleTreeIterator

/-- The depths and looks of the nodes on the way. -/
def looks {V : Type} (it : MerkleTreeIterator V) : List (Nat × Option Look) :=
  it.currentNodesHeights.map fun (key, height) =>
    (height, (it.tree.nodes.slots key).map (MerkleTree.lookOf it.tree.nodes.slots))

/-- The iterator is where a key leads, in a tree of height `n` that stood for a trie. -/
structure Sought {V : Type} (H : StarkHash) (tree : MerkleTree) (T : Option (Trie Felt)) (n : Nat) (key : Path)
    (it : MerkleTreeIterator V) : Prop where
  path : it.currentPath = T.elim [] fun t => t.reach key
  nodes : it.looks = T.elim [] fun t => (t.course key).map fun (p, s) => (p.length, lookAt (tree.known H t) p s)
  leaf : key.length = n → it.leafHash = if key = [] then none else T.bind fun t => t.lookup key

end MerkleTreeIterator

end Bonsai
