import BonsaiTrie.Impl.Storage

/-!
# Memory over database

The trie a tree shows, read off its parts: a handle to memory is resolved in
`nodes`, a hash at its path in the database, where the keys of the death row
count as absent. `leafMap` walks it for a key, `Reaches` follows all handles,
and `Overlaid` says that what they find is a Patricia trie of one height, with
every node in memory found once and nothing else in the database.
-/

namespace Bonsai

namespace MerkleTree

variable [FeltCodec] {DB ID : Type} [BonsaiDatabase DB] (db : KeyValueDB DB ID) (tree : MerkleTree)

/-- The node a handle at a path stands for. -/
def nodeAt (h : NodeHandle) (path : Path) : Option Node :=
  match h with
  | .inMemory key => tree.nodes.slots key
  | .hash _ =>
    match getTrieBranchInDbFromPath db path tree with
    | .ok node _ => node
    | .error _ _ => none

/-- The handle of the root, unless the tree is empty; in the database, its hash is the node's own. -/
def rootHandle : Option NodeHandle :=
  match tree.rootNode with
  | some .empty => none
  | some (.loaded key) => some (.inMemory key)
  | none => (nodeAt db tree (.hash 0) []).map fun node => .hash (node.getHash.getD 0)

/-- The leaf that the rest of a key leads to from a handle; `fuel` bounds the steps. -/
def leafBelow : Nat → NodeHandle → Path → Path → Option Felt
  | _, h, _, [] => h.asHash
  | 0, _, _, _ :: _ => none
  | fuel + 1, h, path, b :: rest =>
    match nodeAt db tree h path with
    | none => none
    | some (.binary node) => leafBelow fuel (node.getChild (Direction.ofBool b)) (path ++ [b]) rest
    | some (.edge node) =>
      if node.path.isPrefixOf (b :: rest) then
        leafBelow fuel node.child (path ++ node.path) ((b :: rest).drop node.path.length)
      else none

/-- The leaf of a key. -/
def leafMap (key : Path) : Option Felt := (rootHandle db tree).bind fun h => leafBelow db tree key.length h [] key

end MerkleTree

/-- The handles that following the nodes leads to, down to depth `n`. -/
inductive Reaches (nodeAt : NodeHandle → Path → Option Node) (n : Nat) : NodeHandle → Path → NodeHandle → Path → Prop where
  | refl {h : NodeHandle} {p : Path} : Reaches nodeAt n h p h p
  | binary {h h' : NodeHandle} {p p' : Path} {node : BinaryNode} (b : Bool) : p.length < n →
      nodeAt h p = some (.binary node) → Reaches nodeAt n (node.getChild (Direction.ofBool b)) (p ++ [b]) h' p' →
      Reaches nodeAt n h p h' p'
  | edge {h h' : NodeHandle} {p p' : Path} {node : EdgeNode} : p.length < n → nodeAt h p = some (.edge node) →
      Reaches nodeAt n node.child (p ++ node.path) h' p' → Reaches nodeAt n h p h' p'

namespace MerkleTree

variable [FeltCodec] {DB ID : Type} [BonsaiDatabase DB] (db : KeyValueDB DB ID) (tree : MerkleTree)

/-- The handles of the tree. -/
def HasHandle (n : Nat) (h : NodeHandle) (p : Path) : Prop :=
  ∃ r, rootHandle db tree = some r ∧ Reaches (nodeAt db tree) n r [] h p

end MerkleTree

/-- What a node at a path of a Patricia trie of height `n` is like; `below` is the node of an edge's child. -/
def Node.Proper (n : Nat) (p : Path) (below : NodeHandle → Path → Option Node) : Node → Prop
  | .binary node => node.height = p.length
  | .edge node => node.height = p.length ∧ node.path ≠ [] ∧ p.length + node.path.length ≤ n ∧
    (p.length + node.path.length < n → ∀ e, below node.child (p ++ node.path) ≠ some (.edge e))

/-- The tree shows a Patricia trie of height `n`, with nothing lost and nothing left over. -/
structure MerkleTree.Overlaid [FeltCodec] {DB ID : Type} [BonsaiDatabase DB] (db : KeyValueDB DB ID) (tree : MerkleTree)
    (n : Nat) : Prop where
  /-- Every handle above the leaves resolves, to a proper node. -/
  node : ∀ h p, tree.HasHandle db n h p → p.length < n → ∃ node, tree.nodeAt db h p = some node ∧
    node.Proper n p (tree.nodeAt db)
  /-- Nothing is below depth `n`, where the handles are the values of the leaves. -/
  leaf : ∀ h p, tree.HasHandle db n h p → p.length ≤ n ∧ (p.length = n → ∃ v, h = .hash v)
  /-- A handle to memory is to a node, of one place. -/
  inMemory : ∀ k, (tree.nodes.slots k).isSome ↔ ∃! p, tree.HasHandle db n (.inMemory k) p
  /-- The nodes that are not in memory are not on the death row. -/
  stored : ∀ v p, tree.HasHandle db n (.hash v) p → p.length < n →
    tree.deathRow.lookup (.trie (tree.identifier ++ p.encode)) = none
  /-- What else is in the database is on the death row. -/
  orphan : ∀ b bytes, BonsaiDatabase.get db.db (.trie b) = .ok (some bytes) →
    (∃ h p, tree.HasHandle db n h p ∧ p.length < n ∧ b = tree.identifier ++ p.encode) ∨ tree.deathRow.lookup (.trie b) = some ()

end Bonsai
