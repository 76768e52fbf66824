import BonsaiTrie.Impl.Tree

/-!
# Seeking

`MerkleTreeIterator` (`trie/iterator.rs`): the nodes on the way to a key, with
the depth each starts at, loading those that are not in memory. Every node met
on the way is shown to a visitor; the model keeps the visitor in the state of
the iterator.
-/

namespace Bonsai

/-- `MerkleTreeIterator`, with the visitor of the traversal. -/
structure MerkleTreeIterator (V : Type) where
  tree : MerkleTree
  currentPath : Path
  currentNodesHeights : List (NodeKey × Nat)
  leafHash : Option Felt
  visitor : V

/-- `NodeVisitor`. -/
abbrev NodeVisitor (E V : Type) := NodeKey → Nat → EStateM (Failure E) (V × MerkleTree) Unit

/-- `NoopVisitor`. -/
def noopVisitor {E : Type} : NodeVisitor E Unit := fun _ _ => pure ()

namespace MerkleTreeIterator

/-- `MerkleTreeIterator::new`. -/
def new {V : Type} (tree : MerkleTree) (visitor : V) : MerkleTreeIterator V := ⟨tree, [], [], none, visitor⟩

/-- Code that changes an iterator. -/
abbrev M (E V : Type) := EStateM (Failure E) (MerkleTreeIterator V)

section

variable {E V : Type}

/-- Code of the tree, on the tree of the iterator. -/
def onTree {α : Type} (m : MerkleTree.M E α) : M E V α := fun it =>
  match m it.tree with
  | .ok a tree => .ok a { it with tree := tree }
  | .error e tree => .error e { it with tree := tree }

/-- `visitor.visit_node(tree, node_id, prev_height)`. -/
def visitNode (visit : NodeVisitor E V) (nodeId : NodeKey) (prevHeight : Nat) : M E V Unit := fun it =>
  match visit nodeId prevHeight (it.visitor, it.tree) with
  | .ok () (visitor, tree) => .ok () { it with visitor := visitor, tree := tree }
  | .error e (visitor, tree) => .error e { it with visitor := visitor, tree := tree }

/-- The first half of `traverse_one`: the child the key leads to from a node, and whether the
node's path is the key's; `current_path` goes to the node's tip. -/
def stepInto (node : Node) (height : Nat) (key : Path) : M E V (NodeHandle × Bool) := fun it =>
  match node with
  | .binary b =>
    match key[it.currentPath.length]? with
    | none => .error (.panic "index out of bounds") it
    | some bit =>
      .ok (b.getChild (Direction.ofBool bit), true) { it with currentPath := it.currentPath ++ [bit] }
  | .edge e =>
    let it := { it with currentPath := it.currentPath ++ e.path }
    match e.pathMatches key height with
    | none => .error (.panic "assertion `left == right` failed") it
    | some pathMatches => .ok (e.child, pathMatches) it

/-- The second half of `traverse_one`: the parent's reference to a loaded child. -/
def updateParentRef (nodeId childKey : NodeKey) : M E V Unit := do
  let path := (← get).currentPath
  match ← onTree (MerkleTree.getNodeMut nodeId) with
  | .binary b =>
    match path.getLast? with
    | none => throw (.panic "current path should have a length > 0 at this point")
    | some bit =>
      onTree (MerkleTree.putNode nodeId (.binary (b.setChild (Direction.ofBool bit) (.inMemory childKey))))
  | .edge e => onTree (MerkleTree.putNode nodeId (.edge { e with child := .inMemory childKey }))

end

variable [FeltCodec] {DB ID V : Type} [BonsaiDatabase DB]

/-- `traverse_one`. -/
def traverseOne (db : KeyValueDB DB ID) (nodeId : NodeKey) (height : Nat) (key : Path) :
    M (BonsaiDatabase.DatabaseError DB) V (Option NodeKey) := do
  modify fun it => { it with
    currentNodesHeights := it.currentNodesHeights ++ [(nodeId, it.currentPath.length)] }
  let node ← onTree (MerkleTree.getNodeMut nodeId)
  let (nodeHandle, pathMatches) ← stepInto node height key
  let path := (← get).currentPath
  if !pathMatches || key.length ≤ path.length then
    modify fun it => { it with
      leafHash := if pathMatches && path.length == key.length then nodeHandle.asHash else none }
    return none  -- end of traversal
  let childKey ← onTree (MerkleTree.loadNodeHandle db nodeHandle path)
  updateParentRef nodeId childKey
  return some childKey

/-- The loop of `traverse_to`; every turn but the last goes at least one bit down. -/
def traverseLoop (db : KeyValueDB DB ID) (visit : NodeVisitor (BonsaiDatabase.DatabaseError DB) V)
    (key : Path) : Nat → Option NodeKey → M (BonsaiDatabase.DatabaseError DB) V Unit
  | _, none => return
  | 0, some _ => throw .diverges
  | fuel + 1, some nodeId => do
    visitNode visit nodeId (← get).currentPath.length
    let next ← traverseOne db nodeId (← get).currentPath.length key
    traverseLoop db visit key fuel next

/-- The length of the common prefix of two paths. -/
def sharedPrefixLen (p q : Path) : Nat := ((p.zip q).takeWhile fun ab => ab.1 == ab.2).length

/-- `traverse_to`. -/
def traverseTo (db : KeyValueDB DB ID) (visit : NodeVisitor (BonsaiDatabase.DatabaseError DB) V)
    (key : Path) : M (BonsaiDatabase.DatabaseError DB) V Unit := do
  if key.isEmpty then
    modify fun it => { it with currentNodesHeights := [], currentPath := [], leafHash := none }
    return
  -- truncate the current path and nodes list to match the new key
  modify fun it =>
    let shared := sharedPrefixLen it.currentPath key
    let nodesNewLen := if shared = 0 then 0 else (it.currentNodesHeights.takeWhile (·.2 < shared)).length
    { it with
      currentNodesHeights := it.currentNodesHeights.take nodesNewLen
      currentPath := it.currentPath.take key.length }
  match (← get).currentNodesHeights.getLast? with
  | some (nodeId, height) =>
    modify fun it => { it with
      currentNodesHeights := it.currentNodesHeights.dropLast
      currentPath := it.currentPath.take height }
    let next ← traverseOne db nodeId height key
    traverseLoop db visit key (key.length + 1) next
  | none =>
    -- start from the tree root
    modify fun it => { it with currentPath := [] }
    match ← onTree (MerkleTree.loadRootNode db) with
    | none => modify fun it => { it with leafHash := none }  -- empty tree, not found
    | some nodeId => traverseLoop db visit key (key.length + 1) (some nodeId)

/-- `seek_to`. -/
def seekTo (db : KeyValueDB DB ID) (key : Path) : M (BonsaiDatabase.DatabaseError DB) Unit Unit :=
  traverseTo db noopVisitor key

end MerkleTreeIterator

/-- `tree.iter(db)`, `seek_to(key)` and the nodes it met. -/
def MerkleTree.seekTo [FeltCodec] {DB ID : Type} [BonsaiDatabase DB] (db : KeyValueDB DB ID) (key : Path) :
    MerkleTree.M (BonsaiDatabase.DatabaseError DB) (List (NodeKey × Nat)) := fun tree =>
  match MerkleTreeIterator.traverseTo db noopVisitor key (MerkleTreeIterator.new tree ()) with
  | .ok () it => .ok it.currentNodesHeights it.tree
  | .error e it => .error e it.tree

end Bonsai
