import BonsaiTrie.Impl.Iterator

/-!
# Writing and deleting a leaf

`MerkleTree::set`, `delete_leaf` and `merge_edges` (`trie/tree.rs`). The long
functions of the source are cut where they branch; each part keeps the order
of its effects.
-/

namespace Bonsai

namespace MerkleTree

section Split

variable {E : Type}

/-- An edge from `height`, or the child itself if the path is empty. -/
def edgeOrChild (height : Nat) (path : Path) (child : NodeHandle) : M E NodeHandle :=
  if path.isEmpty then return child
  else return .inMemory (← insertNode (.edge ⟨none, height, path, child⟩))

/-- `set` at an edge that diverges from the key: a binary node where the two part, under an edge
for what they share, over edges for what is left of each. -/
def splitEdge (key : BitSlice) (keyBytes : ByteVec) (value : Felt) (nodeId : NodeKey) (edge : EdgeNode) :
    M E Unit := do
  let common := edge.commonPath key.bits
  let branchHeight := edge.height + common.length
  let childHeight := branchHeight + 1
  if key.len < childHeight ∨ edge.path.length < common.length + 1 then
    throw (.panic "range start index out of range")
  let newPath := key.bits.drop childHeight
  let oldPath := edge.path.drop (common.length + 1)
  cacheLeaf keyBytes (.insert value)
  let new ← edgeOrChild childHeight newPath (.hash value)
  let old ← edgeOrChild childHeight oldPath edge.child
  let newDirection ← orPanic (key.bits[branchHeight]?.map Direction.ofBool) "index out of bounds"
  let branch := match newDirection with
    | .left => Node.binary ⟨none, branchHeight, new, old⟩
    | .right => Node.binary ⟨none, branchHeight, old, new⟩
  let newNode ← if common.isEmpty then pure branch
    else do
      let branchId ← insertNode branch
      pure (Node.edge ⟨none, edge.height, common, .inMemory branchId⟩)
  addDeathRow (.trie (bitsliceToBytes (key.upTo edge.height)))
  setNode nodeId newNode

/-- `set` at the last node on the way to the key. -/
def setAt (key : BitSlice) (keyBytes : ByteVec) (value : Felt) (nodeId : NodeKey) : M E Unit := do
  match ← getNodeMut nodeId with
  | .edge edge =>
    if edge.height + (edge.commonPath key.bits).length = key.len then
      -- the leaf already exists, we simply change its value
      cacheLeaf keyBytes (.insert value)
      setNode nodeId (.edge { edge with child := .hash value })
    else splitEdge key keyBytes value nodeId edge
  | .binary binary =>
    if binary.height + 1 = key.len then
      let direction ← orPanic (binary.direction key.bits) "index out of bounds"
      cacheLeaf keyBytes (.insert value)
      setNode nodeId (.binary (binary.setChild direction (.hash value)))
    else setNode nodeId (.binary binary)

/-- `set` in an empty tree: the root becomes an edge to the leaf. -/
def setRoot (key : BitSlice) (value : Felt) : M E Unit := do
  let nodeId ← insertNode (.edge ⟨none, 0, key.bits, .hash value⟩)
  modify fun tree => { tree with rootNode := some (.loaded nodeId) }
  cacheLeaf (bitsliceToBytes key) (.insert value)

end Split

variable [FeltCodec] {DB ID : Type} [BonsaiDatabase DB]

/-- `merge_edges`: the edge with its child merged into it if that is an edge too. -/
def mergeEdges (db : KeyValueDB DB ID) (parent : EdgeNode) (path : Path) :
    M (BonsaiDatabase.DatabaseError DB) EdgeNode := do
  match parent.child with
  | .hash _ =>
    match ← getTrieBranchInDbFromPath db path with
    | some (.edge childEdge) =>
      addDeathRow (TrieKey.new (← self).identifier .trie path.encode)
      return { parent with path := parent.path ++ childEdge.path, child := childEdge.child }
    | _ => return parent
  | .inMemory childId =>
    match ← getNodeMut childId with
    | .edge childEdge =>
      removeNode childId
      addDeathRow (TrieKey.new (← self).identifier .trie path.encode)
      return { parent with path := parent.path ++ childEdge.path, child := childEdge.child }
    | .binary _ => return parent

/-- `delete_leaf`, first part: the final edge is removed; what is left of the nodes, and the path
of the last one's child towards the leaf. -/
def removeLeafEdge {E : Type} (key : Path) (pathNodes : List (NodeKey × Nat)) :
    M E (List (NodeKey × Nat) × Path) := do
  match pathNodes.getLast? with
  | none => return (pathNodes, key)
  | some (nodeKey, _) =>
    match ← getNodeMut nodeKey with
    | .binary _ => return (pathNodes, key)
    | .edge edge =>
      let lastBinaryPath := key.take (key.length - edge.path.length)
      addDeathRow (TrieKey.new (← self).identifier .trie (Path.encode lastBinaryPath))
      removeNode nodeKey
      return (pathNodes.dropLast, lastBinaryPath)

/-- `delete_leaf`, second part: the binary node becomes an edge to its other child, merged with
that child and with the parent if they are edges. -/
def dissolveBinary (db : KeyValueDB DB ID) (key : Path) (nodeId : NodeKey) (parentNode : Option (NodeKey × Nat))
    (lastBinaryPath : Path) : M (BonsaiDatabase.DatabaseError DB) Unit := do
  let binary ← orPanic (← getNodeMut nodeId).asBinary
    "The node must be a binary node due to the iteration condition"
  let direction ← orPanic ((binary.direction key).map Direction.invert) "index out of bounds"
  let lastBinaryPath := lastBinaryPath.dropLast ++ [direction.toBool]
  let newEdge ← mergeEdges db ⟨none, binary.height, [direction.toBool], binary.getChild direction⟩ lastBinaryPath
  match parentNode with
  | some (parentNodeId, _) =>
    match ← getNodeMut parentNodeId with
    | .edge parentEdge =>
      putNode parentNodeId
        (.edge { parentEdge with path := parentEdge.path ++ newEdge.path, child := newEdge.child })
      addDeathRow (TrieKey.new (← self).identifier .trie (Path.encode lastBinaryPath.dropLast))
      removeNode nodeId
    | .binary _ => setNode nodeId (.edge newEdge)
  | none => setNode nodeId (.edge newEdge)

/-- `delete_leaf` without a binary node on the way: the new tree is empty. -/
def emptyTree {E : Type} : M E Unit := do
  match (← self).rootNode with
  | some (.loaded nodeId) => removeNode nodeId
  | _ => pure ()
  addDeathRow (TrieKey.new (← self).identifier .trie [0])
  modify fun tree => { tree with rootNode := some .empty }

/-- `delete_leaf`, once the leaf is known to be there. -/
def deleteWalk (db : KeyValueDB DB ID) (key : BitSlice) : M (BonsaiDatabase.DatabaseError DB) Unit := do
  let pathNodes ← seekTo db key.bits
  let (pathNodes, lastBinaryPath) ← removeLeafEdge key.bits pathNodes
  match pathNodes.reverse with
  | [] => emptyTree
  | (nodeId, _) :: rest => dissolveBinary db key.bits nodeId rest.head? lastBinaryPath

/-- `delete_leaf`. -/
def deleteLeaf (db : KeyValueDB DB ID) (key : BitSlice) : M (BonsaiDatabase.DatabaseError DB) Unit := do
  let tree ← self
  if key.len ≠ tree.maxHeight.toNat then throw (.error (.keyLength tree.maxHeight.toNat key.len))
  let keyBytes := bitsliceToBytes key
  let treeHasValue ← match tree.cacheLeafModified.lookup keyBytes with
    | some .remove => pure false
    | some (.insert _) => pure true
    | none => do pure (← lift (db.get (TrieKey.new tree.identifier .flat keyBytes))).isSome
  if treeHasValue then
    cacheLeaf keyBytes .remove
    deleteWalk db key

/-- `set`, once the early exits are behind. -/
def setWalk (db : KeyValueDB DB ID) (key : BitSlice) (value : Felt) :
    M (BonsaiDatabase.DatabaseError DB) Unit := do
  let pathNodes ← seekTo db key.bits
  match pathNodes.getLast? with
  | some (nodeId, _) => setAt key (bitsliceToBytes key) value nodeId
  | none => setRoot key value

/-- `set`. -/
def set (db : KeyValueDB DB ID) (key : BitSlice) (value : Felt) :
    M (BonsaiDatabase.DatabaseError DB) Unit := do
  if value = 0 then deleteLeaf db key
  else
    let tree ← self
    if key.len ≠ tree.maxHeight.toNat then throw (.error (.keyLength tree.maxHeight.toNat key.len))
    let keyBytes := bitsliceToBytes key
    match tree.cacheLeafModified.lookup keyBytes with
    | some (.insert _) => cacheLeaf keyBytes (.insert value)
    | _ =>
      match ← lift (db.get (TrieKey.new tree.identifier .flat keyBytes)) with
      | some valueDb => if value = (← lift (decodeFelt valueDb)) then return else setWalk db key value
      | none => setWalk db key value

end MerkleTree

end Bonsai
