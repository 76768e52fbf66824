import BonsaiTrie.Impl.Write

/-!
# The updates of a commit

`MerkleTree::get_updates` (`trie/tree.rs`): the hashes of the in-memory nodes
are computed first, into a vector, depth first (`computeHashes`); then the
nodes leave memory in the same order, each taking its hash from the front of
the vector (`commitSubtree`). The updates are the removal of the keys on the
death row, the nodes, and the changed leaves.
-/

namespace Bonsai

/-- The updates of a tree: what is written or removed under each key. -/
abbrev Updates := HashMap TrieKey (InsertOrRemove ByteVec)

namespace MerkleTree

section Hashes

variable {E : Type}

/-- `get_node_or_felt`. -/
def getNodeOrFelt (nodes : SlotMap Node) : NodeHandle → Except (Failure E) (Node ⊕ Felt)
  | .hash felt => .ok (.inr felt)
  | .inMemory id =>
    match nodes.slots id with
    | some node => .ok (.inl node)
    | none => .error (.error (.trie "Couldn't fetch node in the temporary storage"))

/-- `compute_hashes`: the hash of the node, and the vector with the hashes of the in-memory nodes
below it and its own. Two in-memory children are hashed in parallel, the right one into a vector
of its own. `fuel` bounds the depth of the recursion. -/
def computeHashes (H : StarkHash) (nodes : SlotMap Node) :
    Nat → Node → Path → List Felt → Except (Failure E) (Felt × List Felt)
  | 0, _, _, _ => .error .diverges
  | fuel + 1, .binary binary, path, hashes => do
    let left ← getNodeOrFelt nodes binary.left
    let right ← getNodeOrFelt nodes binary.right
    let (leftHash, rightHash, hashes) ← match left, right with
      | .inl left, .inl right => do
        let (leftHash, hashes) ← computeHashes H nodes fuel left (path ++ [Direction.left.toBool]) hashes
        let (rightHash, hashes2) ← computeHashes H nodes fuel right (path ++ [Direction.right.toBool]) []
        pure (leftHash, rightHash, hashes ++ hashes2)
      | left, right => do
        let (leftHash, hashes) ← match left with
          | .inr felt => pure (felt, hashes)
          | .inl node => computeHashes H nodes fuel node (path ++ [Direction.left.toBool]) hashes
        let (rightHash, hashes) ← match right with
          | .inr felt => pure (felt, hashes)
          | .inl node => computeHashes H nodes fuel node (path ++ [Direction.right.toBool]) hashes
        pure (leftHash, rightHash, hashes)
    let hash := hashBinaryNode H leftHash rightHash
    pure (hash, hashes ++ [hash])
  | fuel + 1, .edge edge, path, hashes => do
    let (childHash, hashes) ← match ← getNodeOrFelt nodes edge.child with
      | .inr felt => pure (felt, hashes)
      | .inl node => computeHashes H nodes fuel node (path ++ edge.path) hashes
    let hash ← hashEdge H edge.path childHash
    pure (hash, hashes ++ [hash])

/-- `compute_hashes` without the `std` feature, where the children are always hashed one after the other. -/
def computeHashesSequential (H : StarkHash) (nodes : SlotMap Node) :
    Nat → Node → Path → List Felt → Except (Failure E) (Felt × List Felt)
  | 0, _, _, _ => .error .diverges
  | fuel + 1, .binary binary, path, hashes => do
    let left ← getNodeOrFelt nodes binary.left
    let right ← getNodeOrFelt nodes binary.right
    let (leftHash, hashes) ← match left with
      | .inr felt => pure (felt, hashes)
      | .inl node => computeHashesSequential H nodes fuel node (path ++ [Direction.left.toBool]) hashes
    let (rightHash, hashes) ← match right with
      | .inr felt => pure (felt, hashes)
      | .inl node => computeHashesSequential H nodes fuel node (path ++ [Direction.right.toBool]) hashes
    let hash := hashBinaryNode H leftHash rightHash
    pure (hash, hashes ++ [hash])
  | fuel + 1, .edge edge, path, hashes => do
    let (childHash, hashes) ← match ← getNodeOrFelt nodes edge.child with
      | .inr felt => pure (felt, hashes)
      | .inl node => computeHashesSequential H nodes fuel node (path ++ edge.path) hashes
    let hash ← hashEdge H edge.path childHash
    pure (hash, hashes ++ [hash])

/-- `compute_root_hash`. -/
def computeRootHash (H : StarkHash) (tree : MerkleTree) (hashes : List Felt) :
    Except (Failure E) (Felt × List Felt) :=
  match tree.rootNode with
  | some .empty => .ok (0, hashes)
  | none => .error (.error (.trie "Root node is not loaded"))
  | some (.loaded id) =>
    match tree.nodes.slots id with
    | none => .error (.error (.trie "Could not fetch root node from storage"))
    | some node => computeHashes H tree.nodes (tree.nodes.next + 1) node [] hashes

end Hashes

/-- What `commit_subtree` changes: the tree, the updates and the hashes left. -/
structure CommitState where
  tree : MerkleTree
  updates : Updates
  hashes : List Felt

section Subtree

variable {E : Type}

/-- `nodes.remove(node_id).ok_or(..)?`. -/
def takeNode (nodeId : NodeKey) : EStateM (Failure E) CommitState Node := fun s =>
  match s.tree.nodes.slots nodeId with
  | none => .error (.error (.trie "Couldn't fetch node in the temporary storage")) s
  | some node => .ok node { s with tree := { s.tree with nodes := s.tree.nodes.remove nodeId } }

/-- `hashes.next().expect(..)`. -/
def nextHash : EStateM (Failure E) CommitState Felt := fun s =>
  match s.hashes with
  | [] => .error (.panic "mismatched hash state") s
  | hash :: hashes => .ok hash { s with hashes := hashes }

/-- The update that stores a node at a path. -/
def storeNode [FeltCodec] (path : Path) (node : Node) : EStateM (Failure E) CommitState Unit := fun s =>
  match node.encode with
  | none => .error (.panic "Cannot encode NodeKey") s
  | some bytes =>
    .ok () { s with
      updates := s.updates.insert (TrieKey.new s.tree.identifier .trie path.encode) (.insert bytes) }

/-- `commit_subtree`; every call removes a node, and `fuel` bounds the depth of the recursion. -/
def commitSubtree [FeltCodec] : Nat → NodeKey → Path → EStateM (Failure E) CommitState Felt
  | 0, _, _ => throw .diverges
  | fuel + 1, nodeId, path => do
    match ← takeNode nodeId with
    | .binary binary =>
      let leftHash ← match binary.left with
        | .hash leftHash => pure leftHash
        | .inMemory nodeId => commitSubtree fuel nodeId (path ++ [Direction.left.toBool])
      let rightHash ← match binary.right with
        | .hash rightHash => pure rightHash
        | .inMemory nodeId => commitSubtree fuel nodeId (path ++ [Direction.right.toBool])
      let hash ← nextHash
      storeNode path (.binary { binary with hash := some hash, left := .hash leftHash, right := .hash rightHash })
      pure hash
    | .edge edge =>
      let childHash ← match edge.child with
        | .hash childHash => pure childHash
        | .inMemory nodeId => commitSubtree fuel nodeId (path ++ edge.path)
      let hash ← nextHash
      storeNode path (.edge { edge with hash := some hash, child := .hash childHash })
      pure hash

end Subtree

section Updates

variable [FeltCodec] {E : Type}

/-- The part of `get_updates` for a loaded root. -/
def commitRoot (H : StarkHash) (updates : Updates) : M E Updates := fun tree =>
  match tree.rootNode with
  | some (.loaded nodeId) =>
    match computeRootHash H tree [] with
    | .error e => .error e tree
    | .ok (_, hashes) =>
      match commitSubtree (tree.nodes.next + 1) nodeId [] ⟨tree, updates, hashes⟩ with
      | .error e s => .error e s.tree
      | .ok _ s => .ok s.updates s.tree
  | _ => .ok updates tree

/-- The update for a changed leaf. -/
def leafUpdate (identifier : ByteVec) (updates : Updates) (keyBytes : ByteVec) (value : InsertOrRemove Felt) :
    Updates :=
  updates.insert (TrieKey.new identifier .flat keyBytes)
    (match value with
      | .insert value => .insert (FeltCodec.encode value)
      | .remove => .remove)

/-- `get_updates`. -/
def getUpdates (H : StarkHash) : M E Updates := do
  let deathRow := (← self).deathRow
  modify fun tree => { tree with deathRow := ∅ }
  let updates ← commitRoot H (deathRow.keys.foldl (fun u key => u.insert key .remove) ∅)
  modify fun tree => { tree with rootNode := none }
  let tree ← self
  modify fun tree => { tree with cacheLeafModified := ∅ }
  return tree.cacheLeafModified.entries.foldl (fun u e => leafUpdate tree.identifier u e.1 e.2) updates

end Updates

end MerkleTree

end Bonsai
