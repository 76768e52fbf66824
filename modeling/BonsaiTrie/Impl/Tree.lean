import BonsaiTrie.Impl.KeyValueDb

/-!
# The tree

`MerkleTree` (`trie/tree.rs`): a tree of which some nodes are in memory and
the others in the database, the database keys that the next commit removes,
and the leaves changed since the last commit. This module has what loads and
reads nodes; the operations that walk, write and commit follow it.
-/

namespace Bonsai

/-- `SlotMap<NodeKey, V>`: an arena whose keys are never used twice. -/
structure SlotMap (V : Type) where
  next : Nat
  slots : NodeKey → Option V
  fresh : ∀ k, next ≤ k → slots k = none

namespace SlotMap

variable {V : Type}

def empty : SlotMap V := ⟨0, fun _ => none, fun _ _ => rfl⟩

/-- `SlotMap::insert`: the new key and the map. -/
def insert (m : SlotMap V) (v : V) : NodeKey × SlotMap V :=
  (m.next, ⟨m.next + 1, fun j => if j = m.next then some v else m.slots j, fun k hk => by
    have hne : k ≠ m.next := by omega
    rw [if_neg hne]; exact m.fresh k (by omega)⟩)

/-- `SlotMap::remove`. -/
def remove (m : SlotMap V) (k : NodeKey) : SlotMap V :=
  ⟨m.next, fun j => if j = k then none else m.slots j, fun j hj => by
    split
    · rfl
    · exact m.fresh j hj⟩

/-- A value put in the place of a present one; nothing at a key that is not in the map. -/
def set (m : SlotMap V) (k : NodeKey) (v : V) : SlotMap V :=
  ⟨m.next, fun j => if j = k ∧ (m.slots k).isSome then some v else m.slots j, fun j hj => by
    have := m.fresh j hj
    split
    · rename_i h; rw [← h.1, this] at h; simp at h
    · exact this⟩

end SlotMap

/-- `RootHandle`. -/
inductive RootHandle where
  | empty
  | loaded (key : NodeKey)
  deriving DecidableEq, Repr

/-- `InsertOrRemove`. -/
inductive InsertOrRemove (T : Type) where
  | insert (value : T)
  | remove
  deriving DecidableEq, Repr

/-- `MerkleTree`. A `rootNode` of `none` has not been loaded yet. -/
structure MerkleTree where
  rootNode : Option RootHandle
  nodes : SlotMap Node
  identifier : ByteVec
  deathRow : HashSet TrieKey
  cacheLeafModified : HashMap ByteVec (InsertOrRemove Felt)
  maxHeight : UInt8

namespace MerkleTree

/-- `MerkleTree::new`. -/
def new (identifier : ByteVec) (maxHeight : UInt8) : MerkleTree :=
  ⟨none, .empty, identifier, ∅, ∅, maxHeight⟩

/-- Code that changes a tree; what it did before an error stays done. -/
abbrev M (E : Type) := EStateM (Failure E) MerkleTree

/-- The tree itself. -/
def self {E : Type} : M E MerkleTree := fun tree => .ok tree tree

/-- A result, as code that changes nothing. -/
def lift {E σ α : Type} (r : Except (Failure E) α) : EStateM (Failure E) σ α := fun s =>
  match r with
  | .ok a => .ok a s
  | .error e => .error e s

/-- An optional value, or a panic. -/
def orPanic {E σ α : Type} (o : Option α) (message : String) : EStateM (Failure E) σ α :=
  lift (match o with | some a => .ok a | none => .error (.panic message))

section Nodes

variable {E : Type}

/-- `nodes.insert`. -/
def insertNode (node : Node) : M E NodeKey := fun tree =>
  let (key, nodes) := tree.nodes.insert node
  .ok key { tree with nodes := nodes }

/-- `nodes.remove`, whose result is not used. -/
def removeNode (key : NodeKey) : M E Unit :=
  modify fun tree => { tree with nodes := tree.nodes.remove key }

/-- `get_node_mut`. -/
def getNodeMut (key : NodeKey) : M E Node := fun tree =>
  match tree.nodes.slots key with
  | some node => .ok node tree
  | none => .error (.error (.trie ("Dangling in-memory node key: " ++ toString key))) tree

/-- `*get_node_mut(key)? = node`. -/
def putNode (key : NodeKey) (node : Node) : M E Unit := do
  let _ ← getNodeMut key
  modify fun tree => { tree with nodes := tree.nodes.set key node }

/-- `nodes[key] = node`, which panics on a key that is not in the map. -/
def setNode (key : NodeKey) (node : Node) : M E Unit := fun tree =>
  match tree.nodes.slots key with
  | some _ => .ok () { tree with nodes := tree.nodes.set key node }
  | none => .error (.panic "invalid SlotMap key used") tree

/-- `death_row.insert`. -/
def addDeathRow (key : TrieKey) : M E Unit :=
  modify fun tree => { tree with deathRow := tree.deathRow.insert key () }

/-- `cache_leaf_modified.insert`. -/
def cacheLeaf (keyBytes : ByteVec) (value : InsertOrRemove Felt) : M E Unit :=
  modify fun tree => { tree with cacheLeafModified := tree.cacheLeafModified.insert keyBytes value }

/-- `Node::decode(..)?`. -/
def decodeNode [FeltCodec] (bytes : ByteVec) : Except (Failure E) Node :=
  match Node.decode bytes with
  | .ok node => .ok node
  | .error .malformed => .error (.error .nodeDecodeError)
  | .error .unreachable => .error (.panic "Cannot decode NodeKey")

/-- `Felt::decode(..).unwrap()`. -/
def decodeFelt [FeltCodec] (bytes : ByteVec) : Except (Failure E) Felt :=
  match FeltCodec.decode bytes with
  | some (felt, _) => .ok felt
  | none => .error (.panic "called `Result::unwrap()` on an `Err` value")

/-- `hash_edge_node`, with its panic. -/
def hashEdge (H : StarkHash) (path : Path) (child : Felt) : Except (Failure E) Felt :=
  match hashEdgeNode H path child with
  | some felt => .ok felt
  | none => .error (.panic "attempt to subtract with overflow")

end Nodes

section Db

variable [FeltCodec] {DB ID : Type} [BonsaiDatabase DB]

/-- `load_db_node`: the node stored under a key that is not on the death row. -/
def loadDbNode (db : KeyValueDB DB ID) (key : TrieKey) : M (BonsaiDatabase.DatabaseError DB) (Option NodeKey) := do
  if (← self).deathRow.lookup key = some () then return none
  match ← lift (db.get key) with
  | none => return none
  | some bytes =>
    let node ← lift (decodeNode bytes)
    let key ← insertNode node
    return some key

/-- `load_root_node`: the root, or `none` if the tree is empty. -/
def loadRootNode (db : KeyValueDB DB ID) : M (BonsaiDatabase.DatabaseError DB) (Option NodeKey) := do
  match (← self).rootNode with
  | some (.loaded id) => return some id
  | some .empty => return none
  | none =>
    match ← loadDbNode db (TrieKey.new (← self).identifier .trie [0]) with
    | some id =>
      modify fun tree => { tree with rootNode := some (.loaded id) }
      return some id
    | none =>
      modify fun tree => { tree with rootNode := some .empty }
      return none

/-- `load_node_handle`. -/
def loadNodeHandle (db : KeyValueDB DB ID) (handle : NodeHandle) (path : Path) :
    M (BonsaiDatabase.DatabaseError DB) NodeKey := do
  match handle with
  | .hash _ =>
    match ← loadDbNode db (TrieKey.new (← self).identifier .trie path.encode) with
    | some key => return key
    | none => throw (.error (.trie "Could not get node from db"))  -- dangling node id in db
  | .inMemory key => return key

/-- `get_trie_branch_in_db_from_path`. -/
def getTrieBranchInDbFromPath (db : KeyValueDB DB ID) (path : Path) :
    M (BonsaiDatabase.DatabaseError DB) (Option Node) := do
  let tree ← self
  let key := TrieKey.new tree.identifier .trie path.encode
  if tree.deathRow.lookup key = some () then return none
  match ← lift (db.get key) with
  | none => return none
  | some bytes =>
    match Node.decode bytes with
    | .ok node => return some node
    | .error .malformed => throw (.error (.trie "Couldn't decode node: "))
    | .error .unreachable => throw (.panic "Cannot decode NodeKey")

/-- `get`. -/
def get (db : KeyValueDB DB ID) (tree : MerkleTree) (key : BitSlice) :
    Except (Failure (BonsaiDatabase.DatabaseError DB)) (Option Felt) :=
  let key := bitsliceToBytes key
  match tree.cacheLeafModified.lookup key with
  | some .remove => .ok none
  | some (.insert value) => .ok (some value)
  | none => do
    match ← db.get (TrieKey.new tree.identifier .flat key) with
    | none => .ok none
    | some bytes => some <$> decodeFelt bytes

/-- `contains`. -/
def contains (db : KeyValueDB DB ID) (tree : MerkleTree) (key : BitSlice) :
    Except (Failure (BonsaiDatabase.DatabaseError DB)) Bool :=
  let key := bitsliceToBytes key
  match tree.cacheLeafModified.lookup key with
  | some .remove => .ok false
  | some (.insert _) => .ok true
  | none => db.contains (TrieKey.new tree.identifier .flat key)

/-- `root_hash`. -/
def rootHash (db : KeyValueDB DB ID) (tree : MerkleTree) :
    Except (Failure (BonsaiDatabase.DatabaseError DB)) Felt :=
  match tree.rootNode with
  | some .empty => .ok 0
  | some (.loaded id) =>
    match tree.nodes.slots id with
    | none => .error (.error (.trie "Could not fetch root node from storage"))
    | some node =>
      match node.getHash with
      | none => .error (.error (.trie "The tree has uncommited changes"))
      | some felt => .ok felt
  | none =>
    match getTrieBranchInDbFromPath db [] tree with
    | .error e _ => .error e
    | .ok none _ => .ok 0
    | .ok (some node) _ =>
      match node.getHash with
      | none => .error (.panic "The fetched node has no computed hash")
      | some felt => .ok felt

end Db

section Hash

variable {E : Type}

/-- The memo of a node set to its computed hash. -/
def memoise (key : NodeKey) (computed : Felt) : M E Felt := do
  let node ← getNodeMut key
  putNode key (node.setHash computed)
  return computed

/-- `get_or_compute_node_hash`; `fuel` bounds the depth of the recursion. -/
def getOrComputeNodeHash (H : StarkHash) : Nat → NodeHandle → M E Felt
  | _, .hash felt => return felt
  | 0, .inMemory _ => throw .diverges
  | fuel + 1, .inMemory key => do
    match ← getNodeMut key with
    | .binary b =>
      match b.hash with
      | some h => return h
      | none =>
        let left ← getOrComputeNodeHash H fuel b.left
        let right ← getOrComputeNodeHash H fuel b.right
        memoise key (hashBinaryNode H left right)
    | .edge e =>
      match e.hash with
      | some h => return h
      | none =>
        let child ← getOrComputeNodeHash H fuel e.child
        memoise key (← lift (hashEdge H e.path child))

end Hash

end MerkleTree

end Bonsai
