import BonsaiTrie.Impl.Iterator

/-!
# Proofs

`trie/proof.rs`: a multi-proof is a map from hashes to nodes. `verifyProof`
walks it from a root for every key, checking the hash of each node the first
time it is met; `getMultiProof` collects the nodes that seeking the keys
visits.
-/

namespace Bonsai

/-- `ProofNode`. -/
inductive ProofNode where
  | binary (left right : Felt)
  | edge (child : Felt) (path : Path)
  deriving DecidableEq, Repr

/-- `ProofNode::hash`: `none` where `hash_edge_node` panics. -/
def ProofNode.hash (H : StarkHash) : ProofNode → Option Felt
  | .binary left right => some (hashBinaryNode H left right)
  | .edge child path => hashEdgeNode H path child

/-- `MultiProof`. -/
abbrev MultiProof := HashMap Felt ProofNode

/-- `ProofVerificationError`. -/
inductive ProofVerificationError where
  | keyLengthMismatch (path : Path) (expected : UInt8) (got : Nat)
  | missingNode (path : Path) (hash : Felt)
  | overshot (path : Path) (expectedMaxHeight : UInt8)
  | hashMismatch (path : Path) (expected got : Felt)
  deriving DecidableEq, Repr

/-- How the verification of a key ends other than with a value. -/
inductive VerifyFailure where
  | error (e : ProofVerificationError)
  | panic (message : String)
  | diverges
  deriving DecidableEq, Repr

/-- What the keys of a verification share: the felts checked, and the path buffer. -/
structure VerifyState where
  checkedCache : HashSet Felt
  currentPath : Path

namespace MultiProof

/-- Code of the verification. -/
abbrev M := EStateM VerifyFailure VerifyState

/-- An error that takes the path buffer away. -/
def failTakingPath {α : Type} (e : Path → ProofVerificationError) : M α := fun st =>
  .error (.error (e st.currentPath)) { st with currentPath := [] }

/-- The check of a node's hash, skipped for a felt checked before. -/
def checkHash (H : StarkHash) (node : ProofNode) (currentFelt : Felt) : M Unit := do
  if (← get).checkedCache.lookup currentFelt = none then
    match node.hash H with
    | none => throw (.panic "attempt to subtract with overflow")
    | some computed =>
      if computed ≠ currentFelt then failTakingPath (.hashMismatch · currentFelt computed)
      else modify fun st => { st with checkedCache := st.checkedCache.insert currentFelt () }

/-- `k.get(from..from + len)`. -/
def slice (k : Path) (start len : Nat) : Option Path :=
  if start + len ≤ k.length then some ((k.drop start).take len) else none

/-- The loop of the verification of a key. -/
def verifyLoop (proof : MultiProof) (H : StarkHash) (k : Path) (treeHeight : UInt8) : Nat → Felt → M Felt
  | 0, _ => throw .diverges
  | fuel + 1, currentFelt => do
    let currentPath := (← get).currentPath
    if currentPath.length = k.length then return currentFelt  -- end of traversal, return value
    if k.length < currentPath.length then failTakingPath (.overshot · treeHeight)
    else match proof.lookup currentFelt with
      | none => failTakingPath (.missingNode · currentFelt)
      | some node =>
        checkHash H node currentFelt
        match node with
        | .binary left right =>
          match k[currentPath.length]? with
          | none => throw (.panic "index out of bounds")
          | some bit =>
            modify fun st => { st with currentPath := st.currentPath ++ [bit] }
            verifyLoop proof H k treeHeight fuel
              (match Direction.ofBool bit with | .left => left | .right => right)
        | .edge child path =>
          if slice k currentPath.length path.length ≠ some path then
            return 0  -- wrong edge path: that's a non-membership proof
          modify fun st => { st with currentPath := st.currentPath ++ path }
          verifyLoop proof H k treeHeight fuel child

/-- A walk that is longer than this, edges without a path included, meets a felt again without
going down. -/
def verifyFuel (proof : MultiProof) (k : Path) : Nat := (k.length + 1) * (proof.entries.length + 1) + 1

/-- The verification of one key. -/
def verifyKey (proof : MultiProof) (H : StarkHash) (root : Felt) (treeHeight : UInt8) (k : Path) : M Felt := do
  if k.length ≠ treeHeight.toNat then
    throw (.error (.keyLengthMismatch k treeHeight k.length))
  modify fun st => { st with currentPath := [] }
  verifyLoop proof H k treeHeight (verifyFuel proof k) root

/-- The results for a list of keys, in order; nothing comes after a panic. -/
def verifyKeys (proof : MultiProof) (H : StarkHash) (root : Felt) (treeHeight : UInt8) :
    List BitSlice → VerifyState → List (Except VerifyFailure Felt)
  | [], _ => []
  | k :: ks, st =>
    match verifyKey proof H root treeHeight k.bits st with
    | .ok v st => .ok v :: verifyKeys proof H root treeHeight ks st
    | .error (.error e) st => .error (.error e) :: verifyKeys proof H root treeHeight ks st
    | .error e _ => [.error e]

/-- `MultiProof::verify_proof`. -/
def verifyProof (proof : MultiProof) (H : StarkHash) (root : Felt) (keyValues : List BitSlice)
    (treeHeight : UInt8) : List (Except VerifyFailure Felt) :=
  verifyKeys proof H root treeHeight keyValues ⟨∅, []⟩

end MultiProof

namespace MerkleTree

/-- Code of the tree, beside a visitor. -/
def besideVisitor {E V α : Type} (m : M E α) : EStateM (Failure E) (V × MerkleTree) α := fun (visitor, tree) =>
  match m tree with
  | .ok a tree => .ok a (visitor, tree)
  | .error e tree => .error e (visitor, tree)

/-- The recursion depth `get_or_compute_node_hash` is given. -/
def nodeHash {E : Type} (H : StarkHash) (handle : NodeHandle) : M E Felt := do
  getOrComputeNodeHash H ((← self).nodes.next + 1) handle

/-- The node of a proof, from a node of the tree. -/
def proofNode {E : Type} (H : StarkHash) : Node → M E ProofNode
  | .binary b => do
    let left ← nodeHash H b.left
    let right ← nodeHash H b.right
    return .binary left right
  | .edge e => do
    let child ← nodeHash H e.child
    return .edge child e.path

/-- `ProofVisitor::visit_node`. -/
def proofVisitor {E : Type} (H : StarkHash) : NodeVisitor E MultiProof := fun nodeId _ => do
  let node ← besideVisitor (getNodeMut nodeId)
  let proofNode ← besideVisitor (proofNode H node)
  let hash ← besideVisitor (nodeHash H (.inMemory nodeId))
  modify fun (proof, tree) => (proof.insert hash proofNode, tree)

variable [FeltCodec] {DB ID : Type} [BonsaiDatabase DB]

/-- One key of `get_multi_proof`. -/
def proveKey (H : StarkHash) (db : KeyValueDB DB ID) (maxHeight : UInt8) (key : BitSlice) :
    MerkleTreeIterator.M (BonsaiDatabase.DatabaseError DB) MultiProof Unit := do
  if key.len ≠ maxHeight.toNat then throw (.error (.keyLength maxHeight.toNat key.len))
  MerkleTreeIterator.traverseTo db (proofVisitor H) key.bits

/-- `get_multi_proof`. -/
def getMultiProof (H : StarkHash) (db : KeyValueDB DB ID) (keys : List BitSlice) :
    M (BonsaiDatabase.DatabaseError DB) MultiProof := fun tree =>
  match keys.forM (proveKey H db tree.maxHeight) (MerkleTreeIterator.new tree ∅) with
  | .ok () it => .ok it.visitor it.tree
  | .error e it => .error e it.tree

end MerkleTree

end Bonsai
