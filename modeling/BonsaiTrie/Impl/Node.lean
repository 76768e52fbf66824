import BonsaiTrie.Impl.Felt

/-!
# Nodes

The nodes of the tree (`merkle_node.rs`): a child is held by its hash or, when
it is loaded, by the key of an in-memory node. `Node.encode` and `Node.decode`
are the SCALE codec the crate derives; a node that holds an in-memory key has
no encoding (`unreachable!`).
-/

namespace Bonsai

/-- `NodeKey`, the slot-map key of an in-memory node. -/
abbrev NodeKey := Nat

/-- `NodeHandle`. -/
inductive NodeHandle where
  | hash (felt : Felt)
  | inMemory (key : NodeKey)
  deriving DecidableEq, Repr

/-- `NodeHandle::as_hash`. -/
def NodeHandle.asHash : NodeHandle → Option Felt
  | .hash felt => some felt
  | .inMemory _ => none

/-- `Direction`, of a child of a binary node. -/
inductive Direction where
  | left
  | right
  deriving DecidableEq, Repr

namespace Direction

/-- `Direction::from(bool)`. -/
def ofBool : Bool → Direction
  | true => right
  | false => left

/-- `bool::from(direction)`. -/
def toBool : Direction → Bool
  | left => false
  | right => true

/-- `Direction::invert`. -/
def invert : Direction → Direction
  | left => right
  | right => left

end Direction

/-- `BinaryNode`; `hash` is a memo. -/
structure BinaryNode where
  hash : Option Felt
  height : Nat
  left : NodeHandle
  right : NodeHandle
  deriving DecidableEq, Repr

/-- `EdgeNode`; `hash` is a memo. -/
structure EdgeNode where
  hash : Option Felt
  height : Nat
  path : Path
  child : NodeHandle
  deriving DecidableEq, Repr

/-- `Node`. -/
inductive Node where
  | binary (node : BinaryNode)
  | edge (node : EdgeNode)
  deriving DecidableEq, Repr

namespace BinaryNode

/-- `BinaryNode::direction`: the key's bit at the node's height; indexing panics past the key. -/
def direction (b : BinaryNode) (key : Path) : Option Direction := (key[b.height]?).map Direction.ofBool

/-- `BinaryNode::get_child`. -/
def getChild (b : BinaryNode) : Direction → NodeHandle
  | .left => b.left
  | .right => b.right

/-- `*get_child_mut(direction) = child`. -/
def setChild (b : BinaryNode) (direction : Direction) (child : NodeHandle) : BinaryNode :=
  match direction with
  | .left => { b with left := child }
  | .right => { b with right := child }

end BinaryNode

namespace EdgeNode

/-- `EdgeNode::path_matches`: `none` when the assertion on the height fails. -/
def pathMatches (e : EdgeNode) (key : Path) (nodeHeight : Nat) : Option Bool :=
  if e.height = nodeHeight then
    let lowerBound := min nodeHeight key.length
    let upperBound := min (nodeHeight + e.path.length) key.length
    some (((key.take upperBound).drop lowerBound).isPrefixOf e.path)
  else none

/-- `EdgeNode::common_path`: the longest prefix of the path that the key follows from the node's
height on. -/
def commonPath (e : EdgeNode) (key : Path) : Path :=
  e.path.take (((key.drop e.height).zip e.path).takeWhile fun ab => ab.1 == ab.2).length

end EdgeNode

namespace Node

/-- `Node::as_binary`. -/
def asBinary : Node → Option BinaryNode
  | binary b => some b
  | edge _ => none

/-- `Node::get_hash`. -/
def getHash : Node → Option Felt
  | binary b => b.hash
  | edge e => e.hash

/-- The node with its memo set. -/
def setHash (h : Felt) : Node → Node
  | binary b => binary { b with hash := some h }
  | edge e => edge { e with hash := some h }

end Node

/-! ## The codec -/

/-- Why a decoder stops: on malformed input, or at the `unreachable!` of a `NodeKey`. -/
inductive DecodeFault where
  | malformed
  | unreachable
  deriving DecidableEq, Repr

/-- A decoder reads from the front of the input. -/
abbrev Decoder := StateT ByteVec (Except DecodeFault)

/-- The little-endian bytes of a fixed-width integer. -/
def bytesLe : Nat → Nat → ByteVec
  | 0, _ => []
  | k + 1, x => UInt8.ofNat (x % 256) :: bytesLe k (x / 256)

namespace Decoder

def byte : Decoder UInt8 := fun input =>
  match input with
  | [] => .error .malformed
  | b :: rest => .ok (b, rest)

def felt [FeltCodec] : Decoder Felt := fun input =>
  match FeltCodec.decode input with
  | none => .error .malformed
  | some r => .ok r

def path : Decoder Path := fun input =>
  match Path.decode input with
  | none => .error .malformed
  | some r => .ok r

/-- A little-endian integer of `k` bytes. -/
def natLe : Nat → Decoder Nat
  | 0 => pure 0
  | k + 1 => do
    let b ← byte
    let x ← natLe k
    pure (b.toNat + 256 * x)

def optionFelt [FeltCodec] : Decoder (Option Felt) := do
  match ← byte with
  | 0 => pure none
  | 1 => some <$> felt
  | _ => throw .malformed

def nodeHandle [FeltCodec] : Decoder NodeHandle := do
  match ← byte with
  | 0 => .hash <$> felt
  | 1 => throw .unreachable
  | _ => throw .malformed

def node [FeltCodec] : Decoder Node := do
  match ← byte with
  | 0 => do
    let hash ← optionFelt
    let height ← natLe 8
    let left ← nodeHandle
    let right ← nodeHandle
    pure (.binary ⟨hash, height, left, right⟩)
  | 1 => do
    let hash ← optionFelt
    let height ← natLe 8
    let p ← path
    let child ← nodeHandle
    pure (.edge ⟨hash, height, p, child⟩)
  | _ => throw .malformed

end Decoder

section Encode

variable [FeltCodec]

/-- `Option<Felt>::encode`. -/
def encodeOptionFelt : Option Felt → ByteVec
  | none => [0]
  | some v => 1 :: FeltCodec.encode v

/-- `NodeHandle::encode`: an in-memory key cannot be encoded. -/
def NodeHandle.encode : NodeHandle → Option ByteVec
  | .hash felt => some (0 :: FeltCodec.encode felt)
  | .inMemory _ => none

/-- `Node::encode_bytevec`. -/
def Node.encode : Node → Option ByteVec
  | .binary b => do
    let left ← b.left.encode
    let right ← b.right.encode
    some (0 :: (encodeOptionFelt b.hash ++ bytesLe 8 b.height ++ left ++ right))
  | .edge e => do
    let child ← e.child.encode
    some (1 :: (encodeOptionFelt e.hash ++ bytesLe 8 e.height ++ e.path.encode ++ child))

/-- `Node::decode`. -/
def Node.decode (bytes : ByteVec) : Except DecodeFault Node := (Decoder.node bytes).map Prod.fst

end Encode

end Bonsai
