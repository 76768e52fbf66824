import BonsaiTrie.Impl.Bits

/-!
# Field elements and node hashes

The values and hashes of the tree are elements of the Stark field
(`starknet_types_core`). The hash function is any function of two elements;
the byte encoding of an element is known by its round trip only
(`FeltCodec`). `hashBinaryNode` and `hashEdgeNode` are those of
`merkle_node.rs`.
-/

namespace Bonsai

/-- The order of the Stark field. -/
def feltPrime : Nat := 2 ^ 251 + 17 * 2 ^ 192 + 1

instance : NeZero feltPrime := ⟨by decide⟩

/-- `Felt`. -/
abbrev Felt := Fin feltPrime

/-- The integer of a big-endian byte string. -/
def natOfBytesBe (bs : ByteVec) : Nat := bs.foldl (fun acc b => 256 * acc + b.toNat) 0

/-- `Felt::from_bytes_be`: reduced modulo the order of the field. -/
def Felt.ofBytesBe (bs : ByteVec) : Felt := Fin.ofNat feltPrime (natOfBytesBe bs)

/-- `StarkHash::hash`. -/
abbrev StarkHash := Felt → Felt → Felt

/-- The SCALE codec of a `Felt`: what is encoded comes back, whatever follows it. -/
class FeltCodec where
  encode : Felt → ByteVec
  decode : ByteVec → Option (Felt × ByteVec)
  decode_encode (v : Felt) (rest : ByteVec) : decode (encode v ++ rest) = some (v, rest)

/-- `hash_binary_node`. -/
def hashBinaryNode (H : StarkHash) (left right : Felt) : Felt := H left right

/-- The path of an edge as a field element: its bits, right-aligned in 32 bytes. -/
def pathFelt (path : Path) : Felt :=
  Felt.ofBytesBe (Pack.pack (List.replicate (256 - path.length) false ++ path))

/-- The length of an edge as a field element: a length of one byte. -/
def lengthFelt (path : Path) : Felt :=
  Felt.ofBytesBe (List.replicate 31 0 ++ [UInt8.ofNat path.length])

/-- The hash of an edge whose path fits in 256 bits. -/
def edgeHash (H : StarkHash) (path : Path) (child : Felt) : Felt :=
  H child (pathFelt path) + lengthFelt path

/-- `hash_edge_node`: `256 - path.len()` underflows on a longer path. -/
def hashEdgeNode (H : StarkHash) (path : Path) (child : Felt) : Option Felt :=
  if path.length ≤ 256 then some (edgeHash H path child) else none

theorem hashEdgeNode_eq (H : StarkHash) {path : Path} (child : Felt) (h : path.length ≤ 256) :
    hashEdgeNode H path child = some (edgeHash H path child) := if_pos h

end Bonsai
