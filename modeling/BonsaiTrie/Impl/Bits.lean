import BonsaiTrie.Framework.Pack

/-!
# Keys, paths and their bytes

The bit strings of the crate: a `BitSlice` (a key as a caller passes it),
which knows at which bit of its first backing byte it starts, and a `Path`
(`path.rs`), whose bits alone matter. `bitsliceToBytes` copies the backing
bytes of a slice, `bytesToBitvec` reads them back; `Path.encode` and
`Path.decode` are the hand-written bit loops of the path codec.
-/

namespace Bonsai

/-- `ByteVec`: a byte string. -/
abbrev ByteVec := List UInt8

/-- `BitSlice<u8, Msb0>`: bits that start at bit `head` of their first backing byte. -/
structure BitSlice where
  head : Fin 8
  bits : List Bool
  deriving DecidableEq, Repr

namespace BitSlice

/-- `key.len()`. -/
def len (s : BitSlice) : Nat := s.bits.length

/-- `&key[..h]`, which starts at the same bit. -/
def upTo (s : BitSlice) (h : Nat) : BitSlice := ⟨s.head, s.bits.take h⟩

/-- `to_bitvec().as_raw_slice()`: the backing bytes, with the bits outside the slice zeroed. -/
def rawSlice (s : BitSlice) : ByteVec := Pack.pack (List.replicate s.head false ++ s.bits)

end BitSlice

/-- `bitslice_to_bytes`. -/
def bitsliceToBytes (s : BitSlice) : ByteVec :=
  if s.bits.isEmpty then []  -- special case: tree root
  else UInt8.ofNat s.len :: s.rawSlice

/-- `bytes_to_bitvec`; `&bytes[1..]` panics when there is no byte. -/
def bytesToBitvec : ByteVec → Option BitSlice
  | [] => none
  | _ :: bytes => some ⟨⟨0, by decide⟩, Pack.unpack bytes⟩

/-- `Path`, a path from a node of the tree. -/
abbrev Path := List Bool

namespace Path

/-- One turn of the loop of `encode_to`, on the bytes written, the byte being filled and the
position of its next bit. -/
def encodeBit (st : ByteVec × UInt8 × UInt8) (b : Bool) : ByteVec × UInt8 × UInt8 :=
  let (dest, nextStore, pos) := st
  let nextStore := nextStore ||| ((if b then 1 else 0) <<< pos)
  let (dest, nextStore, pos) := if pos = 0 then (dest ++ [nextStore], 0, 8) else (dest, nextStore, pos)
  (dest, nextStore, pos - 1)

/-- `Path::encode_to`: the length in one byte, then the bits, the last byte only if one is open. -/
def encode (p : Path) : ByteVec :=
  let (dest, nextStore, pos) := p.foldl encodeBit ([UInt8.ofNat p.length], 0, 7)
  if pos < 7 then dest ++ [nextStore] else dest

/-- `Path::size_hint`. -/
def sizeHint (p : Path) : Nat := 1 + (p.length + 7) / 8

/-- `Input::read_byte`. -/
def readByte : ByteVec → Option (UInt8 × ByteVec)
  | [] => none
  | b :: input => some (b, input)

/-- The loop of `Path::decode`: the remaining bits, the input, the byte being read, the position
of its next bit and the bits read. -/
def decodeLoop : Nat → ByteVec → Option UInt8 → UInt8 → Path → Option (Path × ByteVec)
  | 0, input, _, _, bits => some (bits, input)
  | remaining + 1, input, currentByte, bit, bits => do
    let (store, input) ← match currentByte with
      | some store => some (store, input)
      | none => readByte input
    let res := (store >>> bit) &&& 1 == 1
    let (currentByte, bit) := if bit = 0 then (none, 8) else (some store, bit)
    decodeLoop remaining input currentByte (bit - 1) (bits ++ [res])

/-- `Path::decode`: the path, and the input left. -/
def decode (input : ByteVec) : Option (Path × ByteVec) := do
  let (len, input) ← readByte input
  decodeLoop len.toNat input none 7 []

end Path

end Bonsai
