import BonsaiTrie.Framework.Trace
import BonsaiTrie.Impl.Storage

/-!
# Keys as bit slices

The calls on a storage that take a key, and what it means to spell the keys of
a run differently: as slices with the same bits that start at other bits of
their backing bytes.
-/

namespace Bonsai

/-- Slices of the same bits whose backing bytes are the same: they start at the same bit, or have only
zeros, in equally many bytes. -/
def BitSlice.Backed (s s' : BitSlice) : Prop :=
  s.bits = [] ∨ s.head = s'.head ∨
    true ∉ s.bits ∧ (s.head.val + s.len + 7) / 8 = (s'.head.val + s'.len + 7) / 8

/-- Slices of the same bits, of which this holds at every length. -/
structure BitSlice.Respelled (s s' : BitSlice) : Prop where
  bits : s.bits = s'.bits
  backed : ∀ d, (s.upTo d).Backed (s'.upTo d)

/-- A call on a storage. -/
inductive Access (ID : Type) where
  | insert (identifier : ByteVec) (key : BitSlice) (value : Felt)
  | remove (identifier : ByteVec) (key : BitSlice)
  | get (identifier : ByteVec) (key : BitSlice)
  | contains (identifier : ByteVec) (key : BitSlice)
  | rootHash (identifier : ByteVec)
  | commit (ords : HashOrders) (logOrd : HashOrder) (id : ID)

/-- What a call returns. -/
inductive Reply where
  | done
  | value (value : Option Felt)
  | found (found : Bool)
  | root (hash : Felt)
  deriving DecidableEq, Repr

namespace Access

variable {ID : Type}

/-- The call. -/
def run [FeltCodec] {DB T : Type} [BonsaiDatabase DB] [Id ID] [BonsaiPersistentDatabase DB ID T] (H : StarkHash) :
    Access ID → MerkleTrees.M DB ID Reply
  | insert identifier key value => do
    BonsaiStorage.insert identifier key value
    return .done
  | remove identifier key => do
    BonsaiStorage.remove identifier key
    return .done
  | get identifier key => fun st => Run.leaving ((BonsaiStorage.get st identifier key).map .value) st
  | contains identifier key => fun st => Run.leaving ((BonsaiStorage.contains st identifier key).map .found) st
  | rootHash identifier => fun st => Run.leaving ((BonsaiStorage.rootHash st identifier).map .root) st
  | commit ords logOrd id => do
    BonsaiStorage.commit H ords logOrd id
    return .done

/-- The same call, its key respelled. -/
inductive Respelled : Access ID → Access ID → Prop where
  | insert (identifier : ByteVec) {key key' : BitSlice} (value : Felt) :
    key.Respelled key' → Respelled (.insert identifier key value) (.insert identifier key' value)
  | remove (identifier : ByteVec) {key key' : BitSlice} :
    key.Respelled key' → Respelled (.remove identifier key) (.remove identifier key')
  | get (identifier : ByteVec) {key key' : BitSlice} :
    key.Respelled key' → Respelled (.get identifier key) (.get identifier key')
  | contains (identifier : ByteVec) {key key' : BitSlice} :
    key.Respelled key' → Respelled (.contains identifier key) (.contains identifier key')
  | rootHash (identifier : ByteVec) : Respelled (.rootHash identifier) (.rootHash identifier)
  | commit (ords : HashOrders) (logOrd : HashOrder) (id : ID) : Respelled (.commit ords logOrd id) (.commit ords logOrd id)

end Access

end Bonsai
