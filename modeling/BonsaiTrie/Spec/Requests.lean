import BonsaiTrie.Framework.Trace
import BonsaiTrie.Impl.Storage

/-!
# Requests to a storage with one tree

Writes, reads, proofs and commits of the tree of the empty identifier, with
their logs and snapshots, and what it means for a run to be another one with
requests for proofs put in.
-/

namespace Bonsai

/-- A request to the storage, about the tree of the empty identifier. -/
inductive Request (ID : Type) where
  | set (key : BitSlice) (value : Felt)
  | get (key : BitSlice)
  | getMultiProof (keys : List BitSlice)
  | commit (ords : HashOrders) (logOrd : HashOrder) (id : ID)

namespace Request

variable {ID : Type}

/-- The request; only a read gives a value. -/
def run [FeltCodec] {DB T : Type} [BonsaiDatabase DB] [Id ID] [BonsaiPersistentDatabase DB ID T] (H : StarkHash) :
    Request ID → MerkleTrees.M DB ID (Option Felt)
  | set key value => do
    BonsaiStorage.insert [] key value
    return none
  | get key => fun st => Run.leaving (BonsaiStorage.get st [] key) st
  | getMultiProof keys => do
    let _ ← BonsaiStorage.getMultiProof H [] keys
    return none
  | commit ords logOrd id => do
    BonsaiStorage.commit H ords logOrd id
    return none

/-- A request for a proof. -/
def isProof : Request ID → Bool
  | getMultiProof _ => true
  | _ => false

/-- The keys that are written are stored from the first bit of a byte. -/
def Aligned : Request ID → Prop
  | set key _ => key.head.val = 0
  | get _ => True
  | getMultiProof _ => True
  | commit _ _ _ => True

/-- The same write, read or commit; the orders in which a commit goes through hash maps may differ. -/
inductive Alike : Request ID → Request ID → Prop where
  | set (key : BitSlice) (value : Felt) : Alike (.set key value) (.set key value)
  | get (key : BitSlice) : Alike (.get key) (.get key)
  | commit (ords ords' : HashOrders) (logOrd logOrd' : HashOrder) (id : ID) :
    Alike (.commit ords logOrd id) (.commit ords' logOrd' id)

/-- The first run is the second one with requests for proofs put in. -/
abbrev WithProofs : List (Request ID) → List (Request ID) → Prop := Trace.Padded isProof Alike

end Request

end Bonsai
