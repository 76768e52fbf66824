import BonsaiTrie.Spec.Requests
import BonsaiTrie.Spec.Runs
import BonsaiTrie.Spec.Infallible

/-!
# Databases whose reads may fail

A database of which any read may fail (`Faulty`), requests made on it, and what
it means for a failed write to leave no trace: every read gives what it gave
before, and requests made once the reads no longer fail are answered as if the
write had not been made.
-/

namespace Bonsai

/-- A database, and the keys that cannot be read. -/
structure Faulty (DB : Type) [BonsaiDatabase DB] where
  inner : DB
  fault : DatabaseKey → Option (BonsaiDatabase.DatabaseError DB)

instance {DB : Type} [BonsaiDatabase DB] : BonsaiDatabase (Faulty DB) where
  Batch := BonsaiDatabase.Batch DB
  DatabaseError := BonsaiDatabase.DatabaseError DB
  createBatch db := BonsaiDatabase.createBatch db.inner
  get db key :=
    match db.fault key with
    | some e => .error e
    | none => BonsaiDatabase.get db.inner key
  getByPrefix db := BonsaiDatabase.getByPrefix db.inner
  contains db := BonsaiDatabase.contains db.inner
  insert db key value batch :=
    let (old, inner, batch) := BonsaiDatabase.insert db.inner key value batch
    (old, { db with inner := inner }, batch)
  remove db key batch :=
    let (old, inner, batch) := BonsaiDatabase.remove db.inner key batch
    (old, { db with inner := inner }, batch)
  removeByPrefix db pre :=
    let (r, inner) := BonsaiDatabase.removeByPrefix db.inner pre
    (r, { db with inner := inner })
  writeBatch db batch :=
    let (r, inner) := BonsaiDatabase.writeBatch db.inner batch
    (r, { db with inner := inner })

/-- The reads that fail while a request is answered. -/
abbrev Fault (DB : Type) [BonsaiDatabase DB] := DatabaseKey → Option (BonsaiDatabase.DatabaseError DB)

/-- The same database, with reads that fail. -/
def KeyValueDB.withFault {DB ID : Type} [BonsaiDatabase DB] (fault : Fault DB) (kv : KeyValueDB DB ID) :
    KeyValueDB (Faulty DB) ID :=
  ⟨⟨kv.db, fault⟩, kv.currentChanges, kv.config, kv.createdAt⟩

/-- A request to a database of which reads may fail. -/
structure Attempt (DB ID : Type) [BonsaiDatabase DB] where
  fault : Fault DB
  request : Request ID

section

variable [FeltCodec] {DB ID T : Type} [BonsaiDatabase DB]

/-- `set`, with reads that fail. -/
def setWithFault (fault : Fault DB) (key : BitSlice) (value : Felt) : MerkleTrees.M DB ID Unit :=
  MerkleTrees.onTree [] fun db => (MerkleTree.set (db.withFault fault) key value :)

/-- `get_multi_proof`, with reads that fail. -/
def getMultiProofWithFault (H : StarkHash) (fault : Fault DB) (keys : List BitSlice) : MerkleTrees.M DB ID MultiProof :=
  MerkleTrees.onTree [] fun db => (MerkleTree.getMultiProof H (db.withFault fault) keys :)

/-- `get`, with reads that fail. -/
def getWithFault (fault : Fault DB) (st : BonsaiStorage DB ID) (key : BitSlice) :
    Except (Failure (BonsaiDatabase.DatabaseError DB)) (Option Felt) :=
  (MerkleTree.get (st.db.withFault fault) (st.treeOf []) key :)

variable [Id ID] [BonsaiPersistentDatabase DB ID T]

/-- The request; a commit reads nothing. -/
def Attempt.run (H : StarkHash) (attempt : Attempt DB ID) : MerkleTrees.M DB ID (Option Felt) :=
  match attempt.request with
  | .set key value => do
    setWithFault attempt.fault key value
    return none
  | .get key => fun st => Run.leaving (getWithFault attempt.fault st key) st
  | .getMultiProof keys => do
    let _ ← getMultiProofWithFault H attempt.fault keys
    return none
  | .commit ords logOrd id => (Request.commit ords logOrd id).run H

/-- A write that is not a deletion, or is refused for its length, or cannot read the flat entry of a key
without a pending change. -/
def Harmless (n : Nat) (st : BonsaiStorage DB ID) (fault : Fault DB) (key : BitSlice) (value : Felt) : Prop :=
  value ≠ 0 ∨ key.len ≠ n ∨ pendingOf st [] key = none ∧ (fault (.flat (bitsliceToBytes key))).isSome

/-- The attempt is harmless if it is a write that fails. -/
def Attempt.FailsHarmlessly (H : StarkHash) (n : Nat) (st : BonsaiStorage DB ID) (attempt : Attempt DB ID) : Prop :=
  ∀ key value, attempt.request = .set key value → ∀ e, Trace.answer (Attempt.run H) attempt st = .error e →
    Harmless n st attempt.fault key value

/-- A failed write that leaves no trace. -/
def Traceless [InfallibleDatabase DB] (H : StarkHash) (st st' : BonsaiStorage DB ID) : Prop :=
  (∀ key, BonsaiStorage.get st' [] key = BonsaiStorage.get st [] key) ∧
    ∀ rs : List (Request ID), (∀ r ∈ rs, r.Aligned) →
      Trace.answers (Request.run H) rs st' = Trace.answers (Request.run H) rs st ∧
        (Trace.after (Request.run H) rs st').db.columns = (Trace.after (Request.run H) rs st).db.columns

end

end Bonsai
