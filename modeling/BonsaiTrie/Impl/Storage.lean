import BonsaiTrie.Impl.Commit
import BonsaiTrie.Impl.MultiProof

/-!
# The storage

`MerkleTrees` (`trie/trees.rs`): trees by identifier over one database, and
`BonsaiStorage` (`lib.rs`), which wraps it.
-/

namespace Bonsai

/-- `MerkleTrees`. -/
structure MerkleTrees (DB ID : Type) where
  db : KeyValueDB DB ID
  trees : HashMap ByteVec MerkleTree
  maxHeight : UInt8

namespace MerkleTrees

variable {DB ID : Type} [BonsaiDatabase DB]

/-- Code that changes a storage. -/
abbrev M (DB ID : Type) [BonsaiDatabase DB] :=
  EStateM (Failure (BonsaiDatabase.DatabaseError DB)) (MerkleTrees DB ID)

/-- `MerkleTrees::new`. -/
def new (db : KeyValueDB DB ID) (treeHeight : UInt8) : MerkleTrees DB ID := ⟨db, ∅, treeHeight⟩

/-- The tree of an identifier, or a new one. -/
def treeOf (s : MerkleTrees DB ID) (identifier : ByteVec) : MerkleTree :=
  (s.trees.lookup identifier).getD (MerkleTree.new identifier s.maxHeight)

/-- Code of the tree of an identifier (`entry_ref(identifier).or_insert_with(..)`). -/
def onTree {α : Type} (identifier : ByteVec)
    (m : KeyValueDB DB ID → MerkleTree.M (BonsaiDatabase.DatabaseError DB) α) : M DB ID α := fun s =>
  match m s.db (s.treeOf identifier) with
  | .ok a tree => .ok a { s with trees := s.trees.insert identifier tree }
  | .error e tree => .error e { s with trees := s.trees.insert identifier tree }

variable [FeltCodec]

/-- `MerkleTrees::set`. -/
def set (identifier : ByteVec) (key : BitSlice) (value : Felt) : M DB ID Unit :=
  onTree identifier fun db => MerkleTree.set db key value

/-- `MerkleTrees::get`. -/
def get (s : MerkleTrees DB ID) (identifier : ByteVec) (key : BitSlice) :
    Except (Failure (BonsaiDatabase.DatabaseError DB)) (Option Felt) :=
  MerkleTree.get s.db (s.treeOf identifier) key

/-- `MerkleTrees::contains`. -/
def contains (s : MerkleTrees DB ID) (identifier : ByteVec) (key : BitSlice) :
    Except (Failure (BonsaiDatabase.DatabaseError DB)) Bool :=
  MerkleTree.contains s.db (s.treeOf identifier) key

/-- `MerkleTrees::root_hash`. -/
def rootHash (s : MerkleTrees DB ID) (identifier : ByteVec) :
    Except (Failure (BonsaiDatabase.DatabaseError DB)) Felt :=
  MerkleTree.rootHash s.db (s.treeOf identifier)

/-- A flat key without the identifier and the byte after it; `none` if it ends with the identifier. -/
def cutIdentifier (identifier key : ByteVec) : Option ByteVec :=
  if identifier.length < key.length then some (key.drop (identifier.length + 1)) else none

/-- `MerkleTrees::get_keys`; `ord` is the order in which the backend lists the entries. -/
def getKeys (s : MerkleTrees DB ID) (identifier : ByteVec) (ord : HashOrder) :
    Except (Failure (BonsaiDatabase.DatabaseError DB)) (List ByteVec) :=
  (KeyValueDB.ofDb (BonsaiDatabase.getByPrefix s.db.db (.flat identifier) ord)).map fun keyValuePairs =>
    keyValuePairs.filterMap fun kv => cutIdentifier identifier kv.1

/-- `MerkleTrees::get_key_value_pairs`. -/
def getKeyValuePairs (s : MerkleTrees DB ID) (identifier : ByteVec) (ord : HashOrder) :
    Except (Failure (BonsaiDatabase.DatabaseError DB)) (List (ByteVec × ByteVec)) :=
  (KeyValueDB.ofDb (BonsaiDatabase.getByPrefix s.db.db (.flat identifier) ord)).map fun keyValuePairs =>
    keyValuePairs.filterMap fun kv => (cutIdentifier identifier kv.1).map fun key => (key, kv.2)

/-- `MerkleTrees::get_multi_proof`. -/
def getMultiProof (H : StarkHash) (identifier : ByteVec) (keys : List BitSlice) : M DB ID MultiProof :=
  onTree identifier fun db => MerkleTree.getMultiProof H db keys

/-- `get_updates` of every tree, in parallel; the trees after it and the results. -/
def allUpdates (E : Type) (H : StarkHash) : List (ByteVec × MerkleTree) → HashMap ByteVec MerkleTree →
    HashMap ByteVec MerkleTree × List (Except (Failure E) Updates)
  | [], trees => (trees, [])
  | (identifier, tree) :: rest, trees =>
    match MerkleTree.getUpdates H tree with
    | .ok updates tree =>
      let (trees, results) := allUpdates E H rest (trees.insert identifier tree)
      (trees, .ok updates :: results)
    | .error e tree =>
      let (trees, results) := allUpdates E H rest (trees.insert identifier tree)
      (trees, .error e :: results)

/-- The panic of one of the parallel computations, if there is one. -/
def firstPanic {E : Type} (results : List (Except (Failure E) Updates)) : Option (Failure E) :=
  results.findSome? fun r =>
    match r with
    | .error (.panic message) => some (.panic message)
    | .error .diverges => some .diverges
    | _ => none

/-- One update, put in the batch. -/
def applyUpdate (key : TrieKey) (value : InsertOrRemove ByteVec) : KeyValueDB.M DB ID Unit :=
  match value with
  | .insert value => KeyValueDB.insert key value
  | .remove => KeyValueDB.remove key

/-- The loop of `commit` over the results of the trees. -/
def applyAll (ords : HashOrders) :
    Nat → List (Except (Failure (BonsaiDatabase.DatabaseError DB)) Updates) → KeyValueDB.M DB ID Unit
  | _, [] => return
  | _, .error e :: _ => throw e
  | i, .ok updates :: results => do
    (updates.iter (ords i)).forM fun (key, value) => applyUpdate key value
    applyAll ords (i + 1) results

/-- `MerkleTrees::commit`. -/
def commit (H : StarkHash) (ords : HashOrders) : M DB ID Unit := fun s =>
  let (trees, results) :=
    allUpdates (BonsaiDatabase.DatabaseError DB) H (s.trees.iter (ords 0)) s.trees
  let s := { s with trees := trees }
  match firstPanic results with
  | some e => .error e s
  | none =>
    let run : KeyValueDB.M DB ID Unit := do
      applyAll ords 1 results
      KeyValueDB.writeBatch
    match run (s.db, BonsaiDatabase.createBatch s.db.db) with
    | .ok () (db, _) => .ok () { s with db := db }
    | .error e (db, _) => .error e { s with db := db }

/-- Code of the key-value layer. -/
def onDb {α : Type} (m : EStateM (Failure (BonsaiDatabase.DatabaseError DB)) (KeyValueDB DB ID) α) :
    M DB ID α := fun s =>
  match m s.db with
  | .ok a db => .ok a { s with db := db }
  | .error e db => .error e { s with db := db }

end MerkleTrees

/-- `BonsaiStorageConfig`; the conversions to and from `KeyValueDBConfig` copy its fields. -/
abbrev BonsaiStorageConfig := KeyValueDBConfig

/-- `BonsaiStorage`, the wrapper of a `MerkleTrees`. -/
abbrev BonsaiStorage := MerkleTrees

namespace BonsaiStorage

variable [FeltCodec] {DB ID : Type} [BonsaiDatabase DB]

/-- `BonsaiStorage::new`. -/
def new (db : DB) (config : BonsaiStorageConfig) (maxHeight : UInt8) : BonsaiStorage DB ID :=
  MerkleTrees.new (KeyValueDB.new db config none) maxHeight

/-- `BonsaiStorage::new_from_transactional_state`. -/
def newFromTransactionalState (db : DB) (config : BonsaiStorageConfig) (maxHeight : UInt8) (createdAt : ID) :
    BonsaiStorage DB ID :=
  MerkleTrees.new (KeyValueDB.new db config (some createdAt)) maxHeight

/-- `BonsaiStorage::insert`. -/
def insert (identifier : ByteVec) (key : BitSlice) (value : Felt) : MerkleTrees.M DB ID Unit :=
  MerkleTrees.set identifier key value

/-- `BonsaiStorage::remove`. -/
def remove (identifier : ByteVec) (key : BitSlice) : MerkleTrees.M DB ID Unit :=
  MerkleTrees.set identifier key 0

/-- `BonsaiStorage::get`. -/
def get (s : BonsaiStorage DB ID) (identifier : ByteVec) (key : BitSlice) :
    Except (Failure (BonsaiDatabase.DatabaseError DB)) (Option Felt) :=
  MerkleTrees.get s identifier key

/-- `BonsaiStorage::contains`. -/
def contains (s : BonsaiStorage DB ID) (identifier : ByteVec) (key : BitSlice) :
    Except (Failure (BonsaiDatabase.DatabaseError DB)) Bool :=
  MerkleTrees.contains s identifier key

/-- `BonsaiStorage::root_hash`. -/
def rootHash (s : BonsaiStorage DB ID) (identifier : ByteVec) :
    Except (Failure (BonsaiDatabase.DatabaseError DB)) Felt :=
  MerkleTrees.rootHash s identifier

/-- `BonsaiStorage::get_keys`. -/
def getKeys (s : BonsaiStorage DB ID) (identifier : ByteVec) (ord : HashOrder) :
    Except (Failure (BonsaiDatabase.DatabaseError DB)) (List ByteVec) :=
  MerkleTrees.getKeys s identifier ord

/-- `BonsaiStorage::get_key_value_pairs`. -/
def getKeyValuePairs (s : BonsaiStorage DB ID) (identifier : ByteVec) (ord : HashOrder) :
    Except (Failure (BonsaiDatabase.DatabaseError DB)) (List (ByteVec × ByteVec)) :=
  MerkleTrees.getKeyValuePairs s identifier ord

/-- `BonsaiStorage::get_multi_proof`. -/
def getMultiProof (H : StarkHash) (identifier : ByteVec) (keys : List BitSlice) :
    MerkleTrees.M DB ID MultiProof :=
  MerkleTrees.getMultiProof H identifier keys

/-- The turn of the loops of `BonsaiStorage::merge` for one modified leaf of a tree; its errors come as they
are, not in the text of a merge error. -/
def mergeLeaf (identifier k : ByteVec) (op : InsertOrRemove Felt) : MerkleTrees.M DB ID Unit :=
  match bytesToBitvec k with
  | none => throw (.panic "range start index 1 out of range for slice of length 0")
  | some key =>
    match op with
    | .insert v => insert identifier key v
    | .remove => remove identifier key

variable [Id ID]

/-- `BonsaiStorage::transactional_commit`, with the orders of its iterations. -/
def transactionalCommit (H : StarkHash) (ords : HashOrders) (logOrd : HashOrder) (id : ID) : MerkleTrees.M DB ID Unit := do
  MerkleTrees.commit H ords
  MerkleTrees.onDb (KeyValueDB.commit logOrd id)

variable {T : Type} [BonsaiPersistentDatabase DB ID T]

/-- `BonsaiStorage::commit`; `ords` are the orders of its iterations over hash maps, `logOrd` that
of the change batch. -/
def commit (H : StarkHash) (ords : HashOrders) (logOrd : HashOrder) (id : ID) : MerkleTrees.M DB ID Unit := do
  MerkleTrees.commit H ords
  MerkleTrees.onDb (KeyValueDB.commit logOrd id)
  MerkleTrees.onDb (KeyValueDB.createSnapshot id)

/-- `BonsaiStorage::get_transactional_state`. -/
def getTransactionalState [BonsaiDatabase T] (s : BonsaiStorage DB ID) (ords : ID → HashOrders) (changeId : ID)
    (config : BonsaiStorageConfig) :
    Except (Failure (BonsaiDatabase.DatabaseError T)) (Option (BonsaiStorage T ID)) := do
  match ← s.db.getTransaction ords changeId with
  | some transaction => return some (newFromTransactionalState transaction config s.maxHeight changeId)
  | none => return none

end BonsaiStorage

end Bonsai
