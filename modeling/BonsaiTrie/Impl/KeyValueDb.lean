import BonsaiTrie.Impl.Changes

/-!
# The key-value layer

`KeyValueDB` (`key_value_db.rs`) sits between the trees and the backend: it
records the changes made since the last commit, writes them as a trie log,
prunes old logs, takes snapshots, and builds the database of a transactional
state.
-/

namespace Bonsai

/-- `KeyValueDBConfig`. -/
structure KeyValueDBConfig where
  maxSavedTrieLogs : Option UInt64
  maxSavedSnapshots : Option UInt64
  snapshotInterval : UInt64
  deriving DecidableEq, Repr

/-- `KeyValueDB`. -/
structure KeyValueDB (DB ID : Type) where
  db : DB
  currentChanges : ChangeBatch
  config : KeyValueDBConfig
  createdAt : Option ID

/-- The state of code that writes to a database through a batch. -/
abbrev Batched (DB : Type) [BonsaiDatabase DB] := DB × BonsaiDatabase.Batch DB

namespace KeyValueDB

variable {DB ID : Type} [BonsaiDatabase DB]

/-- `KeyValueDB::new`. -/
def new (db : DB) (config : KeyValueDBConfig) (createdAt : Option ID) : KeyValueDB DB ID :=
  ⟨db, ∅, config, createdAt⟩

/-- A result of the backend, as an error of the crate. -/
def ofDb {α : Type} (r : Except (BonsaiDatabase.DatabaseError DB) α) :
    Except (Failure (BonsaiDatabase.DatabaseError DB)) α :=
  r.mapError fun e => .error (.database e)

/-- `KeyValueDB::get`. -/
def get (kv : KeyValueDB DB ID) (key : TrieKey) :
    Except (Failure (BonsaiDatabase.DatabaseError DB)) (Option ByteVec) :=
  ofDb (BonsaiDatabase.get kv.db key.toDatabaseKey)

/-- `KeyValueDB::contains`. -/
def contains (kv : KeyValueDB DB ID) (key : TrieKey) :
    Except (Failure (BonsaiDatabase.DatabaseError DB)) Bool :=
  ofDb (BonsaiDatabase.contains kv.db key.toDatabaseKey)

/-- Code that changes a `KeyValueDB` and a batch. -/
abbrev M (DB ID : Type) [BonsaiDatabase DB] :=
  EStateM (Failure (BonsaiDatabase.DatabaseError DB)) (KeyValueDB DB ID × BonsaiDatabase.Batch DB)

/-- A call of the backend with `Some(&mut batch)`. -/
def withBatch {α : Type}
    (call : DB → Option (BonsaiDatabase.Batch DB) →
      Except (BonsaiDatabase.DatabaseError DB) α × DB × Option (BonsaiDatabase.Batch DB)) :
    M DB ID α := fun (kv, batch) =>
  match call kv.db (some batch) with
  | (.ok a, db, batch') => .ok a ({ kv with db := db }, batch'.getD batch)
  | (.error e, db, batch') => .error (.error (.database e)) ({ kv with db := db }, batch'.getD batch)

/-- `changes_store.current_changes.insert_in_place`. -/
def record (key : TrieKey) (change : Change) : M DB ID Unit :=
  modify fun (kv, batch) =>
    ({ kv with currentChanges := ChangeBatch.insertInPlace kv.currentChanges key change }, batch)

/-- `KeyValueDB::insert`. -/
def insert (key : TrieKey) (value : ByteVec) : M DB ID Unit := do
  let oldValue ← withBatch fun db batch => BonsaiDatabase.insert db key.toDatabaseKey value batch
  record key ⟨oldValue, some value⟩

/-- `KeyValueDB::remove`. -/
def remove (key : TrieKey) : M DB ID Unit := do
  let oldValue ← withBatch fun db batch => BonsaiDatabase.remove db key.toDatabaseKey batch
  record key ⟨oldValue, none⟩

/-- `KeyValueDB::write_batch`, with the batch that was filled. -/
def writeBatch : M DB ID Unit := fun (kv, batch) =>
  match BonsaiDatabase.writeBatch kv.db batch with
  | (.ok (), db) => .ok () ({ kv with db := db }, batch)
  | (.error e, db) => .error (.error (.database e)) ({ kv with db := db }, batch)

/-- `db.remove_by_prefix`. -/
def removeByPrefix (pre : DatabaseKey) : M DB ID Unit := fun (kv, batch) =>
  match BonsaiDatabase.removeByPrefix kv.db pre with
  | (.ok (), db) => .ok () ({ kv with db := db }, batch)
  | (.error e, db) => .error (.error (.database e)) ({ kv with db := db }, batch)

/-- `u64::checked_sub`. -/
def checkedSub (a b : UInt64) : Option UInt64 := if b ≤ a then some (a - b) else none

variable [Id ID]

/-- The body of `KeyValueDB::commit`, once the batch is created. -/
def commitLog (ord : HashOrder) (id : ID) : M DB ID Unit := do
  let (kv, _) ← MonadState.get
  let currentChanges := kv.currentChanges
  modify fun (kv, batch) => ({ kv with currentChanges := ∅ }, batch)
  if kv.config.maxSavedTrieLogs ≠ some 0 then
    -- optim when trie logs are disabled
    (currentChanges.serialize id ord).forM fun (key, change) => do
      let _ ← withBatch fun db batch => BonsaiDatabase.insert db (.trieLog key) change batch
    writeBatch
    match kv.config.maxSavedTrieLogs.bind (checkedSub (Id.asU64 id)) with
    | some old => removeByPrefix (.trieLog (Id.toBytes (Id.fromU64 old : ID)))
    | none => pure ()

/-- `KeyValueDB::commit`. -/
def commit (ord : HashOrder) (id : ID) :
    EStateM (Failure (BonsaiDatabase.DatabaseError DB)) (KeyValueDB DB ID) Unit := fun kv =>
  match commitLog ord id (kv, BonsaiDatabase.createBatch kv.db) with
  | .ok a (kv, _) => .ok a kv
  | .error e (kv, _) => .error e kv

/-- `KeyValueDB::create_snapshot`: the remainder panics on an interval of zero. -/
def createSnapshot {T : Type} [BonsaiPersistentDatabase DB ID T] (id : ID) :
    EStateM (Failure (BonsaiDatabase.DatabaseError DB)) (KeyValueDB DB ID) Unit := fun kv =>
  if kv.config.snapshotInterval = 0 then
    .error (.panic "attempt to calculate the remainder with a divisor of zero") kv
  else if Id.asU64 id % kv.config.snapshotInterval = 0 then
    .ok () { kv with db := BonsaiPersistentDatabase.snapshot kv.db id }
  else .ok () kv

/-! ## Transactional states -/

/-- Code that changes a transaction and its batch. -/
abbrev TxnM (T : Type) [BonsaiDatabase T] :=
  EStateM (Failure (BonsaiDatabase.DatabaseError T)) (T × BonsaiDatabase.Batch T)

section Transaction

variable {T : Type} [BonsaiDatabase T]

/-- A call of the transaction with `Some(&mut batch)`. -/
def withTxnBatch {α : Type}
    (call : T → Option (BonsaiDatabase.Batch T) →
      Except (BonsaiDatabase.DatabaseError T) α × T × Option (BonsaiDatabase.Batch T)) :
    TxnM T α := fun (txn, batch) =>
  match call txn (some batch) with
  | (.ok a, txn, batch') => .ok a (txn, batch'.getD batch)
  | (.error e, txn, batch') => .error (.error (.database e)) (txn, batch'.getD batch)

/-- One change, applied backwards. -/
def applyBackwards (key : TrieKey) (change : Change) : TxnM T Unit :=
  match change.oldValue, change.newValue with
  | some old, some _ => do
    let _ ← withTxnBatch fun txn batch => BonsaiDatabase.insert txn key.toDatabaseKey old batch
  | some old, none => do
    let _ ← withTxnBatch fun txn batch => BonsaiDatabase.insert txn key.toDatabaseKey old batch
  | none, some _ => do
    let _ ← withTxnBatch fun txn batch => BonsaiDatabase.remove txn key.toDatabaseKey batch
  | none, none => throw (.panic "internal error: entered unreachable code")

/-- The turn of the loop of `get_transaction` for the log of one id. -/
def applyLog (kv : KeyValueDB DB ID) (ords : HashOrders) (curId : ID) : TxnM T Unit :=
  match BonsaiDatabase.getByPrefix kv.db (.trieLog (Id.toBytes curId)) (ords 0) with
  | .error _ => throw (.error (.transaction
      ("database is missing trie logs for " ++ toString (Id.asU64 curId))))
  | .ok entries =>
    match ChangeBatch.deserialize curId entries with
    | none => throw (.panic "Invalid key format")
    | some changes => (changes.iter (ords 1)).forM fun (key, change) => applyBackwards key change

/-- `snap_id.as_u64()..id.as_u64()`. -/
def idRange (a b : UInt64) : List UInt64 :=
  (List.range' a.toNat (b.toNat - a.toNat)).map UInt64.ofNat

/-- `KeyValueDB::get_transaction`. -/
def getTransaction [BonsaiPersistentDatabase DB ID T] (kv : KeyValueDB DB ID) (ords : ID → HashOrders)
    (id : ID) : Except (Failure (BonsaiDatabase.DatabaseError T)) (Option T) :=
  match BonsaiPersistentDatabase.transaction kv.db id with
  | none => .ok none
  | some (snapId, txn) =>
    let run : TxnM T Unit :=
      (idRange (Id.asU64 snapId) (Id.asU64 id)).forM fun curId =>
        applyLog kv (ords (Id.fromU64 curId)) (Id.fromU64 curId)
    match run (txn, BonsaiDatabase.createBatch txn) with
    | .error e _ => .error e
    | .ok () (txn, batch) =>
      match BonsaiDatabase.writeBatch txn batch with
      | (.error e, _) => .error (.error (.database e))
      | (.ok (), txn) => .ok (some txn)

end Transaction

end KeyValueDB

end Bonsai
