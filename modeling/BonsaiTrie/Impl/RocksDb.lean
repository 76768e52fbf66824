import BonsaiTrie.Impl.HashMapDb

/-!
# The RocksDB backend's transactions

`RocksDBTransaction` (`databases/rocks_db.rs`), on which a transactional state
is built, and `RocksDB::snapshot` and `transaction`, which open one. The
`rocksdb` crate is not part of the repository: its calls are a parameter
(`OptimisticTransactionDB`). A `DatabaseKey` is a column family and a key in it.
-/

namespace Bonsai

/-- What is used of the `rocksdb` crate; `Db` is what an `OptimisticTransactionDB` holds at some time. -/
class OptimisticTransactionDB (Db : Type) where
  Snapshot : Type
  Transaction : Type
  WriteBatch : Type
  Error : Type
  /-- `db.snapshot` -/
  snapshot : Db → Snapshot
  /-- `db.transaction_opt` -/
  transactionOpt : Db → Transaction
  /-- `txn.get_cf_opt` with read options that carry a snapshot -/
  getCfOpt : Db → Transaction → Snapshot → DatabaseKey → Except Error (Option ByteVec)
  /-- `txn.iterator_cf` from a key on, with the default read options -/
  iteratorCf : Db → Transaction → DatabaseKey → List (Except Error (ByteVec × ByteVec))
  /-- `txn.put_cf` -/
  putCf : Transaction → DatabaseKey → ByteVec → Except Error Unit × Transaction
  /-- `txn.delete_cf` -/
  deleteCf : Transaction → DatabaseKey → Except Error Unit × Transaction
  /-- `txn.get_writebatch` -/
  getWritebatch : Transaction → WriteBatch
  /-- `txn.rebuild_from_writebatch` -/
  rebuildFromWritebatch : Transaction → WriteBatch → Except Error Unit × Transaction
  /-- `batch.put_cf` -/
  batchPutCf : WriteBatch → DatabaseKey → ByteVec → WriteBatch
  /-- `batch.delete_cf` -/
  batchDeleteCf : WriteBatch → DatabaseKey → WriteBatch

/-- A key of the same column. -/
def DatabaseKey.withBytes : DatabaseKey → ByteVec → DatabaseKey
  | trie _, bytes => .trie bytes
  | flat _, bytes => .flat bytes
  | trieLog _, bytes => .trieLog bytes

variable (Db : Type) [OptimisticTransactionDB Db]

/-- `RocksDBTransaction`, over the database as it is now; `read_options` carry a snapshot. -/
structure RocksDBTransaction where
  db : Db
  txn : OptimisticTransactionDB.Transaction Db
  readOptions : OptimisticTransactionDB.Snapshot Db

/-- `RocksDB`, with the snapshots it keeps. -/
structure RocksDB (ID : Type) where
  db : Db
  maxSavedSnapshots : Option Nat
  snapshots : BTreeMap ID (OptimisticTransactionDB.Snapshot Db)

variable {Db}

namespace RocksDBTransaction

open OptimisticTransactionDB (getCfOpt iteratorCf putCf deleteCf getWritebatch rebuildFromWritebatch batchPutCf batchDeleteCf)

/-- The entries of an iterator up to the first that fails or does not start with the prefix. -/
def mapWhile (pre : DatabaseKey) :
    List (Except (OptimisticTransactionDB.Error Db) (ByteVec × ByteVec)) → List (ByteVec × ByteVec)
  | .ok (key, value) :: iter => if pre.asSlice.isPrefixOf key then (key, value) :: mapWhile pre iter else []
  | _ => []

/-- `get`. -/
def get (s : RocksDBTransaction Db) (key : DatabaseKey) :
    Except (OptimisticTransactionDB.Error Db) (Option ByteVec) := getCfOpt s.db s.txn s.readOptions key

/-- `get_by_prefix`. -/
def getByPrefix (s : RocksDBTransaction Db) (pre : DatabaseKey) : List (ByteVec × ByteVec) :=
  mapWhile pre (iteratorCf s.db s.txn pre)

/-- A direct write. -/
def written (s : RocksDBTransaction Db) (old : Option ByteVec)
    (r : Except (OptimisticTransactionDB.Error Db) Unit × OptimisticTransactionDB.Transaction Db) :
    Except (OptimisticTransactionDB.Error Db) (Option ByteVec) × RocksDBTransaction Db :=
  (r.1.map fun _ => old, { s with txn := r.2 })

/-- `insert`. -/
def insert (s : RocksDBTransaction Db) (key : DatabaseKey) (value : ByteVec)
    (batch : Option (OptimisticTransactionDB.WriteBatch Db)) :
    Except (OptimisticTransactionDB.Error Db) (Option ByteVec) × RocksDBTransaction Db ×
      Option (OptimisticTransactionDB.WriteBatch Db) :=
  match s.get key with
  | .error e => (.error e, s, batch)
  | .ok old =>
    match batch with
    | some batch => (.ok old, s, some (batchPutCf batch key value))
    | none =>
      let (r, s) := s.written old (putCf s.txn key value)
      (r, s, none)

/-- `remove`. -/
def remove (s : RocksDBTransaction Db) (key : DatabaseKey) (batch : Option (OptimisticTransactionDB.WriteBatch Db)) :
    Except (OptimisticTransactionDB.Error Db) (Option ByteVec) × RocksDBTransaction Db ×
      Option (OptimisticTransactionDB.WriteBatch Db) :=
  match s.get key with
  | .error e => (.error e, s, batch)
  | .ok old =>
    match batch with
    | some batch => (.ok old, s, some (batchDeleteCf batch key))
    | none =>
      let (r, s) := s.written old (deleteCf s.txn key)
      (r, s, none)

/-- `write_batch`. -/
def writeBatch (s : RocksDBTransaction Db) (batch : OptimisticTransactionDB.WriteBatch Db) :
    Except (OptimisticTransactionDB.Error Db) Unit × RocksDBTransaction Db :=
  let (r, txn) := rebuildFromWritebatch s.txn batch
  (r, { s with txn := txn })

/-- `remove_by_prefix`. -/
def removeByPrefix (s : RocksDBTransaction Db) (pre : DatabaseKey) :
    Except (OptimisticTransactionDB.Error Db) Unit × RocksDBTransaction Db :=
  s.writeBatch ((s.getByPrefix pre).foldl (fun batch kv => batchDeleteCf batch (pre.withBytes kv.1))
    (getWritebatch s.txn))

instance : BonsaiDatabase (RocksDBTransaction Db) where
  Batch := OptimisticTransactionDB.WriteBatch Db
  DatabaseError := OptimisticTransactionDB.Error Db
  createBatch s := getWritebatch s.txn
  get := get
  getByPrefix s pre _ := .ok (s.getByPrefix pre)
  contains s key := (s.get key).map Option.isSome
  insert := insert
  remove := remove
  removeByPrefix := removeByPrefix
  writeBatch := writeBatch

end RocksDBTransaction

namespace RocksDB

variable {ID : Type} [LT ID] [DecidableLT ID]

/-- `snapshots.pop_first()` while there are more than `n`. -/
def popWhile (n : Nat) (snapshots : BTreeMap ID (OptimisticTransactionDB.Snapshot Db)) :
    BTreeMap ID (OptimisticTransactionDB.Snapshot Db) := snapshots.drop (snapshots.length - n)

/-- `snapshot`. -/
def snapshot (s : RocksDB Db ID) (id : ID) : RocksDB Db ID :=
  let snapshots := BTreeMap.insert id (OptimisticTransactionDB.snapshot s.db) s.snapshots
  match s.maxSavedSnapshots with
  | some n => { s with snapshots := popWhile n snapshots }
  | none => { s with snapshots := snapshots }

/-- `transaction`. -/
def transaction (s : RocksDB Db ID) (id : ID) : Option (ID × RocksDBTransaction Db) :=
  (BTreeMap.rangeToNext s.snapshots id).map fun (id, snapshot) =>
    (id, ⟨s.db, OptimisticTransactionDB.transactionOpt s.db, snapshot⟩)

end RocksDB

end Bonsai
