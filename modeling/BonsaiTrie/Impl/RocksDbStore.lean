import BonsaiTrie.Impl.RocksDb

/-!
# The RocksDB backend

`RocksDB` (`databases/rocks_db.rs`) as a backend: its calls go to the database
itself, those with a batch only after `write_batch`. Of the crate, these need
more than a transaction does (`DirectAccess`). A new one has no snapshots,
also over a database that is not empty.
-/

namespace Bonsai

/-- What is used of the `rocksdb` crate outside transactions. -/
class DirectAccess (Db : Type) [OptimisticTransactionDB Db] where
  /-- `WriteBatchWithTransaction::default` -/
  batchDefault : OptimisticTransactionDB.WriteBatch Db
  /-- `db.get_cf` -/
  getCf : Db → DatabaseKey → Except (OptimisticTransactionDB.Error Db) (Option ByteVec)
  /-- `db.iterator_cf` from a key on -/
  iteratorCf : Db → DatabaseKey → List (Except (OptimisticTransactionDB.Error Db) (ByteVec × ByteVec))
  /-- `db.put_cf` -/
  putCf : Db → DatabaseKey → ByteVec → Except (OptimisticTransactionDB.Error Db) Unit × Db
  /-- `db.delete_cf` -/
  deleteCf : Db → DatabaseKey → Except (OptimisticTransactionDB.Error Db) Unit × Db
  /-- `db.write` -/
  write : Db → OptimisticTransactionDB.WriteBatch Db → Except (OptimisticTransactionDB.Error Db) Unit × Db

namespace RocksDB

open DirectAccess
open OptimisticTransactionDB (batchPutCf batchDeleteCf)

variable {Db ID : Type} [OptimisticTransactionDB Db]

/-- `RocksDB::new`, with the `max_saved_snapshots` of its configuration. -/
def new (db : Db) (maxSavedSnapshots : Option Nat) : RocksDB Db ID := ⟨db, maxSavedSnapshots, []⟩

variable [DirectAccess Db]

/-- `get`. -/
def get (s : RocksDB Db ID) (key : DatabaseKey) : Except (OptimisticTransactionDB.Error Db) (Option ByteVec) := getCf s.db key

/-- `get_by_prefix`. -/
def getByPrefix (s : RocksDB Db ID) (pre : DatabaseKey) : List (ByteVec × ByteVec) :=
  RocksDBTransaction.mapWhile pre (iteratorCf s.db pre)

/-- A direct write. -/
def written (s : RocksDB Db ID) (old : Option ByteVec) (r : Except (OptimisticTransactionDB.Error Db) Unit × Db) :
    Except (OptimisticTransactionDB.Error Db) (Option ByteVec) × RocksDB Db ID :=
  (r.1.map fun _ => old, { s with db := r.2 })

/-- `insert`. -/
def insert (s : RocksDB Db ID) (key : DatabaseKey) (value : ByteVec) (batch : Option (OptimisticTransactionDB.WriteBatch Db)) :
    Except (OptimisticTransactionDB.Error Db) (Option ByteVec) × RocksDB Db ID × Option (OptimisticTransactionDB.WriteBatch Db) :=
  match s.get key with
  | .error e => (.error e, s, batch)
  | .ok old =>
    match batch with
    | some batch => (.ok old, s, some (batchPutCf batch key value))
    | none =>
      let (r, s) := s.written old (putCf s.db key value)
      (r, s, none)

/-- `remove`. -/
def remove (s : RocksDB Db ID) (key : DatabaseKey) (batch : Option (OptimisticTransactionDB.WriteBatch Db)) :
    Except (OptimisticTransactionDB.Error Db) (Option ByteVec) × RocksDB Db ID × Option (OptimisticTransactionDB.WriteBatch Db) :=
  match s.get key with
  | .error e => (.error e, s, batch)
  | .ok old =>
    match batch with
    | some batch => (.ok old, s, some (batchDeleteCf batch key))
    | none =>
      let (r, s) := s.written old (deleteCf s.db key)
      (r, s, none)

/-- `write_batch`. -/
def writeBatch (s : RocksDB Db ID) (batch : OptimisticTransactionDB.WriteBatch Db) :
    Except (OptimisticTransactionDB.Error Db) Unit × RocksDB Db ID :=
  let (r, db) := write s.db batch
  (r, { s with db := db })

/-- `remove_by_prefix`. -/
def removeByPrefix (s : RocksDB Db ID) (pre : DatabaseKey) : Except (OptimisticTransactionDB.Error Db) Unit × RocksDB Db ID :=
  s.writeBatch ((s.getByPrefix pre).foldl (fun batch kv => batchDeleteCf batch (pre.withBytes kv.1)) batchDefault)

instance : BonsaiDatabase (RocksDB Db ID) where
  Batch := OptimisticTransactionDB.WriteBatch Db
  DatabaseError := OptimisticTransactionDB.Error Db
  createBatch _ := batchDefault
  get := get
  getByPrefix s pre _ := .ok (s.getByPrefix pre)
  contains s key := (s.get key).map Option.isSome
  insert := insert
  remove := remove
  removeByPrefix := removeByPrefix
  writeBatch := writeBatch

instance [LT ID] [DecidableLT ID] : BonsaiPersistentDatabase (RocksDB Db ID) ID (RocksDBTransaction Db) where
  snapshot := snapshot
  transaction := transaction

end RocksDB

end Bonsai
