import BonsaiTrie.Impl.RocksDb
import BonsaiTrie.Spec.Infallible

/-!
# What a transaction should see

What the crate documents of a transaction's reads and writes
(`TransactionReads`): a read with a snapshot sees the snapshot and the
transaction's own writes, an iterator the data committed last and those writes.
A session is a transaction and perhaps an open batch, while others commit to
the database below (`Event`); `View` is what its writes are, said without the
crate, and `Consistent` that all its reads see the same state.
-/

namespace Bonsai

/-- Writes, the last one for each key: a value, or a deletion. -/
abbrev Writes := DatabaseKey → Option (Option ByteVec)

/-- A content with writes over it. -/
def Columns.overlay (cols : Columns) (own : Writes) : Columns := fun key => (own key).getD (cols key)

/-- The entries of a column from a key on, by increasing key. -/
structure Lists (cols : Columns) (start : DatabaseKey) (l : List (ByteVec × ByteVec)) : Prop where
  ascending : l.Pairwise fun e e' => e.1 < e'.1
  mem : ∀ key value, (key, value) ∈ l ↔ start.asSlice ≤ key ∧ cols (start.withBytes key) = some value

/-- The documented behaviour of reads and writes in a transaction. -/
class TransactionReads (Db : Type) [OptimisticTransactionDB Db] where
  /-- The data committed last. -/
  committed : Db → Columns
  /-- The data a snapshot was taken of. -/
  saved : OptimisticTransactionDB.Snapshot Db → Columns
  /-- A transaction's own writes. -/
  own : OptimisticTransactionDB.Transaction Db → Writes
  /-- The writes of a batch. -/
  batched : OptimisticTransactionDB.WriteBatch Db → Writes
  saved_snapshot (db : Db) : saved (OptimisticTransactionDB.snapshot db) = committed db
  own_transactionOpt (db : Db) : own (OptimisticTransactionDB.transactionOpt db) = fun _ => none
  getCfOpt_eq (db : Db) (txn : OptimisticTransactionDB.Transaction Db) (snapshot : OptimisticTransactionDB.Snapshot Db)
    (key : DatabaseKey) :
    OptimisticTransactionDB.getCfOpt db txn snapshot key = .ok ((saved snapshot).overlay (own txn) key)
  iteratorCf_eq (db : Db) (txn : OptimisticTransactionDB.Transaction Db) (start : DatabaseKey) :
    ∃ l, OptimisticTransactionDB.iteratorCf db txn start = l.map .ok ∧ Lists ((committed db).overlay (own txn)) start l
  putCf_eq (txn : OptimisticTransactionDB.Transaction Db) (key : DatabaseKey) (value : ByteVec) :
    ∃ txn', OptimisticTransactionDB.putCf txn key value = (.ok (), txn') ∧
      own txn' = Function.update (own txn) key (some (some value))
  deleteCf_eq (txn : OptimisticTransactionDB.Transaction Db) (key : DatabaseKey) :
    ∃ txn', OptimisticTransactionDB.deleteCf txn key = (.ok (), txn') ∧
      own txn' = Function.update (own txn) key (some none)
  batched_getWritebatch (txn : OptimisticTransactionDB.Transaction Db) :
    batched (OptimisticTransactionDB.getWritebatch txn) = own txn
  batched_put (batch : OptimisticTransactionDB.WriteBatch Db) (key : DatabaseKey) (value : ByteVec) :
    batched (OptimisticTransactionDB.batchPutCf batch key value) = Function.update (batched batch) key (some (some value))
  batched_delete (batch : OptimisticTransactionDB.WriteBatch Db) (key : DatabaseKey) :
    batched (OptimisticTransactionDB.batchDeleteCf batch key) = Function.update (batched batch) key (some none)
  rebuild_eq (txn : OptimisticTransactionDB.Transaction Db) (batch : OptimisticTransactionDB.WriteBatch Db) :
    ∃ txn', OptimisticTransactionDB.rebuildFromWritebatch txn batch = (.ok (), txn') ∧
      own txn' = fun key => (batched batch key).or (own txn key)

section

variable (Db : Type) [OptimisticTransactionDB Db]

/-- A transaction, and the batch that is being filled. -/
structure Session where
  txn : RocksDBTransaction Db
  batch : Option (OptimisticTransactionDB.WriteBatch Db)

/-- A write of a transaction, or a commit of others to the database below, after which it is `db`. -/
inductive Event where
  | commitBelow (db : Db)
  | insert (key : DatabaseKey) (value : ByteVec) (batched : Bool)
  | remove (key : DatabaseKey) (batched : Bool)
  | removeByPrefix (pre : DatabaseKey)
  | createBatch
  | writeBatch

variable {Db}

/-- The batch a write is given. -/
def Session.batchFor (s : Session Db) (batched : Bool) : Option (OptimisticTransactionDB.WriteBatch Db) :=
  if batched then s.batch else none

/-- A session after an event. -/
def Session.step (s : Session Db) : Event Db → Session Db
  | .commitBelow db => { s with txn := { s.txn with db := db } }
  | .insert key value batched =>
    let (_, txn, batch) := BonsaiDatabase.insert s.txn key value (s.batchFor batched)
    ⟨txn, if batched then batch else s.batch⟩
  | .remove key batched =>
    let (_, txn, batch) := BonsaiDatabase.remove s.txn key (s.batchFor batched)
    ⟨txn, if batched then batch else s.batch⟩
  | .removeByPrefix pre => { s with txn := (BonsaiDatabase.removeByPrefix s.txn pre).2 }
  | .createBatch => { s with batch := some (BonsaiDatabase.createBatch s.txn) }
  | .writeBatch =>
    match s.batch with
    | some batch => ⟨(BonsaiDatabase.writeBatch s.txn batch).2, none⟩
    | none => s

variable [TransactionReads Db]

/-- What a session stands for: the data below, its own writes, and those of the open batch. -/
structure View where
  below : Columns
  own : Writes
  batch : Option Writes

/-- The view of a session. -/
def Session.view (s : Session Db) : View :=
  ⟨TransactionReads.committed s.txn.db, TransactionReads.own s.txn.txn, s.batch.map TransactionReads.batched⟩

/-- A write, in the open batch or at once. -/
def View.write (v : View) (key : DatabaseKey) (value : Option ByteVec) (batched : Bool) : View :=
  match v.batch, batched with
  | some batch, true => { v with batch := some (Function.update batch key (some value)) }
  | _, _ => { v with own := Function.update v.own key (some value) }

/-- A view after an event: a prefix that is removed is looked for in the data below. -/
def View.step (v : View) : Event Db → View
  | .commitBelow db => { v with below := TransactionReads.committed db }
  | .insert key value batched => v.write key (some value) batched
  | .remove key batched => v.write key none batched
  | .removeByPrefix pre =>
    { v with own := fun key =>
        if key.startsWith pre ∧ (v.below.overlay v.own key).isSome then some none else v.own key }
  | .createBatch => { v with batch := some v.own }
  | .writeBatch =>
    match v.batch with
    | some batch => { v with own := fun key => (batch key).or (v.own key), batch := none }
    | none => v

omit [OptimisticTransactionDB Db] [TransactionReads Db] in
variable (Db) in
/-- All reads see a state: the values, the old values that writes answer with, and the scans. -/
structure Consistent [OptimisticTransactionDB Db] (s : Session Db) (cols : Columns) : Prop where
  get : ∀ key, BonsaiDatabase.get s.txn key = .ok (cols key)
  contains : ∀ key, BonsaiDatabase.contains s.txn key = .ok (cols key).isSome
  insert : ∀ key value batch, (BonsaiDatabase.insert s.txn key value batch).1 = .ok (cols key)
  remove : ∀ key batch, (BonsaiDatabase.remove s.txn key batch).1 = .ok (cols key)
  getByPrefix : ∀ pre ord, ∃ l, BonsaiDatabase.getByPrefix s.txn pre ord = .ok l ∧
    ∀ key value, (key, value) ∈ l ↔ pre.asSlice <+: key ∧ cols (pre.withBytes key) = some value

end

end Bonsai
