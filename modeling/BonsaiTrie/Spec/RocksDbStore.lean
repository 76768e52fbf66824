import BonsaiTrie.Impl.RocksDbStore
import BonsaiTrie.Spec.RocksDb

/-!
# What a database should do

What the crate documents of the calls on the database itself, while no one else
writes to it (`DirectReads`): reads and iterators see the data committed last,
and a batch is written as a whole. Direct writes are left out: the storage
makes none.
-/

namespace Bonsai

open OptimisticTransactionDB (WriteBatch batchPutCf)

/-- The documented behaviour of reads and batches outside transactions. -/
class DirectReads (Db : Type) [OptimisticTransactionDB Db] [DirectAccess Db] [TransactionReads Db] : Prop where
  batched_default : TransactionReads.batched (DirectAccess.batchDefault : WriteBatch Db) = fun _ => none
  getCf_eq (db : Db) (key : DatabaseKey) : DirectAccess.getCf db key = .ok (TransactionReads.committed db key)
  iteratorCf_eq (db : Db) (start : DatabaseKey) :
    ∃ l, DirectAccess.iteratorCf db start = l.map .ok ∧ Lists (TransactionReads.committed db) start l
  write_eq (db : Db) (batch : WriteBatch Db) :
    ∃ db', DirectAccess.write db batch = (.ok (), db') ∧
      TransactionReads.committed db' = (TransactionReads.committed db).overlay (TransactionReads.batched batch)

end Bonsai
