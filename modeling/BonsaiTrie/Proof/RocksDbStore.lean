import BonsaiTrie.Proof.Enumerate
import BonsaiTrie.Proof.RocksDb
import BonsaiTrie.Proof.Transaction
import BonsaiTrie.Spec.RocksDbStore

/-!
# RocksDB as a backend

Over a database that behaves as documented, `RocksDB` is a backend that does
not fail, and it keeps the snapshots of the greatest ids, as many as it is
configured to. So all that is proved of such backends holds of it: the runs,
the logs, the snapshots and the transactional states.
-/

namespace Bonsai

open OptimisticTransactionDB TransactionReads DirectReads

namespace Columns

variable (cols : Columns)

theorem overlay_none : cols.overlay (fun _ => none) = cols := rfl

theorem overlay_update (own : Writes) (key : DatabaseKey) (value : Option ByteVec) :
    cols.overlay (Function.update own key (some value)) = Function.update (cols.overlay own) key value := by
  funext k
  by_cases hk : k = key
  · subst hk
    rw [overlay, Function.update_self, Function.update_self]
    rfl
  · rw [overlay, Function.update_of_ne hk, Function.update_of_ne hk]
    rfl

/-- A write to a batch goes before the writes it comes after. -/
theorem or_update (batch own : Writes) (key : DatabaseKey) (value : Option ByteVec) :
    (fun k => (Function.update batch key (some value) k).or (own k)) =
      Function.update (fun k => (batch k).or (own k)) key (some value) := by
  funext k
  by_cases hk : k = key
  · subst hk
    rw [Function.update_self, Function.update_self]
    rfl
  · rw [Function.update_of_ne hk, Function.update_of_ne hk]

end Columns

theorem DatabaseKey.withSlice_eq (key : DatabaseKey) (bytes : ByteVec) : key.withSlice bytes = key.withBytes bytes := by
  cases key <;> rfl

section

variable {Db : Type} [OptimisticTransactionDB Db] {cols : Columns} {pre : DatabaseKey} {l : List (ByteVec × ByteVec)}

theorem RocksDBTransaction.mapWhile_sublist : (@mapWhile Db _ pre (l.map .ok)).Sublist l := by
  induction l with
  | nil => exact List.Sublist.slnil
  | cons e l ih =>
    show (if pre.asSlice.isPrefixOf e.1 then e :: mapWhile pre (l.map .ok) else []).Sublist _
    by_cases hp : pre.asSlice.isPrefixOf e.1
    · rw [if_pos hp]
      exact ih.cons_cons e
    · rw [if_neg hp]
      exact List.nil_sublist _

/-- A scan stops behind the last key that has the prefix. -/
theorem Lists.mem_mapWhile (h : Lists cols pre l) (key value : ByteVec) :
    (key, value) ∈ @RocksDBTransaction.mapWhile Db _ pre (l.map .ok) ↔
      pre.asSlice <+: key ∧ cols (pre.withBytes key) = some value := by
  rw [RocksDBTransaction.mem_mapWhile pre h.ascending fun e he => ((h.mem e.1 e.2).mp he).1, h.mem]
  constructor
  · intro ⟨⟨_, hvalue⟩, hp⟩
    exact ⟨hp, hvalue⟩
  · intro ⟨hp, hvalue⟩
    exact ⟨⟨hp.le, hvalue⟩, hp⟩

end

variable {Db ID : Type} [OptimisticTransactionDB Db] [DirectAccess Db] [TransactionReads Db] [DirectReads Db]

namespace RocksDB

variable (s : RocksDB Db ID)

theorem get_eq (key : DatabaseKey) : s.get key = .ok (committed s.db key) := getCf_eq _ _

theorem insert_batched (key : DatabaseKey) (value : ByteVec) (batch : WriteBatch Db) :
    s.insert key value (some batch) = (.ok (committed s.db key), s, some (batchPutCf batch key value)) := by
  rw [insert, get_eq]

theorem remove_batched (key : DatabaseKey) (batch : WriteBatch Db) :
    s.remove key (some batch) = (.ok (committed s.db key), s, some (batchDeleteCf batch key)) := by
  rw [remove, get_eq]

/-- A write changes nothing but the database. -/
theorem insert_rest (key : DatabaseKey) (value : ByteVec) (batch : Option (WriteBatch Db)) :
    ∃ db, (s.insert key value batch).2.1 = { s with db := db } := by
  rw [insert, get_eq]
  cases batch with
  | none => exact ⟨_, rfl⟩
  | some batch => exact ⟨s.db, rfl⟩

theorem remove_rest (key : DatabaseKey) (batch : Option (WriteBatch Db)) :
    ∃ db, (s.remove key batch).2.1 = { s with db := db } := by
  rw [remove, get_eq]
  cases batch with
  | none => exact ⟨_, rfl⟩
  | some batch => exact ⟨s.db, rfl⟩

theorem writeBatch_eq (batch : WriteBatch Db) :
    ∃ db, s.writeBatch batch = (.ok (), { s with db := db }) ∧ committed db = (committed s.db).overlay (batched batch) := by
  obtain ⟨db, hdb, hcols⟩ := write_eq s.db batch
  refine ⟨db, ?_, hcols⟩
  rw [writeBatch, hdb]

theorem mem_getByPrefix (pre : DatabaseKey) (key value : ByteVec) :
    (key, value) ∈ s.getByPrefix pre ↔ pre.asSlice <+: key ∧ committed s.db (pre.withBytes key) = some value := by
  obtain ⟨l, hl, hlists⟩ := iteratorCf_eq s.db pre
  rw [getByPrefix, hl, hlists.mem_mapWhile]

theorem getByPrefix_nodup (pre : DatabaseKey) : ((s.getByPrefix pre).map Prod.fst).Nodup := by
  obtain ⟨l, hl, hlists⟩ := iteratorCf_eq s.db pre
  rw [getByPrefix, hl]
  refine List.pairwise_map.mpr (List.Pairwise.imp ?_ (hlists.ascending.sublist RocksDBTransaction.mapWhile_sublist))
  intro e e' hlt heq
  rw [heq] at hlt
  exact List.lt_irrefl _ hlt

/-- The keys with the prefix that have a value are deleted. -/
theorem removeByPrefix_eq (pre : DatabaseKey) :
    ∃ db, s.removeByPrefix pre = (.ok (), { s with db := db }) ∧ committed db = (committed s.db).clear pre := by
  obtain ⟨db, hdb, hcols⟩ := s.writeBatch_eq
    ((s.getByPrefix pre).foldl (fun batch kv => batchDeleteCf batch (pre.withBytes kv.1)) DirectAccess.batchDefault)
  refine ⟨db, hdb, hcols.trans (funext fun key => ?_)⟩
  rw [Columns.overlay, RocksDBTransaction.batched_foldl_delete, batched_default, Columns.clear]
  by_cases hkey : key.startsWith pre
  · rw [if_pos hkey]
    by_cases hlisted : ∃ kv ∈ s.getByPrefix pre, pre.withBytes kv.1 = key
    · rw [if_pos hlisted]
      rfl
    · rw [if_neg hlisted]
      -- a key that is not listed has no value
      obtain ⟨hwith, hp⟩ := (key.startsWith_iff pre).mp hkey
      show committed s.db key = none
      refine Option.eq_none_iff_forall_ne_some.mpr fun value hvalue => hlisted ⟨(key.asSlice, value), ?_, hwith⟩
      rw [mem_getByPrefix, hwith]
      exact ⟨hp, hvalue⟩
  · rw [if_neg hkey, if_neg]
    · rfl
    · intro hlisted
      obtain ⟨kv, hmem, hwith⟩ := hlisted
      have hp := ((s.mem_getByPrefix pre kv.1 kv.2).mp hmem).1
      refine hkey ((key.startsWith_iff pre).mpr ?_)
      subst hwith
      cases pre <;> exact ⟨rfl, hp⟩

end RocksDB

/-! ## The backend -/

instance : InfallibleDatabase (RocksDB Db ID) where
  columns s := committed s.db
  pending s batch := (committed s.db).overlay (batched batch)
  get_eq s key := s.get_eq key
  contains_eq s key := congrArg (Except.map Option.isSome) (s.get_eq key)
  pending_createBatch s := congrArg _ batched_default
  insert_eq s key value batch := by
    refine ⟨_, _, _, s.insert_batched key value batch, ?_⟩
    rw [batched_put, Columns.overlay_update]
  remove_eq s key batch := by
    refine ⟨_, _, _, s.remove_batched key batch, ?_⟩
    rw [batched_delete, Columns.overlay_update]
  removeByPrefix_eq s pre := by
    obtain ⟨db, hdb, hcols⟩ := s.removeByPrefix_eq pre
    exact ⟨_, hdb, hcols⟩
  writeBatch_eq s batch := by
    obtain ⟨db, hdb, hcols⟩ := s.writeBatch_eq batch
    exact ⟨_, hdb, hcols⟩

theorem RocksDB.columns_eq (s : RocksDB Db ID) : InfallibleDatabase.columns s = committed s.db := rfl

instance : AnswersOld (RocksDB Db ID) where
  insert_old {db} {db'} {key} {value} {old} {batch} {batch'} h := by
    obtain ⟨hold, hrest⟩ := Prod.mk.inj ((db.insert_batched key value batch).symm.trans h)
    obtain ⟨rfl, -⟩ := Prod.mk.inj hrest
    exact ⟨(Except.ok.inj hold).symm, fun _ _ => rfl⟩
  remove_old {db} {db'} {key} {old} {batch} {batch'} h := by
    obtain ⟨hold, hrest⟩ := Prod.mk.inj ((db.remove_batched key batch).symm.trans h)
    obtain ⟨rfl, -⟩ := Prod.mk.inj hrest
    exact ⟨(Except.ok.inj hold).symm, fun _ _ => rfl⟩

instance : Scans (RocksDB Db ID) where
  getByPrefix_eq s pre ord := by
    refine ⟨_, rfl, s.getByPrefix_nodup pre, fun k v => ?_⟩
    rw [s.mem_getByPrefix, DatabaseKey.withSlice_eq]
    rfl
  insert_columns {db} {db'} {key} {value} {old} {batch} {batch'} h := by
    obtain ⟨-, hrest⟩ := Prod.mk.inj ((db.insert_batched key value batch).symm.trans h)
    obtain ⟨rfl, -⟩ := Prod.mk.inj hrest
    exact .inl rfl
  remove_columns {db} {db'} {key} {old} {batch} {batch'} h := by
    obtain ⟨-, hrest⟩ := Prod.mk.inj ((db.remove_batched key batch).symm.trans h)
    obtain ⟨rfl, -⟩ := Prod.mk.inj hrest
    exact .inl rfl

/-! ## Snapshots and transactions -/

omit [DirectAccess Db] [TransactionReads Db] [DirectReads Db] in
theorem RocksDB.db_snapshot [LT ID] [DecidableLT ID] (s : RocksDB Db ID) (id : ID) : (s.snapshot id).db = s.db := by
  rw [snapshot]
  cases s.maxSavedSnapshots <;> rfl

instance [LT ID] [DecidableLT ID] : InfallibleSnapshots (RocksDB Db ID) ID (RocksDBTransaction Db) where
  columns_snapshot s id := congrArg committed (s.db_snapshot id)

/-- A transaction's content is what it reads: its writes over the snapshot. -/
instance : BatchWrites (RocksDBTransaction Db) where
  columns t := (saved t.readOptions).overlay (own t.txn)
  pending t batch := (saved t.readOptions).overlay fun key => (batched batch key).or (own t.txn key)
  pending_createBatch t := by
    refine congrArg _ (funext fun key => ?_)
    show (batched (getWritebatch t.txn) key).or _ = _
    rw [batched_getWritebatch, Option.or_self]
  insert_eq t key value batch := by
    refine ⟨_, t, batchPutCf batch key value, Prod.ext ((t.insert_old key value (some batch)).trans (t.get_eq key))
      (t.insert_batched key value batch), ?_⟩
    rw [batched_put, Columns.or_update, Columns.overlay_update]
  remove_eq t key batch := by
    refine ⟨_, t, batchDeleteCf batch key, Prod.ext ((t.remove_old key (some batch)).trans (t.get_eq key))
      (t.remove_batched key batch), ?_⟩
    rw [batched_delete, Columns.or_update, Columns.overlay_update]
  writeBatch_eq t batch := by
    obtain ⟨txn, htxn, hown⟩ := t.writeBatch_eq batch
    refine ⟨_, htxn, ?_⟩
    show (saved t.readOptions).overlay (own txn) = _
    rw [hown]

omit [DirectAccess Db] [DirectReads Db] in
theorem RocksDB.mapValues_snapshot [LT ID] [DecidableLT ID] (s : RocksDB Db ID) (id : ID) :
    BTreeMap.mapValues saved (s.snapshot id).snapshots =
      BTreeMap.latest s.maxSavedSnapshots (BTreeMap.insert id (committed s.db) (BTreeMap.mapValues saved s.snapshots)) := by
  rw [← saved_snapshot, ← BTreeMap.mapValues_insert, snapshot]
  cases s.maxSavedSnapshots with
  | none => rfl
  | some n =>
    show BTreeMap.mapValues saved (popWhile n (BTreeMap.insert id (OptimisticTransactionDB.snapshot s.db) s.snapshots)) = _
    rw [popWhile, BTreeMap.latest, List.rtake, BTreeMap.mapValues, BTreeMap.mapValues, List.length_map, List.map_drop]

omit [DirectAccess Db] [DirectReads Db] in
theorem RocksDB.columns_transaction [LT ID] [DecidableLT ID] (s : RocksDB Db ID) (id : ID) :
    (s.transaction id).map (fun e => (e.1, BatchWrites.columns e.2)) =
      BTreeMap.rangeToNext (BTreeMap.mapValues saved s.snapshots) id := by
  rw [BTreeMap.mapValues_rangeToNext, transaction, Option.map_map]
  refine Option.map_congr fun e _ => Prod.ext rfl ?_
  show (saved e.2).overlay (own (transactionOpt s.db)) = saved e.2
  rw [own_transactionOpt, Columns.overlay_none]

/-- It keeps the snapshots of the greatest ids, as many as it is configured to. -/
instance : KeepsSnapshots (RocksDB Db BasicId) (RocksDBTransaction Db) where
  snapshots s := BTreeMap.mapValues saved s.snapshots
  limit s := s.maxSavedSnapshots
  unwritten := by
    constructor
    · intro s key value batch
      obtain ⟨db, hdb⟩ := s.insert_rest key value batch
      show (_, (s.insert key value batch).2.1.maxSavedSnapshots) = _
      rw [show BonsaiDatabase.insert s key value batch = s.insert key value batch from rfl, hdb]
    · intro s key batch
      obtain ⟨db, hdb⟩ := s.remove_rest key batch
      show (_, (s.remove key batch).2.1.maxSavedSnapshots) = _
      rw [show BonsaiDatabase.remove s key batch = s.remove key batch from rfl, hdb]
    · intro s pre
      rfl
    · intro s batch
      rfl
  snapshots_snapshot s id := s.mapValues_snapshot id
  limit_snapshot s id := by
    show (s.snapshot id).maxSavedSnapshots = s.maxSavedSnapshots
    rw [RocksDB.snapshot]
    cases s.maxSavedSnapshots <;> rfl
  transaction_eq s id := s.columns_transaction id

/-! ## A database in memory -/

namespace MemoryDb

instance : DirectAccess MemoryDb where
  batchDefault := (∅ : HashMap DatabaseKey (Option ByteVec))
  getCf db key := .ok (db.map.lookup key)
  iteratorCf db start := (entriesFrom db.map ∅ start).map .ok
  putCf db key value := (.ok (), ⟨db.map.insert key value⟩)
  deleteCf db key := (.ok (), ⟨db.map.erase key⟩)
  write db batch := (.ok (), ⟨batch.entries.foldl (fun map e => Assoc.write map e.1 e.2) db.map⟩)

instance : DirectReads MemoryDb where
  batched_default := rfl
  getCf_eq _ _ := rfl
  iteratorCf_eq db start := ⟨_, rfl, lists_entriesFrom db.map ∅ start⟩
  write_eq db batch := ⟨_, rfl, funext fun key => Assoc.lookup_foldl_write batch.nodupKeys db.map key⟩

end MemoryDb

end Bonsai
