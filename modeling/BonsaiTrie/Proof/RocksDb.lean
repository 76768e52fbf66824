import BonsaiTrie.Spec.RocksDb

/-!
# Consistent transactions

A view goes along with its session: each event changes what the session stands
for as it changes the view (`Session.view_step`), and no event changes the
snapshot of the read options. Point reads see that snapshot, scans the data
below, so the reads of a transaction are consistent exactly while the two
agree on the keys it has not written (`RocksDB.consistent_iff`).
-/

namespace Bonsai

open OptimisticTransactionDB TransactionReads

/-! ## Scans of a column -/

/-- A key between a prefix and a key that has it has it too. -/
theorem isPrefix_of_between {pre k k' : ByteVec} (hle : pre ≤ k) (hlt : k < k') (h : pre <+: k') : pre <+: k := by
  induction pre generalizing k k' with
  | nil => exact List.nil_prefix
  | cons a pre ih =>
    obtain ⟨t, rfl⟩ := h
    cases k with
    | nil => exact absurd (List.nil_lt_cons a pre) (List.not_lt.mpr hle)
    | cons b k =>
      rw [List.cons_append, List.cons_lt_cons_iff] at hlt
      have hge := List.not_lt.mpr hle
      rw [List.cons_lt_cons_iff] at hge
      have hab : ¬ b < a := fun hlt' => hge (.inl hlt')
      obtain hlt | ⟨rfl, hlt⟩ := hlt
      · exact absurd hlt hab
      · have hle' : pre ≤ k := List.not_lt.mp fun hk => hge (.inr ⟨rfl, hk⟩)
        exact List.cons_prefix_cons.mpr ⟨rfl, ih hle' hlt (List.prefix_append pre t)⟩

theorem DatabaseKey.startsWith_iff (key pre : DatabaseKey) :
    key.startsWith pre ↔ pre.withBytes key.asSlice = key ∧ pre.asSlice <+: key.asSlice := by
  cases pre <;> cases key <;>
    simp [DatabaseKey.startsWith, DatabaseKey.withBytes, DatabaseKey.asSlice, List.isPrefixOf_iff_prefix]

/-- An ascending list that starts at the prefix lists the keys that have it first. -/
theorem RocksDBTransaction.mem_mapWhile {Db : Type} [OptimisticTransactionDB Db] (pre : DatabaseKey)
    {l : List (ByteVec × ByteVec)} (hasc : l.Pairwise fun e e' => e.1 < e'.1) (hpre : ∀ e ∈ l, pre.asSlice ≤ e.1)
    (e : ByteVec × ByteVec) : e ∈ @mapWhile Db _ pre (l.map .ok) ↔ e ∈ l ∧ pre.asSlice <+: e.1 := by
  induction l with
  | nil => simp [mapWhile]
  | cons e₀ l ih =>
    rw [List.pairwise_cons] at hasc
    have ih := ih hasc.2 fun e he => hpre e (List.mem_cons_of_mem _ he)
    show e ∈ (if pre.asSlice.isPrefixOf e₀.1 then e₀ :: mapWhile pre (l.map .ok) else []) ↔ _
    by_cases hp : pre.asSlice <+: e₀.1
    · rw [if_pos (List.isPrefixOf_iff_prefix.mpr hp), List.mem_cons, ih, List.mem_cons]
      constructor
      · rintro (rfl | h)
        · exact ⟨.inl rfl, hp⟩
        · exact ⟨.inr h.1, h.2⟩
      · rintro ⟨rfl | h, hk⟩
        · exact .inl rfl
        · exact .inr ⟨h, hk⟩
    · rw [if_neg fun h => hp (List.isPrefixOf_iff_prefix.mp h)]
      -- a later key with the prefix would lie beyond this one, which starts at it
      have hnone : ¬ (e ∈ e₀ :: l ∧ pre.asSlice <+: e.1) := by
        rintro ⟨he, hk⟩
        obtain rfl | he := List.mem_cons.mp he
        · exact hp hk
        · exact hp (isPrefix_of_between (hpre _ List.mem_cons_self) (hasc.1 e he) hk)
      exact ⟨fun h => absurd h List.not_mem_nil, fun h => absurd h hnone⟩

variable {Db : Type} [OptimisticTransactionDB Db] [TransactionReads Db]

namespace RocksDBTransaction

variable (s : RocksDBTransaction Db)

/-- A point read sees the snapshot. -/
theorem get_eq (key : DatabaseKey) : s.get key = .ok ((saved s.readOptions).overlay (own s.txn) key) :=
  getCfOpt_eq _ _ _ _

/-- A scan sees the data below. -/
theorem mem_getByPrefix (pre : DatabaseKey) (key value : ByteVec) :
    (key, value) ∈ s.getByPrefix pre ↔
      pre.asSlice <+: key ∧ (committed s.db).overlay (own s.txn) (pre.withBytes key) = some value := by
  obtain ⟨l, hl, hlists⟩ := iteratorCf_eq s.db s.txn pre
  have hpre : ∀ e ∈ l, pre.asSlice ≤ e.1 := fun e he => ((hlists.mem e.1 e.2).mp he).1
  rw [getByPrefix, hl, mem_mapWhile pre hlists.ascending hpre, hlists.mem]
  constructor
  · rintro ⟨⟨-, h⟩, hp⟩
    exact ⟨hp, h⟩
  · rintro ⟨hp, h⟩
    exact ⟨⟨hp.le, h⟩, hp⟩

/-- A batch after the deletions of a scan. -/
theorem batched_foldl_delete (pre : DatabaseKey) (l : List (ByteVec × ByteVec))
    (batch : OptimisticTransactionDB.WriteBatch Db) (key : DatabaseKey) :
    batched (l.foldl (fun batch kv => batchDeleteCf batch (pre.withBytes kv.1)) batch) key =
      if ∃ kv ∈ l, pre.withBytes kv.1 = key then some none else batched batch key := by
  induction l generalizing batch with
  | nil => simp
  | cons kv l ih =>
    rw [List.foldl_cons, ih, batched_delete]
    by_cases hkey : pre.withBytes kv.1 = key
    · subst hkey
      simp
    · have hne : key ≠ pre.withBytes kv.1 := fun h => hkey h.symm
      simp only [Function.update_of_ne hne, List.mem_cons, exists_eq_or_imp, hkey, false_or]

/-- The keys of a scan are those with the prefix that have a value. -/
theorem exists_getByPrefix (pre key : DatabaseKey) :
    (∃ kv ∈ s.getByPrefix pre, pre.withBytes kv.1 = key) ↔
      key.startsWith pre ∧ ((committed s.db).overlay (own s.txn) key).isSome := by
  rw [DatabaseKey.startsWith_iff]
  constructor
  · rintro ⟨⟨k, value⟩, hmem, rfl⟩
    rw [mem_getByPrefix] at hmem
    refine ⟨?_, by rw [hmem.2]; rfl⟩
    cases pre <;> exact ⟨rfl, hmem.1⟩
  · rintro ⟨⟨hkey, hp⟩, hsome⟩
    obtain ⟨value, hvalue⟩ := Option.isSome_iff_exists.mp hsome
    exact ⟨(key.asSlice, value), (s.mem_getByPrefix _ _ _).mpr ⟨hp, hkey.symm ▸ hvalue⟩, hkey⟩

/-! ## Writes -/

/-- A write answers with what a read does. -/
theorem insert_old (key : DatabaseKey) (value : ByteVec) (batch : Option (OptimisticTransactionDB.WriteBatch Db)) :
    (s.insert key value batch).1 = s.get key := by
  rw [insert, get_eq]
  cases batch with
  | none =>
    obtain ⟨txn, htxn, -⟩ := putCf_eq s.txn key value
    simp only [htxn]
    rfl
  | some batch => rfl

theorem remove_old (key : DatabaseKey) (batch : Option (OptimisticTransactionDB.WriteBatch Db)) :
    (s.remove key batch).1 = s.get key := by
  rw [remove, get_eq]
  cases batch with
  | none =>
    obtain ⟨txn, htxn, -⟩ := deleteCf_eq s.txn key
    simp only [htxn]
    rfl
  | some batch => rfl

theorem insert_batched (key : DatabaseKey) (value : ByteVec) (batch : OptimisticTransactionDB.WriteBatch Db) :
    (s.insert key value (some batch)).2 = (s, some (batchPutCf batch key value)) := by
  rw [insert, get_eq]

theorem remove_batched (key : DatabaseKey) (batch : OptimisticTransactionDB.WriteBatch Db) :
    (s.remove key (some batch)).2 = (s, some (batchDeleteCf batch key)) := by
  rw [remove, get_eq]

theorem insert_direct (key : DatabaseKey) (value : ByteVec) :
    ∃ txn, (s.insert key value none).2 = ({ s with txn := txn }, none) ∧
      own txn = Function.update (own s.txn) key (some (some value)) := by
  obtain ⟨txn, htxn, hown⟩ := putCf_eq s.txn key value
  refine ⟨txn, ?_, hown⟩
  rw [insert, get_eq]
  simp only [htxn]
  rfl

theorem remove_direct (key : DatabaseKey) :
    ∃ txn, (s.remove key none).2 = ({ s with txn := txn }, none) ∧
      own txn = Function.update (own s.txn) key (some none) := by
  obtain ⟨txn, htxn, hown⟩ := deleteCf_eq s.txn key
  refine ⟨txn, ?_, hown⟩
  rw [remove, get_eq]
  simp only [htxn]
  rfl

theorem writeBatch_eq (batch : OptimisticTransactionDB.WriteBatch Db) :
    ∃ txn, s.writeBatch batch = (.ok (), { s with txn := txn }) ∧
      own txn = fun key => (batched batch key).or (own s.txn key) := by
  obtain ⟨txn, htxn, hown⟩ := rebuild_eq s.txn batch
  refine ⟨txn, ?_, hown⟩
  rw [writeBatch, htxn]

/-- The keys of a scan are deleted. -/
theorem removeByPrefix_eq (pre : DatabaseKey) :
    ∃ txn, s.removeByPrefix pre = (.ok (), { s with txn := txn }) ∧ own txn = fun key =>
      if key.startsWith pre ∧ ((committed s.db).overlay (own s.txn) key).isSome then some none else own s.txn key := by
  obtain ⟨txn, htxn, hown⟩ := s.writeBatch_eq
    ((s.getByPrefix pre).foldl (fun batch kv => batchDeleteCf batch (pre.withBytes kv.1)) (getWritebatch s.txn))
  refine ⟨txn, htxn, ?_⟩
  funext key
  rw [hown]
  simp only [batched_foldl_delete, batched_getWritebatch, exists_getByPrefix]
  split
  · rfl
  · exact Option.or_self

end RocksDBTransaction

/-! ## Sessions -/

namespace Session

variable (s : Session Db)

/-- A write goes to the batch it is given, or else to the transaction. -/
theorem view_write (key : DatabaseKey) (value : Option ByteVec) (b : Bool)
    (r : RocksDBTransaction Db × Option (OptimisticTransactionDB.WriteBatch Db))
    (hdirect : s.batchFor b = none → ∃ txn, r = ({ s.txn with txn := txn }, none) ∧
      own txn = Function.update (own s.txn.txn) key (some value))
    (hbatched : ∀ batch, s.batchFor b = some batch → ∃ batch', r = (s.txn, some batch') ∧
      batched batch' = Function.update (batched batch) key (some value)) :
    Session.view ⟨r.1, if b then r.2 else s.batch⟩ = s.view.write key value b ∧
      r.1.readOptions = s.txn.readOptions := by
  obtain ⟨t, batch⟩ := s
  cases b with
  | false =>
    obtain ⟨txn, rfl, hown⟩ := hdirect rfl
    refine ⟨?_, rfl⟩
    cases batch <;> exact congrArg (fun own => View.mk _ own _) hown
  | true =>
    cases batch with
    | none =>
      obtain ⟨txn, rfl, hown⟩ := hdirect rfl
      exact ⟨congrArg (fun own => View.mk _ own _) hown, rfl⟩
    | some batch =>
      obtain ⟨batch', rfl, hown⟩ := hbatched batch rfl
      exact ⟨congrArg (fun own => View.mk _ _ (some own)) hown, rfl⟩

/-- A view goes along with its session, and the snapshot that is read stays. -/
theorem view_step (e : Event Db) :
    (s.step e).view = s.view.step e ∧ (s.step e).txn.readOptions = s.txn.readOptions := by
  cases e with
  | commitBelow db => exact ⟨rfl, rfl⟩
  | insert key value b =>
    refine s.view_write key (some value) b (s.txn.insert key value (s.batchFor b)).2 ?_ ?_
    · intro h
      rw [h]
      exact s.txn.insert_direct key value
    · intro batch h
      rw [h]
      exact ⟨_, s.txn.insert_batched key value batch, batched_put batch key value⟩
  | remove key b =>
    refine s.view_write key none b (s.txn.remove key (s.batchFor b)).2 ?_ ?_
    · intro h
      rw [h]
      exact s.txn.remove_direct key
    · intro batch h
      rw [h]
      exact ⟨_, s.txn.remove_batched key batch, batched_delete batch key⟩
  | removeByPrefix pre =>
    obtain ⟨txn, htxn, hown⟩ := s.txn.removeByPrefix_eq pre
    show Session.view ⟨(s.txn.removeByPrefix pre).2, s.batch⟩ = _ ∧ (s.txn.removeByPrefix pre).2.readOptions = _
    rw [htxn]
    exact ⟨by rw [view, hown]; rfl, rfl⟩
  | createBatch =>
    exact ⟨congrArg (fun own => View.mk _ _ (some own)) (batched_getWritebatch s.txn.txn), rfl⟩
  | writeBatch =>
    obtain ⟨t, batch⟩ := s
    cases batch with
    | none => exact ⟨rfl, rfl⟩
    | some batch =>
      obtain ⟨txn, htxn, hown⟩ := t.writeBatch_eq batch
      show Session.view ⟨(t.writeBatch batch).2, none⟩ = _ ∧ (t.writeBatch batch).2.readOptions = _
      rw [htxn]
      exact ⟨by rw [view, hown]; rfl, rfl⟩

theorem view_run (events : List (Event Db)) :
    (events.foldl step s).view = events.foldl View.step s.view ∧
      (events.foldl step s).txn.readOptions = s.txn.readOptions := by
  induction events generalizing s with
  | nil => exact ⟨rfl, rfl⟩
  | cons e events ih =>
    obtain ⟨hview, hread⟩ := s.view_step e
    rw [List.foldl_cons, List.foldl_cons, ← hview, ← hread]
    exact ih (s.step e)

/-- The reads see the snapshot and the own writes, the scans the data below in its place. -/
theorem consistent_iff :
    Consistent Db s ((saved s.txn.readOptions).overlay s.view.own) ↔
      ∀ key, s.view.own key = none → s.view.below key = saved s.txn.readOptions key := by
  have hoverlay : ∀ (cols : Columns) key, s.view.own key = none → cols.overlay s.view.own key = cols key := by
    intro cols key h
    rw [Columns.overlay, h]
    rfl
  constructor
  · intro hc key hkey
    -- the scan for the key itself lists what is below, and should list what the snapshot has
    have hscan : ∀ value, s.view.below key = some value ↔ saved s.txn.readOptions key = some value := by
      intro value
      obtain ⟨l, hl, hmem⟩ := hc.getByPrefix key (fun n => Equiv.refl (Fin n))
      cases hl
      have hwith : key.withBytes key.asSlice = key := by cases key <;> rfl
      have h := (s.txn.mem_getByPrefix key key.asSlice value).symm.trans (hmem key.asSlice value)
      rw [hwith] at h
      rw [← hoverlay s.view.below key hkey, ← hoverlay (saved s.txn.readOptions) key hkey]
      exact ⟨fun hv => (h.mp ⟨List.prefix_rfl, hv⟩).2, fun hv => (h.mpr ⟨List.prefix_rfl, hv⟩).2⟩
    exact Option.ext hscan
  · intro hagree
    have hsame : (committed s.txn.db).overlay (own s.txn.txn) = (saved s.txn.readOptions).overlay s.view.own := by
      funext key
      show (s.view.own key).getD (s.view.below key) = _
      cases hkey : s.view.own key with
      | none => exact (hagree key hkey).trans (hoverlay _ key hkey).symm
      | some value => rw [Columns.overlay, hkey]; rfl
    constructor
    · exact s.txn.get_eq
    · intro key
      show (s.txn.get key).map Option.isSome = _
      rw [s.txn.get_eq]
      rfl
    · intro key value batch
      exact (s.txn.insert_old key value batch).trans (s.txn.get_eq key)
    · intro key batch
      exact (s.txn.remove_old key batch).trans (s.txn.get_eq key)
    · intro pre ord
      refine ⟨_, rfl, fun key value => ?_⟩
      rw [← hsame]
      exact s.txn.mem_getByPrefix pre key value

end Session

/-- A database kept as one map. -/
structure MemoryDb where
  map : HashMap DatabaseKey ByteVec

namespace MemoryDb

/-- What a transaction finds under a key. -/
def find (map : HashMap DatabaseKey ByteVec) (txn : HashMap DatabaseKey (Option ByteVec)) (key : DatabaseKey) :
    Option ByteVec := (txn.lookup key).getD (map.lookup key)

/-- The keys of a column from one on, in order. -/
def keysFrom (map : HashMap DatabaseKey ByteVec) (txn : HashMap DatabaseKey (Option ByteVec)) (start : DatabaseKey) :
    List ByteVec :=
  ((((map.keys ++ txn.keys).filter fun k => start.withBytes k.asSlice = k ∧ start.asSlice ≤ k.asSlice).map
    DatabaseKey.asSlice).dedup).insertionSort (· ≤ ·)

/-- The entries of a column from a key on, in order. -/
def entriesFrom (map : HashMap DatabaseKey ByteVec) (txn : HashMap DatabaseKey (Option ByteVec)) (start : DatabaseKey) :
    List (ByteVec × ByteVec) :=
  (keysFrom map txn start).filterMap fun k => (find map txn (start.withBytes k)).map (k, ·)

instance : OptimisticTransactionDB MemoryDb where
  Snapshot := MemoryDb
  Transaction := HashMap DatabaseKey (Option ByteVec)
  WriteBatch := HashMap DatabaseKey (Option ByteVec)
  Error := Empty
  snapshot db := db
  transactionOpt _ := ∅
  getCfOpt _ txn snapshot key := .ok (find snapshot.map txn key)
  iteratorCf db txn start := (entriesFrom db.map txn start).map .ok
  putCf txn key value := (.ok (), txn.insert key (some value))
  deleteCf txn key := (.ok (), txn.insert key none)
  getWritebatch txn := txn
  rebuildFromWritebatch txn batch := (.ok (), batch ∪ txn)
  batchPutCf batch key value := batch.insert key (some value)
  batchDeleteCf batch key := batch.insert key none

variable (map : HashMap DatabaseKey ByteVec) (txn : HashMap DatabaseKey (Option ByteVec)) (start : DatabaseKey)

theorem mem_keysFrom (key : ByteVec) :
    key ∈ keysFrom map txn start ↔
      start.asSlice ≤ key ∧ (start.withBytes key ∈ map.keys ∨ start.withBytes key ∈ txn.keys) := by
  have hslice : (start.withBytes key).asSlice = key := by cases start <;> rfl
  rw [keysFrom, List.mem_insertionSort, List.mem_dedup, List.mem_map]
  simp only [List.mem_filter, List.mem_append, decide_eq_true_eq]
  constructor
  · rintro ⟨k, ⟨hmem, hcol, hle⟩, rfl⟩
    rw [hcol]
    exact ⟨hle, hmem⟩
  · intro ⟨hle, hmem⟩
    exact ⟨start.withBytes key, ⟨hmem, by rw [hslice], by rwa [hslice]⟩, hslice⟩

theorem keysFrom_ascending : (keysFrom map txn start).Pairwise (· < ·) := by
  have hle := List.pairwise_insertionSort (fun k k' : ByteVec => k ≤ k')
    (((map.keys ++ txn.keys).filter fun k => start.withBytes k.asSlice = k ∧ start.asSlice ≤ k.asSlice).map
      DatabaseKey.asSlice).dedup
  have hne : (keysFrom map txn start).Nodup :=
    (List.perm_insertionSort _ _).nodup_iff.mpr (List.nodup_dedup _)
  exact (hle.and hne).imp fun h => (List.le_iff_lt_or_eq.mp h.1).resolve_right h.2

theorem lists_entriesFrom : Lists (Columns.overlay map.lookup txn.lookup) start (entriesFrom map txn start) := by
  constructor
  · refine List.pairwise_filterMap.mpr ((keysFrom_ascending map txn start).imp ?_)
    intro k k' hlt e he e' he'
    obtain ⟨value, -, rfl⟩ := Option.map_eq_some_iff.mp he
    obtain ⟨value', -, rfl⟩ := Option.map_eq_some_iff.mp he'
    exact hlt
  · intro key value
    rw [entriesFrom, List.mem_filterMap]
    constructor
    · rintro ⟨k, hk, he⟩
      obtain ⟨value', hfind, he⟩ := Option.map_eq_some_iff.mp he
      cases he
      exact ⟨((mem_keysFrom _ _ _ _).mp hk).1, hfind⟩
    · rintro ⟨hle, hfind⟩
      refine ⟨key, (mem_keysFrom _ _ _ _).mpr ⟨hle, ?_⟩, Option.map_eq_some_iff.mpr ⟨value, hfind, rfl⟩⟩
      by_cases htxn : start.withBytes key ∈ txn.keys
      · exact .inr htxn
      · rw [Columns.overlay, AList.lookup_eq_none.mpr htxn] at hfind
        exact .inl (AList.lookup_isSome.mp (Option.isSome_iff_exists.mpr ⟨value, hfind⟩))

theorem lookup_insert {V : Type} (m : HashMap DatabaseKey V) (key : DatabaseKey) (value : V) :
    (m.insert key value).lookup = Function.update m.lookup key (some value) := by
  funext k
  by_cases hk : k = key
  · subst hk
    rw [AList.lookup_insert, Function.update_self]
  · rw [AList.lookup_insert_ne hk, Function.update_of_ne hk]

theorem lookup_union {V : Type} (m m' : HashMap DatabaseKey V) (key : DatabaseKey) :
    (m ∪ m').lookup key = (m.lookup key).or (m'.lookup key) := by
  by_cases hk : key ∈ m
  · obtain ⟨value, hvalue⟩ := Option.isSome_iff_exists.mp (AList.lookup_isSome.mpr hk)
    rw [AList.lookup_union_left hk, hvalue]
    rfl
  · rw [AList.lookup_union_right hk, AList.lookup_eq_none.mpr hk]
    rfl

instance : TransactionReads MemoryDb where
  committed db := db.map.lookup
  saved snapshot := snapshot.map.lookup
  own txn := txn.lookup
  batched batch := batch.lookup
  saved_snapshot _ := rfl
  own_transactionOpt _ := rfl
  getCfOpt_eq _ _ _ _ := rfl
  iteratorCf_eq db txn start := ⟨_, rfl, lists_entriesFrom db.map txn start⟩
  putCf_eq txn key value := ⟨_, rfl, lookup_insert txn key (some value)⟩
  deleteCf_eq txn key := ⟨_, rfl, lookup_insert txn key none⟩
  batched_getWritebatch _ := rfl
  batched_put batch key value := lookup_insert batch key (some value)
  batched_delete batch key := lookup_insert batch key none
  rebuild_eq txn batch := ⟨_, rfl, funext fun key => lookup_union batch txn key⟩

/-- An empty database, of which a snapshot is taken. -/
def rocks : RocksDB MemoryDb BasicId := RocksDB.snapshot ⟨⟨∅⟩, none, []⟩ 1

/-- The transaction on that snapshot. -/
def opened : RocksDBTransaction MemoryDb := ⟨⟨∅⟩, (∅ : HashMap DatabaseKey (Option ByteVec)), ⟨∅⟩⟩

end MemoryDb

end Bonsai
