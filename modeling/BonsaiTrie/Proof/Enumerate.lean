import BonsaiTrie.Proof.Frame
import BonsaiTrie.Proof.Requests
import BonsaiTrie.Spec.Enumeration

/-!
# What an enumeration lists

Along a run whose inserts are clear of `X`, every flat key in the database is
clear of `X` and holds the bytes of a field element (`ClearStorage`): writes
only cache such leaves, and commits only write those that are cached, also
when a call fails halfway. Then the entries that start with the bytes of `X`
are the leaves of `X`, and `X` enumerates what is read at its keys
(`enumerates_run`).
-/

namespace Bonsai

open Run

section

variable [FeltCodec] {X Y : ByteVec} {n : Nat}

/-! ## Trees -/

/-- The leaves to be inserted in a tree are clear of `X`. -/
def ClearTree (X : ByteVec) (n : Nat) (Y : ByteVec) (tree : MerkleTree) : Prop :=
  tree.identifier = Y ∧ tree.maxHeight.toNat = n ∧
    ∀ bytes v, tree.cacheLeafModified.lookup bytes = some (.insert v) → ClearOf X n (Y ++ bytes)

/-- Every leaf that is written is clear of `X`, and is written as a field element. -/
def Updates.ClearOf (X : ByteVec) (n : Nat) (u : Updates) : Prop :=
  ∀ bytes value, u.lookup (.flat bytes) = some (.insert value) →
    Bonsai.ClearOf X n bytes ∧ ∃ v, value = FeltCodec.encode v

omit [FeltCodec] in
theorem framed_clearTree : Framed (ClearTree X n Y) := fun _ _ _ _ h => h

omit [FeltCodec] in
theorem ClearTree.new {m : UInt8} (hm : m.toNat = n) : ClearTree X n Y (.new Y m) :=
  ⟨rfl, hm, fun bytes v h => by cases h⟩

variable {E : Type}

omit [FeltCodec] in
theorem cacheLeaf_remove (bytes : ByteVec) :
    Preserves (ClearTree X n Y) (MerkleTree.cacheLeaf bytes .remove : MerkleTree.M E Unit) := by
  refine .modify fun tree h => ⟨h.1, h.2.1, fun b v hb => ?_⟩
  by_cases hbytes : b = bytes
  · subst hbytes
    rw [AList.lookup_insert] at hb
    cases hb
  · rw [AList.lookup_insert_ne hbytes] at hb
    exact h.2.2 b v hb

omit [FeltCodec] in
theorem cacheLeaf_insert {bytes : ByteVec} (hclear : ClearOf X n (Y ++ bytes)) (value : Felt) :
    Preserves (ClearTree X n Y) (MerkleTree.cacheLeaf bytes (.insert value) : MerkleTree.M E Unit) := by
  refine .modify fun tree h => ⟨h.1, h.2.1, fun b v hb => ?_⟩
  by_cases hbytes : b = bytes
  · subst hbytes
    exact hclear
  · rw [AList.lookup_insert_ne hbytes] at hb
    exact h.2.2 b v hb

variable {DB ID : Type} [BonsaiDatabase DB] (db : KeyValueDB DB ID)

theorem set_clearTree {key : BitSlice} {value : Felt}
    (hclear : key.len = n → value ≠ 0 → ClearOf X n (Y ++ bitsliceToBytes key)) :
    Preserves (ClearTree X n Y) (MerkleTree.set db key value) := by
  by_cases hkey : key.len = n
  · exact framed_clearTree.set db (cacheLeaf_remove _) fun hv => cacheLeaf_insert (hclear hkey hv) value
  · intro tree h
    have hne : key.len ≠ tree.maxHeight.toNat := h.2.1 ▸ hkey
    by_cases hv : value = 0
    · rw [MerkleTree.set, if_pos hv, MerkleTree.deleteLeaf]
      simpa [MerkleTree.self, Run.bind_run, hne] using h
    · rw [MerkleTree.set, if_neg hv]
      simpa [MerkleTree.self, Run.bind_run, hne] using h

omit [FeltCodec] in
theorem foldl_remove_writesNoLeaf (keys : List TrieKey) {u : Updates} (hu : u.WritesNoLeaf) :
    Updates.WritesNoLeaf (keys.foldl (fun u key => u.insert key .remove) u) := by
  induction keys generalizing u with
  | nil => exact hu
  | cons key keys ih =>
    refine ih fun bytes value h => ?_
    by_cases hkey : .flat bytes = key
    · subst hkey
      rw [AList.lookup_insert] at h
      cases h
    · rw [AList.lookup_insert_ne hkey] at h
      exact hu bytes value h

/-- The leaves of the cache, written. -/
theorem foldl_leafUpdate_clearOf {l : List (Sigma fun _ : ByteVec => InsertOrRemove Felt)}
    (hl : ∀ e ∈ l, ∀ v, e.2 = .insert v → ClearOf X n (Y ++ e.1)) {u : Updates} (hu : u.ClearOf X n) :
    Updates.ClearOf X n (l.foldl (fun u e => MerkleTree.leafUpdate Y u e.1 e.2) u) := by
  induction l generalizing u with
  | nil => exact hu
  | cons e l ih =>
    obtain ⟨he, hl⟩ := List.forall_mem_cons.mp hl
    refine ih hl fun bytes value h => ?_
    unfold MerkleTree.leafUpdate at h
    by_cases hkey : TrieKey.flat bytes = TrieKey.new Y .flat e.1
    · rw [hkey, AList.lookup_insert] at h
      obtain rfl : bytes = Y ++ e.1 := by injection hkey
      obtain ⟨b, v | _⟩ := e
      · exact ⟨he v rfl, v, by simpa using h.symm⟩
      · cases h
    · rw [AList.lookup_insert_ne hkey] at h
      exact hu bytes value h

/-- A commit writes the leaves of the cache. -/
theorem getUpdates_clearTree (H : StarkHash) {tree : MerkleTree} (h : ClearTree X n Y tree) :
    ClearTree X n Y (left (MerkleTree.getUpdates H tree : EStateM.Result (Failure E) MerkleTree Updates)) ∧
      ∀ u tree', (MerkleTree.getUpdates H tree : EStateM.Result (Failure E) MerkleTree Updates) = .ok u tree' →
        u.ClearOf X n := by
  have hremoved : Updates.WritesNoLeaf (tree.deathRow.keys.foldl (fun u key => u.insert key .remove) ∅) :=
    foldl_remove_writesNoLeaf _ fun bytes value hb => by cases hb
  have h' : ClearTree X n Y { tree with deathRow := ∅ } := h
  obtain ⟨hroot, hu⟩ := framed_clearTree.commitRoot (E := E) H hremoved h'
  simp only [MerkleTree.getUpdates, MerkleTree.self, Run.bind_run, Run.modify_run]
  cases hcr : (MerkleTree.commitRoot H (tree.deathRow.keys.foldl (fun u key => u.insert key .remove) ∅)
        { tree with deathRow := ∅ } : EStateM.Result (Failure E) MerkleTree Updates) with
  | error e tree' =>
    rw [hcr] at hroot
    exact ⟨hroot, fun u tree'' hok => by cases hok⟩
  | ok u tree' =>
    rw [hcr] at hroot
    refine ⟨⟨hroot.1, hroot.2.1, fun bytes v hb => by cases hb⟩, fun u' tree'' hok => ?_⟩
    cases hok
    rw [show tree'.identifier = Y from hroot.1]
    exact foldl_leafUpdate_clearOf
      (fun e he v hv => hroot.2.2 e.1 v (hv ▸ (AList.mem_lookup_iff.mpr (by simpa using he))))
      fun bytes value hb => (hu u tree' hcr bytes value hb).elim

end

/-! ## Databases -/

section

variable [FeltCodec] {DB ID : Type} [BonsaiDatabase DB] [InfallibleDatabase DB] [Scans DB] {X Y : ByteVec} {n : Nat}

/-- Every leaf in the database is clear of `X`, and is a field element. -/
def Columns.ClearOf (X : ByteVec) (n : Nat) (cols : Columns) : Prop :=
  ∀ bytes value, cols (.flat bytes) = some value → Bonsai.ClearOf X n bytes ∧ ∃ v, value = FeltCodec.encode v

theorem Columns.ClearOf.update {cols : Columns} (h : cols.ClearOf X n) {key : DatabaseKey} {o : Option ByteVec}
    (hkey : ∀ bytes value, key = .flat bytes → o = some value →
      Bonsai.ClearOf X n bytes ∧ ∃ v, value = FeltCodec.encode v) :
    Columns.ClearOf X n (Function.update cols key o) := by
  intro bytes value hb
  by_cases hk : .flat bytes = key
  · subst hk
    rw [Function.update_self] at hb
    exact hkey bytes value rfl hb
  · rw [Function.update_of_ne hk] at hb
    exact h bytes value hb

/-- The content and that of the batch are clear of `X`. -/
def ClearBatch (X : ByteVec) (n : Nat) (s : KeyValueDB DB ID × BonsaiDatabase.Batch DB) : Prop :=
  s.1.columns.ClearOf X n ∧ (InfallibleDatabase.pending s.1.db s.2).ClearOf X n

theorem applyUpdate_clearBatch {key : TrieKey} {value : InsertOrRemove ByteVec}
    (hkey : ∀ bytes v, key = .flat bytes → value = .insert v → ClearOf X n bytes ∧ ∃ w, v = FeltCodec.encode w) :
    Preserves (ClearBatch X n) (MerkleTrees.applyUpdate key value : KeyValueDB.M DB ID Unit) := by
  rintro ⟨kv, batch⟩ ⟨hcols, hpend⟩
  cases value with
  | insert v =>
    obtain ⟨old, db', batch', hrun, hpend'⟩ := InfallibleDatabase.insert_eq kv.db key.toDatabaseKey v batch
    have hflat : ∀ bytes value, key.toDatabaseKey = .flat bytes → some v = some value →
        ClearOf X n bytes ∧ ∃ w, value = FeltCodec.encode w := by
      rintro bytes _ hk ⟨⟩
      cases key with
      | trie b => cases hk
      | flat b => cases hk; exact hkey _ v rfl rfl
    have hw : (KeyValueDB.withBatch fun db batch => BonsaiDatabase.insert db key.toDatabaseKey v batch :
        KeyValueDB.M DB ID (Option ByteVec)) (kv, batch) = .ok old ({ kv with db := db' }, batch') :=
      KeyValueDB.withBatch_ok hrun
    rw [MerkleTrees.applyUpdate, KeyValueDB.insert, Run.bind_ok hw]
    refine ⟨?_, ?_⟩
    · show Columns.ClearOf X n (InfallibleDatabase.columns db')
      rcases Scans.insert_columns hrun with h | h
      · rw [h]; exact hcols
      · rw [h]; exact hcols.update hflat
    · show Columns.ClearOf X n (InfallibleDatabase.pending db' batch')
      rw [hpend']
      exact hpend.update hflat
  | remove =>
    obtain ⟨old, db', batch', hrun, hpend'⟩ := InfallibleDatabase.remove_eq kv.db key.toDatabaseKey batch
    have hw : (KeyValueDB.withBatch fun db batch => BonsaiDatabase.remove db key.toDatabaseKey batch :
        KeyValueDB.M DB ID (Option ByteVec)) (kv, batch) = .ok old ({ kv with db := db' }, batch') :=
      KeyValueDB.withBatch_ok hrun
    rw [MerkleTrees.applyUpdate, KeyValueDB.remove, Run.bind_ok hw]
    refine ⟨?_, ?_⟩
    · show Columns.ClearOf X n (InfallibleDatabase.columns db')
      rcases Scans.remove_columns hrun with h | h
      · rw [h]; exact hcols
      · rw [h]; exact hcols.update fun _ _ _ h => by cases h
    · show Columns.ClearOf X n (InfallibleDatabase.pending db' batch')
      rw [hpend']
      exact hpend.update fun _ _ _ h => by cases h

theorem applyAll_clearBatch (ords : HashOrders) (i : Nat)
    {results : List (Except (Failure (BonsaiDatabase.DatabaseError DB)) Updates)}
    (h : ∀ u, .ok u ∈ results → u.ClearOf X n) :
    Preserves (ClearBatch X n) (MerkleTrees.applyAll ords i results : KeyValueDB.M DB ID Unit) := by
  induction results generalizing i with
  | nil => exact .pure _
  | cons r results ih =>
    cases r with
    | error e => exact .throw _
    | ok u =>
      refine .bind (.forM fun e he => applyUpdate_clearBatch fun bytes v hk hv => ?_) fun _ =>
        ih (i + 1) fun u hu => h u (List.mem_cons_of_mem _ hu)
      obtain ⟨key, value⟩ := e
      subst hk hv
      exact h u List.mem_cons_self bytes v ((HashMap.mem_iter u (ords i)).mp he)

/-! ## Storages -/

/-- What is and what will be in the database is clear of `X`. -/
structure ClearStorage (X : ByteVec) (n : Nat) (st : BonsaiStorage DB ID) : Prop where
  trees : ∀ Y tree, st.trees.lookup Y = some tree → ClearTree X n Y tree
  columns : st.db.columns.ClearOf X n
  height : st.maxHeight.toNat = n

namespace ClearStorage

variable {st : BonsaiStorage DB ID}

omit [Scans DB] in
theorem treeOf (h : ClearStorage X n st) (Y : ByteVec) : ClearTree X n Y (st.treeOf Y) := by
  rw [MerkleTrees.treeOf]
  cases hY : st.trees.lookup Y with
  | none => exact .new h.height
  | some tree => exact h.trees Y tree hY

omit [FeltCodec] [BonsaiDatabase DB] [InfallibleDatabase DB] [Scans DB] in
theorem insert_trees {trees : HashMap ByteVec MerkleTree} (h : ∀ Y tree, trees.lookup Y = some tree → ClearTree X n Y tree)
    {Z : ByteVec} {tree : MerkleTree} (hZ : ClearTree X n Z tree) (Y : ByteVec) (tree' : MerkleTree)
    (hY : (trees.insert Z tree).lookup Y = some tree') : ClearTree X n Y tree' := by
  by_cases hYZ : Y = Z
  · subst hYZ
    rw [AList.lookup_insert] at hY
    cases hY
    exact hZ
  · rw [AList.lookup_insert_ne hYZ] at hY
    exact h Y tree' hY

omit [Scans DB] in
theorem set {key : BitSlice} {value : Felt}
    (hclear : key.len = n → value ≠ 0 → ClearOf X n (Y ++ bitsliceToBytes key)) :
    Preserves (ClearStorage X n) (MerkleTrees.set Y key value : MerkleTrees.M DB ID Unit) := by
  intro st h
  have hset := set_clearTree st.db hclear _ (h.treeOf Y)
  rw [MerkleTrees.set, MerkleTrees.onTree]
  cases hrun : MerkleTree.set st.db key value (st.treeOf Y) with
  | ok a tree => rw [hrun] at hset; exact ⟨insert_trees h.trees hset, h.columns, h.height⟩
  | error e tree => rw [hrun] at hset; exact ⟨insert_trees h.trees hset, h.columns, h.height⟩

omit [BonsaiDatabase DB] [InfallibleDatabase DB] [Scans DB] in
theorem allUpdates {E : Type} (H : StarkHash) {l : List (ByteVec × MerkleTree)} (hl : ∀ e ∈ l, ClearTree X n e.1 e.2)
    {trees : HashMap ByteVec MerkleTree} (h : ∀ Y tree, trees.lookup Y = some tree → ClearTree X n Y tree) :
    (∀ Y tree, (MerkleTrees.allUpdates E H l trees).1.lookup Y = some tree → ClearTree X n Y tree) ∧
      ∀ u, .ok u ∈ (MerkleTrees.allUpdates E H l trees).2 → u.ClearOf X n := by
  induction l generalizing trees with
  | nil => exact ⟨h, fun u hu => by cases hu⟩
  | cons e l ih =>
    obtain ⟨he, hrest⟩ := List.forall_mem_cons.mp hl
    obtain ⟨hleft, hok⟩ := getUpdates_clearTree (E := E) H he
    obtain ⟨Z, tree⟩ := e
    rw [MerkleTrees.allUpdates]
    cases hrun : (MerkleTree.getUpdates H tree : EStateM.Result (Failure E) MerkleTree Updates) with
    | ok u tree' =>
      rw [hrun] at hleft
      obtain ⟨htrees, hus⟩ := ih hrest (insert_trees h hleft)
      refine ⟨htrees, fun u' hu' => ?_⟩
      rcases List.mem_cons.mp hu' with heq | hmem
      · cases heq
        exact hok u tree' hrun
      · exact hus u' hmem
    | error e tree' =>
      rw [hrun] at hleft
      obtain ⟨htrees, hus⟩ := ih hrest (insert_trees h hleft)
      refine ⟨htrees, fun u' hu' => ?_⟩
      rcases List.mem_cons.mp hu' with heq | hmem
      · cases heq
      · exact hus u' hmem

theorem commitTrees (H : StarkHash) (ords : HashOrders) :
    Preserves (ClearStorage X n) (MerkleTrees.commit H ords : MerkleTrees.M DB ID Unit) := by
  intro st h
  have hiter : ∀ e ∈ st.trees.iter (ords 0), ClearTree X n e.1 e.2 := fun e he =>
    h.trees e.1 e.2 ((HashMap.mem_iter st.trees (ords 0)).mp he)
  obtain ⟨htrees, hus⟩ := allUpdates (E := BonsaiDatabase.DatabaseError DB) H hiter h.trees
  rw [MerkleTrees.commit]
  rcases hall : MerkleTrees.allUpdates (BonsaiDatabase.DatabaseError DB) H (st.trees.iter (ords 0)) st.trees with
    ⟨trees, results⟩
  rw [hall] at htrees hus
  simp only
  cases MerkleTrees.firstPanic results with
  | some e => exact ⟨htrees, h.columns, h.height⟩
  | none =>
    have hstart : ClearBatch X n (st.db, BonsaiDatabase.createBatch st.db.db) :=
      ⟨h.columns, by rw [InfallibleDatabase.pending_createBatch]; exact h.columns⟩
    have hbatch := applyAll_clearBatch ords 1 hus _ hstart
    simp only [Run.bind_run]
    cases hrun : (MerkleTrees.applyAll ords 1 results : KeyValueDB.M DB ID Unit)
        (st.db, BonsaiDatabase.createBatch st.db.db) with
    | error e s => rw [hrun] at hbatch; exact ⟨htrees, hbatch.1, h.height⟩
    | ok a s =>
      rw [hrun] at hbatch
      obtain ⟨kv, batch⟩ := s
      obtain ⟨db', hwrite, hcols⟩ := kv.writeBatch_ok batch
      simp only [hwrite]
      refine ⟨htrees, ?_, h.height⟩
      show Columns.ClearOf X n (InfallibleDatabase.columns db')
      rw [hcols]
      exact hbatch.2

omit [Scans DB] in
theorem start {db : DB} (h : ∀ key : TrieKey, InfallibleDatabase.columns db key.toDatabaseKey = none)
    (config : BonsaiStorageConfig) (m : UInt8) :
    ClearStorage X m.toNat (BonsaiStorage.new db config m : BonsaiStorage DB ID) :=
  { trees := fun Y tree hY => by cases hY
    columns := fun bytes value hb => by cases (h (.flat bytes)).symm.trans hb
    height := rfl }

section Steps

variable {T : Type} [Id ID] [BonsaiPersistentDatabase DB ID T] [InfallibleSnapshots DB ID T]

theorem commit (H : StarkHash) (ords : HashOrders) (logOrd : HashOrder) (id : ID) :
    Preserves (ClearStorage X n) (BonsaiStorage.commit H ords logOrd id : MerkleTrees.M DB ID Unit) := by
  refine .bind (commitTrees H ords) fun _ => .bind (fun st h => ?_) fun _ st h => ?_
  · obtain ⟨kv, hrun, hk, -, hcols⟩ := st.db.commit_ok logOrd id
    have hst : ClearStorage X n { st with db := kv } :=
      ⟨h.trees, fun bytes value hb => h.columns bytes value (by
        rw [← hb, hcols]
        exact (st.db.logged_sameTries logOrd id (.flat bytes)).symm), h.height⟩
    rw [MerkleTrees.onDb_ok hrun]
    exact hst
  · obtain ⟨db', hrun, hcols⟩ := st.db.createSnapshot_leaving id
    have hst : ClearStorage X n { st with db := { st.db with db := db' } } :=
      ⟨h.trees, fun bytes value hb => h.columns bytes value (hcols ▸ hb), h.height⟩
    rw [MerkleTrees.onDb, hrun]
    cases (snapshotAnswer st.db.config : Except (Failure (BonsaiDatabase.DatabaseError DB)) Unit) <;> exact hst

theorem step (H : StarkHash) {op : Op ID} (hop : op.ClearOf X n) :
    Preserves (ClearStorage X n) (op.run H : MerkleTrees.M DB ID Unit) := by
  cases op with
  | insert Y key value => exact set hop
  | remove Y key => exact set fun _ hv => (hv rfl).elim
  | commit ords logOrd id => exact commit H ords logOrd id

theorem run (H : StarkHash) {ops : List (Op ID)} (hops : ∀ op ∈ ops, op.ClearOf X n) (h : ClearStorage X n st) :
    ClearStorage X n (after H ops st) := by
  induction ops generalizing st with
  | nil => exact h
  | cons op ops ih =>
    obtain ⟨hop, hops⟩ := List.forall_mem_cons.mp hops
    have hstep := step H hop st h
    rw [after_cons]
    refine ih hops ?_
    cases hrun : op.run H st with
    | ok a st' => rw [hrun] at hstep; rw [Op.after_ok hrun]; exact hstep
    | error e st' => rw [hrun] at hstep; rw [Op.after_error hrun]; exact hstep

end Steps

end ClearStorage

/-! ## The enumeration -/

omit [FeltCodec] in
/-- A flat key of a leaf. -/
theorem bitsliceToBytes_eq_cons {key : BitSlice} (hn : 0 < n) (hkey : key.len = n) :
    bitsliceToBytes key = UInt8.ofNat n :: key.rawSlice := by
  have hne : key.bits.isEmpty = false := by
    rw [List.isEmpty_eq_false_iff, ← List.length_pos_iff]
    exact (show key.bits.length = n from hkey) ▸ hn
  rw [bitsliceToBytes, hne, hkey]
  rfl

omit [FeltCodec] in
theorem rawSlice_eq_of_bytes {key : BitSlice} {c : UInt8} {b : ByteVec} (h : bitsliceToBytes key = c :: b) :
    key.rawSlice = b := by
  rw [bitsliceToBytes] at h
  cases hne : key.bits.isEmpty with
  | true => rw [hne, if_pos rfl] at h; cases h
  | false => rw [hne] at h; exact (List.cons.inj h).2

omit [FeltCodec] in
theorem cutIdentifier_append (X : ByteVec) (c : UInt8) (b : ByteVec) :
    MerkleTrees.cutIdentifier X (X ++ c :: b) = some b := by
  rw [MerkleTrees.cutIdentifier, if_pos (by simp), ← List.drop_drop, List.drop_left]
  rfl

/-- The flat key and value of a leaf of `X`. -/
def flatEntry (X : ByteVec) (c : UInt8) (pair : ByteVec × ByteVec) : ByteVec × ByteVec := (X ++ c :: pair.1, pair.2)

omit [FeltCodec] in
theorem flatEntry_injective (X : ByteVec) (c : UInt8) : Function.Injective (flatEntry X c) := by
  rintro ⟨b, e⟩ ⟨b', e'⟩ h
  simpa [flatEntry] using h

namespace ClearStorage

variable {st : BonsaiStorage DB ID}

/-- A scan of the bytes of `X` lists leaves of `X`. -/
theorem scan (h : ClearStorage X n st) (hn : 0 < n) (ord : HashOrder) :
    ∃ l : List (ByteVec × ByteVec), BonsaiDatabase.getByPrefix st.db.db (.flat X) ord =
        .ok (l.map (flatEntry X (UInt8.ofNat n))) ∧ l.Nodup ∧
      ∀ b e, (b, e) ∈ l ↔ st.db.columns (.flat (X ++ UInt8.ofNat n :: b)) = some e := by
  obtain ⟨entries, hrun, hnodup, hmem⟩ := Scans.getByPrefix_eq st.db.db (.flat X) ord
  have hform : ∀ e ∈ entries, e ∈ Set.range (flatEntry X (UInt8.ofNat n)) := by
    rintro ⟨k, v⟩ hkv
    obtain ⟨hpre, hcol⟩ := (hmem k v).mp hkv
    obtain ⟨key, hkey, rfl⟩ := (h.columns k v hcol).1 hpre
    exact ⟨(key.rawSlice, v), by rw [flatEntry, bitsliceToBytes_eq_cons hn hkey]⟩
  obtain ⟨l, rfl⟩ : entries ∈ Set.range (List.map (flatEntry X (UInt8.ofNat n))) := by
    rw [Set.range_list_map]
    exact hform
  refine ⟨l, hrun, (hnodup.of_map Prod.fst).of_map _, fun b e => ?_⟩
  rw [← List.mem_map_of_injective (flatEntry_injective X (UInt8.ofNat n))]
  exact (hmem _ e).trans ⟨fun hb => hb.2, fun hb => ⟨List.prefix_append _ _, hb⟩⟩

omit [Scans DB] in
/-- A key without a pending change is read from the database. -/
theorem get_eq_some_iff (h : ClearStorage X n st) {key : BitSlice} (hkey : pendingOf st X key = none) {v : Felt} :
    BonsaiStorage.get st X key = .ok (some v) ↔
      st.db.columns (.flat (X ++ bitsliceToBytes key)) = some (FeltCodec.encode v) := by
  have hid : (st.treeOf X).identifier = X := (h.treeOf X).1
  have hcache : (st.treeOf X).cacheLeafModified.lookup (bitsliceToBytes key) = none := hkey
  rw [BonsaiStorage.get, MerkleTrees.get, MerkleTree.get]
  simp only [hcache, hid]
  rw [Run.except_bind_ok (st.db.get_ok _)]
  show _ ↔ st.db.columns (TrieKey.new X .flat (bitsliceToBytes key)).toDatabaseKey = _
  cases hcol : st.db.columns (TrieKey.new X .flat (bitsliceToBytes key)).toDatabaseKey with
  | none => simp
  | some value =>
    obtain ⟨w, rfl⟩ := (h.columns _ _ hcol).2
    have hround : ∀ u : Felt, FeltCodec.decode (FeltCodec.encode u) = some (u, []) := fun u => by
      simpa using FeltCodec.decode_encode u []
    have hinj : FeltCodec.encode w = FeltCodec.encode v ↔ w = v :=
      ⟨fun he => by simpa [hround] using congrArg FeltCodec.decode he, congrArg _⟩
    simp [MerkleTree.decodeFelt, hround, hinj]

theorem enumerates (h : ClearStorage X n st) (hn : 0 < n) (hpend : ∀ key, pendingOf st X key = none) (ord ord' : HashOrder) :
    Enumerates st X ord ord' := by
  obtain ⟨l, hrun, hnodup, hmem⟩ := h.scan hn ord
  obtain ⟨l', hrun', hnodup', hmem'⟩ := h.scan hn ord'
  refine ⟨l, l'.map Prod.fst, ?_, ?_, hnodup, fun b e => (hmem b e).trans ⟨fun hcol => ?_, ?_⟩, ?_⟩
  · have hcut : (fun kv : ByteVec × ByteVec => (MerkleTrees.cutIdentifier X kv.1).map fun key => (key, kv.2)) ∘
        flatEntry X (UInt8.ofNat n) = some := by
      funext pair
      simp [flatEntry, cutIdentifier_append]
    rw [BonsaiStorage.getKeyValuePairs, MerkleTrees.getKeyValuePairs, hrun]
    exact congrArg Except.ok (List.filterMap_map.trans (by rw [hcut, List.filterMap_some]))
  · have hcut : (fun kv : ByteVec × ByteVec => MerkleTrees.cutIdentifier X kv.1) ∘ flatEntry X (UInt8.ofNat n) =
        fun pair => some pair.1 := by
      funext pair
      simp [flatEntry, cutIdentifier_append]
    rw [BonsaiStorage.getKeys, MerkleTrees.getKeys, hrun']
    exact congrArg Except.ok (List.filterMap_map.trans (by rw [hcut]; exact congrFun List.filterMap_eq_map l'))
  · obtain ⟨hclear, v, rfl⟩ := h.columns _ _ hcol
    obtain ⟨key, hkey, heq⟩ := hclear (List.prefix_append _ _)
    refine ⟨key, v, (h.get_eq_some_iff (hpend key)).mpr (heq ▸ hcol), ?_, rfl⟩
    rw [bitsliceToBytes_eq_cons hn hkey] at heq
    simpa using heq
  · rintro ⟨key, v, hget, rfl, rfl⟩
    have hcol := (h.get_eq_some_iff (hpend key)).mp hget
    obtain ⟨key', hkey', heq⟩ := (h.columns _ _ hcol).1 (List.prefix_append _ _)
    have hbytes : bitsliceToBytes key = UInt8.ofNat n :: key'.rawSlice := by
      rw [List.append_cancel_left heq, bitsliceToBytes_eq_cons hn hkey']
    have hraw : key.rawSlice = key'.rawSlice := rawSlice_eq_of_bytes hbytes
    rw [hraw, ← hbytes]
    exact hcol
  · have hperm : l'.Perm l := (List.perm_ext_iff_of_nodup hnodup' hnodup).mpr fun p => (hmem' p.1 p.2).trans (hmem p.1 p.2).symm
    exact hperm.map _

end ClearStorage

/-- In every run whose inserts are clear of `X`, a tree without pending changes enumerates its leaves. -/
theorem enumerates_run {T : Type} [Id ID] [BonsaiPersistentDatabase DB ID T] [InfallibleSnapshots DB ID T] (H : StarkHash)
    (m : UInt8) (hm : 0 < m.toNat) (db : DB)
    (hdb : ∀ key : TrieKey, InfallibleDatabase.columns db key.toDatabaseKey = none) (config : BonsaiStorageConfig)
    (X : ByteVec) (ops : List (Op ID)) (hops : ∀ op ∈ ops, op.ClearOf X m.toNat)
    (hpend : ∀ key, pendingOf (after H ops (BonsaiStorage.new db config m)) X key = none) (ord ord' : HashOrder) :
    Enumerates (after H ops (BonsaiStorage.new db config m)) X ord ord' :=
  (ClearStorage.run H hops (ClearStorage.start hdb config m)).enumerates hm hpend ord ord'

end

/-! ## The in-memory backend -/

namespace HashMapDb

variable {ID : Type} (db : HashMapDb ID) (pre : DatabaseKey) (ord : HashOrder)

theorem nodup_getByPrefix : ((db.getByPrefix pre ord).map Prod.fst).Nodup :=
  (HashMap.nodup_iter (db.getMap pre) ord).sublist (List.filter_sublist.map _)

theorem get_withSlice (k : ByteVec) : db.get (pre.withSlice k) = (db.getMap pre).lookup k := by
  cases pre <;> rfl

theorem mem_getByPrefix (k v : ByteVec) :
    (k, v) ∈ db.getByPrefix pre ord ↔ pre.asSlice <+: k ∧ db.get (pre.withSlice k) = some v := by
  rw [getByPrefix, List.mem_filter, HashMap.mem_iter, get_withSlice, List.isPrefixOf_iff_prefix]
  exact and_comm

end HashMapDb

instance {ID : Type} : Scans (HashMapDb ID) where
  getByPrefix_eq db pre ord := ⟨_, rfl, db.nodup_getByPrefix pre ord, db.mem_getByPrefix pre ord⟩
  insert_columns {db db' key value old batch batch'} h := by
    cases h
    exact .inr (db.get_insert key value)
  remove_columns {db db' key old batch batch'} h := by
    cases h
    exact .inr (db.get_remove key)

/-- The same key and value in two trees. -/
def writeTwins : List (Op BasicId) :=
  [.insert [7] (.aligned [true, true]) 1, .insert [9] (.aligned [true, true]) 1, .commit (fun _ => .listed) .listed 1]

/-- Nothing is pending after their commit. -/
theorem pendingOf_writeTwins (Y : ByteVec) (key : BitSlice) :
    pendingOf (after (fun a b => a + b) writeTwins (.inMemory 2)) Y key = none := by
  have hcaches : ∀ e ∈ (after (fun a b => a + b) writeTwins (.inMemory 2)).trees.entries,
      e.2.cacheLeafModified.entries = [] := by decide +kernel
  rw [pendingOf, MerkleTrees.treeOf]
  cases hY : (after (fun a b => a + b) writeTwins (.inMemory 2)).trees.lookup Y with
  | none => rfl
  | some tree =>
    rw [Option.getD_some, AList.lookup, hcaches ⟨Y, tree⟩ (AList.mem_lookup_iff.mp hY)]
    rfl

theorem enumerates_run_twins :
    Enumerates (after (fun a b => a + b) writeTwins (.inMemory 2)) [7] .listed .listed := by
  refine enumerates_run (fun a b => a + b) 2 (by decide) HashMapDb.empty HashMapDb.columns_empty ⟨none, none, 1⟩ [7]
    writeTwins ?_ (pendingOf_writeTwins [7]) .listed .listed
  refine List.forall_mem_cons.mpr ⟨fun _ _ _ => ⟨.aligned [true, true], rfl, rfl⟩, List.forall_mem_cons.mpr
    ⟨fun _ _ hpre => absurd hpre (by decide +kernel), List.forall_mem_singleton.mpr trivial⟩⟩

/-- The empty identifier lists the leaves of both trees, and cuts off what tells them apart. -/
theorem not_enumerates_twins :
    (∀ Y key, pendingOf (after (fun a b => a + b) writeTwins (.inMemory 2)) Y key = none) ∧
      ¬ Enumerates (after (fun a b => a + b) writeTwins (.inMemory 2)) [] .listed .listed := by
  refine ⟨pendingOf_writeTwins, ?_⟩
  rintro ⟨pairs, keys, hpairs, -, hnodup, -⟩
  have hrun : BonsaiStorage.getKeyValuePairs (after (fun a b => a + b) writeTwins (.inMemory 2)) [] .listed =
      .ok [([2, 0xc0], FeltCodec.encode 1), ([2, 0xc0], FeltCodec.encode 1)] := by decide +kernel
  rw [hrun] at hpairs
  cases hpairs
  simp at hnodup

end Bonsai
