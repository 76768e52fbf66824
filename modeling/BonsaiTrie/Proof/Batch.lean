import BonsaiTrie.Framework.Assoc
import BonsaiTrie.Framework.Run
import BonsaiTrie.Impl.Storage
import BonsaiTrie.Spec.Infallible

/-!
# Writing updates to a database

What `MerkleTrees::commit` and `KeyValueDB::commit` do to the content of a
database that never fails, once the updates of the trees are known: the
updates of a tree have distinct keys, so that the order in which they are
iterated does not matter (`Updates.apply`), and the log changes the log column
only.
-/

namespace Bonsai

open Run

/-! ## Iteration -/

theorem HashOrder.arrange_perm {α : Type} (ord : HashOrder) (l : List α) : (ord.arrange l).Perm l := by
  have := Equiv.Perm.ofFn_comp_perm (ord l.length) l.get
  rw [List.ofFn_get] at this
  exact this

namespace HashMap

variable {K V : Type} (m : HashMap K V) (ord : HashOrder)

theorem iter_perm : (m.iter ord).Perm (m.entries.map fun e => (e.1, e.2)) := ord.arrange_perm _

theorem nodup_iter : ((m.iter ord).map Prod.fst).Nodup := by
  rw [((m.iter_perm ord).map Prod.fst).nodup_iff, List.map_map]
  exact m.keys_nodup

theorem mem_iter [DecidableEq K] {k : K} {v : V} : (k, v) ∈ m.iter ord ↔ m.lookup k = some v := by
  rw [(m.iter_perm ord).mem_iff, ← Option.mem_def, AList.mem_lookup_iff, List.mem_map]
  constructor
  · rintro ⟨e, he, h⟩
    obtain ⟨rfl, rfl⟩ := Prod.mk.inj h
    exact he
  · exact fun h => ⟨_, h, rfl⟩

/-- An entry, and the others before and after it. -/
theorem iter_around [DecidableEq K] {k : K} {v : V} (h : m.lookup k = some v) :
    ∃ l₁ l₂, m.iter ord = l₁ ++ (k, v) :: l₂ ∧ ∀ e ∈ l₁ ++ l₂, e.1 ≠ k := by
  obtain ⟨l₁, l₂, hl⟩ := List.append_of_mem ((m.mem_iter ord).mpr h)
  refine ⟨l₁, l₂, hl, fun e he hk => ?_⟩
  have hn := m.nodup_iter ord
  rw [hl, List.map_append, List.map_cons, List.nodup_middle, ← List.map_append] at hn
  exact (List.nodup_cons.mp hn).1 (List.mem_map.mpr ⟨e, he, hk⟩)

end HashMap

/-! ## The content after the updates -/

/-- What a key has after a change. -/
def InsertOrRemove.toOption {T : Type} : InsertOrRemove T → Option T
  | .insert value => some value
  | .remove => none

theorem TrieKey.toDatabaseKey_injective : Function.Injective TrieKey.toDatabaseKey := by
  rintro (a | a) (b | b) h <;> simp_all [TrieKey.toDatabaseKey]

theorem TrieKey.toDatabaseKey_ne_trieLog (key : TrieKey) (b : ByteVec) : key.toDatabaseKey ≠ .trieLog b := by
  cases key <;> simp [TrieKey.toDatabaseKey]

/-- The content with the updates made. -/
def Updates.apply (u : Updates) (cols : Columns) : Columns
  | .trie b => ((u.lookup (.trie b)).map InsertOrRemove.toOption).getD (cols (.trie b))
  | .flat b => ((u.lookup (.flat b)).map InsertOrRemove.toOption).getD (cols (.flat b))
  | .trieLog b => cols (.trieLog b)

namespace Updates

variable {u : Updates} {cols : Columns} {key : TrieKey}

theorem apply_key (u : Updates) (cols : Columns) (key : TrieKey) :
    u.apply cols key.toDatabaseKey = ((u.lookup key).map InsertOrRemove.toOption).getD (cols key.toDatabaseKey) := by
  cases key <;> rfl

/-- A key without an update keeps its value. -/
theorem apply_of_none (h : u.lookup key = none) : u.apply cols key.toDatabaseKey = cols key.toDatabaseKey := by
  rw [apply_key, h]; rfl

/-- A key that is not written has its value or none. -/
theorem apply_of_isSome (h : ∀ bytes, u.lookup key ≠ some (.insert bytes))
    (hs : (u.apply cols key.toDatabaseKey).isSome) : u.apply cols key.toDatabaseKey = cols key.toDatabaseKey := by
  rw [apply_key] at hs ⊢
  rcases hu : u.lookup key with _ | (bytes | _)
  · rfl
  · exact (h bytes hu).elim
  · rw [hu] at hs; cases hs

/-- The updates, made one by one in any order. -/
theorem apply_eq_foldl (u : Updates) (ord : HashOrder) (cols : Columns) :
    (u.iter ord).foldl (fun c e => Function.update c e.1.toDatabaseKey e.2.toOption) cols = u.apply cols := by
  funext k
  have hkey (key : TrieKey) : (u.iter ord).foldl (fun c e => Function.update c e.1.toDatabaseKey e.2.toOption) cols
      key.toDatabaseKey = u.apply cols key.toDatabaseKey := by
    rw [apply_key]
    cases hu : u.lookup key with
    | some v =>
      exact Assoc.foldl_update_of_mem TrieKey.toDatabaseKey_injective (g := InsertOrRemove.toOption)
        (HashMap.nodup_iter u ord) ((HashMap.mem_iter u ord).mpr hu) cols
    | none =>
      refine Assoc.foldl_update_of_not_mem (fun e he heq => ?_) cols
      obtain rfl := TrieKey.toDatabaseKey_injective heq
      rw [(HashMap.mem_iter u ord).mp he] at hu
      cases hu
  cases k with
  | trie b => exact hkey (.trie b)
  | flat b => exact hkey (.flat b)
  | trieLog b => exact Assoc.foldl_update_of_not_mem (fun e _ => e.1.toDatabaseKey_ne_trieLog b) cols

theorem apply_empty (cols : Columns) : Updates.apply ∅ cols = cols := by
  funext k
  cases k <;> rfl

/-- The updates of several trees, one after the other. -/
def applyAll (us : List Updates) (cols : Columns) : Columns := us.foldl (fun c u => u.apply c) cols

variable {us us₁ us₂ : List Updates}

theorem applyAll_trieLog (us : List Updates) (cols : Columns) (b : ByteVec) :
    applyAll us cols (.trieLog b) = cols (.trieLog b) := by
  induction us generalizing cols with
  | nil => rfl
  | cons u us ih => exact (ih _).trans rfl

theorem applyAll_of_none (h : ∀ u ∈ us, u.lookup key = none) (cols : Columns) :
    applyAll us cols key.toDatabaseKey = cols key.toDatabaseKey := by
  induction us generalizing cols with
  | nil => rfl
  | cons u us ih =>
    exact (ih (fun v hv => h v (List.mem_cons_of_mem _ hv)) _).trans (apply_of_none (h u List.mem_cons_self))

theorem applyAll_of_isSome (h : ∀ u ∈ us, ∀ bytes, u.lookup key ≠ some (.insert bytes)) {cols : Columns}
    (hs : (applyAll us cols key.toDatabaseKey).isSome) : applyAll us cols key.toDatabaseKey = cols key.toDatabaseKey := by
  induction us generalizing cols with
  | nil => rfl
  | cons u us ih =>
    have heq : applyAll us (u.apply cols) key.toDatabaseKey = u.apply cols key.toDatabaseKey :=
      ih (fun v hv => h v (List.mem_cons_of_mem _ hv)) hs
    have hs' : (u.apply cols key.toDatabaseKey).isSome := by rw [← heq]; exact hs
    exact heq.trans (apply_of_isSome (h u List.mem_cons_self) hs')

/-- A key that the other trees do not touch. -/
theorem applyAll_around_of_none (key : TrieKey) (h : ∀ v ∈ us₁ ++ us₂, v.lookup key = none) (cols : Columns) :
    applyAll (us₁ ++ u :: us₂) cols key.toDatabaseKey = u.apply cols key.toDatabaseKey := by
  have h₁ := applyAll_of_none (fun v hv => h v (List.mem_append_left _ hv)) cols
  have h₂ := applyAll_of_none (fun v hv => h v (List.mem_append_right _ hv)) (u.apply (applyAll us₁ cols))
  rw [applyAll, List.foldl_append]
  refine h₂.trans ?_
  rw [apply_key, apply_key, h₁]

/-- A key that the other trees do not write. -/
theorem applyAll_around_of_isSome (key : TrieKey) (h : ∀ v ∈ us₁ ++ us₂, ∀ bytes, v.lookup key ≠ some (.insert bytes))
    (hs : (applyAll (us₁ ++ u :: us₂) cols key.toDatabaseKey).isSome) :
    applyAll (us₁ ++ u :: us₂) cols key.toDatabaseKey = u.apply cols key.toDatabaseKey := by
  have happ : applyAll (us₁ ++ u :: us₂) cols = applyAll us₂ (u.apply (applyAll us₁ cols)) := List.foldl_append
  rw [happ] at hs ⊢
  have heq := applyAll_of_isSome (fun v hv => h v (List.mem_append_right _ hv)) hs
  rw [heq] at hs ⊢
  rw [apply_key] at hs ⊢
  rw [apply_key]
  cases hu : u.lookup key with
  | some v => rfl
  | none =>
    rw [hu] at hs
    exact applyAll_of_isSome (fun v hv => h v (List.mem_append_left _ hv)) hs

end Updates

/-! ## The batch -/

section

variable {DB ID : Type} [BonsaiDatabase DB] [InfallibleDatabase DB]

/-- The key-value layer, but for the database and the changes it has recorded. -/
def KeyValueDB.Kept (kv kv' : KeyValueDB DB ID) : Prop := kv'.config = kv.config ∧ kv'.createdAt = kv.createdAt

namespace KeyValueDB

variable {kv kv' kv'' : KeyValueDB DB ID}

omit [BonsaiDatabase DB] [InfallibleDatabase DB] in
theorem Kept.refl : kv.Kept kv := ⟨rfl, rfl⟩

omit [BonsaiDatabase DB] [InfallibleDatabase DB] in
theorem Kept.trans (h : kv.Kept kv') (h' : kv'.Kept kv'') : kv.Kept kv'' := ⟨h'.1.trans h.1, h'.2.trans h.2⟩

/-- The content there will be once the batch is written. -/
def pending (kv : KeyValueDB DB ID) (batch : BonsaiDatabase.Batch DB) : Columns := InfallibleDatabase.pending kv.db batch

omit [InfallibleDatabase DB] in
/-- A call of the backend. -/
theorem withBatch_ok {α : Type} {call : DB → Option (BonsaiDatabase.Batch DB) →
      Except (BonsaiDatabase.DatabaseError DB) α × DB × Option (BonsaiDatabase.Batch DB)}
    {batch batch' : BonsaiDatabase.Batch DB} {a : α} {db' : DB} (h : call kv.db (some batch) = (.ok a, db', some batch')) :
    withBatch call (kv, batch) = .ok a ({ kv with db := db' }, batch') := by
  simp only [withBatch, h, Option.getD_some]

theorem insert_ok (kv : KeyValueDB DB ID) (batch : BonsaiDatabase.Batch DB) (key : TrieKey) (value : ByteVec) :
    ∃ kv' batch', KeyValueDB.insert key value (kv, batch) = .ok () (kv', batch') ∧ kv.Kept kv' ∧
      kv'.pending batch' = Function.update (kv.pending batch) key.toDatabaseKey (some value) := by
  obtain ⟨old, db', batch', hrun, hp⟩ := InfallibleDatabase.insert_eq kv.db key.toDatabaseKey value batch
  exact ⟨{ kv with db := db', currentChanges := _ }, batch', bind_ok (withBatch_ok hrun) _, ⟨rfl, rfl⟩, hp⟩

theorem remove_ok (kv : KeyValueDB DB ID) (batch : BonsaiDatabase.Batch DB) (key : TrieKey) :
    ∃ kv' batch', KeyValueDB.remove key (kv, batch) = .ok () (kv', batch') ∧ kv.Kept kv' ∧
      kv'.pending batch' = Function.update (kv.pending batch) key.toDatabaseKey none := by
  obtain ⟨old, db', batch', hrun, hp⟩ := InfallibleDatabase.remove_eq kv.db key.toDatabaseKey batch
  exact ⟨{ kv with db := db', currentChanges := _ }, batch', bind_ok (withBatch_ok hrun) _, ⟨rfl, rfl⟩, hp⟩

/-- Writing the batch. -/
theorem writeBatch_ok (kv : KeyValueDB DB ID) (batch : BonsaiDatabase.Batch DB) :
    ∃ db', KeyValueDB.writeBatch (kv, batch) = .ok () ({ kv with db := db' }, batch) ∧
      InfallibleDatabase.columns db' = kv.pending batch := by
  obtain ⟨db', hrun, hp⟩ := InfallibleDatabase.writeBatch_eq kv.db batch
  exact ⟨db', by simp only [KeyValueDB.writeBatch, hrun], hp⟩

end KeyValueDB

namespace MerkleTrees

/-- One update is put in the batch. -/
theorem applyUpdate_ok (kv : KeyValueDB DB ID) (batch : BonsaiDatabase.Batch DB) (key : TrieKey)
    (value : InsertOrRemove ByteVec) :
    ∃ kv' batch', applyUpdate key value (kv, batch) = .ok () (kv', batch') ∧ kv.Kept kv' ∧
      kv'.pending batch' = Function.update (kv.pending batch) key.toDatabaseKey value.toOption := by
  cases value with
  | insert value => exact kv.insert_ok batch key value
  | remove => exact kv.remove_ok batch key

/-- The updates are put in the batch, one by one. -/
theorem applyList_ok (kv : KeyValueDB DB ID) (batch : BonsaiDatabase.Batch DB)
    (l : List (TrieKey × InsertOrRemove ByteVec)) :
    ∃ kv' batch', (l.forM (fun (key, value) => applyUpdate key value) : KeyValueDB.M DB ID Unit) (kv, batch) =
        .ok () (kv', batch') ∧ kv.Kept kv' ∧
      kv'.pending batch' =
        l.foldl (fun c e => Function.update c e.1.toDatabaseKey e.2.toOption) (kv.pending batch) := by
  induction l generalizing kv batch with
  | nil => exact ⟨kv, batch, rfl, .refl, rfl⟩
  | cons e l ih =>
    obtain ⟨kv₁, batch₁, h₁, hk₁, hp₁⟩ := applyUpdate_ok kv batch e.1 e.2
    obtain ⟨kv₂, batch₂, h₂, hk₂, hp₂⟩ := ih kv₁ batch₁
    exact ⟨kv₂, batch₂, (bind_ok h₁ _).trans h₂, hk₁.trans hk₂, by rw [hp₂, hp₁]; rfl⟩

/-- The updates of every tree are put in the batch, tree by tree. -/
theorem applyAll_ok (ords : HashOrders) (i : Nat) (kv : KeyValueDB DB ID) (batch : BonsaiDatabase.Batch DB)
    (us : List Updates) :
    ∃ kv' batch', applyAll ords i (us.map .ok) (kv, batch) = .ok () (kv', batch') ∧ kv.Kept kv' ∧
      kv'.pending batch' = Updates.applyAll us (kv.pending batch) := by
  induction us generalizing i kv batch with
  | nil => exact ⟨kv, batch, rfl, .refl, rfl⟩
  | cons u us ih =>
    obtain ⟨kv₁, batch₁, h₁, hk₁, hp₁⟩ := applyList_ok kv batch (u.iter (ords i))
    obtain ⟨kv₂, batch₂, h₂, hk₂, hp₂⟩ := ih (i + 1) kv₁ batch₁
    exact ⟨kv₂, batch₂, (bind_ok h₁ _).trans h₂, hk₁.trans hk₂, by rw [hp₂, hp₁, u.apply_eq_foldl]; rfl⟩

end MerkleTrees

/-! ## The log -/

namespace KeyValueDB

/-- Contents that differ in the log column only. -/
def SameTries (cols cols' : Columns) : Prop := ∀ key : TrieKey, cols' key.toDatabaseKey = cols key.toDatabaseKey

theorem SameTries.trans {cols cols' cols'' : Columns} (h : SameTries cols cols') (h' : SameTries cols' cols'') :
    SameTries cols cols'' := fun key => (h' key).trans (h key)

/-- The content with entries in the log. -/
def withLog (cols : Columns) (l : List (ByteVec × ByteVec)) : Columns :=
  l.foldl (fun c e => Function.update c (.trieLog e.1) (some e.2)) cols

theorem withLog_sameTries (cols : Columns) (l : List (ByteVec × ByteVec)) : SameTries cols (withLog cols l) := by
  induction l generalizing cols with
  | nil => exact fun _ => rfl
  | cons e l ih =>
    refine SameTries.trans (fun key => ?_) (ih _)
    exact Function.update_of_ne (key.toDatabaseKey_ne_trieLog _) _ _

/-- Entries are put in the log. -/
theorem logList_ok (kv : KeyValueDB DB ID) (batch : BonsaiDatabase.Batch DB) (l : List (ByteVec × ByteVec)) :
    ∃ kv' batch', (l.forM (fun (key, change) => do
        let _ ← withBatch fun db batch => BonsaiDatabase.insert db (.trieLog key) change batch) : M DB ID Unit)
        (kv, batch) = .ok () (kv', batch') ∧ kv.Kept kv' ∧ kv'.currentChanges = kv.currentChanges ∧
      kv'.pending batch' = withLog (kv.pending batch) l := by
  induction l generalizing kv batch with
  | nil => exact ⟨kv, batch, rfl, .refl, rfl, rfl⟩
  | cons e l ih =>
    obtain ⟨old, db₁, batch₁, hrun, hp⟩ := InfallibleDatabase.insert_eq kv.db (.trieLog e.1) e.2 batch
    obtain ⟨kv₂, batch₂, h₂, hk₂, hc₂, hp₂⟩ := ih { kv with db := db₁ } batch₁
    have h₁ : (do let _ ← withBatch fun db batch => BonsaiDatabase.insert db (.trieLog e.1) e.2 batch : M DB ID Unit)
        (kv, batch) = .ok () ({ kv with db := db₁ }, batch₁) := bind_ok (withBatch_ok hrun) _
    refine ⟨kv₂, batch₂, (bind_ok h₁ _).trans h₂, hk₂, hc₂, hp₂.trans ?_⟩
    exact congrArg (withLog · l) hp

variable [Id ID]

/-- The content without an old log, if there is one to prune. -/
def pruned (ID : Type) [Id ID] (cols : Columns) : Option UInt64 → Columns
  | some old => cols.clear (.trieLog (Id.toBytes (Id.fromU64 old : ID)))
  | none => cols

omit [BonsaiDatabase DB] [InfallibleDatabase DB] in
theorem pruned_sameTries (cols : Columns) (old : Option UInt64) : SameTries cols (pruned ID cols old) := by
  intro key
  cases old with
  | none => rfl
  | some old =>
    rw [pruned, Columns.clear]
    cases key <;> rfl

/-- The pruning of an old log, if there is one to prune. -/
theorem prune_ok (kv : KeyValueDB DB ID) (batch : BonsaiDatabase.Batch DB) (old : Option UInt64) :
    ∃ db', (match old with
        | some old => removeByPrefix (.trieLog (Id.toBytes (Id.fromU64 old : ID)))
        | none => pure () : M DB ID Unit) (kv, batch) = .ok () ({ kv with db := db' }, batch) ∧
      InfallibleDatabase.columns db' = pruned ID kv.columns old := by
  cases old with
  | none => exact ⟨kv.db, rfl, rfl⟩
  | some old =>
    obtain ⟨db', hrun, hp⟩ := InfallibleDatabase.removeByPrefix_eq kv.db (.trieLog (Id.toBytes (Id.fromU64 old : ID)))
    exact ⟨db', by simp only [removeByPrefix, hrun], hp⟩

omit [InfallibleDatabase DB] in
/-- The body of `commit`, once the changes are taken. -/
theorem commitLog_run (kv : KeyValueDB DB ID) (batch : BonsaiDatabase.Batch DB) (ord : HashOrder) (id : ID) :
    commitLog ord id (kv, batch) = (if kv.config.maxSavedTrieLogs ≠ some 0 then do
        (kv.currentChanges.serialize id ord).forM fun (key, change) => do
          let _ ← withBatch fun db batch => BonsaiDatabase.insert db (.trieLog key) change batch
        writeBatch
        match kv.config.maxSavedTrieLogs.bind (checkedSub (Id.asU64 id)) with
        | some old => removeByPrefix (.trieLog (Id.toBytes (Id.fromU64 old : ID)))
        | none => pure ()
      else pure () : M DB ID Unit) ({ kv with currentChanges := ∅ }, batch) := rfl

/-- The content once the log of a commit is written: an old one is pruned, and there are none if they
are disabled. -/
def logged (kv : KeyValueDB DB ID) (ord : HashOrder) (id : ID) : Columns :=
  if kv.config.maxSavedTrieLogs ≠ some 0 then
    pruned ID (withLog kv.columns (kv.currentChanges.serialize id ord))
      (kv.config.maxSavedTrieLogs.bind (checkedSub (Id.asU64 id)))
  else kv.columns

theorem logged_sameTries (kv : KeyValueDB DB ID) (ord : HashOrder) (id : ID) : SameTries kv.columns (kv.logged ord id) := by
  rw [logged]
  split
  · exact (withLog_sameTries _ _).trans (pruned_sameTries _ _)
  · exact fun _ => rfl

/-- The log is written, and the changes are forgotten. -/
theorem commit_ok (kv : KeyValueDB DB ID) (ord : HashOrder) (id : ID) :
    ∃ kv', KeyValueDB.commit ord id kv = .ok () kv' ∧ kv.Kept kv' ∧ kv'.currentChanges = ∅ ∧
      kv'.columns = kv.logged ord id := by
  have hrun : ∃ kv' batch', commitLog ord id (kv, BonsaiDatabase.createBatch kv.db) = .ok () (kv', batch') ∧
      kv.Kept kv' ∧ kv'.currentChanges = ∅ ∧ kv'.columns = kv.logged ord id := by
    let kv₀ : KeyValueDB DB ID := { kv with currentChanges := ∅ }
    have hstart := InfallibleDatabase.pending_createBatch kv.db
    rw [commitLog_run, logged]
    by_cases hlogs : kv.config.maxSavedTrieLogs ≠ some 0
    · rw [if_pos hlogs, if_pos hlogs]
      obtain ⟨kv₁, batch₁, h₁, hk₁, hc₁, hp₁⟩ := kv₀.logList_ok (BonsaiDatabase.createBatch kv.db)
        (kv.currentChanges.serialize id ord)
      obtain ⟨db₂, h₂, hp₂⟩ := kv₁.writeBatch_ok batch₁
      obtain ⟨db₃, h₃, hp₃⟩ := KeyValueDB.prune_ok { kv₁ with db := db₂ } batch₁
        (kv.config.maxSavedTrieLogs.bind (checkedSub (Id.asU64 id)))
      refine ⟨{ kv₁ with db := db₃ }, batch₁, (bind_ok h₁ _).trans ((bind_ok h₂ _).trans h₃), hk₁, hc₁, ?_⟩
      refine hp₃.trans ?_
      rw [show KeyValueDB.columns { kv₁ with db := db₂ } = kv₁.pending batch₁ from hp₂, hp₁]
      exact congrArg (fun c => pruned ID (withLog c _) _) hstart
    · rw [if_neg hlogs, if_neg hlogs]
      exact ⟨kv₀, _, rfl, .refl, rfl, rfl⟩
  obtain ⟨kv', batch', hrun, h⟩ := hrun
  exact ⟨kv', by simp only [KeyValueDB.commit, hrun], h⟩

end KeyValueDB

end

end Bonsai
