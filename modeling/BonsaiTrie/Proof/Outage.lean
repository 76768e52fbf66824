import BonsaiTrie.Framework.Ends
import BonsaiTrie.Proof.LeafStore
import BonsaiTrie.Proof.RocksDbStore
import BonsaiTrie.Spec.Outage

/-!
# Failed commits

However the writes of a commit fail, the nodes and leaves in the database are
those before it or those after it (`BonsaiStorage.commit_ends`), and the trees
are drained. So a failed commit is a commit or the loss of what was pending,
and a run with failed commits is explained by the store of leaves
(`failures_explained`).
-/

namespace Bonsai

open Patricia Run

/-! ## Writes that may fail -/

section

variable {DB ID : Type} [BonsaiDatabase DB] [InfallibleDatabase DB] {cols : Columns} {config : KeyValueDBConfig}

/-- The error is one of the database. -/
def OfDatabase {E : Type} (e : Failure E) : Prop := ∃ e', e = .error (.database e')

/-- The content of the database below, and the configuration. -/
structure Holds (cols : Columns) (config : KeyValueDBConfig) (kv : KeyValueDB (Failing DB) ID) : Prop where
  columns : kv.repaired.columns = cols
  config : kv.config = config

/-- The nodes and leaves in the database below, and the configuration. -/
structure HoldsTries (cols : Columns) (config : KeyValueDBConfig) (kv : KeyValueDB (Failing DB) ID) : Prop where
  tries : KeyValueDB.SameTries cols kv.repaired.columns
  config : kv.config = config

/-- A write that failed changed nothing. -/
def Broke (cols : Columns) (config : KeyValueDBConfig) (e : Failure (BonsaiDatabase.DatabaseError (Failing DB)))
    (s : KeyValueDB (Failing DB) ID × BonsaiDatabase.Batch (Failing DB)) : Prop := OfDatabase e ∧ Holds cols config s.1

/-- The content below there will be once the batch is written. -/
def KeyValueDB.filled (s : KeyValueDB (Failing DB) ID × BonsaiDatabase.Batch (Failing DB)) : Columns :=
  InfallibleDatabase.pending s.1.db.inner s.2

namespace Failing

variable {α β : Type} (db : Failing DB)

omit [InfallibleDatabase DB] in
/-- An attempt at a call that succeeds. -/
theorem attempt_ok (call : DB → Except (BonsaiDatabase.DatabaseError DB) α × DB) {a : α} {inner : DB}
    (h : call db.inner = (.ok a, inner)) :
    (∃ e db', db.attempt call = (.error e, db') ∧ db'.inner = db.inner) ∨
      ∃ db', db.attempt call = (.ok a, db') ∧ db'.inner = inner := by
  rw [attempt]
  cases db.script.head?.join with
  | some e => exact .inl ⟨e, _, rfl, rfl⟩
  | none => exact .inr ⟨⟨inner, db.script.tail⟩, by simp only [h], rfl⟩

omit [InfallibleDatabase DB] in
theorem attemptWith_ok (batch : β) (call : DB → β → Except (BonsaiDatabase.DatabaseError DB) α × DB × β) {a : α} {inner : DB}
    {batch' : β} (h : call db.inner batch = (.ok a, inner, batch')) :
    (∃ e db', db.attemptWith batch call = (.error e, db', batch) ∧ db'.inner = db.inner) ∨
      ∃ db', db.attemptWith batch call = (.ok a, db', batch') ∧ db'.inner = inner := by
  rw [attemptWith]
  cases db.script.head?.join with
  | some e => exact .inl ⟨e, _, rfl, rfl⟩
  | none => exact .inr ⟨⟨inner, db.script.tail⟩, by simp only [h], rfl⟩

end Failing

namespace KeyValueDB

variable (kv : KeyValueDB (Failing DB) ID) (batch : BonsaiDatabase.Batch (Failing DB))

/-- A write through a batch does not show. -/
theorem withBatch_ends (hkv : Holds cols config kv) {u : Columns → Columns} {db : DB} {batch' : BonsaiDatabase.Batch DB}
    {old : Option ByteVec} {call : DB → Option (BonsaiDatabase.Batch DB) →
      Except (BonsaiDatabase.DatabaseError DB) (Option ByteVec) × DB × Option (BonsaiDatabase.Batch DB)}
    (hcall : call kv.db.inner (some batch) = (.ok old, db, some batch'))
    (hcols : InfallibleDatabase.columns db = InfallibleDatabase.columns kv.db.inner)
    (hpending : InfallibleDatabase.pending db batch' = u (filled (kv, batch))) :
    Ends (fun _ s => Holds cols config s.1 ∧ filled s = u (filled (kv, batch))) (Broke cols config)
      (withBatch fun (db : Failing DB) batch => db.attemptWith batch call) (kv, batch) := by
  obtain ⟨e, db', hrun, hinner⟩ | ⟨db', hrun, hinner⟩ := kv.db.attemptWith_ok (some batch) call hcall
  · have hfail : withBatch (fun (db : Failing DB) batch => db.attemptWith batch call) (kv, batch) =
        .error (.error (.database e)) ({ kv with db := db' }, batch) := by
      simp only [withBatch, hrun]
      rfl
    refine .of_error hfail ⟨⟨e, rfl⟩, ?_, hkv.config⟩
    show InfallibleDatabase.columns db'.inner = cols
    rw [hinner]
    exact hkv.columns
  · have hok : withBatch (fun (db : Failing DB) batch => db.attemptWith batch call) (kv, batch) =
        .ok old ({ kv with db := db' }, batch') := by
      simp only [withBatch, hrun]
      rfl
    refine .of_ok hok ⟨⟨?_, hkv.config⟩, ?_⟩
    · show InfallibleDatabase.columns db'.inner = cols
      rw [hinner, hcols]
      exact hkv.columns
    · show InfallibleDatabase.pending db'.inner batch' = _
      rw [hinner, hpending]

/-- The batch is written, or nothing is. -/
theorem writeBatch_ends (hkv : Holds cols config kv) :
    Ends (fun _ s => Holds (filled (kv, batch)) config s.1) (Broke cols config) KeyValueDB.writeBatch (kv, batch) := by
  obtain ⟨db, hwrite, hcols⟩ := InfallibleDatabase.writeBatch_eq kv.db.inner batch
  obtain ⟨e, db', hrun, hinner⟩ | ⟨db', hrun, hinner⟩ := kv.db.attempt_ok (fun inner => BonsaiDatabase.writeBatch inner batch) hwrite
  · replace hrun : BonsaiDatabase.writeBatch kv.db batch = (.error e, db') := hrun
    have hfail : KeyValueDB.writeBatch (kv, batch) = .error (.error (.database e)) ({ kv with db := db' }, batch) := by
      simp only [KeyValueDB.writeBatch, hrun]
    refine .of_error hfail ⟨⟨e, rfl⟩, ?_, hkv.config⟩
    show InfallibleDatabase.columns db'.inner = cols
    rw [hinner]
    exact hkv.columns
  · replace hrun : BonsaiDatabase.writeBatch kv.db batch = (.ok (), db') := hrun
    have hok : KeyValueDB.writeBatch (kv, batch) = .ok () ({ kv with db := db' }, batch) := by
      simp only [KeyValueDB.writeBatch, hrun]
    refine .of_ok hok ⟨?_, hkv.config⟩
    show InfallibleDatabase.columns db'.inner = _
    rw [hinner]
    exact hcols

/-- The keys with a prefix are removed, or nothing is. -/
theorem removeByPrefix_ends (hkv : Holds cols config kv) (pre : DatabaseKey) :
    Ends (fun _ s => Holds (cols.clear pre) config s.1) (Broke cols config) (KeyValueDB.removeByPrefix pre) (kv, batch) := by
  obtain ⟨db, hremove, hcols⟩ := InfallibleDatabase.removeByPrefix_eq kv.db.inner pre
  obtain ⟨e, db', hrun, hinner⟩ | ⟨db', hrun, hinner⟩ :=
    kv.db.attempt_ok (fun inner => BonsaiDatabase.removeByPrefix inner pre) hremove
  · replace hrun : BonsaiDatabase.removeByPrefix kv.db pre = (.error e, db') := hrun
    have hfail : KeyValueDB.removeByPrefix pre (kv, batch) = .error (.error (.database e)) ({ kv with db := db' }, batch) := by
      simp only [KeyValueDB.removeByPrefix, hrun]
    refine .of_error hfail ⟨⟨e, rfl⟩, ?_, hkv.config⟩
    show InfallibleDatabase.columns db'.inner = cols
    rw [hinner]
    exact hkv.columns
  · replace hrun : BonsaiDatabase.removeByPrefix kv.db pre = (.ok (), db') := hrun
    have hok : KeyValueDB.removeByPrefix pre (kv, batch) = .ok () ({ kv with db := db' }, batch) := by
      simp only [KeyValueDB.removeByPrefix, hrun]
    refine .of_ok hok ⟨?_, hkv.config⟩
    show InfallibleDatabase.columns db'.inner = _
    rw [hinner, hcols, ← hkv.columns]
    rfl

variable [DefersWrites DB]

theorem insert_ends (hkv : Holds cols config kv) (key : DatabaseKey) (value : ByteVec) :
    Ends (fun _ s => Holds cols config s.1 ∧ filled s = Function.update (filled (kv, batch)) key (some value))
      (Broke cols config) (withBatch fun db batch => BonsaiDatabase.insert db key value batch) (kv, batch) := by
  obtain ⟨old, db, batch', hrun, hp⟩ := InfallibleDatabase.insert_eq kv.db.inner key value batch
  exact kv.withBatch_ends batch hkv (u := fun c => Function.update c key (some value)) hrun (DefersWrites.insert_columns hrun) hp

theorem remove_ends (hkv : Holds cols config kv) (key : DatabaseKey) :
    Ends (fun _ s => Holds cols config s.1 ∧ filled s = Function.update (filled (kv, batch)) key none)
      (Broke cols config) (withBatch fun db batch => BonsaiDatabase.remove db key batch) (kv, batch) := by
  obtain ⟨old, db, batch', hrun, hp⟩ := InfallibleDatabase.remove_eq kv.db.inner key batch
  exact kv.withBatch_ends batch hkv (u := fun c => Function.update c key none) hrun (DefersWrites.remove_columns hrun) hp

variable [Id ID]

/-- However the writes go, a log is all that is written. -/
theorem commitLog_ends (hkv : Holds cols config kv) (ord : HashOrder) (id : ID) :
    Ends (fun _ s => HoldsTries cols config s.1) (fun e s => OfDatabase e ∧ HoldsTries cols config s.1) (commitLog ord id)
      (kv, BonsaiDatabase.createBatch kv.db) := by
  refine .of_eq (commitLog_run kv _ ord id) ?_
  have hstart : Holds cols config { kv with currentChanges := ∅ } := ⟨hkv.columns, hkv.config⟩
  have hbroke {cols' : Columns} (hsame : SameTries cols cols') (e : Failure (BonsaiDatabase.DatabaseError (Failing DB)))
      (s : KeyValueDB (Failing DB) ID × BonsaiDatabase.Batch (Failing DB)) (h : Broke cols' config e s) :
      OfDatabase e ∧ HoldsTries cols config s.1 := ⟨h.1, ⟨h.2.columns ▸ hsame, h.2.config⟩⟩
  split
  · -- the entries are put in the batch
    refine (Ends.forM (I := fun (_ : List (ByteVec × ByteVec)) s => Holds cols config s.1 ∧ SameTries cols (filled s))
      ⟨hstart, ?_⟩ ?_).bind fun _ s hs => ?_
    · rw [← hkv.columns, filled]
      exact fun key => congrFun (InfallibleDatabase.pending_createBatch kv.db.inner) _
    · intro e l s hs
      refine ((insert_ends s.1 s.2 hs.1 (.trieLog e.1) e.2).mono (fun _ _ h => h) (hbroke fun _ => rfl)).bind
        fun _ s' hs' => .pure ⟨hs'.1, ?_⟩
      rw [hs'.2]
      exact hs.2.trans (withLog_sameTries (filled s) [e])
    -- the batch is written, and an old log is pruned
    refine ((writeBatch_ends s.1 s.2 hs.1).mono (fun _ _ h => h) (hbroke fun _ => rfl)).bind fun _ s' hs' => ?_
    split
    · rename_i old _
      refine (removeByPrefix_ends s'.1 s'.2 hs' _).mono (fun _ s'' hs'' => ⟨?_, hs''.config⟩) (hbroke hs.2)
      rw [hs''.columns]
      have hpruned : SameTries (filled s) ((filled s).clear (.trieLog (Id.toBytes (Id.fromU64 old : ID)))) :=
        pruned_sameTries (filled s) (some old)
      exact hs.2.trans hpruned
    · exact .pure ⟨hs'.columns ▸ hs.2, hs'.config⟩
  · exact .pure ⟨fun _ => by rw [← hkv.columns]; rfl, hkv.config⟩

end KeyValueDB

namespace MerkleTrees

variable [DefersWrites DB] (kv : KeyValueDB (Failing DB) ID) (batch : BonsaiDatabase.Batch (Failing DB))

theorem applyUpdate_ends (hkv : Holds cols config kv) (key : TrieKey) (value : InsertOrRemove ByteVec) :
    Ends (fun _ s => Holds cols config s.1 ∧
        KeyValueDB.filled s = Function.update (KeyValueDB.filled (kv, batch)) key.toDatabaseKey value.toOption)
      (Broke cols config) (applyUpdate key value) (kv, batch) := by
  cases value with
  | insert value =>
    exact (kv.insert_ends batch hkv key.toDatabaseKey value).bind fun old s hs =>
      .of_ok rfl ⟨⟨hs.1.columns, hs.1.config⟩, hs.2⟩
  | remove =>
    exact (kv.remove_ends batch hkv key.toDatabaseKey).bind fun old s hs => .of_ok rfl ⟨⟨hs.1.columns, hs.1.config⟩, hs.2⟩

theorem applyAll_ends (hkv : Holds cols config kv) (ords : HashOrders) (i : Nat) (us : List Updates) :
    Ends (fun _ s => Holds cols config s.1 ∧ KeyValueDB.filled s = Updates.applyAll us (KeyValueDB.filled (kv, batch)))
      (Broke cols config) (applyAll ords i (us.map .ok)) (kv, batch) := by
  induction us generalizing i kv batch with
  | nil => exact .of_ok rfl ⟨hkv, rfl⟩
  | cons u us ih =>
    -- what is left of the updates leads to what they all lead to
    refine (Ends.forM (I := fun (l : List (TrieKey × InsertOrRemove ByteVec)) s => Holds cols config s.1 ∧
      l.foldl (fun c e => Function.update c e.1.toDatabaseKey e.2.toOption) (KeyValueDB.filled s) =
        u.apply (KeyValueDB.filled (kv, batch))) (s := (kv, batch))
      ⟨hkv, u.apply_eq_foldl (ords i) (KeyValueDB.filled (kv, batch))⟩ ?_).bind fun _ s hs => ?_
    · intro e l s hs
      refine (applyUpdate_ends s.1 s.2 hs.1 e.1 e.2).mono (fun _ s' hs' => ⟨hs'.1, ?_⟩) fun _ _ h => h
      rw [hs'.2]
      exact hs.2
    · refine (ih s.1 s.2 hs.1 (i + 1)).mono (fun _ s' hs' => ⟨hs'.1, hs'.2.trans ?_⟩) fun _ _ h => h
      exact congrArg (Updates.applyAll us) hs.2

/-- The trees are those of another storage. -/
structure HasTrees (st : MerkleTrees DB ID) (D : KeyValueDB (Failing DB) ID → Prop) (st' : MerkleTrees (Failing DB) ID) : Prop where
  trees : st'.trees = st.trees
  maxHeight : st'.maxHeight = st.maxHeight
  db : D st'.db

variable [FeltCodec] {H : StarkHash}

omit [InfallibleDatabase DB] [DefersWrites DB] in
/-- A commit of trees whose updates are made is the writing of these. -/
theorem commit_writes (st : MerkleTrees DB ID) {ords : HashOrders} {trees : HashMap ByteVec MerkleTree} {us : List Updates}
    (hall : allUpdates (BonsaiDatabase.DatabaseError DB) H (st.trees.iter (ords 0)) st.trees = (trees, us.map .ok))
    {r : Except (Failure (BonsaiDatabase.DatabaseError DB)) Unit} {kv : KeyValueDB DB ID} {batch : BonsaiDatabase.Batch DB}
    (hrun : (do applyAll ords 1 (us.map .ok); KeyValueDB.writeBatch : KeyValueDB.M DB ID Unit)
      (st.db, BonsaiDatabase.createBatch st.db.db) = leaving r (kv, batch)) :
    MerkleTrees.commit H ords st = leaving r ⟨kv, trees, st.maxHeight⟩ := by
  rw [MerkleTrees.commit, hall]
  simp only [firstPanic_ok, hrun]
  cases r <;> rfl

/-- The updates are all written, or none is. The trees are drained. -/
theorem commit_ends {st st₁ : MerkleTrees DB ID} (h : ∀ X tree, st.trees.lookup X = some tree →
      (MerkleTree.getUpdates H : MerkleTree.M (BonsaiDatabase.DatabaseError DB) Updates) tree =
        .ok (tree.updatesOf (BonsaiDatabase.DatabaseError DB) H) (tree.afterUpdates (BonsaiDatabase.DatabaseError DB) H))
    {ords : HashOrders} (hrun : MerkleTrees.commit H ords st = .ok () st₁)
    (script : List (Option (BonsaiDatabase.DatabaseError DB))) :
    Ends (fun _ => HasTrees st₁ (Holds st₁.db.columns st.db.config))
      (fun e st' => OfDatabase e ∧ HasTrees st₁ (Holds st.db.columns st.db.config) st') (MerkleTrees.commit H ords)
      (st.failing script) := by
  have hall := allUpdates_ok (fun e he => h e.1 e.2 ((HashMap.mem_iter st.trees (ords 0)).mp he)) st.trees
  obtain ⟨st₂, hrun₂, hm, hk, -, hcols, -⟩ := commit_run h ords
  obtain rfl : st₂ = st₁ := by rw [hrun₂] at hrun; cases hrun; rfl
  let us := (st.trees.iter (ords 0)).map fun e => e.2.updatesOf (BonsaiDatabase.DatabaseError DB) H
  have htrees : st₂.trees = (allUpdates (BonsaiDatabase.DatabaseError DB) H (st.trees.iter (ords 0)) st.trees).1 := by
    obtain ⟨kv, batch, hwrite, -, -⟩ := applyAll_ok ords 1 st.db (BonsaiDatabase.createBatch st.db.db) us
    obtain ⟨db, hdb, -⟩ := kv.writeBatch_ok batch
    rw [commit_writes st hall (r := .ok ()) ((bind_ok hwrite _).trans hdb)] at hrun
    rw [hall]
    cases hrun
    rfl
  have hstart : Holds st.db.columns st.db.config (st.failing script).db := ⟨rfl, rfl⟩
  have hends : Ends (fun _ s => Holds st₂.db.columns st.db.config s.1) (Broke st.db.columns st.db.config)
      (do applyAll ords 1 (us.map .ok); KeyValueDB.writeBatch)
      ((st.failing script).db, BonsaiDatabase.createBatch (st.failing script).db.db) := by
    refine (applyAll_ends _ _ hstart ords 1 us).bind fun _ s hs => ?_
    refine (KeyValueDB.writeBatch_ends s.1 s.2 hs.1).mono (fun _ s' hs' => ?_) fun _ _ h => h
    have hfilled : KeyValueDB.filled s = st₂.db.columns := by
      rw [hs.2, hcols]
      exact congrArg (Updates.applyAll us) (InfallibleDatabase.pending_createBatch st.db.db)
    exact hfilled ▸ hs'
  obtain ⟨_, s, hs, hP⟩ | ⟨e, s, hs, hJ⟩ := hends.elim
  · refine .of_ok (commit_writes (st.failing script) hall (r := .ok ()) hs) ⟨?_, hm.symm, hP⟩
    rw [htrees, hall]
  · refine .of_error (commit_writes (st.failing script) hall (r := .error e) hs) ⟨hJ.1, ?_, hm.symm, hJ.2⟩
    rw [htrees, hall]

omit [InfallibleDatabase DB] [DefersWrites DB] [FeltCodec] in
theorem onDb_ends {P : Unit → MerkleTrees (Failing DB) ID → Prop} {J : Failure (BonsaiDatabase.DatabaseError (Failing DB)) →
      MerkleTrees (Failing DB) ID → Prop} {st : MerkleTrees (Failing DB) ID}
    {m : EStateM (Failure (BonsaiDatabase.DatabaseError (Failing DB))) (KeyValueDB (Failing DB) ID) Unit}
    (h : Ends (fun a kv => P a { st with db := kv }) (fun e kv => J e { st with db := kv }) m st.db) :
    Ends P J (onDb m) st := by
  obtain ⟨a, kv, hm, h⟩ | ⟨e, kv, hm, h⟩ := h.elim
  · exact .of_ok (by rw [onDb, hm]) h
  · exact .of_error (by rw [onDb, hm]) h

end MerkleTrees

/-! ## Commits that may fail -/

section

variable [FeltCodec] [Id ID] {T : Type} [BonsaiPersistentDatabase DB ID T] [InfallibleSnapshots DB ID T] [DefersWrites DB]
  {H : StarkHash}

omit [FeltCodec] [DefersWrites DB] in
/-- A snapshot is taken or not, or its interval is zero. -/
theorem KeyValueDB.createSnapshot_ends {kv : KeyValueDB (Failing DB) ID} (hkv : HoldsTries cols config kv) (id : ID) :
    Ends (fun _ kv => snapshotAnswer (E := BonsaiDatabase.DatabaseError DB) config = .ok () ∧ HoldsTries cols config kv)
      (fun e kv => snapshotAnswer (E := BonsaiDatabase.DatabaseError DB) config = .error e ∧ HoldsTries cols config kv)
      (KeyValueDB.createSnapshot id) kv := by
  obtain rfl := hkv.config
  rw [Ends, KeyValueDB.createSnapshot, snapshotAnswer]
  by_cases hzero : kv.config.snapshotInterval = 0
  · rw [if_pos hzero, if_pos hzero]
    exact ⟨rfl, hkv⟩
  rw [if_neg hzero, if_neg hzero]
  by_cases htake : Id.asU64 id % kv.config.snapshotInterval = 0
  · rw [if_pos htake]
    refine ⟨rfl, fun key => ?_, rfl⟩
    exact (congrFun (InfallibleSnapshots.columns_snapshot kv.db.inner id) _).trans (hkv.tries key)
  · rw [if_neg htake]
    exact ⟨rfl, hkv⟩

omit [FeltCodec] [InfallibleSnapshots DB ID T] [BonsaiPersistentDatabase DB ID T] in
theorem KeyValueDB.commit_ends {kv : KeyValueDB (Failing DB) ID} (hkv : Holds cols config kv) (ord : HashOrder) (id : ID) :
    Ends (fun _ => HoldsTries cols config) (fun e kv => OfDatabase e ∧ HoldsTries cols config kv) (KeyValueDB.commit ord id) kv := by
  obtain ⟨a, s, hs, h⟩ | ⟨e, s, hs, h⟩ := (kv.commitLog_ends hkv ord id).elim
  · exact .of_ok (by rw [KeyValueDB.commit, hs]) h
  · exact .of_error (by rw [KeyValueDB.commit, hs]) h

/-- However the writes go, the nodes and leaves are those before the commit or those after it. -/
theorem BonsaiStorage.commit_ends {st st₁ : BonsaiStorage DB ID} (h : ∀ X tree, st.trees.lookup X = some tree →
      (MerkleTree.getUpdates H : MerkleTree.M (BonsaiDatabase.DatabaseError DB) Updates) tree =
        .ok (tree.updatesOf (BonsaiDatabase.DatabaseError DB) H) (tree.afterUpdates (BonsaiDatabase.DatabaseError DB) H))
    {ords : HashOrders} (hrun : MerkleTrees.commit H ords st = .ok () st₁) (logOrd : HashOrder) (id : ID)
    (script : List (Option (BonsaiDatabase.DatabaseError DB))) :
    Ends (fun _ st' => snapshotAnswer (E := BonsaiDatabase.DatabaseError DB) st.db.config = .ok () ∧
        MerkleTrees.HasTrees st₁ (HoldsTries st₁.db.columns st.db.config) st')
      (fun e st' => OfDatabase e ∧ MerkleTrees.HasTrees st₁ (HoldsTries st.db.columns st.db.config) st' ∨
        (OfDatabase e ∨ snapshotAnswer (E := BonsaiDatabase.DatabaseError DB) st.db.config = .error e) ∧
          MerkleTrees.HasTrees st₁ (HoldsTries st₁.db.columns st.db.config) st')
      (BonsaiStorage.commit H ords logOrd id) (st.failing script) := by
  refine ((MerkleTrees.commit_ends h hrun script).mono (fun _ _ h => h) fun e st' h => .inl ⟨h.1, h.2.trees, h.2.maxHeight,
    fun key => congrFun h.2.db.columns key.toDatabaseKey, h.2.db.config⟩).bind fun _ st₂ h₂ => ?_
  refine Ends.bind (P := fun _ => MerkleTrees.HasTrees st₁ (HoldsTries st₁.db.columns st.db.config))
    (MerkleTrees.onDb_ends ((KeyValueDB.commit_ends h₂.db logOrd id).mono ?_ ?_)) fun _ st₃ h₃ =>
      MerkleTrees.onDb_ends ((KeyValueDB.createSnapshot_ends h₃.db id).mono ?_ ?_)
  · exact fun _ kv hkv => ⟨h₂.trees, h₂.maxHeight, hkv⟩
  · exact fun e kv hkv => .inr ⟨.inl hkv.1, h₂.trees, h₂.maxHeight, hkv.2⟩
  · exact fun _ kv hkv => ⟨hkv.1, h₃.trees, h₃.maxHeight, hkv.2⟩
  · exact fun e kv hkv => .inr ⟨.inr hkv.1, h₃.trees, h₃.maxHeight, hkv.2⟩

end

/-! ## Runs -/

section

variable [FeltCodec] {T : Type} [BonsaiPersistentDatabase DB BasicId T] {H : StarkHash} {m : UInt8}
  {st t : BonsaiStorage DB BasicId} {s c : Leaves}

/-- The storage has the leaves `s`, and a new tree over its database has the leaves `c`. -/
structure DiskRep (H : StarkHash) (m : UInt8) (st : BonsaiStorage DB BasicId) (s c : Leaves) : Prop where
  rep : CallRep H m.toNat st s
  disk : ∃ T, LeafRep H m.toNat 0 st.db.columns (.new [] m) T c

namespace DiskRep

omit [BonsaiPersistentDatabase DB BasicId T] in
/-- A storage made anew over the database. -/
theorem reopen (h : DiskRep H m st s c) (config : BonsaiStorageConfig) : DiskRep H m (BonsaiStorage.new st.db.db config m) c c := by
  obtain ⟨T, hT⟩ := h.disk
  exact ⟨.reopen hT h.rep.known config, T, hT⟩

omit [BonsaiPersistentDatabase DB BasicId T] in
/-- The leaves determine the nodes and leaves in the database. -/
theorem tries_eq (h : DiskRep H m st s c) : st.db.columns.tries = c.tries H m.toNat :=
  (h.reopen st.db.config).rep.tries_eq (MerkleTree.idle_new [] m)

omit [BonsaiPersistentDatabase DB BasicId T] in
/-- Only the nodes and leaves of the database matter to a storage whose tree is idle. -/
theorem of_idle (h : CallRep H m.toNat st s) (hi : (st.treeOf []).Idle) : DiskRep H m st s s := by
  obtain ⟨T, hT⟩ := h.leafRep
  have hopen := hT.reopen hi rfl
  rw [h.rep.identifier_treeOf] at hopen
  exact ⟨h, T, hopen⟩

omit [BonsaiPersistentDatabase DB BasicId T] in
/-- The same trees over a content with the same nodes and leaves. -/
theorem congr (h : DiskRep H m st s c) (htrees : t.trees = st.trees) (hm : t.maxHeight = st.maxHeight)
    (hcols : KeyValueDB.SameTries st.db.columns t.db.columns) : DiskRep H m t s c := by
  obtain ⟨kv, trees, maxHeight⟩ := t
  obtain rfl : trees = st.trees := htrees
  obtain rfl : maxHeight = st.maxHeight := hm
  obtain ⟨T, hT⟩ := h.disk
  refine ⟨⟨h.rep.rep.congr_db _ hcols, fun key hs => h.rep.known key ?_⟩, T, hT.congr hcols⟩
  rwa [show kv.columns key.toDatabaseKey = _ from hcols key] at hs

omit [BonsaiPersistentDatabase DB BasicId T] in
/-- Drained trees over the nodes and leaves there were. -/
theorem drained (h : DiskRep H m st s c) {st₁ : BonsaiStorage DB BasicId} {s₁ : Leaves} (h₁ : CallRep H m.toNat st₁ s₁)
    (hi : (st₁.treeOf []).Idle) (htrees : t.trees = st₁.trees) (hm : t.maxHeight = st₁.maxHeight)
    (hcols : KeyValueDB.SameTries st.db.columns t.db.columns) : DiskRep H m t c c := by
  have htree : t.treeOf [] = st₁.treeOf [] := by rw [MerkleTrees.treeOf, MerkleTrees.treeOf, htrees, hm]
  obtain ⟨T, hT⟩ := h.disk
  obtain ⟨T₁, hT₁⟩ := h₁.leafRep
  have hdisk := hT.congr hcols
  refine ⟨⟨⟨fun X tree hX => ?_, fun X hX => ⟨T, ?_⟩⟩, fun key hs => h.rep.known key ?_⟩, T, hdisk⟩
  · rw [htrees] at hX
    exact h₁.rep.trees X tree hX
  · obtain rfl : X = [] := hX
    rw [htree]
    exact hdisk.idle (MerkleTree.idle_new [] m) hi (h₁.rep.identifier_treeOf []) hT₁.rep.height
  · rwa [show t.db.columns key.toDatabaseKey = _ from hcols key] at hs

omit [BonsaiPersistentDatabase DB BasicId T] in
/-- A commit of the trees. -/
theorem commitTrees (h : DiskRep H m st s c) (ords : HashOrders) :
    ∃ st₁, MerkleTrees.commit H ords st = .ok () st₁ ∧ DiskRep H m st₁ s.commit s.commit ∧ (st₁.treeOf []).Idle ∧
      st₁.db.config = st.db.config := by
  obtain ⟨st₁, hrun, hR, hidle⟩ := h.rep.commit_ok ords
  obtain ⟨st₂, hrun₂, -, -, hk, -⟩ := h.rep.rep.commitTrees_ok (apart_singleton m.toNat []) h.rep.rep.noIntrusion ords
  obtain rfl : st₁ = st₂ := by rw [hrun] at hrun₂; cases hrun₂; rfl
  exact ⟨st₁, hrun, .of_idle hR hidle, hidle, hk.1⟩

section

variable [InfallibleSnapshots DB BasicId T]

/-- A commit. -/
theorem commit (h : DiskRep H m st s c) (ords : HashOrders) (logOrd : HashOrder) (id : BasicId) :
    ∃ st', BonsaiStorage.commit H ords logOrd id st = leaving (snapshotAnswer st.db.config) st' ∧
      DiskRep H m st' s.commit s.commit ∧ st'.db.config = st.db.config := by
  obtain ⟨st₁, h₁, hR, -, hconf₁⟩ := h.commitTrees ords
  obtain ⟨kv₂, h₂, hk₂, -, hcols₂⟩ := st₁.db.commit_ok logOrd id
  obtain ⟨db₃, h₃, hcols₃⟩ := kv₂.createSnapshot_leaving id
  have hconf : kv₂.config = st.db.config := hk₂.1.trans hconf₁
  have hcols : ({ kv₂ with db := db₃ } : KeyValueDB DB BasicId).columns = st₁.db.logged logOrd id := hcols₃.trans hcols₂
  refine ⟨{ st₁ with db := { kv₂ with db := db₃ } }, ?_, hR.congr rfl rfl (hcols ▸ st₁.db.logged_sameTries logOrd id), hconf⟩
  refine (bind_ok h₁ _).trans ((bind_ok (MerkleTrees.onDb_ok h₂) _).trans ?_)
  rw [MerkleTrees.onDb, h₃, hconf]
  cases (snapshotAnswer st.db.config : Except (Failure (BonsaiDatabase.DatabaseError DB)) Unit) <;> rfl

/-- A commit that may fail: it is made, or the storage has the leaves in the database. -/
theorem attempt [DefersWrites DB] (h : DiskRep H m st s c) (script : List (Option (BonsaiDatabase.DatabaseError DB)))
    (ords : HashOrders) (logOrd : HashOrder) (id : BasicId) :
    ∃ r st', commitFailing H script ords logOrd id st = leaving r st' ∧ st'.db.config = st.db.config ∧
      (DiskRep H m st' s.commit s.commit ∧ (r = snapshotAnswer st.db.config ∨ ∃ e, r = .error (.error (.database e))) ∨
        DiskRep H m st' c c ∧ ∃ e, r = .error (.error (.database e))) := by
  obtain ⟨st₁, h₁, hR, hidle, hconf₁⟩ := h.commitTrees ords
  have hupdates : ∀ X tree, st.trees.lookup X = some tree →
      (MerkleTree.getUpdates H : MerkleTree.M (BonsaiDatabase.DatabaseError DB) Updates) tree =
        .ok (tree.updatesOf (BonsaiDatabase.DatabaseError DB) H) (tree.afterUpdates (BonsaiDatabase.DatabaseError DB) H) := by
    intro X tree hX
    obtain ⟨-, -, T, hT⟩ := h.rep.rep.updates_ok hX
    exact (updatesOf_ok _ hT.rep).1
  obtain ⟨a, t, hrun, hans, ht⟩ | ⟨e, t, hrun, hJ⟩ := (BonsaiStorage.commit_ends hupdates h₁ logOrd id script).elim
  · refine ⟨.ok (), t.repaired, by rw [commitFailing, hrun]; rfl, ht.db.config, .inl ⟨?_, .inl hans.symm⟩⟩
    exact hR.congr ht.trees ht.maxHeight ht.db.tries
  · obtain ⟨⟨e', rfl⟩, ht⟩ | ⟨he, ht⟩ := hJ
    · refine ⟨.error (.error (.database e')), t.repaired, by rw [commitFailing, hrun]; rfl, ht.db.config, .inr ⟨?_, e', rfl⟩⟩
      exact h.drained hR.rep hidle ht.trees ht.maxHeight ht.db.tries
    · refine ⟨.error e, t.repaired, by rw [commitFailing, hrun]; rfl, ht.db.config, .inl ⟨hR.congr ht.trees ht.maxHeight ht.db.tries, ?_⟩⟩
      obtain ⟨e', rfl⟩ | hans := he
      · exact .inr ⟨e', rfl⟩
      · exact .inl hans.symm

end

/-- A request that is not a commit. -/
theorem request (h : DiskRep H m st s c) (hm : 0 < m.toNat) {r : Request BasicId} (hr : r.Aligned) (hid : r.commitId = none) :
    Trace.answer (Request.run H) r st = (r.answer m.toNat s st.db.config).mapError Refusal.failure ∧
      DiskRep H m (Trace.next (Request.run H) r st) (r.leaves m.toNat s) c ∧
      (Trace.next (Request.run H) r st).db.config = st.db.config := by
  obtain ⟨hanswer, hR, hdb⟩ := h.rep.request_ok hm hr hid
  exact ⟨hanswer, ⟨hR, by rw [hdb]; exact h.disk⟩, by rw [hdb]⟩

end DiskRep

/-- The storage has the leaves and the configuration of the store, also in its database. -/
structure Survives (H : StarkHash) (m : UInt8) (st : BonsaiStorage DB BasicId) (l : LeafStore) : Prop where
  disk : DiskRep H m st l.leaves l.committed
  config : st.db.config = l.config

namespace Survives

variable [InfallibleSnapshots DB BasicId T] {l : LeafStore}

/-- A request is answered as the store answers it. -/
theorem request (h : Survives H m st l) (hm : 0 < m.toNat) {r : Request BasicId} (hr : r.Aligned) :
    Trace.answer (Request.run H) r st = (Trace.answer (LeafStore.request m.toNat H) r l).mapError Refusal.failure ∧
      Survives H m (Trace.next (Request.run H) r st) (Trace.next (LeafStore.request m.toNat H) r l) := by
  rw [LeafStore.answer_request, LeafStore.next_request]
  cases hid : r.commitId with
  | none =>
    obtain ⟨hanswer, hR, hconf⟩ := h.disk.request hm hr hid
    rw [LeafStore.next_of_pending hid, hanswer, h.config]
    exact ⟨rfl, hR, hconf.trans h.config⟩
  | some id =>
    cases r with
    | commit ords logOrd id =>
      obtain ⟨st', hrun, hR, hconf⟩ := h.disk.commit ords logOrd id
      rw [Trace.answer_of (Request.run_commit hrun), Trace.next_of (Request.run_commit hrun), h.config]
      exact ⟨Request.answer_commit, hR, hconf.trans h.config⟩
    | set key value => cases hid
    | get key => cases hid
    | getMultiProof keys => cases hid

/-- A request or an attempt is explained. -/
theorem step [DefersWrites DB] (h : Survives H m st l) (hm : 0 < m.toNat) {w : Work DB} (hw : w.Aligned) :
    ∃ v : Work DB × Outcome, v.1 = w ∧
      Work.Explains v (Trace.answer (Work.run H) w st) (Trace.answer (Work.ideal m.toNat H) v l) ∧
      Survives H m (Trace.next (Work.run H) w st) (Trace.next (Work.ideal m.toNat H) v l) := by
  cases w with
  | request r => exact ⟨(.request r, .committed), rfl, h.request hm hw⟩
  | attempt script ords logOrd id =>
    obtain ⟨r, st', hrun, hconf, hR⟩ := h.disk.attempt script ords logOrd id
    have hrun : Work.run H (.attempt script ords logOrd id) st = leaving (r.map fun _ => none) st' := bind_pure_leaving hrun none
    obtain ⟨hR, hr⟩ | ⟨hR, e, rfl⟩ := hR
    · refine ⟨(.attempt script ords logOrd id, .committed), rfl, ?_⟩
      have hanswer : Trace.answer (Work.ideal m.toNat H) (Work.attempt script ords logOrd id, .committed) l = _ :=
        LeafStore.answer_request
      have hnext : Trace.next (Work.ideal m.toNat H) (Work.attempt script ords logOrd id, .committed) l = _ :=
        LeafStore.next_request
      rw [Trace.answer_of hrun, Trace.next_of hrun, hanswer, hnext]
      refine ⟨?_, hR, hconf.trans h.config⟩
      obtain rfl | ⟨e, rfl⟩ := hr
      · rw [h.config]
        exact .inl Request.answer_commit
      · exact .inr ⟨e, rfl⟩
    · refine ⟨(.attempt script ords logOrd id, .rolledBack), rfl, ?_⟩
      rw [Trace.answer_of hrun, Trace.next_of hrun]
      exact ⟨⟨e, rfl⟩, hR, hconf.trans h.config⟩

end Survives

variable (H) in
/-- Failures are explained by commits and losses: a run of requests and of commits whose writes may fail at any point is
answered, but for the failures, as the store of leaves answers it when each such commit is made, or loses what was pending,
and the nodes and leaves in the database are those of the leaves committed last. -/
theorem failures_explained [InfallibleSnapshots DB BasicId T] [DefersWrites DB] (m : UInt8) (hm : 0 < m.toNat) (db : DB)
    (hdb : ∀ key, InfallibleDatabase.columns db key = none) (config : BonsaiStorageConfig) (ws : List (Work DB))
    (hws : ∀ w ∈ ws, w.Aligned) :
    ∃ vs : List (Work DB × Outcome), vs.map Prod.fst = ws ∧
      Trace.Explained (Work.run H) (Work.ideal m.toNat H) Prod.fst Work.Explains vs (BonsaiStorage.new db config m) (.empty config) ∧
      (Trace.after (Work.run H) ws (BonsaiStorage.new db config m)).db.columns.tries =
        (Trace.after (Work.ideal m.toNat H) vs (.empty config)).committed.tries H m.toNat := by
  have hnew : Survives H m (BonsaiStorage.new db config m) (.empty config) :=
    ⟨⟨.start (fun _ => hdb _) m, none, .start (fun _ => hdb _) [] m 0⟩, rfl⟩
  obtain ⟨vs, hvs, hexplained, hR⟩ := Trace.explained Work.Explains (R := Survives H m) (f := Prod.fst)
    (fun st l w h hw => h.step hm hw) hws hnew
  exact ⟨vs, hvs, hexplained, hR.disk.tries_eq⟩

end

end

/-! ## Databases that write batches as a whole -/

/-- A batch of RocksDB is written as a whole. -/
instance {Db ID : Type} [OptimisticTransactionDB Db] [DirectAccess Db] [TransactionReads Db] [DirectReads Db] :
    DefersWrites (RocksDB Db ID) where
  insert_columns {db} {db'} {key} {value} {old} {batch} {batch'} h := by
    obtain ⟨-, hrest⟩ := Prod.mk.inj ((db.insert_batched key value batch).symm.trans h)
    obtain ⟨rfl, -⟩ := Prod.mk.inj hrest
    rfl
  remove_columns {db} {db'} {key} {old} {batch} {batch'} h := by
    obtain ⟨-, hrest⟩ := Prod.mk.inj ((db.remove_batched key batch).symm.trans h)
    obtain ⟨rfl, -⟩ := Prod.mk.inj hrest
    rfl

/-- A database in memory that keeps a batch apart until it is written. -/
structure StagedDb where
  db : HashMapDb BasicId

namespace StagedDb

/-- A write that is made at once. -/
def write (db : HashMapDb BasicId) (w : DatabaseKey × Option ByteVec) : HashMapDb BasicId :=
  match w.2 with
  | some value => (db.insert w.1 value).2
  | none => (db.remove w.1).2

instance : BonsaiDatabase StagedDb where
  Batch := List (DatabaseKey × Option ByteVec)
  DatabaseError := HashMapDbError
  createBatch _ := []
  get s key := .ok (s.db.get key)
  getByPrefix s pre ord := .ok (s.db.getByPrefix pre ord)
  contains s key := .ok (s.db.get key).isSome
  insert s key value batch :=
    match batch with
    | some batch => (.ok (s.db.get key), s, some (batch ++ [(key, some value)]))
    | none => (.ok (s.db.get key), ⟨write s.db (key, some value)⟩, none)
  remove s key batch :=
    match batch with
    | some batch => (.ok (s.db.get key), s, some (batch ++ [(key, none)]))
    | none => (.ok (s.db.get key), ⟨write s.db (key, none)⟩, none)
  removeByPrefix s pre := (.ok (), ⟨s.db.removeByPrefix pre⟩)
  writeBatch s batch := (.ok (), ⟨batch.foldl write s.db⟩)

instance : BonsaiPersistentDatabase StagedDb BasicId (HashMapDb BasicId) where
  snapshot s id := ⟨BonsaiPersistentDatabase.snapshot s.db id⟩
  transaction s id := BonsaiPersistentDatabase.transaction s.db id

theorem get_write (db : HashMapDb BasicId) (w : DatabaseKey × Option ByteVec) :
    (write db w).get = Function.update db.get w.1 w.2 := by
  obtain ⟨key, value | value⟩ := w
  · exact db.get_remove key
  · exact db.get_insert key value

theorem get_foldl_write (db : HashMapDb BasicId) (batch : List (DatabaseKey × Option ByteVec)) :
    (batch.foldl write db).get = batch.foldl (fun c w => Function.update c w.1 w.2) db.get := by
  induction batch generalizing db with
  | nil => rfl
  | cons w batch ih => rw [List.foldl_cons, List.foldl_cons, ih, get_write]

instance : InfallibleDatabase StagedDb where
  columns s := s.db.get
  pending s batch := batch.foldl (fun c w => Function.update c w.1 w.2) s.db.get
  get_eq _ _ := rfl
  contains_eq _ _ := rfl
  pending_createBatch _ := rfl
  insert_eq _ _ _ _ := ⟨_, _, _, rfl, List.foldl_append⟩
  remove_eq _ _ _ := ⟨_, _, _, rfl, List.foldl_append⟩
  removeByPrefix_eq s pre := ⟨_, rfl, s.db.get_removeByPrefix pre⟩
  writeBatch_eq s batch := ⟨_, rfl, get_foldl_write s.db batch⟩

instance : DefersWrites StagedDb where
  insert_columns h := by cases h; rfl
  remove_columns h := by cases h; rfl

instance : InfallibleSnapshots StagedDb BasicId (HashMapDb BasicId) where
  columns_snapshot _ _ := rfl

/-- A commit of which no write is made, one of which the log is not written, and one that is made. -/
def failTwice : List (Work StagedDb) :=
  [.request (.set (.aligned [true, false]) 1), .attempt [some .mk] (fun _ => .listed) .listed 1,
    .request (.set (.aligned [true, true]) 2), .attempt [none, none, none, none, none, some .mk] (fun _ => .listed) .listed 2,
    .request (.commit (fun _ => .listed) .listed 3)]

theorem failTwice_aligned : ∀ w ∈ failTwice, w.Aligned := by
  simp only [failTwice, List.forall_mem_cons]
  exact ⟨rfl, trivial, rfl, trivial, trivial, fun _ h => by cases h⟩

end StagedDb

theorem failures_explained_twice :
    ∃ vs : List (Work StagedDb × Outcome), vs.map Prod.fst = StagedDb.failTwice ∧
      Trace.Explained (Work.run fun a b => a + b) (Work.ideal (UInt8.toNat 2) fun a b => a + b) Prod.fst Work.Explains vs
        (BonsaiStorage.new (⟨.empty⟩ : StagedDb) ⟨none, none, 1⟩ 2) (.empty ⟨none, none, 1⟩) ∧
      (Trace.after (Work.run fun a b => a + b) StagedDb.failTwice
          (BonsaiStorage.new (⟨.empty⟩ : StagedDb) ⟨none, none, 1⟩ 2)).db.columns.tries =
        (Trace.after (Work.ideal (UInt8.toNat 2) fun a b => a + b) vs (.empty ⟨none, none, 1⟩)).committed.tries
          (fun a b => a + b) (UInt8.toNat 2) :=
  failures_explained (fun a b => a + b) 2 (by decide) (⟨.empty⟩ : StagedDb) HashMapDb.columns_none ⟨none, none, 1⟩
    StagedDb.failTwice StagedDb.failTwice_aligned

end Bonsai
