import BonsaiTrie.Proof.Enumerate
import BonsaiTrie.Proof.History

/-!
# Undoing commits

The log of a commit, read back in any order, undoes the commit
(`HistoryRep.applyLog_ok`): `deserialize` may lose a new value, but never an old
one (`lookup_readLog_old`), and old values are all that is written back. So
the logs that are kept lead from the content of a storage back to earlier ones
(`logs_revert`).
-/

namespace Bonsai

open Patricia Run

/-! ## What is read back -/

section

variable {ID : Type} [Id ID] {id : ID} {batch : ChangeBatch} {ord : HashOrder} {key : TrieKey}
  {l : List (ByteVec × ByteVec)}

/-- The old value of a changed key comes back, in whatever order the entries are read; with it or in its
absence the new one. -/
theorem lookup_readLog_old (hl : l.Perm (batch.serialize id ord)) {change : Change} (heff : batch.effective key = some change) :
    ∃ change', (readLog id l).flush.lookup key = some change' ∧ change'.oldValue = change.oldValue ∧
      change' ≠ ⟨none, none⟩ := by
  have hne := (effective_eq_some.mp heff).2
  obtain ⟨old, new⟩ := change
  rcases old with _ | old
  · rcases new with _ | new
    · exact absurd rfl hne
    · exact ⟨_, lookup_readLog_one hl heff (show Change.value false _ = some new from rfl) rfl, rfl, by simp⟩
  · rcases new with _ | new
    · exact ⟨_, lookup_readLog_one hl heff (show Change.value true _ = some old from rfl) rfl, rfl, by simp⟩
    · have hold : (valueKey true id key, old) ∈ l := (mem_log hl true old).mpr ⟨_, heff, rfl⟩
      have hnew : (valueKey false id key, new) ∈ l := (mem_log hl false new).mpr ⟨_, heff, rfl⟩
      obtain ⟨l₁, l₂, hsplit⟩ := List.append_of_mem hold
      rw [hsplit, List.mem_append, List.mem_cons] at hnew
      rcases hnew with hnew | heq | hnew
      · obtain ⟨l₃, l₄, rfl⟩ := List.append_of_mem hnew
        rw [List.append_assoc, List.cons_append] at hsplit
        have hread := lookup_readLog_two hl (by decide) hsplit
        by_cases hnil : l₄ = []
        · rw [if_pos hnil] at hread
          exact ⟨_, hread, rfl, by simp [setTo]⟩
        · -- the new value is lost
          rw [if_neg hnil] at hread
          exact ⟨_, hread, rfl, by simp [setTo, Reading.fold]⟩
      · obtain ⟨h, -⟩ := valueKey_inj (Prod.mk.inj heq).1
        cases h
      · obtain ⟨l₃, l₄, rfl⟩ := List.append_of_mem hnew
        have hread := lookup_readLog_two hl (by decide) hsplit
        by_cases hnil : l₃ = []
        · rw [if_pos hnil] at hread
          exact ⟨_, hread, rfl, by simp [setTo]⟩
        · rw [if_neg hnil] at hread
          exact ⟨_, hread, rfl, by simp [setTo, Reading.fold]⟩

/-- Only changed keys are read back. -/
theorem lookup_readLog_none (hl : l.Perm (batch.serialize id ord)) (heff : batch.effective key = none) :
    (readLog id l).flush.lookup key = none :=
  ((start_unread key).foldl (skips_of_none hl heff)).flush

theorem deserialize_eq (hl : ∀ e ∈ l, IsEntry id e) : ChangeBatch.deserialize id l = some (readLog id l).flush :=
  deserializeLoop_eq (r := .start) hl (.inl ⟨rfl, rfl⟩)

end

/-! ## Applying changes backwards -/

namespace KeyValueDB

variable {T : Type} [BonsaiDatabase T] [BatchWrites T] {txn : T} {batch : BonsaiDatabase.Batch T}

omit [BatchWrites T] in
theorem withTxnBatch_ok {α : Type} {call : T → Option (BonsaiDatabase.Batch T) →
      Except (BonsaiDatabase.DatabaseError T) α × T × Option (BonsaiDatabase.Batch T)}
    {batch' : BonsaiDatabase.Batch T} {a : α} {txn' : T} (h : call txn (some batch) = (.ok a, txn', some batch')) :
    withTxnBatch call (txn, batch) = .ok a (txn', batch') := by
  simp only [withTxnBatch, h, Option.getD_some]

/-- One change, applied backwards: the old value is written, or the key removed. -/
theorem applyBackwards_ok (key : TrieKey) {change : Change} (hne : change ≠ ⟨none, none⟩) (txn : T)
    (batch : BonsaiDatabase.Batch T) :
    ∃ txn' batch', applyBackwards key change (txn, batch) = .ok () (txn', batch') ∧
      BatchWrites.pending txn' batch' =
        Function.update (BatchWrites.pending txn batch) key.toDatabaseKey change.oldValue := by
  have hinsert (old : ByteVec) : ∃ txn' batch', (do
      let _ ← withTxnBatch fun txn batch => BonsaiDatabase.insert txn key.toDatabaseKey old batch : TxnM T Unit) (txn, batch) =
        .ok () (txn', batch') ∧ BatchWrites.pending txn' batch' =
          Function.update (BatchWrites.pending txn batch) key.toDatabaseKey (some old) := by
    obtain ⟨_, txn', batch', hrun, hp⟩ := BatchWrites.insert_eq txn key.toDatabaseKey old batch
    exact ⟨txn', batch', bind_ok (withTxnBatch_ok hrun) _, hp⟩
  obtain ⟨old, new⟩ := change
  rcases old with _ | old
  · rcases new with _ | new
    · exact absurd rfl hne
    · obtain ⟨_, txn', batch', hrun, hp⟩ := BatchWrites.remove_eq txn key.toDatabaseKey batch
      exact ⟨txn', batch', bind_ok (withTxnBatch_ok hrun) _, hp⟩
  · rcases new with _ | new
    · exact hinsert old
    · exact hinsert old

/-- Changes of distinct keys, applied backwards in any order. -/
theorem applyAllBackwards_ok {changes : ChangeBatch} (hne : ∀ key change, changes.lookup key = some change → change ≠ ⟨none, none⟩)
    (ord : HashOrder) (txn : T) (batch : BonsaiDatabase.Batch T) :
    ∃ txn' batch', ((changes.iter ord).forM (fun (key, change) => applyBackwards key change) : TxnM T Unit) (txn, batch) =
        .ok () (txn', batch') ∧
      (∀ key, (BatchWrites.pending txn' batch').tries key =
        ((changes.lookup key).map Change.oldValue).getD ((BatchWrites.pending txn batch).tries key)) ∧
      ∀ b, BatchWrites.pending txn' batch' (.trieLog b) = BatchWrites.pending txn batch (.trieLog b) := by
  have hl : ∀ e ∈ changes.iter ord, e.2 ≠ ⟨none, none⟩ := fun e he => hne e.1 e.2 ((HashMap.mem_iter changes ord).mp he)
  have hloop : ∃ txn' batch', ((changes.iter ord).forM (fun (key, change) => applyBackwards key change) : TxnM T Unit)
      (txn, batch) = .ok () (txn', batch') ∧ BatchWrites.pending txn' batch' =
        (changes.iter ord).foldl (fun c e => Function.update c e.1.toDatabaseKey e.2.oldValue)
          (BatchWrites.pending txn batch) := by
    generalize changes.iter ord = l at hl ⊢
    induction l generalizing txn batch with
    | nil => exact ⟨txn, batch, rfl, rfl⟩
    | cons e l ih =>
      obtain ⟨he, hl⟩ := List.forall_mem_cons.mp hl
      obtain ⟨txn₁, batch₁, h₁, hp₁⟩ := applyBackwards_ok e.1 he txn batch
      obtain ⟨txn₂, batch₂, h₂, hp₂⟩ := ih txn₁ batch₁ hl
      exact ⟨txn₂, batch₂, (bind_ok h₁ _).trans h₂, by rw [hp₂, hp₁]; rfl⟩
  obtain ⟨txn', batch', hrun, hp⟩ := hloop
  refine ⟨txn', batch', hrun, fun key => ?_, fun b => ?_⟩
  · rw [Columns.tries, hp]
    cases hkey : changes.lookup key with
    | some change =>
      exact Assoc.foldl_update_of_mem TrieKey.toDatabaseKey_injective (g := Change.oldValue)
        (HashMap.nodup_iter changes ord) ((HashMap.mem_iter changes ord).mpr hkey) _
    | none =>
      refine Assoc.foldl_update_of_not_mem (fun e he heq => ?_) _
      obtain rfl := TrieKey.toDatabaseKey_injective heq
      rw [(HashMap.mem_iter changes ord).mp he] at hkey
      cases hkey
  · rw [hp]
    exact Assoc.foldl_update_of_not_mem (fun e _ => e.1.toDatabaseKey_ne_trieLog b) _

end KeyValueDB

/-! ## The log of a commit -/

section

variable {DB T : Type} [BonsaiDatabase DB] [InfallibleDatabase DB] [BonsaiDatabase T] [BatchWrites T]
  {config : KeyValueDBConfig} {past : List (Commit BasicId)} {start : TrieKey → Option ByteVec}
  {kv : KeyValueDB DB BasicId}

theorem Commit.undo_apply {ID : Type} [Id ID] (c : Commit ID) (tries : TrieKey → Option ByteVec) (key : TrieKey) :
    c.undo tries key = if c.before.tries key = c.after.tries key then tries key else c.before.tries key := rfl

omit [InfallibleDatabase DB] [BatchWrites T] in
/-- A log that was read, applied backwards. -/
theorem KeyValueDB.applyLog_run {ID : Type} [Id ID] {kv : KeyValueDB DB ID} {ords : HashOrders} {id : ID}
    {entries : List (ByteVec × ByteVec)} {changes : ChangeBatch}
    (hentries : BonsaiDatabase.getByPrefix kv.db (.trieLog (Id.toBytes id)) (ords 0) = .ok entries)
    (hchanges : ChangeBatch.deserialize id entries = some changes) :
    (applyLog kv ords id : TxnM T Unit) = (changes.iter (ords 1)).forM fun (key, change) => applyBackwards key change := by
  rw [applyLog, hentries]
  simp only [hchanges]

namespace Archived

variable [Scans DB]

/-- The entries read with the id of a commit whose log is kept are those of its log. -/
theorem entries_perm (h : Archived config past start kv.columns) (hids : (past.map Commit.id).Nodup) {c : Commit BasicId}
    (hc : config.Logged past c) {batch : ChangeBatch} (hbatch : c.Recorded batch) (ord ord' : HashOrder) :
    ∃ entries, BonsaiDatabase.getByPrefix kv.db (.trieLog (Id.toBytes c.id)) ord = .ok entries ∧
      entries.Perm (batch.serialize c.id ord') := by
  obtain ⟨entries, hrun, hnodup, hmem⟩ := Scans.getByPrefix_eq kv.db (.trieLog (Id.toBytes c.id)) ord
  refine ⟨entries, hrun, (List.perm_ext_iff_of_nodup hnodup.of_map (batch.nodup_serialize c.id ord').of_map).mpr ?_⟩
  rintro ⟨b, v⟩
  have hlog : InfallibleDatabase.columns kv.db (.trieLog b) = some v ↔ _ := h.log b v
  rw [hmem, hbatch.mem_serialize, show InfallibleDatabase.columns kv.db ((DatabaseKey.trieLog (Id.toBytes c.id)).withSlice b) =
    some v ↔ _ from hlog]
  constructor
  · rintro ⟨hpre, d, hd, hentry⟩
    have hid : c.id = d.id := hentry.prefix_iff.mp hpre
    rwa [List.inj_on_of_nodup_map hids hc.mem hd.mem hid]
  · exact fun hentry => ⟨hentry.prefix_iff.mpr rfl, c, hc, hentry⟩

/-- No entries are read with another id. -/
theorem entries_nil (h : Archived config past start kv.columns) {id : BasicId} (hid : ∀ c, config.Logged past c → c.id ≠ id)
    (ord : HashOrder) : BonsaiDatabase.getByPrefix kv.db (.trieLog (Id.toBytes id)) ord = .ok [] := by
  obtain ⟨entries, hrun, -, hmem⟩ := Scans.getByPrefix_eq kv.db (.trieLog (Id.toBytes id)) ord
  have hnil : entries = [] := by
    refine List.eq_nil_iff_forall_not_mem.mpr fun e he => ?_
    obtain ⟨hpre, hv⟩ := (hmem e.1 e.2).mp he
    obtain ⟨c, hc, hentry⟩ := (h.log e.1 e.2).mp hv
    exact hid c hc (hentry.prefix_iff.mp hpre).symm
  rw [hrun, hnil]

/-- The log of a commit undoes it, in whatever order its entries are read. -/
theorem applyLog_ok (h : Archived config past start kv.columns) (hids : (past.map Commit.id).Nodup) {c : Commit BasicId}
    (hc : config.Logged past c) (ords : HashOrders) (txn : T) (batch : BonsaiDatabase.Batch T) :
    ∃ txn' batch', KeyValueDB.applyLog kv ords c.id (txn, batch) = .ok () (txn', batch') ∧
      (BatchWrites.pending txn' batch').tries = c.undo (BatchWrites.pending txn batch).tries := by
  obtain ⟨changes, hrec⟩ := h.recorded c hc.mem
  obtain ⟨entries, hentries, hperm⟩ := h.entries_perm hids hc hrec (ords 0) .listed
  have hread := deserialize_eq fun e he => isEntry_of_mem hperm he
  -- what comes back has the old values of the changed keys
  have hback (key : TrieKey) : if c.before.tries key = c.after.tries key then (readLog c.id entries).flush.lookup key = none
      else ∃ change, (readLog c.id entries).flush.lookup key = some change ∧ change.oldValue = c.before.tries key ∧
        change ≠ ⟨none, none⟩ := by
    have heff := hrec key
    by_cases hkey : c.before.tries key = c.after.tries key
    · rw [if_pos hkey] at heff ⊢
      exact lookup_readLog_none hperm heff
    · rw [if_neg hkey] at heff ⊢
      exact lookup_readLog_old hperm heff
  have hne : ∀ key change, (readLog c.id entries).flush.lookup key = some change → change ≠ ⟨none, none⟩ := by
    intro key change hl
    have hkey := hback key
    split at hkey
    · rw [hkey] at hl
      cases hl
    · obtain ⟨change', hl', -, hne⟩ := hkey
      rwa [Option.some.inj (hl.symm.trans hl')]
  obtain ⟨txn', batch', hrun, htries, -⟩ := KeyValueDB.applyAllBackwards_ok hne (ords 1) txn batch
  refine ⟨txn', batch', (congrFun (KeyValueDB.applyLog_run hentries hread) _).trans hrun, funext fun key => ?_⟩
  rw [htries, Commit.undo_apply]
  have hkey := hback key
  split at hkey
  · rename_i heq
    rw [hkey, if_pos heq]
    rfl
  · rename_i heq
    obtain ⟨change, hl, hold, -⟩ := hkey
    rw [hl, if_neg heq, ← hold]
    rfl

omit [BatchWrites T] in
/-- An id without a log does nothing. -/
theorem applyLog_none (h : Archived config past start kv.columns) {id : BasicId} (hid : ∀ c, config.Logged past c → c.id ≠ id)
    (ords : HashOrders) (txn : T) (batch : BonsaiDatabase.Batch T) :
    KeyValueDB.applyLog kv ords id (txn, batch) = .ok () (txn, batch) := by
  have hread : ChangeBatch.deserialize id [] = some ∅ := rfl
  exact congrFun (KeyValueDB.applyLog_run (h.entries_nil hid (ords 0)) hread) _

/-- The logs of several commits, one after the other. -/
theorem applyLogs_ok (h : Archived config past start kv.columns) (hids : (past.map Commit.id).Nodup) {l : List (Commit BasicId)}
    (hl : ∀ c ∈ l, config.Logged past c) (ords : BasicId → HashOrders) (txn : T) (batch : BonsaiDatabase.Batch T) :
    ∃ txn' batch', (l.forM fun c => KeyValueDB.applyLog kv (ords c.id) c.id : KeyValueDB.TxnM T Unit) (txn, batch) =
        .ok () (txn', batch') ∧
      (BatchWrites.pending txn' batch').tries =
        l.foldl (fun tries c => c.undo tries) (BatchWrites.pending txn batch).tries := by
  induction l generalizing txn batch with
  | nil => exact ⟨txn, batch, rfl, rfl⟩
  | cons c l ih =>
    obtain ⟨hc, hl⟩ := List.forall_mem_cons.mp hl
    obtain ⟨txn₁, batch₁, h₁, hp₁⟩ := h.applyLog_ok hids hc (ords c.id) txn batch
    obtain ⟨txn₂, batch₂, h₂, hp₂⟩ := ih hl txn₁ batch₁
    exact ⟨txn₂, batch₂, (bind_ok h₁ _).trans h₂, by rw [hp₂, hp₁]; rfl⟩

/-- The logs of the later commits, if they are kept, lead back to what those before them left. -/
theorem revert_ok {past' : List (Commit BasicId)} {cols : Columns} (h : Archived config (past ++ past') start kv.columns)
    (hbefore : Archived config past start cols) (hids : ((past ++ past').map Commit.id).Nodup)
    (hkept : ∀ c ∈ past', config.Logged (past ++ past') c) (ords : BasicId → HashOrders) (txn : T) (batch : BonsaiDatabase.Batch T)
    (htxn : (BatchWrites.pending txn batch).tries = kv.columns.tries) :
    ∃ txn' batch', (past'.reverse.forM fun c => KeyValueDB.applyLog kv (ords c.id) c.id : KeyValueDB.TxnM T Unit) (txn, batch) =
        .ok () (txn', batch') ∧
      (BatchWrites.pending txn' batch').tries = cols.tries := by
  obtain ⟨txn', batch', hrun, hp⟩ := h.applyLogs_ok hids (fun c hc => hkept c (List.mem_reverse.mp hc)) ords txn batch
  refine ⟨txn', batch', hrun, ?_⟩
  rw [hp, htxn, List.foldl_reverse]
  exact Journal.foldr_undo (hbefore.linked.suffix h.linked)

end Archived

end

/-! ## Runs -/

section

variable [FeltCodec] {DB T : Type} [BonsaiDatabase DB] [InfallibleDatabase DB] [AnswersOld DB]
  [BonsaiPersistentDatabase DB BasicId T] [InfallibleSnapshots DB BasicId T] {H : StarkHash} {n : Nat}
  {st : BonsaiStorage DB BasicId} {past : List (Commit BasicId)} {start : TrieKey → Option ByteVec}

omit [InfallibleDatabase DB] [AnswersOld DB] [InfallibleSnapshots DB BasicId T] in
theorem Request.ids_history [InfallibleDatabase DB] (rs : List (Request BasicId)) (st : BonsaiStorage DB BasicId) :
    (Request.history H rs st).map Commit.id = rs.filterMap Request.commitId := by
  induction rs generalizing st with
  | nil => rfl
  | cons r rs ih =>
    rw [Request.history, List.map_append, ih, List.filterMap_cons]
    cases r.commitId <;> rfl

omit [InfallibleDatabase DB] [AnswersOld DB] [InfallibleSnapshots DB BasicId T] in
theorem Request.history_append [InfallibleDatabase DB] (rs rs' : List (Request BasicId)) (st : BonsaiStorage DB BasicId) :
    Request.history H (rs ++ rs') st = Request.history H rs st ++ Request.history H rs' (Trace.after (Request.run H) rs st) := by
  induction rs generalizing st with
  | nil => rfl
  | cons r rs ih => rw [List.cons_append, Request.history, ih, Request.history, Trace.after_cons, List.append_assoc]

variable (H) (m : UInt8) (hm : 0 < m.toNat) (db : DB) (hdb : ∀ key, InfallibleDatabase.columns db key = none)
  (config : BonsaiStorageConfig)

include hm hdb in
/-- The history of a run from an empty database. -/
theorem HistoryRep.of_new (rs : List (Request BasicId)) (hrs : ∀ r ∈ rs, r.Aligned) (hids : (rs.filterMap Request.commitId).Nodup) :
    HistoryRep H m.toNat config (Request.history H rs (BonsaiStorage.new db config m)) (fun _ => none)
      (Trace.after (Request.run H) rs (BonsaiStorage.new db config m)) :=
  (HistoryRep.new (H := H) hdb config m).run hm hrs hids

include hm hdb in
/-- After a run whose commits have distinct ids, the log column has the entries of the commits whose
logs are kept and no others. -/
theorem logs_kept (rs : List (Request BasicId)) (hrs : ∀ r ∈ rs, r.Aligned) (hids : (rs.filterMap Request.commitId).Nodup)
    (b v : ByteVec) :
    (Trace.after (Request.run H) rs (BonsaiStorage.new db config m)).db.columns (.trieLog b) = some v ↔
      ∃ c, config.Logged (Request.history H rs (BonsaiStorage.new db config m)) c ∧ c.HasEntry b v :=
  (HistoryRep.of_new H m hm db hdb config rs hrs hids).archived.log b v

variable [Scans DB] [BonsaiDatabase T] [BatchWrites T]

include hm hdb in
/-- The log of a commit that is kept, read back in any order and applied backwards to the nodes and leaves
right after the commit, gives those right before it. -/
theorem log_undoes (rs : List (Request BasicId)) (hrs : ∀ r ∈ rs, r.Aligned) (hids : (rs.filterMap Request.commitId).Nodup)
    (c : Commit BasicId) (hc : config.Logged (Request.history H rs (BonsaiStorage.new db config m)) c) (ords : HashOrders)
    (txn : T) (batch : BonsaiDatabase.Batch T) (htxn : (BatchWrites.pending txn batch).tries = c.after.tries) :
    ∃ txn' batch', KeyValueDB.applyLog (Trace.after (Request.run H) rs (BonsaiStorage.new db config m)).db ords c.id
        (txn, batch) = .ok () (txn', batch') ∧
      (BatchWrites.pending txn' batch').tries = c.before.tries := by
  have h := HistoryRep.of_new H m hm db hdb config rs hrs hids
  rw [← Request.ids_history (H := H) rs (BonsaiStorage.new db config m)] at hids
  obtain ⟨txn', batch', hrun, hp⟩ := h.archived.applyLog_ok hids hc ords txn batch
  refine ⟨txn', batch', hrun, ?_⟩
  rw [hp, htxn]
  exact Journal.undo_after _ _

include hm hdb in
/-- The logs of the later part of a run, if they are kept, lead from the nodes and leaves after the run
back to those before that part. -/
theorem logs_revert (rs rs' : List (Request BasicId)) (hrs : ∀ r ∈ rs ++ rs', r.Aligned)
    (hids : ((rs ++ rs').filterMap Request.commitId).Nodup)
    (hkept : ∀ c ∈ Request.history H rs' (Trace.after (Request.run H) rs (BonsaiStorage.new db config m)),
      config.Logged (Request.history H (rs ++ rs') (BonsaiStorage.new db config m)) c)
    (ords : BasicId → HashOrders) (txn : T) (batch : BonsaiDatabase.Batch T)
    (htxn : (BatchWrites.pending txn batch).tries =
      (Trace.after (Request.run H) (rs ++ rs') (BonsaiStorage.new db config m)).db.columns.tries) :
    ∃ txn' batch', ((Request.history H rs' (Trace.after (Request.run H) rs (BonsaiStorage.new db config m))).reverse.forM
        fun c => KeyValueDB.applyLog (Trace.after (Request.run H) (rs ++ rs') (BonsaiStorage.new db config m)).db (ords c.id) c.id :
          KeyValueDB.TxnM T Unit) (txn, batch) = .ok () (txn', batch') ∧
      (BatchWrites.pending txn' batch').tries =
        (Trace.after (Request.run H) rs (BonsaiStorage.new db config m)).db.columns.tries := by
  have hids₁ : (rs.filterMap Request.commitId).Nodup := by
    rw [List.filterMap_append] at hids
    exact hids.of_append_left
  have h₁ := HistoryRep.of_new H m hm db hdb config rs (fun r hr => hrs r (List.mem_append_left _ hr)) hids₁
  have h := HistoryRep.of_new H m hm db hdb config (rs ++ rs') hrs hids
  rw [← Request.ids_history (H := H) (rs ++ rs') (BonsaiStorage.new db config m)] at hids
  have harchived := h.archived
  rw [Request.history_append] at harchived hids hkept
  exact harchived.revert_ok h₁.archived hids hkept ords txn batch htxn

end

/-- Nothing is pending in a batch. -/
theorem HashMapDb.pending_eq {ID ID' : Type} (kv : KeyValueDB (HashMapDb ID) ID') :
    BatchWrites.pending kv.db () = kv.columns := rfl

/-- One key, and then another one: with one log saved, the commit with id 3 prunes none. -/
def writeApart : List (Request BasicId) :=
  [.set (.aligned [true, false]) 1, .commit (fun _ => .listed) .listed 1, .set (.aligned [true, true]) 2,
    .commit (fun _ => .listed) .listed 3]

/-- The first key is removed: the commit with id 4 prunes the log before it. -/
def removeNext : List (Request BasicId) := [.set (.aligned [true, false]) 0, .commit (fun _ => .listed) .listed 4]

/-- A storage in memory that saves one log. -/
def oneLog : BonsaiStorage (HashMapDb BasicId) BasicId := .newInMemory ⟨some 1, none, 1⟩ 2

theorem writeApart_aligned : ∀ r ∈ writeApart ++ removeNext, r.Aligned := by
  intro r hr
  simp only [writeApart, removeNext, List.cons_append, List.nil_append, List.mem_cons, List.not_mem_nil, or_false] at hr
  rcases hr with rfl | rfl | rfl | rfl | rfl | rfl
  all_goals rw [Request.Aligned]; decide

theorem writeApart_ids : ((writeApart ++ removeNext).filterMap Request.commitId).Nodup := by
  show [(1 : UInt64), 3, 4].Nodup
  decide

/-- The commit of the removal. -/
def removal (st : BonsaiStorage (HashMapDb BasicId) BasicId) : Commit BasicId :=
  ⟨4, (Trace.next (Request.run fun a b => a + b) (.set (.aligned [true, false]) 0) st).db.columns,
    (Trace.after (Request.run fun a b => a + b) removeNext st).db.columns⟩

theorem removal_after (st : BonsaiStorage (HashMapDb BasicId) BasicId) :
    (removal st).after = (Trace.after (Request.run fun a b => a + b) removeNext st).db.columns := rfl

theorem history_removeNext (st : BonsaiStorage (HashMapDb BasicId) BasicId) :
    Request.history (fun a b => a + b) removeNext st = [removal st] := by
  simp only [removeNext, Request.history, Request.commitId, Option.toList_none, Option.toList_some, List.map_nil, List.map_cons,
    List.nil_append, List.append_nil]
  rfl

theorem logged_removal :
    KeyValueDBConfig.Logged ⟨some 1, none, 1⟩ (Request.history (fun a b => a + b) (writeApart ++ removeNext) oneLog)
      (removal (Trace.after (Request.run fun a b => a + b) writeApart oneLog)) := by
  refine ⟨Request.history (fun a b => a + b) writeApart oneLog, [], ?_, fun n hn => ⟨?_, fun _ h => absurd h List.not_mem_nil⟩⟩
  · rw [Request.history_append, history_removeNext]
  · obtain rfl := Option.some.inj hn
    decide

/-- The log of id 1 is kept, as no commit has id 2, and that of id 3 is not. -/
theorem logs_kept_apart :
    (∃ c, KeyValueDBConfig.Logged ⟨some 1, none, 1⟩ (Request.history (fun a b => a + b) (writeApart ++ removeNext) oneLog) c ∧
        c.HasEntry (keyNewValue (1 : BasicId) (.flat [2, 0x80])) (FeltCodec.encode 1)) ∧
      ¬ ∃ c, KeyValueDBConfig.Logged ⟨some 1, none, 1⟩ (Request.history (fun a b => a + b) (writeApart ++ removeNext) oneLog) c ∧
        c.HasEntry (keyNewValue (3 : BasicId) (.flat [2, 0xc0])) (FeltCodec.encode 2) := by
  constructor
  · exact (logs_kept (fun a b => a + b) 2 (by decide) HashMapDb.empty HashMapDb.columns_none ⟨some 1, none, 1⟩
      (writeApart ++ removeNext) writeApart_aligned writeApart_ids _ _).mp (by decide +kernel)
  · refine mt (logs_kept (fun a b => a + b) 2 (by decide) HashMapDb.empty HashMapDb.columns_none ⟨some 1, none, 1⟩
      (writeApart ++ removeNext) writeApart_aligned writeApart_ids _ _).mpr ?_
    decide +kernel

theorem log_undoes_removal :
    ∃ txn' batch', KeyValueDB.applyLog (Trace.after (Request.run fun a b => a + b) (writeApart ++ removeNext) oneLog).db
        (fun _ => .listed) (removal (Trace.after (Request.run fun a b => a + b) writeApart oneLog)).id
        ((Trace.after (Request.run fun a b => a + b) removeNext
          (Trace.after (Request.run fun a b => a + b) writeApart oneLog)).db.db, ()) = .ok () (txn', batch') ∧
      (BatchWrites.pending txn' batch').tries =
        (removal (Trace.after (Request.run fun a b => a + b) writeApart oneLog)).before.tries := by
  refine log_undoes (fun a b => a + b) 2 (by decide) HashMapDb.empty HashMapDb.columns_none ⟨some 1, none, 1⟩
    (writeApart ++ removeNext) writeApart_aligned writeApart_ids _ logged_removal (fun _ => .listed) _ () ?_
  rw [removal_after]
  exact congrArg Columns.tries (HashMapDb.pending_eq _)

theorem logs_revert_removal :
    ∃ txn' batch', ((Request.history (fun a b => a + b) removeNext
          (Trace.after (Request.run fun a b => a + b) writeApart oneLog)).reverse.forM fun c =>
        KeyValueDB.applyLog (Trace.after (Request.run fun a b => a + b) (writeApart ++ removeNext) oneLog).db
          (fun _ => .listed) c.id : KeyValueDB.TxnM (HashMapDb BasicId) Unit)
        ((Trace.after (Request.run fun a b => a + b) (writeApart ++ removeNext) oneLog).db.db, ()) = .ok () (txn', batch') ∧
      (BatchWrites.pending txn' batch').tries =
        (Trace.after (Request.run fun a b => a + b) writeApart oneLog).db.columns.tries := by
  refine logs_revert (fun a b => a + b) 2 (by decide) HashMapDb.empty HashMapDb.columns_none ⟨some 1, none, 1⟩
    writeApart removeNext writeApart_aligned writeApart_ids (fun c hc => ?kept) (fun _ _ => .listed)
    (Trace.after (Request.run fun a b => a + b) (writeApart ++ removeNext) oneLog).db.db () ?same
  case same => exact congrArg Columns.tries (HashMapDb.pending_eq _)
  case kept =>
    have hmem : c ∈ [removal (Trace.after (Request.run fun a b => a + b) writeApart oneLog)] := by
      rw [← history_removeNext]
      exact hc
    obtain rfl := List.mem_singleton.mp hmem
    exact logged_removal

end Bonsai
