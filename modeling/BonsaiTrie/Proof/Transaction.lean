import BonsaiTrie.Proof.Snapshots

/-!
# Transactional states

`get_transaction` starts from the snapshot with the least id and undoes the
commits from that one on, one id after the other. So for each key it ends with
the value before the last commit below the requested id that changed it
(`transaction_ok`), which is not the value right after the requested commit.
-/

namespace Bonsai

open Patricia Run

/-! ## The ids of the logs -/

namespace KeyValueDB

theorem mem_idRange {a b x : UInt64} : x ∈ idRange a b ↔ ¬ x < a ∧ x < b := by
  rw [idRange, List.mem_map]
  simp only [UInt64.lt_iff_toNat_lt]
  constructor
  · rintro ⟨n, hn, rfl⟩
    have hb := b.toNat_lt
    rw [List.mem_range'_1] at hn
    rw [UInt64.toNat_ofNat_of_lt' (by rw [UInt64.size]; omega)]
    omega
  · rintro ⟨ha, hb⟩
    refine ⟨x.toNat, List.mem_range'_1.mpr (by omega), UInt64.ofNat_toNat⟩

/-- The ids go up. -/
theorem idRange_ascending (a b : UInt64) : (idRange a b).Pairwise (· < ·) := by
  rw [idRange, List.pairwise_map]
  refine List.Pairwise.imp_of_mem (fun {x y} hx hy hlt => ?_) List.pairwise_lt_range'
  have hb := b.toNat_lt
  rw [List.mem_range'_1] at hx hy
  rw [UInt64.lt_iff_toNat_lt, UInt64.toNat_ofNat_of_lt' (by rw [UInt64.size]; omega),
    UInt64.toNat_ofNat_of_lt' (by rw [UInt64.size]; omega)]
  exact hlt

end KeyValueDB

variable {config : KeyValueDBConfig} {past : List (Commit BasicId)} {start : TrieKey → Option ByteVec} {id : BasicId}
  {c : Commit BasicId}

open Classical in
/-- The commit with an id whose log is kept. -/
noncomputable def loggedAt (config : KeyValueDBConfig) (past : List (Commit BasicId)) (id : BasicId) : Option (Commit BasicId) :=
  past.find? fun c => c.id = id ∧ config.Logged past c

theorem loggedAt_some (h : loggedAt config past id = some c) : config.Logged past c ∧ c.id = id := by
  have hc := List.find?_some h
  simp only [decide_eq_true_eq] at hc
  exact hc.symm

theorem loggedAt_none (h : loggedAt config past id = none) (c : Commit BasicId) (hc : config.Logged past c) : c.id ≠ id := by
  intro hid
  have hne := List.find?_eq_none.mp h c hc.mem
  simp only [decide_eq_true_eq] at hne
  exact hne ⟨hid, hc⟩

theorem loggedAt_eq (hids : (past.map Commit.id).Nodup) (hc : config.Logged past c) : loggedAt config past c.id = some c := by
  cases h : loggedAt config past c.id with
  | none => exact absurd rfl (loggedAt_none h c hc)
  | some d =>
    obtain ⟨hd, hid⟩ := loggedAt_some h
    rw [List.inj_on_of_nodup_map hids hd.mem hc.mem hid]

/-! ## The logs of a range of ids -/

section

variable {DB T : Type} [BonsaiDatabase DB] [InfallibleDatabase DB] [Scans DB] [BonsaiDatabase T] [BatchWrites T]
  {kv : KeyValueDB DB BasicId}

/-- The logs of the ids that have one, one after the other. -/
theorem Archived.applyIds_ok (h : Archived config past start kv.columns) (hids : (past.map Commit.id).Nodup)
    (ords : BasicId → HashOrders) (ids : List BasicId) (txn : T) (batch : BonsaiDatabase.Batch T) :
    ∃ txn' batch', (ids.forM fun id => KeyValueDB.applyLog kv (ords id) id : KeyValueDB.TxnM T Unit) (txn, batch) =
        .ok () (txn', batch') ∧
      (BatchWrites.pending txn' batch').tries =
        (ids.filterMap (loggedAt config past)).foldl (fun tries c => c.undo tries) (BatchWrites.pending txn batch).tries := by
  induction ids generalizing txn batch with
  | nil => exact ⟨txn, batch, rfl, rfl⟩
  | cons id ids ih =>
    cases hid : loggedAt config past id with
    | none =>
      obtain ⟨txn₂, batch₂, h₂, hp₂⟩ := ih txn batch
      refine ⟨txn₂, batch₂, (bind_ok (h.applyLog_none (loggedAt_none hid) (ords id) txn batch) _).trans h₂, ?_⟩
      rw [hp₂, List.filterMap_cons_none hid]
    | some c =>
      obtain ⟨hc, rfl⟩ := loggedAt_some hid
      obtain ⟨txn₁, batch₁, h₁, hp₁⟩ := h.applyLog_ok hids hc (ords c.id) txn batch
      obtain ⟨txn₂, batch₂, h₂, hp₂⟩ := ih txn₁ batch₁
      refine ⟨txn₂, batch₂, (bind_ok h₁ _).trans h₂, ?_⟩
      rw [hp₂, hp₁, List.filterMap_cons_some hid, List.foldl_cons]

end

/-- What undoing the logs of a range of ids does to one key. -/
theorem foldl_undo_range (hids : (past.map Commit.id).Nodup) {a b : BasicId} (tries : TrieKey → Option ByteVec) (key : TrieKey) :
    ((∀ c, config.Logged past c → ¬ c.id < a → c.id < b → c.before.tries key = c.after.tries key) →
        ((KeyValueDB.idRange a b).filterMap (loggedAt config past)).foldl (fun tries c => c.undo tries) tries key = tries key) ∧
      ∀ c, config.Logged past c → ¬ c.id < a → c.id < b → c.before.tries key ≠ c.after.tries key →
        (∀ c', config.Logged past c' → c.id < c'.id → c'.id < b → c'.before.tries key = c'.after.tries key) →
        ((KeyValueDB.idRange a b).filterMap (loggedAt config past)).foldl (fun tries c => c.undo tries) tries key =
          c.before.tries key := by
  have hfold := Journal.foldl_undo (fun c : Commit BasicId => c.before.tries) (fun c => c.after.tries)
    ((KeyValueDB.idRange a b).filterMap (loggedAt config past)) tries key
  constructor
  · intro hsame
    refine hfold.trans ?_
    rw [(Journal.lastChange_eq_none_iff _ _ _ key).mpr fun c hc => ?_]
    · rfl
    · obtain ⟨id, hid, hc⟩ := List.mem_filterMap.mp hc
      obtain ⟨hlogged, rfl⟩ := loggedAt_some hc
      obtain ⟨ha, hb⟩ := KeyValueDB.mem_idRange.mp hid
      exact hsame c hlogged ha hb
  · intro c hc ha hb hne hlast
    refine hfold.trans ?_
    obtain ⟨ids₁, ids₂, hsplit⟩ := List.append_of_mem (KeyValueDB.mem_idRange.mpr ⟨ha, hb⟩)
    have hascending := KeyValueDB.idRange_ascending a b
    rw [hsplit] at hascending
    -- the ids after that of the commit are greater and below the bound
    have hlater : ∀ d ∈ ids₂.filterMap (loggedAt config past), d.before.tries key = d.after.tries key := by
      intro d hd
      obtain ⟨id, hid, hd⟩ := List.mem_filterMap.mp hd
      obtain ⟨hlogged, rfl⟩ := loggedAt_some hd
      have hmem : d.id ∈ KeyValueDB.idRange a b := by
        rw [hsplit]
        exact List.mem_append_right _ (List.mem_cons_of_mem _ hid)
      have hlt := (List.pairwise_cons.mp (List.pairwise_append.mp hascending).2.1).1 d.id hid
      exact hlast d hlogged hlt (KeyValueDB.mem_idRange.mp hmem).2
    rw [hsplit, List.filterMap_append, List.filterMap_cons_some (loggedAt_eq hids hc), List.append_cons,
      Journal.lastChange_append hlater, Journal.lastChange_concat, if_neg hne]
    rfl

/-! ## Increasing ids -/

/-- A value that no commit between two changed is the same after both. -/
theorem after_eq_after {fin : TrieKey → Option ByteVec} {d : Commit BasicId}
    (hlinked : Journal.Linked (fun c : Commit BasicId => c.before.tries) (fun c => c.after.tries) start past fin)
    (hascending : past.Pairwise fun c d => c.id < d.id) (hc : c ∈ past) (hd : d ∈ past) (hle : ¬ d.id < c.id) {key : TrieKey}
    (hsame : ∀ e ∈ past, c.id < e.id → ¬ d.id < e.id → e.before.tries key = e.after.tries key) :
    c.after.tries key = d.after.tries key := by
  obtain ⟨l₁, l₂, rfl⟩ := List.append_of_mem hc
  obtain ⟨-, htail, hcross⟩ := List.pairwise_append.mp hascending
  obtain ⟨hlater, hascending₂⟩ := List.pairwise_cons.mp htail
  have hd₂ : d = c ∨ d ∈ l₂ := by
    obtain h | h := List.mem_append.mp hd
    · exact absurd (hcross d h c List.mem_cons_self) hle
    · exact List.mem_cons.mp h
  obtain rfl | hd₂ := hd₂
  · rfl
  · obtain ⟨l₃, l₄, rfl⟩ := List.append_of_mem hd₂
    have hrest := hlinked.cut.2.cut.1
    refine hrest.unchanged fun e he => ?_
    have he₂ : e ∈ l₃ ++ d :: l₄ := by
      obtain he | he := List.mem_append.mp he
      · exact List.mem_append_left _ he
      · rw [List.mem_singleton.mp he]
        exact List.mem_append_right _ List.mem_cons_self
    have hde : ¬ d.id < e.id := by
      obtain he | he := List.mem_append.mp he
      · exact Std.Asymm.asymm _ _ ((List.pairwise_append.mp hascending₂).2.2 e he d List.mem_cons_self)
      · rw [List.mem_singleton.mp he]
        exact fun h => Std.Asymm.asymm _ _ h h
    exact hsame e (List.mem_append_right _ (List.mem_cons_of_mem _ he₂)) (hlater e he₂) hde

/-- With all logs kept and increasing ids, the value of a key in a transaction is that after the latest commit below the
id exactly if no commit from the base on and below the id changed the key. -/
theorem KeyValueDBConfig.TransactionOf.current_iff {snapshots : BTreeMap BasicId Columns} {cols fin : Columns}
    {base d : Commit BasicId} (h : config.TransactionOf past snapshots id cols base)
    (hlinked : Journal.Linked (fun c : Commit BasicId => c.before.tries) (fun c => c.after.tries) start past fin.tries)
    (hascending : past.Pairwise fun c d => c.id < d.id) (hlogs : config.maxSavedTrieLogs = none) (hd : d ∈ past) (hbelow : d.id < id)
    (hlatest : ∀ c ∈ past, c.id < id → ¬ d.id < c.id) (key : TrieKey) :
    cols.tries key = d.after.tries key ↔
      ∀ c ∈ past, ¬ c.id < base.id → c.id < id → c.before.tries key = c.after.tries key := by
  have hlogged (c : Commit BasicId) (hc : c ∈ past) : config.Logged past c := by
    obtain ⟨l₁, l₂, rfl⟩ := List.append_of_mem hc
    refine ⟨l₁, l₂, rfl, fun n hn => ?_⟩
    rw [hlogs] at hn
    cases hn
  constructor
  · intro heq
    -- the last of those that changed the key would have left it otherwise
    by_contra hchanged
    have hlast := mt (Journal.lastChange_eq_none_iff (fun c : Commit BasicId => c.before.tries) (fun c => c.after.tries)
      (past.filter fun c => ¬ c.id < base.id ∧ c.id < id) key).mp
      fun hsame => hchanged fun c hc ha hb => hsame c (List.mem_filter.mpr ⟨hc, decide_eq_true ⟨ha, hb⟩⟩)
    obtain ⟨c, hc⟩ := Option.ne_none_iff_exists'.mp hlast
    obtain ⟨l₁, l₂, hsplit, hne, hlater⟩ := Journal.lastChange_split hc
    have hmem (e : Commit BasicId) : e ∈ l₁ ++ c :: l₂ ↔ e ∈ past ∧ ¬ e.id < base.id ∧ e.id < id := by
      rw [← hsplit, List.mem_filter, decide_eq_true_eq]
    have hfiltered := hascending.filter fun c => ¬ c.id < base.id ∧ c.id < id
    rw [hsplit] at hfiltered
    obtain ⟨hcpast, ha, hb⟩ := (hmem c).mp (List.mem_append_right _ List.mem_cons_self)
    have hsame : ∀ e ∈ past, c.id < e.id → e.id < id → e.before.tries key = e.after.tries key := by
      intro e he hce heid
      have hebase : ¬ e.id < base.id := fun h => ha (Std.lt_trans hce h)
      obtain hl | hl := List.mem_append.mp ((hmem e).mpr ⟨he, hebase, heid⟩)
      · exact absurd hce (Std.Asymm.asymm _ _ ((List.pairwise_append.mp hfiltered).2.2 e hl c List.mem_cons_self))
      · obtain rfl | hl := List.mem_cons.mp hl
        · exact absurd hce fun h => Std.Asymm.asymm _ _ h h
        · exact hlater e hl
    have hafter : c.after.tries key = d.after.tries key :=
      after_eq_after hlinked hascending hcpast hd (hlatest c hcpast hb) fun e he hce hde =>
        hsame e he hce (UInt64.lt_of_le_of_lt (UInt64.not_lt.mp hde) hbelow)
    have hbefore := h.changed key c (hlogged c hcpast) ha hb hne fun e he hce heid => hsame e he.mem hce heid
    exact hne (hbefore.symm.trans (heq.trans hafter.symm))
  · intro hsame
    rw [h.unchanged key fun c hc ha hb => hsame c hc.mem ha hb]
    exact after_eq_after hlinked hascending h.mem hd (hlatest base h.mem h.below) fun e he hbe hde =>
      hsame e he (Std.Asymm.asymm _ _ hbe) (UInt64.lt_of_le_of_lt (UInt64.not_lt.mp hde) hbelow)

/-! ## Transactions -/

section

variable {DB T : Type} [BonsaiDatabase DB] [InfallibleDatabase DB] [Scans DB] [BonsaiPersistentDatabase DB BasicId T]
  [BonsaiDatabase T] [BatchWrites T] [KeepsSnapshots DB T] {kv : KeyValueDB DB BasicId} {limit : Option Nat}

/-- Where no snapshot is below the id there is no transaction; otherwise the transaction starts from the one with the
least id. -/
theorem KeyValueDB.getTransaction_ok (h : Archived config past start kv.columns)
    (hsnap : config.SnapshotsOf limit past (KeepsSnapshots.snapshots kv.db)) (hids : (past.map Commit.id).Nodup)
    (ords : BasicId → HashOrders) (id : BasicId) :
    (kv.getTransaction ords id : Except (Failure (BonsaiDatabase.DatabaseError T)) (Option T)) = .ok none ∧
        (∀ e ∈ KeepsSnapshots.snapshots kv.db, ¬ e.1 < id) ∨
      ∃ (txn : T) (base : Commit BasicId), kv.getTransaction ords id = .ok (some txn) ∧
        config.TransactionOf past (KeepsSnapshots.snapshots kv.db) id (BatchWrites.columns txn) base := by
  obtain ⟨taken, hsorted, hperm, hlatest⟩ := hsnap
  have hsuffix : KeepsSnapshots.snapshots kv.db <:+ taken := by
    rw [hlatest]
    cases limit with
    | none => exact List.suffix_rfl
    | some k => exact List.drop_suffix _ _
  have hsorted : (KeepsSnapshots.snapshots kv.db).Sorted := hsorted.sublist hsuffix.sublist
  have htransaction := KeepsSnapshots.transaction_eq kv.db id
  rw [KeyValueDB.getTransaction]
  cases hbase : BonsaiPersistentDatabase.transaction kv.db id with
  | none =>
    rw [hbase] at htransaction
    exact .inl ⟨rfl, (BTreeMap.rangeToNext_eq_none hsorted).mp htransaction.symm⟩
  | some e =>
    obtain ⟨baseId, txn₀⟩ := e
    rw [hbase] at htransaction
    obtain ⟨hmem, hlt, hleast⟩ := (BTreeMap.rangeToNext_eq_some hsorted).mp htransaction.symm
    obtain ⟨base, hpast, hentry⟩ := List.mem_map.mp (hperm.mem_iff.mp (hsuffix.mem hmem))
    have hpast := List.mem_of_mem_filter hpast
    obtain ⟨rfl, hafter⟩ := Prod.mk.inj hentry
    obtain ⟨txn, batch, hlogs, hp⟩ := h.applyIds_ok hids ords (KeyValueDB.idRange base.id id) txn₀
      (BonsaiDatabase.createBatch txn₀)
    rw [BatchWrites.pending_createBatch, ← hafter] at hp
    have hrun : ((KeyValueDB.idRange (Id.asU64 base.id) (Id.asU64 id)).forM fun curId =>
        KeyValueDB.applyLog kv (ords (Id.fromU64 curId)) (Id.fromU64 curId) : KeyValueDB.TxnM T Unit)
        (txn₀, BonsaiDatabase.createBatch txn₀) = .ok () (txn, batch) := hlogs
    obtain ⟨txn', hwrite, hcols⟩ := BatchWrites.writeBatch_eq txn batch
    rw [← hcols] at hp
    refine .inr ⟨txn', base, ?_, hpast, ?_, hlt, fun e he hbelow => ?_, fun key hsame => ?_, fun key c hc ha hb hne hlast => ?_⟩
    · simp only [hrun, hwrite]
    · rw [hafter]
      exact hmem
    · obtain rfl | hlt' := hleast e he
      · exact Std.Asymm.asymm _ _ hbelow hbelow
      · exact Std.Asymm.asymm _ _ hlt' hbelow
    · exact (congrFun hp key).trans ((foldl_undo_range hids base.after.tries key).1 hsame)
    · exact (congrFun hp key).trans ((foldl_undo_range hids base.after.tries key).2 c hc ha hb hne hlast)

end

/-! ## Runs -/

section

variable [FeltCodec] {DB T : Type} [BonsaiDatabase DB] [InfallibleDatabase DB] [AnswersOld DB] [Scans DB]
  [BonsaiPersistentDatabase DB BasicId T] [InfallibleSnapshots DB BasicId T] [BonsaiDatabase T] [BatchWrites T]
  [KeepsSnapshots DB T] (H : StarkHash) (m : UInt8) (hm : 0 < m.toNat) (db : DB)
  (hdb : ∀ key, InfallibleDatabase.columns db key = none) (hsnap : KeepsSnapshots.snapshots db = [])
  (config : BonsaiStorageConfig) (rs : List (Request BasicId)) (hrs : ∀ r ∈ rs, r.Aligned)

include hm hdb hsnap hrs in
/-- After a run whose commits have distinct ids, a transactional state for an id is a new storage over the transaction for
the id, and there is none exactly if no snapshot is kept that is below the id. -/
theorem transactionalState_eq (hids : (rs.filterMap Request.commitId).Nodup) (ords : BasicId → HashOrders) (id : BasicId)
    (config' : BonsaiStorageConfig) (st : BonsaiStorage DB BasicId)
    (hst : st = Trace.after (Request.run H) rs (BonsaiStorage.new db config m)) :
    (BonsaiStorage.getTransactionalState st ords id config' :
        Except (Failure (BonsaiDatabase.DatabaseError T)) (Option (BonsaiStorage T BasicId))) = .ok none ∧
        (∀ e ∈ KeepsSnapshots.snapshots st.db.db, ¬ e.1 < id) ∨
      ∃ (txn : T) (base : Commit BasicId), BonsaiStorage.getTransactionalState st ords id config' =
          .ok (some (.newFromTransactionalState txn config' st.maxHeight id)) ∧
        config.TransactionOf (Request.history H rs (BonsaiStorage.new db config m)) (KeepsSnapshots.snapshots st.db.db) id
          (BatchWrites.columns txn) base := by
  have h := SnapshotRep.of_new H m hm db hdb hsnap config rs hrs hids
  rw [← Request.ids_history (H := H) rs (BonsaiStorage.new db config m)] at hids
  rw [← hst] at h
  obtain ⟨hrun, hnone⟩ | ⟨txn, base, hrun, htxn⟩ := KeyValueDB.getTransaction_ok (T := T) h.history.archived h.snapshots hids ords id
  · refine .inl ⟨?_, hnone⟩
    rw [BonsaiStorage.getTransactionalState, hrun]
    rfl
  · refine .inr ⟨txn, base, ?_, htxn⟩
    rw [BonsaiStorage.getTransactionalState, hrun]
    rfl

include hm hdb hsnap hrs in
/-- With increasing ids, all logs kept and a commit that is the latest below an id, a transactional state for the id has the
content right after that commit exactly at the keys that no commit from the base of the state on and below the id has
changed. -/
theorem transactionalState_current_iff (hids : (rs.filterMap Request.commitId).Pairwise (· < ·))
    (hlogs : config.maxSavedTrieLogs = none) (ords : BasicId → HashOrders) (id : BasicId) (config' : BonsaiStorageConfig)
    (st : BonsaiStorage DB BasicId) (hst : st = Trace.after (Request.run H) rs (BonsaiStorage.new db config m))
    (st' : BonsaiStorage T BasicId) (hst' : BonsaiStorage.getTransactionalState st ords id config' = .ok (some st'))
    (d : Commit BasicId) (hd : d ∈ Request.history H rs (BonsaiStorage.new db config m)) (hbelow : d.id < id)
    (hlatest : ∀ c ∈ Request.history H rs (BonsaiStorage.new db config m), c.id < id → ¬ d.id < c.id) :
    ∃ base ∈ Request.history H rs (BonsaiStorage.new db config m), (base.id, base.after) ∈ KeepsSnapshots.snapshots st.db.db ∧
      base.id < id ∧ (∀ e ∈ KeepsSnapshots.snapshots st.db.db, ¬ e.1 < base.id) ∧
      ∀ key, (BatchWrites.columns st'.db.db).tries key = d.after.tries key ↔
        ∀ c ∈ Request.history H rs (BonsaiStorage.new db config m), ¬ c.id < base.id → c.id < id →
          c.before.tries key = c.after.tries key := by
  have hnodup : (rs.filterMap Request.commitId).Nodup := hids.imp fun {a b} hlt => by
    rintro rfl
    exact Std.Asymm.asymm a a hlt hlt
  have h := SnapshotRep.of_new H m hm db hdb hsnap config rs hrs hnodup
  have hascending : (Request.history H rs (BonsaiStorage.new db config m)).Pairwise fun c d => c.id < d.id := by
    rw [← Request.ids_history (H := H) rs (BonsaiStorage.new db config m), List.pairwise_map] at hids
    exact hids
  obtain ⟨hnone, -⟩ | ⟨txn, base, hrun, htxn⟩ :=
    transactionalState_eq (T := T) H m hm db hdb hsnap config rs hrs hnodup ords id config' st hst
  · rw [hnone] at hst'
    cases hst'
  · rw [hrun] at hst'
    obtain rfl := Option.some.inj (Except.ok.inj hst')
    exact ⟨base, htxn.mem, htxn.kept, htxn.below, htxn.least, fun key =>
      htxn.current_iff h.history.archived.linked hascending hlogs hd hbelow hlatest key⟩

end

/-- The log of the commit with id 3 has been pruned, and what it changed is as the snapshot has it. -/
theorem transactionalState_eq_apart :
    ∃ txn base, BonsaiStorage.getTransactionalState (Trace.after (Request.run fun a b => a + b) (writeApart ++ removeNext) oneLog)
        (fun _ _ => .listed) 4 ⟨none, none, 1⟩ = .ok (some (.newFromTransactionalState txn ⟨none, none, 1⟩
          (Trace.after (Request.run fun a b => a + b) (writeApart ++ removeNext) oneLog).maxHeight 4)) ∧
      KeyValueDBConfig.TransactionOf ⟨some 1, none, 1⟩
        (Request.history (fun a b => a + b) (writeApart ++ removeNext) oneLog)
        (KeepsSnapshots.snapshots (Trace.after (Request.run fun a b => a + b) (writeApart ++ removeNext) oneLog).db.db) 4
        (BatchWrites.columns txn) base := by
  have hsome : (BonsaiStorage.getTransactionalState (Trace.after (Request.run fun a b => a + b) (writeApart ++ removeNext)
      oneLog) (fun _ _ => .listed) 4 ⟨none, none, 1⟩).toOption.join.isSome := by
    decide +kernel
  have hst : Trace.after (Request.run fun a b => a + b) (writeApart ++ removeNext) oneLog =
      Trace.after (Request.run fun a b => a + b) (writeApart ++ removeNext)
        (BonsaiStorage.new (HashMapDb.empty : HashMapDb BasicId) ⟨some 1, none, 1⟩ 2) := by
    rw [oneLog, BonsaiStorage.newInMemory]
  generalize hafter : Trace.after (Request.run fun a b => a + b) (writeApart ++ removeNext) oneLog = st at hsome hst ⊢
  have h := transactionalState_eq (fun a b => a + b) 2 (by decide) HashMapDb.empty HashMapDb.columns_none
    HashMapDb.snapshots_empty ⟨some 1, none, 1⟩ (writeApart ++ removeNext) writeApart_aligned writeApart_ids
    (fun _ _ => .listed) 4 ⟨none, none, 1⟩ st hst
  rw [oneLog, BonsaiStorage.newInMemory]
  obtain ⟨hnone, -⟩ | h := h
  · rw [hnone] at hsome
    cases hsome
  · exact h

/-- Two commits, and a transactional state for an id above both. -/
theorem transactionalState_current_iff_apart :
    ∃ d ∈ Request.history (fun a b => a + b) writeApart (BonsaiStorage.newInMemory ⟨none, none, 1⟩ 2), d.id = 3 ∧
      ∃ st', BonsaiStorage.getTransactionalState (Trace.after (Request.run fun a b => a + b) writeApart
          (BonsaiStorage.newInMemory ⟨none, none, 1⟩ 2)) (fun _ _ => .listed) 4 ⟨none, none, 1⟩ = .ok (some st') ∧
        ∃ base ∈ Request.history (fun a b => a + b) writeApart (BonsaiStorage.newInMemory ⟨none, none, 1⟩ 2), base.id < 4 ∧
          ∀ key, (BatchWrites.columns st'.db.db).tries key = d.after.tries key ↔
            ∀ c ∈ Request.history (fun a b => a + b) writeApart (BonsaiStorage.newInMemory ⟨none, none, 1⟩ 2),
              ¬ c.id < base.id → c.id < 4 → c.before.tries key = c.after.tries key := by
  have haligned : ∀ r ∈ writeApart, r.Aligned := fun r hr => writeApart_aligned r (List.mem_append_left _ hr)
  have hids : (Request.history (fun a b => a + b) writeApart (BonsaiStorage.newInMemory ⟨none, none, 1⟩ 2)).map Commit.id =
      [1, 3] := Request.ids_history _ _
  have hthree : (3 : BasicId) ∈ (Request.history (fun a b => a + b) writeApart
      (BonsaiStorage.newInMemory ⟨none, none, 1⟩ 2)).map Commit.id := by
    rw [hids]
    decide
  obtain ⟨d, hd, hdid⟩ := List.mem_map.mp hthree
  have hsome : (BonsaiStorage.getTransactionalState (Trace.after (Request.run fun a b => a + b) writeApart
      (BonsaiStorage.newInMemory ⟨none, none, 1⟩ 2)) (fun _ _ => .listed) 4 ⟨none, none, 1⟩).toOption.join.isSome := by
    decide +kernel
  have hlatest : ∀ c ∈ Request.history (fun a b => a + b) writeApart (BonsaiStorage.newInMemory ⟨none, none, 1⟩ 2),
      c.id < 4 → ¬ d.id < c.id := by
    intro c hc _
    have hcid : c.id ∈ [(1 : BasicId), 3] := by
      rw [← hids]
      exact List.mem_map_of_mem hc
    rw [hdid]
    revert hcid
    generalize c.id = x
    revert x
    simp only [List.mem_cons, List.not_mem_nil, or_false, forall_eq_or_imp, forall_eq]
    decide
  rw [BonsaiStorage.newInMemory] at hd hsome hlatest ⊢
  generalize hst : Trace.after (Request.run fun a b => a + b) writeApart
    (BonsaiStorage.new (HashMapDb.empty : HashMapDb BasicId) ⟨none, none, 1⟩ 2) = st at hsome ⊢
  obtain ⟨st', hst'⟩ := Option.isSome_iff_exists.mp hsome
  have hrun : BonsaiStorage.getTransactionalState st (fun _ _ => .listed) 4 ⟨none, none, 1⟩ = .ok (some st') := by
    generalize BonsaiStorage.getTransactionalState st (fun _ _ => .listed) 4 ⟨none, none, 1⟩ = r at hst' ⊢
    cases r with
    | error e => cases hst'
    | ok o =>
      obtain rfl : o = some st' := hst'
      rfl
  obtain ⟨base, hbase, -, hbelow, -, hkeys⟩ := transactionalState_current_iff (fun a b => a + b) 2 (by decide) HashMapDb.empty
    HashMapDb.columns_none HashMapDb.snapshots_empty ⟨none, none, 1⟩ writeApart haligned
    (by show [(1 : UInt64), 3].Pairwise (· < ·); decide) rfl (fun _ _ => .listed) 4 ⟨none, none, 1⟩ st hst.symm st' hrun
    d hd (by rw [hdid]; decide) hlatest
  exact ⟨d, hd, hdid, st', hrun, base, hbase, hbelow, hkeys⟩

end Bonsai
