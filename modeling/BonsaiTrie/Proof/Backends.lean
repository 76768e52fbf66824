import BonsaiTrie.Proof.LeafStore
import BonsaiTrie.Proof.RocksDbStore

/-!
# What depends on the backend

Of all that a run of requests leaves behind, only how many snapshots there are
depends on the backend, and by it for which ids there are transactional states
(`transactionalState_isSome_iff`). Two backends with the same limit cannot be
told apart (`backends_agree`).
-/

namespace Bonsai

open Patricia Run

/-! ## For which ids there is a transactional state -/

section

variable [FeltCodec] {DB T : Type} [BonsaiDatabase DB] [InfallibleDatabase DB] [AnswersOld DB] [Scans DB]
  [BonsaiPersistentDatabase DB BasicId T] [InfallibleSnapshots DB BasicId T] [BonsaiDatabase T] [BatchWrites T]
  [KeepsSnapshots DB T] (H : StarkHash) (m : UInt8) (hm : 0 < m.toNat) (db : DB)
  (hdb : ∀ key, InfallibleDatabase.columns db key = none) (hsnap : KeepsSnapshots.snapshots db = [])
  (config : BonsaiStorageConfig) (rs : List (Request BasicId)) (hrs : ∀ r ∈ rs, r.Aligned)

include hm hdb hsnap hrs in
/-- There is a transactional state for an id exactly if a commit of a lower id took a snapshot and, should the backend have
a limit, fewer commits than that took one from the id on. -/
theorem transactionalState_isSome_iff (hids : (rs.filterMap Request.commitId).Nodup) (ords : BasicId → HashOrders) (id : BasicId)
    (config' : BonsaiStorageConfig) (st : BonsaiStorage DB BasicId)
    (hst : st = Trace.after (Request.run H) rs (BonsaiStorage.new db config m)) :
    (∃ st' : BonsaiStorage T BasicId, BonsaiStorage.getTransactionalState st ords id config' = .ok (some st')) ↔
      (∃ i ∈ rs.filterMap Request.commitId, config.TakesSnapshot i ∧ i < id) ∧
        ∀ n, KeepsSnapshots.limit db = some n →
          ((rs.filterMap Request.commitId).filter fun i => config.TakesSnapshot i ∧ ¬ i < id).length < n := by
  obtain ⟨taken, hsorted, hperm, hlatest⟩ := snapshots_taken H m hm db hdb hsnap config rs hrs hids
  rw [← hst] at hlatest
  -- a state is made from a snapshot below the id
  have hbase : (∃ st' : BonsaiStorage T BasicId, BonsaiStorage.getTransactionalState st ords id config' = .ok (some st')) ↔
      ∃ e ∈ KeepsSnapshots.snapshots st.db.db, e.1 < id := by
    obtain ⟨hrun, hnone⟩ | ⟨txn, base, hrun, htxn⟩ :=
      transactionalState_eq H m hm db hdb hsnap config rs hrs hids ords id config' st hst
    · rw [hrun]
      exact ⟨fun ⟨st', h⟩ => absurd (Except.ok.inj h).symm (Option.some_ne_none st'), fun ⟨e, he, hlt⟩ => absurd hlt (hnone e he)⟩
    · exact ⟨fun _ => ⟨_, htxn.kept, htxn.below⟩, fun _ => ⟨_, hrun⟩⟩
  rw [hbase, hlatest, BTreeMap.exists_latest_lt hsorted, ← Request.ids_history (H := H) rs (BonsaiStorage.new db config m)]
  refine and_congr ⟨fun ⟨e, he, hlt⟩ => ?_, fun ⟨i, hi, htakes, hlt⟩ => ?_⟩ (forall₂_congr fun n _ => ?_)
  · obtain ⟨c, hc, rfl⟩ := List.mem_map.mp (hperm.mem_iff.mp he)
    obtain ⟨hc, htakes⟩ := List.mem_filter.mp hc
    exact ⟨c.id, List.mem_map_of_mem hc, of_decide_eq_true htakes, hlt⟩
  · obtain ⟨c, hc, rfl⟩ := List.mem_map.mp hi
    exact ⟨(c.id, c.after), hperm.mem_iff.mpr (List.mem_map_of_mem (List.mem_filter.mpr ⟨hc, decide_eq_true htakes⟩)), hlt⟩
  · rw [(hperm.filter _).length_eq, List.filter_map, List.filter_map, List.filter_filter, List.length_map, List.length_map]
    simp only [Function.comp_def, Bool.decide_and, Bool.and_comm]

end

/-- With one snapshot saved, the one of the commit with id 1 is gone, so that there is no state for id 3. -/
theorem transactionalState_isSome_iff_limited :
    ¬ ∃ st' : BonsaiStorage (RocksDBTransaction MemoryDb) BasicId,
      BonsaiStorage.getTransactionalState (Trace.after (Request.run fun a b => a + b) writeApart
        (BonsaiStorage.new (RocksDB.new ⟨∅⟩ (some 1) : RocksDB MemoryDb BasicId) ⟨none, none, 1⟩ 2))
          (fun _ _ => .listed) 3 ⟨none, none, 1⟩ = .ok (some st') := by
  intro h
  have haligned : ∀ r ∈ writeApart, r.Aligned := fun r hr => writeApart_aligned r (List.mem_append_left _ hr)
  have hids : writeApart.filterMap Request.commitId = [1, 3] := rfl
  have hiff := transactionalState_isSome_iff (fun a b => a + b) 2 (by decide) (RocksDB.new ⟨∅⟩ (some 1) : RocksDB MemoryDb BasicId)
    (fun _ => rfl) rfl ⟨none, none, 1⟩ writeApart haligned (by rw [hids]; decide) (fun _ _ => .listed) 3 ⟨none, none, 1⟩ _ rfl
  have hcount := (hiff.mp h).2 1 rfl
  rw [hids] at hcount
  revert hcount
  decide

/-! ## Two backends -/

theorem BTreeMap.Sorted.eq_of_perm {K V : Type} [LE K] [LT K] [Std.IsLinearOrder K] [Std.LawfulOrderLT K]
    {s s' : BTreeMap K V} (hs : s.Sorted) (hs' : s'.Sorted) (h : s.Perm s') : s = s' :=
  h.eq_of_pairwise (fun _ _ _ _ hlt hgt => absurd hgt (Std.Asymm.asymm _ _ hlt)) hs hs'

/-- The commits that take snapshots and the limit determine the snapshots. -/
theorem KeyValueDBConfig.SnapshotsOf.unique {config : KeyValueDBConfig} {limit : Option Nat} {past : List (Commit BasicId)}
    {s s' : BTreeMap BasicId Columns} (h : config.SnapshotsOf limit past s) (h' : config.SnapshotsOf limit past s') : s = s' := by
  obtain ⟨taken, hsorted, hperm, rfl⟩ := h
  obtain ⟨taken', hsorted', hperm', rfl⟩ := h'
  rw [hsorted.eq_of_perm hsorted' (hperm.trans hperm'.symm)]

/-- The history and the snapshots determine the nodes and leaves of a transactional state. -/
theorem KeyValueDBConfig.TransactionOf.unique {config : KeyValueDBConfig} {past : List (Commit BasicId)}
    {snapshots : BTreeMap BasicId Columns} {id : BasicId} {cols cols' : Columns} {base base' : Commit BasicId}
    (hids : (past.map Commit.id).Nodup) (h : config.TransactionOf past snapshots id cols base)
    (h' : config.TransactionOf past snapshots id cols' base') : cols.tries = cols'.tries := by
  -- both are made from the snapshot with the least id
  have hbase : base.id = base'.id :=
    Std.Trichotomous.trichotomous _ _ (h'.least _ h.kept) (h.least _ h'.kept)
  obtain rfl : base = base' := List.inj_on_of_nodup_map hids h.mem h'.mem hbase
  funext key
  classical
  by_cases hchanged : ∃ c, config.Logged past c ∧ ¬ c.id < base.id ∧ c.id < id ∧ c.before.tries key ≠ c.after.tries key
  · -- the last one that changed the key
    have hne : (past.filter fun c => config.Logged past c ∧ ¬ c.id < base.id ∧ c.id < id ∧
        c.before.tries key ≠ c.after.tries key) ≠ [] := by
      obtain ⟨c, hc⟩ := hchanged
      exact List.ne_nil_of_mem (List.mem_filter.mpr ⟨hc.1.mem, decide_eq_true hc⟩)
    obtain ⟨c, hc⟩ := Option.ne_none_iff_exists'.mp (mt (List.argmax_eq_none (f := fun c : Commit BasicId => c.id.toNat)).mp hne)
    have hmax : ∀ c', config.Logged past c' → c.id < c'.id → c'.id < id → c'.before.tries key = c'.after.tries key := by
      intro c' hc' hlt hid
      by_contra hne'
      have hcbase := (of_decide_eq_true (List.mem_filter.mp (List.argmax_mem hc)).2).2.1
      have hle := List.le_of_mem_argmax (List.mem_filter.mpr ⟨hc'.mem, decide_eq_true ⟨hc', fun h => hcbase (Std.lt_trans hlt h),
        hid, hne'⟩⟩) hc
      exact absurd (UInt64.lt_iff_toNat_lt.mp hlt) (by omega)
    obtain ⟨hlogged, hcbase, hid, hne'⟩ := of_decide_eq_true (List.mem_filter.mp (List.argmax_mem hc)).2
    exact (h.changed key c hlogged hcbase hid hne' hmax).trans (h'.changed key c hlogged hcbase hid hne' hmax).symm
  · have hsame : ∀ c, config.Logged past c → ¬ c.id < base.id → c.id < id → c.before.tries key = c.after.tries key := by
      intro c hc hcbase hid
      by_contra hne
      exact hchanged ⟨c, hc, hcbase, hid, hne⟩
    exact (h.unchanged key hsame).trans (h'.unchanged key hsame).symm

section

variable [FeltCodec] {DB T : Type} [BonsaiDatabase DB] [InfallibleDatabase DB] [AnswersOld DB] [BonsaiPersistentDatabase DB BasicId T]
  [InfallibleSnapshots DB BasicId T] {DB' T' : Type} [BonsaiDatabase DB'] [InfallibleDatabase DB'] [AnswersOld DB']
  [BonsaiPersistentDatabase DB' BasicId T'] [InfallibleSnapshots DB' BasicId T'] {H : StarkHash} {m : UInt8} {l : LeafStore}

/-- Two storages that have the content of one store have the same history. -/
theorem StoreRep.history_eq {st : BonsaiStorage DB BasicId} {st' : BonsaiStorage DB' BasicId} (h : StoreRep H m st l)
    (h' : StoreRep H m st' l) (hm : 0 < m.toNat) {rs : List (Request BasicId)} (hrs : ∀ r ∈ rs, r.Aligned) :
    Request.history H rs st = Request.history H rs st' := by
  induction rs generalizing st st' l with
  | nil => rfl
  | cons r rs ih =>
    obtain ⟨hr, hrest⟩ := List.forall_mem_cons.mp hrs
    have hnext := (h.request hm hr).2
    have hnext' := (h'.request hm hr).2
    have hbefore : st.db.columns = st'.db.columns := h.columns.trans h'.columns.symm
    have hafter := hnext.columns.trans hnext'.columns.symm
    rw [Request.history, Request.history, ih hnext hnext' hrest, hbefore, hafter]

variable [Scans DB] [BonsaiDatabase T] [BatchWrites T] [KeepsSnapshots DB T] [Scans DB'] [BonsaiDatabase T'] [BatchWrites T']
  [KeepsSnapshots DB' T']

variable (H) in
/-- Two backends with the same limit cannot be told apart: a run is answered the same over both, and leaves the same content
and the same snapshots, and a transactional state for an id is there over both or over neither, with the same nodes and
leaves. -/
theorem backends_agree (m : UInt8) (hm : 0 < m.toNat) (db : DB) (hdb : ∀ key, InfallibleDatabase.columns db key = none)
    (hsnap : KeepsSnapshots.snapshots db = []) (db' : DB') (hdb' : ∀ key, InfallibleDatabase.columns db' key = none)
    (hsnap' : KeepsSnapshots.snapshots db' = []) (hlimit : KeepsSnapshots.limit db = KeepsSnapshots.limit db')
    (config : BonsaiStorageConfig) (rs : List (Request BasicId)) (hrs : ∀ r ∈ rs, r.Aligned)
    (hids : (rs.filterMap Request.commitId).Nodup) (st : BonsaiStorage DB BasicId) (st' : BonsaiStorage DB' BasicId)
    (hst : st = Trace.after (Request.run H) rs (BonsaiStorage.new db config m))
    (hst' : st' = Trace.after (Request.run H) rs (BonsaiStorage.new db' config m)) :
    (∃ answers : List (Except Refusal (Option Felt)),
        Trace.answers (Request.run H) rs (BonsaiStorage.new db config m) = answers.map (Except.mapError Refusal.failure) ∧
        Trace.answers (Request.run H) rs (BonsaiStorage.new db' config m) = answers.map (Except.mapError Refusal.failure)) ∧
      st.db.columns = st'.db.columns ∧ KeepsSnapshots.snapshots st.db.db = KeepsSnapshots.snapshots st'.db.db ∧
      ∀ (ords ords' : BasicId → HashOrders) (id : BasicId) (config' : BonsaiStorageConfig),
        BonsaiStorage.getTransactionalState (T := T) st ords id config' = .ok none ∧
            BonsaiStorage.getTransactionalState (T := T') st' ords' id config' = .ok none ∨
          ∃ (txn : T) (txn' : T'),
            BonsaiStorage.getTransactionalState st ords id config' =
                .ok (some (.newFromTransactionalState txn config' st.maxHeight id)) ∧
              BonsaiStorage.getTransactionalState st' ords' id config' =
                .ok (some (.newFromTransactionalState txn' config' st'.maxHeight id)) ∧
              (BatchWrites.columns txn).tries = (BatchWrites.columns txn').tries := by
  have hnew : StoreRep H m (BonsaiStorage.new db config m) (.empty config) := .new hdb config m
  have hnew' : StoreRep H m (BonsaiStorage.new db' config m) (.empty config) := .new hdb' config m
  obtain ⟨hR, hanswers⟩ := hnew.requests hm hrs
  obtain ⟨hR', hanswers'⟩ := hnew'.requests hm hrs
  have hhistory := hnew.history_eq hnew' hm hrs
  have hsnapshots := snapshots_taken H m hm db hdb hsnap config rs hrs hids
  have hsnapshots' := snapshots_taken H m hm db' hdb' hsnap' config rs hrs hids
  rw [← hlimit, ← hhistory] at hsnapshots'
  have hsame := hsnapshots.unique hsnapshots'
  rw [← hst, ← hst'] at hsame
  refine ⟨⟨_, hanswers, hanswers'⟩, ?_, hsame, fun ords ords' id config' => ?_⟩
  · rw [hst, hst']
    exact hR.columns.trans hR'.columns.symm
  · obtain ⟨hrun, hnone⟩ | ⟨txn, base, hrun, htxn⟩ :=
      transactionalState_eq (T := T) H m hm db hdb hsnap config rs hrs hids ords id config' st hst
    · obtain ⟨hrun', -⟩ | ⟨txn', base', -, htxn'⟩ :=
        transactionalState_eq (T := T') H m hm db' hdb' hsnap' config rs hrs hids ords' id config' st' hst'
      · exact .inl ⟨hrun, hrun'⟩
      · rw [← hsame] at htxn'
        exact absurd htxn'.below (hnone _ htxn'.kept)
    · obtain ⟨-, hnone'⟩ | ⟨txn', base', hrun', htxn'⟩ :=
        transactionalState_eq (T := T') H m hm db' hdb' hsnap' config rs hrs hids ords' id config' st' hst'
      · rw [← hsame] at hnone'
        exact absurd htxn.below (hnone' _ htxn.kept)
      · rw [← hsame, ← hhistory] at htxn'
        rw [← Request.ids_history (H := H) rs (BonsaiStorage.new db config m)] at hids
        exact .inr ⟨txn, txn', hrun, hrun', htxn.unique hids htxn'⟩

end

/-- Memory and RocksDB without a limit. -/
theorem backends_agree_apart :
    (Trace.after (Request.run fun a b => a + b) (writeApart ++ removeNext)
          (BonsaiStorage.new (HashMapDb.empty : HashMapDb BasicId) ⟨some 1, none, 1⟩ 2)).db.columns =
        (Trace.after (Request.run fun a b => a + b) (writeApart ++ removeNext)
          (BonsaiStorage.new (RocksDB.new ⟨∅⟩ none : RocksDB MemoryDb BasicId) ⟨some 1, none, 1⟩ 2)).db.columns ∧
      KeepsSnapshots.snapshots (Trace.after (Request.run fun a b => a + b) (writeApart ++ removeNext)
          (BonsaiStorage.new (HashMapDb.empty : HashMapDb BasicId) ⟨some 1, none, 1⟩ 2)).db.db =
        KeepsSnapshots.snapshots (Trace.after (Request.run fun a b => a + b) (writeApart ++ removeNext)
          (BonsaiStorage.new (RocksDB.new ⟨∅⟩ none : RocksDB MemoryDb BasicId) ⟨some 1, none, 1⟩ 2)).db.db := by
  obtain ⟨-, hcols, hsnapshots, -⟩ := backends_agree (fun a b => a + b) 2 (by decide) (HashMapDb.empty : HashMapDb BasicId)
    HashMapDb.columns_none HashMapDb.snapshots_empty (RocksDB.new ⟨∅⟩ none : RocksDB MemoryDb BasicId) (fun _ => rfl) rfl rfl
    ⟨some 1, none, 1⟩ (writeApart ++ removeNext) writeApart_aligned writeApart_ids _ _ rfl rfl
  exact ⟨hcols, hsnapshots⟩

end Bonsai
