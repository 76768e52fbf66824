import BonsaiTrie.Framework.Consecutive
import BonsaiTrie.Proof.Undo

/-!
# Ids from a builder

A builder gives the ids from its last one on, without gaps (`newIds_ok`). In a
run whose commits have their ids from a builder, a later commit is as many ids
later as it is commits later, so that the logs that are kept are those of the
last commits, as many as logs are saved (`lastLogs_kept`), and these commits can
be undone (`lastLogs_revert`).
-/

namespace Bonsai

open Run

/-! ## The builder -/

namespace BasicIdBuilder

variable {E : Type} {builder builder' : BasicIdBuilder} {id : BasicId} {ids : List BasicId} {k : Nat}

theorem checkedSucc_eq_some {a b : UInt64} (h : checkedSucc a = some b) : b.toNat = a.toNat + 1 := by
  rw [checkedSucc] at h
  split at h
  · cases h
  · rename_i hne
    obtain rfl := Option.some.inj h
    have hle := a.toNat_lt
    have hne : (a + 1).toNat ≠ 0 := fun h0 => hne (UInt64.toNat_inj.mp h0)
    rw [UInt64.toNat_add, UInt64.toNat_one] at hne ⊢
    omega

theorem newId_ok (h : (newId : EStateM (Failure E) BasicIdBuilder BasicId) builder = .ok id builder') :
    id = builder.lastId ∧ builder'.lastId.toNat = builder.lastId.toNat + 1 := by
  rw [newId] at h
  split at h
  · rename_i hsucc
    cases h
    exact ⟨rfl, checkedSucc_eq_some hsucc⟩
  · cases h

theorem newId_isOk (h : builder.lastId.toNat + 1 < 2 ^ 64) :
    ∃ builder', (newId : EStateM (Failure E) BasicIdBuilder BasicId) builder = .ok builder.lastId builder' := by
  have hne : ¬ builder.lastId + 1 = 0 := by
    intro hzero
    have hzero := congrArg UInt64.toNat hzero
    rw [UInt64.toNat_add, UInt64.toNat_one, UInt64.toNat_zero] at hzero
    omega
  rw [newId, checkedSucc, if_neg hne]
  exact ⟨_, rfl⟩

/-- The ids are those from the last one of the builder on. -/
theorem newIds_ok (h : (newIds k : EStateM (Failure E) BasicIdBuilder (List BasicId)) builder = .ok ids builder') :
    ids.map UInt64.toNat = List.range' builder.lastId.toNat ids.length := by
  induction k generalizing builder ids with
  | zero => cases h; rfl
  | succ k ih =>
    obtain ⟨id, b₁, hid, h⟩ := bind_eq_ok h
    obtain ⟨rest, b₂, hrest, h⟩ := bind_eq_ok h
    obtain ⟨rfl, hnext⟩ := newId_ok hid
    cases h
    rw [List.map_cons, ih hrest, hnext, List.length_cons, List.range'_succ]

/-- The builder gives ids until the last one would be past `u64`. -/
theorem newIds_isOk_iff :
    (∃ ids builder', (newIds k : EStateM (Failure E) BasicIdBuilder (List BasicId)) builder = .ok ids builder') ↔
      builder.lastId.toNat + k < 2 ^ 64 := by
  have hlt := builder.lastId.toNat_lt
  induction k generalizing builder with
  | zero => exact iff_of_true ⟨[], builder, rfl⟩ hlt
  | succ k ih =>
    constructor
    · rintro ⟨ids, builder', h⟩
      obtain ⟨id, b₁, hid, h⟩ := bind_eq_ok h
      obtain ⟨rest, b₂, hrest, -⟩ := bind_eq_ok h
      obtain ⟨-, hnext⟩ := newId_ok hid
      have hk := (ih b₁.lastId.toNat_lt).mp ⟨rest, b₂, hrest⟩
      omega
    · intro hk
      obtain ⟨b₁, hid⟩ : ∃ b₁, (newId : EStateM (Failure E) BasicIdBuilder BasicId) builder = .ok builder.lastId b₁ :=
        newId_isOk (by omega)
      obtain ⟨-, hnext⟩ := newId_ok hid
      obtain ⟨rest, b₂, hrest⟩ := (ih b₁.lastId.toNat_lt).mpr (by omega)
      exact ⟨_, b₂, (bind_ok hid _).trans (bind_ok hrest _)⟩

end BasicIdBuilder

/-! ## The logs of the last commits -/

namespace KeyValueDBConfig

variable {config : KeyValueDBConfig} {past past' : List (Commit BasicId)} {c : Commit BasicId}

/-- With consecutive ids, the commits whose logs are kept are the last ones. -/
theorem logged_iff_of_consecutive (h : Consecutive UInt64.toNat (past.map Commit.id)) :
    config.Logged past c ↔ c ∈ config.lastCommits past := by
  rw [Logged, lastCommits]
  cases hmax : config.maxSavedTrieLogs with
  | none =>
    have hkeep (later : List (Commit BasicId)) : config.KeepsLog c.id (later.map Commit.id) := by
      intro n hn
      rw [hmax] at hn
      cases hn
    simp [hkeep, List.mem_iff_append]
  | some n =>
    show _ ↔ c ∈ past.rtake n.toNat
    have hkeep (later : List (Commit BasicId)) : config.KeepsLog c.id (later.map Commit.id) ↔
        n ≠ 0 ∧ ∀ d ∈ later, d.id.toNat ≠ c.id.toNat + n.toNat := by
      rw [KeepsLog, hmax]
      simp
    by_cases hzero : n = 0
    · -- no logs are saved
      rw [hzero, UInt64.toNat_zero, List.rtake_zero]
      simp [hkeep, hzero]
    · have hpos : 0 < n.toNat := Nat.pos_of_ne_zero fun h0 => hzero (UInt64.toNat_inj.mp (h0.trans UInt64.toNat_zero.symm))
      rw [(Consecutive.map.mp h).mem_rtake_iff hpos]
      simp only [hkeep, ne_eq, hzero, not_false_eq_true, true_and]

/-- Commits that are not more than logs are saved are among the last ones. -/
theorem mem_lastCommits_append (h : ∀ n, config.maxSavedTrieLogs = some n → past'.length ≤ n.toNat) (hc : c ∈ past') :
    c ∈ config.lastCommits (past ++ past') := by
  rw [lastCommits]
  cases hmax : config.maxSavedTrieLogs with
  | none => exact List.mem_append_right _ hc
  | some n =>
    obtain ⟨l₁, l₂, rfl⟩ := List.append_of_mem hc
    have hlen := h n hmax
    rw [List.length_append, List.length_cons] at hlen
    exact Consecutive.mem_rtake_iff_append.mpr ⟨past ++ l₁, l₂, (List.append_assoc _ _ _).symm, by omega⟩

end KeyValueDBConfig

section

variable [FeltCodec] {DB T E : Type} [BonsaiDatabase DB] [InfallibleDatabase DB] [AnswersOld DB]
  [BonsaiPersistentDatabase DB BasicId T] [InfallibleSnapshots DB BasicId T]
  (H : StarkHash) (m : UInt8) (hm : 0 < m.toNat) (db : DB) (hdb : ∀ key, InfallibleDatabase.columns db key = none)
  (config : BonsaiStorageConfig)

include hm hdb in
/-- After a run whose commits have their ids from a builder, the log column has the entries of the last
commits, as many as logs are saved, and no others. -/
theorem lastLogs_kept (builder builder' : BasicIdBuilder) (rs : List (Request BasicId)) (hrs : ∀ r ∈ rs, r.Aligned)
    (hids : (BasicIdBuilder.newIds (rs.filterMap Request.commitId).length : EStateM (Failure E) BasicIdBuilder (List BasicId))
      builder = .ok (rs.filterMap Request.commitId) builder') (b v : ByteVec) :
    (Trace.after (Request.run H) rs (BonsaiStorage.new db config m)).db.columns (.trieLog b) = some v ↔
      ∃ c ∈ config.lastCommits (Request.history H rs (BonsaiStorage.new db config m)), c.HasEntry b v := by
  have hnext : Consecutive UInt64.toNat (rs.filterMap Request.commitId) := ⟨_, BasicIdBuilder.newIds_ok hids⟩
  have hrep := HistoryRep.of_new H m hm db hdb config rs hrs hnext.nodup
  rw [← Request.ids_history (H := H) rs (BonsaiStorage.new db config m)] at hnext
  rw [hrep.archived.log b v]
  exact exists_congr fun c => and_congr_left fun _ => KeyValueDBConfig.logged_iff_of_consecutive hnext

variable [Scans DB] [BonsaiDatabase T] [BatchWrites T]

include hm hdb in
/-- The logs of the last commits, as many as logs are saved, lead from the nodes and leaves after the run back to those
before these commits. -/
theorem lastLogs_revert (builder builder' : BasicIdBuilder) (rs rs' : List (Request BasicId)) (hrs : ∀ r ∈ rs ++ rs', r.Aligned)
    (hids : (BasicIdBuilder.newIds ((rs ++ rs').filterMap Request.commitId).length :
      EStateM (Failure E) BasicIdBuilder (List BasicId)) builder = .ok ((rs ++ rs').filterMap Request.commitId) builder')
    (hlast : ∀ n, config.maxSavedTrieLogs = some n → (rs'.filterMap Request.commitId).length ≤ n.toNat)
    (ords : BasicId → HashOrders) (txn : T) (batch : BonsaiDatabase.Batch T)
    (htxn : (BatchWrites.pending txn batch).tries =
      (Trace.after (Request.run H) (rs ++ rs') (BonsaiStorage.new db config m)).db.columns.tries) :
    ∃ txn' batch', ((rs'.filterMap Request.commitId).reverse.forM fun id =>
        KeyValueDB.applyLog (Trace.after (Request.run H) (rs ++ rs') (BonsaiStorage.new db config m)).db (ords id) id :
          KeyValueDB.TxnM T Unit) (txn, batch) = .ok () (txn', batch') ∧
      (BatchWrites.pending txn' batch').tries =
        (Trace.after (Request.run H) rs (BonsaiStorage.new db config m)).db.columns.tries := by
  have hnext : Consecutive UInt64.toNat ((rs ++ rs').filterMap Request.commitId) := ⟨_, BasicIdBuilder.newIds_ok hids⟩
  have hnodup := hnext.nodup
  have h := (HistoryRep.of_new H m hm db hdb config (rs ++ rs') hrs hnodup).archived
  have hbefore : (rs.filterMap Request.commitId).Nodup := by
    rw [List.filterMap_append] at hnodup
    exact hnodup.of_append_left
  have h₁ := (HistoryRep.of_new H m hm db hdb config rs (fun r hr => hrs r (List.mem_append_left _ hr)) hbefore).archived
  rw [← Request.ids_history (H := H) (rs ++ rs') (BonsaiStorage.new db config m), Request.history_append] at hnext
  rw [Request.history_append] at h
  rw [← Request.ids_history (H := H) rs' (Trace.after (Request.run H) rs (BonsaiStorage.new db config m))] at hlast ⊢
  rw [List.length_map] at hlast
  have hkept (c : Commit BasicId)
      (hc : c ∈ Request.history H rs' (Trace.after (Request.run H) rs (BonsaiStorage.new db config m))) :
      config.Logged (Request.history H rs (BonsaiStorage.new db config m) ++
        Request.history H rs' (Trace.after (Request.run H) rs (BonsaiStorage.new db config m))) c :=
    (KeyValueDBConfig.logged_iff_of_consecutive hnext).mpr (KeyValueDBConfig.mem_lastCommits_append hlast hc)
  obtain ⟨txn', batch', hrun, hp⟩ := h.revert_ok h₁ hnext.nodup hkept ords txn batch htxn
  refine ⟨txn', batch', ?_, hp⟩
  rw [← List.map_reverse, List.forM_eq_forM, List.forM_map]
  exact hrun

end

/-- A key, with the first id. -/
def writeFirst : List (Request BasicId) := [.set (.aligned [true, false]) 1, .commit (fun _ => .listed) .listed 0]

/-- Another key, with the next id. -/
def writeSecond : List (Request BasicId) := [.set (.aligned [true, true]) 2, .commit (fun _ => .listed) .listed 1]

theorem writeSecond_aligned : ∀ r ∈ writeFirst ++ writeSecond, r.Aligned := by
  intro r hr
  simp only [writeFirst, writeSecond, List.cons_append, List.nil_append, List.mem_cons, List.not_mem_nil, or_false] at hr
  rcases hr with rfl | rfl | rfl | rfl
  all_goals rw [Request.Aligned]; decide

theorem newIds_writeSecond :
    (BasicIdBuilder.newIds ((writeFirst ++ writeSecond).filterMap Request.commitId).length :
      EStateM (Failure HashMapDbError) BasicIdBuilder (List BasicId)) .new =
        .ok ((writeFirst ++ writeSecond).filterMap Request.commitId) ⟨2⟩ := rfl

/-- One log is saved: that of id 1 is there, and that of id 0 is not. -/
theorem lastLogs_kept_second :
    (∃ c ∈ KeyValueDBConfig.lastCommits ⟨some 1, none, 1⟩
          (Request.history (fun a b => a + b) (writeFirst ++ writeSecond) oneLog),
        c.HasEntry (keyNewValue (1 : BasicId) (.flat [2, 0xc0])) (FeltCodec.encode 2)) ∧
      ¬ ∃ c ∈ KeyValueDBConfig.lastCommits ⟨some 1, none, 1⟩
          (Request.history (fun a b => a + b) (writeFirst ++ writeSecond) oneLog),
        c.HasEntry (keyNewValue (0 : BasicId) (.flat [2, 0x80])) (FeltCodec.encode 1) := by
  constructor
  · exact (lastLogs_kept (fun a b => a + b) 2 (by decide) HashMapDb.empty HashMapDb.columns_none ⟨some 1, none, 1⟩ .new ⟨2⟩
      (writeFirst ++ writeSecond) writeSecond_aligned newIds_writeSecond _ _).mp (by decide +kernel)
  · refine mt (lastLogs_kept (fun a b => a + b) 2 (by decide) HashMapDb.empty HashMapDb.columns_none ⟨some 1, none, 1⟩ .new ⟨2⟩
      (writeFirst ++ writeSecond) writeSecond_aligned newIds_writeSecond _ _).mpr ?_
    decide +kernel

/-- The last commit is undone. -/
theorem lastLogs_revert_second :
    ∃ txn' batch', ((writeSecond.filterMap Request.commitId).reverse.forM fun id =>
        KeyValueDB.applyLog (Trace.after (Request.run fun a b => a + b) (writeFirst ++ writeSecond) oneLog).db
          (fun _ => .listed) id : KeyValueDB.TxnM (HashMapDb BasicId) Unit)
        ((Trace.after (Request.run fun a b => a + b) (writeFirst ++ writeSecond) oneLog).db.db, ()) = .ok () (txn', batch') ∧
      (BatchWrites.pending txn' batch').tries =
        (Trace.after (Request.run fun a b => a + b) writeFirst oneLog).db.columns.tries := by
  refine lastLogs_revert (fun a b => a + b) 2 (by decide) HashMapDb.empty HashMapDb.columns_none ⟨some 1, none, 1⟩ .new ⟨2⟩
    writeFirst writeSecond writeSecond_aligned newIds_writeSecond (fun n hn => ?last) (fun _ _ => .listed)
    (Trace.after (Request.run fun a b => a + b) (writeFirst ++ writeSecond) oneLog).db.db () ?same
  case last =>
    obtain rfl := Option.some.inj hn
    decide
  case same => exact congrArg Columns.tries (HashMapDb.pending_eq _)

end Bonsai
