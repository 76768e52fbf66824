import BonsaiTrie.Proof.Content
import BonsaiTrie.Proof.LogFormat
import BonsaiTrie.Spec.Enumeration
import BonsaiTrie.Spec.History

/-!
# The logs of a run

What a commit does to the log column (`KeyValueDB.Records.logged_iff`), and
with it what a run does (`Archived.step`): the log column has the entries of
the commits whose logs are kept and no others, and the contents of the commits
are linked.
-/

namespace Bonsai

open Patricia Run

/-! ## Ids -/

theorem length_u64ToBeBytes (x : UInt64) : (u64ToBeBytes x).length = 8 := by
  rw [u64ToBeBytes, List.length_reverse, length_bytesLe]

theorem u64ToBeBytes_injective : Function.Injective u64ToBeBytes := by
  intro x y h
  have hx := natOfBytesBe_reverse_bytesLe (k := 8) x.toNat_lt
  have hy := natOfBytesBe_reverse_bytesLe (k := 8) y.toNat_lt
  exact UInt64.toNat_inj.mp (hx.symm.trans ((congrArg natOfBytesBe h).trans hy))

/-- The entries of a log start with the bytes of its id, and those of no other log do. -/
theorem toBytes_prefix_logKey {id id' : BasicId} {tag : UInt8} {key : TrieKey} :
    Id.toBytes id <+: logKey tag id' key ↔ id = id' := by
  have hpre : Id.toBytes id' <+: logKey tag id' key := by
    simp only [logKey, List.append_assoc]
    exact List.prefix_append _ _
  constructor
  · intro h
    have hlen : (Id.toBytes id).length = (Id.toBytes id').length :=
      (length_u64ToBeBytes id).trans (length_u64ToBeBytes id').symm
    exact u64ToBeBytes_injective ((List.prefix_of_prefix_length_le h hpre hlen.le).eq_of_length hlen)
  · rintro rfl
    exact hpre

/-- A commit prunes the log that is as many ids before it as logs are saved. -/
theorem checkedSub_eq_some {a b c : UInt64} : KeyValueDB.checkedSub a b = some c ↔ a.toNat = c.toNat + b.toNat := by
  rw [KeyValueDB.checkedSub]
  by_cases h : b ≤ a
  · rw [if_pos h, Option.some.injEq]
    have hle : b.toNat ≤ a.toNat := UInt64.le_iff_toNat_le.mp h
    rw [← UInt64.toNat_inj, UInt64.toNat_sub_of_le _ _ h]
    omega
  · rw [if_neg h]
    have hlt : ¬ b.toNat ≤ a.toNat := fun hle => h (UInt64.le_iff_toNat_le.mpr hle)
    simp only [reduceCtorEq, false_iff]
    omega

/-! ## Entries -/

namespace Commit

variable {c c' : Commit BasicId} {b v v' : ByteVec}

theorem hasEntry_iff {ID : Type} [Id ID] {c : Commit ID} {b v : ByteVec} :
    c.HasEntry b v ↔ ∃ old key, b = valueKey old c.id key ∧ (c.change key).oldValue ≠ (c.change key).newValue ∧
      (c.change key).value old = some v := by
  constructor
  · rintro ⟨key, h⟩
    obtain ⟨hne, ⟨hb, hv⟩ | ⟨hb, hv⟩⟩ := ChangeBatch.mem_serializeChange.mp h
    · exact ⟨true, key, hb, hne, hv⟩
    · exact ⟨false, key, hb, hne, hv⟩
  · rintro ⟨old, key, hb, hne, hv⟩
    refine ⟨key, ChangeBatch.mem_serializeChange.mpr ⟨hne, ?_⟩⟩
    cases old with
    | true => exact .inl ⟨hb, hv⟩
    | false => exact .inr ⟨hb, hv⟩

/-- The entries of a commit start with its id. -/
theorem HasEntry.prefix_iff (h : c.HasEntry b v) {id : BasicId} : Id.toBytes id <+: b ↔ id = c.id := by
  obtain ⟨old, key, rfl, -, -⟩ := hasEntry_iff.mp h
  cases old <;> exact toBytes_prefix_logKey

/-- An entry has one value. -/
theorem HasEntry.unique (h : c.HasEntry b v) (h' : c.HasEntry b v') : v = v' := by
  obtain ⟨old, key, rfl, -, hv⟩ := hasEntry_iff.mp h
  obtain ⟨old', key', heq, -, hv'⟩ := hasEntry_iff.mp h'
  obtain ⟨rfl, rfl⟩ := valueKey_inj heq
  exact Option.some.inj (hv.symm.trans hv')

/-- The changes of a batch that change something are those of the commit. -/
def Recorded {ID : Type} [Id ID] (c : Commit ID) (batch : ChangeBatch) : Prop :=
  ∀ key, batch.effective key = if c.before.tries key = c.after.tries key then none else some (c.change key)

theorem Recorded.mem_serialize {ID : Type} [Id ID] {c : Commit ID} {batch : ChangeBatch} (h : c.Recorded batch) {ord : HashOrder} :
    (b, v) ∈ batch.serialize c.id ord ↔ c.HasEntry b v := by
  have heff (key : TrieKey) (change : Change) :
      batch.effective key = some change ↔ change = c.change key ∧ change.oldValue ≠ change.newValue := by
    rw [h key]
    by_cases hk : c.before.tries key = c.after.tries key
    · rw [if_pos hk]
      constructor
      · exact fun h => by cases h
      · rintro ⟨rfl, hne⟩
        exact absurd hk hne
    · rw [if_neg hk, Option.some.injEq]
      constructor
      · rintro rfl
        exact ⟨rfl, hk⟩
      · exact fun h => h.1.symm
  rw [ChangeBatch.mem_serialize]
  constructor
  · rintro ⟨key, change, hl, he⟩
    obtain ⟨rfl, -⟩ := (heff key change).mp (effective_eq_some.mpr ⟨hl, (ChangeBatch.mem_serializeChange.mp he).1⟩)
    exact ⟨key, he⟩
  · rintro ⟨key, he⟩
    have hne := (ChangeBatch.mem_serializeChange.mp he).1
    exact ⟨key, _, (effective_eq_some.mp ((heff key _).mpr ⟨rfl, hne⟩)).1, he⟩

end Commit

/-! ## The log of one commit -/

namespace KeyValueDB

variable {DB : Type} [BonsaiDatabase DB] [InfallibleDatabase DB] {kv : KeyValueDB DB BasicId} {before : Columns}
  {ord : HashOrder} {id : BasicId} {b v : ByteVec}

/-- The commit that logs what was recorded. -/
theorem Records.recorded {ID : Type} [Id ID] {kv : KeyValueDB DB ID} {ord : HashOrder} {id : ID} (h : kv.Records before) :
    (Commit.mk id before (kv.logged ord id)).Recorded kv.currentChanges := by
  intro key
  have hafter : (kv.logged ord id).tries key = kv.columns key.toDatabaseKey := kv.logged_sameTries ord id key
  show _ = if before.tries key = (kv.logged ord id).tries key then none
    else some (Change.mk (before.tries key) ((kv.logged ord id).tries key))
  rw [ChangeBatch.effective, hafter, show before.tries key = before key.toDatabaseKey from rfl]
  obtain hk | ⟨hk, heq⟩ := h key
  · rw [hk]
    by_cases heq : before key.toDatabaseKey = kv.columns key.toDatabaseKey
    · rw [if_pos heq, Option.filter_some_neg]
      simpa using heq
    · rw [if_neg heq, Option.filter_some_pos]
      simpa using heq
  · rw [hk, if_pos heq.symm]
    rfl

theorem pruned_eq_some {cols : Columns} {old : Option UInt64} :
    pruned BasicId cols old (.trieLog b) = some v ↔
      (∀ id : BasicId, old = some id → ¬ Id.toBytes id <+: b) ∧ cols (.trieLog b) = some v := by
  cases old with
  | none => simp [pruned]
  | some old =>
    show (if (Id.toBytes (Id.fromU64 old : BasicId)).isPrefixOf b then none else cols (.trieLog b)) = some v ↔ _
    by_cases hp : Id.toBytes (Id.fromU64 old : BasicId) <+: b
    · rw [if_pos (List.isPrefixOf_iff_prefix.mpr hp)]
      simp only [reduceCtorEq, false_iff, not_and]
      exact fun h => absurd hp (h old rfl)
    · rw [if_neg fun h => hp (List.isPrefixOf_iff_prefix.mp h)]
      constructor
      · refine fun h => ⟨fun id hid => ?_, h⟩
        rw [Option.some.injEq] at hid
        exact hid ▸ hp
      · exact fun h => h.2

/-- The log column after a commit: an old log is pruned, and the entries of the commit are put in it. -/
theorem Records.logged_iff (h : kv.Records before) (hlog : ∀ b, kv.columns (.trieLog b) = before (.trieLog b)) :
    kv.logged ord id (.trieLog b) = some v ↔
      if kv.config.maxSavedTrieLogs = some 0 then before (.trieLog b) = some v
      else (∀ n, kv.config.maxSavedTrieLogs = some n → ∀ old : BasicId, id.toNat = old.toNat + n.toNat → ¬ Id.toBytes old <+: b) ∧
        (Commit.HasEntry ⟨id, before, kv.logged ord id⟩ b v ∨
          (∀ w, ¬ Commit.HasEntry ⟨id, before, kv.logged ord id⟩ b w) ∧ before (.trieLog b) = some v) := by
  have hrecorded : Commit.Recorded ⟨id, before, kv.logged ord id⟩ kv.currentChanges := h.recorded
  have hentry (w : ByteVec) : (b, w) ∈ kv.currentChanges.serialize id ord ↔ Commit.HasEntry ⟨id, before, kv.logged ord id⟩ b w :=
    hrecorded.mem_serialize
  by_cases hzero : kv.config.maxSavedTrieLogs = some 0
  · have hcols : kv.logged ord id = kv.columns := if_neg (not_not.mpr hzero)
    rw [if_pos hzero, hcols, hlog]
  · have hcols : kv.logged ord id (.trieLog b) = pruned BasicId (withLog kv.columns (kv.currentChanges.serialize id ord))
        (kv.config.maxSavedTrieLogs.bind (checkedSub (Id.asU64 id))) (.trieLog b) := congrFun (if_pos hzero) _
    rw [if_neg hzero, hcols, pruned_eq_some]
    refine and_congr ?_ ?_
    · simp only [Option.bind_eq_some_iff, checkedSub_eq_some]
      exact ⟨fun h n hn old hold => h old ⟨n, hn, hold⟩, fun h old ⟨n, hn, hold⟩ => h n hn old hold⟩
    · have hnodup := kv.currentChanges.nodup_serialize id ord
      by_cases hb : b ∈ (kv.currentChanges.serialize id ord).map Prod.fst
      · obtain ⟨⟨b', w⟩, hmem, rfl⟩ := List.mem_map.mp hb
        have hw := (hentry w).mp hmem
        rw [withLog_of_mem hnodup hmem, Option.some.injEq]
        constructor
        · rintro rfl
          exact .inl hw
        · rintro (hv | ⟨hnone, -⟩)
          · exact hw.unique hv
          · exact absurd hw (hnone w)
      · have hnone (w : ByteVec) : ¬ Commit.HasEntry ⟨id, before, kv.logged ord id⟩ b w := fun hw =>
          hb (List.mem_map_of_mem ((hentry w).mpr hw))
        rw [withLog_of_not_mem hb, hlog]
        exact ⟨fun hv => .inr ⟨hnone, hv⟩, fun hv => (hv.resolve_left (hnone v)).2⟩

end KeyValueDB

/-! ## The logs that are kept -/

namespace KeyValueDBConfig

variable {config : KeyValueDBConfig} {id id' : BasicId} {later : List BasicId} {past : List (Commit BasicId)}
  {c d : Commit BasicId}

theorem keepsLog_concat : config.KeepsLog id (later ++ [id']) ↔
    config.KeepsLog id later ∧ ∀ n, config.maxSavedTrieLogs = some n → id'.toNat ≠ id.toNat + n.toNat := by
  constructor
  · intro h
    exact ⟨fun n hn => ⟨(h n hn).1, fun x hx => (h n hn).2 x (List.mem_append_left _ hx)⟩,
      fun n hn => (h n hn).2 id' (List.mem_append_right _ List.mem_cons_self)⟩
  · rintro ⟨h, h'⟩ n hn
    refine ⟨(h n hn).1, fun x hx => ?_⟩
    obtain hx | hx := List.mem_append.mp hx
    · exact (h n hn).2 x hx
    · obtain rfl := List.mem_singleton.mp hx
      exact h' n hn

theorem keepsLog_nil : config.KeepsLog id [] ↔ config.maxSavedTrieLogs ≠ some 0 := by
  constructor
  · exact fun h hzero => (h 0 hzero).1 rfl
  · rintro h n hn
    refine ⟨?_, fun _ hx => by cases hx⟩
    rintro rfl
    exact h hn

theorem Logged.mem (h : config.Logged past c) : c ∈ past := by
  obtain ⟨earlier, later, rfl, -⟩ := h
  exact List.mem_append_right _ List.mem_cons_self

theorem logged_concat : config.Logged (past ++ [d]) c ↔
    (config.Logged past c ∧ ∀ n, config.maxSavedTrieLogs = some n → d.id.toNat ≠ c.id.toNat + n.toNat) ∨
      c = d ∧ config.maxSavedTrieLogs ≠ some 0 := by
  constructor
  · rintro ⟨earlier, later, heq, hkeep⟩
    obtain rfl | ⟨later, x, rfl⟩ := later.eq_nil_or_concat'
    · obtain ⟨-, hd⟩ := List.append_inj' heq rfl
      exact .inr ⟨(List.singleton_inj.mp hd).symm, keepsLog_nil.mp hkeep⟩
    · rw [← List.cons_append, ← List.append_assoc] at heq
      obtain ⟨rfl, hd⟩ := List.append_inj' heq rfl
      obtain rfl := List.singleton_inj.mp hd
      rw [List.map_append, List.map_singleton, keepsLog_concat] at hkeep
      exact .inl ⟨⟨earlier, later, rfl, hkeep.1⟩, hkeep.2⟩
  · rintro (⟨⟨earlier, later, rfl, hkeep⟩, hd⟩ | ⟨rfl, hzero⟩)
    · refine ⟨earlier, later ++ [d], by simp, ?_⟩
      rw [List.map_append, List.map_singleton, keepsLog_concat]
      exact ⟨hkeep, hd⟩
    · exact ⟨past, [], rfl, keepsLog_nil.mpr hzero⟩

end KeyValueDBConfig

/-- A content and the commits that led to it: they are linked, they have been recorded, and the log
column has the entries of those whose logs are kept. -/
structure Archived (config : KeyValueDBConfig) (past : List (Commit BasicId)) (start : TrieKey → Option ByteVec)
    (cols : Columns) : Prop where
  linked : Journal.Linked (fun c : Commit BasicId => c.before.tries) (fun c => c.after.tries) start past cols.tries
  recorded : ∀ c ∈ past, ∃ batch, c.Recorded batch
  log : ∀ b v, cols (.trieLog b) = some v ↔ ∃ c, config.Logged past c ∧ c.HasEntry b v

namespace Archived

variable {config : KeyValueDBConfig} {past : List (Commit BasicId)} {start : TrieKey → Option ByteVec} {cols : Columns}
  {DB : Type} [BonsaiDatabase DB] [InfallibleDatabase DB] {kv : KeyValueDB DB BasicId} {ord : HashOrder} {id : BasicId}

/-- A commit goes to the archive. -/
theorem step (h : Archived config past start cols) (hconfig : kv.config = config) (hrec : kv.Records cols)
    (hlog : ∀ b, kv.columns (.trieLog b) = cols (.trieLog b)) (hnew : id ∉ past.map Commit.id) :
    Archived config (past ++ [⟨id, cols, kv.logged ord id⟩]) start (kv.logged ord id) := by
  refine ⟨h.linked.append ⟨rfl, rfl⟩, fun c hc => ?_, fun b v => ?_⟩
  · obtain hc | hc := List.mem_append.mp hc
    · exact h.recorded c hc
    · obtain rfl := List.mem_singleton.mp hc
      exact ⟨_, hrec.recorded⟩
  · rw [hrec.logged_iff hlog, hconfig]
    simp only [KeyValueDBConfig.logged_concat, h.log]
    by_cases hzero : config.maxSavedTrieLogs = some 0
    · rw [if_pos hzero]
      have hnone (past : List (Commit BasicId)) (c : Commit BasicId) : ¬ config.Logged past c := by
        rintro ⟨earlier, later, -, hkeep⟩
        exact (hkeep 0 hzero).1 rfl
      simp [hzero, hnone]
    · rw [if_neg hzero]
      constructor
      · rintro ⟨hpruned, hentry | ⟨-, c, hc, hentry⟩⟩
        · exact ⟨_, .inr ⟨rfl, hzero⟩, hentry⟩
        · exact ⟨c, .inl ⟨hc, fun n hn hid => hpruned n hn c.id hid (hentry.prefix_iff.mpr rfl)⟩, hentry⟩
      · rintro ⟨c, ⟨hc, hkeep⟩ | ⟨rfl, -⟩, hentry⟩
        · refine ⟨fun n hn old hold hpre => ?_, .inr ⟨fun w hw => ?_, c, hc, hentry⟩⟩
          · obtain rfl := hentry.prefix_iff.mp hpre
            exact hkeep n hn hold
          · have hid : c.id = id := hw.prefix_iff.mp (hentry.prefix_iff.mpr rfl)
            exact hnew (List.mem_map.mpr ⟨c, hc.mem, hid⟩)
        · refine ⟨fun n hn old hold hpre => hzero ?_, .inl hentry⟩
          obtain rfl : old = id := hentry.prefix_iff.mp hpre
          have hn0 : n.toNat = 0 := by omega
          rw [hn, UInt64.toNat_inj.mp (hn0.trans UInt64.toNat_zero.symm)]

/-- Before the first commit. -/
theorem nil (hlog : ∀ b, cols (.trieLog b) = none) : Archived config [] cols.tries cols := by
  refine ⟨rfl, fun c hc => absurd hc List.not_mem_nil, fun b v => ?_⟩
  rw [hlog]
  constructor
  · intro h
    cases h
  · rintro ⟨c, hc, -⟩
    cases hc.mem

end Archived

/-! ## Runs -/

section

variable [FeltCodec] {DB T : Type} [BonsaiDatabase DB] [InfallibleDatabase DB] [AnswersOld DB]
  [BonsaiPersistentDatabase DB BasicId T] [InfallibleSnapshots DB BasicId T] {H : StarkHash} {n : Nat}
  {st : BonsaiStorage DB BasicId} {s : Leaves} {past : List (Commit BasicId)} {start : TrieKey → Option ByteVec}

omit [AnswersOld DB] [InfallibleSnapshots DB BasicId T] in
/-- What every request keeps while the commits are added to a history, if their ids are new in it, a run keeps. -/
theorem Request.history_run {I : List (Commit BasicId) → BonsaiStorage DB BasicId → Prop}
    (hrequest : ∀ past st r, I past st → r.Aligned → r.commitId = none → I past (Trace.next (Request.run H) r st))
    (hcommit : ∀ past (st : BonsaiStorage DB BasicId) ords logOrd id, I past st → id ∉ past.map Commit.id →
      I (past ++ [⟨id, st.db.columns, (Trace.next (Request.run H) (.commit ords logOrd id) st).db.columns⟩])
        (Trace.next (Request.run H) (.commit ords logOrd id) st))
    (hI : I past st) {rs : List (Request BasicId)} (hrs : ∀ r ∈ rs, r.Aligned)
    (hids : (past.map Commit.id ++ rs.filterMap Request.commitId).Nodup) :
    I (past ++ Request.history H rs st) (Trace.after (Request.run H) rs st) := by
  induction rs generalizing past st with
  | nil =>
    rw [Request.history, List.append_nil]
    exact hI
  | cons r rs ih =>
    obtain ⟨hr, hrest⟩ := List.forall_mem_cons.mp hrs
    rw [Trace.after_cons, Request.history]
    cases hid : r.commitId with
    | none =>
      rw [List.filterMap_cons_none hid] at hids
      exact ih (hrequest past st r hI hr hid) hrest hids
    | some id =>
      rw [List.filterMap_cons_some hid] at hids
      have hnew : id ∉ past.map Commit.id := by
        have hdisjoint := List.disjoint_of_nodup_append hids
        exact fun hmem => hdisjoint hmem List.mem_cons_self
      cases r with
      | commit ords logOrd id' =>
        obtain rfl : id' = id := Option.some.inj hid
        rw [← List.append_assoc]
        refine ih (hcommit past st ords logOrd _ hI hnew) hrest ?_
        simpa using hids
      | set key value => cases hid
      | get key => cases hid
      | getMultiProof keys => cases hid

/-- A storage with the tree of the empty identifier, and the commits that led to its content. -/
structure HistoryRep (H : StarkHash) (n : Nat) (config : KeyValueDBConfig) (past : List (Commit BasicId))
    (start : TrieKey → Option ByteVec) (st : BonsaiStorage DB BasicId) : Prop where
  rep : ∃ s, CallRep H n st s
  changes : st.db.currentChanges = ∅
  configured : st.db.config = config
  archived : Archived config past start st.db.columns

namespace HistoryRep

variable {config : KeyValueDBConfig}

omit [AnswersOld DB] [InfallibleSnapshots DB BasicId T] in
/-- Requests between commits. -/
theorem request (h : HistoryRep H n config past start st) (hn : 0 < n) {r : Request BasicId} (hr : r.Aligned) (hid : r.commitId = none) :
    HistoryRep H n config past start (Trace.next (Request.run H) r st) := by
  obtain ⟨s, hs⟩ := h.rep
  obtain ⟨-, hR, hdb⟩ := hs.request_ok hn hr hid
  exact ⟨⟨_, hR⟩, by rw [hdb]; exact h.changes, by rw [hdb]; exact h.configured, by rw [hdb]; exact h.archived⟩

/-- A commit. -/
theorem commit (h : HistoryRep H n config past start st) (ords : HashOrders) (logOrd : HashOrder) {id : BasicId}
    (hnew : id ∉ past.map Commit.id) :
    HistoryRep H n config
      (past ++ [⟨id, st.db.columns, (Trace.next (Request.run H) (.commit ords logOrd id) st).db.columns⟩]) start
      (Trace.next (Request.run H) (.commit ords logOrd id) st) := by
  obtain ⟨s, hs⟩ := h.rep
  obtain ⟨st₁, st₂, hrun, -, -, hrec, hlog, hconf₁, hR, -, hchanges, hconf, hcols⟩ := hs.commitStorage_ok h.changes ords logOrd id
  rw [Trace.next_of (Request.run_commit hrun)]
  refine ⟨⟨_, hR⟩, hchanges, hconf.trans h.configured, ?_⟩
  rw [hcols]
  exact h.archived.step (hconf₁.trans h.configured) hrec hlog hnew

/-- A run adds its commits to the archive. -/
theorem run (h : HistoryRep H n config past start st) (hn : 0 < n) {rs : List (Request BasicId)} (hrs : ∀ r ∈ rs, r.Aligned)
    (hids : (past.map Commit.id ++ rs.filterMap Request.commitId).Nodup) :
    HistoryRep H n config (past ++ Request.history H rs st) start (Trace.after (Request.run H) rs st) :=
  Request.history_run (I := fun past st => HistoryRep H n config past start st) (fun _ _ _ h hr hid => h.request hn hr hid)
    (fun _ _ ords logOrd _ h hnew => h.commit ords logOrd hnew) h hrs hids

omit [AnswersOld DB] [InfallibleSnapshots DB BasicId T] in
/-- A new storage over an empty database. -/
theorem new {db : DB} (hdb : ∀ key, InfallibleDatabase.columns db key = none) (config : KeyValueDBConfig) (m : UInt8) :
    HistoryRep H m.toNat config [] (fun _ => none) (BonsaiStorage.new db config m : BonsaiStorage DB BasicId) := by
  have hstart : (KeyValueDB.new db config none : KeyValueDB DB BasicId).columns.tries = fun _ => none := funext fun key => hdb _
  refine ⟨⟨.empty, .start (fun key => hdb _) m⟩, rfl, rfl, ?_⟩
  rw [← hstart]
  exact .nil fun b => hdb _

end HistoryRep

end

end Bonsai
