import BonsaiTrie.Framework.Preserve
import BonsaiTrie.Proof.Undo

/-!
# Snapshots

Entries of a `BTreeMap` by increasing key, and what is left of them when only
the latest stay (`BTreeMap.latest_insert_latest`). Writes never touch the
snapshots of a database (`Unwritten`), so that after a run it has the snapshots
of the commits whose ids are multiples of the interval, or the latest of them,
each with the content right after its commit (`snapshots_taken`).
-/

namespace Bonsai

open Patricia Run

/-! ## Sorted entries -/

namespace BTreeMap

variable {K V : Type} [LE K] [LT K] [DecidableLT K] [Std.IsLinearOrder K] [Std.LawfulOrderLT K] {m : BTreeMap K V} {k : K} {v : V}

theorem mem_insert (hm : Sorted m) {e : K × V} : e ∈ insert k v m ↔ e = (k, v) ∨ (e ∈ m ∧ e.1 ≠ k) := by
  induction m with
  | nil => simp [insert]
  | cons f m ih =>
    obtain ⟨j, w⟩ := f
    obtain ⟨hlt, hm⟩ := List.pairwise_cons.mp hm
    -- the keys after this one are greater
    have hgreater (hle : ¬ j < k) : e ∈ m → e.1 ≠ k := by
      rintro he rfl
      exact hle (hlt e he)
    rw [insert]
    by_cases hkj : k < j
    · rw [if_pos hkj]
      have hjk : ¬ j < k := Std.Asymm.asymm k j hkj
      have hne : j ≠ k := by
        rintro rfl
        exact hjk hkj
      simp only [List.mem_cons]
      constructor
      · rintro (he | he | he)
        · exact .inl he
        · exact .inr ⟨.inl he, he ▸ hne⟩
        · exact .inr ⟨.inr he, hgreater hjk he⟩
      · rintro (he | ⟨he, -⟩)
        · exact .inl he
        · exact .inr he
    · rw [if_neg hkj]
      by_cases hjk : j < k
      · have hne : j ≠ k := by
          rintro rfl
          exact hkj hjk
        rw [if_pos hjk, List.mem_cons, ih hm, List.mem_cons]
        constructor
        · rintro (he | he | ⟨he, hk⟩)
          · exact .inr ⟨.inl he, he ▸ hne⟩
          · exact .inl he
          · exact .inr ⟨.inr he, hk⟩
        · rintro (he | ⟨he | he, hk⟩)
          · exact .inr (.inl he)
          · exact .inl he
          · exact .inr (.inr ⟨he, hk⟩)
      · obtain rfl : j = k := Std.Trichotomous.trichotomous j k hjk hkj
        rw [if_neg hjk, List.mem_cons, List.mem_cons]
        constructor
        · rintro (he | he)
          · exact .inl he
          · exact .inr ⟨.inr he, hgreater hjk he⟩
        · rintro (he | ⟨he | he, hk⟩)
          · exact .inl he
          · exact absurd (congrArg Prod.fst he) hk
          · exact .inr he

theorem Sorted.insert (hm : Sorted m) (k : K) (v : V) : Sorted (insert k v m) := by
  induction m with
  | nil => exact List.pairwise_singleton _ _
  | cons f m ih =>
    obtain ⟨j, w⟩ := f
    obtain ⟨hlt, hrest⟩ := List.pairwise_cons.mp hm
    rw [BTreeMap.insert]
    by_cases hkj : k < j
    · rw [if_pos hkj]
      refine List.pairwise_cons.mpr ⟨fun e he => ?_, hm⟩
      obtain rfl | he := List.mem_cons.mp he
      · exact hkj
      · exact Std.lt_trans hkj (hlt e he)
    · rw [if_neg hkj]
      by_cases hjk : j < k
      · rw [if_pos hjk]
        refine List.pairwise_cons.mpr ⟨fun e he => ?_, ih hrest⟩
        obtain rfl | ⟨he, -⟩ := (mem_insert hrest).mp he
        · exact hjk
        · exact hlt e he
      · obtain rfl : j = k := Std.Trichotomous.trichotomous j k hjk hkj
        rw [if_neg hjk]
        exact List.pairwise_cons.mpr ⟨hlt, hrest⟩

omit [Std.IsLinearOrder K] in
/-- The entry of the least key, if that is below the bound. -/
theorem rangeToNext_eq_some (hm : Sorted m) {e : K × V} :
    rangeToNext m k = some e ↔ e ∈ m ∧ e.1 < k ∧ ∀ e' ∈ m, e' = e ∨ e.1 < e'.1 := by
  rw [rangeToNext, List.head?_takeWhile]
  cases m with
  | nil => simp
  | cons f m =>
    obtain ⟨hlt, -⟩ := List.pairwise_cons.mp hm
    rw [List.head?_cons, Option.filter_eq_some_iff]
    constructor
    · rintro ⟨hf, hk⟩
      obtain rfl := Option.some.inj hf
      refine ⟨List.mem_cons_self, of_decide_eq_true hk, fun e' he' => ?_⟩
      obtain rfl | he' := List.mem_cons.mp he'
      · exact .inl rfl
      · exact .inr (hlt e' he')
    · rintro ⟨he, hk, hleast⟩
      obtain rfl | he := List.mem_cons.mp he
      · exact ⟨rfl, decide_eq_true hk⟩
      · obtain rfl | hle := hleast f List.mem_cons_self
        · exact ⟨rfl, decide_eq_true hk⟩
        · exact absurd (hlt e he) (Std.Asymm.asymm _ _ hle)

theorem rangeToNext_eq_none (hm : Sorted m) : rangeToNext m k = none ↔ ∀ e ∈ m, ¬ e.1 < k := by
  rw [rangeToNext, List.head?_takeWhile]
  cases m with
  | nil => simp
  | cons f m =>
    obtain ⟨hlt, -⟩ := List.pairwise_cons.mp hm
    rw [List.head?_cons, Option.filter_eq_none_iff]
    constructor
    · intro h e he hk
      have hf : ¬ f.1 < k := fun hf => h f rfl (decide_eq_true hf)
      obtain rfl | he := List.mem_cons.mp he
      · exact hf hk
      · exact hf (Std.lt_trans (hlt e he) hk)
    · intro h e he
      obtain rfl := Option.some.inj he
      exact fun hk => h f List.mem_cons_self (of_decide_eq_true hk)

omit [LE K] [Std.IsLinearOrder K] [Std.LawfulOrderLT K] in
theorem insert_of_lt (h : ∀ e ∈ m, k < e.1) : insert k v m = (k, v) :: m := by
  cases m with
  | nil => rfl
  | cons e m => exact if_pos (h e List.mem_cons_self)

omit [LE K] [Std.IsLinearOrder K] [Std.LawfulOrderLT K] in
theorem length_le_insert (m : BTreeMap K V) (k : K) (v : V) : m.length ≤ (insert k v m).length := by
  induction m with
  | nil => exact Nat.zero_le _
  | cons e m ih =>
    rw [insert]
    by_cases hlt : k < e.1
    · rw [if_pos hlt]
      exact Nat.le_succ _
    · rw [if_neg hlt]
      by_cases hgt : e.1 < k
      · rw [if_pos hgt]
        exact Nat.succ_le_succ ih
      · rw [if_neg hgt]
        exact le_rfl

omit [LE K] [LT K] [DecidableLT K] [Std.IsLinearOrder K] [Std.LawfulOrderLT K] in
/-- Among the last entries there is no first one if there are enough others. -/
theorem rtake_cons (e : K × V) {l : List (K × V)} {n : Nat} (h : n ≤ l.length) : (e :: l).rtake n = l.rtake n := by
  rw [List.rtake, List.rtake, List.length_cons, Nat.succ_sub h, List.drop_succ_cons]

omit [LE K] [LT K] [DecidableLT K] [Std.IsLinearOrder K] [Std.LawfulOrderLT K] in
theorem rtake_of_length_le {l : List (K × V)} {n : Nat} (h : l.length ≤ n) : l.rtake n = l := by
  rw [List.rtake, Nat.sub_eq_zero_of_le h, List.drop_zero]

/-- What is not among the latest entries does not matter to the latest ones after an insertion. -/
theorem latest_insert_latest (hm : Sorted m) (limit : Option Nat) (k : K) (v : V) :
    latest limit (insert k v (latest limit m)) = latest limit (insert k v m) := by
  cases limit with
  | none => rfl
  | some n =>
    show (insert k v (m.rtake n)).rtake n = (insert k v m).rtake n
    induction m with
    | nil => rw [List.rtake_nil]
    | cons e m ih =>
      obtain ⟨hlt, hrest⟩ := List.pairwise_cons.mp hm
      by_cases hn : n ≤ m.length
      · rw [rtake_cons e hn, ih hrest, insert]
        by_cases hke : k < e.1
        · have hall : ∀ e' ∈ m, k < e'.1 := fun e' he' => Std.lt_trans hke (hlt e' he')
          rw [if_pos hke, insert_of_lt hall, rtake_cons _ hn, rtake_cons _ (Nat.le_succ_of_le hn), rtake_cons _ hn]
        · rw [if_neg hke]
          by_cases hek : e.1 < k
          · rw [if_pos hek, rtake_cons _ (hn.trans (length_le_insert m k v))]
          · obtain rfl : e.1 = k := Std.Trichotomous.trichotomous e.1 k hek hke
            rw [if_neg hek, insert_of_lt hlt]
      · have hall : (e :: m).rtake n = e :: m := rtake_of_length_le (Nat.lt_of_not_le hn)
        rw [hall]

/-- An entry below a bound is among the latest ones if fewer entries than these are not below it. -/
theorem exists_latest_lt (hm : Sorted m) (limit : Option Nat) (x : K) :
    (∃ e ∈ latest limit m, e.1 < x) ↔
      (∃ e ∈ m, e.1 < x) ∧ ∀ n, limit = some n → (m.filter fun e => ¬ e.1 < x).length < n := by
  cases limit with
  | none => exact ⟨fun h => ⟨h, fun n hn => absurd hn.symm (Option.some_ne_none n)⟩, And.left⟩
  | some n =>
    show (∃ e ∈ m.rtake n, e.1 < x) ↔ _
    simp only [Option.some.injEq, forall_eq']
    induction m with
    | nil => simp
    | cons e m ih =>
      obtain ⟨hlt, hrest⟩ := List.pairwise_cons.mp hm
      have hcount : (m.filter fun e => ¬ e.1 < x).length ≤ m.length := List.length_filter_le _ _
      -- the first entry is below the bound if any is
      have hfirst : (∃ e' ∈ e :: m, e'.1 < x) ↔ e.1 < x := by
        constructor
        · intro ⟨e', he', hx⟩
          obtain rfl | he' := List.mem_cons.mp he'
          · exact hx
          · exact Std.lt_trans (hlt e' he') hx
        · exact fun hx => ⟨e, List.mem_cons_self, hx⟩
      by_cases hx : e.1 < x
      · have hfilter : ((e :: m).filter fun e => ¬ e.1 < x) = m.filter fun e => ¬ e.1 < x :=
          List.filter_cons_of_neg (by simpa using hx)
        rw [hfirst, hfilter]
        by_cases hn : n ≤ m.length
        · rw [rtake_cons e hn, ih hrest]
          refine ⟨fun h => ⟨hx, h.2⟩, fun h => ⟨?_, h.2⟩⟩
          -- not all of the others are counted
          by_contra hnone
          have hall : (m.filter fun e => ¬ e.1 < x) = m :=
            List.filter_eq_self.mpr fun e' he' => decide_eq_true fun hx' => hnone ⟨e', he', hx'⟩
          have hlength := h.2
          rw [hall] at hlength
          omega
        · have hall : (e :: m).rtake n = e :: m := rtake_of_length_le (Nat.lt_of_not_le hn)
          rw [hall, hfirst]
          exact ⟨fun h => ⟨h, by omega⟩, And.left⟩
      · have hnone : ¬ ∃ e' ∈ e :: m, e'.1 < x := fun h => hx (hfirst.mp h)
        refine ⟨fun ⟨e', he', hx'⟩ => absurd ⟨e', List.mem_of_mem_drop he', hx'⟩ hnone, fun h => absurd h.1 hnone⟩

/-- A new key is added to the entries. -/
theorem insert_perm (hk : ∀ e ∈ m, e.1 ≠ k) : (insert k v m).Perm ((k, v) :: m) := by
  induction m with
  | nil => exact .refl _
  | cons e m ih =>
    obtain ⟨hek, hrest⟩ := List.forall_mem_cons.mp hk
    rw [insert]
    by_cases hlt : k < e.1
    · rw [if_pos hlt]
    · rw [if_neg hlt]
      by_cases hgt : e.1 < k
      · rw [if_pos hgt]
        exact ((ih hrest).cons e).trans (.swap _ _ _)
      · exact absurd (Std.Trichotomous.trichotomous e.1 k hgt hlt) hek

end BTreeMap

/-! ## What writes do not touch -/

namespace Unwritten

variable {DB ID α : Type} [BonsaiDatabase DB] {f : DB → α} {x : α}

/-- The part of the database below is `x`. -/
def Has (f : DB → α) (x : α) (s : KeyValueDB DB ID × BonsaiDatabase.Batch DB) : Prop := f s.1.db = x

theorem withBatch {β : Type} {call : DB → Option (BonsaiDatabase.Batch DB) →
      Except (BonsaiDatabase.DatabaseError DB) β × DB × Option (BonsaiDatabase.Batch DB)}
    (hcall : ∀ db batch, f (call db batch).2.1 = f db) :
    Preserves (Has f x) (KeyValueDB.withBatch call : KeyValueDB.M DB ID β) := by
  rintro ⟨kv, batch⟩ hs
  have h := (hcall kv.db (some batch)).trans hs
  rw [KeyValueDB.withBatch]
  rcases hrun : call kv.db (some batch) with ⟨r, db', batch'⟩
  rw [hrun] at h
  cases r <;> exact h

theorem applyUpdate (hf : Unwritten f) (key : TrieKey) (value : InsertOrRemove ByteVec) :
    Preserves (Has f x) (MerkleTrees.applyUpdate key value : KeyValueDB.M DB ID Unit) := by
  cases value with
  | insert value => exact .bind (withBatch fun db batch => hf.insert db _ value batch) fun old => .modify fun _ hs => hs
  | remove => exact .bind (withBatch fun db batch => hf.remove db _ batch) fun old => .modify fun _ hs => hs

theorem applyAll (hf : Unwritten f) (ords : HashOrders) (i : Nat)
    (results : List (Except (Failure (BonsaiDatabase.DatabaseError DB)) Updates)) :
    Preserves (Has f x) (MerkleTrees.applyAll ords i results : KeyValueDB.M DB ID Unit) := by
  induction results generalizing i with
  | nil => exact .pure _
  | cons r results ih =>
    cases r with
    | error e => exact .throw _
    | ok u => exact .bind (.forM fun e _ => hf.applyUpdate e.1 e.2) fun _ => ih (i + 1)

theorem writeAll (hf : Unwritten f) : Preserves (Has f x) (KeyValueDB.writeBatch : KeyValueDB.M DB ID Unit) := by
  rintro ⟨kv, batch⟩ hs
  have h := (hf.writeBatch kv.db batch).trans hs
  rw [KeyValueDB.writeBatch]
  rcases hrun : BonsaiDatabase.writeBatch kv.db batch with ⟨r, db'⟩
  rw [hrun] at h
  cases r <;> exact h

theorem prune (hf : Unwritten f) (pre : DatabaseKey) :
    Preserves (Has f x) (KeyValueDB.removeByPrefix pre : KeyValueDB.M DB ID Unit) := by
  rintro ⟨kv, batch⟩ hs
  have h := (hf.removeByPrefix kv.db pre).trans hs
  rw [KeyValueDB.removeByPrefix]
  rcases hrun : BonsaiDatabase.removeByPrefix kv.db pre with ⟨r, db'⟩
  rw [hrun] at h
  cases r <;> exact h

/-- The trees are committed. -/
theorem commitTrees [FeltCodec] (hf : Unwritten f) (H : StarkHash) (ords : HashOrders) :
    Preserves (fun st : MerkleTrees DB ID => f st.db.db = x) (MerkleTrees.commit H ords) := by
  intro st hs
  rw [MerkleTrees.commit]
  rcases MerkleTrees.allUpdates (BonsaiDatabase.DatabaseError DB) H (st.trees.iter (ords 0)) st.trees with ⟨trees, results⟩
  simp only
  cases MerkleTrees.firstPanic results with
  | some e => exact hs
  | none =>
    have h := (Preserves.bind (hf.applyAll ords 1 results) fun _ => hf.writeAll) (st.db, BonsaiDatabase.createBatch st.db.db) hs
    simp only
    cases hrun : (do MerkleTrees.applyAll ords 1 results; KeyValueDB.writeBatch : KeyValueDB.M DB ID Unit)
        (st.db, BonsaiDatabase.createBatch st.db.db) with
    | ok a s => rw [hrun] at h; exact h
    | error e s => rw [hrun] at h; exact h

/-- The changes are logged. -/
theorem commitLog [Id ID] (hf : Unwritten f) (ord : HashOrder) (id : ID) :
    Preserves (fun kv : KeyValueDB DB ID => f kv.db = x) (KeyValueDB.commit ord id) := by
  intro kv hs
  have hlog : Preserves (Has f x) (KeyValueDB.commitLog ord id : KeyValueDB.M DB ID Unit) := by
    refine .bind .get fun s => .bind (.modify fun _ hs => hs) fun _ => .ite (.bind (.forM fun e _ => ?_) fun _ => ?_) (.pure _)
    · exact .bind (withBatch fun db batch => hf.insert db _ _ batch) fun _ => .pure _
    · refine .bind hf.writeAll fun _ => ?_
      cases s.1.config.maxSavedTrieLogs.bind (KeyValueDB.checkedSub (Id.asU64 id)) with
      | some old => exact hf.prune _
      | none => exact .pure _
  have h := hlog (kv, BonsaiDatabase.createBatch kv.db) hs
  rw [KeyValueDB.commit]
  cases hrun : KeyValueDB.commitLog ord id (kv, BonsaiDatabase.createBatch kv.db) with
  | ok a s => rw [hrun] at h; exact h
  | error e s => rw [hrun] at h; exact h

end Unwritten

/-! ## Runs -/

section

variable [FeltCodec] {DB T : Type} [BonsaiDatabase DB] [InfallibleDatabase DB] [AnswersOld DB]
  [BonsaiPersistentDatabase DB BasicId T] [InfallibleSnapshots DB BasicId T] {H : StarkHash} {n : Nat}
  {config : KeyValueDBConfig} {st : BonsaiStorage DB BasicId} {s : Leaves} {past : List (Commit BasicId)}
  {start : TrieKey → Option ByteVec}

/-- A commit takes a snapshot of what it wrote, or leaves the snapshots as they are. -/
theorem CallRep.commit_snapshots {α : Type} {f : DB → α} (hf : Unwritten f) (h : CallRep H n st s)
    (hnew : st.db.currentChanges = ∅) (ords : HashOrders) (logOrd : HashOrder) (id : BasicId) :
    ∃ db : DB, f db = f st.db.db ∧
      InfallibleDatabase.columns db = (Trace.next (Request.run H) (.commit ords logOrd id) st).db.columns ∧
      (Trace.next (Request.run H) (.commit ords logOrd id) st).db.db =
        if st.db.config.TakesSnapshot id then BonsaiPersistentDatabase.snapshot db id else db := by
  obtain ⟨st₁, h₁, -, -, -, hk₁, -⟩ := h.commit_records hnew ords
  obtain ⟨kv₂, h₂, hk₂, -, -⟩ := st₁.db.commit_ok logOrd id
  have hs₁ := hf.commitTrees H ords st rfl
  have hs₂ := hf.commitLog logOrd id st₁.db rfl
  rw [h₁] at hs₁
  rw [h₂] at hs₂
  have hconfig : kv₂.config = st.db.config := (hk₁.trans hk₂).1
  have hrun : BonsaiStorage.commit H ords logOrd id st =
      MerkleTrees.onDb (KeyValueDB.createSnapshot id) { st₁ with db := kv₂ } :=
    (bind_ok h₁ _).trans (bind_ok (MerkleTrees.onDb_ok h₂) _)
  have hnext : Trace.next (Request.run H) (.commit ords logOrd id) st =
      left (MerkleTrees.onDb (KeyValueDB.createSnapshot id) { st₁ with db := kv₂ }) := by
    rw [Trace.next, Request.run, bind_run, hrun]
    cases MerkleTrees.onDb (KeyValueDB.createSnapshot id) { st₁ with db := kv₂ } <;> rfl
  have hdb : (Trace.next (Request.run H) (.commit ords logOrd id) st).db.db =
      if st.db.config.TakesSnapshot id then BonsaiPersistentDatabase.snapshot kv₂.db id else kv₂.db := by
    rw [hnext, MerkleTrees.onDb, KeyValueDB.createSnapshot, hconfig]
    by_cases hzero : st.db.config.snapshotInterval = 0
    · rw [if_pos hzero, if_neg fun h => h.1 hzero]
      rfl
    · rw [if_neg hzero]
      by_cases hmod : Id.asU64 id % st.db.config.snapshotInterval = 0
      · rw [if_pos hmod, if_pos ⟨hzero, hmod⟩]
        rfl
      · rw [if_neg hmod, if_neg fun h => hmod h.2]
        rfl
  refine ⟨kv₂.db, hs₂.trans hs₁, ?_, hdb⟩
  rw [KeyValueDB.columns, hdb]
  by_cases htakes : st.db.config.TakesSnapshot id
  · rw [if_pos htakes, InfallibleSnapshots.columns_snapshot]
  · rw [if_neg htakes]

variable [BonsaiDatabase T] [BatchWrites T] [KeepsSnapshots DB T]

/-- A storage, its commits, and the snapshots taken of them. -/
structure SnapshotRep (H : StarkHash) (n : Nat) (config : KeyValueDBConfig) (limit : Option Nat) (past : List (Commit BasicId))
    (start : TrieKey → Option ByteVec) (st : BonsaiStorage DB BasicId) : Prop where
  history : HistoryRep H n config past start st
  snapshots : config.SnapshotsOf limit past (KeepsSnapshots.snapshots st.db.db)
  limit : KeepsSnapshots.limit st.db.db = limit

namespace SnapshotRep

variable {limit : Option Nat}

omit [AnswersOld DB] [InfallibleSnapshots DB BasicId T] in
theorem request (h : SnapshotRep H n config limit past start st) (hn : 0 < n) {r : Request BasicId} (hr : r.Aligned)
    (hid : r.commitId = none) : SnapshotRep H n config limit past start (Trace.next (Request.run H) r st) := by
  obtain ⟨s, hs⟩ := h.history.rep
  obtain ⟨-, -, hdb⟩ := hs.request_ok hn hr hid
  exact ⟨h.history.request hn hr hid, by rw [hdb]; exact h.snapshots, by rw [hdb]; exact h.limit⟩

theorem commit (h : SnapshotRep H n config limit past start st) (ords : HashOrders) (logOrd : HashOrder) {id : BasicId}
    (hnew : id ∉ past.map Commit.id) :
    SnapshotRep H n config limit
      (past ++ [⟨id, st.db.columns, (Trace.next (Request.run H) (.commit ords logOrd id) st).db.columns⟩]) start
      (Trace.next (Request.run H) (.commit ords logOrd id) st) := by
  obtain ⟨s, hs⟩ := h.history.rep
  have hhistory := h.history.commit ords logOrd hnew
  obtain ⟨db, hf, hcols, hdb⟩ := hs.commit_snapshots KeepsSnapshots.unwritten h.history.changes ords logOrd id
  rw [h.history.configured] at hdb
  have hsnapshots : KeepsSnapshots.snapshots db = KeepsSnapshots.snapshots st.db.db := congrArg Prod.fst hf
  have hlimit : KeepsSnapshots.limit db = limit := (congrArg Prod.snd hf).trans h.limit
  obtain ⟨taken, hsorted, hperm, hlatest⟩ := h.snapshots
  by_cases htakes : config.TakesSnapshot id
  · rw [if_pos htakes] at hdb
    have hfresh : ∀ e ∈ taken, e.1 ≠ id := by
      rintro e he rfl
      obtain ⟨c, hc, rfl⟩ := List.mem_map.mp (hperm.mem_iff.mp he)
      exact hnew (List.mem_map_of_mem (List.mem_of_mem_filter hc))
    refine ⟨hhistory, ⟨BTreeMap.insert id (InfallibleDatabase.columns db) taken, hsorted.insert _ _, ?_, ?_⟩, ?_⟩
    · rw [List.filter_append, List.filter_singleton, decide_eq_true htakes, cond_true, List.map_append, ← hcols]
      exact (BTreeMap.insert_perm hfresh).trans ((hperm.cons _).trans (List.perm_append_singleton _ _).symm)
    · rw [hdb, KeepsSnapshots.snapshots_snapshot, hsnapshots, hlatest, hlimit, BTreeMap.latest_insert_latest hsorted]
    · rw [hdb, KeepsSnapshots.limit_snapshot, hlimit]
  · rw [if_neg htakes] at hdb
    refine ⟨hhistory, ⟨taken, hsorted, ?_, ?_⟩, ?_⟩
    · rw [List.filter_append, List.filter_singleton, decide_eq_false htakes, cond_false, List.append_nil]
      exact hperm
    · rw [hdb, hsnapshots, hlatest]
    · rw [hdb, hlimit]

/-- A run adds its commits and their snapshots. -/
theorem run (h : SnapshotRep H n config limit past start st) (hn : 0 < n) {rs : List (Request BasicId)} (hrs : ∀ r ∈ rs, r.Aligned)
    (hids : (past.map Commit.id ++ rs.filterMap Request.commitId).Nodup) :
    SnapshotRep H n config limit (past ++ Request.history H rs st) start (Trace.after (Request.run H) rs st) :=
  Request.history_run (I := fun past st => SnapshotRep H n config limit past start st) (fun _ _ _ h hr hid => h.request hn hr hid)
    (fun _ _ ords logOrd _ h hnew => h.commit ords logOrd hnew) h hrs hids

end SnapshotRep

variable (H) (m : UInt8) (hm : 0 < m.toNat) (db : DB) (hdb : ∀ key, InfallibleDatabase.columns db key = none)
  (hsnap : KeepsSnapshots.snapshots db = []) (config : BonsaiStorageConfig) (rs : List (Request BasicId))
  (hrs : ∀ r ∈ rs, r.Aligned) (hids : (rs.filterMap Request.commitId).Nodup)

include hm hdb hsnap hrs hids in
/-- A run from an empty database. -/
theorem SnapshotRep.of_new :
    SnapshotRep H m.toNat config (KeepsSnapshots.limit db) (Request.history H rs (BonsaiStorage.new db config m)) (fun _ => none)
      (Trace.after (Request.run H) rs (BonsaiStorage.new db config m)) := by
  have hnil : BTreeMap.latest (KeepsSnapshots.limit db) ([] : BTreeMap BasicId Columns) = [] := by
    cases KeepsSnapshots.limit db with
    | none => rfl
    | some k => exact List.rtake_nil k
  have hnew : SnapshotRep H m.toNat config (KeepsSnapshots.limit db) [] (fun _ => none)
      (BonsaiStorage.new db config m : BonsaiStorage DB BasicId) :=
    ⟨.new hdb config m, ⟨[], .nil, .refl _, hsnap.trans hnil.symm⟩, rfl⟩
  exact hnew.run hm hrs hids

include hm hdb hsnap hrs hids in
/-- After a run whose commits have distinct ids, the snapshots are those of all the commits whose ids are multiples of the
interval, each with the content right after its commit, or those of the greatest ids if the backend has a limit; that of
the configuration is not read. -/
theorem snapshots_taken :
    config.SnapshotsOf (KeepsSnapshots.limit db) (Request.history H rs (BonsaiStorage.new db config m))
      (KeepsSnapshots.snapshots (Trace.after (Request.run H) rs (BonsaiStorage.new db config m)).db.db) :=
  (SnapshotRep.of_new H m hm db hdb hsnap config rs hrs hids).snapshots

end

/-! ## The backend in memory -/

namespace BTreeMap

variable {K V W : Type} [LT K] [DecidableLT K] (f : V → W)

/-- Values are changed. -/
def mapValues (m : BTreeMap K V) : BTreeMap K W := m.map fun e => (e.1, f e.2)

theorem mapValues_insert (k : K) (v : V) (m : BTreeMap K V) : mapValues f (insert k v m) = insert k (f v) (mapValues f m) := by
  induction m with
  | nil => rfl
  | cons e m ih =>
    obtain ⟨j, w⟩ := e
    show mapValues f (if k < j then _ else _) = if k < j then _ else _
    rw [apply_ite (mapValues f), apply_ite (mapValues f)]
    exact if_congr Iff.rfl rfl (if_congr Iff.rfl (congrArg (List.cons (j, f w)) ih) rfl)

theorem mapValues_rangeToNext (k : K) (m : BTreeMap K V) :
    rangeToNext (mapValues f m) k = (rangeToNext m k).map fun e => (e.1, f e.2) := by
  rw [rangeToNext, mapValues, List.takeWhile_map, List.head?_map]
  rfl

end BTreeMap

theorem HashMapDb.snapshots_setMap {ID : Type} (db : HashMapDb ID) (key : DatabaseKey) (map : HashMap ByteVec ByteVec) :
    (db.setMap key map).snapshots = db.snapshots := by
  cases key <;> rfl

theorem HashMapDb.unwritten_snapshots {ID : Type} : Unwritten (HashMapDb.snapshots : HashMapDb ID → _) where
  insert db _ _ _ := db.snapshots_setMap _ _
  remove db _ _ := db.snapshots_setMap _ _
  removeByPrefix db _ := db.snapshots_setMap _ _
  writeBatch _ _ := rfl

/-- It keeps every snapshot. -/
instance : KeepsSnapshots (HashMapDb BasicId) (HashMapDb BasicId) where
  snapshots db := BTreeMap.mapValues HashMapDb.get db.snapshots
  limit _ := none
  unwritten :=
    have h := HashMapDb.unwritten_snapshots
    { insert := fun db key value batch => congrArg (fun l => (BTreeMap.mapValues HashMapDb.get l, none)) (h.insert db key value batch)
      remove := fun db key batch => congrArg (fun l => (BTreeMap.mapValues HashMapDb.get l, none)) (h.remove db key batch)
      removeByPrefix := fun db pre => congrArg (fun l => (BTreeMap.mapValues HashMapDb.get l, none)) (h.removeByPrefix db pre)
      writeBatch := fun _ _ => rfl }
  snapshots_snapshot db id := BTreeMap.mapValues_insert HashMapDb.get id db db.snapshots
  limit_snapshot _ _ := rfl
  transaction_eq db id := (BTreeMap.mapValues_rangeToNext HashMapDb.get id db.snapshots).symm

theorem HashMapDb.limit_eq (db : HashMapDb BasicId) : KeepsSnapshots.limit db = none := rfl

theorem HashMapDb.snapshots_empty : KeepsSnapshots.snapshots (HashMapDb.empty : HashMapDb BasicId) = [] := rfl

theorem snapshots_taken_apart :
    KeyValueDBConfig.SnapshotsOf ⟨some 1, none, 1⟩ none (Request.history (fun a b => a + b) (writeApart ++ removeNext) oneLog)
      (KeepsSnapshots.snapshots (Trace.after (Request.run fun a b => a + b) (writeApart ++ removeNext) oneLog).db.db) := by
  have h := snapshots_taken (fun a b => a + b) 2 (by decide) HashMapDb.empty HashMapDb.columns_none HashMapDb.snapshots_empty
    ⟨some 1, none, 1⟩
    (writeApart ++ removeNext) writeApart_aligned writeApart_ids
  rw [HashMapDb.limit_eq] at h
  rw [oneLog, BonsaiStorage.newInMemory]
  exact h

end Bonsai
