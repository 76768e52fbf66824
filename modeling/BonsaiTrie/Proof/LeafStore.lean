import BonsaiTrie.Proof.History
import BonsaiTrie.Spec.LeafStore

/-!
# The storage refines a store of leaves

`StoreRep` relates a storage to a store of leaves: the same leaves, content and
configuration, and the committed leaves are those of a new tree over its
database. Every turn keeps it and is answered as the store answers it
(`StoreRep.step`), whatever the backend and the orders of iteration, and so is
a whole run (`StoreRep.run`).
-/

namespace Bonsai

open Patricia Run

/-! ## The log -/

namespace LeafStore

variable {n : Nat} {l : LeafStore} {c : Commit BasicId} {b v : ByteVec}

theorem logOf_eq_some : l.logOf c b = some v ↔
    if l.config.maxSavedTrieLogs = some 0 then l.columns (.trieLog b) = some v
    else (∀ k, l.config.maxSavedTrieLogs = some k → ∀ old : BasicId, c.id.toNat = old.toNat + k.toNat → ¬ Id.toBytes old <+: b) ∧
      (c.HasEntry b v ∨ (∀ w, ¬ c.HasEntry b w) ∧ l.columns (.trieLog b) = some v) := by
  rw [logOf]
  by_cases hzero : l.config.maxSavedTrieLogs = some 0
  · rw [if_pos hzero, if_pos hzero]
  rw [if_neg hzero, if_neg hzero]
  by_cases hpruned : l.config.Prunes c.id b
  · rw [if_pos hpruned]
    obtain ⟨k, hk, old, hold, hpre⟩ := hpruned
    constructor
    · intro h
      cases h
    · exact fun h => absurd hpre (h.1 k hk old hold)
  rw [if_neg hpruned]
  have hkept : ∀ k, l.config.maxSavedTrieLogs = some k → ∀ old : BasicId, c.id.toNat = old.toNat + k.toNat → ¬ Id.toBytes old <+: b :=
    fun k hk old hold hpre => hpruned ⟨k, hk, old, hold, hpre⟩
  by_cases hentry : ∃ w, c.HasEntry b w
  · rw [dif_pos hentry, Option.some.injEq]
    constructor
    · rintro rfl
      exact ⟨hkept, .inl hentry.choose_spec⟩
    · rintro ⟨-, h | ⟨h, -⟩⟩
      · exact Commit.HasEntry.unique hentry.choose_spec h
      · exact absurd hentry.choose_spec (h _)
  · rw [dif_neg hentry]
    constructor
    · exact fun h => ⟨hkept, .inr ⟨fun w hw => hentry ⟨w, hw⟩, h⟩⟩
    · rintro ⟨-, h | ⟨-, h⟩⟩
      · exact absurd ⟨v, h⟩ hentry
      · exact h

variable [FeltCodec] {H : StarkHash} {r : Request BasicId}

theorem request_eq : request n H r l = Run.leaving (r.answer n l.leaves l.config) (l.next n H r) := rfl

theorem answer_request : Trace.answer (request n H) r l = r.answer n l.leaves l.config := Trace.answer_of request_eq

theorem next_request : Trace.next (request n H) r l = l.next n H r := Trace.next_of request_eq

/-- A request that is not a commit changes the leaves only. -/
theorem next_of_pending (hid : r.commitId = none) :
    l.next n H r = { l with leaves := r.leaves n l.leaves } := by
  cases r with
  | commit ords logOrd id => cases hid
  | set key value => rfl
  | get key => rfl
  | getMultiProof keys => rfl

/-- No request changes the configuration. -/
theorem config_after (rs : List (Request BasicId)) : (Trace.after (request n H) rs l).config = l.config := by
  refine Trace.invariant (I := fun l' : LeafStore => l'.config = l.config) (fun l' r h (_ : True) => ?_) rfl
    (Trace.meets_of_forall fun _ _ => trivial)
  rw [next_request]
  cases r <;> exact h

end LeafStore

/-- What a commit did depends on the nodes and leaves before and after it. -/
theorem Commit.hasEntry_congr {ID : Type} [Id ID] {id : ID} {before after before' after' : Columns} {b v : ByteVec}
    (hb : before.tries = before'.tries) (ha : after.tries = after'.tries) :
    Commit.HasEntry ⟨id, before, after⟩ b v ↔ Commit.HasEntry ⟨id, before', after'⟩ b v := by
  simp only [HasEntry, change, hb, ha]

/-- What is in the database after the commit of a tree whose changes are recorded. -/
theorem KeyValueDB.Records.logged_eq_store [FeltCodec] {DB : Type} [BonsaiDatabase DB] [InfallibleDatabase DB] {H : StarkHash}
    {n : Nat} {kv : KeyValueDB DB BasicId} {l : LeafStore} (h : kv.Records l.columns)
    (hlog : ∀ b, kv.columns (.trieLog b) = l.columns (.trieLog b)) (htries : kv.columns.tries = l.leaves.commit.tries H n)
    (hconfig : kv.config = l.config) (ord : HashOrder) (id : BasicId) : kv.logged ord id = l.logged n H id := by
  have hafter : (kv.logged ord id).tries = (l.written n H).tries := by
    funext key
    refine (kv.logged_sameTries ord id key).trans ((congrFun htries key).trans ?_)
    cases key <;> rfl
  funext key
  cases key with
  | trie b => exact congrFun hafter (.trie b)
  | flat b => exact congrFun hafter (.flat b)
  | trieLog b =>
    refine Option.ext fun v => ?_
    rw [h.logged_iff hlog, LeafStore.logged, LeafStore.logOf_eq_some, hconfig]
    simp only [Commit.hasEntry_congr rfl hafter]

/-! ## Runs -/

section

variable [FeltCodec] {DB T : Type} [BonsaiDatabase DB] [InfallibleDatabase DB] [BonsaiPersistentDatabase DB BasicId T]
  {H : StarkHash} {m : UInt8} {st : BonsaiStorage DB BasicId} {l : LeafStore}

/-- The storage has the leaves, the content and the configuration of the store, and a new tree over its database has the
leaves committed last. -/
structure StoreRep (H : StarkHash) (m : UInt8) (st : BonsaiStorage DB BasicId) (l : LeafStore) : Prop where
  rep : CallRep H m.toNat st l.leaves
  disk : ∃ T, LeafRep H m.toNat 0 st.db.columns (MerkleTree.new [] m) T l.committed
  columns : st.db.columns = l.columns
  config : st.db.config = l.config
  changes : st.db.currentChanges = ∅

namespace StoreRep

omit [BonsaiPersistentDatabase DB BasicId T] in
/-- A storage made anew over the same content. -/
theorem restart (h : StoreRep H m st l) {db : DB} (hdb : InfallibleDatabase.columns db = st.db.columns)
    (config : BonsaiStorageConfig) :
    StoreRep H m (BonsaiStorage.new db config m) { l with leaves := l.committed, config := config } := by
  obtain ⟨T, hT⟩ := h.disk
  rw [← hdb] at hT
  exact ⟨.reopen hT (by rw [hdb]; exact h.rep.known) config, ⟨T, hT⟩, hdb.trans h.columns, rfl, rfl⟩

omit [BonsaiPersistentDatabase DB BasicId T] in
/-- A committed tree whose changes are recorded, and then logged. -/
theorem committed (h : StoreRep H m st l) {st₁ st' : BonsaiStorage DB BasicId} {logOrd : HashOrder} {id : BasicId}
    (hR₁ : CallRep H m.toNat st₁ l.leaves.commit) (hidle₁ : (st₁.treeOf []).Idle) (hrec : st₁.db.Records st.db.columns)
    (hlog : ∀ b, st₁.db.columns (.trieLog b) = st.db.columns (.trieLog b)) (hconf₁ : st₁.db.config = st.db.config)
    (hR : CallRep H m.toNat st' l.leaves.commit) (hidle : (st'.treeOf []).Idle) (hnew : st'.db.currentChanges = ∅)
    (hconf : st'.db.config = st.db.config) (hcols : st'.db.columns = st₁.db.logged logOrd id) (ords : HashOrders) :
    StoreRep H m st' (l.next m.toNat H (.commit ords logOrd id)) := by
  rw [h.columns] at hrec hlog
  have hlogged := hrec.logged_eq_store hlog (hR₁.tries_eq hidle₁) (hconf₁.trans h.config) logOrd id
  obtain ⟨T, hT⟩ := hR.leafRep
  have hopen := hT.reopen hidle rfl
  rw [hR.rep.identifier_treeOf] at hopen
  exact ⟨hR, ⟨T, hopen⟩, hcols.trans hlogged, hconf.trans h.config, hnew⟩

variable [AnswersOld DB]

omit [BonsaiPersistentDatabase DB BasicId T] in
/-- A commit without a snapshot. -/
theorem transactionalCommit (h : StoreRep H m st l) (ords : HashOrders) (logOrd : HashOrder) (id : BasicId) :
    ∃ st', BonsaiStorage.transactionalCommit H ords logOrd id st = .ok () st' ∧
      StoreRep H m st' (l.next m.toNat H (.commit ords logOrd id)) := by
  obtain ⟨st₁, st', hrun, hR₁, hidle₁, hrec, hlog, hconf₁, hR, hidle, hnew, hconf, hcols⟩ :=
    h.rep.transactionalCommit_ok h.changes ords logOrd id
  exact ⟨st', hrun, h.committed hR₁ hidle₁ hrec hlog hconf₁ hR hidle hnew hconf hcols ords⟩

variable [InfallibleSnapshots DB BasicId T]

/-- A request is answered as the store answers it. -/
theorem request (h : StoreRep H m st l) (hm : 0 < m.toNat) {r : Request BasicId} (hr : r.Aligned) :
    Trace.answer (Request.run H) r st = (Trace.answer (LeafStore.request m.toNat H) r l).mapError Refusal.failure ∧
      StoreRep H m (Trace.next (Request.run H) r st) (Trace.next (LeafStore.request m.toNat H) r l) := by
  rw [LeafStore.answer_request, LeafStore.next_request]
  cases hid : r.commitId with
  | none =>
    obtain ⟨hanswer, hR, hdb⟩ := h.rep.request_ok hm hr hid
    rw [LeafStore.next_of_pending hid, hanswer, h.config]
    exact ⟨rfl, hR, by rw [hdb]; exact h.disk, by rw [hdb]; exact h.columns, by rw [hdb]; exact h.config,
      by rw [hdb]; exact h.changes⟩
  | some id =>
    cases r with
    | commit ords logOrd id =>
      obtain ⟨st₁, st', hrun, hR₁, hidle₁, hrec, hlog, hconf₁, hR, hidle, hnew, hconf, hcols⟩ :=
        h.rep.commitStorage_ok h.changes ords logOrd id
      rw [Trace.answer_of (Request.run_commit hrun), Trace.next_of (Request.run_commit hrun)]
      rw [h.config]
      exact ⟨Request.answer_commit, h.committed hR₁ hidle₁ hrec hlog hconf₁ hR hidle hnew hconf hcols ords⟩
    | set key value => cases hid
    | get key => cases hid
    | getMultiProof keys => cases hid

/-- A turn is answered as the store answers it. -/
theorem step (h : StoreRep H m st l) (hm : 0 < m.toNat) {t : Turn DB} (ht : t.Sound st) :
    Trace.answer (Turn.run H m) t st = (Trace.answer (LeafStore.run m.toNat H) t l).mapError Refusal.failure ∧
      StoreRep H m (Trace.next (Turn.run H m) t st) (Trace.next (LeafStore.run m.toNat H) t l) := by
  cases t with
  | request r => exact h.request hm ht
  | transactionalCommit ords logOrd id =>
    obtain ⟨st', hrun, hR⟩ := h.transactionalCommit ords logOrd id
    have hturn : Turn.run H m (.transactionalCommit ords logOrd id) st = leaving (.ok none) st' := bind_ok hrun _
    rw [Trace.answer_of hturn, Trace.next_of hturn]
    exact ⟨rfl, hR⟩
  | restart db config => exact ⟨rfl, h.restart ht config⟩

omit [AnswersOld DB] [InfallibleSnapshots DB BasicId T] [BonsaiPersistentDatabase DB BasicId T] in
/-- A new storage over an empty database. -/
theorem new {db : DB} (hdb : ∀ key, InfallibleDatabase.columns db key = none) (config : BonsaiStorageConfig) (m : UInt8) :
    StoreRep H m (BonsaiStorage.new db config m) (.empty config) :=
  ⟨.start (fun _ => hdb _) m, ⟨none, .start (fun _ => hdb _) [] m 0⟩, funext hdb, rfl, rfl⟩

/-- A run is answered as the store answers it. -/
theorem run (h : StoreRep H m st l) (hm : 0 < m.toNat) {ts : List (Turn DB)}
    (hts : Trace.Meets (Turn.run H m) Turn.Sound ts st) :
    StoreRep H m (Trace.after (Turn.run H m) ts st) (Trace.after (LeafStore.run m.toNat H) ts l) ∧
      Trace.answers (Turn.run H m) ts st =
        (Trace.answers (LeafStore.run m.toNat H) ts l).map (Except.mapError Refusal.failure) :=
  Trace.refines (fun _ _ _ h ht => h.step hm ht) h hts

/-- A run of requests is answered as the store answers it. -/
theorem requests (h : StoreRep H m st l) (hm : 0 < m.toNat) {rs : List (Request BasicId)} (hrs : ∀ r ∈ rs, r.Aligned) :
    StoreRep H m (Trace.after (Request.run H) rs st) (Trace.after (LeafStore.request m.toNat H) rs l) ∧
      Trace.answers (Request.run H) rs st =
        (Trace.answers (LeafStore.request m.toNat H) rs l).map (Except.mapError Refusal.failure) :=
  Trace.refines (fun _ _ r h (hr : r.Aligned) => h.request hm hr) h (Trace.meets_of_forall hrs)

end StoreRep

variable [AnswersOld DB] [InfallibleSnapshots DB BasicId T]

variable (H) in
/-- The storage refines the store of leaves: a run of requests, over any backend that does not fail and with new storages
made over its content at any points, is answered as the store answers it, and leaves the content of the store. -/
theorem storage_refines (m : UInt8) (hm : 0 < m.toNat) (db : DB) (hdb : ∀ key, InfallibleDatabase.columns db key = none)
    (config : BonsaiStorageConfig) (ts : List (Turn DB))
    (hts : Trace.Meets (Turn.run H m) Turn.Sound ts (BonsaiStorage.new db config m)) :
    Trace.answers (Turn.run H m) ts (BonsaiStorage.new db config m) =
        (Trace.answers (LeafStore.run m.toNat H) ts (.empty config)).map (Except.mapError Refusal.failure) ∧
      (Trace.after (Turn.run H m) ts (BonsaiStorage.new db config m)).db.columns =
        (Trace.after (LeafStore.run m.toNat H) ts (.empty config)).columns := by
  obtain ⟨hR, hanswers⟩ := (StoreRep.new hdb config m).run hm hts
  exact ⟨hanswers, hR.columns⟩

end

/-- A key is written to a storage, and read from one made anew over its database, with other settings. -/
def writeReopen (st : BonsaiStorage (HashMapDb BasicId) BasicId) : List (Turn (HashMapDb BasicId)) :=
  [.request (.set (.aligned [true, false]) 1), .request (.commit (fun _ => .listed) .listed 1),
    .restart (Trace.after (Request.run fun a b => a + b)
      [.set (.aligned [true, false]) 1, .commit (fun _ => .listed) .listed 1] st).db.db ⟨some 3, none, 0⟩,
    .request (.get (.aligned [true, false]))]

theorem writeReopen_sound (st : BonsaiStorage (HashMapDb BasicId) BasicId) :
    Trace.Meets (Turn.run (fun a b => a + b) 2) Turn.Sound (writeReopen st) st :=
  ⟨rfl, trivial, rfl, trivial, trivial⟩

theorem storage_refines_reopen :
    Trace.answers (Turn.run (fun a b => a + b) 2) (writeReopen (BonsaiStorage.newInMemory ⟨none, none, 1⟩ 2))
        (BonsaiStorage.newInMemory ⟨none, none, 1⟩ 2) =
      (Trace.answers (LeafStore.run (UInt8.toNat 2) fun a b => a + b)
        (writeReopen (BonsaiStorage.newInMemory ⟨none, none, 1⟩ 2)) (.empty ⟨none, none, 1⟩)).map
          (Except.mapError Refusal.failure) :=
  (storage_refines (fun a b => a + b) 2 (by decide) HashMapDb.empty HashMapDb.columns_none ⟨none, none, 1⟩
    (writeReopen (BonsaiStorage.newInMemory ⟨none, none, 1⟩ 2)) (writeReopen_sound _)).1

end Bonsai
