import BonsaiTrie.Proof.LeafStore

/-!
# Restarts and histories

A storage made anew over the database of another has the leaves committed last
(`restart_rolls_back`), and what a commit leaves in the database depends on
what is read after it alone, not on the run that led to it
(`database_canonical`).
-/

namespace Bonsai

open Patricia Run

section

variable [FeltCodec] {DB T : Type} [BonsaiDatabase DB] [InfallibleDatabase DB] [AnswersOld DB]
  [BonsaiPersistentDatabase DB BasicId T] [InfallibleSnapshots DB BasicId T] {H : StarkHash} {m : UInt8}
  {st : BonsaiStorage DB BasicId} {l : LeafStore} {rs : List (Request BasicId)}

namespace StoreRep

/-- Requests that are not commits leave the committed leaves, the content and the configuration. -/
theorem pending (h : StoreRep H m st l) (hm : 0 < m.toNat) (hrs : ∀ r ∈ rs, r.Aligned) (hids : ∀ r ∈ rs, r.commitId = none) :
    ∃ s, StoreRep H m (Trace.after (Request.run H) rs st) { l with leaves := s } := by
  induction rs generalizing st l with
  | nil => exact ⟨l.leaves, h⟩
  | cons r rs ih =>
    obtain ⟨hr, hrs⟩ := List.forall_mem_cons.mp hrs
    obtain ⟨hid, hids⟩ := List.forall_mem_cons.mp hids
    have hstep := (h.request hm hr).2
    rw [LeafStore.next_request, LeafStore.next_of_pending hid] at hstep
    obtain ⟨s, hs⟩ := ih hstep hrs hids
    exact ⟨s, hs⟩

/-- After a commit the leaves are the committed ones. -/
theorem commit (h : StoreRep H m st l) (hm : 0 < m.toNat) (ords : HashOrders) (logOrd : HashOrder) (id : BasicId) :
    StoreRep H m (Trace.next (Request.run H) (.commit ords logOrd id) st)
      { l with leaves := l.leaves.commit, committed := l.leaves.commit, columns := l.logged m.toNat H id } := by
  have hstep := (h.request (r := .commit ords logOrd id) hm trivial).2
  rwa [LeafStore.next_request] at hstep

end StoreRep

variable (H) in
/-- A storage made anew over the content of another one, which has requests pending since a commit, answers all later
requests as the other one did right after that commit, and leaves the same content. -/
theorem restart_rolls_back (m : UInt8) (hm : 0 < m.toNat) (db : DB) (hdb : ∀ key, InfallibleDatabase.columns db key = none)
    (config : BonsaiStorageConfig) (rs pending later : List (Request BasicId)) (hrs : ∀ r ∈ rs, r.Aligned)
    (hpending : ∀ r ∈ pending, r.Aligned ∧ r.commitId = none) (hlater : ∀ r ∈ later, r.Aligned) (ords : HashOrders)
    (logOrd : HashOrder) (id : BasicId) (db' : DB)
    (hdb' : InfallibleDatabase.columns db' =
      (Trace.after (Request.run H) (rs ++ [.commit ords logOrd id] ++ pending) (BonsaiStorage.new db config m)).db.columns) :
    Trace.answers (Request.run H) later (BonsaiStorage.new db' config m) =
        Trace.answers (Request.run H) later
          (Trace.after (Request.run H) (rs ++ [.commit ords logOrd id]) (BonsaiStorage.new db config m)) ∧
      (Trace.after (Request.run H) later (BonsaiStorage.new db' config m)).db.columns =
        (Trace.after (Request.run H) later
          (Trace.after (Request.run H) (rs ++ [.commit ords logOrd id]) (BonsaiStorage.new db config m))).db.columns := by
  have hnew : StoreRep H m (BonsaiStorage.new db config m) (.empty config) := .new hdb config m
  have hbefore := (hnew.requests hm hrs).1
  have hconfig : (Trace.after (LeafStore.request m.toNat H) rs (.empty config)).config = config := LeafStore.config_after rs
  generalize Trace.after (LeafStore.request m.toNat H) rs (.empty config) = l at hbefore hconfig
  subst hconfig
  have hcommitted := hbefore.commit hm ords logOrd id
  rw [← Trace.after_concat] at hcommitted
  obtain ⟨s, hcrashed⟩ := hcommitted.pending hm (fun r hr => (hpending r hr).1) fun r hr => (hpending r hr).2
  rw [← Trace.after_append] at hcrashed
  -- the store after the restart is that right after the commit
  have hopened := hcrashed.restart hdb' l.config
  obtain ⟨hend, hanswers⟩ := hcommitted.requests hm hlater
  obtain ⟨hend', hanswers'⟩ := hopened.requests hm hlater
  exact ⟨hanswers'.trans hanswers.symm, hend'.columns.trans hend.columns.symm⟩

end

/-- What is left of a storage in which a key is committed and another one pending. -/
def afterLoss (st : BonsaiStorage (HashMapDb BasicId) BasicId) : HashMapDb BasicId :=
  (Trace.after (Request.run fun a b => a + b)
    ([.set (.aligned [true, false]) 1] ++ [.commit (fun _ => .listed) .listed 1] ++ [.set (.aligned [true, true]) 2]) st).db.db

theorem columns_afterLoss (st : BonsaiStorage (HashMapDb BasicId) BasicId) :
    InfallibleDatabase.columns (afterLoss st) = (Trace.after (Request.run fun a b => a + b)
      ([.set (.aligned [true, false]) 1] ++ [.commit (fun _ => .listed) .listed 1] ++ [.set (.aligned [true, true]) 2])
        st).db.columns := rfl

theorem restart_rolls_back_loss :
    Trace.answers (Request.run fun a b => a + b) [.get (.aligned [true, true])]
        (BonsaiStorage.new (afterLoss (BonsaiStorage.newInMemory ⟨none, none, 1⟩ 2)) ⟨none, none, 1⟩ 2) =
      Trace.answers (Request.run fun a b => a + b) [.get (.aligned [true, true])]
        (Trace.after (Request.run fun a b => a + b)
          ([.set (.aligned [true, false]) 1] ++ [.commit (fun _ => .listed) .listed 1])
          (BonsaiStorage.newInMemory ⟨none, none, 1⟩ 2)) :=
  (restart_rolls_back (fun a b => a + b) 2 (by decide) HashMapDb.empty HashMapDb.columns_none ⟨none, none, 1⟩
    [.set (.aligned [true, false]) 1] [.set (.aligned [true, true]) 2] [.get (.aligned [true, true])]
    (List.forall_mem_singleton.mpr rfl) (List.forall_mem_singleton.mpr ⟨rfl, rfl⟩) (List.forall_mem_singleton.mpr trivial)
    (fun _ => .listed) .listed 1 (afterLoss (BonsaiStorage.newInMemory ⟨none, none, 1⟩ 2)) (columns_afterLoss _)).1

/-! ## The database after a commit -/

/-- Only the keys of `n` bits matter. -/
theorem Leaves.tries_congr [FeltCodec] {H : StarkHash} {n : Nat} {s s' : Leaves} (htrie : ∀ k, k.length = n → s.trie k = s'.trie k)
    (hflat : ∀ k, k.length = n → s.flat k = s'.flat k) : s.tries H n = s'.tries H n := by
  funext key
  cases key with
  | trie b => rw [tries, tries, ofMap_congr htrie]
  | flat b =>
    rw [tries, tries]
    by_cases hb : ∃ k : Path, k.length = n ∧ b = bitsliceToBytes (.aligned k)
    · rw [dif_pos hb, dif_pos hb, hflat _ hb.choose_spec.1]
    · rw [dif_neg hb, dif_neg hb]

section

variable [FeltCodec] {DB T : Type} [BonsaiDatabase DB] [InfallibleDatabase DB] [AnswersOld DB]
  [BonsaiPersistentDatabase DB BasicId T] [InfallibleSnapshots DB BasicId T] {H : StarkHash} {m : UInt8}
  {st : BonsaiStorage DB BasicId} {l : LeafStore}

/-- The leaves of a store, pending or committed, have the same values in the trie as are read. -/
structure LeafStore.InStep (l : LeafStore) : Prop where
  leaves : l.leaves.InStep
  committed : l.committed.InStep

namespace StoreRep

omit [AnswersOld DB] [BonsaiPersistentDatabase DB BasicId T] [InfallibleSnapshots DB BasicId T] in
/-- A write to a key for which no other value is pending keeps the trie in step. -/
theorem inStep_turn (h : StoreRep H m st l) (hl : l.InStep) {t : Turn DB} (ht : t.Tracked m.toNat st) :
    t.Sound st ∧ (Trace.next (LeafStore.run m.toNat H) t l).InStep := by
  cases t with
  | restart db config => exact ⟨ht, hl.committed, hl.committed⟩
  | transactionalCommit ords logOrd id => exact ⟨trivial, hl.leaves.commit, hl.leaves.commit⟩
  | request r =>
    rw [show Trace.next (LeafStore.run m.toNat H) (Turn.request r : Turn DB) l = _ from LeafStore.next_request]
    cases r with
    | set key value =>
      obtain ⟨hhead, hpending⟩ := ht
      refine ⟨hhead, ?_, hl.committed⟩
      show (Request.leaves m.toNat l.leaves (.set key value : Request BasicId)).InStep
      rw [Request.leaves]
      by_cases hkey : key.len = m.toNat
      · rw [if_pos hkey]
        refine hl.leaves.set fun hv old hold => hpending hkey hv old ?_
        rw [h.rep.rep.pendingOf_eq rfl (Fin.ext hhead) hkey, hold]
      · rw [if_neg hkey]
        exact hl.leaves
    | get key => exact ⟨trivial, hl⟩
    | getMultiProof keys => exact ⟨trivial, hl⟩
    | commit ords logOrd id => exact ⟨trivial, hl.leaves.commit, hl.leaves.commit⟩

/-- A tracked run. -/
theorem inStep_run (h : StoreRep H m st l) (hl : l.InStep) (hm : 0 < m.toNat) {ts : List (Turn DB)}
    (hts : Trace.Meets (Turn.run H m) (Turn.Tracked m.toNat) ts st) :
    ∃ l', StoreRep H m (Trace.after (Turn.run H m) ts st) l' ∧ l'.InStep := by
  refine Trace.invariant (I := fun st => ∃ l, StoreRep H m st l ∧ l.InStep) (fun st t hI ht => ?_) ⟨l, h, hl⟩ hts
  obtain ⟨l, h, hl⟩ := hI
  obtain ⟨hsound, hnext⟩ := h.inStep_turn hl ht
  exact ⟨_, (h.step hm hsound).2, hnext⟩

/-- After a commit of leaves that are in step, the nodes and leaves in the database and the root hash are those of the
map that is read. -/
theorem commit_canonical (h : StoreRep H m st l) (hl : l.InStep) (hm : 0 < m.toNat) (ords : HashOrders) (logOrd : HashOrder)
    (id : BasicId) :
    (Trace.next (Request.run H) (.commit ords logOrd id) st).db.columns.tries =
        (Leaves.mk (contentOf (Trace.next (Request.run H) (.commit ords logOrd id) st) [] 0) (fun _ => none)
          (contentOf (Trace.next (Request.run H) (.commit ords logOrd id) st) [] 0)).tries H m.toNat ∧
      BonsaiStorage.rootHash (Trace.next (Request.run H) (.commit ords logOrd id) st) [] =
        .ok (merkleRoot H m.toNat (contentOf (Trace.next (Request.run H) (.commit ords logOrd id) st) [] 0)) := by
  obtain ⟨-, st', hrun, -, -, -, -, -, hR, hidle, -⟩ := h.rep.commitStorage_ok h.changes ords logOrd id
  rw [Trace.next_of (Request.run_commit hrun)]
  have hcontent (k : Path) (hk : k.length = m.toNat) : l.leaves.trie k = contentOf st' [] 0 k :=
    (hl.leaves k).trans (hR.rep.contentOf_eq rfl hk).symm
  constructor
  · rw [hR.tries_eq hidle]
    exact Leaves.tries_congr hcontent fun k hk => (hl.leaves k).symm.trans (hcontent k hk)
  · obtain ⟨T, hT⟩ := hR.leafRep
    refine (hT.rootHash_ok hm hidle.root).trans (congrArg _ ?_)
    exact mapDigest_congr _ _ _ _ hcontent

/-- What a tracked run and a commit leave is determined by what is read. -/
theorem canonical_of_run (hm : 0 < m.toNat) {db : DB} (hdb : ∀ key, InfallibleDatabase.columns db key = none)
    {config : BonsaiStorageConfig} {ts : List (Turn DB)}
    (hts : Trace.Meets (Turn.run H m) (Turn.Tracked m.toNat) ts (BonsaiStorage.new db config m)) {ords : HashOrders}
    {logOrd : HashOrder} {id : BasicId} {st : BonsaiStorage DB BasicId}
    (hst : st = Trace.after (Turn.run H m) (ts ++ [.request (.commit ords logOrd id)]) (BonsaiStorage.new db config m)) :
    st.db.columns.tries = (Leaves.mk (contentOf st [] 0) (fun _ => none) (contentOf st [] 0)).tries H m.toNat ∧
      BonsaiStorage.rootHash st [] = .ok (merkleRoot H m.toNat (contentOf st [] 0)) := by
  have hempty : (LeafStore.empty config).InStep := ⟨fun _ => rfl, fun _ => rfl⟩
  obtain ⟨l, h, hl⟩ := (StoreRep.new (H := H) hdb config m).inStep_run hempty hm hts
  rw [Trace.after_concat] at hst
  subst hst
  exact h.commit_canonical hl hm ords logOrd id

end StoreRep

variable (H) in
/-- The database does not depend on the history: after two runs that end with a commit, over whatever backends and with
whatever configurations, restarts and ids, if the same values are read, then the nodes and leaves in the databases are
the same, byte for byte, and so are the root hashes. -/
theorem database_canonical {DB' T' : Type} [BonsaiDatabase DB'] [InfallibleDatabase DB'] [AnswersOld DB']
    [BonsaiPersistentDatabase DB' BasicId T'] [InfallibleSnapshots DB' BasicId T'] (m : UInt8) (hm : 0 < m.toNat)
    (db : DB) (hdb : ∀ key, InfallibleDatabase.columns db key = none) (config : BonsaiStorageConfig) (ts : List (Turn DB))
    (hts : Trace.Meets (Turn.run H m) (Turn.Tracked m.toNat) ts (BonsaiStorage.new db config m))
    (ords : HashOrders) (logOrd : HashOrder) (id : BasicId)
    (db' : DB') (hdb' : ∀ key, InfallibleDatabase.columns db' key = none) (config' : BonsaiStorageConfig) (ts' : List (Turn DB'))
    (hts' : Trace.Meets (Turn.run H m) (Turn.Tracked m.toNat) ts' (BonsaiStorage.new db' config' m))
    (ords' : HashOrders) (logOrd' : HashOrder) (id' : BasicId) (st : BonsaiStorage DB BasicId) (st' : BonsaiStorage DB' BasicId)
    (hst : st = Trace.after (Turn.run H m) (ts ++ [.request (.commit ords logOrd id)]) (BonsaiStorage.new db config m))
    (hst' : st' = Trace.after (Turn.run H m) (ts' ++ [.request (.commit ords' logOrd' id')]) (BonsaiStorage.new db' config' m))
    (hsame : ∀ k : Path, k.length = m.toNat → contentOf st [] 0 k = contentOf st' [] 0 k) :
    st.db.columns.tries = st'.db.columns.tries ∧
      ∃ root, BonsaiStorage.rootHash st [] = .ok root ∧ BonsaiStorage.rootHash st' [] = .ok root := by
  obtain ⟨htries, hroot⟩ := StoreRep.canonical_of_run hm hdb hts hst
  obtain ⟨htries', hroot'⟩ := StoreRep.canonical_of_run hm hdb' hts' hst'
  refine ⟨?_, _, hroot, hroot'.trans (congrArg _ ?_)⟩
  · exact htries.trans ((Leaves.tries_congr hsame hsame).trans htries'.symm)
  · exact mapDigest_congr _ _ _ _ fun k hk => (hsame k hk).symm

end

/-- Two keys are written one after the other. -/
def writeBoth : List (Turn (HashMapDb BasicId)) :=
  [.request (.set (.aligned [true, false]) 1), .request (.set (.aligned [true, true]) 2)]

/-- The same in the other order, with a commit between them. -/
def writeInTurn : List (Turn (HashMapDb BasicId)) :=
  [.request (.set (.aligned [true, true]) 2), .request (.commit (fun _ => .listed) .listed 1),
    .request (.set (.aligned [true, false]) 1)]

/-- What a run and a commit leave. -/
def committedAfter (ts : List (Turn (HashMapDb BasicId))) : BonsaiStorage (HashMapDb BasicId) BasicId :=
  Trace.after (Turn.run (fun a b => a + b) 2) (ts ++ [.request (.commit (fun _ => .listed) .listed 2)])
    (BonsaiStorage.new (HashMapDb.empty : HashMapDb BasicId) ⟨none, none, 1⟩ 2)

theorem writeBoth_tracked :
    Trace.Meets (Turn.run (fun a b => a + b) 2) (Turn.Tracked (UInt8.toNat 2)) writeBoth
      (BonsaiStorage.new (HashMapDb.empty : HashMapDb BasicId) ⟨none, none, 1⟩ 2) := by
  have hfresh : pendingOf (Trace.next (Turn.run (fun a b => a + b) 2) (.request (.set (.aligned [true, false]) 1))
      (BonsaiStorage.new (HashMapDb.empty : HashMapDb BasicId) ⟨none, none, 1⟩ 2)) [] (.aligned [true, true]) = none := by
    decide +kernel
  refine ⟨⟨rfl, fun _ _ old hold => ?_⟩, ⟨rfl, fun _ _ old hold => ?_⟩, trivial⟩
  · cases hold
  · rw [hfresh] at hold
    cases hold

theorem writeInTurn_tracked :
    Trace.Meets (Turn.run (fun a b => a + b) 2) (Turn.Tracked (UInt8.toNat 2)) writeInTurn
      (BonsaiStorage.new (HashMapDb.empty : HashMapDb BasicId) ⟨none, none, 1⟩ 2) := by
  have hfresh : pendingOf (Trace.next (Turn.run (fun a b => a + b) 2) (.request (.commit (fun _ => .listed) .listed 1))
      (Trace.next (Turn.run (fun a b => a + b) 2) (.request (.set (.aligned [true, true]) 2))
        (BonsaiStorage.new (HashMapDb.empty : HashMapDb BasicId) ⟨none, none, 1⟩ 2))) [] (.aligned [true, false]) = none := by
    decide +kernel
  refine ⟨⟨rfl, fun _ _ old hold => ?_⟩, trivial, ⟨rfl, fun _ _ old hold => ?_⟩, trivial⟩
  · cases hold
  · rw [hfresh] at hold
    cases hold

theorem committedAfter_eq (ts : List (Turn (HashMapDb BasicId))) :
    committedAfter ts = Trace.after (Turn.run (fun a b => a + b) 2) (ts ++ [.request (.commit (fun _ => .listed) .listed 2)])
      (BonsaiStorage.new (HashMapDb.empty : HashMapDb BasicId) ⟨none, none, 1⟩ 2) := rfl

theorem contentOf_writeBoth (k : Path) (hk : k.length = UInt8.toNat 2) :
    contentOf (committedAfter writeBoth) [] 0 k = contentOf (committedAfter writeInTurn) [] 0 k := by
  have hall : ∀ a b : Bool, contentOf (committedAfter writeBoth) [] 0 [a, b] = contentOf (committedAfter writeInTurn) [] 0 [a, b] := by
    decide +kernel
  obtain ⟨a, b, rfl⟩ := List.length_eq_two.mp (hk.trans (show UInt8.toNat 2 = 2 by decide))
  exact hall a b

theorem database_canonical_turns :
    (committedAfter writeBoth).db.columns.tries = (committedAfter writeInTurn).db.columns.tries :=
  (database_canonical (fun a b => a + b) 2 (by decide) HashMapDb.empty HashMapDb.columns_none ⟨none, none, 1⟩ writeBoth
    writeBoth_tracked (fun _ => .listed) .listed 2 HashMapDb.empty HashMapDb.columns_none ⟨none, none, 1⟩ writeInTurn
    writeInTurn_tracked (fun _ => .listed) .listed 2 (committedAfter writeBoth) (committedAfter writeInTurn) (committedAfter_eq _)
    (committedAfter_eq _) contentOf_writeBoth).1

end Bonsai
