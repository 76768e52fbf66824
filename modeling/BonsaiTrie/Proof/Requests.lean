import BonsaiTrie.Proof.Calls
import BonsaiTrie.Proof.Log
import BonsaiTrie.Spec.Requests

/-!
# Requests for proofs are read-only

A commit records the changes it makes (`CallRep.commit_records`), and leaves
columns that depend on the leaves alone (`CallRep.columns_eq`). So two
storages with the same leaves and the same columns, whatever they have loaded
(`SameContent`), have the same columns after a commit, the log included
(`SameContent.commit_ok`).
-/

namespace Bonsai

open Patricia Run

section

variable [FeltCodec] {DB ID : Type} [BonsaiDatabase DB] [InfallibleDatabase DB] {H : StarkHash} {n : Nat}
  {st st' : MerkleTrees DB ID} {s : Leaves} {key : BitSlice}

namespace CallRep

/-- There is at most the one tree. -/
theorem iter_trees (h : CallRep H n st s) (ord : HashOrder) :
    st.trees.iter ord = [] ∨ ∃ tree, st.trees.iter ord = [([], tree)] := by
  have hnil : ∀ e ∈ st.trees.iter ord, e.1 = [] := fun e he =>
    Set.mem_singleton_iff.mp (h.rep.trees e.1 e.2 ((HashMap.mem_iter st.trees ord).mp he)).1
  have hnodup := HashMap.nodup_iter st.trees ord
  generalize st.trees.iter ord = l at hnil hnodup ⊢
  rcases l with _ | ⟨⟨X, tree⟩, _ | ⟨e, l⟩⟩
  · exact .inl rfl
  · exact .inr ⟨tree, by rw [show X = [] from hnil _ List.mem_cons_self]⟩
  · have hX : X = [] := hnil _ List.mem_cons_self
    have he := hnil e (List.mem_cons_of_mem _ List.mem_cons_self)
    simp [hX, he] at hnodup

/-- A commit of the tree records the changes it makes. -/
theorem commit_records [AnswersOld DB] (h : CallRep H n st s) (hnew : st.db.currentChanges = ∅) (ords : HashOrders) :
    ∃ st', MerkleTrees.commit H ords st = .ok () st' ∧ CallRep H n st' s.commit ∧ (st'.treeOf []).Idle ∧
      st'.db.Records st.db.columns ∧ st.db.Kept st'.db ∧
      ∀ b, st'.db.columns (.trieLog b) = st.db.columns (.trieLog b) := by
  obtain ⟨st', hrun, hR, hidle⟩ := h.commit_ok ords
  obtain ⟨st₂, hrun₂, -, hk, -, hcols, kv, batch, happly, hchanges⟩ := MerkleTrees.commit_run (H := H) (fun X tree hl => by
    obtain ⟨-, -, T, hT⟩ := h.rep.updates_ok hl
    exact (updatesOf_ok _ hT.rep).1) ords
  obtain rfl : st' = st₂ := by rw [hrun] at hrun₂; cases hrun₂; rfl
  refine ⟨st', hrun, hR, hidle, fun key => ?_, hk, fun b => ?_⟩
  · rw [hchanges, hcols]
    rcases h.iter_trees (ords 0) with hi | ⟨tree, hi⟩
    · rw [hi] at happly ⊢
      cases happly
      exact .inr ⟨by rw [hnew, AList.lookup_empty], rfl⟩
    · rw [hi] at happly ⊢
      have hl := MerkleTrees.applyAll_records hnew happly key
      rw [hl]
      show _ ∨ _ ∧ Updates.apply _ _ _ = _
      cases hu : (tree.updatesOf (BonsaiDatabase.DatabaseError DB) H).lookup key with
      | none => exact .inr ⟨rfl, Updates.apply_of_none hu⟩
      | some v =>
        refine .inl (congrArg (fun new => some (Change.mk _ new)) ?_)
        refine Eq.symm ((Updates.apply_key _ _ key).trans ?_)
        rw [hu]
        rfl
  · rw [hcols, Updates.applyAll_trieLog]

/-- The nodes and leaves in the database of a committed tree are those of its leaves. -/
theorem columns_eq (h : CallRep H n st s) (h' : CallRep H n st' s) (hi : (st.treeOf []).Idle) (hi' : (st'.treeOf []).Idle)
    (key : TrieKey) : st.db.columns key.toDatabaseKey = st'.db.columns key.toDatabaseKey := by
  obtain ⟨T, hT⟩ := h.leafRep
  obtain ⟨T', hT'⟩ := h'.leafRep
  have hTT : T = T' := hT.trie_eq.symm.trans hT'.trie_eq
  by_cases hkey : key.Known n
  · cases key with
    | trie b =>
      obtain ⟨p, hp, rfl⟩ := hkey
      have hc := hT.rep.columns_of_idle hi hp.le
      have hc' := hT'.rep.columns_of_idle hi' hp.le
      rw [h.rep.identifier_treeOf, List.nil_append] at hc
      rw [h'.rep.identifier_treeOf, List.nil_append] at hc'
      exact hc.trans (hTT ▸ hc'.symm)
    | flat b =>
      obtain ⟨k, hk, rfl⟩ := hkey
      have hc := hT.flat k hk
      have hc' := hT'.flat k hk
      rw [h.rep.identifier_treeOf, List.nil_append] at hc
      rw [h'.rep.identifier_treeOf, List.nil_append] at hc'
      exact hc.trans hc'.symm
  · rw [Option.not_isSome_iff_eq_none.mp (mt (h.known key) hkey), Option.not_isSome_iff_eq_none.mp (mt (h'.known key) hkey)]

/-- Pending changes are those of the leaves. -/
theorem cache_eq (h : CallRep H n st s) (h' : CallRep H n st' s) (b : ByteVec) :
    (st.treeOf []).cacheLeafModified.lookup b = (st'.treeOf []).cacheLeafModified.lookup b := by
  obtain ⟨T, hT⟩ := h.leafRep
  obtain ⟨T', hT'⟩ := h'.leafRep
  by_cases hb : ∃ k : Path, k.length = n ∧ b = bitsliceToBytes (.aligned k)
  · obtain ⟨k, hk, rfl⟩ := hb
    exact (hT.cache k hk).trans (hT'.cache k hk).symm
  · rw [Option.not_isSome_iff_eq_none.mp (mt (hT.known b) hb), Option.not_isSome_iff_eq_none.mp (mt (hT'.known b) hb)]

/-- A read depends on the leaves and the columns. -/
theorem get_eq (h : CallRep H n st s) (h' : CallRep H n st' s) (hc : st.db.columns = st'.db.columns) (key : BitSlice) :
    BonsaiStorage.get st [] key = BonsaiStorage.get st' [] key := by
  simp only [BonsaiStorage.get, MerkleTrees.get, MerkleTree.get, KeyValueDB.get_ok, h.cache_eq h', hc,
    h.rep.identifier_treeOf, h'.rep.identifier_treeOf]

end CallRep

/-! ## Two storages -/

/-- Storages with the same leaves and the same columns. -/
structure SameContent (H : StarkHash) (n : Nat) (st st' : MerkleTrees DB ID) : Prop where
  leaves : ∃ s, CallRep H n st s ∧ CallRep H n st' s
  columns : st.db.columns = st'.db.columns
  changes : st.db.currentChanges = ∅ ∧ st'.db.currentChanges = ∅
  config : st.db.config = st'.db.config

namespace SameContent

/-- A write returns the same. -/
theorem set_ok (h : SameContent H n st st') (hn : 0 < n) {key : BitSlice} (hh : key.head.val = 0) (value : Felt) :
    ∃ r st₂ st₂', BonsaiStorage.insert [] key value st = leaving r st₂ ∧
      BonsaiStorage.insert [] key value st' = leaving r st₂' ∧ SameContent H n st₂ st₂' := by
  obtain ⟨s, hs, hs'⟩ := h.leaves
  by_cases hkey : key.len = n
  · obtain ⟨st₂, hrun, hR, hdb⟩ := hs.set_ok hn (Fin.ext hh) hkey value
    obtain ⟨st₂', hrun', hR', hdb'⟩ := hs'.set_ok hn (Fin.ext hh) hkey value
    refine ⟨.ok (), st₂, st₂', hrun, hrun', ⟨_, hR, hR'⟩, ?_, ?_, ?_⟩
    · rw [hdb, hdb']; exact h.columns
    · rw [hdb, hdb']; exact h.changes
    · rw [hdb, hdb']; exact h.config
  · obtain ⟨st₂, hrun, hR, hdb⟩ := hs.rep.set_keyLength rfl hkey value
    obtain ⟨st₂', hrun', hR', hdb'⟩ := hs'.rep.set_keyLength rfl hkey value
    refine ⟨.error (.error (.keyLength n key.len)), st₂, st₂', hrun, hrun',
      ⟨s, ⟨hR, by rw [hdb]; exact hs.known⟩, ⟨hR', by rw [hdb']; exact hs'.known⟩⟩, ?_, ?_, ?_⟩
    · rw [hdb, hdb']; exact h.columns
    · rw [hdb, hdb']; exact h.changes
    · rw [hdb, hdb']; exact h.config

/-- A proof made by one of them makes no difference. -/
theorem getMultiProof_ok (h : SameContent H n st st') (hn : 0 < n) (keys : List BitSlice) :
    ∃ r st₂, BonsaiStorage.getMultiProof H [] keys st = leaving r st₂ ∧ SameContent H n st₂ st' := by
  obtain ⟨s, hs, hs'⟩ := h.leaves
  obtain ⟨proof, st₂, hrun, hR, hdb⟩ := hs.getMultiProof_ok hn keys
  refine ⟨_, st₂, hrun, ⟨s, hR, hs'⟩, ?_, ?_, ?_⟩
  · rw [hdb]; exact h.columns
  · rw [hdb]; exact h.changes
  · rw [hdb]; exact h.config

end SameContent

end

section

variable [FeltCodec] {DB ID T : Type} [BonsaiDatabase DB] [InfallibleDatabase DB] [AnswersOld DB] [Id ID]
  [BonsaiPersistentDatabase DB ID T] [InfallibleSnapshots DB ID T] {H : StarkHash} {n : Nat}
  {st st' : BonsaiStorage DB ID} {s : Leaves}

/-- What `create_snapshot` returns. -/
def snapshotAnswer {E : Type} (config : KeyValueDBConfig) : Except (Failure E) Unit :=
  if config.snapshotInterval = 0 then .error (.panic "attempt to calculate the remainder with a divisor of zero") else .ok ()

omit [FeltCodec] [AnswersOld DB] in
/-- A snapshot leaves the content as it is, whether it is taken or not. -/
theorem KeyValueDB.createSnapshot_leaving (kv : KeyValueDB DB ID) (id : ID) :
    ∃ db', KeyValueDB.createSnapshot id kv = leaving (snapshotAnswer kv.config) { kv with db := db' } ∧
      InfallibleDatabase.columns db' = kv.columns := by
  by_cases h : kv.config.snapshotInterval = 0
  · exact ⟨kv.db, by rw [KeyValueDB.createSnapshot, snapshotAnswer, if_pos h, if_pos h]; rfl, rfl⟩
  · obtain ⟨db', hrun, hc⟩ := kv.createSnapshot_ok h id
    exact ⟨db', by rw [hrun, snapshotAnswer, if_neg h]; rfl, hc⟩

/-- A commit of the storage: the tree is committed, and the changes are logged. -/
theorem CallRep.commitStorage_ok (h : CallRep H n st s) (hnew : st.db.currentChanges = ∅) (ords : HashOrders)
    (logOrd : HashOrder) (id : ID) :
    ∃ st₁ st' : BonsaiStorage DB ID, BonsaiStorage.commit H ords logOrd id st = leaving (snapshotAnswer st.db.config) st' ∧
      CallRep H n st₁ s.commit ∧ (st₁.treeOf []).Idle ∧ st₁.db.Records st.db.columns ∧
      (∀ b, st₁.db.columns (.trieLog b) = st.db.columns (.trieLog b)) ∧ st₁.db.config = st.db.config ∧
      CallRep H n st' s.commit ∧ (st'.treeOf []).Idle ∧ st'.db.currentChanges = ∅ ∧ st'.db.config = st.db.config ∧
      st'.db.columns = st₁.db.logged logOrd id := by
  obtain ⟨st₁, h₁, hR₁, hidle, hrec, hk₁, hlog⟩ := h.commit_records hnew ords
  obtain ⟨kv₂, h₂, hk₂, hnew₂, hcols⟩ := st₁.db.commit_ok logOrd id
  obtain ⟨db₃, h₃, hc₃⟩ := kv₂.createSnapshot_leaving id
  have hconf : kv₂.config = st.db.config := (hk₁.trans hk₂).1
  have hcols' : ({ kv₂ with db := db₃ } : KeyValueDB DB ID).columns = st₁.db.logged logOrd id := hc₃.trans hcols
  have hsame : KeyValueDB.SameTries st₁.db.columns ({ kv₂ with db := db₃ } : KeyValueDB DB ID).columns :=
    hcols' ▸ st₁.db.logged_sameTries logOrd id
  refine ⟨st₁, { st₁ with db := { kv₂ with db := db₃ } }, ?_, hR₁, hidle, hrec, hlog, hk₁.1,
    ⟨hR₁.rep.congr_db _ hsame, fun key hs => ?_⟩, hidle, hnew₂, hconf, hcols'⟩
  · refine (bind_ok h₁ _).trans ((bind_ok (MerkleTrees.onDb_ok h₂) _).trans ?_)
    rw [MerkleTrees.onDb, h₃, hconf]
    cases (snapshotAnswer st.db.config : Except (Failure (BonsaiDatabase.DatabaseError DB)) Unit) <;> rfl
  · refine hR₁.known key ?_
    rwa [show ({ kv₂ with db := db₃ } : KeyValueDB DB ID).columns key.toDatabaseKey = _ from hsame key] at hs

omit [InfallibleDatabase DB] [AnswersOld DB] [InfallibleSnapshots DB ID T] in
theorem Request.run_commit {r : Except (Failure (BonsaiDatabase.DatabaseError DB)) Unit} {ords : HashOrders} {logOrd : HashOrder}
    {id : ID} (h : BonsaiStorage.commit H ords logOrd id st = leaving r st') :
    Request.run H (.commit ords logOrd id) st = leaving (r.map fun _ => none) st' :=
  bind_pure_leaving h none

namespace SameContent

/-- A commit returns the same, and leaves the same columns and the same root hash. -/
theorem commit_ok (h : SameContent H n st st') (hn : 0 < n) (ords ords' : HashOrders) (logOrd logOrd' : HashOrder) (id : ID) :
    ∃ st₂ st₂', BonsaiStorage.commit H ords logOrd id st = leaving (snapshotAnswer st.db.config) st₂ ∧
      BonsaiStorage.commit H ords' logOrd' id st' = leaving (snapshotAnswer st.db.config) st₂' ∧ SameContent H n st₂ st₂' ∧
      BonsaiStorage.rootHash st₂ [] = BonsaiStorage.rootHash st₂' [] := by
  obtain ⟨s, hs, hs'⟩ := h.leaves
  obtain ⟨st₁, st₂, hrun, hR₁, hidle₁, hrec, hlog, hconf₁, hR, hidle, hnew, hconf, hcols⟩ :=
    hs.commitStorage_ok h.changes.1 ords logOrd id
  obtain ⟨st₁', st₂', hrun', hR₁', hidle₁', hrec', hlog', hconf₁', hR', hidle', hnew', hconf', hcols'⟩ :=
    hs'.commitStorage_ok h.changes.2 ords' logOrd' id
  have hsame : st₁.db.columns = st₁'.db.columns := by
    funext k
    cases k with
    | trie b => exact hR₁.columns_eq hR₁' hidle₁ hidle₁' (.trie b)
    | flat b => exact hR₁.columns_eq hR₁' hidle₁ hidle₁' (.flat b)
    | trieLog b => rw [hlog, hlog', h.columns]
  have hlogged : st₁.db.logged logOrd id = st₁'.db.logged logOrd' id :=
    hrec.logged_eq (h.columns ▸ hrec') hsame (by rw [hconf₁, hconf₁', h.config]) logOrd logOrd' id
  refine ⟨st₂, st₂', hrun, by rw [hrun', h.config], ⟨⟨_, hR, hR'⟩, ?_, ⟨hnew, hnew'⟩, ?_⟩, ?_⟩
  · rw [hcols, hcols', hlogged]
  · rw [hconf, hconf', h.config]
  · obtain ⟨T, hT⟩ := hR.leafRep
    obtain ⟨T', hT'⟩ := hR'.leafRep
    exact (hT.rootHash_ok hn hidle.root).trans (hT'.rootHash_ok hn hidle'.root).symm

/-- Like requests get the same answer. -/
theorem step (h : SameContent H n st st') (hn : 0 < n) {r r' : Request ID} (hr : r.Aligned) (hl : r.Alike r') :
    Trace.answer (Request.run H) r st = Trace.answer (Request.run H) r' st' ∧
      SameContent H n (Trace.next (Request.run H) r st) (Trace.next (Request.run H) r' st') := by
  cases hl with
  | set key value =>
    obtain ⟨r, st₂, st₂', hrun, hrun', h₂⟩ := h.set_ok hn hr value
    have hreq : Request.run H (.set key value) st = leaving (r.map fun _ => none) st₂ :=
      bind_pure_leaving hrun none
    have hreq' : Request.run H (.set key value) st' = leaving (r.map fun _ => none) st₂' :=
      bind_pure_leaving hrun' none
    rw [Trace.answer_of hreq, Trace.answer_of hreq', Trace.next_of hreq, Trace.next_of hreq']
    exact ⟨rfl, h₂⟩
  | get key =>
    obtain ⟨s, hs, hs'⟩ := h.leaves
    have hreq : Request.run H (.get key) st = leaving (BonsaiStorage.get st [] key) st := rfl
    have hreq' : Request.run H (.get key) st' = leaving (BonsaiStorage.get st' [] key) st' := rfl
    rw [Trace.answer_of hreq, Trace.answer_of hreq', Trace.next_of hreq, Trace.next_of hreq']
    exact ⟨hs.get_eq hs' h.columns key, h⟩
  | commit ords ords' logOrd logOrd' id =>
    obtain ⟨st₂, st₂', hrun, hrun', h₂, -⟩ := h.commit_ok hn ords ords' logOrd logOrd' id
    have hreq := Request.run_commit hrun
    have hreq' := Request.run_commit hrun'
    rw [Trace.answer_of hreq, Trace.answer_of hreq', Trace.next_of hreq, Trace.next_of hreq']
    exact ⟨rfl, h₂⟩

/-- The same request gets the same answer. -/
theorem agree (h : SameContent H n st st') (hn : 0 < n) {r : Request ID} (hr : r.Aligned) :
    Trace.answer (Request.run H) r st = Trace.answer (Request.run H) r st' ∧
      SameContent H n (Trace.next (Request.run H) r st) (Trace.next (Request.run H) r st') := by
  cases r with
  | set key value => exact h.step hn hr (.set key value)
  | get key => exact h.step hn hr (.get key)
  | commit ords logOrd id => exact h.step hn hr (.commit ords ords logOrd logOrd id)
  | getMultiProof keys =>
    obtain ⟨s, hs, hs'⟩ := h.leaves
    obtain ⟨proof, st₂, hrun, hR, hdb⟩ := hs.getMultiProof_ok hn keys
    obtain ⟨proof', st₂', hrun', hR', hdb'⟩ := hs'.getMultiProof_ok hn keys
    have hreq : Request.run H (.getMultiProof keys) st = leaving ((proveAnswer n keys).map fun _ => none) st₂ := by
      refine (bind_pure_leaving hrun none).trans ?_
      cases (proveAnswer n keys : Except (Failure (BonsaiDatabase.DatabaseError DB)) Unit) <;> rfl
    have hreq' : Request.run H (.getMultiProof keys) st' = leaving ((proveAnswer n keys).map fun _ => none) st₂' := by
      refine (bind_pure_leaving hrun' none).trans ?_
      cases (proveAnswer n keys : Except (Failure (BonsaiDatabase.DatabaseError DB)) Unit) <;> rfl
    rw [Trace.answer_of hreq, Trace.answer_of hreq', Trace.next_of hreq, Trace.next_of hreq']
    refine ⟨rfl, ⟨s, hR, hR'⟩, ?_, ?_, ?_⟩
    · rw [hdb, hdb']; exact h.columns
    · rw [hdb, hdb']; exact h.changes
    · rw [hdb, hdb']; exact h.config

omit [AnswersOld DB] [InfallibleSnapshots DB ID T] in
/-- A request for a proof is not noticed. -/
theorem quiet (h : SameContent H n st st') (hn : 0 < n) {r : Request ID} (hr : r.isProof = true) :
    SameContent H n (Trace.next (Request.run H) r st) st' := by
  cases r with
  | getMultiProof keys =>
    obtain ⟨r, st₂, hrun, h₂⟩ := h.getMultiProof_ok hn keys
    have hreq : Request.run H (.getMultiProof keys) st = leaving (r.map fun _ => none) st₂ :=
      bind_pure_leaving hrun none
    rw [Trace.next_of hreq]
    exact h₂
  | set key value => cases hr
  | get key => cases hr
  | commit ords logOrd id => cases hr

end SameContent

variable (H) in
/-- Requests for proofs, put anywhere in a run, change neither what the other requests return nor the
columns, nor the root hash after a commit. -/
theorem proofs_read_only (m : UInt8) (hm : 0 < m.toNat) (db : DB)
    (hdb : ∀ key : TrieKey, InfallibleDatabase.columns db key.toDatabaseKey = none) (config : BonsaiStorageConfig)
    (rs rs' : List (Request ID)) (hrs : Request.WithProofs rs rs') (hkeys : ∀ r ∈ rs, r.Aligned) :
    Trace.heard (Request.run H) Request.isProof rs (BonsaiStorage.new db config m) =
        Trace.answers (Request.run H) rs' (BonsaiStorage.new db config m) ∧
      ∀ (ords ords' : HashOrders) (logOrd logOrd' : HashOrder) (id : ID),
        (Trace.after (Request.run H) (rs ++ [.commit ords logOrd id]) (BonsaiStorage.new db config m)).db.columns =
            (Trace.after (Request.run H) (rs' ++ [.commit ords' logOrd' id]) (BonsaiStorage.new db config m)).db.columns ∧
          BonsaiStorage.rootHash
              (Trace.after (Request.run H) (rs ++ [.commit ords logOrd id]) (BonsaiStorage.new db config m)) [] =
            BonsaiStorage.rootHash
              (Trace.after (Request.run H) (rs' ++ [.commit ords' logOrd' id]) (BonsaiStorage.new db config m)) [] := by
  have hnew : CallRep H m.toNat (BonsaiStorage.new db config m : BonsaiStorage DB ID) .empty :=
    .start (show ∀ key : TrieKey, (KeyValueDB.new db config none : KeyValueDB DB ID).columns key.toDatabaseKey = none from hdb) m
  obtain ⟨hend, hheard⟩ := Trace.padded (Request.run H) (R := SameContent H m.toNat) (Q := Request.Aligned)
    (fun st st' r h _ hr => h.quiet hm hr) (fun st st' r r' h hr hl => h.step hm hr hl) hrs hkeys
    ⟨⟨.empty, hnew, hnew⟩, rfl, ⟨rfl, rfl⟩, rfl⟩
  refine ⟨hheard, fun ords ords' logOrd logOrd' id => ?_⟩
  obtain ⟨st₂, st₂', hrun, hrun', h₂, hroot⟩ := hend.commit_ok hm ords ords' logOrd logOrd' id
  rw [Trace.after_concat, Trace.after_concat, Trace.next_of (Request.run_commit hrun),
    Trace.next_of (Request.run_commit hrun')]
  exact ⟨h₂.columns, hroot⟩

end

/-- Two keys that part at their last bit, written, committed, and one of them deleted. -/
def writeDelete : List (Request BasicId) :=
  [.set (.aligned [true, false]) 1, .set (.aligned [true, true]) 2, .commit (fun _ => .listed) .listed 1,
    .set (.aligned [true, true]) 0, .get (.aligned [true, true])]

/-- The same, with a proof before each commit and one that fails at its second key. -/
def writeDeleteProved : List (Request BasicId) :=
  [.set (.aligned [true, false]) 1, .set (.aligned [true, true]) 2, .getMultiProof [.aligned [true, true]],
    .commit (fun _ => .listed) .listed 1, .getMultiProof [.aligned [true, false], .aligned [true]],
    .set (.aligned [true, true]) 0, .get (.aligned [true, true])]

theorem writeDeleteProved_withProofs : Request.WithProofs writeDeleteProved writeDelete :=
  .call rfl (.set ..) (.call rfl (.set ..) (.pad rfl (.call rfl (.commit ..) (.pad rfl
    (.call rfl (.set ..) (.call rfl (.get ..) .nil))))))

theorem writeDeleteProved_aligned : ∀ r ∈ writeDeleteProved, r.Aligned := by
  intro r hr
  simp only [writeDeleteProved, List.mem_cons, List.not_mem_nil, or_false] at hr
  rcases hr with rfl | rfl | rfl | rfl | rfl | rfl | rfl
  all_goals rw [Request.Aligned]; decide

theorem proofs_read_only_delete :
    Trace.heard (Request.run fun a b => a + b) Request.isProof writeDeleteProved (BonsaiStorage.inMemory 2) =
      Trace.answers (Request.run fun a b => a + b) writeDelete (BonsaiStorage.inMemory 2) :=
  (proofs_read_only (fun a b => a + b) 2 (by decide) HashMapDb.empty HashMapDb.columns_empty ⟨none, none, 1⟩
    writeDeleteProved writeDelete writeDeleteProved_withProofs writeDeleteProved_aligned).1

end Bonsai
