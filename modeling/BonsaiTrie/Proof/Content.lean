import BonsaiTrie.Proof.Requests
import BonsaiTrie.Spec.LeafStore

/-!
# What the leaves determine

The database of a committed tree (`CallRep.tries_eq`), what is read at a key
(`CallRep.get_read`), and what the requests between commits are answered
(`CallRep.request_ok`). A new tree over the database of a committed one has its
leaves (`LeafRep.reopen`).
-/

namespace Bonsai

open Patricia Run

section

variable [FeltCodec] {H : StarkHash} {n : Nat} {o : Fin 8} {cols : Columns} {tree : MerkleTree} {T : Option (Trie Felt)}
  {s : Leaves}

/-- Idle trees over the same database have the same leaves. -/
theorem LeafRep.idle (h : LeafRep H n o cols tree T s) (hi : tree.Idle) {tree' : MerkleTree} (hi' : tree'.Idle)
    (hid : tree'.identifier = tree.identifier) (hm : tree'.maxHeight.toNat = n) : LeafRep H n o cols tree' T s := by
  have hslots : tree'.nodes.slots = tree.nodes.slots := funext fun k => (hi'.nodes k).trans (hi.nodes k).symm
  have hdisk : tree'.disk cols = tree.disk cols := by
    funext p
    rw [MerkleTree.disk, MerkleTree.disk, hi.deathRow, hi'.deathRow, hid]
  have hrooted := h.rep.rooted
  rw [hi.root] at hrooted
  refine ⟨⟨hm, ?_, h.rep.wf, ?_, fun b => ?_⟩, h.trie, fun k hk => ?_, fun k hk => ?_, h.keys, fun b hb => ?_⟩
  · rw [hslots, hdisk, hi'.root]
    exact hrooted
  · rw [hdisk]
    exact h.rep.only
  · rw [hi'.deathRow]
    rfl
  · rw [← h.cache k hk, hi.cache, hi'.cache]
  · rw [hid]
    exact h.flat k hk
  · rw [hi'.cache] at hb
    cases hb

/-- A new tree over the database of an idle one. -/
theorem LeafRep.reopen (h : LeafRep H n o cols tree T s) (hi : tree.Idle) {m : UInt8} (hm : m.toNat = n) :
    LeafRep H n o cols (MerkleTree.new tree.identifier m) T s :=
  h.idle hi (MerkleTree.idle_new tree.identifier m) rfl hm

end

namespace CallRep

variable [FeltCodec] {DB ID : Type} [BonsaiDatabase DB] [InfallibleDatabase DB] {H : StarkHash} {n : Nat}
  {st : MerkleTrees DB ID} {s : Leaves}

/-- A new storage over a database whose leaves are those of a new tree. -/
theorem reopen {m : UInt8} {db : DB} {T : Option (Trie Felt)} (hT : LeafRep H m.toNat 0 (InfallibleDatabase.columns db) (.new [] m) T s)
    (hknown : ∀ key : TrieKey, (InfallibleDatabase.columns db key.toDatabaseKey).isSome → key.Known m.toNat)
    (config : BonsaiStorageConfig) : CallRep H m.toNat (BonsaiStorage.new db config m : BonsaiStorage DB ID) s := by
  refine ⟨⟨fun X tree hX => ?_, fun X hX => ⟨T, ?_⟩⟩, hknown⟩
  · cases hX
  · obtain rfl : X = [] := hX
    exact hT

/-- The nodes and leaves in the database of a committed tree. -/
theorem tries_eq (h : CallRep H n st s) (hi : (st.treeOf []).Idle) : st.db.columns.tries = s.tries H n := by
  obtain ⟨T, hT⟩ := h.leafRep
  funext key
  cases key with
  | trie b =>
    by_cases hb : ∃ p : Path, p.length < n ∧ b = p.encode
    · rw [Leaves.tries, dif_pos hb, hT.trie_eq]
      obtain ⟨hp, hchoose⟩ := hb.choose_spec
      have hc := hT.rep.columns_of_idle hi hp.le
      rw [h.rep.identifier_treeOf, List.nil_append, ← hchoose] at hc
      exact hc
    · rw [Leaves.tries, dif_neg hb]
      exact Option.not_isSome_iff_eq_none.mp (mt (h.known (.trie b)) hb)
  | flat b =>
    by_cases hb : ∃ k : Path, k.length = n ∧ b = bitsliceToBytes (.aligned k)
    · rw [Leaves.tries, dif_pos hb]
      obtain ⟨hk, hchoose⟩ := hb.choose_spec
      have hc := hT.flat _ hk
      rw [h.rep.identifier_treeOf, List.nil_append] at hc
      exact (congrArg (fun b => st.db.columns (.flat b)) hchoose).trans hc
    · rw [Leaves.tries, dif_neg hb]
      exact Option.not_isSome_iff_eq_none.mp (mt (h.known (.flat b)) hb)

/-- What is read at a key, of whatever length and wherever it starts. -/
theorem get_read (h : CallRep H n st s) (key : BitSlice) :
    BonsaiStorage.get st [] key = .ok (s.read n (bitsliceToBytes key)) := by
  by_cases hkey : ∃ k : Path, k.length = n ∧ bitsliceToBytes key = bitsliceToBytes (.aligned k)
  · rw [Leaves.read, dif_pos hkey]
    obtain ⟨hk, hb⟩ := hkey.choose_spec
    have hget : BonsaiStorage.get st [] (.aligned hkey.choose) = .ok (s.get hkey.choose) := h.rep.get_ok rfl rfl hk
    rw [← hget, BonsaiStorage.get, BonsaiStorage.get, MerkleTrees.get, MerkleTrees.get, MerkleTree.get, MerkleTree.get, ← hb]
  · rw [Leaves.read, dif_neg hkey]
    obtain ⟨T, hT⟩ := h.leafRep
    have hcache := Option.not_isSome_iff_eq_none.mp (mt (hT.known (bitsliceToBytes key)) hkey)
    have hflat := Option.not_isSome_iff_eq_none.mp (mt (h.known (.flat (bitsliceToBytes key))) hkey)
    rw [BonsaiStorage.get, MerkleTrees.get, MerkleTree.get]
    simp only [hcache, KeyValueDB.get_ok, h.rep.identifier_treeOf]
    rw [show TrieKey.new [] .flat (bitsliceToBytes key) = .flat (bitsliceToBytes key) from rfl, hflat]
    rfl

variable [Id ID] {T : Type} [BonsaiPersistentDatabase DB ID T]

/-- A request that is not a commit is answered as its leaves answer it, and leaves the database as it is. -/
theorem request_ok (h : CallRep H n st s) (hn : 0 < n) {r : Request ID} (hr : r.Aligned) (hid : r.commitId = none) :
    Trace.answer (Request.run H) r st = (r.answer n s st.db.config).mapError Refusal.failure ∧
      CallRep H n (Trace.next (Request.run H) r st) (r.leaves n s) ∧ (Trace.next (Request.run H) r st).db = st.db := by
  cases r with
  | set key value =>
    by_cases hkey : key.len = n
    · obtain ⟨st', hrun, hR, hdb⟩ := h.set_ok hn (Fin.ext hr) hkey value
      have hreq : Request.run H (.set key value) st = leaving (.ok none) st' := bind_pure_leaving (r := .ok ()) hrun none
      rw [Trace.answer_of hreq, Trace.next_of hreq, Request.leaves, Request.answer, if_pos hkey, if_pos hkey]
      exact ⟨rfl, hR, hdb⟩
    · obtain ⟨st', hrun, hR, hdb⟩ := h.rep.set_keyLength rfl hkey value
      have hreq : Request.run H (.set key value) st = leaving (.error (.error (.keyLength n key.len))) st' :=
        bind_pure_leaving (r := .error _) hrun none
      rw [Trace.answer_of hreq, Trace.next_of hreq, Request.leaves, Request.answer, if_neg hkey, if_neg hkey]
      exact ⟨rfl, ⟨hR, by rw [hdb]; exact h.known⟩, hdb⟩
  | get key =>
    have hreq : Request.run H (.get key) st = leaving (BonsaiStorage.get st [] key) st := rfl
    rw [Trace.answer_of hreq, Trace.next_of hreq, h.get_read]
    exact ⟨rfl, h, rfl⟩
  | getMultiProof keys =>
    obtain ⟨proof, st', hrun, hR, hdb⟩ := h.getMultiProof_ok hn keys
    have hreq : Request.run H (.getMultiProof keys) st =
        leaving (((proveAnswer n keys).map fun _ => proof).map fun _ => none) st' := bind_pure_leaving hrun none
    rw [Trace.answer_of hreq, Trace.next_of hreq]
    refine ⟨?_, hR, hdb⟩
    rw [proveAnswer, Request.answer]
    cases keys.find? fun key => key.len ≠ n with
    | none => rfl
    | some key => rfl
  | commit ords logOrd id => cases hid

end CallRep

/-- What a commit returns. -/
theorem Request.answer_commit {ID E : Type} {n : Nat} {s : Leaves} {config : KeyValueDBConfig} {ords : HashOrders}
    {logOrd : HashOrder} {id : ID} : (snapshotAnswer config : Except (Failure E) Unit).map (fun _ => none) =
      (Request.answer n s config (.commit ords logOrd id)).mapError Refusal.failure := by
  rw [snapshotAnswer, answer]
  by_cases hzero : config.snapshotInterval = 0
  · rw [if_pos hzero, if_pos hzero]
    rfl
  · rw [if_neg hzero, if_neg hzero]
    rfl

/-- A commit without a snapshot: the tree is committed, and the changes are logged. -/
theorem CallRep.transactionalCommit_ok [FeltCodec] {DB ID : Type} [BonsaiDatabase DB] [InfallibleDatabase DB] [AnswersOld DB]
    [Id ID] {H : StarkHash} {n : Nat} {st : BonsaiStorage DB ID} {s : Leaves} (h : CallRep H n st s)
    (hnew : st.db.currentChanges = ∅) (ords : HashOrders) (logOrd : HashOrder) (id : ID) :
    ∃ st₁ st' : BonsaiStorage DB ID, BonsaiStorage.transactionalCommit H ords logOrd id st = .ok () st' ∧
      CallRep H n st₁ s.commit ∧ (st₁.treeOf []).Idle ∧ st₁.db.Records st.db.columns ∧
      (∀ b, st₁.db.columns (.trieLog b) = st.db.columns (.trieLog b)) ∧ st₁.db.config = st.db.config ∧
      CallRep H n st' s.commit ∧ (st'.treeOf []).Idle ∧ st'.db.currentChanges = ∅ ∧ st'.db.config = st.db.config ∧
      st'.db.columns = st₁.db.logged logOrd id := by
  obtain ⟨st₁, h₁, hR₁, hidle, hrec, hk₁, hlog⟩ := h.commit_records hnew ords
  obtain ⟨kv₂, h₂, hk₂, hnew₂, hcols⟩ := st₁.db.commit_ok logOrd id
  have hsame : KeyValueDB.SameTries st₁.db.columns kv₂.columns := hcols ▸ st₁.db.logged_sameTries logOrd id
  refine ⟨st₁, { st₁ with db := kv₂ }, (bind_ok h₁ _).trans (MerkleTrees.onDb_ok h₂), hR₁, hidle, hrec, hlog, hk₁.1,
    ⟨hR₁.rep.congr_db _ hsame, fun key hs => hR₁.known key ?_⟩, hidle, hnew₂, (hk₁.trans hk₂).1, hcols⟩
  rwa [show kv₂.columns key.toDatabaseKey = _ from hsame key] at hs

/-- An empty database has no keys. -/
theorem HashMapDb.columns_none {ID : Type} (key : DatabaseKey) :
    InfallibleDatabase.columns (HashMapDb.empty : HashMapDb ID) key = none := by
  cases key <;> rfl

end Bonsai
