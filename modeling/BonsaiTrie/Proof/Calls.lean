import BonsaiTrie.Proof.HashMapDb
import BonsaiTrie.Proof.NodeHash
import BonsaiTrie.Proof.Runs
import BonsaiTrie.Spec.Calls

/-!
# Calls refine the leaves

`CallRep` relates a storage with the tree of the empty identifier to the
leaves of that tree. A call returns what it should and does to the leaves what
`Call.leaves` does (`CallRep.step`), and so does a run (`CallRep.simulates`).
-/

namespace Bonsai

open Patricia Run

/-- A key of a node or of a leaf of the tree of the empty identifier. -/
def TrieKey.Known (n : Nat) : TrieKey → Prop
  | .trie b => ∃ p : Path, p.length < n ∧ b = p.encode
  | .flat b => ∃ k : Path, k.length = n ∧ b = bitsliceToBytes (.aligned k)

/-- The storage has the tree of the empty identifier, with these leaves, and nothing else. -/
structure CallRep [FeltCodec] {DB ID : Type} [BonsaiDatabase DB] [InfallibleDatabase DB] (H : StarkHash) (n : Nat)
    (st : MerkleTrees DB ID) (s : Leaves) : Prop where
  rep : StorageRep H n 0 {[]} st fun _ => s
  known : ∀ key : TrieKey, (st.db.columns key.toDatabaseKey).isSome → key.Known n

/-- What a call returns. -/
def Call.answer {E : Type} (n : Nat) : Call → Except (Failure E) Unit
  | .set key _ => if key.len = n then .ok () else .error (.error (.keyLength n key.len))
  | .getMultiProof keys => proveAnswer n keys
  | .commit _ => .ok ()

theorem Call.answer_of_fits {E : Type} {n : Nat} {c : Call} (h : c.Fits n) :
    (c.answer n : Except (Failure E) Unit) = .ok () := by
  cases c with
  | set key value => exact if_pos h
  | getMultiProof keys => exact proveAnswer_ok h
  | commit ords => rfl

section

variable [FeltCodec] {DB ID : Type} [BonsaiDatabase DB] [InfallibleDatabase DB] {H : StarkHash} {n : Nat}
  {st : MerkleTrees DB ID} {s : Leaves} {key : BitSlice} {keys : List BitSlice} {value : Felt}

/-- Any node may be shown to the visitor of a proof. -/
theorem proofVisitor_visits_any {E : Type} {T : Trie Felt} (hT : T.WF n) (hn : n ≤ 255) (key : Path) :
    Visits (E := E) H anyMemo T key (fun _ => True) (fun _ _ => True) (MerkleTree.proofVisitor H) :=
  proofVisitor_visits (anyMemo_lawful H) hT (by omega) fun _ _ _ _ _ _ _ _ _ _ _ =>
    ⟨trivial, trivial, fun _ _ _ _ => trivial⟩

/-- A proof leaves the leaves of a tree as they are. -/
theorem LeafRep.getMultiProof_ok {o : Fin 8} {db : KeyValueDB DB ID} {tree : MerkleTree} {T : Option (Trie Felt)}
    (h : LeafRep H n o db.columns tree T s) (hn : 0 < n) (keys : List BitSlice) :
    ∃ proof nodes root, MerkleTree.getMultiProof H db keys tree =
        leaving ((proveAnswer n keys).map fun _ => proof) { tree with nodes := nodes, rootNode := root } ∧
      LeafRep H n o db.columns { tree with nodes := nodes, rootNode := root } T s := by
  obtain ⟨proof, nodes, root, hrun, hR, -⟩ := Bonsai.getMultiProof_ok h.rep (anyMemo_lawful H) hn keys
    (fun _ => True) (fun _ _ => True) trivial fun t ht key _ _ => proofVisitor_visits_any (h.rep.wf t ht) h.rep.le_255 key.bits
  exact ⟨proof, nodes, root, hrun, hR, h.trie, h.cache, h.flat, h.keys, h.known⟩

namespace CallRep

theorem leafRep (h : CallRep H n st s) : ∃ T, LeafRep H n 0 st.db.columns (st.treeOf []) T s := h.rep.leaves [] rfl

theorem le_255 (h : CallRep H n st s) : n ≤ 255 := by
  obtain ⟨T, hT⟩ := h.leafRep
  exact hT.rep.le_255

/-- The leaves of the one tree, changed. -/
theorem of_update {s' : Leaves} (h : StorageRep H n 0 {[]} st (Function.update (fun _ => s) [] s')) :
    StorageRep H n 0 {[]} st fun _ => s' := by
  refine h.congr_leaves fun X hX => ?_
  rw [Set.mem_singleton_iff.mp hX, Function.update_self]

/-- The one tree, changed. -/
theorem insert_tree (h : CallRep H n st s) {tree' : MerkleTree} {T' : Option (Trie Felt)} {s' : Leaves}
    (hT' : LeafRep H n 0 st.db.columns tree' T' s') (hid : tree'.identifier = []) :
    CallRep H n { st with trees := st.trees.insert [] tree' } s' :=
  ⟨of_update (h.rep.insert_tree rfl hT' hid), h.known⟩

theorem set_ok (h : CallRep H n st s) (hn : 0 < n) (hh : key.head = 0) (hkey : key.len = n) (value : Felt) :
    ∃ st', MerkleTrees.set [] key value st = .ok () st' ∧ CallRep H n st' (s.set key.bits value) ∧ st'.db = st.db := by
  obtain ⟨st', hrun, hR, hdb, -⟩ := h.rep.set_ok hn rfl hh hkey value fun _ t ht =>
    noStray_ofMap h.le_255 hh hkey ht
  exact ⟨st', hrun, ⟨of_update hR, by rw [hdb]; exact h.known⟩, hdb⟩

theorem getMultiProof_ok (h : CallRep H n st s) (hn : 0 < n) (keys : List BitSlice) :
    ∃ proof st', MerkleTrees.getMultiProof H [] keys st = leaving ((proveAnswer n keys).map fun _ => proof) st' ∧
      CallRep H n st' s ∧ st'.db = st.db := by
  obtain ⟨T, hT⟩ := h.leafRep
  obtain ⟨proof, nodes, root, hrun, hT'⟩ := hT.getMultiProof_ok hn keys
  let tree' : MerkleTree := { st.treeOf [] with nodes := nodes, rootNode := root }
  refine ⟨proof, { st with trees := st.trees.insert [] tree' }, ?_, h.insert_tree hT' (h.rep.identifier_treeOf []), rfl⟩
  rw [MerkleTrees.getMultiProof, MerkleTrees.onTree, hrun]
  cases (proveAnswer n keys : Except (Failure (BonsaiDatabase.DatabaseError DB)) Unit) <;> rfl

/-- The updates of the tree write its nodes and leaves only. -/
theorem known_updates (h : CallRep H n st s) {E : Type} {X : ByteVec} {tree : MerkleTree}
    (hX : st.trees.lookup X = some tree) {key : TrieKey} {bytes : ByteVec}
    (hk : (tree.updatesOf E H).lookup key = some (.insert bytes)) : key.Known n := by
  obtain ⟨hXS, hid, T, hT⟩ := h.rep.updates_ok hX
  rw [Set.mem_singleton_iff.mp hXS] at hid
  obtain ⟨-, hu, -⟩ := updatesOf_ok E hT.rep
  cases key with
  | trie b =>
    rcases hu.trie b with hl | ⟨t, r, -, ht, hr, hb, -⟩
    · rw [hl] at hk
      cases hd : tree.deathRow.lookup (.trie b) <;> rw [hd] at hk <;> cases hk
    · exact ⟨r, (hT.rep.wf t ht).length_lt_of_hasNode hr, by rw [hb, hid, List.nil_append]⟩
  | flat b =>
    have hl := hu.flat b
    rw [hid, List.nil_append, hk] at hl
    refine hT.known b ?_
    cases hc : tree.cacheLeafModified.lookup b with
    | none => rw [hc] at hl; cases hl
    | some v => rfl

theorem commit_ok (h : CallRep H n st s) (ords : HashOrders) :
    ∃ st', MerkleTrees.commit H ords st = .ok () st' ∧ CallRep H n st' s.commit ∧ (st'.treeOf []).Idle := by
  obtain ⟨st', hrun, hR, -, -, hidle⟩ := h.rep.commitTrees_ok (apart_singleton n []) h.rep.noIntrusion ords
  obtain ⟨st₂, hrun₂, -, -, -, hcols, -⟩ := MerkleTrees.commit_run (H := H) (fun X tree hl => by
    obtain ⟨-, -, T, hT⟩ := h.rep.updates_ok hl
    exact (updatesOf_ok _ hT.rep).1) ords
  obtain rfl : st' = st₂ := by rw [hrun] at hrun₂; cases hrun₂; rfl
  refine ⟨st', hrun, ⟨hR, fun key hs => ?_⟩, hidle []⟩
  by_contra hkey
  have hnew : ∀ u ∈ (st.trees.iter (ords 0)).map fun e => e.2.updatesOf (BonsaiDatabase.DatabaseError DB) H,
      ∀ bytes, u.lookup key ≠ some (.insert bytes) := by
    intro u hu bytes hl
    obtain ⟨e, he, rfl⟩ := List.mem_map.mp hu
    exact hkey (h.known_updates ((HashMap.mem_iter st.trees (ords 0)).mp he) hl)
  rw [hcols] at hs
  rw [Updates.applyAll_of_isSome hnew hs] at hs
  exact hkey (h.known key hs)

/-- A call returns what it should, and does to the leaves what it should. -/
theorem step (h : CallRep H n st s) (hn : 0 < n) {c : Call} (hc : c.Aligned) :
    Trace.answer (Call.run H) c st = c.answer n ∧ CallRep H n (Trace.next (Call.run H) c st) (c.leaves n s) := by
  cases c with
  | set key value =>
    by_cases hkey : key.len = n
    · obtain ⟨st', hrun, hR, -⟩ := h.set_ok hn (Fin.ext hc) hkey value
      have hrun : Call.run H (.set key value) st = leaving (.ok ()) st' := hrun
      rw [Trace.answer_of hrun, Trace.next_of hrun, Call.answer, Call.leaves, if_pos hkey, if_pos hkey]
      exact ⟨rfl, hR⟩
    · obtain ⟨st', hrun, hR, hdb⟩ := h.rep.set_keyLength rfl hkey value
      have hrun : Call.run H (.set key value) st = leaving (.error (.error (.keyLength n key.len))) st' := hrun
      rw [Trace.answer_of hrun, Trace.next_of hrun, Call.answer, Call.leaves, if_neg hkey, if_neg hkey]
      exact ⟨rfl, hR, by rw [hdb]; exact h.known⟩
  | getMultiProof keys =>
    obtain ⟨proof, st', hrun, hR, -⟩ := h.getMultiProof_ok hn keys
    have hrun : Call.run H (.getMultiProof keys) st = leaving (proveAnswer n keys) st' := by
      rw [Call.run, bind_run, hrun]
      cases (proveAnswer n keys : Except (Failure (BonsaiDatabase.DatabaseError DB)) Unit) <;> rfl
    rw [Trace.answer_of hrun, Trace.next_of hrun]
    exact ⟨rfl, hR⟩
  | commit ords =>
    obtain ⟨st', hrun, hR, -⟩ := h.commit_ok ords
    have hrun : Call.run H (.commit ords) st = leaving (.ok ()) st' := hrun
    rw [Trace.answer_of hrun, Trace.next_of hrun]
    exact ⟨rfl, hR⟩

/-- A new tree over a database that has none. -/
theorem start {db : KeyValueDB DB ID} (h : ∀ key : TrieKey, db.columns key.toDatabaseKey = none) (m : UInt8) :
    CallRep H m.toNat (MerkleTrees.new db m) .empty :=
  ⟨⟨(by rintro X tree ⟨⟩), fun X _ => ⟨none, .start h X m 0⟩⟩, fun key hs => by
    rw [show (MerkleTrees.new db m).db.columns key.toDatabaseKey = none from h key] at hs
    cases hs⟩

/-- A run does to the leaves what its calls do, and they return what they should. -/
theorem simulates (h : CallRep H n st s) (hn : 0 < n) {cs : List Call} (hcs : ∀ c ∈ cs, c.Aligned) :
    CallRep H n (Trace.after (Call.run H) cs st) (cs.foldl (Call.leaves n) s) ∧
      Trace.answers (Call.run H) cs st = cs.map (·.answer n) := by
  obtain ⟨hR, hans⟩ := Trace.simulates (R := CallRep H n) (f := Call.leaves n)
    (g := fun _ c => c.answer n) (fun st s c h hc => h.step hn hc) h (Trace.meets_of_forall hcs)
  refine ⟨hR, hans.trans ?_⟩
  clear hR hans h hcs
  induction cs generalizing s with
  | nil => rfl
  | cons c cs ih => exact congrArg₂ List.cons (Trace.answer_of rfl) ih

end CallRep

variable (H) in
/-- No call of a run fails: none ends with an error, a panic or without an end. -/
theorem calls_return (m : UInt8) (hm : 0 < m.toNat) (db : KeyValueDB DB ID)
    (hdb : ∀ key : TrieKey, db.columns key.toDatabaseKey = none) (cs : List Call)
    (hcs : ∀ c ∈ cs, c.Aligned ∧ c.Fits m.toNat) :
    Trace.answers (Call.run H) cs (MerkleTrees.new db m) = cs.map fun _ => .ok () := by
  obtain ⟨-, hans⟩ := (CallRep.start (H := H) hdb m).simulates hm fun c hc => (hcs c hc).1
  rw [hans]
  exact List.map_congr_left fun c hc => Call.answer_of_fits (hcs c hc).2

end

/-- Two keys that part at their last bit, both proved, one deleted between two commits. -/
def writeProveDelete : List Call :=
  [.set (.aligned [true, false]) 1, .set (.aligned [true, true]) 2, .getMultiProof [.aligned [true, true], .aligned [false, true]],
    .commit fun _ => .listed, .getMultiProof [.aligned [true, false]], .set (.aligned [true, true]) 0, .commit fun _ => .listed]

theorem writeProveDelete_fits : ∀ c ∈ writeProveDelete, c.Aligned ∧ c.Fits (UInt8.toNat 2) := by
  intro c hc
  simp only [writeProveDelete, List.mem_cons, List.not_mem_nil, or_false] at hc
  rcases hc with rfl | rfl | rfl | rfl | rfl | rfl | rfl
  all_goals exact ⟨by rw [Call.Aligned]; decide, by rw [Call.Fits]; decide⟩

theorem calls_return_delete :
    Trace.answers (Call.run fun a b => a + b) writeProveDelete (BonsaiStorage.inMemory 2) = writeProveDelete.map fun _ => .ok () := by
  exact calls_return (fun a b => a + b) 2 (by decide) (KeyValueDB.new HashMapDb.empty ⟨none, none, 1⟩ none)
    HashMapDb.columns_empty writeProveDelete writeProveDelete_fits

end Bonsai
