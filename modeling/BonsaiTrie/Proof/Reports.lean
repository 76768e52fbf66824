import BonsaiTrie.Proof.Frame
import BonsaiTrie.Proof.Requests
import BonsaiTrie.Spec.Reports

/-!
# `root_hash` reports the latest commit

Walks change nothing that `root_hash` reads (`walked_rootHash`), nor does a
proof once the root has a hash (`getMultiProof_rootHash`); a write takes the
hash of the root away or leaves it (`RootFades`). So `root_hash` returns the
root hash of the latest commit, or that there are uncommitted changes
(`rootHash_latest`), unless a request does what `Request.KeepsRoot` rules out.
-/

namespace Bonsai

open Patricia Run MerkleTree

/-! ## What `root_hash` reads -/

section

variable [FeltCodec] {DB ID : Type} [BonsaiDatabase DB] {db : KeyValueDB DB ID} {tree tree' : MerkleTree}
  {r : Except (Failure (BonsaiDatabase.DatabaseError DB)) Felt} {H : StarkHash} {h : Felt} {k : NodeKey}

/-- The root, as far as it is loaded, and its hash. -/
theorem rootHash_congr (hroot : tree'.rootNode = tree.rootNode) (hid : tree'.identifier = tree.identifier)
    (hdead : tree'.deathRow = tree.deathRow)
    (hslot : ∀ k, tree.rootNode = some (.loaded k) →
      (tree'.nodes.slots k).map Node.getHash = (tree.nodes.slots k).map Node.getHash) :
    rootHash db tree' = rootHash db tree := by
  rw [rootHash, rootHash, hroot]
  rcases hr : tree.rootNode with _ | (_ | k)
  · obtain ⟨r, hread⟩ := getTrieBranch_leaving db tree []
    simp only [hread tree' hid hdead, hread tree rfl rfl]
    cases r with
    | error e => rfl
    | ok node => cases node <;> rfl
  · rfl
  · have h := hslot k hr
    cases hk : tree.nodes.slots k with
    | none =>
      rw [hk, Option.map_none, Option.map_eq_none_iff] at h
      simp only [hk, h]
    | some node =>
      rw [hk, Option.map_some, Option.map_eq_some_iff] at h
      obtain ⟨node', hk', hhash⟩ := h
      simp only [hk, hk', hhash]

/-- The cache is not in it. -/
theorem rootHash_cache (cache : HashMap ByteVec (InsertOrRemove Felt)) :
    rootHash db { tree with cacheLeafModified := cache } = rootHash db tree :=
  rootHash_congr rfl rfl rfl fun _ _ => rfl

/-- An answer of `root_hash` other than a failure of the database. -/
def Reported {E : Type} (r : Except (Failure E) Felt) : Prop := (∃ h, r = .ok h) ∨ r = uncommitted

/-- A root with a hash. -/
theorem rootHash_some {node : Node} (hroot : tree.rootNode = some (.loaded k)) (hk : tree.nodes.slots k = some node)
    (hh : node.getHash = some h) : rootHash db tree = .ok h := by
  simp only [rootHash, hroot, hk, hh]

/-- A root without one. -/
theorem rootHash_none {node : Node} (hroot : tree.rootNode = some (.loaded k)) (hk : tree.nodes.slots k = some node)
    (hh : node.getHash = none) : rootHash db tree = uncommitted := by
  simp only [rootHash, hroot, hk, hh, uncommitted]

theorem Reported.isSome (hr : Reported r) (h : rootHash db tree = r) (hroot : tree.rootNode = some (.loaded k)) :
    (tree.nodes.slots k).isSome := by
  subst h
  cases hk : tree.nodes.slots k with
  | some node => rfl
  | none =>
    simp only [rootHash, hroot, hk] at hr
    rcases hr with ⟨_, he⟩ | he
    · cases he
    · simp [uncommitted] at he

variable [InfallibleDatabase DB]

/-- The root is loaded with the hash that it has in the database. -/
theorem loadRootNode_rootHash (hr : Reported r) :
    Preserves (fun tree => rootHash db tree = r) (MerkleTree.loadRootNode db) := by
  intro tree h
  rw [MerkleTree.loadRootNode, bind_ok (self_run tree)]
  rcases hroot : tree.rootNode with _ | (_ | k)
  · simp only
    rw [bind_ok (self_run tree)]
    cases hd : tree.disk db.columns [] with
    | none =>
      have hload : loadDbNode db (TrieKey.new tree.identifier .trie [0]) tree = .ok none tree := loadDbNode_none hd
      rw [bind_ok hload]
      simp only [rootHash, hroot, getTrieBranch_none hd] at h
      exact h
    | some bytes =>
      cases hdec : Node.decode bytes with
      | error f =>
        obtain ⟨e, hload⟩ := loadDbNode_error hd hdec
        have hload : loadDbNode db (TrieKey.new tree.identifier .trie [0]) tree = .error e tree := hload
        rw [bind_error hload]
        exact h
      | ok node =>
        have hload : loadDbNode db (TrieKey.new tree.identifier .trie [0]) tree = .ok (some tree.nodes.next) _ :=
          loadDbNode_some hd hdec
        rw [bind_ok hload]
        simp only [rootHash, hroot, getTrieBranch_some hd hdec] at h
        have hk : (tree.nodes.insert node).2.slots tree.nodes.next = some node := by
          rw [SlotMap.insert_slots, if_pos rfl]
        cases hh : node.getHash with
        | none =>
          simp only [hh] at h
          subst h
          rcases hr with ⟨_, he⟩ | he
          · cases he
          · simp [uncommitted] at he
        | some x =>
          simp only [hh] at h
          rw [← h]
          exact rootHash_some rfl hk hh
  · exact h
  · exact h

/-- Walks do not change what `root_hash` returns. -/
theorem walked_rootHash (hr : Reported r) : Walked db fun tree => rootHash db tree = r where
  insert := by
    intro tree node h
    rw [← h]
    refine rootHash_congr rfl rfl rfl fun k hroot => ?_
    have hne : k ≠ tree.nodes.next := by
      rintro rfl
      have hs := hr.isSome h hroot
      rw [tree.nodes.fresh _ le_rfl] at hs
      cases hs
    rw [SlotMap.insert_slots, if_neg hne]
  relink := by
    intro tree k node node' h hk hhash
    rw [← h]
    refine rootHash_congr rfl rfl rfl fun j hroot => ?_
    by_cases hj : j = k
    · subst hj
      rw [SlotMap.set_slots_self (by rw [hk]; rfl), hk, Option.map_some, Option.map_some, hhash]
    · rw [SlotMap.set_slots_of_ne _ _ hj]
  loadRoot := loadRootNode_rootHash hr

/-! ## Proofs -/

/-- The hash of the root is known, and its handle is the given one. -/
def RootHashed (db : KeyValueDB DB ID) (root : Option RootHandle) (h : Felt) (tree : MerkleTree) : Prop :=
  tree.rootNode = root ∧ rootHash db tree = .ok h

omit [InfallibleDatabase DB] in
/-- A node that gets a memo is not the root. -/
theorem memoise_rootHashed {root : Option RootHandle} (hne : root ≠ some (.loaded k)) (x : Felt) :
    Preserves (RootHashed db root h) (memoise k x : M (BonsaiDatabase.DatabaseError DB) Felt) := by
  rintro tree ⟨hroot, hh⟩
  rw [memoise, bind_run, getNodeMut]
  cases hk : tree.nodes.slots k with
  | none => exact ⟨hroot, hh⟩
  | some node =>
    have hset : rootHash db { tree with nodes := tree.nodes.set k (node.setHash x) } = rootHash db tree := by
      refine rootHash_congr rfl rfl rfl fun j hj => ?_
      have hjk : j ≠ k := by
        rintro rfl
        exact hne (hroot.symm.trans hj)
      rw [SlotMap.set_slots_of_ne _ _ hjk]
    simp only
    rw [bind_run, putNode, bind_run, getNodeMut, hk]
    exact ⟨hroot, hset.trans hh⟩

omit [InfallibleDatabase DB] in
/-- Computing the hash of a node computes no hash of the root. -/
theorem getOrComputeNodeHash_rootHashed (root : Option RootHandle) (fuel : Nat) (handle : NodeHandle) :
    Preserves (RootHashed db root h) (getOrComputeNodeHash H fuel handle : M (BonsaiDatabase.DatabaseError DB) Felt) := by
  induction fuel generalizing handle with
  | zero =>
    cases handle with
    | hash felt => exact .pure _
    | inMemory key => exact .throw _
  | succ fuel ih =>
    cases handle with
    | hash felt => exact .pure _
    | inMemory key =>
      rintro tree ⟨hroot, hh⟩
      rw [getOrComputeNodeHash, bind_run, getNodeMut]
      have hne (node : Node) (hk : tree.nodes.slots key = some node) (hnone : node.getHash = none) : root ≠ some (.loaded key) := by
        rintro rfl
        rw [rootHash_none hroot hk hnone] at hh
        cases hh
      rcases hk : tree.nodes.slots key with _ | (⟨hash, height, l, r⟩ | ⟨hash, height, path, child⟩)
      · exact ⟨hroot, hh⟩
      · cases hash with
        | some x => exact ⟨hroot, hh⟩
        | none =>
          exact (Preserves.bind (ih l) fun left => .bind (ih r) fun right => memoise_rootHashed (hne _ hk rfl) _) tree ⟨hroot, hh⟩
      · cases hash with
        | some x => exact ⟨hroot, hh⟩
        | none =>
          exact (Preserves.bind (ih child) fun x => .bind (Framed.lift _) fun y => memoise_rootHashed (hne _ hk rfl) _) tree
            ⟨hroot, hh⟩

omit [InfallibleDatabase DB] in
theorem nodeHash_rootHash (handle : NodeHandle) :
    Preserves (fun tree => rootHash db tree = .ok h) (nodeHash H handle : M (BonsaiDatabase.DatabaseError DB) Felt) := fun tree hh =>
  (Preserves.bind Framed.self fun _ => getOrComputeNodeHash_rootHashed tree.rootNode _ handle) tree ⟨rfl, hh⟩ |>.2

omit [InfallibleDatabase DB] in
theorem proofNode_rootHash (node : Node) :
    Preserves (fun tree => rootHash db tree = .ok h) (proofNode H node : M (BonsaiDatabase.DatabaseError DB) ProofNode) := by
  cases node with
  | binary b => exact .bind (nodeHash_rootHash _) fun left => .bind (nodeHash_rootHash _) fun right => .pure _
  | edge e => exact .bind (nodeHash_rootHash _) fun child => .pure _

omit [FeltCodec] [BonsaiDatabase DB] [InfallibleDatabase DB] in
theorem Framed.besideVisitor {E V α : Type} {I : MerkleTree → Prop} {m : M E α} (h : Preserves I m) :
    Preserves (fun s : V × MerkleTree => I s.2) (MerkleTree.besideVisitor m) := by
  rintro ⟨visitor, tree⟩ hs
  have hm := h tree hs
  rw [MerkleTree.besideVisitor]
  cases hrun : m tree with
  | ok a tree' => rw [hrun] at hm; exact hm
  | error e tree' => rw [hrun] at hm; exact hm

/-- A proof does not change a known root hash. -/
theorem getMultiProof_rootHash (keys : List BitSlice) :
    Preserves (fun tree => rootHash db tree = .ok h) (MerkleTree.getMultiProof H db keys) := by
  have hnode (k : NodeKey) : Preserves (fun tree => rootHash db tree = .ok h)
      (MerkleTree.getNodeMut k : M (BonsaiDatabase.DatabaseError DB) Node) := Framed.getNodeMut k
  have hvisit (k : NodeKey) (d : Nat) : Preserves (fun s : MultiProof × MerkleTree => rootHash db s.2 = .ok h)
      (proofVisitor H k d : EStateM (Failure (BonsaiDatabase.DatabaseError DB)) _ Unit) :=
    .bind (Framed.besideVisitor (hnode k)) fun node =>
      .bind (Framed.besideVisitor (proofNode_rootHash node)) fun pn =>
        .bind (Framed.besideVisitor (nodeHash_rootHash _)) fun x => .modify fun s hs => hs
  have hkey (m : UInt8) (key : BitSlice) :
      Preserves (fun it : MerkleTreeIterator MultiProof => rootHash db it.tree = .ok h) (proveKey H db m key) :=
    .ite (.throw_bind _ _) ((walked_rootHash (.inl ⟨h, rfl⟩)).traverseTo hvisit key.bits)
  intro tree hh
  have hkeys := Preserves.forM (fun key (_ : key ∈ keys) => hkey tree.maxHeight key) (MerkleTreeIterator.new tree ∅) hh
  rw [MerkleTree.getMultiProof]
  cases hrun : keys.forM (proveKey H db tree.maxHeight) (MerkleTreeIterator.new tree ∅) with
  | ok a it => rw [hrun] at hkeys; exact hkeys
  | error e it => rw [hrun] at hkeys; exact hkeys

end

/-! ## Writes -/

/-- The root has lost its hash or kept the given one, if the tree is not empty now. -/
def RootFades (k : NodeKey) (x : Option Felt) (tree : MerkleTree) : Prop :=
  (tree.rootNode = some (.loaded k) ∨ tree.rootNode = some .empty) ∧
    ∀ node, tree.nodes.slots k = some node → node.getHash = none ∨ node.getHash = x

namespace RootFades

variable {k : NodeKey} {x : Option Felt} {E : Type}

theorem insertNode {node : Node} (hh : node.getHash = none) :
    Preserves (RootFades k x) (MerkleTree.insertNode node : M E NodeKey) := by
  rintro tree ⟨hroot, hk⟩
  refine ⟨hroot, fun node' hnode => ?_⟩
  have hnode : (tree.nodes.insert node).2.slots k = some node' := hnode
  rw [SlotMap.insert_slots] at hnode
  by_cases hkn : k = tree.nodes.next
  · rw [if_pos hkn, Option.some.injEq] at hnode
    exact .inl (hnode ▸ hh)
  · rw [if_neg hkn] at hnode
    exact hk node' hnode

theorem set {tree : MerkleTree} (h : RootFades k x tree) (j : NodeKey) {node : Node}
    (hnode : j = k → node.getHash = none ∨ node.getHash = x) : RootFades k x { tree with nodes := tree.nodes.set j node } := by
  refine ⟨h.1, fun node' hk => ?_⟩
  have hk : (tree.nodes.set j node).slots k = some node' := hk
  by_cases hj : k = j
  · subst hj
    by_cases hs : (tree.nodes.slots k).isSome
    · rw [SlotMap.set_slots_self hs, Option.some.injEq] at hk
      exact hk ▸ hnode rfl
    · have := SlotMap.isSome_set tree.nodes k k node
      rw [hk] at this
      exact (hs this.symm).elim
  · rw [SlotMap.set_slots_of_ne _ _ hj] at hk
    exact h.2 node' hk

theorem setNode (j : NodeKey) {node : Node} (hnode : j = k → node.getHash = none ∨ node.getHash = x) :
    Preserves (RootFades k x) (MerkleTree.setNode j node : M E Unit) := by
  intro tree h
  rw [MerkleTree.setNode]
  cases tree.nodes.slots j with
  | none => exact h
  | some _ => exact h.set j hnode

theorem putNode (j : NodeKey) {node : Node} (hnode : j = k → node.getHash = none ∨ node.getHash = x) :
    Preserves (RootFades k x) (MerkleTree.putNode j node : M E Unit) :=
  .bind (Framed.getNodeMut j) fun _ => .modify fun _ h => h.set j hnode

theorem removeNode (j : NodeKey) : Preserves (RootFades k x) (MerkleTree.removeNode j : M E Unit) := by
  refine .modify fun tree h => ⟨h.1, fun node hk => ?_⟩
  have hk : (tree.nodes.remove j).slots k = some node := hk
  rw [SlotMap.remove_slots] at hk
  split at hk
  · cases hk
  · exact h.2 node hk

theorem addDeathRow (key : TrieKey) : Preserves (RootFades k x) (MerkleTree.addDeathRow key : M E Unit) :=
  .modify fun _ h => h

theorem cacheLeaf (bytes : ByteVec) (value : InsertOrRemove Felt) :
    Preserves (RootFades k x) (MerkleTree.cacheLeaf bytes value : M E Unit) :=
  .modify fun _ h => h

/-- What is known of a node that is read. -/
theorem bind_getNodeMut {α : Type} {j : NodeKey} {f : Node → M E α}
    (hf : ∀ node : Node, (j = k → node.getHash = none ∨ node.getHash = x) → Preserves (RootFades k x) (f node)) :
    Preserves (RootFades k x) (MerkleTree.getNodeMut j >>= f) := by
  intro tree h
  rw [bind_run, MerkleTree.getNodeMut]
  cases hj : tree.nodes.slots j with
  | none => exact h
  | some node => exact hf node (by rintro rfl; exact h.2 node hj) tree h

/-! ### `set` -/

theorem edgeOrChild (height : Nat) (path : Path) (child : NodeHandle) :
    Preserves (RootFades k x) (MerkleTree.edgeOrChild height path child : M E NodeHandle) :=
  .ite (.pure _) (.bind (insertNode rfl) fun _ => .pure _)

theorem splitEdge (key : BitSlice) (keyBytes : ByteVec) (value : Felt) (nodeId : NodeKey) (edge : EdgeNode) :
    Preserves (RootFades k x) (MerkleTree.splitEdge key keyBytes value nodeId edge : M E Unit) := by
  refine .ite (.throw_bind _ _) (.bind (cacheLeaf _ _) fun _ => .bind (edgeOrChild _ _ _) fun new =>
    .bind (edgeOrChild _ _ _) fun old => .bind (Framed.orPanic _ _) fun direction => .ite ?_ ?_)
  · exact .pure_bind (.bind (addDeathRow _) fun _ => setNode _ fun _ => .inl (by cases direction <;> rfl))
  · exact .bind (insertNode (by cases direction <;> rfl)) fun _ => .pure_bind (.bind (addDeathRow _) fun _ =>
      setNode _ fun _ => .inl rfl)

theorem setAt (key : BitSlice) (keyBytes : ByteVec) (value : Felt) (nodeId : NodeKey) :
    Preserves (RootFades k x) (MerkleTree.setAt key keyBytes value nodeId : M E Unit) := by
  refine bind_getNodeMut fun node hnode => ?_
  cases node with
  | edge e => exact .ite (.bind (cacheLeaf _ _) fun _ => setNode _ hnode) (splitEdge _ _ _ _ _)
  | binary b =>
    refine .ite (.bind (Framed.orPanic _ _) fun direction => .bind (cacheLeaf _ _) fun _ => setNode _ ?_) (setNode _ hnode)
    cases direction with
    | left => exact hnode
    | right => exact hnode

/-! ### `delete_leaf` -/

theorem removeLeafEdge (key : Path) (pathNodes : List (NodeKey × Nat)) :
    Preserves (RootFades k x) (MerkleTree.removeLeafEdge key pathNodes : M E _) := by
  rw [MerkleTree.removeLeafEdge]
  rcases pathNodes.getLast? with _ | ⟨nodeKey, height⟩
  · exact .pure _
  · refine .bind (Framed.getNodeMut nodeKey) fun node => ?_
    cases node with
    | binary b => exact .pure _
    | edge e =>
      exact .bind Framed.self fun tree => .bind (addDeathRow _) fun _ => .bind (removeNode nodeKey) fun _ => .pure _

theorem emptyTree : Preserves (RootFades k x) (MerkleTree.emptyTree : M E Unit) := by
  have hend : Preserves (RootFades k x) (do
      MerkleTree.addDeathRow (TrieKey.new (← MerkleTree.self).identifier .trie [0])
      modify fun tree => { tree with rootNode := some .empty } : M E Unit) :=
    .bind Framed.self fun tree => .bind (addDeathRow _) fun _ => .modify fun tree h => ⟨.inr rfl, h.2⟩
  refine .bind Framed.self fun tree => ?_
  rcases tree.rootNode with _ | (_ | id)
  · exact hend
  · exact hend
  · exact .bind (removeNode id) fun _ => hend

variable [FeltCodec] {DB ID : Type} [BonsaiDatabase DB] (db : KeyValueDB DB ID)

theorem mergeEdges (parent : EdgeNode) (path : Path) : Preserves (RootFades k x) (MerkleTree.mergeEdges db parent path) := by
  rw [MerkleTree.mergeEdges]
  cases parent.child with
  | hash felt =>
    refine .bind (Framed.getTrieBranchInDbFromPath db path) fun node => ?_
    rcases node with _ | (b | e)
    · exact .pure _
    · exact .pure _
    · exact .bind Framed.self fun tree => .bind (addDeathRow _) fun _ => .pure _
  | inMemory childId =>
    refine .bind (Framed.getNodeMut childId) fun node => ?_
    cases node with
    | binary b => exact .pure _
    | edge e => exact .bind (removeNode _) fun _ => .bind Framed.self fun tree => .bind (addDeathRow _) fun _ => .pure _

/-- The merged edge has the hash of the parent. -/
theorem mergeEdges_hash {parent edge : EdgeNode} {path : Path} {tree tree' : MerkleTree}
    (h : MerkleTree.mergeEdges db parent path tree = .ok edge tree') : edge.hash = parent.hash := by
  rw [MerkleTree.mergeEdges] at h
  rcases parent with ⟨hash, height, q, felt | childId⟩
  · obtain ⟨node, s, -, h⟩ := bind_eq_ok h
    rcases node with _ | (b | e)
    · cases h; rfl
    · cases h; rfl
    · cases h; rfl
  · obtain ⟨node, s, -, h⟩ := bind_eq_ok h
    cases node with
    | binary b => cases h; rfl
    | edge e => cases h; rfl

theorem dissolveBinary (key : Path) (nodeId : NodeKey) (parentNode : Option (NodeKey × Nat)) (lastBinaryPath : Path) :
    Preserves (RootFades k x) (MerkleTree.dissolveBinary db key nodeId parentNode lastBinaryPath) := by
  refine .bind (Framed.getNodeMut nodeId) fun node => .bind (Framed.orPanic _ _) fun binary =>
    .bind (Framed.orPanic _ _) fun direction => .bind_of (mergeEdges db _ _) (fun _ _ _ h => mergeEdges_hash db h)
      fun newEdge hnew => ?_
  have hnew (j : NodeKey) : j = k → (Node.edge newEdge).getHash = none ∨ (Node.edge newEdge).getHash = x := fun _ => .inl hnew
  rcases parentNode with _ | ⟨parentNodeId, height⟩
  · exact setNode _ (hnew _)
  · refine bind_getNodeMut fun node hnode => ?_
    cases node with
    | binary b => exact setNode _ (hnew _)
    | edge e =>
      exact .bind (putNode _ hnode) fun _ => .bind Framed.self fun tree => .bind (addDeathRow _) fun _ => removeNode _

end RootFades

section

variable [FeltCodec] {DB ID : Type} [BonsaiDatabase DB] [InfallibleDatabase DB] {db : KeyValueDB DB ID} {H : StarkHash}
  {memo : Memo} {n : Nat} {o : Fin 8} {tree tree' : MerkleTree} {T T' : Option (Trie Felt)} {t' : Trie Felt} {s : Leaves}
  {key : BitSlice} {value : Felt} {k : NodeKey}

/-- A loaded root is there. -/
theorem TreeRep.root_some (hR : TreeRep H memo n db.columns tree (some t')) (hroot : tree.rootNode = some (.loaded k)) :
    ∃ node, tree.nodes.slots k = some node := by
  have hr := hR.rooted
  rw [hroot] at hr
  cases hr with
  | loaded hF =>
    cases hF.rep with
    | binary hk => exact ⟨_, hk⟩
    | edge hk => exact ⟨_, hk⟩

/-- After a write `root_hash` returns what it did, or that there are uncommitted changes. -/
theorem rootHash_of_fades {α : Type} {m : M (BonsaiDatabase.DatabaseError DB) α} {a : α} (hm : ∀ x, Preserves (RootFades k x) m)
    (hroot : tree.rootNode = some (.loaded k)) (hrun : m tree = .ok a tree') (hR' : TreeRep H memo n db.columns tree' (some t')) :
    rootHash db tree' = rootHash db tree ∨ rootHash db tree' = uncommitted := by
  have hfade := hm ((tree.nodes.slots k).bind Node.getHash) tree ⟨.inl hroot, fun node hk => .inr (by rw [hk]; rfl)⟩
  rw [hrun] at hfade
  obtain ⟨hroot', hk'⟩ := hfade
  rcases hroot' with hroot' | hroot'
  · obtain ⟨node', hnode'⟩ := hR'.root_some hroot'
    cases hh : node'.getHash with
    | none => exact .inr (rootHash_none hroot' hnode' hh)
    | some c =>
      rcases hk' node' hnode' with hn | hn
      · rw [hh] at hn
        cases hn
      · rw [hh] at hn
        obtain ⟨node, hnode, hc⟩ := Option.bind_eq_some_iff.mp hn.symm
        exact .inl ((rootHash_some hroot' hnode' hh).trans (rootHash_some hroot hnode hc).symm)
  · have hr := hR'.rooted
    have hroot' : tree'.rootNode = some .empty := hroot'
    rw [hroot'] at hr
    cases hr

/-- Where the walk of a write ends, `root_hash` returns what it did. -/
theorem seekTo_rootHash (hr : Reported (rootHash db tree)) {w : List (NodeKey × Nat)} {tree₀ : MerkleTree} {p : Path}
    (hseek : MerkleTree.seekTo db p tree = .ok w tree₀) : rootHash db tree₀ = rootHash db tree := by
  have h := (walked_rootHash hr).seekTo p tree rfl
  rw [hseek] at h
  exact h

theorem setWalk_rootHash (hR : TreeRep H memo n db.columns tree T) (hlaw : memo.Lawful H) (hn : 0 < n) (hkey : key.len = n)
    (hr : Reported (rootHash db tree)) (hrun : MerkleTree.setWalk db key value tree = .ok () tree')
    (hR' : TreeRep H memo n db.columns tree' (some t')) :
    rootHash db tree' = rootHash db tree ∨ rootHash db tree' = uncommitted := by
  cases T with
  | none =>
    have hne : key.bits ≠ [] := List.ne_nil_of_length_pos (by rw [← BitSlice.len, hkey]; exact hn)
    rw [MerkleTree.setWalk, bind_ok (seekTo_empty hR hne)] at hrun
    cases hrun
    exact .inr (rootHash_none (k := tree.nodes.next) rfl (if_pos rfl) rfl)
  | some t =>
    obtain ⟨w, -, -, k₀, nodes₀, -, -, hseek, -, -, -, hne, -⟩ := seekTo_ok hR hlaw hn hkey
    obtain ⟨⟨k, f⟩, (w : Way), rfl⟩ := List.exists_cons_of_ne_nil hne
    rw [MerkleTree.setWalk, bind_ok hseek] at hrun
    simp only [Way.getLast?_crumbs] at hrun
    rw [← seekTo_rootHash hr hseek]
    exact rootHash_of_fades (fun x => RootFades.setAt _ _ _ _) rfl hrun hR'

theorem deleteWalk_rootHash {t : Trie Felt} (hR : TreeRep H memo n db.columns tree (some t)) (hlaw : memo.Lawful H) (hn : 0 < n)
    (hkey : key.len = n) (hr : Reported (rootHash db tree)) (hrun : MerkleTree.deleteWalk db key tree = .ok () tree')
    (hR' : TreeRep H memo n db.columns tree' (some t')) :
    rootHash db tree' = rootHash db tree ∨ rootHash db tree' = uncommitted := by
  obtain ⟨w, -, -, k₀, nodes₀, -, -, hseek, -, -, -, hne, -⟩ := seekTo_ok hR hlaw hn hkey
  rw [MerkleTree.deleteWalk, bind_ok hseek] at hrun
  rw [← seekTo_rootHash hr hseek]
  refine rootHash_of_fades (fun x => ?_) rfl hrun hR'
  refine .bind (RootFades.removeLeafEdge _ _) fun rest => ?_
  obtain ⟨pathNodes, lastBinaryPath⟩ := rest
  simp only
  rcases pathNodes.reverse with _ | ⟨⟨nodeId, height⟩, rest⟩
  · exact RootFades.emptyTree
  · exact RootFades.dissolveBinary db key.bits nodeId rest.head? lastBinaryPath

/-- An empty tree has the root hash zero, or none that is known. -/
theorem TreeRep.rootHash_empty (hR : TreeRep H memo n db.columns tree none) (hn : 0 < n) : rootHash db tree = .ok 0 := by
  cases hroot : tree.rootNode with
  | none => exact hR.rootHash_ok hn hroot
  | some root =>
    cases root with
    | empty => simp only [rootHash, hroot]
    | loaded k =>
      have hr := hR.rooted
      rw [hroot] at hr
      cases hr

/-- After `set`, `root_hash` returns what it did or that there are uncommitted changes, unless the last key
was removed. -/
theorem LeafRep.set_rootHash (h : LeafRep H n o db.columns tree T s) (hn : 0 < n) (hh : key.head = o) (hkey : key.len = n)
    (hr : Reported (rootHash db tree)) (hrun : MerkleTree.set db key value tree = .ok () tree')
    (h' : LeafRep H n o db.columns tree' T' (s.set key.bits value)) :
    rootHash db tree' = rootHash db tree ∨ rootHash db tree' = uncommitted ∨
      value = 0 ∧ (s.get key.bits).isSome ∧ (∀ k : Path, k.length = n → k ≠ key.bits → s.get k = none) ∧
        rootHash db tree' = .ok 0 := by
  by_cases hv : value = 0
  · subst hv
    rw [MerkleTree.set, if_pos rfl, h.deleteLeaf_run hh hkey db fun _ => h.flat_eq hh hkey] at hrun
    rw [Leaves.set, if_pos rfl, Leaves.remove] at h'
    by_cases hg : (s.get key.bits).isSome
    · rw [if_pos hg] at hrun h'
      have hcache : rootHash db (tree.cacheRemove key) = rootHash db tree := rootHash_cache _
      cases T' with
      | some t' =>
        have hc := h.keys key.bits
        rw [hg, ← h.trie key.bits hkey] at hc
        cases T with
        | none => cases hc
        | some t =>
          rw [← hcache] at hr ⊢
          exact (deleteWalk_rootHash (LeafRep.TreeRep_cache h.rep _) (anyMemo_lawful H) hn hkey hr hrun h'.rep).imp_right .inl
      | none =>
        refine .inr (.inr ⟨rfl, hg, fun k hk hne => ?_, h'.rep.rootHash_empty hn⟩)
        have htrie : none = Function.update s.trie key.bits none k := h'.trie k hk
        rw [Function.update_of_ne hne] at htrie
        have hsame := h.keys k
        rw [← htrie] at hsame
        rw [← Option.not_isSome_iff_eq_none, ← hsame]
        simp
    · rw [if_neg hg] at hrun
      cases hrun
      exact .inl rfl
  rw [h.insert_run hh hkey hv] at hrun
  split at hrun
  · cases hrun
    exact .inl (rootHash_cache _)
  split at hrun
  · cases hrun
    exact .inl rfl
  · rename_i hc hf
    have htrie := h'.trie key.bits hkey
    rw [Leaves.set, if_neg hv, Leaves.insert_of_new hc hf] at htrie
    cases T' with
    | none =>
      have htrie : none = Function.update s.trie key.bits (some value) key.bits := htrie
      rw [Function.update_self] at htrie
      cases htrie
    | some t' => exact (setWalk_rootHash h.rep (anyMemo_lawful H) hn hkey hr hrun h'.rep).imp_right .inl

end

/-! ## Runs -/

section

variable [FeltCodec] {DB ID T : Type} [BonsaiDatabase DB] [InfallibleDatabase DB] [AnswersOld DB] [Id ID]
  [BonsaiPersistentDatabase DB ID T] [InfallibleSnapshots DB ID T] {H : StarkHash} {n : Nat} {st : BonsaiStorage DB ID}
  {s : Leaves} {h : Felt}

omit [AnswersOld DB] [Id ID] [BonsaiPersistentDatabase DB ID T] [InfallibleSnapshots DB ID T] [InfallibleDatabase DB] in
/-- A proof whose first key is refused does nothing. -/
theorem getMultiProof_refused {db : KeyValueDB DB ID} {tree : MerkleTree} {keys : List BitSlice}
    (hkeys : ∀ key, keys.head? = some key → key.len ≠ tree.maxHeight.toNat) :
    left (MerkleTree.getMultiProof H db keys tree) = tree := by
  cases keys with
  | nil => rfl
  | cons key keys =>
    have hkey := hkeys key rfl
    have hrun : (key :: keys).forM (proveKey H db tree.maxHeight) (MerkleTreeIterator.new tree ∅) =
        .error (.error (.keyLength tree.maxHeight.toNat key.len)) (MerkleTreeIterator.new tree ∅) := by
      refine bind_error ?_ _
      rw [proveKey, if_pos hkey]
      rfl
    rw [MerkleTree.getMultiProof, hrun]
    rfl

/-- A storage that reports the latest root hash, or that there are uncommitted changes. -/
structure RootRep (H : StarkHash) (n : Nat) (st : BonsaiStorage DB ID) (s : Leaves) (h : Felt) : Prop where
  calls : CallRep H n st s
  changes : st.db.currentChanges = ∅
  stored : BonsaiStorage.storedRoot st = .ok h
  reports : BonsaiStorage.rootHash st [] = .ok h ∨ BonsaiStorage.rootHash st [] = uncommitted

namespace RootRep

omit [AnswersOld DB] [Id ID] [BonsaiPersistentDatabase DB ID T] [InfallibleSnapshots DB ID T] in
/-- The tree, changed. -/
theorem insert_tree (hR : RootRep H n st s h) {tree : MerkleTree} {s' : Leaves}
    (hc : CallRep H n { st with trees := st.trees.insert [] tree } s')
    (hr : rootHash st.db tree = .ok h ∨ rootHash st.db tree = uncommitted) :
    RootRep H n { st with trees := st.trees.insert [] tree } s' h := by
  refine ⟨hc, hR.changes, hR.stored, ?_⟩
  rw [BonsaiStorage.rootHash, MerkleTrees.rootHash, MerkleTrees.treeOf_insert]
  exact hr

omit [AnswersOld DB] [Id ID] [BonsaiPersistentDatabase DB ID T] [InfallibleSnapshots DB ID T] in
theorem set (hR : RootRep H n st s h) (hn : 0 < n) {key : BitSlice} {value : Felt} (hh : key.head.val = 0)
    (hkeep : (Request.set key value : Request ID).KeepsRoot st) :
    ∃ r st', BonsaiStorage.insert [] key value st = leaving r st' ∧ ∃ s', RootRep H n st' s' h := by
  obtain ⟨T, hT⟩ := hR.calls.leafRep
  have hh : key.head = 0 := Fin.ext hh
  by_cases hkey : key.len = n
  · obtain ⟨tree', T', hrun, hT', hid⟩ := hT.set_ok hn hh hkey value fun _ t ht => by
      rw [hR.calls.rep.identifier_treeOf []]
      exact noStray_of_aligned (hT.rep.wf t ht) hT.rep.le_255 hh hkey
    refine ⟨.ok (), { st with trees := st.trees.insert [] tree' }, ?_, s.set key.bits value, ?_⟩
    · rw [BonsaiStorage.insert, MerkleTrees.set, MerkleTrees.onTree, hrun]
      rfl
    refine hR.insert_tree (hR.calls.insert_tree hT' (hid.trans (hR.calls.rep.identifier_treeOf []))) ?_
    have hr : Reported (rootHash st.db (st.treeOf [])) := hR.reports.imp_left fun h => ⟨_, h⟩
    rcases hT.set_rootHash hn hh hkey hr hrun hT' with heq | heq | ⟨rfl, hg, hother, hzero⟩
    · rw [heq]
      exact hR.reports
    · exact .inr heq
    · have hget (k : BitSlice) (hk : k.head = 0) (hlen : k.len = n) : BonsaiStorage.get st [] k = .ok (s.get k.bits) :=
        hR.calls.rep.get_ok rfl hk hlen
      obtain ⟨v, hv⟩ := Option.isSome_iff_exists.mp hg
      rcases hkeep rfl (hkey.trans hT.rep.height.symm) ⟨v, by rw [hget key hh hkey, hv]⟩ with
        h₀ | ⟨k, hk, hne, hlen, w, hw⟩
      · rw [hR.stored] at h₀
        rw [hzero, h₀]
        exact .inl rfl
      · rw [hget k (hk.trans hh) (hlen.trans hkey), hother k.bits (hlen.trans hkey) hne] at hw
        cases hw
  · obtain ⟨st', hrun, hrep, hdb⟩ := hR.calls.rep.set_keyLength rfl hkey value
    have hlen : key.len ≠ (st.treeOf []).maxHeight.toNat := by rw [hT.rep.height]; exact hkey
    have hset : MerkleTrees.set [] key value st = .error (.error (.keyLength (st.treeOf []).maxHeight.toNat key.len))
        { st with trees := st.trees.insert [] (st.treeOf []) } := by
      rw [MerkleTrees.set, MerkleTrees.onTree, MerkleTree.set_keyLength st.db hlen value]
    rw [hset] at hrun
    obtain ⟨-, rfl⟩ := EStateM.Result.error.inj hrun
    exact ⟨.error _, _, hset, s, hR.insert_tree ⟨hrep, hR.calls.known⟩ hR.reports⟩

omit [AnswersOld DB] [Id ID] [BonsaiPersistentDatabase DB ID T] [InfallibleSnapshots DB ID T] in
theorem getMultiProof (hR : RootRep H n st s h) (hn : 0 < n) {keys : List BitSlice}
    (hkeep : (Request.getMultiProof keys : Request ID).KeepsRoot st) :
    ∃ r st', BonsaiStorage.getMultiProof H [] keys st = leaving r st' ∧ RootRep H n st' s h := by
  obtain ⟨T, hT⟩ := hR.calls.leafRep
  obtain ⟨proof, nodes, root, hrun, hT'⟩ := hT.getMultiProof_ok hn keys
  let tree' : MerkleTree := { st.treeOf [] with nodes := nodes, rootNode := root }
  refine ⟨(proveAnswer n keys).map fun _ => proof, { st with trees := st.trees.insert [] tree' }, ?_,
    hR.insert_tree (hR.calls.insert_tree hT' (hR.calls.rep.identifier_treeOf [])) ?_⟩
  · rw [BonsaiStorage.getMultiProof, MerkleTrees.getMultiProof, MerkleTrees.onTree, hrun]
    cases (proveAnswer n keys : Except (Failure (BonsaiDatabase.DatabaseError DB)) Unit) <;> rfl
  have hleft : left (MerkleTree.getMultiProof H st.db keys (st.treeOf [])) = tree' := by
    rw [hrun]
    cases (proveAnswer n keys : Except (Failure (BonsaiDatabase.DatabaseError DB)) Unit) <;> rfl
  rw [← hleft]
  by_cases hfirst : ∃ key, keys.head? = some key ∧ key.len = (st.treeOf []).maxHeight.toNat
  · obtain ⟨key, hkey, hlen⟩ := hfirst
    obtain ⟨x, hx⟩ := hkeep key hkey hlen
    have hx' : x = h := by
      rcases hR.reports with hh | hh
      · exact Except.ok.inj (hx.symm.trans hh)
      · rw [hh] at hx
        cases hx
    subst hx'
    exact .inl (getMultiProof_rootHash keys (st.treeOf []) hx)
  · rw [getMultiProof_refused fun key hkey hlen => hfirst ⟨key, hkey, hlen⟩]
    exact hR.reports

theorem commit (hR : RootRep H n st s h) (hn : 0 < n) (ords : HashOrders) (logOrd : HashOrder) (id : ID) :
    ∃ r st' h', BonsaiStorage.commit H ords logOrd id st = leaving r st' ∧ RootRep H n st' s.commit h' ∧
      BonsaiStorage.rootHash st' [] = .ok h' := by
  obtain ⟨-, st', hrun, -, -, -, -, -, hcall, hidle, hnew, -, -⟩ := hR.calls.commitStorage_ok hR.changes ords logOrd id
  obtain ⟨T, hT⟩ := hcall.leafRep
  have hroot : BonsaiStorage.rootHash st' [] = .ok (merkleRoot H n s.commit.trie) := hT.rootHash_ok hn hidle.root
  have hstored : BonsaiStorage.storedRoot st' = BonsaiStorage.rootHash st' [] := by
    refine rootHash_congr hidle.root.symm (hcall.rep.identifier_treeOf []).symm hidle.deathRow.symm fun k hk => ?_
    rw [hidle.root] at hk
    cases hk
  exact ⟨_, st', _, hrun, ⟨hcall, hnew, hstored.trans hroot, .inl hroot⟩, hroot⟩

/-- A request keeps what is reported; a commit reports anew. -/
theorem step (hR : RootRep H n st s h) (hn : 0 < n) {r : Request ID} (hr : r.Aligned ∧ r.KeepsRoot st) :
    ∃ s' h', RootRep H n (Trace.next (Request.run H) r st) s' h' ∧
      (if r.isCommit then BonsaiStorage.rootHash (Trace.next (Request.run H) r st) [] else .ok h) = .ok h' := by
  cases r with
  | set key value =>
    obtain ⟨r, st', hrun, s', hR'⟩ := hR.set hn hr.1 hr.2
    have hreq : Request.run H (.set key value) st = leaving (r.map fun _ => none) st' := bind_pure_leaving hrun none
    rw [Trace.next_of hreq]
    exact ⟨s', h, hR', rfl⟩
  | get key =>
    have hreq : Request.run H (.get key) st = leaving (BonsaiStorage.get st [] key) st := rfl
    rw [Trace.next_of hreq]
    exact ⟨s, h, hR, rfl⟩
  | getMultiProof keys =>
    obtain ⟨r, st', hrun, hR'⟩ := hR.getMultiProof hn hr.2
    have hreq : Request.run H (.getMultiProof keys) st = leaving (r.map fun _ => none) st' := bind_pure_leaving hrun none
    rw [Trace.next_of hreq]
    exact ⟨s, h, hR', rfl⟩
  | commit ords logOrd id =>
    obtain ⟨r, st', h', hrun, hR', hroot⟩ := hR.commit hn ords logOrd id
    rw [Trace.next_of (Request.run_commit hrun)]
    exact ⟨s.commit, h', hR', hroot⟩

/-- A run keeps what is reported, the latest commit's root hash. -/
theorem run (hR : RootRep H n st s h) (hn : 0 < n) {rs : List (Request ID)}
    (hrs : Trace.Meets (Request.run H) (fun st r => r.Aligned ∧ r.KeepsRoot st) rs st) :
    ∃ s' h', RootRep H n (Trace.after (Request.run H) rs st) s' h' ∧ Request.latestRoot H rs st (.ok h) = .ok h' := by
  induction rs generalizing st s h with
  | nil => exact ⟨s, h, hR, rfl⟩
  | cons r rs ih =>
    obtain ⟨s₁, h₁, hR₁, hlatest⟩ := hR.step hn hrs.1
    obtain ⟨s', h', hR', hend⟩ := ih hR₁ hrs.2
    refine ⟨s', h', hR', ?_⟩
    rw [Request.latestRoot, hlatest]
    exact hend

end RootRep

variable (H) in
/-- In every state a run reaches, `root_hash` returns what it returned right after the latest commit, zero if
there was none, or that there are uncommitted changes. -/
theorem rootHash_latest (m : UInt8) (hm : 0 < m.toNat) (db : DB)
    (hdb : ∀ key : TrieKey, InfallibleDatabase.columns db key.toDatabaseKey = none) (config : BonsaiStorageConfig)
    (rs : List (Request ID))
    (hrs : Trace.Meets (Request.run H) (fun st r => r.Aligned ∧ r.KeepsRoot st) rs (BonsaiStorage.new db config m)) :
    ∃ h, Request.latestRoot H rs (BonsaiStorage.new db config m) (.ok 0) = .ok h ∧
      (BonsaiStorage.rootHash (Trace.after (Request.run H) rs (BonsaiStorage.new db config m)) [] = .ok h ∨
        BonsaiStorage.rootHash (Trace.after (Request.run H) rs (BonsaiStorage.new db config m)) [] = uncommitted) := by
  have hcols : ∀ key : TrieKey, (KeyValueDB.new db config none : KeyValueDB DB ID).columns key.toDatabaseKey = none := hdb
  have hnew : CallRep H m.toNat (BonsaiStorage.new db config m : BonsaiStorage DB ID) .empty := .start hcols m
  have hroot : BonsaiStorage.rootHash (BonsaiStorage.new db config m : BonsaiStorage DB ID) [] = .ok 0 :=
    (LeafRep.start (H := H) hcols [] m 0).rep.rootHash_empty hm
  obtain ⟨s', h', hR', hlatest⟩ := RootRep.run ⟨hnew, rfl, hroot, .inl hroot⟩ hm hrs
  exact ⟨h', hlatest, hR'.reports⟩

end

/-- Two keys written, committed and proved, one of them deleted, and the other proved before and after a commit. -/
def proveAndDelete : List (Request BasicId) :=
  [.set (.aligned [true, false]) 1, .set (.aligned [true, true]) 2, .commit (fun _ => .listed) .listed 1,
    .getMultiProof [.aligned [true, false]], .set (.aligned [true, false]) 0, .getMultiProof [.aligned [true, true]],
    .commit (fun _ => .listed) .listed 2, .getMultiProof [.aligned [true, true]], .set (.aligned [false, true]) 3]

theorem proveAndDelete_meets :
    Trace.Meets (Request.run fun a b => a + b) (fun st r => r.Aligned ∧ r.KeepsRoot st) proveAndDelete
      (BonsaiStorage.inMemory 2) := by
  have hv {a : Felt} (ha : a ≠ 0) {st : BonsaiStorage (HashMapDb BasicId) BasicId} {key : BitSlice} :
      (Request.set key a : Request BasicId).KeepsRoot st := fun h => (ha h).elim
  refine ⟨⟨rfl, hv (by decide)⟩, ⟨rfl, hv (by decide)⟩, ⟨trivial, trivial⟩, ⟨trivial, fun _ _ _ => ⟨5, ?_⟩⟩,
    ⟨rfl, fun _ _ _ => .inr ⟨.aligned [true, true], rfl, by decide, rfl, 2, ?_⟩⟩, ⟨trivial, fun _ _ _ => ⟨5, ?_⟩⟩, ⟨trivial, trivial⟩,
    ⟨trivial, fun _ _ _ => ⟨7, ?_⟩⟩, ⟨rfl, hv (by decide)⟩, trivial⟩
  all_goals decide +kernel

theorem rootHash_latest_delete :
    ∃ h, Request.latestRoot (fun a b => a + b) proveAndDelete (BonsaiStorage.inMemory 2) (.ok 0) = .ok h ∧
      (BonsaiStorage.rootHash (Trace.after (Request.run fun a b => a + b) proveAndDelete (BonsaiStorage.inMemory 2)) [] = .ok h ∨
        BonsaiStorage.rootHash (Trace.after (Request.run fun a b => a + b) proveAndDelete (BonsaiStorage.inMemory 2)) [] =
          uncommitted) :=
  rootHash_latest (fun a b => a + b) 2 (by decide) HashMapDb.empty HashMapDb.columns_empty ⟨none, none, 1⟩ proveAndDelete
    proveAndDelete_meets

/-- A proof before the first commit, and the only key removed after it. -/
def proveEarly : List (Request BasicId) := [.set (.aligned [true, false]) 1, .getMultiProof [.aligned [true, false]]]

def removeLast : List (Request BasicId) :=
  [.set (.aligned [true, false]) 1, .commit (fun _ => .listed) .listed 1, .set (.aligned [true, false]) 0]

/-- The first reports a root hash that was never committed, the second zero. -/
theorem rootHash_uncommitted :
    (Request.latestRoot (fun a b => a + b) proveEarly (BonsaiStorage.inMemory 2) (.ok 0) = .ok 0 ∧
        BonsaiStorage.rootHash (Trace.after (Request.run fun a b => a + b) proveEarly (BonsaiStorage.inMemory 2)) [] = .ok 5) ∧
      Request.latestRoot (fun a b => a + b) removeLast (BonsaiStorage.inMemory 2) (.ok 0) = .ok 5 ∧
        BonsaiStorage.rootHash (Trace.after (Request.run fun a b => a + b) removeLast (BonsaiStorage.inMemory 2)) [] = .ok 0 := by
  decide +kernel

end Bonsai
