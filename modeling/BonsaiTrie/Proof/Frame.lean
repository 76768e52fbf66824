import BonsaiTrie.Framework.Preserve
import BonsaiTrie.Impl.Storage

/-!
# What walks and writes leave alone

Walks load nodes and writes change the nodes and the death row; the rest of the
tree, its identifier, height and cache, changes only where a leaf is cached.
So an invariant of the rest (`Framed`) is kept by every walk, and by a write if
it is kept by what the write caches, also when the database fails in between. A
walk keeps more (`Walked`): it puts nodes beside those that are there, and
gives nodes the handles of children that it loads.
-/

namespace Bonsai

open Run

/-- No leaf is written. -/
def Updates.WritesNoLeaf (u : Updates) : Prop := ∀ bytes value, u.lookup (.flat bytes) ≠ some (.insert value)

theorem Updates.WritesNoLeaf.insert_trie {u : Updates} (h : u.WritesNoLeaf) (bytes : ByteVec)
    (v : InsertOrRemove ByteVec) : Updates.WritesNoLeaf (u.insert (.trie bytes) v) := by
  intro b value
  rw [AList.lookup_insert_ne (by simp)]
  exact h b value

/-- An invariant of the parts of a tree that walks do not touch. -/
def Framed (I : MerkleTree → Prop) : Prop :=
  ∀ tree root nodes deathRow, I tree → I { tree with rootNode := root, nodes := nodes, deathRow := deathRow }

namespace Framed

variable {I : MerkleTree → Prop} {E : Type}

theorem lift {σ α : Type} {J : σ → Prop} (r : Except (Failure E) α) : Preserves J (MerkleTree.lift r : EStateM (Failure E) σ α) := by
  intro s hs
  cases r <;> exact hs

theorem orPanic {σ α : Type} {J : σ → Prop} (o : Option α) (message : String) :
    Preserves J (MerkleTree.orPanic o message : EStateM (Failure E) σ α) := lift _

theorem self : Preserves I (MerkleTree.self : MerkleTree.M E MerkleTree) := fun _ h => h

theorem getNodeMut (key : NodeKey) : Preserves I (MerkleTree.getNodeMut key : MerkleTree.M E Node) := by
  intro tree h
  rw [MerkleTree.getNodeMut]
  cases tree.nodes.slots key <;> exact h

section Reads

variable [FeltCodec] {DB ID : Type} [BonsaiDatabase DB] (db : KeyValueDB DB ID)

theorem loadDbNode (hinsert : ∀ tree node, I tree → I { tree with nodes := (tree.nodes.insert node).2 }) (key : TrieKey) :
    Preserves I (MerkleTree.loadDbNode db key) := by
  refine .bind self fun tree => .ite (.pure _) (.bind (lift _) fun bytes => ?_)
  cases bytes with
  | none => exact .pure _
  | some bytes => exact .bind (lift _) fun node => .bind (fun tree h => hinsert tree node h) fun _ => .pure _

theorem getTrieBranchInDbFromPath (path : Path) : Preserves I (MerkleTree.getTrieBranchInDbFromPath db path) := by
  refine .bind self fun tree => .ite (.pure _) (.bind (lift _) fun bytes => ?_)
  cases bytes with
  | none => exact .pure _
  | some bytes =>
    simp only
    rcases Node.decode bytes with (_ | _) | node
    · exact .throw _
    · exact .throw _
    · exact .pure _

omit [FeltCodec] in
theorem onTree {V α : Type} {m : MerkleTree.M (BonsaiDatabase.DatabaseError DB) α} (h : Preserves I m) :
    Preserves (fun it : MerkleTreeIterator V => I it.tree) (MerkleTreeIterator.onTree m) := by
  intro it hit
  have hm := h it.tree hit
  rw [MerkleTreeIterator.onTree]
  cases hrun : m it.tree with
  | ok a tree => rw [hrun] at hm; exact hm
  | error e tree => rw [hrun] at hm; exact hm

omit [FeltCodec] in
theorem stepInto {V : Type} (node : Node) (height : Nat) (key : Path) :
    Preserves (fun it : MerkleTreeIterator V => I it.tree)
      (MerkleTreeIterator.stepInto node height key : MerkleTreeIterator.M (BonsaiDatabase.DatabaseError DB) V _) := by
  intro it hit
  cases node with
  | binary b =>
    rw [MerkleTreeIterator.stepInto]
    cases key[it.currentPath.length]? <;> exact hit
  | edge e =>
    simp only [MerkleTreeIterator.stepInto]
    cases e.pathMatches key height <;> exact hit

end Reads

variable (hI : Framed I)
include hI

theorem insertNode (node : Node) : Preserves I (MerkleTree.insertNode node : MerkleTree.M E NodeKey) :=
  fun tree h => hI tree tree.rootNode (tree.nodes.insert node).2 tree.deathRow h

theorem removeNode (key : NodeKey) : Preserves I (MerkleTree.removeNode key : MerkleTree.M E Unit) :=
  .modify fun tree h => hI tree tree.rootNode (tree.nodes.remove key) tree.deathRow h

theorem putNode (key : NodeKey) (node : Node) : Preserves I (MerkleTree.putNode key node : MerkleTree.M E Unit) :=
  .bind (getNodeMut key) fun _ => .modify fun tree h => hI tree tree.rootNode (tree.nodes.set key node) tree.deathRow h

theorem setNode (key : NodeKey) (node : Node) : Preserves I (MerkleTree.setNode key node : MerkleTree.M E Unit) := by
  intro tree h
  rw [MerkleTree.setNode]
  cases tree.nodes.slots key with
  | none => exact h
  | some _ => exact hI tree tree.rootNode (tree.nodes.set key node) tree.deathRow h

theorem addDeathRow (key : TrieKey) : Preserves I (MerkleTree.addDeathRow key : MerkleTree.M E Unit) :=
  .modify fun tree h => hI tree tree.rootNode tree.nodes (tree.deathRow.insert key ()) h

theorem setRootNode (root : Option RootHandle) :
    Preserves I (modify fun tree => { tree with rootNode := root } : MerkleTree.M E PUnit) :=
  .modify fun tree h => hI tree root tree.nodes tree.deathRow h

theorem loadRootNode [FeltCodec] {DB ID : Type} [BonsaiDatabase DB] (db : KeyValueDB DB ID) :
    Preserves I (MerkleTree.loadRootNode db) := by
  refine .bind self fun tree => ?_
  rcases tree.rootNode with _ | (_ | id)
  · refine .bind self fun tree => .bind (loadDbNode db (fun tree _ h => hI tree _ _ _ h) _) fun key => ?_
    cases key with
    | none => exact .bind (hI.setRootNode _) fun _ => .pure _
    | some id => exact .bind (hI.setRootNode _) fun _ => .pure _
  · exact .pure _
  · exact .pure _

end Framed

/-! ### Walks -/

/-- An invariant that walks keep: nodes may be added, a node may be given another child, and the root may be
loaded. -/
structure Walked [FeltCodec] {DB ID : Type} [BonsaiDatabase DB] (db : KeyValueDB DB ID) (I : MerkleTree → Prop) : Prop where
  insert : ∀ tree node, I tree → I { tree with nodes := (tree.nodes.insert node).2 }
  relink : ∀ tree k node node', I tree → tree.nodes.slots k = some node → node'.getHash = node.getHash →
    I { tree with nodes := tree.nodes.set k node' }
  loadRoot : Preserves I (MerkleTree.loadRootNode db)

namespace Walked

variable [FeltCodec] {DB ID : Type} [BonsaiDatabase DB] {db : KeyValueDB DB ID} {I : MerkleTree → Prop} (hI : Walked db I)
include hI

theorem loadNodeHandle (handle : NodeHandle) (path : Path) : Preserves I (MerkleTree.loadNodeHandle db handle path) := by
  cases handle with
  | hash felt =>
    refine .bind Framed.self fun tree => .bind (Framed.loadDbNode db hI.insert _) fun key => ?_
    cases key with
    | none => exact .throw _
    | some key => exact .pure _
  | inMemory key => exact .pure _

theorem putNode {tree : MerkleTree} {k : NodeKey} {node : Node} (h : I tree) (hk : tree.nodes.slots k = some node) (node' : Node)
    (hhash : node'.getHash = node.getHash) :
    I (left ((MerkleTree.putNode k node' : MerkleTree.M (BonsaiDatabase.DatabaseError DB) Unit) tree)) := by
  rw [MerkleTree.putNode, bind_run, MerkleTree.getNodeMut, hk]
  exact hI.relink tree k node node' h hk hhash

theorem updateParentRef {V : Type} (nodeId childKey : NodeKey) :
    Preserves (fun it : MerkleTreeIterator V => I it.tree)
      (MerkleTreeIterator.updateParentRef nodeId childKey : MerkleTreeIterator.M (BonsaiDatabase.DatabaseError DB) V _) := by
  refine .bind_get fun it hit => ?_
  have hput (node node' : Node) (hk : it.tree.nodes.slots nodeId = some node) (hhash : node'.getHash = node.getHash) :
      I (left ((MerkleTreeIterator.onTree (MerkleTree.putNode nodeId node') :
        MerkleTreeIterator.M (BonsaiDatabase.DatabaseError DB) V _) it)).tree := by
    have h := hI.putNode hit hk node' hhash
    rw [MerkleTreeIterator.onTree]
    cases hrun : (MerkleTree.putNode nodeId node' : MerkleTree.M (BonsaiDatabase.DatabaseError DB) Unit) it.tree with
    | ok a tree => rw [hrun] at h; exact h
    | error e tree => rw [hrun] at h; exact h
  rw [bind_run, MerkleTreeIterator.onTree, MerkleTree.getNodeMut]
  rcases hk : it.tree.nodes.slots nodeId with _ | (b | e)
  · exact hit
  · simp only
    cases it.currentPath.getLast? with
    | none => exact hit
    | some bit => exact hput _ _ hk (by cases bit <;> rfl)
  · exact hput _ _ hk rfl

theorem traverseOne {V : Type} (nodeId : NodeKey) (height : Nat) (key : Path) :
    Preserves (fun it : MerkleTreeIterator V => I it.tree) (MerkleTreeIterator.traverseOne db nodeId height key) := by
  refine .bind (.modify fun it h => h) fun _ => .bind (Framed.onTree (Framed.getNodeMut nodeId)) fun node =>
    .bind (Framed.stepInto node height key) fun step => .bind .get fun it => .ite ?_ ?_
  · exact .bind (.modify fun it h => h) fun _ => .pure _
  · exact .bind (Framed.onTree (hI.loadNodeHandle step.1 it.currentPath)) fun childKey =>
      .bind (hI.updateParentRef nodeId childKey) fun _ => .pure _

variable {V : Type} {visit : NodeVisitor (BonsaiDatabase.DatabaseError DB) V}

theorem traverseLoop (hvisit : ∀ k d, Preserves (fun s : V × MerkleTree => I s.2) (visit k d)) (key : Path) (fuel : Nat)
    (next : Option NodeKey) :
    Preserves (fun it : MerkleTreeIterator V => I it.tree) (MerkleTreeIterator.traverseLoop db visit key fuel next) := by
  induction fuel generalizing next with
  | zero =>
    cases next with
    | none => exact .pure _
    | some nodeId => exact .throw _
  | succ fuel ih =>
    cases next with
    | none => exact .pure _
    | some nodeId =>
      refine .bind .get fun it => .bind (fun it' hit => ?_) fun _ => .bind .get fun it' =>
        .bind (hI.traverseOne nodeId it'.currentPath.length key) fun next => ih next
      have hv := hvisit nodeId it.currentPath.length (it'.visitor, it'.tree) hit
      rw [MerkleTreeIterator.visitNode]
      cases hrun : visit nodeId it.currentPath.length (it'.visitor, it'.tree) with
      | ok a s => rw [hrun] at hv; exact hv
      | error e s => rw [hrun] at hv; exact hv

theorem traverseTo (hvisit : ∀ k d, Preserves (fun s : V × MerkleTree => I s.2) (visit k d)) (key : Path) :
    Preserves (fun it : MerkleTreeIterator V => I it.tree) (MerkleTreeIterator.traverseTo db visit key) := by
  refine .ite (.bind (.modify fun it h => h) fun _ => .pure _) (.bind (.modify fun it h => h) fun _ => .bind .get fun it => ?_)
  rcases it.currentNodesHeights.getLast? with _ | ⟨nodeId, height⟩
  · refine .bind (.modify fun it h => h) fun _ => .bind (Framed.onTree (hI.loadRoot)) fun root => ?_
    cases root with
    | none => exact .modify fun it h => h
    | some nodeId => exact hI.traverseLoop hvisit key _ _
  · exact .bind (.modify fun it h => h) fun _ => .bind (hI.traverseOne nodeId height key) fun next =>
      hI.traverseLoop hvisit key _ next

theorem seekTo (key : Path) : Preserves I (MerkleTree.seekTo db key) := by
  intro tree h
  have hvisit : ∀ k d, Preserves (fun s : Unit × MerkleTree => I s.2)
      ((noopVisitor : NodeVisitor (BonsaiDatabase.DatabaseError DB) Unit) k d) := fun k d => .pure ()
  have hrun := hI.traverseTo hvisit key (MerkleTreeIterator.new tree ()) h
  rw [MerkleTree.seekTo]
  cases hr : MerkleTreeIterator.traverseTo db noopVisitor key (MerkleTreeIterator.new tree ()) with
  | ok a it => rw [hr] at hrun; exact hrun
  | error e it => rw [hr] at hrun; exact hrun

end Walked

namespace Framed

variable {I : MerkleTree → Prop} {E : Type} (hI : Framed I)
include hI

section Walks

variable [FeltCodec] {DB ID : Type} [BonsaiDatabase DB] (db : KeyValueDB DB ID)

theorem walked : Walked db I :=
  ⟨fun tree _ h => hI tree _ _ _ h, fun tree _ _ _ h _ _ => hI tree _ _ _ h, hI.loadRootNode db⟩

/-! ### Writes -/

theorem mergeEdges (parent : EdgeNode) (path : Path) : Preserves I (MerkleTree.mergeEdges db parent path) := by
  rw [MerkleTree.mergeEdges]
  cases parent.child with
  | hash felt =>
    refine .bind (getTrieBranchInDbFromPath db path) fun node => ?_
    rcases node with _ | (b | e)
    · exact .pure _
    · exact .pure _
    · exact .bind self fun tree => .bind (hI.addDeathRow _) fun _ => .pure _
  | inMemory childId =>
    refine .bind (getNodeMut childId) fun node => ?_
    cases node with
    | binary b => exact .pure _
    | edge e => exact .bind (hI.removeNode _) fun _ => .bind self fun tree => .bind (hI.addDeathRow _) fun _ => .pure _

omit [FeltCodec] in
theorem removeLeafEdge (key : Path) (pathNodes : List (NodeKey × Nat)) :
    Preserves I (MerkleTree.removeLeafEdge key pathNodes : MerkleTree.M (BonsaiDatabase.DatabaseError DB) _) := by
  rw [MerkleTree.removeLeafEdge]
  rcases pathNodes.getLast? with _ | ⟨nodeKey, height⟩
  · exact .pure _
  · refine .bind (getNodeMut nodeKey) fun node => ?_
    cases node with
    | binary b => exact .pure _
    | edge e =>
      exact .bind self fun tree => .bind (hI.addDeathRow _) fun _ => .bind (hI.removeNode nodeKey) fun _ => .pure _

theorem dissolveBinary (key : Path) (nodeId : NodeKey) (parentNode : Option (NodeKey × Nat)) (lastBinaryPath : Path) :
    Preserves I (MerkleTree.dissolveBinary db key nodeId parentNode lastBinaryPath) := by
  refine .bind (getNodeMut nodeId) fun node => .bind (orPanic _ _) fun binary => .bind (orPanic _ _) fun direction =>
    .bind (hI.mergeEdges db _ _) fun newEdge => ?_
  rcases parentNode with _ | ⟨parentNodeId, height⟩
  · exact hI.setNode _ _
  · refine .bind (getNodeMut parentNodeId) fun node => ?_
    cases node with
    | binary b => exact hI.setNode _ _
    | edge e =>
      exact .bind (hI.putNode _ _) fun _ => .bind self fun tree => .bind (hI.addDeathRow _) fun _ => hI.removeNode _

omit [FeltCodec] in
theorem emptyTree : Preserves I (MerkleTree.emptyTree : MerkleTree.M (BonsaiDatabase.DatabaseError DB) Unit) := by
  refine .bind self fun tree => ?_
  rcases tree.rootNode with _ | (_ | id)
  · exact .bind self fun tree => .bind (hI.addDeathRow _) fun _ => hI.setRootNode _
  · exact .bind self fun tree => .bind (hI.addDeathRow _) fun _ => hI.setRootNode _
  · exact .bind (hI.removeNode id) fun _ => .bind self fun tree => .bind (hI.addDeathRow _) fun _ => hI.setRootNode _

theorem deleteWalk (key : BitSlice) : Preserves I (MerkleTree.deleteWalk db key) := by
  refine .bind ((hI.walked db).seekTo key.bits) fun pathNodes => .bind (hI.removeLeafEdge key.bits pathNodes) fun rest => ?_
  obtain ⟨pathNodes, lastBinaryPath⟩ := rest
  simp only
  rcases pathNodes.reverse with _ | ⟨⟨nodeId, height⟩, rest⟩
  · exact hI.emptyTree
  · exact hI.dissolveBinary db key.bits nodeId rest.head? lastBinaryPath

end Walks

section Leaves

variable {key : BitSlice} {value : Felt}
  (hcache : Preserves I (MerkleTree.cacheLeaf (bitsliceToBytes key) (.insert value) : MerkleTree.M E Unit))

omit hcache in
theorem edgeOrChild (height : Nat) (path : Path) (child : NodeHandle) :
    Preserves I (MerkleTree.edgeOrChild height path child : MerkleTree.M E NodeHandle) :=
  .ite (.pure _) (.bind (hI.insertNode _) fun _ => .pure _)

include hcache

theorem splitEdge (nodeId : NodeKey) (edge : EdgeNode) :
    Preserves I (MerkleTree.splitEdge key (bitsliceToBytes key) value nodeId edge : MerkleTree.M E Unit) := by
  refine .ite (.throw_bind _ _) (.bind (hcache) fun _ => .bind (hI.edgeOrChild _ _ _) fun new =>
    .bind (hI.edgeOrChild _ _ _) fun old => .bind (orPanic _ _) fun direction => .ite ?_ ?_)
  · exact .bind (.pure _) fun _ => .bind (hI.addDeathRow _) fun _ => hI.setNode _ _
  · exact .bind (hI.insertNode _) fun _ => .bind (.pure _) fun _ => .bind (hI.addDeathRow _) fun _ => hI.setNode _ _

theorem setAt (nodeId : NodeKey) :
    Preserves I (MerkleTree.setAt key (bitsliceToBytes key) value nodeId : MerkleTree.M E Unit) := by
  refine .bind (getNodeMut nodeId) fun node => ?_
  cases node with
  | edge e => exact .ite (.bind (hcache) fun _ => hI.setNode _ _) (hI.splitEdge hcache nodeId e)
  | binary b =>
    exact .ite (.bind (orPanic _ _) fun direction => .bind (hcache) fun _ => hI.setNode _ _) (hI.setNode _ _)

theorem setRoot : Preserves I (MerkleTree.setRoot key value : MerkleTree.M E Unit) :=
  .bind (hI.insertNode _) fun _ => .bind (hI.setRootNode _) fun _ => hcache

end Leaves

section Sets

variable [FeltCodec] {DB ID : Type} [BonsaiDatabase DB] (db : KeyValueDB DB ID) {key : BitSlice} {value : Felt}

theorem setWalk
    (hcache : Preserves I
      (MerkleTree.cacheLeaf (bitsliceToBytes key) (.insert value) : MerkleTree.M (BonsaiDatabase.DatabaseError DB) Unit)) :
    Preserves I (MerkleTree.setWalk db key value) := by
  refine .bind ((hI.walked db).seekTo key.bits) fun pathNodes => ?_
  rcases pathNodes.getLast? with _ | ⟨nodeId, height⟩
  · exact hI.setRoot hcache
  · exact hI.setAt hcache nodeId

theorem deleteLeaf
    (hcache : Preserves I
      (MerkleTree.cacheLeaf (bitsliceToBytes key) .remove : MerkleTree.M (BonsaiDatabase.DatabaseError DB) Unit)) :
    Preserves I (MerkleTree.deleteLeaf db key) := by
  have hdelete : ∀ found : Bool, Preserves I (if found = true then (do
      MerkleTree.cacheLeaf (bitsliceToBytes key) .remove
      MerkleTree.deleteWalk db key) else pure ()) := fun found =>
    .ite (.bind (hcache) fun _ => hI.deleteWalk db key) (.pure _)
  refine .bind self fun tree => .ite (.throw_bind _ _) ?_
  simp only
  rcases tree.cacheLeafModified.lookup (bitsliceToBytes key) with _ | (v | _)
  · exact .bind (lift _) fun value => .bind (.pure _) hdelete
  · exact .bind (.pure _) hdelete
  · exact .bind (.pure _) hdelete

theorem set
    (hremove : Preserves I
      (MerkleTree.cacheLeaf (bitsliceToBytes key) .remove : MerkleTree.M (BonsaiDatabase.DatabaseError DB) Unit))
    (hcache : value ≠ 0 → Preserves I
      (MerkleTree.cacheLeaf (bitsliceToBytes key) (.insert value) : MerkleTree.M (BonsaiDatabase.DatabaseError DB) Unit)) :
    Preserves I (MerkleTree.set db key value) := by
  by_cases hv : value = 0
  · rw [MerkleTree.set, if_pos hv]
    exact hI.deleteLeaf db hremove
  replace hcache := hcache hv
  rw [MerkleTree.set, if_neg hv]
  refine .bind self fun tree => .ite (.throw_bind _ _) ?_
  simp only
  rcases tree.cacheLeafModified.lookup (bitsliceToBytes key) with _ | (v | _)
  case some.insert => exact hcache
  all_goals
    refine .bind (lift _) fun found => ?_
    cases found with
    | none => exact hI.setWalk db hcache
    | some bytes => exact .bind (lift _) fun old => .ite (.pure _) (hI.setWalk db hcache)

end Sets

/-! ### Commits -/

section Commits

variable [FeltCodec]

omit [FeltCodec] in
theorem takeNode (nodeId : NodeKey) :
    Preserves (fun s => I s.tree ∧ s.updates.WritesNoLeaf)
      (MerkleTree.takeNode nodeId : EStateM (Failure E) MerkleTree.CommitState Node) := by
  intro s h
  rw [MerkleTree.takeNode]
  cases s.tree.nodes.slots nodeId with
  | none => exact h
  | some node => exact ⟨hI s.tree s.tree.rootNode (s.tree.nodes.remove nodeId) s.tree.deathRow h.1, h.2⟩

omit [FeltCodec] hI in
theorem nextHash :
    Preserves (fun s => I s.tree ∧ s.updates.WritesNoLeaf)
      (MerkleTree.nextHash : EStateM (Failure E) MerkleTree.CommitState Felt) := by
  intro s h
  rw [MerkleTree.nextHash]
  rcases s with ⟨tree, updates, _ | ⟨hash, hashes⟩⟩
  · exact h
  · exact h

omit hI in
theorem storeNode (path : Path) (node : Node) :
    Preserves (fun s => I s.tree ∧ s.updates.WritesNoLeaf)
      (MerkleTree.storeNode path node : EStateM (Failure E) MerkleTree.CommitState Unit) := by
  intro s h
  rw [MerkleTree.storeNode]
  cases node.encode with
  | none => exact h
  | some bytes => exact ⟨h.1, h.2.insert_trie _ _⟩

theorem commitSubtree (fuel : Nat) (nodeId : NodeKey) (path : Path) :
    Preserves (fun s => I s.tree ∧ s.updates.WritesNoLeaf)
      (MerkleTree.commitSubtree fuel nodeId path : EStateM (Failure E) MerkleTree.CommitState Felt) := by
  induction fuel generalizing nodeId path with
  | zero => exact .throw _
  | succ fuel ih =>
    have hstore : ∀ (path : Path) (node : Felt → Node), Preserves (fun s => I s.tree ∧ s.updates.WritesNoLeaf) (do
        let hash ← MerkleTree.nextHash
        MerkleTree.storeNode path (node hash)
        pure hash : EStateM (Failure E) MerkleTree.CommitState Felt) := fun path node =>
      .bind nextHash fun hash => .bind (storeNode path (node hash)) fun _ => .pure _
    refine .bind (hI.takeNode nodeId) fun node => ?_
    rcases node with ⟨hash, height, (left | left), (right | right)⟩ | ⟨hash, height, path', (child | child)⟩
    · exact .bind (.pure _) fun _ => .bind (.pure _) fun _ => hstore _ _
    · exact .bind (.pure _) fun _ => .bind (ih _ _) fun _ => hstore _ _
    · exact .bind (ih _ _) fun _ => .bind (.pure _) fun _ => hstore _ _
    · exact .bind (ih _ _) fun _ => .bind (ih _ _) fun _ => hstore _ _
    · exact .bind (.pure _) fun _ => hstore _ _
    · exact .bind (ih _ _) fun _ => hstore _ _

/-- The updates of the nodes are no writes of leaves. -/
theorem commitRoot (H : StarkHash) {updates : Updates} (hu : updates.WritesNoLeaf) {tree : MerkleTree} (h : I tree) :
    I (left (MerkleTree.commitRoot H updates tree : EStateM.Result (Failure E) MerkleTree Updates)) ∧
      ∀ u tree', (MerkleTree.commitRoot H updates tree : EStateM.Result (Failure E) MerkleTree Updates) = .ok u tree' →
        u.WritesNoLeaf := by
  rw [MerkleTree.commitRoot]
  rcases tree.rootNode with _ | (_ | nodeId)
  · exact ⟨h, fun u tree' hok => by cases hok; exact hu⟩
  · exact ⟨h, fun u tree' hok => by cases hok; exact hu⟩
  · simp only
    rcases MerkleTree.computeRootHash H tree [] with e | ⟨hash, hashes⟩
    · exact ⟨h, fun u tree' hok => by cases hok⟩
    · have hsub := hI.commitSubtree (E := E) (tree.nodes.next + 1) nodeId [] ⟨tree, updates, hashes⟩ ⟨h, hu⟩
      simp only
      cases hrun : (MerkleTree.commitSubtree (tree.nodes.next + 1) nodeId [] ⟨tree, updates, hashes⟩ :
          EStateM.Result (Failure E) MerkleTree.CommitState Felt) with
      | ok hash s => rw [hrun] at hsub; exact ⟨hsub.1, fun u tree' hok => by cases hok; exact hsub.2⟩
      | error e s => rw [hrun] at hsub; exact ⟨hsub.1, fun u tree' hok => by cases hok⟩

end Commits

end Framed

end Bonsai
