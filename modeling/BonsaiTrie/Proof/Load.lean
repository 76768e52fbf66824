import BonsaiTrie.Framework.Run
import BonsaiTrie.Impl.Storage
import BonsaiTrie.Proof.Overlay
import BonsaiTrie.Spec.Infallible

/-!
# Loading nodes

The database as a tree sees it (`MerkleTree.disk`), and what loading a node
does: the node at the top of a stored trie becomes a new in-memory node that
stands for the same trie (`Focus.load`), and the handle of its parent is
changed to it.
-/

namespace Bonsai

open Patricia Run

namespace SlotMap

variable {V : Type}

@[simp] theorem insert_fst (m : SlotMap V) (v : V) : (m.insert v).1 = m.next := rfl

@[simp] theorem insert_slots (m : SlotMap V) (v : V) (j : NodeKey) :
    (m.insert v).2.slots j = if j = m.next then some v else m.slots j := rfl

@[simp] theorem remove_slots (m : SlotMap V) (k j : NodeKey) :
    (m.remove k).slots j = if j = k then none else m.slots j := rfl

theorem set_slots {m : SlotMap V} {k : NodeKey} (h : (m.slots k).isSome) (v : V) (j : NodeKey) :
    (m.set k v).slots j = if j = k then some v else m.slots j := by
  simp [set, h]

theorem set_slots_self {m : SlotMap V} {k : NodeKey} (h : (m.slots k).isSome) (v : V) :
    (m.set k v).slots k = some v := by
  simp [set_slots h]

theorem set_slots_of_ne (m : SlotMap V) {k j : NodeKey} (v : V) (h : j ≠ k) : (m.set k v).slots j = m.slots j := by
  simp [set, h]

theorem isSome_set (m : SlotMap V) (k j : NodeKey) (v : V) : ((m.set k v).slots j).isSome = (m.slots j).isSome := by
  simp only [set]
  split
  · rename_i h; simp [h.1, h.2]
  · rfl

/-- A key in the map is below the next one. -/
theorem lt_next {m : SlotMap V} {k : NodeKey} (h : (m.slots k).isSome) : k < m.next :=
  Nat.lt_of_not_le fun hk => by rw [m.fresh k hk] at h; cases h

/-- There are no more keys in the map than were given out. -/
theorem length_le_next {m : SlotMap V} {ks : List NodeKey} (hks : ks.Nodup) (h : ∀ j ∈ ks, (m.slots j).isSome) :
    ks.length ≤ m.next := by
  have := (hks.subperm fun j hj => List.mem_range.mpr (lt_next (h j hj))).length_le
  rwa [List.length_range] at this

theorem next_slots (m : SlotMap V) : m.slots m.next = none := m.fresh _ le_rfl

end SlotMap

namespace MerkleTree

/-- The database nodes of a tree: those not on the death row. -/
def disk (tree : MerkleTree) (cols : Columns) : Disk := fun p =>
  if tree.deathRow.lookup (TrieKey.new tree.identifier .trie p.encode) = some () then none
  else cols (.trie (tree.identifier ++ p.encode))

/-! ## The accessors -/

section

variable {E : Type} {s : MerkleTree} {k : NodeKey} {node : Node}

@[simp] theorem self_run (tree : MerkleTree) : (self : M E MerkleTree) tree = .ok tree tree := rfl

theorem getNodeMut_ok (h : s.nodes.slots k = some node) : (getNodeMut k : M E Node) s = .ok node s := by
  rw [getNodeMut, h]

theorem putNode_ok (h : (s.nodes.slots k).isSome) (node : Node) :
    (putNode k node : M E Unit) s = .ok () { s with nodes := s.nodes.set k node } := by
  obtain ⟨old, h⟩ := Option.isSome_iff_exists.mp h
  rw [putNode, bind_ok (getNodeMut_ok h)]
  rfl

theorem setNode_ok (h : (s.nodes.slots k).isSome) (node : Node) :
    (setNode k node : M E Unit) s = .ok () { s with nodes := s.nodes.set k node } := by
  obtain ⟨old, h⟩ := Option.isSome_iff_exists.mp h
  rw [setNode, h]

theorem lift_ok {σ α : Type} {r : Except (Failure E) α} {a : α} (h : r = .ok a) (s : σ) :
    (lift r : EStateM (Failure E) σ α) s = .ok a s := by
  rw [h]; rfl

theorem orPanic_some {σ α : Type} (a : α) (message : String) (s : σ) :
    (orPanic (some a) message : EStateM (Failure E) σ α) s = .ok a s := rfl

end

/-! ## The nodes of a database -/

section

variable [FeltCodec] {DB ID : Type} [BonsaiDatabase DB] [InfallibleDatabase DB] {db : KeyValueDB DB ID}
  {tree : MerkleTree} {p : Path}

theorem loadDbNode_none (h : tree.disk db.columns p = none) :
    loadDbNode db (TrieKey.new tree.identifier .trie p.encode) tree = .ok none tree := by
  rw [loadDbNode, bind_ok (self_run tree)]
  by_cases hd : tree.deathRow.lookup (TrieKey.new tree.identifier .trie p.encode) = some ()
  · rw [if_pos hd]; rfl
  · rw [disk, if_neg hd] at h
    rw [if_neg hd, bind_ok (lift_ok (db.get_ok _) tree),
      show db.columns (TrieKey.new tree.identifier .trie p.encode).toDatabaseKey = none from h]
    rfl

theorem loadDbNode_some {bytes : ByteVec} {node : Node} (h : tree.disk db.columns p = some bytes)
    (hb : Node.decode bytes = .ok node) :
    loadDbNode db (TrieKey.new tree.identifier .trie p.encode) tree =
      .ok (some tree.nodes.next) { tree with nodes := (tree.nodes.insert node).2 } := by
  have hd : ¬ tree.deathRow.lookup (TrieKey.new tree.identifier .trie p.encode) = some () := fun hd => by
    rw [disk, if_pos hd] at h; cases h
  rw [disk, if_neg hd] at h
  rw [loadDbNode, bind_ok (self_run tree), if_neg hd, bind_ok (lift_ok (db.get_ok _) tree),
    show db.columns (TrieKey.new tree.identifier .trie p.encode).toDatabaseKey = some bytes from h]
  have hdec : (decodeNode bytes : Except (Failure (BonsaiDatabase.DatabaseError DB)) Node) = .ok node := by
    rw [decodeNode, hb]
  show (lift (decodeNode bytes) >>= _) tree = _
  rw [bind_ok (lift_ok hdec tree)]
  rfl

/-- A node that cannot be decoded is not loaded. -/
theorem loadDbNode_error {bytes : ByteVec} {f : DecodeFault} (h : tree.disk db.columns p = some bytes)
    (hb : Node.decode bytes = .error f) :
    ∃ e, loadDbNode db (TrieKey.new tree.identifier .trie p.encode) tree = .error e tree := by
  have hd : ¬ tree.deathRow.lookup (TrieKey.new tree.identifier .trie p.encode) = some () := fun hd => by
    rw [disk, if_pos hd] at h; cases h
  rw [disk, if_neg hd] at h
  rw [loadDbNode, bind_ok (self_run tree), if_neg hd, bind_ok (lift_ok (db.get_ok _) tree),
    show db.columns (TrieKey.new tree.identifier .trie p.encode).toDatabaseKey = some bytes from h]
  cases f with
  | malformed => exact ⟨.error .nodeDecodeError, by simp only [decodeNode, hb]; rfl⟩
  | unreachable => exact ⟨.panic "Cannot decode NodeKey", by simp only [decodeNode, hb]; rfl⟩

omit [InfallibleDatabase DB] in
variable (db tree p) in
/-- What is read of the database depends on the identifier and the death row alone. -/
theorem getTrieBranch_leaving : ∃ r, ∀ tree' : MerkleTree, tree'.identifier = tree.identifier → tree'.deathRow = tree.deathRow →
    getTrieBranchInDbFromPath db p tree' = leaving r tree' := by
  by_cases hd : tree.deathRow.lookup (TrieKey.new tree.identifier .trie p.encode) = some ()
  · refine ⟨.ok none, ?_⟩
    rintro ⟨root, nodes, _, _, cache, m⟩ rfl rfl
    rw [getTrieBranchInDbFromPath, bind_ok (self_run _)]
    simp only [if_pos hd]
    rfl
  rcases hg : db.get (TrieKey.new tree.identifier .trie p.encode) with e | (_ | bytes)
  · refine ⟨.error e, ?_⟩
    rintro ⟨root, nodes, _, _, cache, m⟩ rfl rfl
    rw [getTrieBranchInDbFromPath, bind_ok (self_run _)]
    simp only [if_neg hd, hg]
    rfl
  · refine ⟨.ok none, ?_⟩
    rintro ⟨root, nodes, _, _, cache, m⟩ rfl rfl
    rw [getTrieBranchInDbFromPath, bind_ok (self_run _)]
    simp only [if_neg hd, hg]
    rfl
  · rcases hdec : Node.decode bytes with (_ | _) | node
    · refine ⟨.error (.error (.trie "Couldn't decode node: ")), ?_⟩
      rintro ⟨root, nodes, _, _, cache, m⟩ rfl rfl
      rw [getTrieBranchInDbFromPath, bind_ok (self_run _)]
      simp only [if_neg hd, hg]
      rw [bind_ok (lift_ok rfl _)]
      simp only [hdec]
      rfl
    · refine ⟨.error (.panic "Cannot decode NodeKey"), ?_⟩
      rintro ⟨root, nodes, _, _, cache, m⟩ rfl rfl
      rw [getTrieBranchInDbFromPath, bind_ok (self_run _)]
      simp only [if_neg hd, hg]
      rw [bind_ok (lift_ok rfl _)]
      simp only [hdec]
      rfl
    · refine ⟨.ok (some node), ?_⟩
      rintro ⟨root, nodes, _, _, cache, m⟩ rfl rfl
      rw [getTrieBranchInDbFromPath, bind_ok (self_run _)]
      simp only [if_neg hd, hg]
      rw [bind_ok (lift_ok rfl _)]
      simp only [hdec]
      rfl

theorem getTrieBranch_none (h : tree.disk db.columns p = none) :
    getTrieBranchInDbFromPath db p tree = .ok none tree := by
  rw [getTrieBranchInDbFromPath, bind_ok (self_run tree)]
  by_cases hd : tree.deathRow.lookup (TrieKey.new tree.identifier .trie p.encode) = some ()
  · simp only [if_pos hd]; rfl
  · rw [disk, if_neg hd] at h
    simp only [if_neg hd]
    rw [bind_ok (lift_ok (db.get_ok _) tree),
      show db.columns (TrieKey.new tree.identifier .trie p.encode).toDatabaseKey = none from h]
    rfl

theorem getTrieBranch_some {bytes : ByteVec} {node : Node} (h : tree.disk db.columns p = some bytes)
    (hb : Node.decode bytes = .ok node) : getTrieBranchInDbFromPath db p tree = .ok (some node) tree := by
  have hd : ¬ tree.deathRow.lookup (TrieKey.new tree.identifier .trie p.encode) = some () := fun hd => by
    rw [disk, if_pos hd] at h; cases h
  rw [disk, if_neg hd] at h
  rw [getTrieBranchInDbFromPath, bind_ok (self_run tree)]
  simp only [if_neg hd]
  rw [bind_ok (lift_ok (db.get_ok _) tree),
    show db.columns (TrieKey.new tree.identifier .trie p.encode).toDatabaseKey = some bytes from h]
  simp only [hb]
  rfl

end

end MerkleTree

/-! ## Loaded nodes and the trie -/

section

variable [FeltCodec] {H : StarkHash} {memo : Memo} {nodes nodes' : NodeKey → Option Node} {disk : Disk}
  {root h : NodeHandle} {p : Path} {t : Trie Felt} {ks ks' : List NodeKey}

omit [FeltCodec] in
/-- The stored nodes of a trie of a height of one byte fit the codec. -/
theorem storedNode_fits {n : Nat} {node : Node} (ht : t.WF n) (hn : p.length + n ≤ 255)
    (hnode : storedNode H p.length t = some node) : node.Fits := by
  have hp : p.length < 2 ^ 64 := by omega
  cases t with
  | leaf v => simp [storedNode] at hnode
  | binary l r =>
    simp only [storedNode, Option.some.injEq] at hnode
    subst hnode; exact hp
  | edge q c =>
    obtain ⟨m, rfl, -⟩ := ht.edge_inv
    simp only [storedNode, Option.some.injEq] at hnode
    subst hnode
    exact ⟨hp, show q.length ≤ 255 by omega⟩

/-- The node at the top of a stored trie, as it is read. -/
theorem Stored.read {n : Nat} (hs : Stored H disk p t) (hl : ¬ t.IsLeaf) (ht : t.WF n) (hn : p.length + n ≤ 255) :
    ∃ bytes node, disk p = some bytes ∧ Node.decode bytes = .ok node ∧ storedNode H p.length t = some node := by
  obtain ⟨node, bytes, hnode, hb, hsb⟩ := exists_storedBytes H p.length hl
  exact ⟨bytes, node, (hs.top hl).trans hsb, Node.decode_encode (storedNode_fits ht hn hnode) hb, hnode⟩

/-- The handle in the hole of a frame, changed. -/
def refill (f : Frame Felt) (h : NodeHandle) : Node → Node
  | .binary b => .binary (match f with | .left _ => b.setChild .left h | _ => b.setChild .right h)
  | .edge e => .edge { e with child := h }

omit [FeltCodec] in
theorem getHash_refill (f : Frame Felt) (h : NodeHandle) (node : Node) : (refill f h node).getHash = node.getHash := by
  cases node with
  | binary b => cases f <;> rfl
  | edge e => rfl

/-- A frame whose handle is changed is the same frame. -/
theorem RepFrame.refill {k : NodeKey} {f : Frame Felt} (hf : RepFrame H memo nodes disk k p h t f ks) :
    ∃ node, nodes k = some node ∧ ∀ (nodes' : NodeKey → Option Node) (h' : NodeHandle),
      nodes' k = some (Bonsai.refill f h' node) → (∀ j ∈ ks, nodes' j = nodes j) →
      RepFrame H memo nodes' disk k p h' t f ks := by
  cases hf with
  | left hk hm hr =>
    exact ⟨_, hk, fun nodes' h' hk' hj => .left hk' hm (hr.congr hj fun _ _ => rfl)⟩
  | right hk hm hr =>
    exact ⟨_, hk, fun nodes' h' hk' hj => .right hk' hm (hr.congr hj fun _ _ => rfl)⟩
  | edge hk hm => exact ⟨_, hk, fun nodes' h' hk' hj => .edge hk' hm⟩

namespace Focus

variable {w : Way}

theorem isSome_of_mem (hF : Focus H memo nodes disk root w h t ks ks') {k : NodeKey} (hk : k ∈ ks ++ ks') :
    (nodes k).isSome := (hF.total k).mpr hk

/-- The node of the last frame. -/
theorem last {k : NodeKey} {f : Frame Felt} (hF : Focus H memo nodes disk root ((k, f) :: w) h t ks ks') :
    ∃ ks₁ ks₂, RepFrame H memo nodes disk k w.path h t f ks₁ ∧
      RepCtx H memo nodes disk root w (.inMemory k) (f.fill t) ks₂ ∧ ks = k :: (ks₁ ++ ks₂) := by
  cases hF.ctx with | cons hc hf => exact ⟨_, _, hf, hc, rfl⟩

/-- The handle in the focus replaced by one that stands for the same trie. -/
theorem refill {k : NodeKey} {f : Frame Felt} {g : NodeHandle} {node : Node} {ks'' : List NodeKey}
    (hF : Focus H memo nodes disk root ((k, f) :: w) h t ks ks') (hk : nodes k = some node)
    (hk' : nodes' k = some (Bonsai.refill f g node)) (hj : ∀ j ∈ ks, j ≠ k → nodes' j = nodes j)
    (hr : Rep H memo nodes' disk g (Way.path ((k, f) :: w)) t ks'') (hn : (ks ++ ks'').Nodup)
    (ht : ∀ j, (nodes' j).isSome ↔ j ∈ ks ++ ks'') : Focus H memo nodes' disk root ((k, f) :: w) g t ks ks'' := by
  obtain ⟨ks₁, ks₂, hf, hc, rfl⟩ := hF.last
  have hne : k ∉ ks₁ ++ ks₂ := (List.nodup_cons.mp (List.nodup_append.mp hF.nodup).1).1
  have hj' : ∀ j ∈ ks₁ ++ ks₂, nodes' j = nodes j := fun j h =>
    hj j (List.mem_cons_of_mem _ h) fun e => hne (e ▸ h)
  obtain ⟨node', hnode', hf'⟩ := hf.refill
  obtain rfl : node' = node := Option.some.inj (hnode'.symm.trans hk)
  refine ⟨.cons (hc.congr (fun j h => hj' j (List.mem_append_right _ h)) fun _ _ _ => rfl)
    (hf' nodes' g hk' fun j h => hj' j (List.mem_append_left _ h)), hr, hn, ht⟩

/-- The node at the top of a stored trie is loaded, under a fresh key. -/
theorem load {kp kn : NodeKey} {f : Frame Felt} {v : Felt} {pnode node : Node}
    (hF : Focus H memo nodes disk root ((kp, f) :: w) (.hash v) t ks ks') (hlaw : memo.Lawful H)
    (hnode : storedNode H (Way.path ((kp, f) :: w)).length t = some node) (hp : nodes kp = some pnode)
    (hfresh : nodes kn = none) (hp' : nodes' kp = some (Bonsai.refill f (.inMemory kn) pnode))
    (hkn : nodes' kn = some node) (hj : ∀ j, j ≠ kp → j ≠ kn → nodes' j = nodes j) :
    Focus H memo nodes' disk root ((kp, f) :: w) (.inMemory kn) t ks [kn] := by
  obtain ⟨-, hs, rfl⟩ := hF.rep.hash_inv
  have hmem : ∀ j, (nodes j).isSome ↔ j ∈ ks := by simpa using hF.total
  have hnk : kn ∉ ks := fun h => by simpa [hfresh] using (hmem kn).mpr h
  have hpk : kp ∈ ks := (hmem kp).mp (by simp [hp])
  refine hF.refill hp hp' (fun j hjk hne => hj j hne fun e => hnk (e ▸ hjk)) (hs.rep_loaded hlaw hnode hkn) ?_ ?_
  · exact List.nodup_append.mpr ⟨by simpa using hF.nodup, by simp, by
      rintro a ha b hb rfl; rw [List.mem_singleton] at hb; exact hnk (hb ▸ ha)⟩
  · intro j
    by_cases h₁ : j = kp
    · subst h₁; simp [hp', hpk]
    · by_cases h₂ : j = kn
      · subst h₂; simp [hkn]
      · rw [hj j h₁ h₂, hmem]; simp [h₂]

/-- The root of a stored trie is loaded. -/
theorem load_root {kn : NodeKey} {v : Felt} {node : Node} (hF : Focus H memo nodes disk (.hash v) [] (.hash v) t ks ks')
    (hlaw : memo.Lawful H) (hnode : storedNode H 0 t = some node) (hkn : nodes' kn = some node)
    (hj : ∀ j, j ≠ kn → nodes' j = nodes j) : Focus H memo nodes' disk (.inMemory kn) [] (.inMemory kn) t [] [kn] := by
  obtain ⟨-, hs, rfl⟩ := hF.rep.hash_inv
  have hmem : ∀ j, (nodes j).isSome ↔ j ∈ ks := by simpa using hF.total
  cases hF.ctx
  refine ⟨.nil, hs.rep_loaded hlaw hnode hkn, by simp, fun j => ?_⟩
  by_cases h₂ : j = kn
  · subst h₂; simp [hkn]
  · rw [hj j h₂, hmem]; simp [h₂]

end Focus

/-! ## The root -/

/-- The root of a tree stands for a trie, or for none; it may not be loaded yet. -/
inductive Rooted (H : StarkHash) (memo : Memo) (nodes : NodeKey → Option Node) (disk : Disk) :
    Option RootHandle → Option (Trie Felt) → Prop where
  | noTrie : (∀ k, nodes k = none) → Rooted H memo nodes disk none none
  | empty : (∀ k, nodes k = none) → Rooted H memo nodes disk (some .empty) none
  | unloaded {t : Trie Felt} : Focus H memo nodes disk (.hash (merkleHash H t)) [] (.hash (merkleHash H t)) t [] [] →
      Rooted H memo nodes disk none (some t)
  | loaded {k : NodeKey} {t : Trie Felt} {ks : List NodeKey} :
      Focus H memo nodes disk (.inMemory k) [] (.inMemory k) t [] ks →
      Rooted H memo nodes disk (some (.loaded k)) (some t)

variable {DB ID : Type} [BonsaiDatabase DB] [InfallibleDatabase DB] {db : KeyValueDB DB ID} {tree : MerkleTree}

/-- The root of a tree that is not empty, as it was or as it is stored. -/
theorem loadRootNode_ok {n : Nat} (hr : Rooted H memo tree.nodes.slots (tree.disk db.columns) tree.rootNode (some t))
    (hlaw : memo.Lawful H) (ht : t.WF n) (hn : n ≤ 255) (hn₀ : 0 < n) :
    ∃ k nodes ks, MerkleTree.loadRootNode db tree =
        .ok (some k) { tree with nodes := nodes, rootNode := some (.loaded k) } ∧
      Focus H memo nodes.slots (tree.disk db.columns) (.inMemory k) [] (.inMemory k) t [] ks ∧
      (tree.rootNode = some (.loaded k) ∧ nodes = tree.nodes ∨
        tree.rootNode = none ∧ ∃ node, storedNode H 0 t = some node ∧ nodes.slots k = some node) := by
  rcases tree with ⟨rootNode, nodes, identifier, deathRow, cache, maxHeight⟩
  cases hr with
  | @loaded k _ ks hF => exact ⟨k, nodes, ks, rfl, hF, .inl ⟨rfl, rfl⟩⟩
  | unloaded hF =>
    obtain ⟨-, hs, -⟩ := hF.rep.hash_inv
    obtain ⟨bytes, node, hd, hdec, hnode⟩ := hs.read (ht.not_isLeaf hn₀) ht (by simpa using hn)
    have hnew : (nodes.insert node).2.slots nodes.next = some node := by simp
    refine ⟨nodes.next, _, _, ?_, hF.load_root hlaw hnode hnew fun j hj => by simp [hj], .inr ⟨rfl, node, hnode, hnew⟩⟩
    rw [MerkleTree.loadRootNode, bind_ok (MerkleTree.self_run _)]
    simp only
    rw [bind_ok (MerkleTree.self_run _)]
    exact bind_ok (MerkleTree.loadDbNode_some (p := []) hd hdec) _

/-- The root of an empty tree. -/
theorem loadRootNode_empty (hr : Rooted H memo tree.nodes.slots (tree.disk db.columns) tree.rootNode none)
    (hd : tree.disk db.columns [] = none) :
    MerkleTree.loadRootNode db tree = .ok none { tree with rootNode := some .empty } := by
  rcases tree with ⟨rootNode, nodes, identifier, deathRow, cache, maxHeight⟩
  cases hr with
  | empty => rfl
  | noTrie =>
    rw [MerkleTree.loadRootNode, bind_ok (MerkleTree.self_run _)]
    simp only
    rw [bind_ok (MerkleTree.self_run _)]
    exact bind_ok (MerkleTree.loadDbNode_none (p := []) hd) _

end

end Bonsai
