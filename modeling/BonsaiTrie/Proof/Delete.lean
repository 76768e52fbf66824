import BonsaiTrie.Proof.Set

/-!
# Deleting a leaf

`delete_leaf` takes the leaf away, with the edge over it; the binary node that
is left with one child becomes an edge, merged with the edge below it
(`mergeEdges_ok`) and into the edge above it (`dissolveBinary_ok`), and a tree
with one leaf becomes empty. Every node that goes is put on the death row.
-/

namespace Bonsai

open Patricia Run

namespace MerkleTree

/-- The tree with the node of a path on the death row. -/
def bury (tree : MerkleTree) (p : Path) : MerkleTree :=
  { tree with deathRow := tree.deathRow.insert (TrieKey.new tree.identifier .trie p.encode) () }

theorem bury_buries (tree : MerkleTree) (p : Path) : Buries tree.deathRow (tree.bury p).deathRow :=
  Buries.insert _ _

/-- A buried node is not in the database any more; the others are. -/
theorem disk_bury (tree : MerkleTree) (cols : Columns) {p q : Path} (hp : p.length ≤ 255) (hq : q.length ≤ 255) :
    (tree.bury p).disk cols q = if q = p then none else tree.disk cols q := by
  simp only [disk, bury]
  by_cases h : q = p
  · subst h; simp
  · have hne : TrieKey.new tree.identifier .trie (Path.encode q) ≠ TrieKey.new tree.identifier .trie (Path.encode p) := by
      simp only [TrieKey.new, ne_eq, TrieKey.trie.injEq, List.append_cancel_left_eq]
      exact fun e => h (Path.encode_inj hq hp e)
    simp only [AList.lookup_insert_ne hne, if_neg h]

end MerkleTree

/-- Nodes that went, of those a focus had. -/
theorem Focus.shrink [FeltCodec] {H : StarkHash} {memo : Memo} {nodes nodes' : NodeKey → Option Node} {disk : Disk}
    {root h : NodeHandle} {w : Way} {t : Trie Felt} {all ks ks' : List NodeKey} (gone : List NodeKey)
    (ctx : RepCtx H memo nodes' disk root w h t ks) (rep : Rep H memo nodes' disk h w.path t ks')
    (hn : all.Nodup) (ht : ∀ j, (nodes j).isSome ↔ j ∈ all) (hp : all.Perm (gone ++ (ks ++ ks')))
    (hd : ∀ j, (nodes' j).isSome ↔ (nodes j).isSome ∧ j ∉ gone) : Focus H memo nodes' disk root w h t ks ks' := by
  obtain ⟨-, hn', hdisj⟩ := List.nodup_append.mp (hp.nodup_iff.mp hn)
  refine ⟨ctx, rep, hn', fun j => ?_⟩
  rw [hd, ht, hp.mem_iff, List.mem_append]
  constructor
  · rintro ⟨h₁ | h₂, h₃⟩
    · exact (h₃ h₁).elim
    · exact h₂
  · exact fun hj => ⟨.inr hj, fun hg => hdisj j hg j hj rfl⟩

section

variable [FeltCodec] {DB ID : Type} [BonsaiDatabase DB] [InfallibleDatabase DB] {db : KeyValueDB DB ID}
  {H : StarkHash} {memo : Memo} {tree : MerkleTree} {p : Path} {y : Trie Felt} {m : Nat} {ks : List NodeKey}

/-- An edge of one bit, merged with its child if that is an edge. -/
theorem mergeEdges_ok {b : Bool} {h : NodeHandle}
    (hr : Rep H memo tree.nodes.slots (tree.disk db.columns) h (p ++ [b]) y ks) (hnd : ks.Nodup) (hw : y.WF m)
    (hlen : p.length + 1 + m ≤ 255) (hleaf : y.IsLeaf → tree.disk db.columns (p ++ [b]) = none) :
    ∃ nodes deathRow q c ch gone ks',
      MerkleTree.mergeEdges db ⟨none, p.length, [b], h⟩ (p ++ [b]) tree =
        .ok ⟨none, p.length, q, ch⟩ { tree with nodes := nodes, deathRow := deathRow } ∧
      Trie.join [b] y = .edge q c ∧
      Rep H memo nodes.slots ({ tree with deathRow := deathRow }.disk db.columns) ch (p ++ q) c ks' ∧
      Buries tree.deathRow deathRow ∧
      (∀ r : Path, r.length ≤ 255 → r ≠ p ++ [b] →
        { tree with deathRow := deathRow }.disk db.columns r = tree.disk db.columns r) ∧
      (y.IsEdge → { tree with deathRow := deathRow }.disk db.columns (p ++ [b]) = none) ∧
      ks.Perm (gone ++ ks') ∧ ∀ j, nodes.slots j = if j ∈ gone then none else tree.nodes.slots j := by
  have hpb : (p ++ [b]).length ≤ 255 := by simp only [List.length_append, List.length_singleton]; omega
  -- under an edge, what is below stays in the database
  have hbelow {q : Path} {c : Trie Felt} (hy : y = .edge q c) (r : Path) (hc : c.HasNode r) :
      (tree.bury (p ++ [b])).disk db.columns (p ++ [b] ++ q ++ r) = tree.disk db.columns (p ++ [b] ++ q ++ r) := by
    subst hy
    obtain ⟨i, rfl, hq, hci, -⟩ := hw.edge_inv
    have := hci.length_lt_of_hasNode hc
    rw [MerkleTree.disk_bury _ _ hpb (by simp only [List.length_append, List.length_singleton]; omega), if_neg]
    simp [hq]
  have hburied (r : Path) (hr : r.length ≤ 255) (hne : r ≠ p ++ [b]) :
      (tree.bury (p ++ [b])).disk db.columns r = tree.disk db.columns r := by
    rw [MerkleTree.disk_bury _ _ hpb hr, if_neg hne]
  have hgone : (tree.bury (p ++ [b])).disk db.columns (p ++ [b]) = none := by
    rw [MerkleTree.disk_bury _ _ hpb hpb, if_pos rfl]
  cases hr with
  | stored hs =>
    -- the child is in the database only
    cases y with
    | leaf v =>
      refine ⟨tree.nodes, tree.deathRow, [b], .leaf v, .hash v, [], [], ?_, rfl, rep_leaf v, .refl _, fun _ _ _ => rfl,
        fun h => h.elim, .refl _, by simp⟩
      exact bind_ok (MerkleTree.getTrieBranch_none (hleaf trivial)) _
    | binary l r =>
      obtain ⟨bytes, node, hd, hdec, hnode⟩ := hs.read id hw (by simpa using hlen)
      obtain rfl := Option.some.inj hnode
      refine ⟨tree.nodes, tree.deathRow, [b], .binary l r, _, [], [], ?_, rfl, .stored hs, .refl _, fun _ _ _ => rfl,
        fun h => h.elim, .refl _, by simp⟩
      exact bind_ok (MerkleTree.getTrieBranch_some hd hdec) _
    | edge q c =>
      obtain ⟨bytes, node, hd, hdec, hnode⟩ := hs.read id hw (by simpa using hlen)
      obtain rfl := Option.some.inj hnode
      refine ⟨tree.nodes, (tree.bury (p ++ [b])).deathRow, [b] ++ q, c, .hash (merkleHash H c), [], [], ?_, rfl, ?_,
        tree.bury_buries _, hburied, fun _ => hgone, .refl _, by simp⟩
      · refine Eq.trans (bind_ok (MerkleTree.getTrieBranch_some hd hdec) _) ?_
        rfl
      · rw [← List.append_assoc]
        exact .stored (hs.2.congr (hbelow rfl))
  | binary hk hm hl hr =>
    refine ⟨tree.nodes, tree.deathRow, [b], _, _, [], _, ?_, rfl, .binary hk hm hl hr, .refl _,
      fun _ _ _ => rfl, fun h => h.elim, .refl _, by simp⟩
    exact bind_ok (MerkleTree.getNodeMut_ok hk) _
  | @edge _ kc _ q ch c ks' hk _ hc =>
    refine ⟨tree.nodes.remove kc, (tree.bury (p ++ [b])).deathRow, [b] ++ q, c, ch, [kc], ks', ?_, rfl, ?_,
      tree.bury_buries _, hburied, fun _ => hgone, .refl _, fun j => by simp⟩
    · refine Eq.trans (bind_ok (MerkleTree.getNodeMut_ok hk) _) ?_
      rfl
    · rw [← List.append_assoc]
      refine hc.congr (fun j hj => ?_) (hbelow rfl)
      rw [SlotMap.remove_slots, if_neg]
      rintro rfl
      exact (List.nodup_cons.mp hnd).1 hj

/-- A call that leaves the tree standing for a canonical trie with the content of `t`. -/
def Reshapes {E : Type} (H : StarkHash) (memo : Memo) (cols : Columns) (n : Nat) (root : NodeHandle) (t : Trie Felt)
    (tree : MerkleTree) (result : EStateM.Result (Failure E) MerkleTree Unit) : Prop :=
  ∃ (nodes : SlotMap Node) (deathRow : HashSet TrieKey) (t' : Trie Felt) (ks : List NodeKey),
    result = .ok () { tree with nodes := nodes, deathRow := deathRow } ∧ Buries tree.deathRow deathRow ∧
    Focus H memo nodes.slots ({ tree with deathRow := deathRow }.disk cols) root [] root t' [] ks ∧ t'.WF n ∧
    (∀ p : Path, p.length ≤ n → ({ tree with deathRow := deathRow }.disk cols p).isSome → t'.HasNode p) ∧
    ∀ q, t'.lookup q = t.lookup q

/-- The end of `dissolve`: the new edge goes into the edge above it, or in the node's place. -/
def MerkleTree.attachEdge {E : Type} (kb : NodeKey) (parent : Option (NodeKey × Nat)) (path q : Path) (ch : NodeHandle) :
    M E Unit := do
  match parent with
  | some (parentNodeId, _) =>
    match ← getNodeMut parentNodeId with
    | .edge parentEdge =>
      putNode parentNodeId (.edge { parentEdge with path := parentEdge.path ++ q, child := ch })
      addDeathRow (TrieKey.new (← self).identifier .trie (Path.encode path))
      removeNode kb
    | .binary _ => setNode kb (.edge ⟨none, path.length, q, ch⟩)
  | none => setNode kb (.edge ⟨none, path.length, q, ch⟩)

omit [FeltCodec] in
theorem MerkleTree.attachEdge_of_binary {E : Type} {s : MerkleTree} {k kb : NodeKey} {bn : BinaryNode}
    (hk : s.nodes.slots k = some (.binary bn)) (height : Nat) (path q : Path) (ch : NodeHandle) :
    (MerkleTree.attachEdge kb (some (k, height)) path q ch : MerkleTree.M E Unit) s =
      MerkleTree.setNode kb (.edge ⟨none, path.length, q, ch⟩) s :=
  bind_ok (MerkleTree.getNodeMut_ok hk) _

/-- A binary node whose child in the direction `b` goes, once there is an edge to what is left (`nodes'`, `deathRow'`). -/
structure Dissolving (H : StarkHash) (memo : Memo) (cols : Columns) (n : Nat) (root : NodeHandle) (tree : MerkleTree)
    (nodes' : SlotMap Node) (deathRow' : HashSet TrieKey) (w : Way) (b : Bool) (x y : Trie Felt) (kb : NodeKey) (q : Path)
    (c : Trie Felt) (ch : NodeHandle) (gone ks₁ ks₂ ks' : List NodeKey) : Prop where
  ctx : RepCtx H memo tree.nodes.slots (tree.disk cols) root w (.inMemory kb) (.branch b x y) ks₂
  loose : w.Loose memo tree.nodes.slots
  nodup : (kb :: (ks₁ ++ ks₂)).Nodup
  total : ∀ j, (tree.nodes.slots j).isSome ↔ j ∈ kb :: (ks₁ ++ ks₂)
  wf : (w.plug (.branch b x y)).WF n
  le_255 : n ≤ 255
  join : Trie.join [!b] y = .edge q c
  rep : Rep H memo nodes'.slots ({ tree with deathRow := deathRow' }.disk cols) ch (w.path ++ q) c ks'
  buries : Buries tree.deathRow deathRow'
  disk : ∀ r : Path, r.length ≤ 255 → r ≠ w.path ++ [!b] →
    { tree with deathRow := deathRow' }.disk cols r = tree.disk cols r
  only : ∀ p : Path, p.length ≤ n → ({ tree with deathRow := deathRow' }.disk cols p).isSome →
    (w.plug (Trie.join [!b] y)).HasNode p
  perm : ks₁.Perm (gone ++ ks')
  slots : ∀ j, nodes'.slots j = if j ∈ gone then none else tree.nodes.slots j

namespace Dissolving

variable {cols : Columns} {n : Nat} {root : NodeHandle} {nodes' : SlotMap Node} {deathRow' : HashSet TrieKey} {w : Way}
  {b : Bool} {x y : Trie Felt} {kb : NodeKey} {q : Path} {c : Trie Felt} {ch : NodeHandle} {gone ks₁ ks₂ ks' : List NodeKey}
  {j : NodeKey}

theorem not_mem (h : Dissolving H memo cols n root tree nodes' deathRow' w b x y kb q c ch gone ks₁ ks₂ ks') : kb ∉ ks₁ ++ ks₂ :=
  (List.nodup_cons.mp h.nodup).1

/-- The nodes below the edge were below the binary node. -/
theorem mem_left (h : Dissolving H memo cols n root tree nodes' deathRow' w b x y kb q c ch gone ks₁ ks₂ ks') (hj : j ∈ ks') :
    j ∈ ks₁ :=
  h.perm.mem_iff.mpr (List.mem_append_right _ hj)

theorem disjoint (h : Dissolving H memo cols n root tree nodes' deathRow' w b x y kb q c ch gone ks₁ ks₂ ks') (hj : j ∈ ks₁) :
    j ∉ ks₂ :=
  fun hj' => (List.nodup_append.mp (List.nodup_cons.mp h.nodup).2).2.2 j hj j hj' rfl

/-- A node that is not below the binary node is as it was. -/
theorem slots_of_not_mem (h : Dissolving H memo cols n root tree nodes' deathRow' w b x y kb q c ch gone ks₁ ks₂ ks')
    (hj : j ∉ ks₁) : nodes'.slots j = tree.nodes.slots j := by
  rw [h.slots, if_neg fun hgone => hj (h.perm.mem_iff.mpr (List.mem_append_left _ hgone))]

theorem slots_above (h : Dissolving H memo cols n root tree nodes' deathRow' w b x y kb q c ch gone ks₁ ks₂ ks') (hj : j ∈ ks₂) :
    nodes'.slots j = tree.nodes.slots j :=
  h.slots_of_not_mem fun hj' => h.disjoint hj' hj

theorem isSome_slots (h : Dissolving H memo cols n root tree nodes' deathRow' w b x y kb q c ch gone ks₁ ks₂ ks') :
    (nodes'.slots kb).isSome := by
  rw [h.slots_of_not_mem fun hj => h.not_mem (List.mem_append_left _ hj)]
  exact (h.total kb).mpr List.mem_cons_self

/-- Under no edge, the new edge takes the node's place. -/
theorem place_ok {E : Type} (h : Dissolving H memo cols n root tree nodes' deathRow' w b x y kb q c ch gone ks₁ ks₂ ks')
    (hne : ¬ EdgeHead w.frames) :
    Reshapes H memo cols n root (w.plug (Trie.join [!b] y)) tree
      ((MerkleTree.setNode kb (.edge ⟨none, w.path.length, q, ch⟩) : MerkleTree.M E Unit)
        { tree with nodes := nodes', deathRow := deathRow' }) := by
  obtain ⟨m, -, hwf, -, -, hput⟩ := Trie.WF.plug w.frames h.wf
  obtain ⟨i, rfl, -, hy⟩ := hwf.branch_inv
  let node : Node := .edge ⟨none, w.path.length, q, ch⟩
  have hset := SlotMap.set_slots_self h.isSome_slots node
  have hctx : RepCtx H memo (nodes'.set kb node).slots ({ tree with deathRow := deathRow' }.disk cols) root w (.inMemory kb)
      (Trie.join [!b] y) ks₂ := by
    have hkeep (j : NodeKey) (hj : j ∈ ks₂) : (nodes'.set kb node).slots j = tree.nodes.slots j := by
      rw [SlotMap.set_slots_of_ne _ _ (by rintro rfl; exact h.not_mem (List.mem_append_right _ hj)), h.slots_above hj]
    refine (h.ctx.congr hkeep fun p hp hnp => h.disk p ?_ ?_).retarget (h.loose.congr h.ctx hkeep) _
    · exact (h.wf.length_lt_of_hasNode hp).le.trans h.le_255
    · rintro rfl; exact hnp (List.prefix_append ..)
  have hnew : Rep H memo (nodes'.set kb node).slots ({ tree with deathRow := deathRow' }.disk cols) (.inMemory kb) w.path
      (Trie.join [!b] y) (kb :: ks') := by
    rw [h.join]
    refine .edge hset (fun _ h => by cases h) (h.rep.congr (fun j hj => ?_) fun _ _ => rfl)
    rw [SlotMap.set_slots_of_ne _ _ (by rintro rfl; exact h.not_mem (List.mem_append_left _ (h.mem_left hj)))]
  have hF : Focus H memo (nodes'.set kb node).slots ({ tree with deathRow := deathRow' }.disk cols) root w (.inMemory kb)
      (Trie.join [!b] y) ks₂ (kb :: ks') := by
    refine Focus.shrink gone hctx hnew h.nodup h.total (List.perm_iff_count.mpr fun a => ?_) fun j => ?_
    · have := h.perm.count_eq a
      simp only [List.count_append, List.count_cons] at this ⊢
      omega
    · rw [SlotMap.isSome_set, h.slots]
      by_cases hj : j ∈ gone <;> simp [hj]
  obtain ⟨ks₃, hF⟩ := hF.up_root
  refine ⟨nodes'.set kb node, deathRow', _, ks₃, ?_, h.buries, hF, ?_, h.only, fun _ => rfl⟩
  · exact MerkleTree.setNode_ok (s := { tree with nodes := nodes', deathRow := deathRow' }) h.isSome_slots _
  · refine hput _ ?_ fun _ => hne
    have := Trie.WF.join (q := [!b]) (by simp) hy
    rwa [List.length_singleton, Nat.add_comm] at this

/-- Under an edge, the new edge goes into it. -/
theorem mergeUp_ok {E : Type} {k : NodeKey} {qp : Path} {m₀ : Option Felt} {ks₃ : List NodeKey}
    (h : Dissolving H memo cols n root tree nodes' deathRow' ((k, .edge qp) :: w) b x y kb q c ch gone ks₁ (k :: ks₃) ks')
    (hctx : RepCtx H memo tree.nodes.slots (tree.disk cols) root w (.inMemory k) (.edge qp (.branch b x y)) ks₃)
    (hk : tree.nodes.slots k = some (.edge ⟨m₀, w.path.length, qp, .inMemory kb⟩)) :
    Reshapes H memo cols n root (Way.plug ((k, .edge qp) :: w) (Trie.join [!b] y)) tree
      ((MerkleTree.attachEdge kb (some (k, w.path.length)) (Way.path ((k, .edge qp) :: w)) q ch : MerkleTree.M E Unit)
        { tree with nodes := nodes', deathRow := deathRow' }) := by
  let tree₂ : MerkleTree := { tree with nodes := nodes', deathRow := deathRow' }
  have hkk : k ≠ kb := by rintro rfl; exact h.not_mem (List.mem_append_right _ List.mem_cons_self)
  have hkp : nodes'.slots k = some (.edge ⟨m₀, w.path.length, qp, .inMemory kb⟩) :=
    (h.slots_above List.mem_cons_self).trans hk
  let node : Node := .edge ⟨m₀, w.path.length, qp ++ q, ch⟩
  let nodes₃ := (nodes'.set k node).remove kb
  let tree₃ := tree₂.bury (w.path ++ qp)
  obtain ⟨m, hm, hwf, -⟩ := Trie.WF.plug (Way.frames ((k, .edge qp) :: w)) h.wf
  have hm : n = (w.path ++ qp).length + m := hm
  obtain ⟨i, rfl, -, hy⟩ := hwf.branch_inv
  have hlen : (w.path ++ qp).length ≤ 255 := by
    have := h.le_255
    omega
  have hd₃ (p : Path) (hp : p.length ≤ 255) (hne : p ≠ w.path ++ qp) :
      tree₃.disk cols p = tree₂.disk cols p := by
    rw [MerkleTree.disk_bury _ _ hlen hp, if_neg hne]
  have hslots₃ (j : NodeKey) (hj : j ≠ k) (hj' : j ≠ kb) : nodes₃.slots j = nodes'.slots j := by
    rw [SlotMap.remove_slots, if_neg hj', SlotMap.set_slots_of_ne _ _ hj]
  have hjw : (Trie.edge q c).WF (1 + i) := h.join ▸ Trie.WF.join (q := [!b]) (by simp) hy
  obtain ⟨i', hi', hq, hci, -⟩ := hjw.edge_inv
  have hjj : Trie.join qp (Trie.join [!b] y) = .edge (qp ++ q) c := by rw [h.join]; rfl
  obtain ⟨m₁, hm₁, hwf₁, hproper₁, hedge₁, hput₁⟩ := Trie.WF.plug (t := .edge qp (.branch b x y)) w.frames h.wf
  obtain ⟨m₂, hm₂, hqp, hwf₂, -⟩ := hwf₁.edge_inv
  obtain ⟨i₁, rfl, -, hy₁⟩ := hwf₂.branch_inv
  have hctx₃ : RepCtx H memo nodes₃.slots (tree₃.disk cols) root w (.inMemory k)
      (Trie.join qp (Trie.join [!b] y)) ks₃ := by
    have hkeep (j : NodeKey) (hj : j ∈ ks₃) : nodes₃.slots j = tree.nodes.slots j := by
      have hj₂ : j ∈ k :: ks₃ := List.mem_cons_of_mem _ hj
      have hnk := (List.nodup_append.mp (List.nodup_cons.mp h.nodup).2).2.1
      rw [hslots₃ j (by rintro rfl; exact (List.nodup_cons.mp hnk).1 hj)
        (by rintro rfl; exact h.not_mem (List.mem_append_right _ hj₂)), h.slots_above hj₂]
    refine (hctx.congr hkeep fun p hp hnp => ?_).retarget (h.loose.tail.congr hctx hkeep) _
    have hlp := (h.wf.length_lt_of_hasNode hp).le.trans h.le_255
    rw [hd₃ p hlp (by rintro rfl; exact hnp (List.prefix_append ..)),
      show tree₂.disk cols p = tree.disk cols p from h.disk p hlp (by
        rintro rfl; exact hnp ((List.prefix_append ..).trans (List.prefix_append ..)))]
  have hnew : Rep H memo nodes₃.slots (tree₃.disk cols) (.inMemory k) w.path
      (Trie.join qp (Trie.join [!b] y)) (k :: ks') := by
    rw [hjj]
    have hk₃ : nodes₃.slots k = some (.edge ⟨m₀, w.path.length, qp ++ q, ch⟩) := by
      rw [SlotMap.remove_slots, if_neg hkk, SlotMap.set_slots_self (by rw [hkp]; rfl)]
    refine .edge hk₃ (fun x hx => h.loose _ List.mem_cons_self _ x hk hx _) ?_
    rw [← List.append_assoc]
    refine h.rep.congr (fun j hj => hslots₃ j ?_ ?_) fun r hr => hd₃ _ ?_ ?_
    · rintro rfl; exact h.disjoint (h.mem_left hj) List.mem_cons_self
    · rintro rfl; exact h.not_mem (List.mem_append_left _ (h.mem_left hj))
    · have := hci.length_lt_of_hasNode hr
      have := h.le_255
      simp only [Way.path_cons, Frame.tip, List.length_append] at hm ⊢
      omega
    · simp [Frame.tip, hq]
  have hF : Focus H memo nodes₃.slots (tree₃.disk cols) root w (.inMemory k)
      (Trie.join qp (Trie.join [!b] y)) ks₃ (k :: ks') := by
    refine Focus.shrink (kb :: gone) hctx₃ hnew h.nodup h.total (List.perm_iff_count.mpr fun a => ?_) fun j => ?_
    · have := h.perm.count_eq a
      simp only [List.count_append, List.count_cons] at this ⊢
      omega
    · rw [SlotMap.remove_slots]
      by_cases hj : j = kb
      · simp [hj]
      · rw [if_neg hj, SlotMap.isSome_set, h.slots]
        by_cases hg : j ∈ gone <;> simp [hj, hg]
  obtain ⟨ks₄, hF⟩ := hF.up_root
  refine ⟨nodes₃, tree₃.deathRow, _, ks₄, ?_, h.buries.trans (tree₂.bury_buries _), hF, ?_, fun p hp hsome => ?_, fun p => ?_⟩
  · refine Eq.trans (bind_ok (MerkleTree.getNodeMut_ok (s := tree₂) hkp) _) ?_
    refine Eq.trans (bind_ok (MerkleTree.putNode_ok (s := tree₂) (by simp [tree₂, hkp]) _) _) ?_
    rfl
  · refine hput₁ _ ?_ fun _ => hedge₁ trivial
    have := Trie.WF.join hqp (Trie.WF.join (q := [!b]) (by simp) hy₁)
    rwa [List.length_singleton, Nat.add_comm 1, ← hm₂] at this
  · have hsome : (tree₃.disk cols p).isSome := hsome
    have hlp : p.length ≤ 255 := hp.trans h.le_255
    have hne : p ≠ w.path ++ qp := by
      rintro rfl
      rw [MerkleTree.disk_bury _ _ hlen hlen, if_pos rfl] at hsome
      cases hsome
    rw [hd₃ p hlp hne] at hsome
    have hnode := h.only p hp hsome
    by_cases hpre : w.path <+: p
    · obtain ⟨p', rfl⟩ := hpre
      rcases Trie.HasNode.join hqp ((hasNode_plug_append hproper₁ _ _).mp hnode) with h | ⟨rfl, -⟩
      · exact Way.hasNode_plug w h
      · exact (hne rfl).elim
    · exact (hasNode_plug_of_off hproper₁ _ _ hpre).mp hnode
  · exact lookup_plug_congr _ (Trie.lookup_join qp _) p

end Dissolving

/-- What is left of a binary node whose child in the direction `b` goes. -/
theorem dissolveBinary_ok (key : Path) {b : Bool} {x y : Trie Felt} {w : Way} {root : NodeHandle} {kb : NodeKey}
    {bn : BinaryNode} {ks₁ ks₂ : List NodeKey} {n : Nat}
    (hc : RepCtx H memo tree.nodes.slots (tree.disk db.columns) root w (.inMemory kb) (.branch b x y) ks₂)
    (hl : w.Loose memo tree.nodes.slots) (hk : tree.nodes.slots kb = some (.binary bn)) (hh : bn.height = w.path.length)
    (hs : Rep H memo tree.nodes.slots (tree.disk db.columns) (bn.getChild (Direction.ofBool !b)) (w.path ++ [!b]) y ks₁)
    (hn : (kb :: (ks₁ ++ ks₂)).Nodup) (ht : ∀ j, (tree.nodes.slots j).isSome ↔ j ∈ kb :: (ks₁ ++ ks₂))
    (hw : (w.plug (.branch b x y)).WF n) (hn255 : n ≤ 255) (hkey : w.path ++ [b] <+: key)
    (honly : ∀ p : Path, p.length ≤ n → (tree.disk db.columns p).isSome →
      (w.plug (.branch b x y)).HasNode p ∧ ¬ w.path ++ [b] <+: p) :
    Reshapes H memo db.columns n root (w.plug (Trie.join [!b] y)) tree
      (MerkleTree.dissolveBinary db key kb w.crumbs.getLast? (w.path ++ [b]) tree) := by
  obtain ⟨m, hm, hwf, hproper, -⟩ := Trie.WF.plug w.frames hw
  have hm : n = w.path.length + m := hm
  obtain ⟨i, rfl, hx, hy⟩ := hwf.branch_inv
  have hleaf (hl : y.IsLeaf) : tree.disk db.columns (w.path ++ [!b]) = none := by
    rw [← Option.not_isSome_iff_eq_none]
    intro hsome
    have := (honly _ (by simp only [List.length_append, List.length_singleton]; omega) hsome).1
    have := (hasNode_plug_append hproper _ _).mp this
    rw [Trie.hasNode_branch_cons, if_neg (by simp), Trie.hasNode_nil] at this
    exact this hl
  have hnd₁ : ks₁.Nodup := (List.nodup_append.mp (List.nodup_cons.mp hn).2).1
  obtain ⟨nodes₂, deathRow₂, q, c, ch, gone, ks', hmerge, hjoin, hrep, hb₂, hd₂, hedge, hperm, hslots⟩ :=
    mergeEdges_ok hs hnd₁ hy (by omega) hleaf
  -- the code, up to the parent
  let tree₂ : MerkleTree := { tree with nodes := nodes₂, deathRow := deathRow₂ }
  have hrun : MerkleTree.dissolveBinary db key kb w.crumbs.getLast? (w.path ++ [b]) tree =
      MerkleTree.attachEdge kb w.crumbs.getLast? w.path q ch tree₂ := by
    have hbit : bn.direction key = some (Direction.ofBool b) := by
      obtain ⟨rest, rfl⟩ := hkey
      rw [BinaryNode.direction, hh, List.append_assoc, List.getElem?_append_right le_rfl]
      simp
    have hinv : (Direction.ofBool b).invert = Direction.ofBool !b := by cases b <;> rfl
    have hbool : (Direction.ofBool !b).toBool = !b := by cases b <;> rfl
    refine Eq.trans (bind_ok (MerkleTree.getNodeMut_ok hk) _) ?_
    refine Eq.trans (bind_ok (MerkleTree.orPanic_some bn _ tree) _) ?_
    simp only [hbit, Option.map_some, hinv, List.dropLast_concat, hh]
    refine Eq.trans (bind_ok (MerkleTree.orPanic_some _ _ tree) _) ?_
    simp only [hbool]
    refine Eq.trans (bind_ok hmerge _) ?_
    rfl
  -- what is still in the database is below the new edge or elsewhere
  have honly₂ (p : Path) (hp : p.length ≤ n) (hsome : (tree₂.disk db.columns p).isSome) :
      (w.plug (Trie.join [!b] y)).HasNode p := by
    have hd : tree₂.disk db.columns p = tree.disk db.columns p :=
      Buries.disk_eq tree tree₂ hb₂ rfl hsome
    obtain ⟨hT, hnp⟩ := honly p hp (hd ▸ hsome)
    by_cases hpre : w.path <+: p
    · obtain ⟨p', rfl⟩ := hpre
      rcases Trie.HasNode.join_branch ((hasNode_plug_append hproper _ _).mp hT) with h | ⟨p'', rfl, -⟩ | ⟨rfl, he⟩
      · exact Way.hasNode_plug w h
      · exact (hnp ⟨p'', by simp⟩).elim
      · rw [show tree₂.disk db.columns (w.path ++ [!b]) = none from hedge he] at hsome
        cases hsome
    · exact (hasNode_plug_of_off hproper _ _ hpre).mp hT
  have h : Dissolving H memo db.columns n root tree nodes₂ deathRow₂ w b x y kb q c ch gone ks₁ ks₂ ks' :=
    ⟨hc, hl, hn, ht, hw, hn255, hjoin, hrep, hb₂, hd₂, honly₂, hperm, hslots⟩
  rw [hrun]
  cases hc with
  | nil => exact h.place_ok id
  | @cons w k f _ _ ks₄ ks₅ hc₃ hf₃ =>
    rw [Way.getLast?_crumbs]
    have hk₂ : nodes₂.slots k = tree.nodes.slots k := h.slots_above List.mem_cons_self
    cases hf₃ with
    | left h₀ _ _ =>
      rw [MerkleTree.attachEdge_of_binary (s := tree₂) (hk₂.trans h₀)]
      exact h.place_ok id
    | right h₀ _ _ =>
      rw [MerkleTree.attachEdge_of_binary (s := tree₂) (hk₂.trans h₀)]
      exact h.place_ok id
    | edge h₀ _ => exact h.mergeUp_ok hc₃ h₀

/-- A binary frame, by the bit it goes down by and the other child. -/
theorem RepFrame.sibling {memo : Memo} {nodes : NodeKey → Option Node} {disk : Disk} {k : NodeKey} {h : NodeHandle}
    {x : Trie Felt} {f : Frame Felt} (hf : RepFrame H memo nodes disk k p h x f ks) (he : ¬ f.IsEdge) :
    ∃ b y bn, f.tip = [b] ∧ f.fill x = .branch b x y ∧ nodes k = some (.binary bn) ∧ bn.height = p.length ∧
      Rep H memo nodes disk (bn.getChild (Direction.ofBool !b)) (p ++ [!b]) y ks := by
  cases hf with
  | left hk _ hr => exact ⟨false, _, _, rfl, rfl, hk, rfl, hr⟩
  | right hk _ hr => exact ⟨true, _, _, rfl, rfl, hk, rfl, hr⟩
  | edge => exact (he trivial).elim

omit [FeltCodec] in
/-- A walk to a key that is there ends at the key. -/
theorem Ended.path_eq {key : Path} {w : Way} {s : Trie Felt} {v : Felt} (hend : Ended key w)
    (hv : (w.plug s).lookup key = some v) : w.path = key := by
  rcases hend with h | ⟨k, q, w', rfl, ⟨rest, rfl⟩, hnp⟩
  · exact h
  · have : (Way.plug ((k, .edge q) :: w') s).lookup (w'.path ++ rest) = (Trie.edge q s).lookup rest :=
      lookup_plug_append w'.frames (.edge q s) rest
    rw [this, Trie.lookup_edge, if_neg] at hv
    · cases hv
    · intro h
      exact hnp (by rw [Way.path_cons]; exact (List.prefix_append_right_inj _).mpr h)

omit [FeltCodec] in
/-- An edge over the leaf goes. -/
theorem removeLeafEdge_of_edge {E : Type} {s : MerkleTree} {k : NodeKey} {m₀ : Option Felt} {h : NodeHandle} {w : Way} {q : Path}
    (hk : s.nodes.slots k = some (.edge ⟨m₀, w.path.length, q, h⟩)) :
    (MerkleTree.removeLeafEdge (w.path ++ q) (Way.crumbs ((k, .edge q) :: w)) : MerkleTree.M E _) s =
      .ok (w.crumbs, w.path) { s.bury w.path with nodes := s.nodes.remove k } := by
  have htake : (w.path ++ q).take ((w.path ++ q).length - q.length) = w.path := by
    rw [List.length_append, Nat.add_sub_cancel, List.take_left]
  rw [MerkleTree.removeLeafEdge, Way.getLast?_crumbs]
  refine Eq.trans (bind_ok (MerkleTree.getNodeMut_ok hk) _) ?_
  simp only [htake, Way.crumbs, List.dropLast_concat]
  rfl

omit [FeltCodec] in
/-- A binary node over the leaf stays. -/
theorem removeLeafEdge_of_binary {E : Type} {s : MerkleTree} {k : NodeKey} {bn : BinaryNode} {w : Way} {f : Frame Felt}
    (hk : s.nodes.slots k = some (.binary bn)) (key : Path) :
    (MerkleTree.removeLeafEdge key (Way.crumbs ((k, f) :: w)) : MerkleTree.M E _) s =
      .ok (Way.crumbs ((k, f) :: w), key) s := by
  rw [MerkleTree.removeLeafEdge, Way.getLast?_crumbs]
  exact bind_ok (MerkleTree.getNodeMut_ok hk) _

/-- The nodes of the way to a leaf that `delete_leaf` keeps: not an edge over the leaf, and not the binary
node. -/
def Way.keptByDelete : Way → Way
  | [] => []
  | (_, .edge _) :: w => w.tail
  | _ :: w => w

omit [FeltCodec] in
theorem Way.keptByDelete_of_not_isEdge (k : NodeKey) (w : Way) {f : Frame Felt} (hf : ¬ f.IsEdge) :
    Way.keptByDelete ((k, f) :: w) = w := by
  cases f with
  | left r => rfl
  | right l => rfl
  | edge q => exact (hf trivial).elim

/-- The tree after `delete_leaf` walked: the key is gone. -/
def Deletes {E : Type} (H : StarkHash) (memo : Memo) (cols : Columns) (n : Nat) (t : Trie Felt) (key : Path) (tree : MerkleTree)
    (result : EStateM.Result (Failure E) MerkleTree Unit) : Prop :=
  ∃ tree' T', result = .ok () tree' ∧ TreeRep H memo n cols tree' T' ∧ tree'.identifier = tree.identifier ∧
    tree'.cacheLeafModified = tree.cacheLeafModified ∧
    ∀ q, content T' q = if q = key then none else t.lookup q

/-- The one leaf under a binary node goes: what is left, once its own edge went. -/
theorem deletes_of_branch {key : BitSlice} (tree₁ : MerkleTree) {b : Bool} {q : Path} {v : Felt} {w : Way}
    {k₀ kb : NodeKey} {bn : BinaryNode} {ks₁ ks₂ : List NodeKey} {n : Nat} {t : Trie Felt}
    {result : EStateM.Result (Failure (BonsaiDatabase.DatabaseError DB)) MerkleTree Unit}
    (hR : TreeRep H memo n db.columns tree (some t)) (hid : tree₁.identifier = tree.identifier)
    (hcache : tree₁.cacheLeafModified = tree.cacheLeafModified) (hmax : tree₁.maxHeight = tree.maxHeight)
    (hroot : tree₁.rootNode = some (.loaded k₀)) (hb : Buries tree.deathRow tree₁.deathRow)
    (hT : w.plug (.branch b (.ext q (.leaf v)) y) = t)
    (hc : RepCtx H memo tree₁.nodes.slots (tree₁.disk db.columns) (.inMemory k₀) w (.inMemory kb)
      (.branch b (.ext q (.leaf v)) y) ks₂)
    (hl : w.Loose memo tree₁.nodes.slots) (hk : tree₁.nodes.slots kb = some (.binary bn)) (hh : bn.height = w.path.length)
    (hs : Rep H memo tree₁.nodes.slots (tree₁.disk db.columns) (bn.getChild (Direction.ofBool !b))
      (w.path ++ [!b]) y ks₁)
    (hnd : (kb :: (ks₁ ++ ks₂)).Nodup) (ht : ∀ j, (tree₁.nodes.slots j).isSome ↔ j ∈ kb :: (ks₁ ++ ks₂))
    (hkey : key.bits = w.path ++ b :: q)
    (hgone : ∀ p : Path, p.length ≤ n → (tree₁.disk db.columns p).isSome → ¬ w.path ++ [b] <+: p)
    (hrun : result = MerkleTree.dissolveBinary db key.bits kb w.crumbs.getLast? (w.path ++ [b]) tree₁) :
    Deletes H memo db.columns n t key.bits tree result := by
  subst hT
  have honly (p : Path) (hp : p.length ≤ n) (hsome : (tree₁.disk db.columns p).isSome) :
      (w.plug (.branch b (.ext q (.leaf v)) y)).HasNode p ∧ ¬ w.path ++ [b] <+: p := by
    refine ⟨?_, hgone p hp hsome⟩
    rw [Buries.disk_eq tree tree₁ hb hid hsome] at hsome
    obtain ⟨t, ht, h⟩ := hR.only p hp hsome
    obtain rfl := Option.some.inj ht
    exact h
  obtain ⟨nodes, deathRow, t', ks₃, hrun', hb', hF, hwf, honly', hlook⟩ :=
    dissolveBinary_ok key.bits hc hl hk hh hs hnd ht (hR.wf _ rfl) hR.le_255 (by rw [hkey]; simp) honly
  let tree' : MerkleTree := { tree₁ with nodes := nodes, deathRow := deathRow }
  refine ⟨tree', some t', hrun.trans hrun', ⟨?_, ?_, ?_, fun p hp h => ⟨t', rfl, honly' p hp h⟩, fun b' => ?_⟩, hid, hcache, fun p => ?_⟩
  · exact (congrArg UInt8.toNat hmax).trans hR.height
  · rw [show tree'.rootNode = some (.loaded k₀) from hroot]
    exact .loaded hF
  · rintro _ ⟨⟩
    exact hwf
  · exact hb'.flat b' (hb.flat b' (hR.deathRow b'))
  · rw [content_some, hlook, hkey]
    exact Way.lookup_plug_update (Trie.lookup_join_branch b q v y) p

/-- Once the edge over the leaf is buried, nothing at or below it is in the database. -/
theorem not_prefix_of_bury {n : Nat} {w : Way} {k : NodeKey} {q : Path} {v : Felt}
    (hR : TreeRep H memo n db.columns tree (some (Way.plug ((k, .edge q) :: w) (.leaf v)))) (hlen : w.path.length ≤ 255)
    (hp : p.length ≤ n) (hsome : ((tree.bury w.path).disk db.columns p).isSome) : ¬ w.path <+: p := by
  obtain ⟨-, -, -, hproper, -⟩ := Trie.WF.plug (Way.frames ((k, .edge q) :: w)) (hR.wf _ rfl)
  have hproper' : Proper w.frames := fun g hg => hproper g (List.mem_cons_of_mem _ hg)
  rw [MerkleTree.disk_bury _ _ hlen (hp.trans hR.le_255)] at hsome
  rintro ⟨r, rfl⟩
  by_cases hr : r = []
  · rw [hr, List.append_nil, if_pos rfl] at hsome
    cases hsome
  rw [if_neg (by simp [hr])] at hsome
  obtain ⟨t, ht, h⟩ := hR.only _ hp hsome
  obtain rfl := Option.some.inj ht
  have := (hasNode_plug_append hproper' (.edge q (.leaf v)) r).mp h
  exact Trie.hasNode_leaf _ _ ((Trie.hasNode_edge _ hr).mp this).2

/-- The edge over the leaf was the root: the tree is empty. -/
theorem deletes_of_root {key : BitSlice} {n : Nat} {q : Path} {v : Felt} {k : NodeKey} {m₀ : Option Felt}
    {h : NodeHandle} {nodes : SlotMap Node} (hR : TreeRep H memo n db.columns tree (some (Way.plug [(k, .edge q)] (.leaf v))))
    (hseek : MerkleTree.seekTo db key.bits tree =
      .ok (Way.crumbs [(k, .edge q)]) { tree with nodes := nodes, rootNode := some (.loaded k) })
    (hk : nodes.slots k = some (.edge ⟨m₀, 0, q, h⟩)) (htotal : ∀ j, (nodes.slots j).isSome ↔ j = k) (hkey : key.bits = q) :
    Deletes H memo db.columns n (Way.plug [(k, .edge q)] (.leaf v)) key.bits tree (MerkleTree.deleteWalk db key tree) := by
  let tree₁ : MerkleTree := { tree with nodes := nodes, rootNode := some (.loaded k) }
  let tree₂ : MerkleTree := { tree₁.bury [] with nodes := nodes.remove k }
  let tree₃ : MerkleTree := { tree₂.bury [] with nodes := tree₂.nodes.remove k, rootNode := some .empty }
  obtain ⟨-, -, -, hproper, -⟩ := Trie.WF.plug (Way.frames [(k, .edge q)]) (hR.wf _ rfl)
  have hq : q ≠ [] := hproper (.edge q) List.mem_cons_self
  have hb₂ : Buries tree.deathRow tree₂.deathRow := tree₁.bury_buries _
  have hb₃ : Buries tree₂.deathRow tree₃.deathRow := tree₂.bury_buries _
  refine ⟨tree₃, none, ?_, ⟨hR.height, .empty fun j => ?_, by simp, fun p hp hsome => ?_,
    fun b => hb₃.flat b (hb₂.flat b (hR.deathRow b))⟩, rfl, rfl, fun p => ?_⟩
  · refine Eq.trans (bind_ok hseek _) ?_
    rw [hkey]
    refine Eq.trans (bind_ok (removeLeafEdge_of_edge (s := tree₁) (w := []) hk) _) ?_
    rfl
  · simp only [tree₃, tree₂, SlotMap.remove_slots]
    by_cases hj : j = k
    · simp [hj]
    · simp only [if_neg hj]
      rw [← Option.not_isSome_iff_eq_none, htotal]
      exact hj
  · rw [Buries.disk_eq tree₂ tree₃ hb₃ rfl hsome] at hsome
    exact (not_prefix_of_bury hR (Nat.zero_le _) hp hsome List.nil_prefix).elim
  · show none = if p = key.bits then none else (Trie.edge q (.leaf v)).lookup p
    rw [← Trie.ext_of_ne_nil _ hq, Trie.lookup_ext_leaf, hkey]
    split <;> rfl

/-- The edge over the leaf was a child of a binary node: what is left of that stays. -/
theorem deletes_of_edge {key : BitSlice} {n : Nat} {q : Path} {v : Felt} {k k₀ kb : NodeKey} {fb : Frame Felt} {w : Way}
    {m₀ : Option Felt} {h : NodeHandle} {nodes : SlotMap Node} {ks₃ ks₄ : List NodeKey}
    (hR : TreeRep H memo n db.columns tree (some (Way.plug ((k, .edge q) :: (kb, fb) :: w) (.leaf v))))
    (hseek : MerkleTree.seekTo db key.bits tree =
      .ok (Way.crumbs ((k, .edge q) :: (kb, fb) :: w)) { tree with nodes := nodes, rootNode := some (.loaded k₀) })
    (hk : nodes.slots k = some (.edge ⟨m₀, (Way.path ((kb, fb) :: w)).length, q, h⟩))
    (hfb : RepFrame H memo nodes.slots (tree.disk db.columns) kb w.path (.inMemory k) (.edge q (.leaf v)) fb ks₃)
    (hc : RepCtx H memo nodes.slots (tree.disk db.columns) (.inMemory k₀) w (.inMemory kb) (fb.fill (.edge q (.leaf v))) ks₄)
    (hl : w.Loose memo nodes.slots) (hnd : (k :: kb :: (ks₃ ++ ks₄)).Nodup)
    (htotal : ∀ j, (nodes.slots j).isSome ↔ j ∈ k :: kb :: (ks₃ ++ ks₄))
    (hkey : key.bits = Way.path ((kb, fb) :: w) ++ q) (hlen : key.len = n) :
    Deletes H memo db.columns n (Way.plug ((k, .edge q) :: (kb, fb) :: w) (.leaf v)) key.bits tree
      (MerkleTree.deleteWalk db key tree) := by
  let tree₁ : MerkleTree := { tree with nodes := nodes, rootNode := some (.loaded k₀) }
  let tree₂ : MerkleTree := { tree₁.bury (Way.path ((kb, fb) :: w)) with nodes := nodes.remove k }
  have hlen₁ : (Way.path ((kb, fb) :: w)).length ≤ 255 := by
    have := hR.le_255
    rw [BitSlice.len, hkey, List.length_append] at hlen
    omega
  have hrem : (MerkleTree.removeLeafEdge key.bits (Way.crumbs ((k, .edge q) :: (kb, fb) :: w)) :
      MerkleTree.M (BonsaiDatabase.DatabaseError DB) _) tree₁ =
      .ok (Way.crumbs ((kb, fb) :: w), Way.path ((kb, fb) :: w)) tree₂ := by
    rw [hkey]
    exact removeLeafEdge_of_edge (s := tree₁) hk
  have hd₂ (p : Path) (hp : p.length ≤ 255) (hne : p ≠ Way.path ((kb, fb) :: w)) :
      tree₂.disk db.columns p = tree.disk db.columns p :=
    (MerkleTree.disk_bury tree db.columns hlen₁ hp).trans (if_neg hne)
  have hb₂ : Buries tree.deathRow tree₂.deathRow := tree₁.bury_buries _
  have hgone (p : Path) (hp : p.length ≤ n) (hsome : (tree₂.disk db.columns p).isSome) :
      ¬ Way.path ((kb, fb) :: w) <+: p :=
    not_prefix_of_bury hR hlen₁ hp hsome
  obtain ⟨-, -, -, hproper, -⟩ := Trie.WF.plug (Way.frames ((k, .edge q) :: (kb, fb) :: w)) (hR.wf _ rfl)
  have hq : q ≠ [] := hproper (.edge q) List.mem_cons_self
  have hfb' : ¬ fb.IsEdge := by
    obtain ⟨-, -, -, -, he, -⟩ := Trie.WF.plug (t := .edge q (.leaf v)) (Way.frames ((kb, fb) :: w)) (hR.wf _ rfl)
    exact he trivial
  obtain ⟨b, y, bn, htip, hfill, hkb, hh, hs⟩ := hfb.sibling hfb'
  have hk₃ : ∀ j ∈ kb :: (ks₃ ++ ks₄), (nodes.remove k).slots j = nodes.slots j := by
    intro j hj
    rw [SlotMap.remove_slots, if_neg]
    rintro rfl
    exact (List.nodup_cons.mp hnd).1 hj
  have hext : (Frame.edge q).fill (.leaf v) = .ext q (.leaf v) := (Trie.ext_of_ne_nil _ hq).symm
  have hext' : (Trie.edge q (.leaf v)) = .ext q (.leaf v) := hext
  have hwf : (w.plug (.branch b (.ext q (.leaf v)) y)).WF n := by
    rw [← hext', ← hfill]
    exact hR.wf _ rfl
  rw [hfill, hext'] at hc
  rw [Way.path_cons, htip] at hkey hgone hrem hd₂
  refine deletes_of_branch (q := q) (v := v) tree₂ hR rfl rfl rfl rfl hb₂
    ?_ (hc.congr (fun j hj => hk₃ j ?_) fun p hp hnp => ?_) (Way.Loose.congr hl hc fun j hj => hk₃ j ?_)
    ((hk₃ kb List.mem_cons_self).trans hkb) hh
    (hs.congr (fun j hj => hk₃ j ?_) fun p hp => ?_) (List.nodup_cons.mp hnd).2 (fun j => ?_)
    (by rw [hkey]; simp) hgone ?_
  · rw [← hext', ← hfill]; rfl
  · simp [hj]
  · exact hd₂ p ((hwf.length_lt_of_hasNode hp).le.trans hR.le_255) (by rintro rfl; exact hnp (List.prefix_append ..))
  · simp [hj]
  · simp [hj]
  · have hnode : (w.plug (.branch b (.ext q (.leaf v)) y)).HasNode (w.path ++ ([!b] ++ p)) :=
      Way.hasNode_plug w (by
        rw [List.singleton_append, Trie.hasNode_branch_cons, if_neg (by simp)]; exact hp)
    rw [← List.append_assoc] at hnode
    exact hd₂ _ ((hwf.length_lt_of_hasNode hnode).le.trans hR.le_255) (by simp)
  · simp only [tree₂, SlotMap.remove_slots]
    by_cases hjk : j = k
    · subst hjk
      simp only [if_true, Option.isSome_none, Bool.false_eq_true, false_iff]
      exact (List.nodup_cons.mp hnd).1
    · rw [if_neg hjk, htotal j]
      simp [hjk]
  · refine Eq.trans (bind_ok hseek _) ?_
    refine Eq.trans (bind_ok hrem _) ?_
    simp only [Way.crumbs, List.reverse_append, List.reverse_cons, List.reverse_nil, List.nil_append,
      List.singleton_append, List.head?_reverse]

/-- `delete_leaf`, once the leaf is known to be there, takes the key away. -/
theorem deleteWalk_ok {key : BitSlice} {n : Nat} {t : Trie Felt} {v : Felt}
    (hR : TreeRep H memo n db.columns tree (some t)) (hlaw : memo.Lawful H) (hn : 0 < n) (hkey : key.len = n)
    (hloose : LooseWay H memo db tree t key.bits Way.keptByDelete) (hv : t.lookup key.bits = some v) :
    Deletes H memo db.columns n t key.bits tree (MerkleTree.deleteWalk db key tree) := by
  obtain ⟨w, h, s, k₀, nodes₀, ks, ks', hseek, hF, rfl, hend, hne, hknown⟩ := seekTo_ok hR hlaw hn hkey
  have hpath := hend.path_eq hv
  obtain ⟨⟨k, f⟩, (w : Way), rfl⟩ := List.exists_cons_of_ne_nil hne
  have hl := hloose _ _ _ _ _ _ _ hseek _ rfl hF rfl hend
  -- the walk ended at the leaf
  obtain ⟨m, hm, ht, hproper, -⟩ := Trie.WF.plug (Way.frames ((k, f) :: w)) (hR.wf _ rfl)
  obtain rfl : m = 0 := by
    have : (Way.path ((k, f) :: w)).length = n := by rw [hpath]; exact hkey
    have : (Patricia.path (Way.frames ((k, f) :: w))).length = n := this
    omega
  obtain ⟨v₀, rfl⟩ := ht.eq_leaf
  obtain ⟨rfl, rfl⟩ := hF.rep.leaf_inv
  obtain ⟨ks₁, ks₂, hf, hc, rfl⟩ := hF.last
  by_cases hfe : f.IsEdge
  · cases hf with
    | left => exact hfe.elim
    | right => exact hfe.elim
    | edge hk _ =>
      cases hc with
      | nil => exact deletes_of_root hR hseek hk (by simpa using hF.total) hpath.symm
      | cons hc hfb =>
        exact deletes_of_edge hR hseek hk hfb hc hl (by simpa using hF.nodup) (by simpa using hF.total) hpath.symm hkey
  · -- the leaf is a child of a binary node
    have hleaf (p : Path) (hp : p.length ≤ n) (hsome : (tree.disk db.columns p).isSome) :
        ¬ Way.path ((k, f) :: w) <+: p := by
      rintro ⟨r, rfl⟩
      obtain ⟨t, ht, h⟩ := hR.only _ hp hsome
      obtain rfl := Option.some.inj ht
      exact Trie.hasNode_leaf v₀ r ((hasNode_plug_append hproper _ _).mp h)
    let tree₁ : MerkleTree := { tree with nodes := nodes₀, rootNode := some (.loaded k₀) }
    obtain ⟨b, y, bn, htip, hfill, hk, hh, hs⟩ := hf.sibling hfe
    rw [Way.path_cons, htip] at hpath hleaf
    refine deletes_of_branch (q := []) (v := v₀) tree₁ hR rfl rfl rfl rfl (.refl _)
      (by rw [Way.plug_cons, hfill]; rfl) (hfill ▸ hc) (Way.keptByDelete_of_not_isEdge k w hfe ▸ hl) hk hh hs (by simpa using hF.nodup) (by simpa using hF.total)
      hpath.symm hleaf ?_
    refine Eq.trans (bind_ok hseek _) ?_
    refine Eq.trans (bind_ok (removeLeafEdge_of_binary (s := tree₁) hk key.bits) _) ?_
    simp only [Way.crumbs, List.reverse_append, List.reverse_cons, List.reverse_nil, List.nil_append,
      List.singleton_append, List.head?_reverse, hpath]

end

end Bonsai
