import BonsaiTrie.Proof.Overlaid
import BonsaiTrie.Spec.Memos

/-!
# Memos stay fresh

`TreeRep` with the true hash as the only memo is kept by a `set` that keeps no
memo on the way of its key (`LooseWay.of_insert`, `LooseWay.of_delete`), by
proofs and by commits, so every memo is the hash of what is below it in every
state of a run of such calls (`memos_fresh_run`). The nodes that a seek meets
have the memos that the tree shows for them before it is sought
(`outlines_crumbs`).
-/

namespace Bonsai

open Patricia Run MerkleTree

/-! ## True memos -/

section

variable [FeltCodec] {H : StarkHash} {memo : Memo} {nodes : NodeKey → Option Node} {disk : Disk} {h : NodeHandle}
  {p : Path} {t : Trie Felt} {ks : List NodeKey} {k : NodeKey} {n : Nat}

/-- A handle that stands for a trie has its hash. -/
theorem Rep.hashes (hr : Rep H memo nodes disk h p t ks) : Hashes H nodes h (merkleHash H t) := by
  induction hr with
  | stored => exact .hash _
  | binary hk _ _ _ ihl ihr => exact .binary hk ihl ihr
  | edge hk _ _ ih => exact .edge hk ih

omit [FeltCodec] in
/-- A handle has one hash. -/
theorem Hashes.unique {x y : Felt} (hx : Hashes H nodes h x) (hy : Hashes H nodes h y) : x = y := by
  induction hx generalizing y with
  | hash => cases hy; rfl
  | binary hk _ _ ihl ihr =>
    cases hy with
    | binary hk' hl hr =>
      cases hk.symm.trans hk'
      rw [ihl hl, ihr hr]
    | edge hk' => cases hk.symm.trans hk'
  | edge hk _ ih =>
    cases hy with
    | binary hk' => cases hk.symm.trans hk'
    | edge hk' hc =>
      cases hk.symm.trans hk'
      rw [ih hc]

/-- A node in memory stands for a subtrie. -/
theorem Rep.sub_of_mem (hr : Rep H memo nodes disk h p t ks) (ht : t.WF n) (hks : ks.Nodup) (hk : k ∈ ks) :
    ∃ p' s ks' m, Rep H memo nodes disk (.inMemory k) p' s ks' ∧ s.WF m ∧ m ≤ n ∧ ks'.Nodup := by
  induction hr generalizing n with
  | stored => cases hk
  | @binary p k' m lh rh l r ks ks' hk' hm hl hr ihl ihr =>
    obtain ⟨i, rfl, hwl, hwr⟩ := ht.binary_inv
    have hnd := (List.nodup_cons.mp hks).2
    rcases List.mem_cons.mp hk with rfl | hk
    · exact ⟨p, _, _, _, .binary hk' hm hl hr, ht, le_rfl, hks⟩
    · rcases List.mem_append.mp hk with hk | hk
      · obtain ⟨p', s, ks'', m, hs, hw, hle, hnd'⟩ := ihl hwl (List.nodup_append.mp hnd).1 hk
        exact ⟨p', s, ks'', m, hs, hw, by omega, hnd'⟩
      · obtain ⟨p', s, ks'', m, hs, hw, hle, hnd'⟩ := ihr hwr (List.nodup_append.mp hnd).2.1 hk
        exact ⟨p', s, ks'', m, hs, hw, by omega, hnd'⟩
  | @edge p k' m q ch c ks hk' hm hc ih =>
    obtain ⟨i, rfl, -, hwc, -⟩ := ht.edge_inv
    rcases List.mem_cons.mp hk with rfl | hk
    · exact ⟨p, _, _, _, .edge hk' hm hc, ht, le_rfl, hks⟩
    · obtain ⟨p', s, ks'', m, hs, hw, hle, hnd'⟩ := ih hwc (List.nodup_cons.mp hks).2 hk
      exact ⟨p', s, ks'', m, hs, hw, by omega, hnd'⟩

/-- The memo of the node at the top of a trie is one the trie may have. -/
theorem Rep.memo_top (hr : Rep H memo nodes disk (.inMemory k) p t ks) {node : Node} (hk : nodes k = some node) {x : Felt}
    (hx : node.getHash = some x) : memo t x := by
  cases hr with
  | binary hk' hm =>
    obtain rfl := Option.some.inj (hk.symm.trans hk')
    exact hm x hx
  | edge hk' hm =>
    obtain rfl := Option.some.inj (hk.symm.trans hk')
    exact hm x hx

variable {cols : Columns} {tree : MerkleTree} {T : Option (Trie Felt)}

/-- The nodes in memory are those of the trie. -/
theorem TreeRep.mem_of_isSome (hR : TreeRep H memo n cols tree T) (hk : (tree.nodes.slots k).isSome) :
    ∃ p s ks m, Rep H memo tree.nodes.slots (tree.disk cols) (.inMemory k) p s ks ∧ s.WF m ∧ m ≤ n ∧ ks.Nodup := by
  have hr := hR.rooted
  have hw := hR.wf
  rcases tree with ⟨root, nodes, identifier, deathRow, cache, maxHeight⟩
  cases hr with
  | noTrie hnone => rw [hnone k] at hk; cases hk
  | empty hnone => rw [hnone k] at hk; cases hk
  | unloaded hF => exact absurd ((hF.total k).mp hk) (by simp)
  | loaded hF =>
    rename_i k₀ t ks
    exact hF.rep.sub_of_mem (hw t rfl) (by simpa using hF.nodup) (by simpa using (hF.total k).mp hk)

/-- With true memos no memo is stale. -/
theorem TreeRep.memosFresh (hR : TreeRep H (trueMemo H) n cols tree T) : tree.MemosFresh H := by
  intro k node x hk hx
  obtain ⟨p, s, ks, m, hs, -⟩ := hR.mem_of_isSome (show (tree.nodes.slots k).isSome by rw [hk]; rfl)
  obtain rfl := hs.memo_top hk hx
  exact hs.hashes

/-- And `get_or_compute_node_hash` returns the hash of a node. -/
theorem TreeRep.nodeHash_hashes (E : Type) (hR : TreeRep H (trueMemo H) n cols tree T) (hn : n ≤ 255)
    (hk : (tree.nodes.slots k).isSome) :
    ∃ x tree', (nodeHash H (.inMemory k) : M E Felt) tree = .ok x tree' ∧ Hashes H tree.nodes.slots (.inMemory k) x := by
  obtain ⟨p, s, ks, m, hs, hw, hle, hnd⟩ := hR.mem_of_isSome hk
  obtain ⟨x, nodes, hrun, rfl, -⟩ := nodeHash_ok (E := E) tree hs (trueMemo_lawful H) hw (by omega) hnd
  exact ⟨_, _, hrun, hs.hashes⟩

end

/-! ## The nodes on the way of a key -/

/-- What a node says but for its children. -/
def Node.outline : Node → Option Felt × Nat × Option Path
  | .binary b => (b.hash, b.height, none)
  | .edge e => (e.hash, e.height, some e.path)

/-- The same of a look. -/
def Look.outline : Look → Option Felt × Nat × Option Path
  | .binary memo height _ _ => (memo, height, none)
  | .edge memo height path _ => (memo, height, some path)

theorem outline_lookOf (nodes : NodeKey → Option Node) (node : Node) : (lookOf nodes node).outline = node.outline := by
  cases node <;> rfl

section

variable [FeltCodec] {DB ID : Type} [BonsaiDatabase DB] [InfallibleDatabase DB] {db : KeyValueDB DB ID}
  {tree : MerkleTree} {H : StarkHash} {memo : Memo} {h : NodeHandle} {p : Path} {t : Trie Felt} {ks : List NodeKey}
  {n : Nat}

/-- The node of a handle that stands for a binary trie, and what is known of it. -/
theorem Rep.known_binary {l r : Trie Felt} (hr : Rep H memo tree.nodes.slots (tree.disk db.columns) h p (.binary l r) ks)
    (ht : (Trie.binary l r).WF n) (hn : p.length + n ≤ 255) :
    ∃ m lh rh ks₁ ks₂, tree.nodeAt db h p = some (.binary ⟨m, p.length, lh, rh⟩) ∧
      Rep H memo tree.nodes.slots (tree.disk db.columns) lh (p ++ [false]) l ks₁ ∧
      Rep H memo tree.nodes.slots (tree.disk db.columns) rh (p ++ [true]) r ks₂ ∧
      hashAt H tree.nodes.slots (.binary l r) h [] = m ∧
      ∀ b q, hashAt H tree.nodes.slots (.binary l r) h (b :: q) =
        if b then hashAt H tree.nodes.slots r rh q else hashAt H tree.nodes.slots l lh q := by
  cases hr with
  | stored hs =>
    obtain ⟨bytes, node, hd, hdec, hnode⟩ := hs.read id ht hn
    cases hnode
    refine ⟨_, _, _, [], [], by rw [MerkleTree.nodeAt, MerkleTree.getTrieBranch_some hd hdec], .stored hs.2.1,
      .stored hs.2.2, ?_, fun b q => ?_⟩
    · rw [hashAt_hash]; rfl
    · rw [hashAt_hash, hashAt_hash, hashAt_hash]
      cases b <;> rfl
  | binary hk hm hl hr =>
    exact ⟨_, _, _, _, _, hk, hl, hr, by rw [hashAt_inMemory_nil, hk]; rfl, fun b q => hashAt_binary hk b q⟩

/-- The node of a handle that stands for an edge, and what is known of it. -/
theorem Rep.known_edge {q : Path} {c : Trie Felt} (hr : Rep H memo tree.nodes.slots (tree.disk db.columns) h p (.edge q c) ks)
    (ht : (Trie.edge q c).WF n) (hn : p.length + n ≤ 255) :
    ∃ m ch ks₁, tree.nodeAt db h p = some (.edge ⟨m, p.length, q, ch⟩) ∧
      Rep H memo tree.nodes.slots (tree.disk db.columns) ch (p ++ q) c ks₁ ∧
      hashAt H tree.nodes.slots (.edge q c) h [] = m ∧
      ∀ q', hashAt H tree.nodes.slots (.edge q c) h (q ++ q') = hashAt H tree.nodes.slots c ch q' := by
  obtain ⟨i, -, hq, -⟩ := ht.edge_inv
  have hne (q' : Path) : q ++ q' ≠ [] := fun he => hq (List.append_eq_nil_iff.mp he).1
  cases hr with
  | stored hs =>
    obtain ⟨bytes, node, hd, hdec, hnode⟩ := hs.read id ht hn
    cases hnode
    refine ⟨_, _, [], by rw [MerkleTree.nodeAt, MerkleTree.getTrieBranch_some hd hdec], .stored hs.2, ?_, fun q' => ?_⟩
    · rw [hashAt_hash]; rfl
    · rw [hashAt_hash, hashAt_hash, Trie.sub_edge_append _ _ hq]
  | edge hk hm hc =>
    refine ⟨_, _, _, hk, hc, by rw [hashAt_inMemory_nil, hk]; rfl, fun q' => ?_⟩
    rw [hashAt_edge hk (hne q'), if_pos (List.prefix_append ..), List.drop_left]

/-- The nodes that a key leads to from a handle are those of its trie, with the hashes known of them. -/
theorem Rep.wayBelow_eq (hr : Rep H memo tree.nodes.slots (tree.disk db.columns) h p t ks) {rest : Path}
    (ht : t.WF rest.length) (hn : p.length + rest.length ≤ 255) {fuel : Nat} (hf : rest.length ≤ fuel)
    {known : Path → Option Felt} (hknown : ∀ q, known (p ++ q) = hashAt H tree.nodes.slots t h q) :
    (tree.wayBelow db fuel h p rest).map (fun node => some node.outline) =
      (t.course rest).map fun e => (lookAt known (p ++ e.1) e.2).map Look.outline := by
  induction t generalizing h p ks rest fuel with
  | leaf v =>
    cases rest with
    | nil => cases fuel <;> rfl
    | cons b rest => exact (ht.not_isLeaf (Nat.succ_pos _) trivial).elim
  | binary l r ihl ihr =>
    obtain ⟨i, hi, hwl, hwr⟩ := ht.binary_inv
    obtain ⟨b, rest, rfl⟩ := List.exists_cons_of_ne_nil (l := rest) (by rintro rfl; cases hi)
    obtain ⟨fuel, rfl⟩ : ∃ f, fuel = f + 1 := ⟨fuel - 1, by rw [List.length_cons] at hf; omega⟩
    rw [List.length_cons] at hi hn hf
    obtain rfl : rest.length = i := by omega
    obtain ⟨m, lh, rh, ks₁, ks₂, hnode, hl, hr, htop, hbelow⟩ := hr.known_binary ht (by rw [List.length_cons]; exact hn)
    have htop' : known p = m := by rw [← htop, ← hknown, List.append_nil]
    have hchild (b : Bool) (q : Path) : known (p ++ [b] ++ q) = hashAt H tree.nodes.slots (.binary l r) h (b :: q) := by
      rw [← hknown, List.append_assoc]; rfl
    rw [MerkleTree.wayBelow, hnode, Trie.course]
    simp only [List.map_cons, List.map_map, List.append_nil]
    refine congrArg₂ _ ?_ ?_
    · rw [lookAt, htop']; rfl
    · cases b with
      | false =>
        refine (ihl hl hwl (by rw [List.length_append, List.length_singleton]; omega) (by omega)
          fun q => (hchild false q).trans (hbelow false q)).trans (List.map_congr_left fun e _ => ?_)
        simp [List.append_assoc]
      | true =>
        refine (ihr hr hwr (by rw [List.length_append, List.length_singleton]; omega) (by omega)
          fun q => (hchild true q).trans (hbelow true q)).trans (List.map_congr_left fun e _ => ?_)
        simp [List.append_assoc]
  | edge q c ih =>
    obtain ⟨i, hi, hq, hwc, -⟩ := ht.edge_inv
    have hpos := List.length_pos_of_ne_nil hq
    obtain ⟨b, rest, rfl⟩ := List.exists_cons_of_ne_nil (l := rest) (by rintro rfl; rw [List.length_nil] at hi; omega)
    obtain ⟨fuel, rfl⟩ : ∃ f, fuel = f + 1 := ⟨fuel - 1, by rw [List.length_cons] at hf; omega⟩
    obtain ⟨m, ch, ks₁, hnode, hc, htop, hbelow⟩ := hr.known_edge ht hn
    have htop' : known p = m := by rw [← htop, ← hknown, List.append_nil]
    rw [MerkleTree.wayBelow, hnode, Trie.course]
    simp only [List.map_cons, List.append_nil]
    refine congrArg₂ _ ?_ ?_
    · rw [lookAt, htop']; rfl
    · by_cases hpre : q <+: b :: rest
      · have hdrop : ((b :: rest).drop q.length).length = i := by rw [List.length_drop]; omega
        simp only [List.isPrefixOf_iff_prefix.mpr hpre, if_true, if_pos hpre, List.map_map]
        refine (ih hc (hdrop ▸ hwc) (by rw [hdrop, List.length_append]; omega) (by rw [hdrop]; omega) fun q' => ?_).trans
          (List.map_congr_left fun e _ => ?_)
        · rw [← hbelow, ← hknown, List.append_assoc]
        · simp [List.append_assoc]
      · simp only [mt List.isPrefixOf_iff_prefix.mp hpre, if_neg hpre]
        rfl

/-- The way of the key from the root. -/
theorem TreeRep.wayTo_eq (hR : TreeRep H memo n db.columns tree (some t)) (hn : 0 < n) {key : Path} (hkey : key.length = n) :
    (tree.wayTo db key).map (fun node => some node.outline) =
      (t.course key).map fun e => (lookAt (tree.known H t) e.1 e.2).map Look.outline := by
  obtain ⟨h, ks, hroot, hrep, -⟩ := hR.rootHandle_some hn
  have hknown : ∀ q, tree.known H t q = hashAt H tree.nodes.slots t h q := by
    intro q
    rw [MerkleTree.rootHandle] at hroot
    rw [MerkleTree.known]
    rcases hr : tree.rootNode with _ | (_ | k)
    · rw [hr] at hroot
      obtain ⟨node, -, rfl⟩ := Option.map_eq_some_iff.mp hroot
      exact (hashAt_hash _ _).symm
    · rw [hr] at hroot
      cases hroot
    · rw [hr] at hroot
      cases hroot
      rfl
  have hle := hR.le_255
  rw [MerkleTree.wayTo, hroot]
  exact hrep.wayBelow_eq (hkey ▸ hR.wf t rfl) (by simpa [hkey] using hle) le_rfl hknown

omit [FeltCodec] [BonsaiDatabase DB] [InfallibleDatabase DB] in
theorem Way.fst_crumbs (w : Way) : (w.crumbs.map Prod.fst).reverse = w.map Prod.fst := by
  induction w with
  | nil => rfl
  | cons kf w ih =>
    obtain ⟨k, f⟩ := kf
    rw [Way.crumbs, List.map_append, List.reverse_append, ih]
    rfl

omit [FeltCodec] [BonsaiDatabase DB] [InfallibleDatabase DB] in
/-- A walk that ended went through the nodes on the way of the key. -/
theorem Ended.course_eq {key : Path} {w : Way} {s : Trie Felt} (hend : Ended key w) (hw : (w.plug s).WF key.length)
    (hne : w ≠ []) : (w.plug s).course key = stations w.frames s := by
  obtain ⟨⟨k, f⟩, (w : Way), rfl⟩ := List.exists_cons_of_ne_nil hne
  obtain ⟨m, hm, -, hproper, -⟩ := Trie.WF.plug (Way.frames ((k, f) :: w)) hw
  have hm : key.length = (Way.path ((k, f) :: w)).length + m := hm
  have htip : f.tip ≠ [] := hproper f List.mem_cons_self
  rcases hend with rfl | ⟨_, q, _, hcons, ⟨rest, rfl⟩, hoff⟩
  · exact (course_plug_of_end hproper s htip (.inl rfl)).1
  · simp only [List.cons.injEq, Prod.mk.injEq] at hcons
    obtain ⟨⟨rfl, rfl⟩, rfl⟩ := hcons
    have hrest : rest ≠ [] := by
      rintro rfl
      have := List.length_pos_of_ne_nil htip
      rw [Way.path_cons, List.append_nil, List.length_append] at hm
      omega
    exact (course_plug_of_end hproper s hrest
      (.inr ⟨trivial, fun hpre => hoff ((List.prefix_append_right_inj _).mpr hpre)⟩)).1

/-- The nodes that a seek meets are those that the tree shows on the way of the key before it is sought. -/
theorem outlines_crumbs (hR : TreeRep H memo n db.columns tree (some t)) (hlaw : memo.Lawful H) (hn : 0 < n) {key : Path}
    (hkey : key.length = n) {w : Way} {nodes : SlotMap Node} {k : NodeKey} {s : Trie Felt} {ks ks' : List NodeKey}
    (hseek : MerkleTree.seekTo db key tree = .ok w.crumbs { tree with nodes := nodes, rootNode := some (.loaded k) })
    (hF : Focus H memo nodes.slots (tree.disk db.columns) (.inMemory k) w h s ks ks') (hplug : w.plug s = t)
    (hend : Ended key w) (hne : w ≠ []) :
    w.map (fun e => (nodes.slots e.1).map Node.outline) =
      (tree.wayTo db key).reverse.map fun node => some node.outline := by
  subst hplug
  obtain ⟨w', -, -, k', nodes', -, -, hseek', -, -, -, -, hknown⟩ := seekTo_ok hR hlaw hn hkey
  rw [hseek] at hseek'
  obtain ⟨rfl, rfl⟩ : k = k' ∧ nodes = nodes' := by
    simp only [EStateM.Result.ok.injEq, MerkleTree.mk.injEq, Option.some.injEq, RootHandle.loaded.injEq] at hseek'
    exact ⟨hseek'.2.1, hseek'.2.2.1⟩
  have hw : (w.plug s).WF key.length := hkey ▸ hR.wf _ rfl
  obtain ⟨-, -, -, hproper, -⟩ := Trie.WF.plug w.frames hw
  have hlooks := congrArg (List.map fun e => e.2.map Look.outline) (hF.ctx.looks hproper hF.rep.handleHash_eq)
  have hhash : hashAt H nodes.slots (w.plug s) (.inMemory k) = tree.known H (w.plug s) := funext hknown
  rw [hhash, ← hend.course_eq hw hne] at hlooks
  have hcrumbs : w.crumbs.map (fun c => (nodes.slots c.1).map Node.outline) =
      (tree.wayTo db key).map fun node => some node.outline := by
    rw [hR.wayTo_eq hn hkey]
    simp only [List.map_map] at hlooks
    refine Eq.trans (List.map_congr_left fun c _ => ?_) hlooks
    simp only [Function.comp_apply, Option.map_map]
    exact congrArg (fun f => (nodes.slots c.1).map f) (funext fun node => (outline_lookOf _ node).symm)
  calc w.map (fun e => (nodes.slots e.1).map Node.outline)
      = (w.map Prod.fst).map fun k => (nodes.slots k).map Node.outline := by rw [List.map_map]; rfl
    _ = (w.crumbs.map fun c => (nodes.slots c.1).map Node.outline).reverse := by
      rw [← Way.fst_crumbs, List.map_reverse, List.map_map]; rfl
    _ = (tree.wayTo db key).reverse.map fun node => some node.outline := by rw [hcrumbs, List.map_reverse]

/-- The path of an edge's frame. -/
def edgePath : Frame Felt → Option Path
  | .edge q => some q
  | _ => none

omit [BonsaiDatabase DB] [InfallibleDatabase DB] in
theorem RepFrame.outline_eq {nodes : NodeKey → Option Node} {disk : Disk} {k : NodeKey} {f : Frame Felt}
    (hf : RepFrame H memo nodes disk k p h t f ks) : ∃ m, (nodes k).map Node.outline = some (m, p.length, edgePath f) := by
  cases hf with
  | left hk => exact ⟨_, by rw [hk]; rfl⟩
  | right hk => exact ⟨_, by rw [hk]; rfl⟩
  | edge hk => exact ⟨_, by rw [hk]; rfl⟩

omit [FeltCodec] [BonsaiDatabase DB] [InfallibleDatabase DB] in
theorem getHash_eq_outline (node : Node) : node.getHash = node.outline.1 := by
  cases node <;> rfl

omit [FeltCodec] [BonsaiDatabase DB] [InfallibleDatabase DB] in
/-- Nodes without memos are on a way of such nodes. -/
theorem loose_of_outlines {nodes : NodeKey → Option Node} {w : Way} {l : List Node}
    (h : w.map (fun e => (nodes e.1).map Node.outline) = l.map fun node => some node.outline)
    (hl : ∀ node ∈ l, node.getHash = none) : w.Loose memo nodes := by
  intro e he
  have hmem : (nodes e.1).map Node.outline ∈ l.map fun node => some node.outline := h ▸ List.mem_map_of_mem he
  obtain ⟨node, hnode, heq⟩ := List.mem_map.mp hmem
  refine loose_none fun nd hnd => ?_
  rw [hnd] at heq
  have heq : node.outline = nd.outline := Option.some.inj heq
  rw [getHash_eq_outline, ← heq, ← getHash_eq_outline, hl node hnode]

/-- An insertion that keeps no memo. -/
theorem LooseWay.of_insert (hR : TreeRep H memo n db.columns tree (some t)) (hlaw : memo.Lawful H) (hn : 0 < n) {key : Path}
    (hkey : key.length = n) {value : Felt} (hv : value ≠ 0)
    (hkept : ∀ node ∈ tree.keptOn db key value, node.getHash = none) :
    LooseWay H memo db tree t key (Way.keptBySet key) := by
  rintro w _ nodes h s ks ks' hseek k rfl hF hplug hend
  rcases w with _ | ⟨⟨k₁, f⟩, w⟩
  · rw [Way.keptBySet, List.tail_nil, ite_self]
    intro e he
    cases he
  have hout := outlines_crumbs hR hlaw hn hkey hseek hF hplug hend (by simp)
  obtain ⟨_, _, hf, -, -⟩ := hF.last
  obtain ⟨m, hm⟩ := hf.outline_eq
  rw [MerkleTree.keptOn] at hkept
  rcases hrev : (tree.wayTo db key).reverse with _ | ⟨node, above⟩
  · rw [hrev] at hout
    cases hout
  rw [hrev, List.map_cons, List.map_cons, List.cons.injEq] at hout
  rw [hrev] at hkept
  have hall (hl : ∀ node' ∈ node :: above, node'.getHash = none) : Way.Loose memo nodes.slots ((k₁, f) :: w) :=
    loose_of_outlines (by rw [List.map_cons, List.map_cons, hout.1, hout.2]) hl
  by_cases hpath : Way.path ((k₁, f) :: w) = key
  · rw [Way.keptBySet, if_pos hpath]
    cases node with
    | binary b => exact hall (by simpa only [if_neg hv] using hkept)
    | edge e =>
      rw [hm, Node.outline, Option.some.injEq, Prod.mk.injEq, Prod.mk.injEq] at hout
      obtain ⟨⟨-, hheight, hq⟩, -⟩ := hout
      have htip : f.tip = e.path := by
        cases f with
        | left r => cases hq
        | right l => cases hq
        | edge q => exact Option.some.inj hq
      have hcommon : e.commonPath key = e.path := by
        rw [← hpath, Way.path_cons, htip]
        exact commonPath_follow hheight.symm
      have hlen : e.height + (e.commonPath key).length = key.length := by
        rw [hcommon, ← hpath, Way.path_cons, htip, List.length_append, ← hheight]
      exact hall (by simpa only [if_neg hv, if_pos hlen] using hkept)
  · rw [Way.keptBySet, if_neg hpath, List.tail_cons]
    refine loose_of_outlines hout.2 fun node' hmem => hkept node' ?_
    cases node with
    | binary b =>
      simp only [if_neg hv]
      exact List.mem_cons_of_mem _ hmem
    | edge e =>
      simp only [if_neg hv]
      split
      · exact List.mem_cons_of_mem _ hmem
      · exact hmem

/-- A deletion that keeps none. -/
theorem LooseWay.of_delete (hR : TreeRep H memo n db.columns tree (some t)) (hlaw : memo.Lawful H) (hn : 0 < n) {key : Path}
    (hkey : key.length = n) (hkept : ∀ node ∈ tree.keptOn db key 0, node.getHash = none) :
    LooseWay H memo db tree t key Way.keptByDelete := by
  rintro w _ nodes h s ks ks' hseek k rfl hF hplug hend
  rcases w with _ | ⟨⟨k₁, f⟩, w⟩
  · intro e he
    cases he
  have hout := outlines_crumbs hR hlaw hn hkey hseek hF hplug hend (by simp)
  obtain ⟨_, _, hf, -, -⟩ := hF.last
  obtain ⟨m, hm⟩ := hf.outline_eq
  rw [MerkleTree.keptOn] at hkept
  rcases hrev : (tree.wayTo db key).reverse with _ | ⟨node, above⟩
  · rw [hrev] at hout
    cases hout
  rw [hrev, List.map_cons, List.map_cons, List.cons.injEq, hm] at hout
  obtain ⟨hnode, habove⟩ := hout
  have hq : edgePath f = node.outline.2.2 := congrArg (fun o => o.2.2) (Option.some.inj hnode)
  rw [hrev] at hkept
  cases node with
  | binary b =>
    have hw : Way.keptByDelete ((k₁, f) :: w) = w := by
      cases f with
      | left r => rfl
      | right l => rfl
      | edge q => cases hq
    rw [hw]
    exact loose_of_outlines habove (by simpa using hkept)
  | edge e =>
    have hw : Way.keptByDelete ((k₁, f) :: w) = w.tail := by
      cases f with
      | left r => cases hq
      | right l => cases hq
      | edge q => rfl
    rw [hw]
    refine loose_of_outlines (l := above.tail) ?_ (by simpa using hkept)
    have := congrArg List.tail habove
    rwa [← List.map_tail, ← List.map_tail] at this

end

/-! ## Runs -/

section

variable [FeltCodec] {DB ID : Type} [BonsaiDatabase DB] [InfallibleDatabase DB] {db : KeyValueDB DB ID}
  {tree : MerkleTree} {H : StarkHash} {memo : Memo} {n : Nat} {o : Fin 8} {T T' : Option (Trie Felt)} {s : Leaves}
  {key : BitSlice} {value : Felt} {st : MerkleTrees DB ID}

namespace MerkleTree

/-! ### The cache is not in the way -/

omit [InfallibleDatabase DB] in
theorem nodeAt_cache (cache : HashMap ByteVec (InsertOrRemove Felt)) (h : NodeHandle) (p : Path) :
    nodeAt db { tree with cacheLeafModified := cache } h p = nodeAt db tree h p := by
  cases h with
  | inMemory k => rfl
  | hash v =>
    obtain ⟨r, hread⟩ := getTrieBranch_leaving db tree p
    rw [nodeAt, nodeAt, hread { tree with cacheLeafModified := cache } rfl rfl, hread tree rfl rfl]
    cases r <;> rfl

omit [InfallibleDatabase DB] in
theorem wayBelow_cache (cache : HashMap ByteVec (InsertOrRemove Felt)) (fuel : Nat) (h : NodeHandle) (p rest : Path) :
    wayBelow db { tree with cacheLeafModified := cache } fuel h p rest = wayBelow db tree fuel h p rest := by
  induction fuel generalizing h p rest with
  | zero => cases rest <;> rfl
  | succ fuel ih =>
    cases rest with
    | nil => rfl
    | cons b rest =>
      rw [wayBelow, wayBelow, nodeAt_cache]
      simp only [ih]

omit [InfallibleDatabase DB] in
theorem keptOn_cache (cache : HashMap ByteVec (InsertOrRemove Felt)) (key : Path) (value : Felt) :
    keptOn db { tree with cacheLeafModified := cache } key value = keptOn db tree key value := by
  rw [keptOn, keptOn, wayTo, wayTo, rootHandle, rootHandle, nodeAt_cache]
  simp only [wayBelow_cache]

end MerkleTree

/-- The early exits of an insertion, in the leaves. -/
theorem LeafRep.exitsEarly_insert (h : LeafRep H n o db.columns tree T s) (hh : key.head = o) (hkey : key.len = n)
    (hv : value ≠ 0) :
    tree.ExitsEarly db key value ↔ (∃ old, s.cache key.bits = some (.insert old)) ∨ s.flat key.bits = some value := by
  rw [MerkleTree.ExitsEarly]
  simp only [if_neg hv, h.cache_eq hh hkey, h.flat_eq hh hkey, Except.ok.injEq]
  refine or_congr_right ?_
  cases s.flat key.bits with
  | none => simp
  | some v =>
    simp only [Option.map_some, Option.some.injEq]
    constructor
    · intro he
      have h₁ := decodeFelt_encode (E := Unit) v
      rw [he, decodeFelt_encode] at h₁
      exact (Except.ok.inj h₁).symm
    · rintro rfl
      rfl

/-- The early exits of a deletion. -/
theorem LeafRep.exitsEarly_delete (h : LeafRep H n o db.columns tree T s) (hh : key.head = o) (hkey : key.len = n) :
    tree.ExitsEarly db key 0 ↔ s.get key.bits = none := by
  rw [MerkleTree.ExitsEarly]
  simp only [if_true, h.cache_eq hh hkey, h.flat_eq hh hkey, Except.ok.injEq, Option.map_eq_none_iff, Leaves.get]
  rcases pending_cases s key.bits with hc | ⟨v, hc⟩ | hc
  · rw [hc]; simp
  · rw [hc]; simp
  · rw [hc]; simp

/-- `set` keeps what the memos may be when it keeps no memo over what it changes. -/
theorem LeafRep.set_memos (h : LeafRep H n o db.columns tree T' s) (hR : TreeRep H memo n db.columns tree T)
    (htrie : ∀ k : Path, k.length = n → content T k = s.trie k) (hlaw : memo.Lawful H) (hn : 0 < n) (hh : key.head = o)
    (hkey : key.len = n) (hstray : ∀ t, T = some t → NoStray tree.identifier t key)
    (hkept : ¬ tree.ExitsEarly db key value → ∀ node ∈ tree.keptOn db key.bits value, node.getHash = none) :
    ∃ tree' T₁, MerkleTree.set db key value tree = .ok () tree' ∧ TreeRep H memo n db.columns tree' T₁ ∧
      ∀ k : Path, k.length = n → content T₁ k = (s.set key.bits value).trie k := by
  by_cases hv : value = 0
  · subst hv
    rw [Leaves.set, if_pos rfl, Leaves.remove, MerkleTree.set, if_pos rfl,
      h.deleteLeaf_run hh hkey db fun _ => h.flat_eq hh hkey]
    by_cases hg : (s.get key.bits).isSome
    · rw [if_pos hg, if_pos hg]
      have hc := h.keys key.bits
      rw [hg, ← htrie key.bits hkey] at hc
      cases T with
      | none => cases hc
      | some t =>
        obtain ⟨v, hlookup⟩ := Option.isSome_iff_exists.mp hc
        have hexit : ¬ tree.ExitsEarly db key 0 := by
          rw [h.exitsEarly_delete hh hkey, ← Option.not_isSome_iff_eq_none, not_not]
          exact hg
        have hR' : TreeRep H memo n db.columns (tree.cacheRemove key) (some t) := LeafRep.TreeRep_cache hR _
        have hloose := LooseWay.of_delete hR' hlaw hn hkey (by
          rw [MerkleTree.cacheRemove, MerkleTree.keptOn_cache]
          exact hkept hexit)
        obtain ⟨tree', T₁, hrun, hR₁, -, -, hcont⟩ := deleteWalk_ok hR' hlaw hn hkey hloose hlookup
        refine ⟨tree', T₁, hrun, hR₁, fun k hk => ?_⟩
        show content T₁ k = Function.update s.trie key.bits none k
        rw [hcont, Function.update_apply, ← htrie k hk]
        rfl
    · rw [if_neg hg, if_neg hg]
      exact ⟨tree, T, rfl, hR, htrie⟩
  rw [Leaves.set, if_neg hv, h.insert_run hh hkey hv]
  by_cases hc : ∃ old, s.cache key.bits = some (.insert old)
  · rw [if_pos hc, Leaves.insert_of_pending hc]
    exact ⟨_, T, rfl, LeafRep.TreeRep_cache hR _, htrie⟩
  rw [if_neg hc]
  by_cases hf : s.flat key.bits = some value
  · rw [if_pos hf, Leaves.insert_of_stored hc hf]
    exact ⟨tree, T, rfl, hR, htrie⟩
  · have hexit : ¬ tree.ExitsEarly db key value := by
      rw [h.exitsEarly_insert hh hkey hv]
      exact not_or.mpr ⟨hc, hf⟩
    obtain ⟨tree', T₁, hrun, hw, hcont⟩ := setWalk_ok hR hlaw hn hkey value
      (by rintro t rfl; exact LooseWay.of_insert hR hlaw hn hkey hv (hkept hexit)) hstray
    rw [if_neg hf, Leaves.insert_of_new hc hf]
    refine ⟨tree', T₁, hrun, hw.rep, fun k hk => ?_⟩
    show content T₁ k = Function.update s.trie key.bits (some value) k
    rw [hcont, Function.update_apply, ← htrie k hk]

/-- An idle tree has no memos. -/
theorem TreeRep.of_idle {memo' : Memo} {cols : Columns} (hR : TreeRep H memo n cols tree T) (hi : tree.Idle) :
    TreeRep H memo' n cols tree T := by
  refine ⟨hR.height, ?_, hR.wf, hR.only, hR.deathRow⟩
  have hr := hR.rooted
  rw [hi.root] at hr ⊢
  cases hr with
  | noTrie h => exact .noTrie h
  | unloaded hF =>
    obtain ⟨-, hs, -⟩ := hF.rep.hash_inv
    exact .unloaded ⟨.nil, .stored hs, by simp, hF.total⟩

/-- A storage whose one tree has these leaves, and memos of a kind. -/
structure MemoRep (H : StarkHash) (memo : Memo) (n : Nat) (st : MerkleTrees DB ID) (s : Leaves) : Prop where
  calls : CallRep H n st s
  rep : ∃ T, TreeRep H memo n st.db.columns (st.treeOf []) T ∧ ∀ k : Path, k.length = n → content T k = s.trie k

/-- A call keeps them, if a write keeps no memo over what it changes. -/
theorem MemoRep.step (h : MemoRep H memo n st s) (hlaw : memo.Lawful H) (hn : 0 < n) {c : Call}
    (hc : c.Aligned ∧ c.Unmemoised st) :
    MemoRep H memo n (Trace.next (Call.run H) c st) (c.leaves n s) := by
  obtain ⟨T, hR, htrie⟩ := h.rep
  refine ⟨(h.calls.step hn hc.1).2, ?_⟩
  cases c with
  | set key value =>
    by_cases hkey : key.len = n
    · obtain ⟨T', hT'⟩ := h.calls.leafRep
      have hh : key.head = 0 := Fin.ext hc.1
      have hstray (t : Trie Felt) (ht : T = some t) : NoStray (st.treeOf []).identifier t key := by
        rw [h.calls.rep.identifier_treeOf []]
        exact noStray_of_aligned (hR.wf t ht) hR.le_255 hh hkey
      obtain ⟨tree', T₁, hrun, hR', htrie'⟩ := hT'.set_memos hR htrie hlaw hn hh hkey hstray
        (hc.2 (by rw [hR.height]; exact hkey))
      have hset : Call.run H (.set key value) st = .ok () { st with trees := st.trees.insert [] tree' } := by
        rw [Call.run, MerkleTrees.set, MerkleTrees.onTree, hrun]
      rw [Trace.next, hset, Call.leaves, if_pos hkey]
      refine ⟨T₁, ?_, htrie'⟩
      rw [MerkleTrees.treeOf_insert]
      exact hR'
    · have hlen : key.len ≠ (st.treeOf []).maxHeight.toNat := by rw [hR.height]; exact hkey
      have hrun := MerkleTree.set_keyLength st.db hlen value
      have hset : Call.run H (.set key value) st = .error (.error (.keyLength (st.treeOf []).maxHeight.toNat key.len))
          { st with trees := st.trees.insert [] (st.treeOf []) } := by
        rw [Call.run, MerkleTrees.set, MerkleTrees.onTree, hrun]
      rw [Trace.next, hset, Call.leaves, if_neg hkey]
      refine ⟨T, ?_, htrie⟩
      rw [MerkleTrees.treeOf_insert]
      exact hR
  | getMultiProof keys =>
    have hle := h.calls.le_255
    obtain ⟨proof, nodes, root, hrun, hR', -⟩ := Bonsai.getMultiProof_ok hR hlaw hn keys (fun _ => True) (fun _ _ => True)
      trivial fun t ht key _ _ => proofVisitor_visits hlaw (hR.wf t ht) (by omega) fun _ _ _ _ _ _ _ _ _ _ _ =>
        ⟨trivial, trivial, fun _ _ _ _ => trivial⟩
    have hnext : Trace.next (Call.run H) (.getMultiProof keys) st =
        { st with trees := st.trees.insert [] { st.treeOf [] with nodes := nodes, rootNode := root } } := by
      rw [Trace.next, Call.run, bind_run, MerkleTrees.getMultiProof, MerkleTrees.onTree, hrun]
      cases (proveAnswer n keys : Except (Failure (BonsaiDatabase.DatabaseError DB)) Unit) <;> rfl
    rw [hnext]
    refine ⟨T, ?_, htrie⟩
    rw [MerkleTrees.treeOf_insert]
    exact hR'
  | commit ords =>
    obtain ⟨st', hrun, hcall, hidle⟩ := h.calls.commit_ok ords
    obtain ⟨T', hT'⟩ := hcall.leafRep
    have hrun : Call.run H (.commit ords) st = .ok () st' := hrun
    rw [Trace.next, hrun]
    exact ⟨T', hT'.rep.of_idle hidle, hT'.trie⟩

variable (H) in
/-- In every state that a run reaches whose writes keep no memo over what they change, every memo is the hash
of what is below its node, and `get_or_compute_node_hash` returns that hash. -/
theorem memos_fresh_run (m : UInt8) (hm : 0 < m.toNat) (db : KeyValueDB DB ID)
    (hdb : ∀ key : TrieKey, db.columns key.toDatabaseKey = none) (cs : List Call)
    (hcs : Trace.Meets (Call.run H) (fun st c => c.Aligned ∧ c.Unmemoised st) cs (MerkleTrees.new db m))
    (st : MerkleTrees DB ID) (hst : st = Trace.after (Call.run H) cs (MerkleTrees.new db m)) :
    (st.treeOf []).MemosFresh H ∧
      ∀ k, ((st.treeOf []).nodes.slots k).isSome →
        ∃ x tree', (nodeHash H (.inMemory k) : M (BonsaiDatabase.DatabaseError DB) Felt) (st.treeOf []) = .ok x tree' ∧
          Hashes H (st.treeOf []).nodes.slots (.inMemory k) x := by
  have hcalls := CallRep.start (H := H) hdb m
  have hle := hcalls.le_255
  have hstart : MemoRep H (trueMemo H) m.toNat (MerkleTrees.new db m) .empty :=
    ⟨hcalls, none, (LeafRep.start hdb [] m 0).rep.of_idle ⟨rfl, fun _ => rfl, rfl, rfl⟩, fun _ _ => rfl⟩
  obtain ⟨s, hR⟩ := Trace.invariant (I := fun st => ∃ s, MemoRep H (trueMemo H) m.toNat st s) (by
    rintro st c ⟨s, hR⟩ hc
    exact ⟨_, hR.step (trueMemo_lawful H) hm hc⟩) ⟨_, hstart⟩ hcs
  rw [← hst] at hR
  obtain ⟨T, hT, -⟩ := hR.rep
  exact ⟨hT.memosFresh, fun k hk => hT.nodeHash_hashes _ hle hk⟩

end

/-- A key split off and deleted again, then committed, proved and left by another. -/
def splitAndProve : List Call :=
  [.set (.aligned [true, false]) 1, .set (.aligned [true, true]) 2, .set (.aligned [true, true]) 0, .commit fun _ => .listed,
    .getMultiProof [.aligned [true, false]], .set (.aligned [false, true]) 3, .getMultiProof [.aligned [false, true]]]

theorem splitAndProve_meets :
    Trace.Meets (Call.run fun a b => a + b) (fun st c => c.Aligned ∧ c.Unmemoised st) splitAndProve (BonsaiStorage.inMemory 2) := by
  refine ⟨⟨rfl, fun _ _ => ?_⟩, ⟨rfl, fun _ _ => ?_⟩, ⟨rfl, fun _ _ => ?_⟩, ⟨trivial, trivial⟩, ⟨trivial, trivial⟩,
    ⟨rfl, fun _ _ => ?_⟩, ⟨trivial, trivial⟩, trivial⟩
  all_goals decide +kernel

/-- In the end the nodes over the two keys have memos. -/
theorem memos_fresh_run_split :
    (MerkleTrees.treeOf (Trace.after (Call.run fun a b => a + b) splitAndProve (BonsaiStorage.inMemory 2)) []).MemosFresh
      fun a b => a + b :=
  (memos_fresh_run (fun a b => a + b) 2 (by decide) (KeyValueDB.new HashMapDb.empty ⟨none, none, 1⟩ none)
    HashMapDb.columns_empty splitAndProve splitAndProve_meets _ rfl).1

/-- A value written over after a commit. -/
def commitAndOverwrite : List Call :=
  [.set (.aligned [true, false]) 1, .set (.aligned [true, true]) 2, .commit fun _ => .listed, .set (.aligned [true, true]) 5]

/-- `set` keeps the hashes of the nodes over the leaf, which were loaded with them. -/
theorem overwrite_keeps_memos :
    ¬ (MerkleTrees.treeOf (Trace.after (Call.run fun a b => a + b) commitAndOverwrite (BonsaiStorage.inMemory 2)) []).MemosFresh
      fun a b => a + b := by
  intro h
  have hk : (MerkleTrees.treeOf (Trace.after (Call.run fun a b => a + b) commitAndOverwrite (BonsaiStorage.inMemory 2))
      []).nodes.slots 3 = some (.binary ⟨some 3, 1, .hash 1, .hash 5⟩) := by
    decide +kernel
  have hnow := (h 3 _ 3 hk rfl).unique (.binary hk (.hash 1) (.hash 5))
  revert hnow
  decide +kernel

end Bonsai
