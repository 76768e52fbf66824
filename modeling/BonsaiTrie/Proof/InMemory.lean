import BonsaiTrie.Framework.Assoc
import BonsaiTrie.Proof.HashMapDb
import BonsaiTrie.Proof.Load
import BonsaiTrie.Spec.InMemory

/-!
# Hashing and persisting

`compute_hashes` and `commit_subtree` go through the nodes in memory in the
same order, the children before their node, so the vector that the first one
fills (`InMemory.hashes`) is what the second one takes its hashes from
(`commitSubtree_eq`). Hashing the right child into a vector of its own makes no
difference (`computeHashesSequential_eq`), since what is in the vector before
stays in front (`computeHashes_append`).
-/

namespace Bonsai

open Run

variable {E : Type} {H : StarkHash} {m : SlotMap Node}

/-! ## In parallel and one after the other -/

/-- A result, with hashes in front of its vector. -/
def withFront (hashes : List Felt) (r : Felt × List Felt) : Felt × List Felt := (r.1, hashes ++ r.2)

namespace MerkleTree

/-- `compute_hashes` at a child: a hash is what it is. -/
def hashChild (H : StarkHash) (m : SlotMap Node) (fuel : Nat) (child : Node ⊕ Felt) (path : Path) (hashes : List Felt) :
    Except (Failure E) (Felt × List Felt) :=
  match child with
  | .inr felt => pure (felt, hashes)
  | .inl node => computeHashes H m fuel node path hashes

/-- An edge comes after its child. -/
theorem computeHashes_edge (fuel : Nat) (edge : EdgeNode) (path : Path) (hashes : List Felt) :
    (computeHashes H m (fuel + 1) (.edge edge) path hashes : Except (Failure E) (Felt × List Felt)) = (do
      let child ← getNodeOrFelt m edge.child
      let r ← hashChild H m fuel child (path ++ edge.path) hashes
      let hash ← hashEdge H edge.path r.1
      pure (hash, r.2 ++ [hash])) := by
  rw [computeHashes]
  cases (getNodeOrFelt m edge.child : Except (Failure E) (Node ⊕ Felt)) with
  | error e => rfl
  | ok child => cases child <;> rfl

/-- What a vector holds before stays in front. -/
def KeepsFront (E : Type) (H : StarkHash) (m : SlotMap Node) (fuel : Nat) : Prop :=
  ∀ (child : Node ⊕ Felt) (path : Path) (hashes : List Felt),
    (hashChild H m fuel child path hashes : Except (Failure E) (Felt × List Felt)) =
      (hashChild H m fuel child path []).map (withFront hashes)

/-- A binary node comes after its children, the right one after the left one. -/
theorem KeepsFront.computeHashes_binary {fuel : Nat} (h : KeepsFront E H m fuel) (binary : BinaryNode) (path : Path)
    (hashes : List Felt) :
    (computeHashes H m (fuel + 1) (.binary binary) path hashes : Except (Failure E) (Felt × List Felt)) = (do
      let left ← getNodeOrFelt m binary.left
      let right ← getNodeOrFelt m binary.right
      let l ← hashChild H m fuel left (path ++ [false]) hashes
      let r ← hashChild H m fuel right (path ++ [true]) l.2
      pure (hashBinaryNode H l.1 r.1, r.2 ++ [hashBinaryNode H l.1 r.1])) := by
  rw [computeHashes]
  cases (getNodeOrFelt m binary.left : Except (Failure E) (Node ⊕ Felt)) with
  | error e => rfl
  | ok left =>
    cases (getNodeOrFelt m binary.right : Except (Failure E) (Node ⊕ Felt)) with
    | error e => rfl
    | ok right =>
      cases left with
      | inr felt => cases right <;> rfl
      | inl node =>
        show _ = (hashChild H m fuel (.inl node) (path ++ [false]) hashes >>= _ : Except (Failure E) _)
        cases right with
        | inr felt =>
          show (computeHashes H m fuel node (path ++ [false]) hashes >>= _ : Except (Failure E) _) = _
          rw [hashChild]
          cases (computeHashes H m fuel node (path ++ [false]) hashes : Except (Failure E) (Felt × List Felt)) <;> rfl
        | inl node' =>
          show (computeHashes H m fuel node (path ++ [false]) hashes >>= _ : Except (Failure E) _) = _
          rw [hashChild]
          cases (computeHashes H m fuel node (path ++ [false]) hashes : Except (Failure E) (Felt × List Felt)) with
          | error e => rfl
          | ok l =>
            have hright := h (.inl node') (path ++ [true]) l.2
            show (computeHashes H m fuel node' (path ++ [true]) [] >>= _ : Except (Failure E) _) =
              (hashChild H m fuel (.inl node') (path ++ [true]) l.2 >>= _)
            rw [hright, hashChild]
            cases (computeHashes H m fuel node' (path ++ [true]) [] : Except (Failure E) (Felt × List Felt)) <;> rfl

theorem keepsFront (fuel : Nat) : KeepsFront E H m fuel := by
  induction fuel with
  | zero =>
    intro child path hashes
    cases child with
    | inr felt => exact congrArg Except.ok (by simp [withFront])
    | inl node => rfl
  | succ fuel ih =>
    intro child path hashes
    cases child with
    | inr felt => exact congrArg Except.ok (by simp [withFront])
    | inl node =>
      show (computeHashes H m (fuel + 1) node path hashes : Except (Failure E) _) =
        (computeHashes H m (fuel + 1) node path []).map _
      cases node with
      | edge edge =>
        rw [computeHashes_edge, computeHashes_edge]
        refine except_bind_map_self fun child => except_bind_map (ih child _ hashes) fun r =>
          except_bind_map_self fun hash => ?_
        exact congrArg Except.ok (by simp [withFront])
      | binary binary =>
        rw [ih.computeHashes_binary, ih.computeHashes_binary]
        refine except_bind_map_self fun left => except_bind_map_self fun right =>
          except_bind_map (ih left _ hashes) fun l => except_bind_map (f := withFront hashes) ?_ fun r => ?_
        · rw [ih right _ l.2, ih right]
          cases (hashChild H m fuel right (path ++ [true]) [] : Except (Failure E) (Felt × List Felt)) with
          | error e => rfl
          | ok r => exact congrArg Except.ok (by simp [withFront])
        · exact congrArg Except.ok (by simp [withFront])

/-- Both builds compute the same hashes. -/
theorem computeHashesSequential_eq (fuel : Nat) (node : Node) (path : Path) (hashes : List Felt) :
    (computeHashesSequential H m fuel node path hashes : Except (Failure E) (Felt × List Felt)) =
      computeHashes H m fuel node path hashes := by
  induction fuel generalizing node path hashes with
  | zero => rfl
  | succ fuel ih =>
    cases node with
    | edge edge =>
      rw [computeHashes_edge, computeHashesSequential]
      refine bind_congr fun child => ?_
      cases child with
      | inr felt => rfl
      | inl node =>
        show (computeHashesSequential H m fuel node (path ++ edge.path) hashes >>= _ : Except (Failure E) _) = _
        rw [ih]
        rfl
    | binary binary =>
      rw [(keepsFront fuel).computeHashes_binary, computeHashesSequential]
      refine bind_congr fun left => bind_congr fun right => ?_
      cases left with
      | inr felt =>
        cases right with
        | inr felt' => rfl
        | inl node' =>
          show (computeHashesSequential H m fuel node' (path ++ [true]) hashes >>= _ : Except (Failure E) _) = _
          rw [ih]
          rfl
      | inl node =>
        show (computeHashesSequential H m fuel node (path ++ [false]) hashes >>= _ : Except (Failure E) _) = _
        rw [ih]
        refine bind_congr fun l => ?_
        cases right with
        | inr felt' => rfl
        | inl node' =>
          show (computeHashesSequential H m fuel node' (path ++ [true]) l.2 >>= _ : Except (Failure E) _) = _
          rw [ih]
          rfl

end MerkleTree

/-! ## The vector of hashes -/

theorem hashEdge_ok {q : Path} (v : Felt) (hq : q.length ≤ 256) :
    (MerkleTree.hashEdge H q v : Except (Failure E) Felt) = .ok (edgeHash H q v) := by
  rw [MerkleTree.hashEdge, hashEdgeNode_eq H v hq]

theorem hashEdge_panic {q : Path} (v : Felt) (hq : ¬ q.length ≤ 256) :
    (MerkleTree.hashEdge H q v : Except (Failure E) Felt) = .error (.panic "attempt to subtract with overflow") := by
  rw [MerkleTree.hashEdge, hashEdgeNode, if_neg hq]

namespace InMemory

theorem length_hashes (H : StarkHash) (t : InMemory) : (t.hashes H).length = t.keys.length := by
  induction t with
  | hash felt => rfl
  | binary key memo height left right ihl ihr =>
    simp only [hashes, keys, List.length_append, List.length_cons, List.length_nil, ihl, ihr]
  | edge key memo height path child ih =>
    simp only [hashes, keys, List.length_append, List.length_cons, List.length_nil, ih]

variable (H) in
/-- What `compute_hashes` ends with. -/
def computed (E : Type) (t : InMemory) (hashes : List Felt) : Except (Failure E) (Felt × List Felt) :=
  if t.shortEdges then .ok (t.digest H, hashes ++ t.hashes H)
  else .error (.panic "attempt to subtract with overflow")

theorem computed_short {t : InMemory} (h : t.shortEdges = true) (hashes : List Felt) :
    t.computed H E hashes = .ok (t.digest H, hashes ++ t.hashes H) := if_pos h

theorem computed_long {t : InMemory} (h : ¬ t.shortEdges = true) (hashes : List Felt) :
    t.computed H E hashes = .error (.panic "attempt to subtract with overflow") := if_neg h

/-- `compute_hashes` from a handle on. -/
theorem Held.hashChild_eq {t : InMemory} (h : t.Held m) {fuel : Nat} (hf : t.keys.length ≤ fuel) :
    ∃ child, (MerkleTree.getNodeOrFelt m t.handle : Except (Failure E) _) = .ok child ∧
      ∀ path hashes, MerkleTree.hashChild H m fuel child path hashes = t.computed H E hashes := by
  induction t generalizing fuel with
  | hash felt => exact ⟨.inr felt, rfl, fun path hashes => congrArg Except.ok (by simp [digest, InMemory.hashes])⟩
  | edge key memo height q child ih =>
    obtain ⟨fuel, rfl⟩ : ∃ f, fuel = f + 1 := ⟨fuel - 1, by simp only [keys, List.length_cons] at hf; omega⟩
    obtain ⟨x, hx, hchild⟩ := ih h.2 (by simpa [keys] using hf)
    refine ⟨.inl (.edge ⟨memo, height, q, child.handle⟩), by rw [handle, MerkleTree.getNodeOrFelt, h.1], fun path hashes => ?_⟩
    rw [MerkleTree.hashChild, MerkleTree.computeHashes_edge, except_bind_ok hx, hchild]
    by_cases hc : child.shortEdges
    · rw [computed_short hc]
      by_cases hq : q.length ≤ 256
      · refine (except_bind_ok (hashEdge_ok _ hq) _).trans ?_
        rw [computed_short (by simp [shortEdges, hq, hc]), List.append_assoc]
        rfl
      · rw [computed_long (by simp [shortEdges, hq])]
        show (MerkleTree.hashEdge H q (child.digest H) >>= _ : Except (Failure E) _) = _
        rw [hashEdge_panic _ hq]
        rfl
    · rw [computed_long hc, computed_long (by simp [shortEdges, hc])]
      rfl
  | binary key memo height left right ihl ihr =>
    obtain ⟨fuel, rfl⟩ : ∃ f, fuel = f + 1 := ⟨fuel - 1, by simp only [keys, List.length_cons] at hf; omega⟩
    have hlen : left.keys.length + right.keys.length ≤ fuel := by simpa [keys] using hf
    obtain ⟨x, hx, hl⟩ := ihl h.2.1 (show left.keys.length ≤ fuel by omega)
    obtain ⟨y, hy, hr⟩ := ihr h.2.2 (show right.keys.length ≤ fuel by omega)
    refine ⟨.inl (.binary ⟨memo, height, left.handle, right.handle⟩), by rw [handle, MerkleTree.getNodeOrFelt, h.1],
      fun path hashes => ?_⟩
    rw [MerkleTree.hashChild, (MerkleTree.keepsFront fuel).computeHashes_binary, except_bind_ok hx, except_bind_ok hy, hl]
    by_cases hsl : left.shortEdges
    · rw [computed_short hsl]
      show (MerkleTree.hashChild H m fuel y _ (hashes ++ left.hashes H) >>= _ : Except (Failure E) _) = _
      rw [hr]
      by_cases hsr : right.shortEdges
      · rw [computed_short hsr, computed_short (by simp [shortEdges, hsl, hsr])]
        exact congrArg Except.ok (by simp [InMemory.hashes, digest])
      · rw [computed_long hsr, computed_long (by simp [shortEdges, hsr])]
        rfl
    · rw [computed_long hsl, computed_long (by simp [shortEdges, hsl])]
      rfl

end InMemory

/-! ## Taking the nodes out of memory -/

section

variable [FeltCodec] {s : MerkleTree.CommitState} {p : Path}

/-- `commit_subtree` at a handle: a hash is what it is. -/
def commitHandle (fuel : Nat) (h : NodeHandle) (path : Path) : EStateM (Failure E) MerkleTree.CommitState Felt :=
  match h with
  | .hash felt => pure felt
  | .inMemory k => MerkleTree.commitSubtree fuel k path

omit [FeltCodec] in
theorem takeNode_ok {k : NodeKey} {node : Node} (h : s.tree.nodes.slots k = some node) :
    (MerkleTree.takeNode k : EStateM (Failure E) _ _) s =
      .ok node { s with tree := { s.tree with nodes := s.tree.nodes.remove k } } := by
  rw [MerkleTree.takeNode, h]

omit [FeltCodec] in
theorem nextHash_ok {felt : Felt} {rest : List Felt} (h : s.hashes = felt :: rest) :
    (MerkleTree.nextHash : EStateM (Failure E) _ _) s = .ok felt { s with hashes := rest } := by
  rw [MerkleTree.nextHash, h]

theorem storeNode_ok {node : Node} {bytes : ByteVec} (h : node.encode = some bytes) :
    (MerkleTree.storeNode p node : EStateM (Failure E) _ _) s = .ok () { s with
      updates := s.updates.insert (TrieKey.new s.tree.identifier .trie p.encode) (.insert bytes) } := by
  rw [MerkleTree.storeNode, h]

namespace InMemory

variable {t : InMemory} {m' : SlotMap Node}

omit [FeltCodec] in
/-- Only the nodes of the tree matter. -/
theorem Held.congr (h : t.Held m) (hm : ∀ j ∈ t.keys, m'.slots j = m.slots j) : t.Held m' := by
  induction t with
  | hash felt => trivial
  | binary key memo height left right ihl ihr =>
    simp only [keys, List.mem_cons, List.mem_append] at hm
    exact ⟨(hm key (.inl rfl)).trans h.1, ihl h.2.1 fun j hj => hm j (.inr (.inl hj)),
      ihr h.2.2 fun j hj => hm j (.inr (.inr hj))⟩
  | edge key memo height path child ih =>
    simp only [keys, List.mem_cons] at hm
    exact ⟨(hm key (.inl rfl)).trans h.1, ih h.2 fun j hj => hm j (.inr hj)⟩

/-- The nodes are in the updates instead of in memory, and their hashes are used up. -/
structure Persisted (H : StarkHash) (t : InMemory) (p : Path) (rest : List Felt) (s s' : MerkleTree.CommitState) :
    Prop where
  hashes : s'.hashes = rest
  tree : s'.tree = { s.tree with nodes := s'.tree.nodes }
  nodes : ∀ j, s'.tree.nodes.slots j = if j ∈ t.keys then none else s.tree.nodes.slots j
  updates : s'.updates = s.updates.storeAll s.tree.identifier (t.written H p)

theorem storeAll_append (identifier : ByteVec) (u : Updates) (l l' : List (Path × Node)) :
    u.storeAll identifier (l ++ l') = (u.storeAll identifier l).storeAll identifier l' := List.foldl_append

/-- The last steps at a node, once those below it are out of memory: it takes its hash, and is stored. -/
theorem storeTop_persisted {s₂ : MerkleTree.CommitState} {rest : List Felt} {key : NodeKey} {below : List NodeKey}
    {l : List (Path × Node)} (mk : Felt → Node) (hkeys : t.keys = key :: below)
    (hwritten : t.written H p = l ++ [(p, mk (t.digest H))]) (hmk : ∃ bytes, (mk (t.digest H)).encode = some bytes)
    (hh : s₂.hashes = t.digest H :: rest) (htree : s₂.tree = { s.tree with nodes := s₂.tree.nodes })
    (hnodes : ∀ j, s₂.tree.nodes.slots j = if j ∈ below then none else (s.tree.nodes.remove key).slots j)
    (hupdates : s₂.updates = s.updates.storeAll s.tree.identifier l) :
    ∃ s', (do let hash ← MerkleTree.nextHash; MerkleTree.storeNode p (mk hash); pure hash :
        EStateM (Failure E) MerkleTree.CommitState Felt) s₂ = .ok (t.digest H) s' ∧ Persisted H t p rest s s' := by
  obtain ⟨bytes, hbytes⟩ := hmk
  refine ⟨_, (bind_ok (nextHash_ok hh) _).trans (bind_ok (storeNode_ok hbytes) _), rfl, htree, fun j => ?_, ?_⟩
  · rw [hkeys]
    refine (hnodes j).trans ?_
    show (if j ∈ below then none else if j = key then none else s.tree.nodes.slots j) = _
    by_cases hj : j = key
    · simp [hj]
    · simp [hj]
  · have hid : s₂.tree.identifier = s.tree.identifier := by rw [htree]
    simp only [hid, hupdates, hwritten, storeAll_append]
    simp only [Updates.storeAll, List.foldl_cons, List.foldl_nil, hbytes, Option.getD_some]

/-- `commit_subtree` from a handle on. -/
theorem Held.commitHandle_eq {fuel : Nat} {rest : List Felt} (h : t.Held s.tree.nodes) (hnd : t.keys.Nodup)
    (hf : t.keys.length ≤ fuel) (hh : s.hashes = t.hashes H ++ rest) :
    ∃ s', (commitHandle fuel t.handle p : EStateM (Failure E) _ _) s = .ok (t.digest H) s' ∧
      Persisted H t p rest s s' := by
  induction t generalizing fuel rest s p with
  | hash felt => exact ⟨s, rfl, hh, rfl, fun j => by simp [keys], rfl⟩
  | edge key memo height q child ih =>
    obtain ⟨fuel, rfl⟩ : ∃ f, fuel = f + 1 := ⟨fuel - 1, by simp only [keys, List.length_cons] at hf; omega⟩
    obtain ⟨hkey, hnd⟩ := List.nodup_cons.mp hnd
    let s₁ : MerkleTree.CommitState := { s with tree := { s.tree with nodes := s.tree.nodes.remove key } }
    have hheld : child.Held s₁.tree.nodes := h.2.congr fun j hj => if_neg (by rintro rfl; exact hkey hj)
    obtain ⟨s₂, hrun, hs₂⟩ := @ih s₁ (p ++ q) fuel ((edge key memo height q child).digest H :: rest) hheld hnd
      (by simpa [keys] using hf) (by simpa [InMemory.hashes] using hh)
    obtain ⟨s', hrun', hs'⟩ := storeTop_persisted (E := E) (s := s) (t := edge key memo height q child) (p := p)
      (fun hash => .edge ⟨some hash, height, q, .hash (child.digest H)⟩) rfl rfl ⟨_, rfl⟩ hs₂.hashes hs₂.tree
      hs₂.nodes hs₂.updates
    refine ⟨s', ?_, hs'⟩
    show (MerkleTree.commitSubtree (fuel + 1) key p : EStateM (Failure E) _ _) s = _
    rw [MerkleTree.commitSubtree, bind_ok (takeNode_ok h.1)]
    cases hc : child.handle with
    | hash felt => rw [hc] at hrun; exact (bind_ok hrun _).trans hrun'
    | inMemory k => rw [hc] at hrun; exact (bind_ok hrun _).trans hrun'
  | binary key memo height left right ihl ihr =>
    obtain ⟨fuel, rfl⟩ : ∃ f, fuel = f + 1 := ⟨fuel - 1, by simp only [keys, List.length_cons] at hf; omega⟩
    have hlen : left.keys.length + right.keys.length ≤ fuel := by simpa [keys] using hf
    obtain ⟨hkey, hnd⟩ := List.nodup_cons.mp hnd
    obtain ⟨hndl, hndr, hdisj⟩ := List.nodup_append.mp hnd
    rw [List.mem_append, not_or] at hkey
    let s₁ : MerkleTree.CommitState := { s with tree := { s.tree with nodes := s.tree.nodes.remove key } }
    -- the left half
    have hheldl : left.Held s₁.tree.nodes := h.2.1.congr fun j hj => if_neg (by rintro rfl; exact hkey.1 hj)
    obtain ⟨s₂, hrunl, hs₂⟩ := @ihl s₁ (p ++ [false]) fuel
      (right.hashes H ++ (binary key memo height left right).digest H :: rest) hheldl hndl (by omega)
      (by simpa [InMemory.hashes] using hh)
    -- the right half
    have hheldr : right.Held s₂.tree.nodes := h.2.2.congr fun j hj => by
      rw [hs₂.nodes j, if_neg fun hj' => hdisj j hj' j hj rfl]
      exact if_neg (by rintro rfl; exact hkey.2 hj)
    obtain ⟨s₃, hrunr, hs₃⟩ := @ihr s₂ (p ++ [true]) fuel ((binary key memo height left right).digest H :: rest) hheldr
      hndr (by omega) hs₂.hashes
    have hnodes : ∀ j, s₃.tree.nodes.slots j =
        if j ∈ left.keys ++ right.keys then none else (s.tree.nodes.remove key).slots j := fun j => by
      rw [hs₃.nodes j, hs₂.nodes j]
      by_cases hj : j ∈ right.keys <;> by_cases hj' : j ∈ left.keys <;> simp [hj, hj', s₁]
    have hupdates : s₃.updates = s.updates.storeAll s.tree.identifier
        (left.written H (p ++ [false]) ++ right.written H (p ++ [true])) := by
      rw [hs₃.updates, hs₂.updates, hs₂.tree, storeAll_append]
    obtain ⟨s', hrun', hs'⟩ := storeTop_persisted (E := E) (s := s) (t := binary key memo height left right) (p := p)
      (fun hash => .binary ⟨some hash, height, .hash (left.digest H), .hash (right.digest H)⟩) rfl rfl ⟨_, rfl⟩
      hs₃.hashes (by rw [hs₃.tree, hs₂.tree]) hnodes hupdates
    refine ⟨s', ?_, hs'⟩
    show (MerkleTree.commitSubtree (fuel + 1) key p : EStateM (Failure E) _ _) s = _
    rw [MerkleTree.commitSubtree, bind_ok (takeNode_ok h.1)]
    cases hl : left.handle <;> cases hr : right.handle <;> rw [hl] at hrunl <;> rw [hr] at hrunr <;>
      exact (bind_ok hrunl _).trans ((bind_ok hrunr _).trans hrun')

/-! ## What is written -/

variable (H) in
omit [FeltCodec] in
/-- The paths are those of nodes below. -/
theorem prefix_of_written {e : Path × Node} (he : e ∈ t.written H p) : p <+: e.1 := by
  induction t generalizing p with
  | hash felt => cases he
  | binary key memo height left right ihl ihr =>
    simp only [written, List.mem_append, List.mem_singleton] at he
    rcases he with (he | he) | rfl
    · exact (List.prefix_append p _).trans (ihl he)
    · exact (List.prefix_append p _).trans (ihr he)
    · exact List.prefix_rfl
  | edge key memo height q child ih =>
    simp only [written, List.mem_append, List.mem_singleton] at he
    rcases he with he | rfl
    · exact (List.prefix_append p _).trans (ih he)
    · exact List.prefix_rfl

omit [FeltCodec] in
theorem Proper.length_le (h : t.Proper p) {e : Path × Node} (he : e ∈ t.written H p) : e.1.length ≤ 255 := by
  induction t generalizing p with
  | hash felt => cases he
  | binary key memo height left right ihl ihr =>
    simp only [written, List.mem_append, List.mem_singleton] at he
    rcases he with (he | he) | rfl
    · exact ihl h.2.1 he
    · exact ihr h.2.2 he
    · exact h.1
  | edge key memo height q child ih =>
    simp only [written, List.mem_append, List.mem_singleton] at he
    rcases he with he | rfl
    · exact ih h.2.2 he
    · exact h.1

omit [FeltCodec] in
/-- No two nodes are at the same path. -/
theorem Proper.nodup (h : t.Proper p) : ((t.written H p).map Prod.fst).Nodup := by
  -- what lies below a longer path is not at the path itself
  have hbelow (t : InMemory) {p q : Path} (hq : q ≠ []) : p ∉ (t.written H (p ++ q)).map Prod.fst := by
    intro hmem
    obtain ⟨e, he, rfl⟩ := List.mem_map.mp hmem
    have := (prefix_of_written H he).length_le
    rw [List.length_append] at this
    exact hq (List.eq_nil_of_length_eq_zero (by omega))
  induction t generalizing p with
  | hash felt => exact List.nodup_nil
  | binary key memo height left right ihl ihr =>
    simp only [written, List.map_append, List.map_cons, List.map_nil]
    refine List.nodup_append.mpr ⟨List.nodup_append.mpr ⟨ihl h.2.1, ihr h.2.2, ?_⟩, List.nodup_singleton p, ?_⟩
    · rintro a ha b hb rfl
      obtain ⟨e, he, rfl⟩ := List.mem_map.mp ha
      obtain ⟨e', he', heq⟩ := List.mem_map.mp hb
      have hl := prefix_of_written H he
      have hr := prefix_of_written H he'
      rw [heq] at hr
      have := List.prefix_or_prefix_of_prefix hl hr
      simp at this
    · rintro a ha b hb rfl
      rw [List.mem_singleton] at hb
      subst hb
      rcases List.mem_append.mp ha with ha | ha
      · exact hbelow left (by simp) ha
      · exact hbelow right (by simp) ha
  | edge key memo height q child ih =>
    simp only [written, List.map_append, List.map_cons, List.map_nil]
    refine List.nodup_append.mpr ⟨ih h.2.2, List.nodup_singleton p, ?_⟩
    rintro a ha b hb rfl
    rw [List.mem_singleton] at hb
    subst hb
    exact hbelow child h.2.1 ha

end InMemory

namespace Updates

variable {identifier : ByteVec} {u : Updates} {l : List (Path × Node)}

theorem lookup_storeAll (identifier : ByteVec) (u : Updates) (l : List (Path × Node)) (key : TrieKey) :
    (u.storeAll identifier l).lookup key =
      l.foldl (fun c e => Function.update c (TrieKey.new identifier .trie e.1.encode)
        (some (.insert (e.2.encode.getD [])))) (fun key => u.lookup key) key :=
  congrFun (Assoc.lookup_foldl_insert_pairs (fun p : Path => TrieKey.new identifier .trie p.encode)
    (fun node : Node => InsertOrRemove.insert (node.encode.getD [])) l u) key

/-- Each node is found under its path. -/
theorem lookup_storeAll_of_mem (hl : (l.map Prod.fst).Nodup) (hlen : ∀ e ∈ l, e.1.length ≤ 255) {p : Path} {node : Node}
    (h : (p, node) ∈ l) :
    (u.storeAll identifier l).lookup (TrieKey.new identifier .trie p.encode) =
      some (.insert (node.encode.getD [])) := by
  rw [lookup_storeAll]
  refine Assoc.foldl_update_of_mem_of (f := fun p : Path => TrieKey.new identifier .trie p.encode)
    (g := fun node : Node => some (InsertOrRemove.insert (node.encode.getD []))) hl (fun e he heq => ?_) h _
  simp only [TrieKey.new, TrieKey.trie.injEq, List.append_cancel_left_eq] at heq
  exact Path.encode_inj (hlen e he) (hlen _ h) heq

/-- The other keys stay. -/
theorem lookup_storeAll_of_not_mem {key : TrieKey} (h : ∀ e ∈ l, key ≠ TrieKey.new identifier .trie e.1.encode) :
    (u.storeAll identifier l).lookup key = u.lookup key := by
  rw [lookup_storeAll]
  exact Assoc.foldl_update_of_not_mem (f := fun p : Path => TrieKey.new identifier .trie p.encode)
    (g := fun node : Node => some (InsertOrRemove.insert (node.encode.getD []))) (fun e he heq => h e he heq.symm) _

end Updates

namespace InMemory

variable {tree : MerkleTree} {t : InMemory} {key : NodeKey}

variable (H) in
omit [FeltCodec] in
/-- The written nodes hold no keys of nodes in memory. -/
theorem encode_of_written [FeltCodec] {e : Path × Node} (he : e ∈ t.written H p) : ∃ bytes, e.2.encode = some bytes := by
  induction t generalizing p with
  | hash felt => cases he
  | binary key memo height left right ihl ihr =>
    simp only [written, List.mem_append, List.mem_singleton] at he
    rcases he with (he | he) | rfl
    · exact ihl he
    · exact ihr he
    · exact ⟨_, rfl⟩
  | edge key memo height q child ih =>
    simp only [written, List.mem_append, List.mem_singleton] at he
    rcases he with he | rfl
    · exact ih he
    · exact ⟨_, rfl⟩

omit [FeltCodec] in
theorem Held.isSome (h : t.Held m) : ∀ j ∈ t.keys, (m.slots j).isSome := by
  induction t with
  | hash felt => intro j hj; cases hj
  | binary key memo height left right ihl ihr =>
    intro j hj
    simp only [keys, List.mem_cons, List.mem_append] at hj
    rcases hj with rfl | hj | hj
    · rw [h.1]; rfl
    · exact ihl h.2.1 j hj
    · exact ihr h.2.2 j hj
  | edge key memo height q child ih =>
    intro j hj
    simp only [keys, List.mem_cons] at hj
    rcases hj with rfl | hj
    · rw [h.1]; rfl
    · exact ih h.2 j hj

omit [FeltCodec] in
theorem Of.length_le_next (h : t.Of tree key) : t.keys.length ≤ tree.nodes.next + 1 :=
  (SlotMap.length_le_next h.nodup h.held.isSome).trans (Nat.le_succ _)

omit [FeltCodec] in
theorem Of.computeRootHash_eq (h : t.Of tree key) (hashes : List Felt) :
    (MerkleTree.computeRootHash H tree hashes : Except (Failure E) _) = t.computed H E hashes := by
  obtain ⟨child, hchild, hrun⟩ := h.held.hashChild_eq (H := H) (E := E) h.length_le_next
  rw [h.handle, MerkleTree.getNodeOrFelt] at hchild
  rw [MerkleTree.computeRootHash, h.root]
  simp only
  cases hk : tree.nodes.slots key with
  | none => rw [hk] at hchild; cases hchild
  | some node =>
    rw [hk] at hchild
    cases hchild
    exact hrun [] hashes

theorem Of.commitSubtree_eq (h : t.Of tree key) (updates : Updates) (rest : List Felt) :
    ∃ s', (MerkleTree.commitSubtree (tree.nodes.next + 1) key [] : EStateM (Failure E) _ _)
        ⟨tree, updates, t.hashes H ++ rest⟩ = .ok (t.digest H) s' ∧
      Persisted H t [] rest ⟨tree, updates, t.hashes H ++ rest⟩ s' := by
  have hrun := Held.commitHandle_eq (E := E) (H := H) (p := []) (s := ⟨tree, updates, t.hashes H ++ rest⟩) h.held h.nodup
    h.length_le_next rfl
  rwa [h.handle] at hrun

/-- A commit writes the nodes, and takes them out of memory. -/
theorem Of.commitRoot_eq (h : t.Of tree key) (hshort : t.shortEdges = true) (updates : Updates) :
    ∃ nodes : SlotMap Node, (MerkleTree.commitRoot H updates : MerkleTree.M E Updates) tree =
        .ok (updates.storeAll tree.identifier (t.written H [])) { tree with nodes := nodes } ∧
      ∀ j, nodes.slots j = if j ∈ t.keys then none else tree.nodes.slots j := by
  obtain ⟨s', hrun, hs'⟩ := h.commitSubtree_eq (E := E) (H := H) updates []
  refine ⟨s'.tree.nodes, ?_, hs'.nodes⟩
  rw [MerkleTree.commitRoot]
  simp only [h.root, h.computeRootHash_eq, computed_short hshort, List.nil_append]
  rw [List.append_nil] at hrun
  simp only [hrun, hs'.updates]
  rw [← h.root]
  exact congrArg _ hs'.tree

/-- The hashes of a tree in memory, and what a commit does with them. -/
theorem Of.hashes_persisted (h : t.Of tree key) :
    (∀ fuel node path hashes, (MerkleTree.computeHashesSequential H tree.nodes fuel node path hashes :
      Except (Failure E) _) = MerkleTree.computeHashes H tree.nodes fuel node path hashes) ∧
    (t.shortEdges = false → ∀ hashes, (MerkleTree.computeRootHash H tree hashes : Except (Failure E) _) =
      .error (.panic "attempt to subtract with overflow")) ∧
    (t.shortEdges = true →
      (t.hashes H).length = t.keys.length ∧
      (∀ hashes, (MerkleTree.computeRootHash H tree hashes : Except (Failure E) _) =
        .ok (t.digest H, hashes ++ t.hashes H)) ∧
      (∀ updates rest, ∃ s', (MerkleTree.commitSubtree (tree.nodes.next + 1) key [] : EStateM (Failure E) _ _)
          ⟨tree, updates, t.hashes H ++ rest⟩ = .ok (t.digest H) s' ∧ s'.hashes = rest ∧
        s'.updates = updates.storeAll tree.identifier (t.written H [])) ∧
      (∀ updates, ∃ nodes, (MerkleTree.commitRoot H updates : MerkleTree.M E Updates) tree =
        .ok (updates.storeAll tree.identifier (t.written H [])) { tree with nodes := nodes }) ∧
      (t.Proper [] → ∀ (updates : Updates) (p : Path) (node : Node), (p, node) ∈ t.written H [] → ∃ bytes,
        node.encode = some bytes ∧ (updates.storeAll tree.identifier (t.written H [])).lookup
          (TrieKey.new tree.identifier .trie p.encode) = some (.insert bytes))) := by
  refine ⟨fun fuel node path hashes => MerkleTree.computeHashesSequential_eq fuel node path hashes,
    fun hlong hashes => ?_, fun hshort => ⟨t.length_hashes H, fun hashes => ?_, fun updates rest => ?_, fun updates => ?_, ?_⟩⟩
  · rw [h.computeRootHash_eq, computed_long (by simp [hlong])]
  · rw [h.computeRootHash_eq, computed_short hshort]
  · obtain ⟨s', hrun, hs'⟩ := h.commitSubtree_eq updates rest
    exact ⟨s', hrun, hs'.hashes, hs'.updates⟩
  · obtain ⟨nodes, hrun, -⟩ := h.commitRoot_eq (E := E) (H := H) hshort updates
    exact ⟨nodes, hrun⟩
  · intro hproper updates p node hmem
    obtain ⟨bytes, hbytes⟩ := encode_of_written H hmem
    refine ⟨bytes, hbytes, ?_⟩
    rw [Updates.lookup_storeAll_of_mem hproper.nodup (fun e he => hproper.length_le he) hmem, hbytes]
    rfl

end InMemory

end

/-- A node whose children are both in memory, one of them above another node in memory. -/
def InMemory.fork : InMemory :=
  .binary 0 none 0 (.edge 1 none 1 [true] (.hash 7)) (.edge 2 (some 5) 1 [false] (.binary 3 none 2 (.hash 8) (.hash 9)))

/-- A tree with these nodes. -/
def MerkleTree.forked : MerkleTree :=
  { new [] 3 with
    rootNode := some (.loaded 0)
    nodes := ((((SlotMap.empty.insert (.binary ⟨none, 0, .inMemory 1, .inMemory 2⟩)).2.insert
      (.edge ⟨none, 1, [true], .hash 7⟩)).2.insert (.edge ⟨some 5, 1, [false], .inMemory 3⟩)).2.insert
      (.binary ⟨none, 2, .hash 8, .hash 9⟩)).2 }

theorem InMemory.hashes_persisted_fork :
    (fork.hashes fun a b => a + b).length = 4 ∧
      ∃ s', (MerkleTree.commitSubtree 5 0 [] : EStateM (Failure Unit) _ _)
          ⟨MerkleTree.forked, ∅, fork.hashes fun a b => a + b⟩ = .ok (fork.digest fun a b => a + b) s' ∧
        s'.hashes = [] := by
  have hfork : fork.Of MerkleTree.forked 0 := ⟨rfl, rfl, ⟨rfl, ⟨rfl, trivial⟩, rfl, rfl, trivial, trivial⟩, by decide⟩
  have h := (Of.hashes_persisted (E := Unit) (H := fun a b => a + b) hfork).2.2 (by decide)
  obtain ⟨s', hrun, hrest, -⟩ := h.2.2.1 ∅ []
  exact ⟨h.1, s', by rwa [List.append_nil] at hrun, hrest⟩

end Bonsai
