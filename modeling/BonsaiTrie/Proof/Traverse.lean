import Mathlib.Data.List.TakeWhile
import BonsaiTrie.Proof.Look

/-!
# Seeking a key

The iterator goes from node to node along a key, loading what is not in
memory. `traverseOne_ok` is one step: the focus goes down by a frame, and the
walk ends where the key does or at an edge the key leaves (`Ended`).
`traverseLoop_ok` is the whole walk, with any visitor that changes no more of
the tree than the memos below the node it is shown (`Visits`), and
`traverseTo_ok` the call, which first gives up the part of the last walk that
the new key does not share.
-/

namespace Bonsai

open Patricia Run

/-- Where a walk ends: at the key, or at an edge the key leaves. -/
def Ended (key : Path) (w : Way) : Prop :=
  w.path = key ∨ ∃ k q, ∃ w' : Way, w = (k, .edge q) :: w' ∧ w'.path <+: key ∧ ¬ w.path <+: key

section Step

variable [FeltCodec] {DB ID V : Type} [BonsaiDatabase DB] [InfallibleDatabase DB] {db : KeyValueDB DB ID}
  {H : StarkHash} {memo : Memo} {nodes : NodeKey → Option Node} {disk : Disk}
  {root h : NodeHandle} {key : Path} {t : Trie Felt} {w : Way} {k : NodeKey} {f : Frame Felt} {ks ks' : List NodeKey}

namespace MerkleTreeIterator

omit [FeltCodec] in
/-- An edge matches the key when its path is what the key goes on with, as far as the key goes. -/
theorem pathMatches_eq {e : EdgeNode} {p : Path} (he : e.height = p.length) (hp : p <+: key) :
    e.pathMatches key p.length = some (decide (p ++ e.path <+: key ∨ key <+: p ++ e.path)) := by
  obtain ⟨rest, rfl⟩ := hp
  simp only [EdgeNode.pathMatches, he, if_true, List.length_append, Option.some.injEq,
    show min p.length (p.length + rest.length) = p.length by omega,
    show min (p.length + e.path.length) (p.length + rest.length) = p.length + min e.path.length rest.length by omega]
  rw [List.take_length_add_append, List.drop_left, Bool.eq_iff_iff, List.isPrefixOf_iff_prefix, decide_eq_true_iff,
    List.prefix_append_right_inj, List.prefix_append_right_inj]
  rcases Nat.le_total e.path.length rest.length with hl | hl
  · rw [Nat.min_eq_left hl]
    constructor
    · intro h
      rw [← h.eq_of_length (by rw [List.length_take]; omega)]
      exact .inl (List.take_prefix ..)
    · rintro (⟨rest', rfl⟩ | h)
      · simp
      · rw [h.eq_of_length_le hl, List.take_length]
  · rw [Nat.min_eq_right hl, List.take_length]
    constructor
    · exact .inr
    · rintro (h | h)
      · rw [h.eq_of_length_le hl]
      · exact h

/-- The first half of a step: the child and the frame towards it. -/
theorem stepInto_ok {E : Type} (hF : Focus H memo nodes disk root w (.inMemory k) t ks ks')
    (hp : w.path <+: key) (hlt : w.path.length < key.length) :
    ∃ f s h node ks₁ ks₂, t = f.fill s ∧ nodes k = some node ∧
      Focus H memo nodes disk root ((k, f) :: w) h s ks₁ ks₂ ∧ (w.path ++ f.tip <+: key ∨ f.IsEdge) ∧
      ∀ it : MerkleTreeIterator V, it.currentPath = w.path →
        (stepInto node w.path.length key : M E V (NodeHandle × Bool)) it =
          .ok (h, decide (w.path ++ f.tip <+: key ∨ key <+: w.path ++ f.tip))
            { it with currentPath := w.path ++ f.tip } := by
  cases t with
  | leaf v => exact (hF.rep.not_isLeaf trivial).elim
  | binary l r =>
    obtain ⟨b, hb⟩ : ∃ b, key[w.path.length]? = some b := ⟨_, List.getElem?_eq_getElem hlt⟩
    have hpb : w.path ++ [b] <+: key := by
      obtain ⟨rest, rfl⟩ := hp
      rw [List.getElem?_append_right le_rfl, Nat.sub_self] at hb
      obtain ⟨b', rest, rfl⟩ := List.exists_cons_of_ne_nil (l := rest) (by rintro rfl; simp at hb)
      obtain rfl : b' = b := by simpa using hb
      exact ⟨rest, by simp⟩
    cases b with
    | false =>
      obtain ⟨h, ks₁, ks₂, hF'⟩ := hF.down (f := .left r)
      obtain ⟨_, _, hf, -, -⟩ := hF'.last
      cases hf with
      | left hk _ _ =>
        refine ⟨.left r, l, h, _, ks₁, ks₂, rfl, hk, hF', .inl hpb, fun it hit => ?_⟩
        simp only [stepInto, hit, hb, Frame.tip, hpb, true_or, decide_true]
        rfl
    | true =>
      obtain ⟨h, ks₁, ks₂, hF'⟩ := hF.down (f := .right l)
      obtain ⟨_, _, hf, -, -⟩ := hF'.last
      cases hf with
      | right hk _ _ =>
        refine ⟨.right l, r, h, _, ks₁, ks₂, rfl, hk, hF', .inl hpb, fun it hit => ?_⟩
        simp only [stepInto, hit, hb, Frame.tip, hpb, true_or, decide_true]
        rfl
  | edge q c =>
    obtain ⟨h, ks₁, ks₂, hF'⟩ := hF.down (f := .edge q)
    obtain ⟨_, _, hf, -, -⟩ := hF'.last
    cases hf with
    | @edge m q hk _ =>
      refine ⟨.edge q, c, h, _, ks₁, ks₂, rfl, hk, hF', .inr trivial, fun it hit => ?_⟩
      have := pathMatches_eq (e := ⟨m, w.path.length, q, h⟩) rfl hp
      simp only [stepInto, hit]
      rw [this]
      rfl

omit [FeltCodec] in
theorem onTree_ok {E α : Type} {m : MerkleTree.M E α} {i : MerkleTreeIterator V} {a : α} {tree : MerkleTree}
    (h : m i.tree = .ok a tree) : (onTree m : M E V α) i = .ok a { i with tree := tree } := by
  rw [onTree, h]

/-- The second half of a step: the handle in the last frame is changed to the child's key. -/
theorem updateParentRef_ok {E : Type} (it : MerkleTreeIterator V) {p : Path} {node : Node} (kn : NodeKey)
    (hf : RepFrame H memo nodes disk k p h t f ks) (hk : nodes k = some node)
    (hk' : it.tree.nodes.slots k = some node) (hit : it.currentPath = p ++ f.tip) :
    (updateParentRef k kn : M E V Unit) it =
      .ok () { it with tree := { it.tree with nodes := it.tree.nodes.set k (refill f (.inMemory kn) node) } } := by
  have hput (nd : Node) : (onTree (MerkleTree.putNode k nd) : M E V Unit) it =
      .ok () { it with tree := { it.tree with nodes := it.tree.nodes.set k nd } } :=
    onTree_ok (MerkleTree.putNode_ok (by simp [hk']) nd)
  have hget : (onTree (MerkleTree.getNodeMut k) : M E V Node) it = .ok node it :=
    onTree_ok (MerkleTree.getNodeMut_ok hk')
  rw [updateParentRef, bind_ok (get_run it), bind_ok hget]
  cases hf with
  | left h₀ _ _ =>
    obtain rfl := Option.some.inj (hk.symm.trans h₀)
    have hlast : it.currentPath.getLast? = some false := by rw [hit]; simp [Frame.tip]
    simp only [hlast]
    exact hput _
  | right h₀ _ _ =>
    obtain rfl := Option.some.inj (hk.symm.trans h₀)
    have hlast : it.currentPath.getLast? = some true := by rw [hit]; simp [Frame.tip]
    simp only [hlast]
    exact hput _
  | edge h₀ _ =>
    obtain rfl := Option.some.inj (hk.symm.trans h₀)
    exact hput _

/-- The child in the focus is loaded if it is not in memory, and its parent refers to its key; the hashes
known of the trie stay. -/
theorem descend_ok (it : MerkleTreeIterator V) {n : Nat}
    (hF : Focus H memo it.tree.nodes.slots (it.tree.disk db.columns) root ((k, f) :: w) h t ks ks')
    (hlaw : memo.Lawful H) (ht : t.WF n) (hl : ¬ t.IsLeaf) (hn : (Way.path ((k, f) :: w)).length + n ≤ 255)
    (hit : it.currentPath = Way.path ((k, f) :: w)) :
    ∃ kn nodes ks₁ ks₂, (do
        let childKey ← onTree (MerkleTree.loadNodeHandle db h (Way.path ((k, f) :: w)))
        updateParentRef k childKey
        return some childKey : M (BonsaiDatabase.DatabaseError DB) V (Option NodeKey)) it =
        .ok (some kn) { it with tree := { it.tree with nodes := nodes } } ∧
      Focus H memo nodes.slots (it.tree.disk db.columns) root ((k, f) :: w) (.inMemory kn) t ks₁ ks₂ ∧
      ∀ q, MerkleTree.hashAt H nodes.slots (Way.plug ((k, f) :: w) t) root q =
        MerkleTree.hashAt H it.tree.nodes.slots (Way.plug ((k, f) :: w) t) root q := by
  obtain ⟨ks₁, ks₂, hf, hc, hks⟩ := hF.last
  obtain ⟨node, hk, -⟩ := hf.refill
  cases h with
  | inMemory kn =>
    have hload : (onTree (MerkleTree.loadNodeHandle db (.inMemory kn) (Way.path ((k, f) :: w))) :
        M (BonsaiDatabase.DatabaseError DB) V NodeKey) it = .ok kn it := onTree_ok rfl
    have hset := SlotMap.set_slots_self (m := it.tree.nodes) (k := k) (by simp [hk]) (refill f (.inMemory kn) node)
    have hother : ∀ j, j ≠ k → (it.tree.nodes.set k (refill f (.inMemory kn) node)).slots j = it.tree.nodes.slots j :=
      fun j hne => SlotMap.set_slots_of_ne _ _ hne
    have hbelow : ∀ j ∈ ks', (it.tree.nodes.set k (refill f (.inMemory kn) node)).slots j = it.tree.nodes.slots j := by
      rintro j hj
      refine hother j ?_
      rintro rfl
      exact (List.nodup_append.mp hF.nodup).2.2 _ (hks ▸ List.mem_cons_self) _ hj rfl
    refine ⟨kn, _, ks, ks', ?_, hF.refill (g := .inMemory kn) hk hset (fun j _ hne => hother j hne)
      (hF.rep.congr hbelow fun _ _ => rfl) hF.nodup fun j => ?_,
      hF.hashAt_refill hk hset (fun j _ hne => hother j hne) (hF.rep.hashAt_congr hbelow)⟩
    · rw [bind_ok hload, bind_ok (updateParentRef_ok it kn hf hk hk hit)]
      rfl
    · rw [SlotMap.isSome_set, hF.total]
  | hash v =>
    obtain ⟨-, hs, -⟩ := hF.rep.hash_inv
    obtain ⟨bytes, nd, hd, hdec, hnd⟩ := hs.read hl ht hn
    have hload : (onTree (MerkleTree.loadNodeHandle db (.hash v) (Way.path ((k, f) :: w))) :
        M (BonsaiDatabase.DatabaseError DB) V NodeKey) it =
        .ok it.tree.nodes.next { it with tree := { it.tree with nodes := (it.tree.nodes.insert nd).2 } } := by
      refine onTree_ok ?_
      rw [MerkleTree.loadNodeHandle]
      simp only
      rw [bind_ok (MerkleTree.self_run _), bind_ok (MerkleTree.loadDbNode_some hd hdec)]
      rfl
    have hne : k ≠ it.tree.nodes.next := fun e => by
      have := SlotMap.next_slots it.tree.nodes
      rw [← e, hk] at this; cases this
    have hk' : (it.tree.nodes.insert nd).2.slots k = some node := by simp [hne, hk]
    have hset := SlotMap.set_slots_self (m := (it.tree.nodes.insert nd).2) (by rw [hk']; rfl)
      (refill f (.inMemory it.tree.nodes.next) node)
    have hnew : ((it.tree.nodes.insert nd).2.set k (refill f (.inMemory it.tree.nodes.next) node)).slots it.tree.nodes.next =
        some nd := by
      rw [SlotMap.set_slots_of_ne _ _ hne.symm, SlotMap.insert_slots, if_pos rfl]
    have hother : ∀ j, j ≠ k → j ≠ it.tree.nodes.next →
        ((it.tree.nodes.insert nd).2.set k (refill f (.inMemory it.tree.nodes.next) node)).slots j =
          it.tree.nodes.slots j := fun j h₁ h₂ => by
      rw [SlotMap.set_slots_of_ne _ _ h₁, SlotMap.insert_slots, if_neg h₂]
    refine ⟨it.tree.nodes.next, _, ks, _, ?_, hF.load hlaw hnd hk (SlotMap.next_slots _) hset hnew hother,
      hF.hashAt_refill hk hset (fun j hj hne' => hother j hne' ?_) fun q => ?_⟩
    · rw [bind_ok hload]
      exact bind_ok (updateParentRef_ok { it with tree := { it.tree with nodes := (it.tree.nodes.insert nd).2 } }
        _ hf hk hk' hit) _
    · rintro rfl
      have := hF.isSome_of_mem (List.mem_append_left _ hj)
      rw [SlotMap.next_slots] at this
      cases this
    · rw [hashAt_loaded hnd hnew, hashAt_hash]

variable (db) in
/-- One step of a walk. -/
theorem traverseOne_ok {it : MerkleTreeIterator V} {n : Nat}
    (hF : Focus H memo it.tree.nodes.slots (it.tree.disk db.columns) root w (.inMemory k) t ks ks')
    (hlaw : memo.Lawful H) (ht : t.WF n) (hn : w.path.length + n ≤ 255) (hkey : key.length ≤ w.path.length + n)
    (hit : it.currentPath = w.path) (hp : w.path <+: key) (hlt : w.path.length < key.length) :
    ∃ f s h nodes r leafHash ks₁ ks₂, t = f.fill s ∧
      traverseOne db k w.path.length key it = .ok r
        { it with
          tree := { it.tree with nodes := nodes }
          currentPath := Way.path ((k, f) :: w)
          currentNodesHeights := it.currentNodesHeights ++ [(k, w.path.length)]
          leafHash := leafHash } ∧
      Focus H memo nodes.slots (it.tree.disk db.columns) root ((k, f) :: w) h s ks₁ ks₂ ∧
      (∀ q, MerkleTree.hashAt H nodes.slots (w.plug t) root q =
        MerkleTree.hashAt H it.tree.nodes.slots (w.plug t) root q) ∧
      (r = none ∧ Ended key ((k, f) :: w) ∧
          leafHash = (if Way.path ((k, f) :: w) = key then h.asHash else none) ∨
        ∃ kn, r = some kn ∧ h = .inMemory kn ∧ Way.path ((k, f) :: w) <+: key ∧
          (Way.path ((k, f) :: w)).length < key.length) := by
  obtain ⟨f, s, h, node, ks₁, ks₂, rfl, hk, hF', hfe, hstep⟩ :=
    stepInto_ok (E := BonsaiDatabase.DatabaseError DB) (V := V) hF hp hlt
  obtain ⟨m, hm, hs, -⟩ := Trie.WF.plug [f] ht
  simp only [path_cons, Patricia.path_nil, List.nil_append] at hm
  -- the iterator once the node is pushed, and once `current_path` is at its tip
  let it₀ : MerkleTreeIterator V :=
    { it with currentNodesHeights := it.currentNodesHeights ++ [(k, it.currentPath.length)] }
  let it₁ : MerkleTreeIterator V := { it with
    currentPath := w.path ++ f.tip
    currentNodesHeights := it.currentNodesHeights ++ [(k, w.path.length)] }
  have hget : (onTree (MerkleTree.getNodeMut k) : M (BonsaiDatabase.DatabaseError DB) V Node) it₀ = .ok node it₀ :=
    onTree_ok (i := it₀) (MerkleTree.getNodeMut_ok hk)
  let meets : Bool := decide (w.path ++ f.tip <+: key ∨ key <+: w.path ++ f.tip)
  let leaf : Option Felt := if meets && (w.path ++ f.tip).length == key.length then h.asHash else none
  have hrun : traverseOne db k w.path.length key it = (do
      if !meets || decide (key.length ≤ (w.path ++ f.tip).length) then
        modify fun it => { it with leafHash := leaf }
        return none
      let childKey ← onTree (MerkleTree.loadNodeHandle db h (w.path ++ f.tip))
      updateParentRef k childKey
      return some childKey : M (BonsaiDatabase.DatabaseError DB) V (Option NodeKey)) it₁ := by
    refine Eq.trans (bind_ok (modify_run _ it) _) ?_
    refine Eq.trans (bind_ok hget _) ?_
    refine Eq.trans (bind_ok (hstep it₀ hit) _) ?_
    simp only [it₀, it₁, hit, leaf, meets]
    rfl
  by_cases hpre : w.path ++ f.tip <+: key
  · have hmeets : meets = true := decide_eq_true (.inl hpre)
    by_cases hlen : key.length ≤ (w.path ++ f.tip).length
    · have heq : w.path ++ f.tip = key := hpre.eq_of_length_le hlen
      refine ⟨f, s, h, it.tree.nodes, none, leaf, ks₁, ks₂, rfl, ?_, hF', fun _ => rfl, .inl ⟨rfl, .inl heq, ?_⟩⟩
      · rw [hrun, if_pos (by rw [decide_eq_true hlen, Bool.or_true])]
        rfl
      · rw [Way.path_cons, if_pos heq]
        exact if_pos (by rw [hmeets, heq]; simp)
    · rw [List.length_append] at hlen
      obtain ⟨kn, nodes, ks₃, ks₄, hd, hF'', hknown⟩ := descend_ok it₁ hF' hlaw hs (hs.not_isLeaf (by omega))
        (by rw [Way.path_cons, List.length_append]; omega) rfl
      refine ⟨f, s, .inMemory kn, nodes, some kn, it.leafHash, ks₃, ks₄, rfl, ?_, hF'', hknown,
        .inr ⟨kn, rfl, rfl, hpre, by rw [Way.path_cons, List.length_append]; omega⟩⟩
      rw [hrun, if_neg (by
        simp only [hmeets, Bool.not_true, Bool.false_or, decide_eq_true_eq, List.length_append]; omega)]
      exact hd
  · obtain ⟨q, rfl⟩ : ∃ q, f = .edge q := by
      cases f with
      | edge q => exact ⟨q, rfl⟩
      | left r => exact (hfe.resolve_left hpre).elim
      | right l => exact (hfe.resolve_left hpre).elim
    -- the key leaves the edge, or ends within it
    have hends : (!meets || decide (key.length ≤ (w.path ++ Frame.tip (.edge q : Frame Felt)).length)) = true := by
      by_cases hshort : key <+: w.path ++ Frame.tip (.edge q : Frame Felt)
      · rw [decide_eq_true hshort.length_le, Bool.or_true]
      · have hmeets : meets = false := decide_eq_false (not_or.mpr ⟨hpre, hshort⟩)
        rw [hmeets]
        rfl
    refine ⟨.edge q, s, h, it.tree.nodes, none, leaf, ks₁, ks₂, rfl, ?_, hF', fun _ => rfl,
      .inl ⟨rfl, .inr ⟨k, q, w, rfl, hp, hpre⟩, ?_⟩⟩
    · rw [hrun, if_pos hends]
      rfl
    · have hne : Way.path ((k, .edge q) :: w) ≠ key := fun heq => hpre (heq ▸ List.prefix_rfl)
      rw [if_neg hne]
      refine if_neg fun hleaf => ?_
      simp only [meets, Bool.and_eq_true, decide_eq_true_eq, beq_iff_eq] at hleaf
      exact hne ((hleaf.1.resolve_left hpre).eq_of_length hleaf.2.symm).symm

end MerkleTreeIterator

end Step

/-! ## Walks -/

/-- A visitor of the nodes of a trie on the way to a key: of the tree it changes at most the nodes
below the one it is shown, which stand for the same trie as before; `inv` is kept, and `seen` holds of
what it was shown. -/
def Visits [FeltCodec] {E V : Type} (H : StarkHash) (memo : Memo) (T : Trie Felt) (key : Path) (inv : V → Prop)
    (seen : V → Trie Felt → Prop) (visit : NodeVisitor E V) : Prop :=
  ∀ (v : V) (tree : MerkleTree) (disk : Disk) (k : NodeKey) (p : Path) (t : Trie Felt) (ks : List NodeKey),
    Rep H memo tree.nodes.slots disk (.inMemory k) p t ks → ks.Nodup → T.sub p = some t → p <+: key → inv v →
    ∃ v' nodes, visit k p.length (v, tree) = .ok () (v', { tree with nodes := nodes }) ∧
      Rep H memo nodes.slots disk (.inMemory k) p t ks ∧ (∀ j, j ∉ ks → nodes.slots j = tree.nodes.slots j) ∧
      inv v' ∧ seen v' t ∧ ∀ q s, T.sub q = some s → seen v s → seen v' s

/-- Every node of a way was seen. -/
def Way.Seen {V : Type} (seen : V → Trie Felt → Prop) (v : V) : Way → Trie Felt → Prop
  | [], _ => True
  | (_, f) :: w, t => seen v (f.fill t) ∧ Way.Seen seen v w (f.fill t)

/-- The trie in the focus is the subtrie at its path. -/
theorem Way.sub_plug {w : Way} {t T : Trie Felt} {n : Nat} (hT : w.plug t = T) (hw : T.WF n) :
    T.sub w.path = some t := by
  subst hT
  obtain ⟨m, -, -, hp, -⟩ := Trie.WF.plug w.frames hw
  have := sub_plug_append hp t []
  rwa [List.append_nil, Trie.sub_nil] at this

theorem Way.Seen.mono {V : Type} {seen : V → Trie Felt → Prop} {v v' : V} {w : Way} {t T : Trie Felt} {n : Nat}
    (h : w.Seen seen v t) (hT : w.plug t = T) (hw : T.WF n) (hm : ∀ q s, T.sub q = some s → seen v s → seen v' s) :
    w.Seen seen v' t := by
  induction w generalizing t with
  | nil => trivial
  | cons kf w ih =>
    obtain ⟨k, f⟩ := kf
    exact ⟨hm _ _ (Way.sub_plug (w := w) hT hw) h.1, ih h.2 hT⟩

/-! ## From one key to the next -/

namespace MerkleTreeIterator

theorem sharedPrefixLen_spec (p q : Path) :
    p.take (sharedPrefixLen p q) = q.take (sharedPrefixLen p q) ∧ sharedPrefixLen p q ≤ p.length ∧
      sharedPrefixLen p q ≤ q.length := by
  induction p generalizing q with
  | nil => simp [sharedPrefixLen]
  | cons a p ih =>
    cases q with
    | nil => simp [sharedPrefixLen]
    | cons b q =>
      by_cases hab : a = b
      · subst hab
        obtain ⟨h₁, h₂, h₃⟩ := ih q
        have : sharedPrefixLen (a :: p) (a :: q) = sharedPrefixLen p q + 1 := by simp [sharedPrefixLen]
        rw [this]
        exact ⟨by simp [h₁], by simpa using h₂, by simpa using h₃⟩
      · have : sharedPrefixLen (a :: p) (b :: q) = 0 := by simp [sharedPrefixLen, hab]
        rw [this]
        exact ⟨rfl, by simp, by simp⟩

/-- A path shorter than the shared prefix leads to both ends. -/
theorem prefix_of_lt_sharedPrefixLen {p p' q : Path} (h : p' <+: p) (hl : p'.length < sharedPrefixLen p q) : p' <+: q := by
  obtain ⟨h₁, -, -⟩ := sharedPrefixLen_spec p q
  have : p' <+: p.take (sharedPrefixLen p q) := (List.prefix_take_iff).mpr ⟨h, hl.le⟩
  rw [h₁] at this
  exact this.trans (List.take_prefix ..)

/-- What `traverse_to` gives up before it walks: the nodes that do not start within the prefix the
new key shares. -/
def truncate {V : Type} (key : Path) (it : MerkleTreeIterator V) : MerkleTreeIterator V :=
  let shared := sharedPrefixLen it.currentPath key
  let nodesNewLen := if shared = 0 then 0 else (it.currentNodesHeights.takeWhile (·.2 < shared)).length
  { it with
    currentNodesHeights := it.currentNodesHeights.take nodesNewLen
    currentPath := it.currentPath.take key.length }

theorem truncate_crumbs {V : Type} (key : Path) (it : MerkleTreeIterator V) : (truncate key it).currentNodesHeights =
    it.currentNodesHeights.takeWhile (·.2 < sharedPrefixLen it.currentPath key) := by
  simp only [truncate]
  split
  · rename_i h0
    rw [h0]
    cases it.currentNodesHeights <;> simp
  · exact (List.prefix_iff_eq_take.mp (List.takeWhile_prefix _)).symm

end MerkleTreeIterator

theorem Way.plug_append (w₁ w₂ : Way) (t : Trie Felt) : Way.plug (w₁ ++ w₂) t = Way.plug w₂ (Way.plug w₁ t) := by
  rw [Way.plug, Way.frames, List.map_append, Patricia.plug_append]
  rfl

theorem Way.path_prefix (w₁ w₂ : Way) : Way.path w₂ <+: Way.path (w₁ ++ w₂) := by
  rw [Way.path, Way.path, Way.frames, Way.frames, List.map_append, path_append]
  exact List.prefix_append ..

theorem Way.crumbs_le {w : Way} {c : NodeKey × Nat} (h : c ∈ w.crumbs) : c.2 ≤ w.path.length := by
  induction w with
  | nil => simp [crumbs] at h
  | cons kf w ih =>
    obtain ⟨k, f⟩ := kf
    rw [Way.path_cons, List.length_append]
    rcases List.mem_append.mp h with h | h
    · exact (ih h).trans (by omega)
    · rw [List.mem_singleton] at h; subst h; simp

/-- The crumbs above a depth are those of an outer part of the way. -/
theorem Way.takeWhile_crumbs (w : Way) (d : Nat) :
    ∃ w₁ w₂ : Way, w = w₁ ++ w₂ ∧ w.crumbs.takeWhile (·.2 < d) = w₂.crumbs ∧
      (w₂ = [] ∨ ∃ k f w₃, w₂ = (k, f) :: w₃ ∧ (Way.path w₃).length < d) := by
  induction w with
  | nil => exact ⟨[], [], rfl, rfl, .inl rfl⟩
  | cons kf w ih =>
    obtain ⟨k, f⟩ := kf
    by_cases hd : (Way.path w).length < d
    · refine ⟨[], (k, f) :: w, rfl, List.takeWhile_eq_self_iff.mpr fun c hc => ?_, .inr ⟨k, f, w, rfl, hd⟩⟩
      rcases List.mem_append.mp hc with hc | hc
      · exact decide_eq_true ((Way.crumbs_le hc).trans_lt hd)
      · rw [List.mem_singleton] at hc; subst hc; exact decide_eq_true hd
    · obtain ⟨w₁, w₂, rfl, h₂, h₃⟩ := ih
      refine ⟨(k, f) :: w₁, w₂, rfl, ?_, h₃⟩
      rw [← h₂, crumbs, List.takeWhile_append]
      split
      · rename_i hall
        rw [List.takeWhile_cons_of_neg (by simpa using hd), List.append_nil]
        exact ((List.takeWhile_prefix _).eq_of_length hall).symm
      · rfl

theorem Way.Seen.outer {V : Type} {seen : V → Trie Felt → Prop} {v : V} {w₁ w₂ : Way} {t : Trie Felt} (hs : Way.Seen seen v (w₁ ++ w₂) t) : Way.Seen seen v w₂ (w₁.plug t) := by
  induction w₁ generalizing t with
  | nil => exact hs
  | cons kf w₁ ih => exact ih hs.2

section Walk

variable [FeltCodec] {DB ID V : Type} [BonsaiDatabase DB] [InfallibleDatabase DB] {db : KeyValueDB DB ID}
  {H : StarkHash} {memo : Memo} {root h : NodeHandle} {key : Path} {t T : Trie Felt} {w : Way} {k : NodeKey}
  {ks ks' : List NodeKey} {inv : V → Prop} {seen : V → Trie Felt → Prop}
  {visit : NodeVisitor (BonsaiDatabase.DatabaseError DB) V}

/-- The iterator is on a way through the trie, all of whose nodes were seen. -/
structure Trail (H : StarkHash) (memo : Memo) (db : KeyValueDB DB ID) (T : Trie Felt) (seen : V → Trie Felt → Prop)
    (it : MerkleTreeIterator V) (w : Way) (h : NodeHandle) (t : Trie Felt) (ks ks' : List NodeKey) : Prop where
  focus : ∃ k, it.tree.rootNode = some (.loaded k) ∧
    Focus H memo it.tree.nodes.slots (it.tree.disk db.columns) (.inMemory k) w h t ks ks'
  path : it.currentPath = w.path
  crumbs : it.currentNodesHeights = w.crumbs
  plug : w.plug t = T
  shown : w.Seen seen it.visitor t

/-- What a walk changes: nodes are loaded, and others seen. -/
structure Walks (T : Trie Felt) (inv : V → Prop) (seen : V → Trie Felt → Prop) (it it' : MerkleTreeIterator V) :
    Prop where
  tree : ∃ nodes, it'.tree = { it.tree with nodes := nodes, rootNode := it'.tree.rootNode }
  inv : inv it'.visitor
  mono : ∀ q s, T.sub q = some s → seen it.visitor s → seen it'.visitor s

omit [FeltCodec] [BonsaiDatabase DB] [InfallibleDatabase DB] in
theorem Walks.trans {it it' it'' : MerkleTreeIterator V} (h : Walks T inv seen it it') (h' : Walks T inv seen it' it'') :
    Walks T inv seen it it'' := by
  obtain ⟨nodes, ht⟩ := h.tree
  obtain ⟨nodes', ht'⟩ := h'.tree
  exact ⟨⟨nodes', by rw [ht', ht]⟩, h'.inv, fun q s hq hs => h'.mono q s hq (h.mono q s hq hs)⟩

namespace MerkleTreeIterator

/-- `traverse_to` from a node that was shown, which starts at depth `d`. -/
def fromNode (db : KeyValueDB DB ID) (visit : NodeVisitor (BonsaiDatabase.DatabaseError DB) V) (key : Path) (fuel : Nat)
    (nodeId : NodeKey) (d : Nat) : M (BonsaiDatabase.DatabaseError DB) V Unit := do
  let next ← traverseOne db nodeId d key
  traverseLoop db visit key fuel next

/-- `traverse_to` from the root. -/
def fromRoot (db : KeyValueDB DB ID) (visit : NodeVisitor (BonsaiDatabase.DatabaseError DB) V) (key : Path) :
    M (BonsaiDatabase.DatabaseError DB) V Unit := do
  modify fun it => { it with currentPath := [] }
  match ← onTree (MerkleTree.loadRootNode db) with
  | none => modify fun it => { it with leafHash := none }
  | some nodeId => traverseLoop db visit key (key.length + 1) (some nodeId)

omit [InfallibleDatabase DB] in
/-- A turn of the loop, once the visitor was shown the node. -/
theorem traverseLoop_visit {fuel d : Nat} {it : MerkleTreeIterator V} {v : V} {tree : MerkleTree}
    (hd : it.currentPath.length = d) (hv : visit k d (it.visitor, it.tree) = .ok () (v, tree)) :
    traverseLoop db visit key (fuel + 1) (some k) it = fromNode db visit key fuel k d { it with tree := tree, visitor := v } := by
  subst hd
  have hvn : (visitNode visit k it.currentPath.length : M (BonsaiDatabase.DatabaseError DB) V Unit) it =
      .ok () { it with visitor := v, tree := tree } := by
    rw [visitNode, hv]
  exact bind_ok hvn _

/-- A step from a node that was seen, and the visit to the node it leads to. -/
theorem step_ok (hv : Visits H memo T key inv seen visit) (hlaw : memo.Lawful H) (hw : T.WF key.length)
    (hn : key.length ≤ 255) {it : MerkleTreeIterator V} (hit : Trail H memo db T seen it w (.inMemory k) t ks ks')
    (hI : inv it.visitor) (hs : seen it.visitor t) (hp : w.path <+: key) (hlt : w.path.length < key.length) :
    ∃ r it₁, traverseOne db k w.path.length key it = .ok r it₁ ∧
      ((r = none ∧ ∃ f h s ks₁ ks₂, Trail H memo db T seen it₁ ((k, f) :: w) h s ks₁ ks₂ ∧ Ended key ((k, f) :: w) ∧
          Walks T inv seen it it₁) ∨
        ∃ kn v tree f s ks₁ ks₂, r = some kn ∧ it₁.currentPath = Way.path ((k, f) :: w) ∧
          visit kn (Way.path ((k, f) :: w)).length (it₁.visitor, it₁.tree) = .ok () (v, tree) ∧
          Trail H memo db T seen { it₁ with tree := tree, visitor := v } ((k, f) :: w) (.inMemory kn) s ks₁ ks₂ ∧
          seen v s ∧ Way.path ((k, f) :: w) <+: key ∧ (Way.path ((k, f) :: w)).length < key.length ∧
          w.path.length < (Way.path ((k, f) :: w)).length ∧ Walks T inv seen it { it₁ with tree := tree, visitor := v }) := by
  obtain ⟨⟨k₀, hroot, hF⟩, hpath, hcr, hT, hsw⟩ := hit
  have hw' : (Patricia.plug w.frames t).WF key.length := by rw [show Patricia.plug w.frames t = T from hT]; exact hw
  obtain ⟨m, hm, ht, -⟩ := hw'.plug w.frames
  have hm : key.length = w.path.length + m := hm
  obtain ⟨f, s, h, nodes, r, lh, ks₁, ks₂, rfl, hone, hF', -, hr⟩ :=
    traverseOne_ok db hF hlaw ht (by omega) hm.le hpath hp hlt
  refine ⟨r, _, hone, ?_⟩
  rcases hr with ⟨rfl, hend, -⟩ | ⟨kn, rfl, rfl, hp', hlt'⟩
  · exact .inl ⟨rfl, f, h, s, ks₁, ks₂, ⟨⟨k₀, hroot, hF'⟩, rfl, by rw [hcr]; rfl, hT, ⟨hs, hsw⟩⟩, hend,
      ⟨⟨nodes, rfl⟩, hI, fun _ _ _ h => h⟩⟩
  · have hsub : T.sub (Way.path ((k, f) :: w)) = some s := Way.sub_plug (w := (k, f) :: w) hT hw
    obtain ⟨v', nodes', hvis, hrep, hkeep, hI', hseen, hmono⟩ := hv it.visitor { it.tree with nodes := nodes } _ kn _ s
      ks₂ hF'.rep (List.nodup_append.mp hF'.nodup).2.1 hsub hp' hI
    have hpos : 0 < f.tip.length := by
      rcases f with r | l | q
      · simp [Frame.tip]
      · simp [Frame.tip]
      · exact List.length_pos_of_ne_nil ht.edge_inv.choose_spec.2.1
    exact .inr ⟨kn, v', { it.tree with nodes := nodes' }, f, s, ks₁, ks₂, rfl, rfl, hvis,
      ⟨⟨k₀, hroot, hF'.below hrep hkeep⟩, rfl, by rw [hcr]; rfl, hT,
        Way.Seen.mono (w := (k, f) :: w) ⟨hs, hsw⟩ hT hw hmono⟩,
      hseen, hp', hlt', by simp only [Way.path_cons, List.length_append]; omega, ⟨⟨nodes', rfl⟩, hI', hmono⟩⟩

/-- From a node that was seen, to the end. -/
theorem walk_ok (hv : Visits H memo T key inv seen visit) (hlaw : memo.Lawful H) (hw : T.WF key.length)
    (hn : key.length ≤ 255) (fuel : Nat) {it : MerkleTreeIterator V}
    (hit : Trail H memo db T seen it w (.inMemory k) t ks ks') (hI : inv it.visitor) (hs : seen it.visitor t)
    (hp : w.path <+: key) (hlt : w.path.length < key.length) (hfuel : key.length ≤ w.path.length + fuel) :
    ∃ it' w' h s ks₁ ks₂, fromNode db visit key fuel k w.path.length it = .ok () it' ∧
      Trail H memo db T seen it' w' h s ks₁ ks₂ ∧ Ended key w' ∧ w' ≠ [] ∧ Walks T inv seen it it' := by
  induction fuel generalizing it w t k ks ks' with
  | zero => omega
  | succ fuel ih =>
    obtain ⟨r, it₁, hone, ⟨rfl, f, h, s, ks₁, ks₂, hit₁, hend, hwalk⟩ |
      ⟨kn, v, tree, f, s, ks₁, ks₂, rfl, hpath, hvis, hit₂, hs₂, hp', hlt', hmore, hwalk⟩⟩ :=
      step_ok hv hlaw hw hn hit hI hs hp hlt
    · exact ⟨it₁, (k, f) :: w, h, s, ks₁, ks₂, (bind_ok hone _).trans rfl, hit₁, hend, by simp, hwalk⟩
    · obtain ⟨it', w', h', s', ks₃, ks₄, hrun, hit', hend, hne, hwalk'⟩ :=
        ih hit₂ hwalk.inv hs₂ hp' hlt' (by omega)
      refine ⟨it', w', h', s', ks₃, ks₄, ?_, hit', hend, hne, hwalk.trans hwalk'⟩
      exact (bind_ok hone _).trans ((traverseLoop_visit (by rw [hpath]) hvis).trans hrun)

end MerkleTreeIterator

/-- Up, out of the inner part of a way. -/
theorem Focus.up_append {nodes : NodeKey → Option Node} {disk : Disk} (w₁ w₂ : Way)
    (hF : Focus H memo nodes disk root (w₁ ++ w₂) h t ks ks') :
    ∃ h' ks₁ ks₂, Focus H memo nodes disk root w₂ h' (w₁.plug t) ks₁ ks₂ := by
  induction w₁ generalizing h t ks ks' with
  | nil => exact ⟨h, ks, ks', hF⟩
  | cons kf w₁ ih =>
    obtain ⟨k, f⟩ := kf
    obtain ⟨_, _, hF⟩ := hF.up
    exact ih hF

/-- Up to the root. -/
theorem Focus.up_root {nodes : NodeKey → Option Node} {disk : Disk}
    (hF : Focus H memo nodes disk root w h t ks ks') : ∃ ks₁, Focus H memo nodes disk root [] root (w.plug t) [] ks₁ := by
  obtain ⟨h', ks₁, ks₂, hF⟩ := Focus.up_append w [] (by rwa [List.append_nil])
  cases hF.ctx
  exact ⟨ks₂, hF⟩

namespace MerkleTreeIterator

/-- The root is loaded, and the visitor is shown it. -/
theorem rootStep_ok (hv : Visits H memo T key inv seen visit) (hlaw : memo.Lawful H) (hw : T.WF key.length)
    (hn : key.length ≤ 255) (hpos : 0 < key.length) (it : MerkleTreeIterator V)
    (hr : Rooted H memo it.tree.nodes.slots (it.tree.disk db.columns) it.tree.rootNode (some T))
    (hcr : it.currentNodesHeights = []) (hI : inv it.visitor) :
    ∃ k it₁ v tree ks, (onTree (MerkleTree.loadRootNode db) : M (BonsaiDatabase.DatabaseError DB) V _)
        { it with currentPath := [] } = .ok (some k) it₁ ∧
      it₁.currentPath = [] ∧ visit k 0 (it₁.visitor, it₁.tree) = .ok () (v, tree) ∧
      Trail H memo db T seen { it₁ with tree := tree, visitor := v } [] (.inMemory k) T [] ks ∧ seen v T ∧
      Walks T inv seen it { it₁ with tree := tree, visitor := v } := by
  obtain ⟨k, nodes, ks, hload, hF, -⟩ := loadRootNode_ok hr hlaw hw hn hpos
  obtain ⟨v', nodes', hvis, hrep, hkeep, hI', hseen, hmono⟩ :=
    hv it.visitor { it.tree with nodes := nodes, rootNode := some (.loaded k) } _ k [] T ks hF.rep
      (by simpa using hF.nodup) (Trie.sub_nil T) List.nil_prefix hI
  exact ⟨k, _, v', _, ks, onTree_ok (i := { it with currentPath := [] }) hload, rfl, hvis,
    ⟨⟨k, rfl, hF.below hrep hkeep⟩, rfl, hcr, rfl, trivial⟩, hseen, ⟨⟨nodes', rfl⟩, hI', hmono⟩⟩

/-- A walk from the root. -/
theorem traverseRoot_ok (hv : Visits H memo T key inv seen visit) (hlaw : memo.Lawful H) (hw : T.WF key.length)
    (hn : key.length ≤ 255) (hpos : 0 < key.length) (it : MerkleTreeIterator V)
    (hr : Rooted H memo it.tree.nodes.slots (it.tree.disk db.columns) it.tree.rootNode (some T))
    (hcr : it.currentNodesHeights = []) (hI : inv it.visitor) :
    ∃ it' w' h s ks₁ ks₂, fromRoot db visit key it = .ok () it' ∧
      Trail H memo db T seen it' w' h s ks₁ ks₂ ∧ Ended key w' ∧ w' ≠ [] ∧ Walks T inv seen it it' := by
  obtain ⟨k, it₁, v, tree, ks, hload, hpath, hvis, hit₂, hs₂, hwalk⟩ := rootStep_ok hv hlaw hw hn hpos it hr hcr hI
  obtain ⟨it', w', h', s', ks₃, ks₄, hrun, hit', hend, hne, hwalk'⟩ :=
    walk_ok hv hlaw hw hn key.length hit₂ hwalk.inv hs₂ List.nil_prefix hpos (by simp)
  refine ⟨it', w', h', s', ks₃, ks₄, ?_, hit', hend, hne, hwalk.trans hwalk'⟩
  refine Eq.trans (bind_ok (modify_run _ it) _) ?_
  refine Eq.trans (bind_ok hload _) ?_
  exact (traverseLoop_visit (by rw [hpath]; rfl) hvis).trans hrun

/-- The iterator before a walk: it has not moved, or is where the last walk left it. -/
inductive Ready (H : StarkHash) (memo : Memo) (db : KeyValueDB DB ID) (T : Trie Felt) (seen : V → Trie Felt → Prop)
    (it : MerkleTreeIterator V) : Prop where
  | start : Rooted H memo it.tree.nodes.slots (it.tree.disk db.columns) it.tree.rootNode (some T) →
      it.currentPath = [] → it.currentNodesHeights = [] → Ready H memo db T seen it
  | on {w : Way} {h : NodeHandle} {t : Trie Felt} {ks ks' : List NodeKey} :
      Trail H memo db T seen it w h t ks ks' → Ready H memo db T seen it

/-- Between two walks the root stands for the trie. -/
theorem Ready.rooted {it : MerkleTreeIterator V} (hit : Ready H memo db T seen it) :
    Rooted H memo it.tree.nodes.slots (it.tree.disk db.columns) it.tree.rootNode (some T) := by
  cases hit with
  | start hr => exact hr
  | on hit =>
    obtain ⟨⟨k, hroot, hF⟩, -, -, hplug, -⟩ := hit
    obtain ⟨ks, hF⟩ := hF.up_root
    rw [hroot, ← hplug]
    exact .loaded hF

/-- `traverse_to`, once the last walk is cut. -/
def resume (db : KeyValueDB DB ID) (visit : NodeVisitor (BonsaiDatabase.DatabaseError DB) V) (key : Path) :
    M (BonsaiDatabase.DatabaseError DB) V Unit := do
  match (← get).currentNodesHeights.getLast? with
  | some (nodeId, height) =>
    modify fun it => { it with
      currentNodesHeights := it.currentNodesHeights.dropLast
      currentPath := it.currentPath.take height }
    let next ← traverseOne db nodeId height key
    traverseLoop db visit key (key.length + 1) next
  | none =>
    modify fun it => { it with currentPath := [] }
    match ← onTree (MerkleTree.loadRootNode db) with
    | none => modify fun it => { it with leafHash := none }
    | some nodeId => traverseLoop db visit key (key.length + 1) (some nodeId)

omit [InfallibleDatabase DB] in
theorem traverseTo_eq (hpos : 0 < key.length) (it : MerkleTreeIterator V) :
    traverseTo db visit key it = resume db visit key (truncate key it) := by
  have hne : key.isEmpty = false := by simpa using List.ne_nil_of_length_pos hpos
  rw [traverseTo, if_neg (by simp [hne])]
  exact bind_ok (modify_run _ it) _

omit [InfallibleDatabase DB] in
/-- From the root, once nothing is left of the last walk. -/
theorem traverseTo_eq_fromRoot (hpos : 0 < key.length) {it : MerkleTreeIterator V}
    (hcr : (truncate key it).currentNodesHeights = []) :
    traverseTo db visit key it = fromRoot db visit key (truncate key it) := by
  rw [traverseTo_eq hpos, resume, bind_ok (get_run _)]
  simp only [hcr, List.getLast?_nil]
  rfl

omit [InfallibleDatabase DB] in
/-- From the last node that is left of it. -/
theorem traverseTo_eq_fromNode (hpos : 0 < key.length) {it : MerkleTreeIterator V}
    (hcr : (truncate key it).currentNodesHeights = Way.crumbs ((k, f) :: w)) :
    traverseTo db visit key it = fromNode db visit key (key.length + 1) k w.path.length { truncate key it with
      currentNodesHeights := (truncate key it).currentNodesHeights.dropLast
      currentPath := (truncate key it).currentPath.take w.path.length } := by
  have hlast : (truncate key it).currentNodesHeights.getLast? = some (k, w.path.length) := by
    rw [hcr, Way.getLast?_crumbs]
  rw [traverseTo_eq hpos, resume, bind_ok (get_run _)]
  simp only [hlast]
  rfl

/-- Where a walk starts: at the root, or at the last node within the shared prefix, which was seen. -/
theorem Ready.cases {it : MerkleTreeIterator V} (hit : Ready H memo db T seen it) :
    (Rooted H memo it.tree.nodes.slots (it.tree.disk db.columns) it.tree.rootNode (some T) ∧
        (truncate key it).currentNodesHeights = []) ∨
      ∃ k f, ∃ w : Way, ∃ t ks ks', (truncate key it).currentNodesHeights = Way.crumbs ((k, f) :: w) ∧
        Trail H memo db T seen { truncate key it with
          currentNodesHeights := (truncate key it).currentNodesHeights.dropLast
          currentPath := (truncate key it).currentPath.take w.path.length } w (.inMemory k) t ks ks' ∧
        seen it.visitor t ∧ w.path <+: key ∧ w.path.length < key.length := by
  cases hit with
  | start hr hpath hcr => exact .inl ⟨hr, by rw [truncate_crumbs, hcr]; rfl⟩
  | @on w h t ks ks' hit =>
    obtain ⟨⟨k₀, hroot, hF⟩, hpath, hcr, hT, hsw⟩ := hit
    obtain ⟨w₁, w₂, rfl, hcr₂, hw₂⟩ := Way.takeWhile_crumbs w (sharedPrefixLen w.path key)
    have hcr' : (truncate key it).currentNodesHeights = w₂.crumbs := by rw [truncate_crumbs, hpath, hcr, hcr₂]
    obtain ⟨h₂, ks₁, ks₂, hF₂⟩ := hF.up_append w₁ w₂
    rw [Way.plug_append] at hT
    rcases hw₂ with rfl | ⟨k, f, w₃, rfl, hlt⟩
    · -- nothing is shared: the walk starts at the root again
      obtain rfl : w₁.plug t = T := hT
      refine .inl ⟨?_, hcr'⟩
      rw [hroot]
      cases hF₂.ctx
      exact .loaded hF₂
    · have hpre : Way.path w₃ <+: it.currentPath := by
        rw [hpath, show w₁ ++ (k, f) :: w₃ = (w₁ ++ [(k, f)]) ++ w₃ by simp]
        exact Way.path_prefix ..
      have hkey : Way.path w₃ <+: key := prefix_of_lt_sharedPrefixLen (hpath ▸ hpre) hlt
      have hlt' : (Way.path w₃).length < key.length := hlt.trans_le (sharedPrefixLen_spec _ _).2.2
      obtain ⟨ks₃, ks₄, hF₃⟩ := hF₂.up
      have hpath₂ : (truncate key it).currentPath.take (Way.path w₃).length = Way.path w₃ := by
        have := List.prefix_iff_eq_take.mp hpre
        simp only [truncate, List.take_take, Nat.min_eq_left hlt'.le]
        exact this.symm
      have hsw₂ := Way.Seen.outer hsw
      exact .inr ⟨k, f, w₃, f.fill (w₁.plug t), ks₃, ks₄, hcr',
        ⟨⟨k₀, hroot, hF₃⟩, hpath₂, by simp [hcr', Way.crumbs], hT, hsw₂.2⟩, hsw₂.1, hkey, hlt'⟩

/-- A whole walk. -/
theorem traverseTo_ok (hv : Visits H memo T key inv seen visit) (hlaw : memo.Lawful H) (hw : T.WF key.length)
    (hn : key.length ≤ 255) (hpos : 0 < key.length) (it : MerkleTreeIterator V) (hit : Ready H memo db T seen it)
    (hI : inv it.visitor) :
    ∃ it' w' h s ks₁ ks₂, traverseTo db visit key it = .ok () it' ∧
      Trail H memo db T seen it' w' h s ks₁ ks₂ ∧ Ended key w' ∧ w' ≠ [] ∧ Walks T inv seen it it' := by
  rcases hit.cases with ⟨hr, hcr⟩ | ⟨k, f, w, t, ks, ks', hcr, hit', hs, hp, hlt⟩
  · rw [traverseTo_eq_fromRoot hpos hcr]
    obtain ⟨it', w', h, s, ks₁, ks₂, hrun, hit', hend, hne, ⟨htree, hI', hmono⟩⟩ :=
      traverseRoot_ok hv hlaw hw hn hpos (truncate key it) hr hcr hI
    exact ⟨it', w', h, s, ks₁, ks₂, hrun, hit', hend, hne, ⟨htree, hI', hmono⟩⟩
  · rw [traverseTo_eq_fromNode hpos hcr]
    obtain ⟨it', w', h, s, ks₁, ks₂, hrun, hit', hend, hne, ⟨htree, hI', hmono⟩⟩ :=
      walk_ok hv hlaw hw hn (key.length + 1) hit' hI hs hp hlt (by omega)
    exact ⟨it', w', h, s, ks₁, ks₂, hrun, hit', hend, hne, ⟨htree, hI', hmono⟩⟩

end MerkleTreeIterator

end Walk

end Bonsai
