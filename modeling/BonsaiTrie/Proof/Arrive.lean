import BonsaiTrie.Proof.Traverse

/-!
# Where a seek arrives

A seek leaves the iterator on the way that the key itself tells (`Arrived`),
wherever it was before: it starts over at the root, or at the last node that
the last key and the new one share (`seekTo_ready`). The nodes loaded on the
way leave what the tree knows as it was.
-/

namespace Bonsai

open Patricia Run MerkleTree MerkleTreeIterator

section

variable [FeltCodec] {DB ID : Type} [BonsaiDatabase DB] [InfallibleDatabase DB] {db : KeyValueDB DB ID}
  {H : StarkHash} {memo : Memo} {n : Nat} {key : Path} {t T : Trie Felt} {w : Way} {k : NodeKey} {h : NodeHandle}
  {ks ks' : List NodeKey}

omit [FeltCodec] in
theorem Way.seen_true {V : Type} (v : V) (w : Way) (t : Trie Felt) : Way.Seen (fun _ _ => True) v w t := by
  induction w generalizing t with
  | nil => trivial
  | cons kf w ih => exact ⟨trivial, ih _⟩

omit [FeltCodec] in
theorem known_loaded {tree : MerkleTree} (hroot : tree.rootNode = some (.loaded k)) (q : Path) :
    tree.known H T q = hashAt H tree.nodes.slots T (.inMemory k) q := by
  rw [known, hroot]

/-- The iterator is where the key leads: at its end, or at the edge it leaves. -/
def Arrived (H : StarkHash) (memo : Memo) (db : KeyValueDB DB ID) (T : Trie Felt) (key : Path)
    (it : MerkleTreeIterator Unit) : Prop :=
  ∃ k f, ∃ w : Way, ∃ h s ks ks', Trail H memo db T (fun _ _ => True) it ((k, f) :: w) h s ks ks' ∧
    w.path <+: key ∧ w.path.length < key.length ∧ Ended key ((k, f) :: w) ∧
    it.leafHash = if Way.path ((k, f) :: w) = key then h.asHash else none

/-- What a seek leaves: nodes are loaded, and the tree knows what it knew. -/
structure Sighted (H : StarkHash) (T : Trie Felt) (tree tree' : MerkleTree) : Prop where
  frame : ∃ nodes, tree' = { tree with nodes := nodes, rootNode := tree'.rootNode }
  known : ∀ q, tree'.known H T q = tree.known H T q

omit [FeltCodec] in
theorem Sighted.trans {tree tree' tree'' : MerkleTree} (h : Sighted H T tree tree') (h' : Sighted H T tree' tree'') :
    Sighted H T tree tree'' := by
  obtain ⟨nodes, ht⟩ := h.frame
  obtain ⟨nodes', ht'⟩ := h'.frame
  exact ⟨⟨nodes', by rw [ht', ht]⟩, fun q => (h'.known q).trans (h.known q)⟩

/-- From a node on the way of the key, to its end. -/
theorem seekFrom_ok (hlaw : memo.Lawful H) (hw : T.WF n) (hn : n ≤ 255) (hkey : key.length ≤ n) (fuel : Nat)
    {it : MerkleTreeIterator Unit} (hit : Trail H memo db T (fun _ _ => True) it w (.inMemory k) t ks ks')
    (hp : w.path <+: key) (hlt : w.path.length < key.length) (hfuel : key.length ≤ w.path.length + fuel) :
    ∃ it', fromNode db noopVisitor key fuel k w.path.length it = .ok () it' ∧ Arrived H memo db T key it' ∧
      Sighted H T it.tree it'.tree := by
  induction fuel generalizing it w t k ks ks' with
  | zero => omega
  | succ fuel ih =>
    obtain ⟨⟨k₀, hroot, hF⟩, hpath, hcr, hT, -⟩ := hit
    have hw' : (Patricia.plug w.frames t).WF n := by rw [show Patricia.plug w.frames t = T from hT]; exact hw
    obtain ⟨m, hm, ht, -⟩ := hw'.plug w.frames
    have hm : n = w.path.length + m := hm
    obtain ⟨f, s, h, nodes, r, lh, ks₁, ks₂, rfl, hone, hF', hknown, hr⟩ :=
      traverseOne_ok db hF hlaw ht (by omega) (by omega) hpath hp hlt
    have hkeep : Sighted H T it.tree { it.tree with nodes := nodes } := by
      have hroot' : ({ it.tree with nodes := nodes } : MerkleTree).rootNode = some (.loaded k₀) := hroot
      refine ⟨⟨nodes, rfl⟩, fun q => ?_⟩
      rw [known_loaded hroot', known_loaded hroot, ← hT]
      exact hknown q
    let it₁ : MerkleTreeIterator Unit := { it with
      tree := { it.tree with nodes := nodes }
      currentPath := Way.path ((k, f) :: w)
      currentNodesHeights := it.currentNodesHeights ++ [(k, w.path.length)]
      leafHash := lh }
    have hit₁ : Trail H memo db T (fun _ _ => True) it₁ ((k, f) :: w) h s ks₁ ks₂ :=
      ⟨⟨k₀, hroot, hF'⟩, rfl, by simp only [it₁, hcr]; rfl, hT, Way.seen_true _ _ _⟩
    obtain ⟨rfl, hend, hleaf⟩ | ⟨kn, rfl, rfl, hp', hlt'⟩ := hr
    · exact ⟨it₁, (bind_ok hone _).trans rfl, ⟨k, f, w, h, s, ks₁, ks₂, hit₁, hp, hlt, hend, hleaf⟩, hkeep⟩
    · have hpos : w.path.length < (Way.path ((k, f) :: w)).length := by
        obtain ⟨-, -, -, hproper, -⟩ := Trie.WF.plug [f] ht
        have := List.length_pos_iff.mpr (hproper f List.mem_cons_self)
        rw [Way.path_cons, List.length_append]
        omega
      obtain ⟨it', hrun, harr, hkeep'⟩ := ih hit₁ hp' hlt' (by omega)
      refine ⟨it', ?_, harr, hkeep.trans hkeep'⟩
      have hvisit : traverseLoop db noopVisitor key (fuel + 1) (some kn) it₁ =
          fromNode db noopVisitor key fuel kn (Way.path ((k, f) :: w)).length it₁ := traverseLoop_visit rfl rfl
      exact (bind_ok hone _).trans (hvisit.trans hrun)

/-- From the root. -/
theorem seekRoot_ok (hlaw : memo.Lawful H) (hw : T.WF n) (hn : n ≤ 255) (hkey : key.length ≤ n) (hpos : 0 < key.length)
    {it : MerkleTreeIterator Unit}
    (hr : Rooted H memo it.tree.nodes.slots (it.tree.disk db.columns) it.tree.rootNode (some T))
    (hcr : it.currentNodesHeights = []) :
    ∃ it', fromRoot db noopVisitor key it = .ok () it' ∧ Arrived H memo db T key it' ∧
      Sighted H T it.tree it'.tree := by
  obtain ⟨k, nodes, ks, hload, hF, hfrom⟩ := loadRootNode_ok hr hlaw hw hn (by omega)
  let it₁ : MerkleTreeIterator Unit := { it with
    tree := { it.tree with nodes := nodes, rootNode := some (.loaded k) }
    currentPath := [] }
  have hit₁ : Trail H memo db T (fun _ _ => True) it₁ [] (.inMemory k) T [] ks :=
    ⟨⟨k, rfl, hF⟩, rfl, hcr, rfl, trivial⟩
  have hkeep : Sighted H T it.tree it₁.tree := by
    refine ⟨⟨nodes, rfl⟩, fun q => ?_⟩
    rw [known_loaded (k := k) rfl]
    rcases hfrom with ⟨hroot, rfl⟩ | ⟨hroot, node, hnode, hk⟩
    · rw [known_loaded hroot]
    · rw [known, hroot]
      exact hashAt_loaded hnode hk q
  obtain ⟨it', hrun, harr, hkeep'⟩ := seekFrom_ok hlaw hw hn hkey key.length hit₁ List.nil_prefix hpos (by simp [Way.path])
  refine ⟨it', ?_, harr, hkeep.trans hkeep'⟩
  refine Eq.trans (bind_ok (modify_run _ it) _) ?_
  refine Eq.trans (bind_ok (onTree_ok (i := { it with currentPath := [] }) hload) _) ?_
  have hvisit : traverseLoop db noopVisitor key (key.length + 1) (some k) it₁ =
      fromNode db noopVisitor key key.length k 0 it₁ := traverseLoop_visit rfl rfl
  exact hvisit.trans hrun

/-- From anywhere. -/
theorem seekTo_ready (hlaw : memo.Lawful H) (hw : T.WF n) (hn : n ≤ 255) (hkey : key.length ≤ n) (hpos : 0 < key.length)
    {it : MerkleTreeIterator Unit} (hit : Ready H memo db T (fun _ _ => True) it) :
    ∃ it', MerkleTreeIterator.seekTo db key it = .ok () it' ∧ Arrived H memo db T key it' ∧
      Sighted H T it.tree it'.tree := by
  rw [MerkleTreeIterator.seekTo]
  rcases hit.cases with ⟨hr, hcr⟩ | ⟨k, f, w, t, ks, ks', hcr, hit', -, hp, hlt⟩
  · rw [traverseTo_eq_fromRoot hpos hcr]
    have hr : Rooted H memo (truncate key it).tree.nodes.slots ((truncate key it).tree.disk db.columns)
        (truncate key it).tree.rootNode (some T) := hr
    exact seekRoot_ok hlaw hw hn hkey hpos hr hcr
  · rw [traverseTo_eq_fromNode hpos hcr]
    exact seekFrom_ok hlaw hw hn hkey (key.length + 1) hit' hp hlt (by omega)

end

end Bonsai
