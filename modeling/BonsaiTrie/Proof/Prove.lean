import BonsaiTrie.Proof.Calls

/-!
# What a multi-proof has

The nodes of a multi-proof of a tree at rest are those of the search paths of
the keys, each under its hash (`getMultiProof_lookup`), whatever earlier
requests for proofs have loaded.
-/

namespace Bonsai

open Patricia Run

/-- The node of a proof that stands for the node at the top of a trie. -/
def proofNodeOf (H : StarkHash) : Trie Felt → Option ProofNode
  | .leaf _ => none
  | .binary l r => some (.binary (merkleHash H l) (merkleHash H r))
  | .edge q c => some (.edge (merkleHash H c) q)

/-- Nodes of the trie with the same hash are the same. -/
def NoCollision (H : StarkHash) (t : Trie Felt) : Prop :=
  ∀ p q s s', t.sub p = some s → t.sub q = some s' → ¬ s.IsLeaf → ¬ s'.IsLeaf → merkleHash H s = merkleHash H s' →
    proofNodeOf H s = proofNodeOf H s'

/-- The tree has nothing in memory, and the database has the nodes of a trie of its height, as a commit
writes them, and no other nodes of the tree. -/
structure AtRest [FeltCodec] (H : StarkHash) (cols : Columns) (tree : MerkleTree) (t : Trie Felt) : Prop where
  idle : tree.Idle
  wf : t.WF tree.maxHeight.toNat
  nodes : ∀ p : Path, p.length ≤ tree.maxHeight.toNat →
    cols (.trie (tree.identifier ++ p.encode)) = (t.sub p).bind (storedBytes H p.length)

section

variable [FeltCodec] {DB ID : Type} [BonsaiDatabase DB] [InfallibleDatabase DB] {db : KeyValueDB DB ID} {H : StarkHash}
  {memo : Memo} {n : Nat} {tree : MerkleTree} {t s : Trie Felt} {cols : Columns}

omit [FeltCodec] in
theorem proofNodeOf_isSome (hs : ¬ s.IsLeaf) : ∃ pn, proofNodeOf H s = some pn := by
  cases s with
  | leaf v => exact (hs trivial).elim
  | binary l r => exact ⟨_, rfl⟩
  | edge q c => exact ⟨_, rfl⟩

omit [FeltCodec] in
theorem Proves.eq {pn : ProofNode} (h : Proves (trueMemo H) s pn) : proofNodeOf H s = some pn := by
  cases s with
  | leaf v => exact h.elim
  | binary l r =>
    cases pn with
    | binary a b => obtain ⟨rfl, rfl⟩ := h; rfl
    | edge a q => exact h.elim
  | edge q c =>
    cases pn with
    | binary a b => exact h.elim
    | edge a q => obtain ⟨rfl, rfl⟩ := h; rfl

/-- What is in the database stands for the trie. -/
theorem stored_of_sub {disk : Disk} (ht : t.WF n) {p : Path}
    (h : ∀ r s, t.sub r = some s → ¬ s.IsLeaf → disk (p ++ r) = storedBytes H (p ++ r).length s) : Stored H disk p t := by
  induction ht generalizing p with
  | leaf v => trivial
  | @binary m l r _ _ ihl ihr =>
    refine ⟨by simpa using h [] _ (Trie.sub_nil _) id, ihl fun q s hq hl => ?_, ihr fun q s hq hl => ?_⟩
    · simpa using h (false :: q) s hq hl
    · simpa using h (true :: q) s hq hl
  | @edge m q c hq _ _ ih =>
    refine ⟨by simpa using h [] _ (Trie.sub_nil _) id, ih fun r s hr hl => ?_⟩
    simpa using h (q ++ r) s ((Trie.sub_edge_append c r hq).trans hr) hl

/-- A tree at rest stands for its trie. -/
theorem AtRest.treeRep (h : AtRest H cols tree t) : TreeRep H memo tree.maxHeight.toNat cols tree (some t) := by
  have hd (p : Path) : tree.disk cols p = cols (.trie (tree.identifier ++ p.encode)) := by
    rw [MerkleTree.disk, h.idle.deathRow, AList.lookup_empty, if_neg (by simp)]
  refine ⟨rfl, ?_, by rintro _ ⟨⟩; exact h.wf, fun p hp hs => ?_, fun b => by rw [h.idle.deathRow]; rfl⟩
  · rw [h.idle.root]
    refine .unloaded ⟨.nil, .stored (stored_of_sub h.wf fun r s hr hl => ?_), by simp, fun j => by simp [h.idle.nodes]⟩
    obtain ⟨m, hm, -⟩ := h.wf.sub hr
    show tree.disk cols r = storedBytes H r.length s
    rw [hd, h.nodes r (by omega), hr]
    rfl
  · rw [hd, h.nodes p hp] at hs
    cases hsub : t.sub p with
    | none => rw [hsub] at hs; cases hs
    | some s =>
      refine ⟨t, rfl, s, hsub, ?_⟩
      rw [hsub] at hs
      intro hl
      cases s with
      | leaf v => cases hs
      | binary l r => exact hl
      | edge q c => exact hl

/-- What a request for a proof puts in its map. -/
theorem TreeRep.getMultiProof_lookup (hR : TreeRep H (trueMemo H) n db.columns tree (some t)) (hpos : 0 < n)
    (hcol : NoCollision H t) {keys : List BitSlice} (hkeys : ∀ key ∈ keys, key.len = n) :
    ∃ proof nodes root, MerkleTree.getMultiProof H db keys tree = .ok proof { tree with nodes := nodes, rootNode := root } ∧
      ∀ h pn, proof.lookup h = some pn ↔
        ∃ key ∈ keys, ∃ s ∈ t.search key.bits, merkleHash H s = h ∧ proofNodeOf H s = some pn := by
  have hw := hR.wf t rfl
  obtain ⟨proof, nodes, root, hrun, -, hinv, hseen, -⟩ := Bonsai.getMultiProof_ok hR (trueMemo_lawful H) hpos keys
    (fun proof => ∀ h pn, proof.lookup h = some pn →
      ∃ key ∈ keys, ∃ s ∈ t.search key.bits, merkleHash H s = h ∧ proofNodeOf H s = some pn)
    (fun proof s => ∀ pn, proofNodeOf H s = some pn → proof.lookup (merkleHash H s) = some pn) nofun
    (by
      rintro _ ⟨⟩ key hkey -
      refine proofVisitor_visits (trueMemo_lawful H) hw (by have := hR.le_255; omega) ?_
      rintro proof p s pn _ hsub hl hp hpn rfl hinv
      have hs : proofNodeOf H s = some pn := hpn.eq
      refine ⟨fun h pn' hlook => ?_, fun pn' hpn' => ?_, fun q s' hsub' hseen pn' hpn' => ?_⟩
      · by_cases hh : h = merkleHash H s
        · subst hh
          rw [AList.lookup_insert] at hlook
          exact ⟨key, hkey, s, hw.mem_search_iff.mpr ⟨p, hp, hsub, hl⟩, rfl, hs.trans hlook⟩
        · rw [AList.lookup_insert_ne hh] at hlook
          exact hinv h pn' hlook
      · rw [AList.lookup_insert, ← hs, hpn']
      · by_cases hh : merkleHash H s' = merkleHash H s
        · have hl' : ¬ s'.IsLeaf := by
            rintro hl'
            cases s' with
            | leaf v => cases hpn'
            | binary l r => exact hl'
            | edge q c => exact hl'
          rw [hh, AList.lookup_insert, ← hs, ← hcol q p s' s hsub' hsub hl' hl hh, hpn']
        · rw [AList.lookup_insert_ne hh]
          exact hseen pn' hpn')
  rw [proveAnswer_ok hkeys] at hrun
  refine ⟨proof, nodes, root, hrun, fun h pn => ⟨hinv h pn, ?_⟩⟩
  rintro ⟨key, hkey, s, hs, rfl, hpn⟩
  obtain ⟨p, hp, hsub, hl⟩ := hw.mem_search_iff.mp hs
  exact hseen (proveAnswer_ok hkeys) t rfl key hkey p s hsub hl hp pn hpn

/-- Requests for proofs keep the memos true. -/
theorem TreeRep.getMultiProof_next (hR : TreeRep H (trueMemo H) n db.columns tree (some t)) (hpos : 0 < n)
    (keys : List BitSlice) :
    ∃ nodes root, Trace.next (MerkleTree.getMultiProof H db) keys tree = { tree with nodes := nodes, rootNode := root } ∧
      TreeRep H (trueMemo H) n db.columns (Trace.next (MerkleTree.getMultiProof H db) keys tree) (some t) := by
  obtain ⟨proof, nodes, root, hrun, hR', -⟩ := Bonsai.getMultiProof_ok hR (trueMemo_lawful H) hpos keys
    (fun _ => True) (fun _ _ => True) trivial (by
      rintro _ ⟨⟩ key - -
      exact proofVisitor_visits (trueMemo_lawful H) (hR.wf t rfl) (by have := hR.le_255; omega)
        fun _ _ _ _ _ _ _ _ _ _ _ => ⟨trivial, trivial, fun _ _ _ _ => trivial⟩)
  rw [Trace.next_of hrun]
  exact ⟨nodes, root, rfl, hR'⟩

/-- So do runs of them. -/
theorem AtRest.after_proofs (h : AtRest H db.columns tree t) (hpos : 0 < tree.maxHeight.toNat) (before : List (List BitSlice)) :
    TreeRep H (trueMemo H) tree.maxHeight.toNat db.columns (Trace.after (MerkleTree.getMultiProof H db) before tree) (some t) :=
  Trace.invariant (I := fun tree' => TreeRep H (trueMemo H) tree.maxHeight.toNat db.columns tree' (some t))
    (fun _ keys hR _ => (hR.getMultiProof_next hpos keys).choose_spec.choose_spec.2) h.treeRep
    (Trace.meets_of_forall fun _ _ => trivial)

/-- The nodes of a multi-proof are those of the search paths of its keys, each under its hash; the order
and the repetitions of the keys do not matter. -/
theorem getMultiProof_eq_search (H : StarkHash) (db : KeyValueDB DB ID) (tree : MerkleTree) (t : Trie Felt)
    (h : AtRest H db.columns tree t) (hpos : 0 < tree.maxHeight.toNat) (hcol : NoCollision H t)
    (before : List (List BitSlice)) (keys : List BitSlice) (hkeys : ∀ key ∈ keys, key.len = tree.maxHeight.toNat) :
    ∃ proof tree', MerkleTree.getMultiProof H db keys (Trace.after (MerkleTree.getMultiProof H db) before tree) =
        .ok proof tree' ∧
      (∀ hash node, proof.lookup hash = some node ↔
        ∃ key ∈ keys, ∃ s ∈ t.search key.bits, merkleHash H s = hash ∧ proofNodeOf H s = some node) ∧
      ∀ keys' : List BitSlice, (∀ key, key ∈ keys' ↔ key ∈ keys) →
        ∃ proof' tree'', MerkleTree.getMultiProof H db keys' (Trace.after (MerkleTree.getMultiProof H db) before tree) =
            .ok proof' tree'' ∧
          ∀ hash, proof'.lookup hash = proof.lookup hash := by
  have hR := h.after_proofs hpos before
  obtain ⟨proof, nodes, root, hrun, hproof⟩ := hR.getMultiProof_lookup hpos hcol hkeys
  refine ⟨proof, _, hrun, hproof, fun keys' hmem => ?_⟩
  obtain ⟨proof', nodes', root', hrun', hproof'⟩ :=
    hR.getMultiProof_lookup hpos hcol fun key hkey => hkeys key ((hmem key).mp hkey)
  refine ⟨proof', _, hrun', fun hash => Option.ext fun node => ?_⟩
  rw [hproof, hproof']
  simp only [hmem]

/-- A commit leaves a tree at rest, if it has leaves. -/
theorem CallRep.atRest_commit {st : MerkleTrees DB ID} {l : Leaves} (h : CallRep H n st l)
    (ht : ofMap n l.trie = some t) (ords : HashOrders) :
    AtRest H (Trace.next (Call.run H) (.commit ords) st).db.columns
      ((Trace.next (Call.run H) (.commit ords) st).treeOf []) t := by
  obtain ⟨st', hrun, hR, hidle⟩ := h.commit_ok ords
  have hrun : Call.run H (.commit ords) st = leaving (.ok ()) st' := hrun
  rw [Trace.next_of hrun]
  obtain ⟨T, hT⟩ := hR.leafRep
  obtain rfl : T = some t := hT.trie_eq.symm.trans ht
  refine ⟨hidle, by rw [hT.rep.height]; exact hT.rep.wf t rfl, fun p hp => ?_⟩
  exact hT.rep.columns_of_idle hidle (by rwa [hT.rep.height] at hp)

end

/-! ## Two leaves -/

/-- Two leaves that part at their last bit. -/
def pairTrie : Trie Felt := .edge [true] (.binary (.leaf 1) (.leaf 2))

/-- The writes of the two leaves. -/
def writePair : List Call := [.set (.aligned [true, false]) 1, .set (.aligned [true, true]) 2]

/-- A storage in memory after a commit of the two leaves. -/
def pairStorage : MerkleTrees (HashMapDb BasicId) BasicId :=
  Trace.next (Call.run fun a b => a + b) (.commit fun _ => .listed)
    (Trace.after (Call.run fun a b => a + b) writePair (BonsaiStorage.inMemory 2))

/-- A key that has a leaf, one that has none, and the first one again. -/
def pairKeys : List BitSlice := [.aligned [true, true], .aligned [false, true], .aligned [true, true]]

theorem pairTrie_wf : pairTrie.WF 2 :=
  Trie.WF.edge (List.cons_ne_nil true []) (.binary (.leaf 1) (.leaf 2)) id

theorem pairTrie_nodes {p : Path} {s : Trie Felt} (hs : pairTrie.sub p = some s) (hl : ¬ s.IsLeaf) :
    s = pairTrie ∨ s = .binary (.leaf 1) (.leaf 2) := by
  rcases p with _ | ⟨_ | _, _ | ⟨b, p⟩⟩
  · exact .inl (Option.some.inj hs).symm
  · cases hs
  · cases hs
  · exact .inr (Option.some.inj hs).symm
  · cases b <;> exact (Trie.hasNode_leaf _ p ⟨s, hs, hl⟩).elim

theorem pairTrie_noCollision : NoCollision (fun a b => a + b) pairTrie := by
  intro p q s s' hs hs' hl hl' heq
  rcases pairTrie_nodes hs hl with rfl | rfl <;> rcases pairTrie_nodes hs' hl' with rfl | rfl
  · rfl
  · exact absurd heq (by decide +kernel)
  · exact absurd heq (by decide +kernel)
  · rfl

theorem ofMap_writePair : ofMap 2 (writePair.foldl (Call.leaves 2) .empty).trie = some pairTrie := by
  refine pairTrie_wf.ofMap_eq fun k hk => ?_
  rcases k with _ | ⟨a, _ | ⟨b, _ | ⟨c, k⟩⟩⟩
  · cases hk
  · cases hk
  · cases a <;> cases b <;> decide +kernel
  · simp at hk

theorem pairStorage_atRest : AtRest (fun a b => a + b) pairStorage.db.columns (pairStorage.treeOf []) pairTrie := by
  have hstart : CallRep (fun a b => a + b) 2 (BonsaiStorage.inMemory 2) .empty :=
    .start (show ∀ key : TrieKey, (KeyValueDB.new HashMapDb.empty ⟨none, none, 1⟩ none : KeyValueDB (HashMapDb BasicId) BasicId).columns
      key.toDatabaseKey = none from HashMapDb.columns_empty) 2
  have haligned : ∀ c ∈ writePair, c.Aligned := by
    intro c hc
    simp only [writePair, List.mem_cons, List.not_mem_nil, or_false] at hc
    rcases hc with rfl | rfl <;> rw [Call.Aligned] <;> decide
  exact (hstart.simulates (by omega) haligned).1.atRest_commit ofMap_writePair _

theorem pairStorage_height : (pairStorage.treeOf []).maxHeight.toNat = 2 :=
  (pairStorage_atRest.wf.length_of_lookup (k := [true, false]) (v := 1) (by decide)).symm

theorem pairStorage_pos : 0 < (pairStorage.treeOf []).maxHeight.toNat := by rw [pairStorage_height]; exact Nat.two_pos

theorem pairKeys_len : ∀ key ∈ pairKeys, key.len = (pairStorage.treeOf []).maxHeight.toNat := by
  rw [pairStorage_height]
  exact (by decide : ∀ key ∈ pairKeys, key.len = 2)

theorem getMultiProof_eq_search_pair :
    ∃ proof tree', MerkleTree.getMultiProof (fun a b => a + b) pairStorage.db pairKeys (pairStorage.treeOf []) =
        .ok proof tree' ∧
      ∀ hash node, proof.lookup hash = some node ↔ ∃ key ∈ pairKeys, ∃ s ∈ pairTrie.search key.bits,
        merkleHash (fun a b => a + b) s = hash ∧ proofNodeOf (fun a b => a + b) s = some node := by
  obtain ⟨proof, tree', hrun, hproof, -⟩ := getMultiProof_eq_search (fun a b => a + b) pairStorage.db (pairStorage.treeOf [])
    pairTrie pairStorage_atRest pairStorage_pos pairTrie_noCollision [] pairKeys pairKeys_len
  rw [Trace.after_nil] at hrun
  exact ⟨proof, tree', hrun, hproof⟩

end Bonsai
