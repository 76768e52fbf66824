import BonsaiTrie.Proof.Prove

/-!
# Seeking is the same from anywhere

An iterator that arrived shows what the trie tells of the key
(`Arrived.sought`), with the hashes that the tree knew before it was sought. So
after any seeks the next one shows what it shows a new iterator
(`seek_transparent`).
-/

namespace Bonsai

open Patricia Run MerkleTree MerkleTreeIterator

section

variable [FeltCodec] {DB ID : Type} [BonsaiDatabase DB] [InfallibleDatabase DB] {db : KeyValueDB DB ID}
  {H : StarkHash} {memo : Memo} {n : Nat} {key : Path} {t T : Trie Felt} {w : Way} {k : NodeKey} {h : NodeHandle}
  {ks ks' : List NodeKey}

/-- The handle below the last frame, where the key ends or leaves it, tells the leaf of the key. -/
theorem Focus.leaf_of_end {nodes : NodeKey → Option Node} {disk : Disk} {root : NodeHandle} {f : Frame Felt} {m : Nat}
    {s : Trie Felt} {rest : Path} (hF : Focus H memo nodes disk root ((k, f) :: w) h s ks ks') (hs : s.WF m)
    (hlen : (w.path ++ rest).length = (Way.path ((k, f) :: w)).length + m)
    (hend : f.tip = rest ∨ f.IsEdge ∧ ¬ f.tip <+: rest) :
    (if f.tip = rest then h.asHash else none) = (Way.plug ((k, f) :: w) s).lookup (w.path ++ rest) := by
  have hlookup : (Way.plug ((k, f) :: w) s).lookup (w.path ++ rest) = (f.fill s).lookup rest :=
    lookup_plug_append w.frames (f.fill s) rest
  rw [hlookup]
  by_cases htip : f.tip = rest
  · -- the key ends in the leaf below the last node
    subst htip
    obtain rfl : m = 0 := by
      rw [Way.path_cons] at hlen
      omega
    obtain ⟨v, rfl⟩ := hs.eq_leaf
    obtain ⟨rfl, -⟩ := hF.rep.leaf_inv
    have hleaf := f.lookup_fill_append (Trie.leaf v) []
    rw [List.append_nil] at hleaf
    rw [if_pos rfl, hleaf]
    rfl
  · obtain ⟨hedge, hoff⟩ := hend.resolve_left htip
    rw [if_neg htip]
    cases f with
    | left r => exact hedge.elim
    | right l => exact hedge.elim
    | edge q => exact ((Trie.lookup_edge q s rest).trans (if_neg hoff)).symm

/-- An iterator that arrived shows what the trie has there. -/
theorem Arrived.sought {tree : MerkleTree} {it : MerkleTreeIterator Unit} (ha : Arrived H memo db T key it) (hw : T.WF n)
    (hknown : ∀ q, it.tree.known H T q = tree.known H T q) : Sought H tree (some T) n key it := by
  obtain ⟨k, f, w, h, s, ks, ks', ⟨⟨k₀, hroot, hF⟩, hpath, hcr, rfl, -⟩, ⟨rest, rfl⟩, hlt, hend, hleaf⟩ := ha
  obtain ⟨m, hm, hs, hproper, -⟩ := Trie.WF.plug (Way.frames ((k, f) :: w)) hw
  have hrest : rest ≠ [] := by
    rintro rfl
    simp at hlt
  have hend' : f.tip = rest ∨ f.IsEdge ∧ ¬ f.tip <+: rest := by
    rcases hend with heq | ⟨_, q, _, hcons, -, hoff⟩
    · exact .inl (List.append_cancel_left heq)
    · simp only [List.cons.injEq, Prod.mk.injEq] at hcons
      obtain ⟨⟨rfl, rfl⟩, rfl⟩ := hcons
      exact .inr ⟨trivial, fun hpre => hoff ((List.prefix_append_right_inj _).mpr hpre)⟩
  obtain ⟨hcourse, hreach⟩ := course_plug_of_end hproper s hrest hend'
  refine ⟨?_, ?_, fun hlen => ?_⟩
  · rw [hpath]
    exact hreach.symm
  · have hlooks := hF.ctx.looks hproper hF.rep.handleHash_eq
    have hhash : MerkleTree.hashAt H it.tree.nodes.slots (Way.plug ((k, f) :: w) s) (.inMemory k₀) =
        tree.known H (Way.plug ((k, f) :: w) s) := by
      funext q
      rw [← hknown, known_loaded hroot]
    rw [hhash] at hlooks
    rw [looks, hcr]
    exact hlooks.trans (congrArg _ hcourse.symm)
  · have hne : w.path ++ rest ≠ [] := by simp [hrest]
    rw [if_neg hne, hleaf, Option.bind_some, ← hF.leaf_of_end hs (hlen.trans hm) hend', Way.path_cons]
    simp only [List.append_cancel_left_eq]

/-- Where an iterator is between two seeks: the tree knows what it knew before the first. -/
inductive Between (H : StarkHash) (memo : Memo) (n : Nat) (db : KeyValueDB DB ID) (tree : MerkleTree) :
    Option (Trie Felt) → MerkleTreeIterator Unit → Prop
  | empty {it : MerkleTreeIterator Unit} : TreeRep H memo n db.columns it.tree none → it.currentNodesHeights = [] →
      Between H memo n db tree none it
  | ready {T : Trie Felt} {it : MerkleTreeIterator Unit} : Ready H memo db T (fun _ _ => True) it →
      (∀ q, it.tree.known H T q = tree.known H T q) → Between H memo n db tree (some T) it

/-- One seek. -/
theorem Between.seekTo {tree : MerkleTree} {T : Option (Trie Felt)} {it : MerkleTreeIterator Unit}
    (hit : Between H memo n db tree T it) (hlaw : memo.Lawful H) (hw : ∀ t, T = some t → t.WF n) (hn : n ≤ 255)
    (hkey : key.length ≤ n) :
    ∃ it', MerkleTreeIterator.seekTo db key it = .ok () it' ∧ Between H memo n db tree T it' ∧
      Sought H tree T n key it' := by
  rcases Nat.eq_zero_or_pos key.length with hzero | hpos
  · -- the empty key: the iterator starts over
    obtain rfl := List.length_eq_zero_iff.mp hzero
    refine ⟨{ it with currentNodesHeights := [], currentPath := [], leafHash := none }, rfl, ?_, ?_⟩
    · cases hit with
      | empty hR _ => exact .empty hR rfl
      | ready hr hknown => exact .ready (.start hr.rooted rfl rfl) hknown
    · cases T with
      | none => exact ⟨rfl, rfl, fun _ => rfl⟩
      | some t => exact ⟨by simp, by simp [looks], fun _ => rfl⟩
  · cases hit with
    | empty hR hcr =>
      obtain ⟨tree', path, crumbs, leafHash, visitor⟩ := it
      obtain rfl : crumbs = [] := hcr
      exact ⟨_, traverseTo_empty hR hpos path leafHash visitor, .empty hR.loadedEmpty rfl,
        ⟨rfl, rfl, fun _ => by split <;> rfl⟩⟩
    | @ready T _ hr hknown =>
      obtain ⟨it', hrun, harr, hkeep⟩ := seekTo_ready hlaw (hw T rfl) hn hkey hpos hr
      have hknown' (q : Path) : it'.tree.known H T q = tree.known H T q := (hkeep.known q).trans (hknown q)
      have hsought := harr.sought (hw T rfl) hknown'
      obtain ⟨k, f, w, h, s, ks, ks', htrail, -⟩ := harr
      exact ⟨it', hrun, .ready (.on htrail) hknown', hsought⟩

/-- Seeks of any keys leave no trace in what the next one shows, and it is what the trie tells of the key. -/
theorem seek_transparent {tree : MerkleTree} {T : Option (Trie Felt)} (hR : TreeRep H anyMemo n db.columns tree T)
    (keys : List Path) (hkeys : ∀ k ∈ keys, k.length ≤ n) (hkey : key.length ≤ n) :
    ∃ it it' : MerkleTreeIterator Unit,
      (do
        keys.forM (MerkleTreeIterator.seekTo db)
        MerkleTreeIterator.seekTo db key : M (BonsaiDatabase.DatabaseError DB) Unit Unit)
          (MerkleTreeIterator.new tree ()) = .ok () it ∧
      MerkleTreeIterator.seekTo db key (MerkleTreeIterator.new tree ()) = .ok () it' ∧
      it.currentPath = it'.currentPath ∧ it.looks = it'.looks ∧ (key.length = n → it.leafHash = it'.leafHash) ∧
      Sought H tree T n key it ∧ Sought H tree T n key it' := by
  have hlaw := anyMemo_lawful H
  have hnew : Between H anyMemo n db tree T (MerkleTreeIterator.new tree ()) := by
    cases T with
    | none => exact .empty hR rfl
    | some t => exact .ready (.start hR.rooted rfl rfl) fun _ => rfl
  obtain ⟨it₁, hrun₁, -, hbetween⟩ := forM_ok (f := MerkleTreeIterator.seekTo db)
    (P := fun l it => (∀ k ∈ l, k.length ≤ n) ∧ Between H anyMemo n db tree T it) ⟨hkeys, hnew⟩ fun a l it hP => by
      obtain ⟨it', hrun, hit', -⟩ := hP.2.seekTo hlaw hR.wf hR.le_255 (hP.1 a List.mem_cons_self)
      exact ⟨it', hrun, fun k hk => hP.1 k (List.mem_cons_of_mem _ hk), hit'⟩
  obtain ⟨it, hrun, -, hs⟩ := hbetween.seekTo hlaw hR.wf hR.le_255 hkey
  obtain ⟨it', hrun', -, hs'⟩ := hnew.seekTo hlaw hR.wf hR.le_255 hkey
  refine ⟨it, it', (bind_ok hrun₁ _).trans hrun, hrun', by rw [hs.path, hs'.path], by rw [hs.nodes, hs'.nodes],
    fun hlen => by rw [hs.leaf hlen, hs'.leaf hlen], hs, hs'⟩

end

theorem seek_transparent_pair : ∃ it it' : MerkleTreeIterator Unit,
    (do
      [[true, false], [true], [], [false, false]].forM (MerkleTreeIterator.seekTo pairStorage.db)
      MerkleTreeIterator.seekTo pairStorage.db [true, true] : M (BonsaiDatabase.DatabaseError (HashMapDb BasicId)) Unit Unit)
        (MerkleTreeIterator.new (pairStorage.treeOf []) ()) = .ok () it ∧
    MerkleTreeIterator.seekTo pairStorage.db [true, true] (MerkleTreeIterator.new (pairStorage.treeOf []) ()) = .ok () it' ∧
    it.looks = it'.looks ∧ it.leafHash = it'.leafHash ∧ it.currentPath = [true, true] ∧ it.leafHash = some 2 := by
  have hkeys : ∀ k ∈ [[true, false], [true], [], [false, false]], k.length ≤ (pairStorage.treeOf []).maxHeight.toNat := by
    rw [pairStorage_height]
    decide
  have hkey : [true, true].length = (pairStorage.treeOf []).maxHeight.toNat := pairStorage_height.symm
  obtain ⟨it, it', hrun, hrun', hpath, hlooks, hleaf, hs, -⟩ :=
    seek_transparent pairStorage_atRest.treeRep [[true, false], [true], [], [false, false]] hkeys hkey.le
  exact ⟨it, it', hrun, hrun', hlooks, hleaf hkey, hs.path.trans (by decide), (hs.leaf hkey).trans (by decide)⟩

end Bonsai
