import BonsaiTrie.Impl.Write
import BonsaiTrie.Proof.Arrive

/-!
# Trees that stand for a trie

`TreeRep` is what holds of a tree between two calls: its root stands for a
canonical trie (or for none), the database has no node of it that is not one
of the trie, and the death row holds only node keys. Seeking a key keeps it and
gives the way to the key (`seekTo_ok`). The last part has what writing needs: a
focus whose trie is replaced (`Focus.replace`), and the nodes of a trie in a
context.
-/

namespace Bonsai

open Patricia Run

/-- The tree stands for the trie, at height `n`. -/
structure TreeRep [FeltCodec] (H : StarkHash) (memo : Memo) (n : Nat) (cols : Columns) (tree : MerkleTree)
    (T : Option (Trie Felt)) : Prop where
  height : tree.maxHeight.toNat = n
  rooted : Rooted H memo tree.nodes.slots (tree.disk cols) tree.rootNode T
  wf : ∀ t, T = some t → t.WF n
  only : ∀ p, p.length ≤ n → (tree.disk cols p).isSome → ∃ t, T = some t ∧ t.HasNode p
  deathRow : ∀ b, tree.deathRow.lookup (.flat b) = none

/-- The content of a trie, if there is one. -/
def content (T : Option (Trie Felt)) (key : Path) : Option Felt := T.bind (·.lookup key)

@[simp] theorem content_none (key : Path) : content none key = none := rfl
@[simp] theorem content_some (t : Trie Felt) (key : Path) : content (some t) key = t.lookup key := rfl

section

variable [FeltCodec] {DB ID : Type} [BonsaiDatabase DB] [InfallibleDatabase DB] {db : KeyValueDB DB ID}
  {H : StarkHash} {memo : Memo} {n : Nat} {tree : MerkleTree} {T : Option (Trie Felt)} {t : Trie Felt} {key : Path}

theorem TreeRep.le_255 (hR : TreeRep H memo n db.columns tree T) : n ≤ 255 := by
  have := UInt8.toNat_lt tree.maxHeight
  have := hR.height
  omega

/-- Nothing of the trie matters to a visitor that does nothing. -/
theorem noopVisitor_visits {E : Type} (t : Trie Felt) (key : Path) :
    Visits (E := E) H memo t key (fun (_ : Unit) => True) (fun _ _ => True) noopVisitor := by
  intro v tree disk k p s ks hr _ _ _ _
  exact ⟨v, tree.nodes, rfl, hr, fun _ _ => rfl, trivial, trivial, fun _ _ _ h => h⟩

/-- Seeking a key gives the nodes on the way to it. -/
theorem seekTo_ok (hR : TreeRep H memo n db.columns tree (some t)) (hlaw : memo.Lawful H) (hn : 0 < n)
    (hkey : key.length = n) :
    ∃ (w : Way) (h : NodeHandle) (s : Trie Felt) (k : NodeKey) (nodes : SlotMap Node) (ks ks' : List NodeKey),
      MerkleTree.seekTo db key tree = .ok w.crumbs { tree with nodes := nodes, rootNode := some (.loaded k) } ∧
      Focus H memo nodes.slots (tree.disk db.columns) (.inMemory k) w h s ks ks' ∧ w.plug s = t ∧
      Ended key w ∧ w ≠ [] ∧
      ∀ q, MerkleTree.hashAt H nodes.slots t (.inMemory k) q = tree.known H t q := by
  have hstart : MerkleTreeIterator.Ready H memo db t (fun _ _ => True) (MerkleTreeIterator.new tree ()) :=
    .start hR.rooted rfl rfl
  obtain ⟨it, hrun, ⟨k₁, f, w, h, s, ks, ks', ⟨⟨k, hroot, hF⟩, hpath, hcr, hplug, -⟩, -, -, hend, -⟩, ⟨nodes, htree⟩, hknown⟩ :=
    seekTo_ready hlaw (hR.wf t rfl) hR.le_255 hkey.le (hkey ▸ hn) hstart
  have htree' : it.tree = { tree with nodes := nodes, rootNode := some (.loaded k) } := by
    rw [htree, hroot]; rfl
  refine ⟨(k₁, f) :: w, h, s, k, nodes, ks, ks', ?_, ?_, hplug, hend, by simp, fun q => ?_⟩
  · rw [MerkleTreeIterator.seekTo] at hrun
    rw [MerkleTree.seekTo, hrun]
    simp only [hcr, htree']
  · rw [htree'] at hF
    exact hF
  · have := hknown q
    rw [htree'] at this
    exact this

theorem TreeRep.disk_root (hR : TreeRep H memo n db.columns tree none) : tree.disk db.columns [] = none := by
  rw [← Option.not_isSome_iff_eq_none]
  intro hs
  obtain ⟨t, h, -⟩ := hR.only [] (Nat.zero_le _) hs
  cases h

/-- An empty tree, once it is known to be empty. -/
theorem TreeRep.loadedEmpty (hR : TreeRep H memo n db.columns tree none) :
    TreeRep H memo n db.columns { tree with rootNode := some .empty } none := by
  refine ⟨hR.height, .empty ?_, hR.wf, hR.only, hR.deathRow⟩
  have hr := hR.rooted
  rcases tree with ⟨root, nodes, identifier, deathRow, cache, maxHeight⟩
  cases hr with
  | noTrie h => exact h
  | empty h => exact h

omit [FeltCodec] in
theorem MerkleTreeIterator.truncate_start {V : Type} {it : MerkleTreeIterator V} (hcr : it.currentNodesHeights = []) :
    (MerkleTreeIterator.truncate key it).currentNodesHeights = [] := by
  rw [MerkleTreeIterator.truncate_crumbs, hcr]
  rfl

/-- A walk in an empty tree. -/
theorem traverseTo_empty {V : Type} {visit : NodeVisitor (BonsaiDatabase.DatabaseError DB) V}
    (hR : TreeRep H memo n db.columns tree none) (hpos : 0 < key.length) (path : Path) (lh : Option Felt) (v : V) :
    MerkleTreeIterator.traverseTo db visit key ⟨tree, path, [], lh, v⟩ =
      .ok ⟨⟩ ⟨{ tree with rootNode := some .empty }, [], [], none, v⟩ := by
  rw [MerkleTreeIterator.traverseTo_eq_fromRoot hpos (MerkleTreeIterator.truncate_start rfl)]
  have hload := loadRootNode_empty hR.rooted hR.disk_root
  refine (bind_ok (modify_run _ _) _).trans ?_
  refine (bind_ok (MerkleTreeIterator.onTree_ok
    (i := { MerkleTreeIterator.truncate key ⟨tree, path, [], lh, v⟩ with currentPath := [] }) hload) _).trans ?_
  have hcr : (MerkleTreeIterator.truncate key ⟨tree, path, [], lh, v⟩).currentNodesHeights = [] :=
    MerkleTreeIterator.truncate_start rfl
  exact congrArg (fun crumbs => EStateM.Result.ok PUnit.unit
    (⟨{ tree with rootNode := some .empty }, [], crumbs, none, v⟩ : MerkleTreeIterator V)) hcr

/-- Seeking a key in an empty tree. -/
theorem seekTo_empty (hR : TreeRep H memo n db.columns tree none) (hkey : key ≠ []) :
    MerkleTree.seekTo db key tree = .ok [] { tree with rootNode := some .empty } := by
  rw [MerkleTree.seekTo, MerkleTreeIterator.new, traverseTo_empty hR (List.length_pos_iff.mpr hkey)]

end

/-! ## Replacing a trie -/

section

variable [FeltCodec] {H : StarkHash} {memo : Memo} {nodes nodes' : NodeKey → Option Node} {disk : Disk}
  {root g h : NodeHandle} {p : Path} {t : Trie Felt} {w : Way} {ks : List NodeKey}

/-- The memo of a node, if it has one, is one that any trie may have. -/
def Loose (memo : Memo) (node : Option Node) : Prop := ∀ nd x, node = some nd → nd.getHash = some x → ∀ t, memo t x

omit [FeltCodec] in
theorem loose_anyMemo (node : Option Node) : Loose anyMemo node := fun _ _ _ _ _ => trivial

omit [FeltCodec] in
theorem loose_none {memo : Memo} {node : Option Node} (h : ∀ nd, node = some nd → nd.getHash = none) : Loose memo node := by
  intro nd x hnd hx
  rw [h nd hnd] at hx
  cases hx

/-- The nodes of a way have such memos. -/
def Way.Loose (memo : Memo) (nodes : NodeKey → Option Node) (w : Way) : Prop := ∀ e ∈ w, Bonsai.Loose memo (nodes e.1)

omit [FeltCodec] in
theorem Way.Loose.tail {e : NodeKey × Frame Felt} (h : Way.Loose memo nodes (e :: w)) : Way.Loose memo nodes w :=
  fun e he => h e (List.mem_cons_of_mem _ he)

/-- The nodes of a way are among those of its context. -/
theorem RepCtx.mem_keys (hc : RepCtx H memo nodes disk root w h t ks) {e : NodeKey × Frame Felt} (he : e ∈ w) :
    e.1 ∈ ks := by
  induction hc with
  | nil => cases he
  | cons _ _ ih =>
    rcases List.mem_cons.mp he with rfl | he
    · exact List.mem_cons_self
    · exact List.mem_cons_of_mem _ (List.mem_append_right _ (ih he))

theorem Way.Loose.congr (h : Way.Loose memo nodes w) (hc : RepCtx H memo nodes disk root w g t ks)
    (hn : ∀ k ∈ ks, nodes' k = nodes k) : Way.Loose memo nodes' w := by
  intro e he
  rw [hn e.1 (hc.mem_keys he)]
  exact h e he

/-- A frame with such a memo may be over any trie. -/
theorem RepFrame.retarget {k : NodeKey} {f : Frame Felt} (hf : RepFrame H memo nodes disk k p h t f ks)
    (hl : Bonsai.Loose memo (nodes k)) (t' : Trie Felt) : RepFrame H memo nodes disk k p h t' f ks := by
  cases hf with
  | left hk _ hr => exact .left hk (fun x hx => hl _ x hk hx _) hr
  | right hk _ hr => exact .right hk (fun x hx => hl _ x hk hx _) hr
  | edge hk _ => exact .edge hk fun x hx => hl _ x hk hx _

/-- Such a way leads to a handle whatever it stands for. -/
theorem RepCtx.retarget (hc : RepCtx H memo nodes disk root w h t ks) (hl : w.Loose memo nodes) (t' : Trie Felt) :
    RepCtx H memo nodes disk root w h t' ks := by
  induction hc generalizing t' with
  | nil => exact .nil
  | cons _ hf ih => exact .cons (ih hl.tail _) (hf.retarget (hl _ List.mem_cons_self) t')

end

/-! ## Changes that only add -/

/-- A slot map that has grown by fresh keys. -/
structure Grows (m m' : SlotMap Node) (js : List NodeKey) : Prop where
  keep : ∀ j, (m.slots j).isSome → m'.slots j = m.slots j
  dom : ∀ j, (m'.slots j).isSome ↔ (m.slots j).isSome ∨ j ∈ js
  fresh : ∀ j ∈ js, m.slots j = none
  nodup : js.Nodup

namespace Grows

theorem refl (m : SlotMap Node) : Grows m m [] := ⟨fun _ _ => rfl, by simp, by simp, by simp⟩

theorem insert (m : SlotMap Node) (node : Node) : Grows m (m.insert node).2 [m.next] := by
  refine ⟨fun j hj => ?_, fun j => ?_, by simp [m.next_slots], by simp⟩
  · rw [SlotMap.insert_slots, if_neg (SlotMap.lt_next hj).ne]
  · rw [SlotMap.insert_slots]
    by_cases hj : j = m.next <;> simp [hj]

theorem trans {m m' m'' : SlotMap Node} {js js' : List NodeKey} (h : Grows m m' js) (h' : Grows m' m'' js') :
    Grows m m'' (js ++ js') := by
  refine ⟨fun j hj => ?_, fun j => ?_, fun j hj => ?_, ?_⟩
  · rw [h'.keep j ((h.dom j).mpr (.inl hj)), h.keep j hj]
  · rw [h'.dom, h.dom, List.mem_append, or_assoc]
  · rcases List.mem_append.mp hj with hj | hj
    · exact h.fresh j hj
    · by_contra hne
      have := (h.dom j).mpr (.inl (Option.isSome_iff_ne_none.mpr hne))
      rw [h'.fresh j hj] at this
      cases this
  · refine List.nodup_append.mpr ⟨h.nodup, h'.nodup, ?_⟩
    rintro a ha b hb rfl
    have := (h.dom a).mpr (.inr ha)
    rw [h'.fresh a hb] at this
    cases this

end Grows

/-- A death row with more node keys on it. -/
structure Buries (d d' : HashSet TrieKey) : Prop where
  keep : ∀ key, d.lookup key = some () → d'.lookup key = some ()
  flat : ∀ b, d.lookup (.flat b) = none → d'.lookup (.flat b) = none

namespace Buries

theorem refl (d : HashSet TrieKey) : Buries d d := ⟨fun _ h => h, fun _ h => h⟩

theorem insert (d : HashSet TrieKey) (b : ByteVec) : Buries d (d.insert (.trie b) ()) := by
  refine ⟨fun key h => ?_, fun b' h => ?_⟩
  · by_cases hk : key = .trie b
    · rw [hk, AList.lookup_insert]
    · rw [AList.lookup_insert_ne hk, h]
  · rw [AList.lookup_insert_ne (by simp), h]

theorem trans {d d' d'' : HashSet TrieKey} (h : Buries d d') (h' : Buries d' d'') : Buries d d'' :=
  ⟨fun key hk => h'.keep key (h.keep key hk), fun b hb => h'.flat b (h.flat b hb)⟩

/-- What is still there is what was there. -/
theorem disk_eq (tree tree' : MerkleTree) (h : Buries tree.deathRow tree'.deathRow)
    (hid : tree'.identifier = tree.identifier) {cols : Columns} {p : Path} (hs : (tree'.disk cols p).isSome) :
    tree'.disk cols p = tree.disk cols p := by
  by_cases hd : tree'.deathRow.lookup (TrieKey.new tree.identifier .trie p.encode) = some ()
  · rw [MerkleTree.disk, hid, if_pos hd] at hs; cases hs
  · rw [MerkleTree.disk, MerkleTree.disk, hid, if_neg hd, if_neg fun h' => hd (h.keep _ h')]

end Buries

/-- The node `k` on top of the last frame changed, and nodes added below it: the nodes of the way to
it and of the database elsewhere stay. -/
theorem Focus.rewrite [FeltCodec] {H : StarkHash} {memo : Memo} {m m' m'' : SlotMap Node} {disk disk' : Disk} {root : NodeHandle}
    {w : Way} {k : NodeKey} {t t' : Trie Felt} {ks₁ ks₂ ks' ks'' js : List NodeKey} {node : Node}
    (hc : RepCtx H memo m.slots disk root w (.inMemory k) t ks₂) (hl : w.Loose memo m.slots) (hn : (k :: (ks₁ ++ ks₂) ++ ks').Nodup)
    (ht : ∀ j, (m.slots j).isSome ↔ j ∈ k :: (ks₁ ++ ks₂) ++ ks') (hg : Grows m m' js) (hm : m'' = m'.set k node)
    (hr : Rep H memo m''.slots disk' (.inMemory k) w.path t' ks'') (hp : ks''.Perm (k :: (js ++ (ks₁ ++ ks'))))
    (hd : ∀ q, (w.plug t).HasNode q → ¬ w.path <+: q → disk' q = disk q) :
    Focus H memo m''.slots disk' root w (.inMemory k) t' ks₂ ks'' := by
  subst hm
  have hperm : (ks₂ ++ ks'').Perm (js ++ (k :: (ks₁ ++ ks₂) ++ ks')) := by
    calc (ks₂ ++ ks'').Perm (ks₂ ++ (k :: (js ++ (ks₁ ++ ks')))) := hp.append_left _
      _ |>.Perm (k :: (ks₂ ++ (js ++ (ks₁ ++ ks')))) := List.perm_middle
      _ |>.Perm (k :: (js ++ (ks₂ ++ (ks₁ ++ ks')))) := .cons _ (List.perm_append_comm_assoc ..)
      _ |>.Perm (k :: (js ++ (ks₁ ++ (ks₂ ++ ks')))) := .cons _ ((List.perm_append_comm_assoc ..).append_left _)
      _ |>.Perm (js ++ (k :: (ks₁ ++ (ks₂ ++ ks')))) := List.perm_middle.symm
      _ = js ++ (k :: (ks₁ ++ ks₂) ++ ks') := by simp
  have hkeep (j : NodeKey) (hj : j ∈ ks₂) : (m'.set k node).slots j = m.slots j := by
    have hmem : j ∈ k :: (ks₁ ++ ks₂) ++ ks' := by simp [hj]
    rw [SlotMap.set_slots_of_ne _ _ ?_, hg.keep j ((ht j).mpr hmem)]
    rintro rfl
    simp only [List.cons_append, List.nodup_cons] at hn
    exact hn.1 (by simp [hj])
  refine ⟨(hc.congr hkeep hd).retarget (hl.congr hc hkeep) t', hr, ?_, fun j => ?_⟩
  · refine hperm.nodup_iff.mpr (List.nodup_append.mpr ⟨hg.nodup, hn, ?_⟩)
    rintro a ha b hb rfl
    have := (ht a).mpr hb
    rw [hg.fresh a ha] at this
    cases this
  · rw [SlotMap.isSome_set, hg.dom, ht, hperm.mem_iff, List.mem_append (s := js), or_comm]

namespace Way

variable {w : Way} {s s' : Trie Felt} {p : Path}

/-- The nodes in the hole are nodes. -/
theorem hasNode_plug (w : Way) (h : s.HasNode p) : (w.plug s).HasNode (w.path ++ p) := Patricia.hasNode_plug _ h

/-- More nodes in the hole are more nodes. -/
theorem hasNode_plug_mono (hp : Proper w.frames) (h : ∀ q, s.HasNode q → s'.HasNode q) (hs : (w.plug s).HasNode p) :
    (w.plug s').HasNode p := by
  by_cases hpre : w.path <+: p
  · obtain ⟨q, rfl⟩ := hpre
    exact hasNode_plug w (h q ((hasNode_plug_append hp s q).mp hs))
  · exact (hasNode_plug_of_off hp s s' hpre).mp hs

/-- The content after a change in the hole. -/
theorem lookup_plug_update {r : Trie Felt} {k : Path} {o : Option Felt}
    (h : ∀ k', r.lookup k' = if k' = k then o else s.lookup k') (key : Path) :
    (w.plug r).lookup key = if key = w.path ++ k then o else (w.plug s).lookup key := by
  by_cases hpre : w.path <+: key
  · obtain ⟨k', rfl⟩ := hpre
    have h₁ : (w.plug r).lookup (w.path ++ k') = r.lookup k' := lookup_plug_append ..
    have h₂ : (w.plug s).lookup (w.path ++ k') = s.lookup k' := lookup_plug_append ..
    rw [h₁, h₂, h]
    simp
  · rw [if_neg (by rintro rfl; exact hpre (List.prefix_append ..))]
    exact lookup_plug_of_off _ _ _ hpre

end Way

end Bonsai
