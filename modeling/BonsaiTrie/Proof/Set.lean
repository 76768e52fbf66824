import BonsaiTrie.Proof.TreeRep
import BonsaiTrie.Spec.Stray

/-!
# Writing a leaf

`set` at the end of a walk: the value of a leaf that is there is changed
(`setAt_leaf`), an edge the key leaves is split (`splitEdge_ok`), and an empty
tree gets an edge to the leaf. The split puts a key on the death row that is
not built as the keys of nodes are; `NoStray` says that it hits no node.
-/

namespace Bonsai

open Patricia Run

/-! ## Where the key leaves an edge -/

theorem exists_diverge {q rest : Path} (h : ¬ q <+: rest) (hl : q.length ≤ rest.length) :
    ∃ common b new old, q = common ++ (!b) :: old ∧ rest = common ++ b :: new := by
  induction q generalizing rest with
  | nil => exact (h List.nil_prefix).elim
  | cons a q ih =>
    cases rest with
    | nil => simp at hl
    | cons b rest =>
      by_cases hab : a = b
      · subst hab
        obtain ⟨common, b, new, old, rfl, rfl⟩ :=
          ih (fun hp => h ((List.prefix_cons_inj a).mpr hp)) (by simpa using hl)
        exact ⟨a :: common, b, new, old, rfl, rfl⟩
      · exact ⟨[], b, rest, q, by cases a <;> cases b <;> simp_all, rfl⟩

theorem takeWhile_zip_append (common xs ys : Path) :
    ((common ++ xs).zip (common ++ ys)).takeWhile (fun ab => ab.1 == ab.2) =
      common.zip common ++ (xs.zip ys).takeWhile fun ab => ab.1 == ab.2 := by
  induction common with
  | nil => rfl
  | cons a common ih => simp [ih]

/-- The common path of an edge the key leaves. -/
theorem commonPath_diverge {e : EdgeNode} {p common new old : Path} {b : Bool} (he : e.height = p.length)
    (hq : e.path = common ++ (!b) :: old) : e.commonPath (p ++ (common ++ b :: new)) = common := by
  rw [EdgeNode.commonPath, he, List.drop_left, hq, takeWhile_zip_append]
  have : ((b :: new).zip ((!b) :: old)).takeWhile (fun ab => ab.1 == ab.2) = [] := by cases b <;> simp
  rw [this]
  simp

/-- The common path of an edge the key follows. -/
theorem commonPath_follow {e : EdgeNode} {p : Path} (he : e.height = p.length) :
    e.commonPath (p ++ e.path) = e.path := by
  rw [EdgeNode.commonPath, he, List.drop_left]
  have := takeWhile_zip_append e.path [] []
  simp only [List.append_nil] at this
  rw [this]
  simp

/-! ## The nodes of a split -/

section

variable [FeltCodec] {H : StarkHash} {memo : Memo} {nodes nodes' : NodeKey → Option Node} {disk : Disk}
  {root h : NodeHandle} {p : Path} {t : Trie Felt} {w : Way} {k : NodeKey} {ks ks' : List NodeKey} {tree : MerkleTree} {cols : Columns} {E : Type}

/-- The two children of a branch, the new one in the direction `b`. -/
def branchNode (b : Bool) (height : Nat) (new old : NodeHandle) : Node :=
  match Direction.ofBool b with
  | .left => Node.binary ⟨none, height, new, old⟩
  | .right => Node.binary ⟨none, height, old, new⟩

theorem rep_branch {b : Bool} {hx hy : NodeHandle} {x y : Trie Felt} (hk : nodes k = some (branchNode b p.length hx hy))
    (h₁ : Rep H memo nodes disk hx (p ++ [b]) x ks) (h₂ : Rep H memo nodes disk hy (p ++ [!b]) y ks') :
    ∃ ks'', Rep H memo nodes disk (.inMemory k) p (.branch b x y) ks'' ∧ ks''.Perm (k :: (ks ++ ks')) := by
  cases b with
  | false => exact ⟨_, .binary hk (fun _ h => by cases h) h₁ h₂, .refl _⟩
  | true => exact ⟨_, .binary hk (fun _ h => by cases h) h₂ h₁, .cons _ List.perm_append_comm⟩

/-- An edge to a child, or the child itself. -/
theorem edgeOrChild_ok {q : Path} {c : Trie Felt} {nodes : SlotMap Node} {ch : NodeHandle}
    (hr : Rep H memo nodes.slots disk ch (p ++ q) c ks) :
    ∃ h nodes' js, (∀ tree, tree.nodes = nodes →
        (MerkleTree.edgeOrChild p.length q ch : MerkleTree.M E NodeHandle) tree = .ok h { tree with nodes := nodes' }) ∧
      Grows nodes nodes' js ∧ Rep H memo nodes'.slots disk h p (.ext q c) (js ++ ks) := by
  cases q with
  | nil =>
    refine ⟨ch, nodes, [], fun tree htree => ?_, .refl _, by simpa [Trie.ext] using hr⟩
    subst htree
    rfl
  | cons a q =>
    let node : Node := .edge ⟨none, p.length, a :: q, ch⟩
    have hg := Grows.insert nodes node
    refine ⟨.inMemory nodes.next, (nodes.insert node).2, [nodes.next], fun tree htree => ?_, hg, ?_⟩
    · subst htree
      rfl
    · exact .edge (by rw [SlotMap.insert_slots, if_pos rfl]) (fun _ h => by cases h)
        (hr.congr (fun j hj => hg.keep j (hr.isSome j hj)) fun _ _ => rfl)

/-- The end of a split: the branch, under an edge to it if the paths have something in common, takes the node's place. -/
def MerkleTree.placeBranch {E : Type} (key : BitSlice) (k : NodeKey) (height : Nat) (common : Path) (branch : Node) : M E Unit := do
  let newNode ← if common.isEmpty then pure branch
    else do
      let branchId ← insertNode branch
      pure (Node.edge ⟨none, height, common, .inMemory branchId⟩)
  addDeathRow (.trie (bitsliceToBytes (key.upTo height)))
  setNode k newNode

omit [FeltCodec] in
/-- A split makes the two children, and places the branch. -/
theorem splitEdge_eq {key : BitSlice} {common new old : Path} {b : Bool} {m : Option Felt} {ch h₁ h₂ : NodeHandle}
    {nodes₁ nodes₂ : SlotMap Node} (keyBytes : ByteVec) (v : Felt) (hkey : key.bits = p ++ (common ++ b :: new))
    (hrun₁ : ∀ s, s.nodes = tree.nodes →
      (MerkleTree.edgeOrChild (p ++ common ++ [b]).length new (.hash v) : MerkleTree.M E NodeHandle) s =
        .ok h₁ { s with nodes := nodes₁ })
    (hrun₂ : ∀ s, s.nodes = nodes₁ →
      (MerkleTree.edgeOrChild (p ++ common ++ [!b]).length old ch : MerkleTree.M E NodeHandle) s =
        .ok h₂ { s with nodes := nodes₂ }) :
    (MerkleTree.splitEdge key keyBytes v k ⟨m, p.length, common ++ (!b) :: old, ch⟩ : MerkleTree.M E Unit) tree =
      MerkleTree.placeBranch key k p.length common (branchNode b (p ++ common).length h₁ h₂) { tree with
        nodes := nodes₂
        cacheLeafModified := tree.cacheLeafModified.insert keyBytes (.insert v) } := by
  have hcommon : EdgeNode.commonPath ⟨m, p.length, common ++ (!b) :: old, ch⟩ key.bits = common := by
    rw [hkey]; exact commonPath_diverge rfl rfl
  have hnew : key.bits.drop (p.length + common.length + 1) = new := by
    rw [hkey, show p ++ (common ++ b :: new) = (p ++ common ++ [b]) ++ new by simp,
      show p.length + common.length + 1 = (p ++ common ++ [b]).length by simp; omega, List.drop_left]
  have hold : (common ++ (!b) :: old).drop (common.length + 1) = old := by
    rw [show common ++ (!b) :: old = (common ++ [!b]) ++ old by simp,
      show common.length + 1 = (common ++ [!b]).length by simp, List.drop_left]
  have hbit : key.bits[p.length + common.length]? = some b := by
    rw [hkey, ← List.append_assoc, ← List.length_append, List.getElem?_append_right le_rfl]; simp
  have hlen : ¬ (key.len < p.length + common.length + 1 ∨ (common ++ (!b) :: old).length < common.length + 1) := by
    simp only [BitSlice.len, hkey, List.length_append, List.length_cons]; omega
  have hd (x : Bool) : p.length + common.length + 1 = (p ++ common ++ [x]).length := by
    simp only [List.length_append, List.length_singleton]
  simp only [MerkleTree.splitEdge, hcommon, hnew, hold, hbit, Option.map_some]
  rw [if_neg hlen]
  refine Eq.trans (bind_ok (modify_run _ tree) _) ?_
  refine Eq.trans (bind_ok (by rw [hd b]; exact hrun₁ _ rfl) _) ?_
  refine Eq.trans (bind_ok (by rw [hd (!b)]; exact hrun₂ _ rfl) _) ?_
  refine Eq.trans (bind_ok (MerkleTree.orPanic_some _ _ _) _) ?_
  rw [← List.length_append]
  rfl

/-- The nodes of a split edge: the node itself is changed, others are new. -/
theorem splitEdge_ok {key : BitSlice} {common new old : Path} {b : Bool} {m : Option Felt} {ch : NodeHandle}
    {c : Trie Felt} (keyBytes : ByteVec) (v : Felt)
    (hk : tree.nodes.slots k = some (.edge ⟨m, p.length, common ++ (!b) :: old, ch⟩))
    (hkey : key.bits = p ++ (common ++ b :: new))
    (hc : Rep H memo tree.nodes.slots disk ch (p ++ (common ++ (!b) :: old)) c ks) (hks : k ∉ ks) :
    ∃ nodes node js ks'', Grows tree.nodes nodes js ∧
      (MerkleTree.splitEdge key keyBytes v k ⟨m, p.length, common ++ (!b) :: old, ch⟩ : MerkleTree.M E Unit) tree =
        .ok () { tree with
          nodes := nodes.set k node
          deathRow := tree.deathRow.insert (.trie (bitsliceToBytes (key.upTo p.length))) ()
          cacheLeafModified := tree.cacheLeafModified.insert keyBytes (.insert v) } ∧
      Rep H memo (nodes.set k node).slots disk (.inMemory k) p (.split common b new v old c) ks'' ∧
      ks''.Perm (k :: (js ++ ks)) := by
  -- the two children of the branch
  have hpb : p ++ (common ++ (!b) :: old) = (p ++ common ++ [!b]) ++ old := by simp
  rw [hpb] at hc
  obtain ⟨h₁, nodes₁, js₁, hrun₁, hg₁, hr₁⟩ := edgeOrChild_ok (E := E) (p := p ++ common ++ [b]) (q := new)
    (rep_leaf v : Rep H memo tree.nodes.slots disk (.hash v) _ (.leaf v) [])
  have hc₁ := hc.congr (fun j hj => hg₁.keep j (hc.isSome j hj)) fun _ _ => rfl
  obtain ⟨h₂, nodes₂, js₂, hrun₂, hg₂, hr₂⟩ := edgeOrChild_ok (E := E) hc₁
  have hr₁ := hr₁.congr (fun j hj => hg₂.keep j (hr₁.isSome j hj)) fun _ _ => rfl
  have hg := hg₁.trans hg₂
  have hk₂ : nodes₂.slots k = some (.edge ⟨m, p.length, common ++ (!b) :: old, ch⟩) := (hg.keep k (by simp [hk])).trans hk
  have hkj : k ∉ js₁ ++ js₂ := fun h => by simpa [hk] using hg.fresh k h
  let tree₂ : MerkleTree :=
    { tree with nodes := nodes₂, cacheLeafModified := tree.cacheLeafModified.insert keyBytes (.insert v) }
  have hrun : (MerkleTree.splitEdge key keyBytes v k ⟨m, p.length, common ++ (!b) :: old, ch⟩ : MerkleTree.M E Unit) tree =
      MerkleTree.placeBranch key k p.length common (branchNode b (p ++ common).length h₁ h₂) tree₂ :=
    splitEdge_eq keyBytes v hkey hrun₁ hrun₂
  by_cases hce : common = []
  · subst hce
    let node := branchNode b p.length h₁ h₂
    have hne : ∀ j, j ∈ (js₁ ++ []) ++ (js₂ ++ ks) → (nodes₂.set k node).slots j = nodes₂.slots j := fun j hj =>
      SlotMap.set_slots_of_ne _ _ (by rintro rfl; simp at hj hkj; tauto)
    have hr₁' := hr₁.congr (fun j hj => hne j (List.mem_append_left _ hj)) fun _ _ => rfl
    have hr₂' := hr₂.congr (fun j hj => hne j (List.mem_append_right _ hj)) fun _ _ => rfl
    rw [List.append_nil] at hr₁' hr₂'
    obtain ⟨ks'', hr, hperm⟩ := rep_branch (SlotMap.set_slots_self (by simp [hk₂]) node) hr₁' hr₂'
    refine ⟨nodes₂, node, js₁ ++ js₂, ks'', hg, ?_, hr, by simpa using hperm⟩
    rw [hrun, MerkleTree.placeBranch]
    simp only [List.isEmpty_nil, if_true, pure_bind, List.append_nil]
    refine Eq.trans (bind_ok (modify_run _ tree₂) _) ?_
    exact MerkleTree.setNode_ok (by simp [tree₂, hk₂]) _
  · let branch := branchNode b (p ++ common).length h₁ h₂
    let node : Node := .edge ⟨none, p.length, common, .inMemory nodes₂.next⟩
    have hg₃ := Grows.insert nodes₂ branch
    have hk₃ : ((nodes₂.insert branch).2.slots k).isSome := by rw [hg₃.keep k (by simp [hk₂]), hk₂]; rfl
    have hne (j : NodeKey) (hj : j ≠ k) : ((nodes₂.insert branch).2.set k node).slots j = (nodes₂.insert branch).2.slots j :=
      SlotMap.set_slots_of_ne _ _ hj
    have hnext : nodes₂.next ≠ k := fun e => by
      have := nodes₂.next_slots
      rw [e, hk₂] at this; cases this
    have hr₁' := hr₁.congr
      (fun j hj => show ((nodes₂.insert branch).2.set k node).slots j = _ by
        rw [hne j (by rintro rfl; simp at hj hkj; tauto), hg₃.keep j (hr₁.isSome j hj)]) fun _ _ => rfl
    have hr₂' := hr₂.congr
      (fun j hj => show ((nodes₂.insert branch).2.set k node).slots j = _ by
        rw [hne j (by rintro rfl; simp at hj hkj; tauto), hg₃.keep j (hr₂.isSome j hj)]) fun _ _ => rfl
    obtain ⟨ks'', hr, hperm⟩ := rep_branch (k := nodes₂.next)
      (by rw [hne _ hnext, SlotMap.insert_slots, if_pos rfl]) hr₁' hr₂'
    refine ⟨(nodes₂.insert branch).2, node, _, k :: ks'', hg.trans hg₃, ?_, ?_, ?_⟩
    · rw [hrun, MerkleTree.placeBranch, if_neg (by simpa using hce)]
      have hins : (MerkleTree.insertNode branch : MerkleTree.M E NodeKey) tree₂ =
          .ok nodes₂.next { tree₂ with nodes := (nodes₂.insert branch).2 } := rfl
      refine Eq.trans (bind_ok hins _) ?_
      simp only [pure_bind]
      refine Eq.trans (bind_ok (modify_run _ _) _) ?_
      exact MerkleTree.setNode_ok (s := { tree₂ with
        nodes := (nodes₂.insert branch).2
        deathRow := tree.deathRow.insert (.trie (bitsliceToBytes (key.upTo p.length))) () }) hk₃ _
    · rw [Trie.split, Trie.ext_of_ne_nil _ hce]
      exact .edge (SlotMap.set_slots_self hk₃ node) (fun _ h => by cases h) hr
    · refine .cons _ (hperm.trans ?_)
      simp only [List.append_nil, List.append_assoc, List.singleton_append]
      calc (nodes₂.next :: (js₁ ++ (js₂ ++ ks))).Perm (js₁ ++ (nodes₂.next :: (js₂ ++ ks))) := List.perm_middle.symm
        _ |>.Perm (js₁ ++ (js₂ ++ nodes₂.next :: ks)) := List.perm_middle.symm.append_left _

/-- The nodes of the way to a key that `set` keeps: not an edge that the key leaves. -/
def Way.keptBySet (key : Path) (w : Way) : Way := if w.path = key then w else w.tail

/-- The value of a leaf at the end of a walk is changed. -/
theorem setAt_leaf {key : BitSlice} {f : Frame Felt} {v₀ : Felt} {node : Node} (keyBytes : ByteVec) (v : Felt)
    (hf : RepFrame H memo tree.nodes.slots disk k p (.hash v₀) t f ks) (hk : tree.nodes.slots k = some node)
    (hkey : key.bits = p ++ f.tip) :
    (MerkleTree.setAt key keyBytes v k : MerkleTree.M E Unit) tree = .ok () { tree with
      nodes := tree.nodes.set k (refill f (.hash v) node)
      cacheLeafModified := tree.cacheLeafModified.insert keyBytes (.insert v) } := by
  rw [MerkleTree.setAt, bind_ok (MerkleTree.getNodeMut_ok hk)]
  have hset (nd : Node) := MerkleTree.setNode_ok (E := E) (k := k) (s := { tree with
    cacheLeafModified := tree.cacheLeafModified.insert keyBytes (.insert v) }) (by simp [hk]) nd
  have hbit (b : Bool) (hb : f.tip = [b]) : key.bits[p.length]? = some b := by
    rw [hkey, hb, List.getElem?_append_right le_rfl]; simp
  cases hf with
  | left h₀ _ _ =>
    obtain rfl := Option.some.inj (hk.symm.trans h₀)
    simp only [if_pos (show p.length + 1 = key.len by simp [BitSlice.len, hkey, Frame.tip]), BinaryNode.direction,
      hbit false rfl, Option.map_some]
    refine Eq.trans (bind_ok (MerkleTree.orPanic_some _ _ tree) _) ?_
    refine Eq.trans (bind_ok (modify_run _ tree) _) ?_
    exact hset _
  | right h₀ _ _ =>
    obtain rfl := Option.some.inj (hk.symm.trans h₀)
    simp only [if_pos (show p.length + 1 = key.len by simp [BitSlice.len, hkey, Frame.tip]), BinaryNode.direction,
      hbit true rfl, Option.map_some]
    refine Eq.trans (bind_ok (MerkleTree.orPanic_some _ _ tree) _) ?_
    refine Eq.trans (bind_ok (modify_run _ tree) _) ?_
    exact hset _
  | @edge m q h₀ _ =>
    obtain rfl := Option.some.inj (hk.symm.trans h₀)
    have hcommon : EdgeNode.commonPath ⟨m, p.length, q, .hash v₀⟩ key.bits = q := by
      rw [hkey]; exact commonPath_follow (e := ⟨m, p.length, q, .hash v₀⟩) rfl
    simp only [hcommon]
    rw [if_pos (by simp [BitSlice.len, hkey, Frame.tip])]
    refine Eq.trans (bind_ok (modify_run _ tree) _) ?_
    exact hset _

/-- A call at the end of a way that gives the key the value in a canonical trie, where no node of `t` goes. -/
def Puts {E : Type} (H : StarkHash) (memo : Memo) (cols : Columns) (n : Nat) (root : NodeHandle) (w : Way) (k : NodeKey)
    (t : Trie Felt) (key : Path) (keyBytes : ByteVec) (v : Felt) (tree : MerkleTree)
    (result : EStateM.Result (Failure E) MerkleTree Unit) : Prop :=
  ∃ (nodes : SlotMap Node) (deathRow : HashSet TrieKey) (s : Trie Felt) (ks₁ ks₂ : List NodeKey),
    result = .ok () { tree with
      nodes := nodes
      deathRow := deathRow
      cacheLeafModified := tree.cacheLeafModified.insert keyBytes (.insert v) } ∧
    Buries tree.deathRow deathRow ∧
    Focus H memo nodes.slots ({ tree with deathRow := deathRow }.disk cols) root w (.inMemory k) s ks₁ ks₂ ∧
    (w.plug s).WF n ∧ (∀ q, t.HasNode q → (w.plug s).HasNode q) ∧
    ∀ q, (w.plug s).lookup q = if q = key then some v else t.lookup q

variable (tree) in
/-- The key ends at a leaf: its value is changed. -/
theorem setAt_there {key : BitSlice} {f : Frame Felt} {n : Nat} (keyBytes : ByteVec) (v : Felt)
    (hF : Focus H memo tree.nodes.slots (tree.disk cols) root ((k, f) :: w) h t ks ks')
    (hl : Way.Loose memo tree.nodes.slots ((k, f) :: w)) (hw : (Way.plug ((k, f) :: w) t).WF n)
    (hn : key.bits.length = n) (hpath : Way.path ((k, f) :: w) = key.bits) :
    Puts H memo cols n root w k (Way.plug ((k, f) :: w) t) key.bits keyBytes v tree
      ((MerkleTree.setAt key keyBytes v k : MerkleTree.M E Unit) tree) := by
  obtain ⟨ks₁, ks₂, hf, hc, rfl⟩ := hF.last
  obtain ⟨m, hm, ht, hproper, -, hput⟩ := Trie.WF.plug (Way.frames ((k, f) :: w)) hw
  obtain rfl : m = 0 := by
    have : (Way.path ((k, f) :: w)).length = n := by rw [hpath, hn]
    have : (Patricia.path (Way.frames ((k, f) :: w))).length = n := this
    omega
  obtain ⟨v₀, rfl⟩ := ht.eq_leaf
  obtain ⟨rfl, rfl⟩ := hF.rep.leaf_inv
  obtain ⟨node, hk, hf'⟩ := hf.refill
  have hne : ∀ j ∈ ks₁, j ≠ k := by
    have := hF.nodup
    simp only [List.append_nil, List.nodup_cons] at this
    rintro j hj rfl
    exact this.1 (List.mem_append_left _ hj)
  have hf'' := (hf' (tree.nodes.set k (refill f (.hash v) node)).slots (.hash v)
    (SlotMap.set_slots_self (by simp [hk]) _) fun j hj => SlotMap.set_slots_of_ne _ _ (hne j hj)).retarget
    (by
      rw [SlotMap.set_slots_self (by simp [hk])]
      rintro nd x ⟨⟩ hx
      rw [getHash_refill] at hx
      exact hl _ List.mem_cons_self node x hk hx) (.leaf v)
  obtain ⟨ks'', hr, hperm⟩ := hf''.fill (rep_leaf v)
  refine ⟨_, tree.deathRow, f.fill (.leaf v), ks₂, ks'', setAt_leaf keyBytes v hf hk hpath.symm, .refl _, ?_, ?_, ?_, ?_⟩
  · exact Focus.rewrite hc hl.tail hF.nodup hF.total (.refl _) rfl hr hperm fun _ _ _ => rfl
  · exact hput (.leaf v) (.leaf v) fun h => h.elim
  · exact fun q hq => Way.hasNode_plug_mono (w := (k, f) :: w) hproper (fun q h => (Trie.hasNode_leaf v₀ q h).elim) hq
  · intro q
    have := Way.lookup_plug_update (w := (k, f) :: w) (s := .leaf v₀) (r := .leaf v) (k := []) (o := some v)
      (by intro k'; cases k' <;> rfl) q
    rwa [List.append_nil, hpath] at this

variable (tree) in
/-- The key leaves the last edge: it is split. -/
theorem setAt_apart {key : BitSlice} {q : Path} {n : Nat} (keyBytes : ByteVec) (v : Felt)
    (hF : Focus H memo tree.nodes.slots (tree.disk cols) root ((k, .edge q) :: w) h t ks ks')
    (hl : w.Loose memo tree.nodes.slots) (hw : (Way.plug ((k, .edge q) :: w) t).WF n) (hn : key.bits.length = n)
    (hp : w.path <+: key.bits) (hnp : ¬ Way.path ((k, .edge q) :: w) <+: key.bits)
    (hstray : NoStray tree.identifier (Way.plug ((k, .edge q) :: w) t) key) :
    Puts H memo cols n root w k (Way.plug ((k, .edge q) :: w) t) key.bits keyBytes v tree
      ((MerkleTree.setAt key keyBytes v k : MerkleTree.M E Unit) tree) := by
  obtain ⟨ks₁, ks₂, hf, hc, rfl⟩ := hF.last
  obtain ⟨m, hm, hwf, hproper, hedge, hput⟩ := Trie.WF.plug (t := .edge q t) w.frames hw
  have hm : n = w.path.length + m := hm
  obtain ⟨i, rfl, hq, -, -⟩ := hwf.edge_inv
  obtain ⟨rest, hrest⟩ := hp
  have hlen : w.path.length + rest.length = n := by rw [← hn, ← hrest, List.length_append]
  obtain ⟨common, b, new, old, rfl, rfl⟩ := exists_diverge
    (fun h => hnp (by rw [← hrest, Way.path_cons]; exact (List.prefix_append_right_inj _).mpr h)) (by omega : q.length ≤ rest.length)
  cases hf with
  | @edge m₀ _ hk _ =>
    have htake : key.bits.take w.path.length = w.path := by rw [← hrest, List.take_left]
    -- the split hides the edge's own node at most
    let deathRow := tree.deathRow.insert (.trie (bitsliceToBytes (key.upTo w.path.length))) ()
    have hdisk : ∀ p, (Way.plug ((k, .edge (common ++ (!b) :: old)) :: w) t).HasNode p → p ≠ w.path →
        { tree with deathRow := deathRow }.disk cols p = tree.disk cols p := by
      intro p hp hne
      have := hstray w.path.length (common ++ (!b) :: old) t (by rw [htake]; exact Way.sub_plug rfl hw)
        (by rw [← hrest, List.drop_left]; simp) p hp (by rwa [htake])
      simp only [MerkleTree.disk, deathRow]
      rw [AList.lookup_insert_ne]
      rintro h
      simp only [TrieKey.new, TrieKey.trie.injEq] at h
      exact this h.symm
    have hnk : k ∉ ks' := fun h => (List.nodup_append.mp hF.nodup).2.2 k List.mem_cons_self k h rfl
    have hrep := hF.rep.congr (fun j _ => (rfl : tree.nodes.slots j = _))
      fun q hq => hdisk _ (Way.hasNode_plug _ hq) (by simp [Frame.tip])
    obtain ⟨nodes, node, js, ks'', hg, hrun, hr, hperm⟩ := splitEdge_ok (E := E) keyBytes v hk hrest.symm hrep hnk
    refine ⟨nodes.set k node, deathRow, .split common b new v old t, ks₂, ks'', ?_, Buries.insert _ _, ?_, ?_, ?_, ?_⟩
    · rw [MerkleTree.setAt, bind_ok (MerkleTree.getNodeMut_ok hk)]
      have hcommon : EdgeNode.commonPath ⟨m₀, w.path.length, common ++ (!b) :: old, h⟩ key.bits = common := by
        rw [← hrest]; exact commonPath_diverge rfl rfl
      simp only [hcommon]
      rw [if_neg (by simp only [BitSlice.len, ← hrest, List.length_append, List.length_cons]; omega), hrun]
    · exact Focus.rewrite hc hl hF.nodup hF.total hg rfl hr hperm fun p hp hnp => hdisk p hp (by
        rintro rfl; exact hnp List.prefix_rfl)
    · exact hput _ (hwf.split v (by simp only [List.length_append, List.length_cons] at hlen hm ⊢; omega))
        fun _ => hedge trivial
    · exact fun p hp => Way.hasNode_plug_mono hproper (fun q hq => hq.split) hp
    · intro p
      have := Way.lookup_plug_update (w := w) (s := .edge (common ++ (!b) :: old) t)
        (r := .split common b new v old t) (k := common ++ b :: new) (o := some v)
        (Trie.lookup_split common b new v old t) p
      rwa [hrest] at this

variable (tree) in
/-- What `set` does at the end of a walk. -/
theorem setAt_ok {key : BitSlice} {f : Frame Felt} {n : Nat} (keyBytes : ByteVec) (v : Felt)
    (hF : Focus H memo tree.nodes.slots (tree.disk cols) root ((k, f) :: w) h t ks ks')
    (hl : (Way.keptBySet key.bits ((k, f) :: w)).Loose memo tree.nodes.slots) (hw : (Way.plug ((k, f) :: w) t).WF n)
    (hn : key.bits.length = n) (hend : Ended key.bits ((k, f) :: w))
    (hstray : NoStray tree.identifier (Way.plug ((k, f) :: w) t) key) :
    Puts H memo cols n root w k (Way.plug ((k, f) :: w) t) key.bits keyBytes v tree
      ((MerkleTree.setAt key keyBytes v k : MerkleTree.M E Unit) tree) := by
  rcases hend with hpath | ⟨k', q, w', heq, hp, hnp⟩
  · rw [Way.keptBySet, if_pos hpath] at hl
    exact setAt_there tree keyBytes v hF hl hw hn hpath
  · obtain ⟨⟨rfl, rfl⟩, rfl⟩ : (k = k' ∧ f = .edge q) ∧ w = w' := by simpa using heq
    have hne : Way.path ((k, .edge q) :: w) ≠ key.bits := fun h => hnp (h ▸ List.prefix_rfl)
    rw [Way.keptBySet, if_neg hne, List.tail_cons] at hl
    exact setAt_apart tree keyBytes v hF hl hw hn hp hnp hstray

end

/-! ## The call -/

section

variable [FeltCodec] {DB ID : Type} [BonsaiDatabase DB] [InfallibleDatabase DB] {db : KeyValueDB DB ID}
  {H : StarkHash} {memo : Memo} {n : Nat} {tree : MerkleTree} {T : Option (Trie Felt)} {key : BitSlice}

/-- A tree after a change: what it stands for, and what it has in common with the tree before. -/
structure Written (H : StarkHash) (memo : Memo) (n : Nat) (cols : Columns) (tree tree' : MerkleTree) (T' : Option (Trie Felt))
    (keyBytes : ByteVec) (value : InsertOrRemove Felt) : Prop where
  rep : TreeRep H memo n cols tree' T'
  identifier : tree'.identifier = tree.identifier
  cache : tree'.cacheLeafModified = tree.cacheLeafModified.insert keyBytes value

/-- Of the nodes that seeking a key of the trie meets, those kept have memos that any trie may have. -/
def LooseWay (H : StarkHash) (memo : Memo) (db : KeyValueDB DB ID) (tree : MerkleTree) (t : Trie Felt) (key : Path)
    (kept : Way → Way) : Prop :=
  ∀ (w : Way) root nodes h s ks ks', MerkleTree.seekTo db key tree = .ok w.crumbs { tree with nodes := nodes, rootNode := root } →
    ∀ k, root = some (.loaded k) → Focus H memo nodes.slots (tree.disk db.columns) (.inMemory k) w h s ks ks' →
      w.plug s = t → Ended key w → (kept w).Loose memo nodes.slots

theorem looseWay_anyMemo (db : KeyValueDB DB ID) (tree : MerkleTree) (t : Trie Felt) (key : Path) (kept : Way → Way) :
    LooseWay H anyMemo db tree t key kept :=
  fun _ _ _ _ _ _ _ _ _ _ _ _ _ _ _ => loose_anyMemo _

/-- `set`, past the early exits, gives the key the value. -/
theorem setWalk_ok (hR : TreeRep H memo n db.columns tree T) (hlaw : memo.Lawful H) (hn : 0 < n) (hkey : key.len = n)
    (v : Felt) (hloose : ∀ t, T = some t → LooseWay H memo db tree t key.bits (Way.keptBySet key.bits))
    (hstray : ∀ t, T = some t → NoStray tree.identifier t key) :
    ∃ tree' T', MerkleTree.setWalk db key v tree = .ok () tree' ∧
      Written H memo n db.columns tree tree' T' (bitsliceToBytes key) (.insert v) ∧
      ∀ q, content T' q = if q = key.bits then some v else content T q := by
  cases T with
  | none =>
    have hne : key.bits ≠ [] := fun h => by rw [BitSlice.len, h] at hkey; simp at hkey; omega
    let node : Node := .edge ⟨none, 0, key.bits, .hash v⟩
    have hempty : ∀ k, tree.nodes.slots k = none := by
      obtain ⟨-, hr, -⟩ := hR
      cases hr' : tree.rootNode with
      | none => rw [hr'] at hr; cases hr with | noTrie h => exact h
      | some r => rw [hr'] at hr; cases hr with | empty h => exact h
    have hrep : Rep H memo (tree.nodes.insert node).2.slots (tree.disk db.columns) (.inMemory tree.nodes.next) []
        (.edge key.bits (.leaf v)) [tree.nodes.next] :=
      .edge (by rw [SlotMap.insert_slots, if_pos rfl]; rfl) (fun _ h => by cases h) (rep_leaf v)
    let tree' : MerkleTree := { tree with
      rootNode := some (.loaded tree.nodes.next)
      nodes := (tree.nodes.insert node).2
      cacheLeafModified := tree.cacheLeafModified.insert (bitsliceToBytes key) (.insert v) }
    refine ⟨tree', some (.edge key.bits (.leaf v)), ?_, ⟨⟨hR.height, ?_, ?_, fun p hp hs => ?_, hR.deathRow⟩, rfl, rfl⟩, fun q => ?_⟩
    · rw [MerkleTree.setWalk, bind_ok (seekTo_empty hR hne)]
      rfl
    · refine .loaded ⟨.nil, hrep, by simp, fun j => ?_⟩
      simp only [tree', SlotMap.insert_slots]
      by_cases hj : j = tree.nodes.next <;> simp [hj, hempty]
    · rintro _ ⟨⟩
      have := Trie.WF.edge hne (.leaf v) (Trie.not_isEdge_leaf v)
      rwa [Nat.add_zero, show key.bits.length = n from hkey] at this
    · obtain ⟨t, h, -⟩ := hR.only p hp hs
      cases h
    · rw [content_some, ← Trie.ext_of_ne_nil _ hne, Trie.lookup_ext_leaf]
      rfl
  | some t =>
    obtain ⟨w, h, s, k₀, nodes₀, ks, ks', hseek, hF, rfl, hend, hne, hknown⟩ := seekTo_ok hR hlaw hn hkey
    obtain ⟨⟨k, f⟩, w, rfl⟩ := List.exists_cons_of_ne_nil hne
    obtain ⟨nodes, deathRow, s', ks₁, ks₂, hrun, hb, hF', hwf, hnode, hlook⟩ :=
      setAt_ok (E := BonsaiDatabase.DatabaseError DB) { tree with nodes := nodes₀, rootNode := some (.loaded k₀) }
        (bitsliceToBytes key) v hF (hloose _ rfl _ _ _ _ _ _ _ hseek _ rfl hF rfl hend) (hR.wf _ rfl) hkey hend (hstray _ rfl)
    obtain ⟨ks₃, hF'⟩ := hF'.up_root
    let tree' : MerkleTree := { tree with
      nodes := nodes
      rootNode := some (.loaded k₀)
      deathRow := deathRow
      cacheLeafModified := tree.cacheLeafModified.insert (bitsliceToBytes key) (.insert v) }
    refine ⟨tree', some (Way.plug w s'), ?_, ⟨⟨hR.height, .loaded hF', ?_, fun p hp hs => ?_, fun b => hb.flat b (hR.deathRow b)⟩,
      rfl, rfl⟩, hlook⟩
    · rw [MerkleTree.setWalk, bind_ok hseek]
      simp only [Way.getLast?_crumbs]
      exact hrun
    · rintro _ ⟨⟩
      exact hwf
    · have hd : tree'.disk db.columns p = tree.disk db.columns p := Buries.disk_eq tree tree' hb rfl hs
      rw [hd] at hs
      obtain ⟨t, ht, hp⟩ := hR.only p hp hs
      obtain rfl := Option.some.inj ht
      exact ⟨_, rfl, hnode p hp⟩

end

end Bonsai
