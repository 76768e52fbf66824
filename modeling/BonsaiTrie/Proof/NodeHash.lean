import BonsaiTrie.Proof.CommitTree

/-!
# Hashing what is in memory

`get_or_compute_node_hash` returns a hash that the memos of the nodes below a
handle allow (`getOrComputeNodeHash_ok`), and fills in memos; the nodes stand
for the same trie. `ProofVisitor` puts the node it is shown in its map, under
such a hash (`proofVisitor_visits`), so that `get_multi_proof` changes nothing
but what is in memory (`getMultiProof_ok`).
-/

namespace Bonsai

open Patricia Run

/-- There are no more nodes below a handle than keys were given out. -/
theorem Rep.length_le_next [FeltCodec] {H : StarkHash} {memo : Memo} {m : SlotMap Node} {disk : Disk} {h : NodeHandle}
    {p : Path} {t : Trie Felt} {ks : List NodeKey} (hr : Rep H memo m.slots disk h p t ks) (hks : ks.Nodup) :
    ks.length ≤ m.next := SlotMap.length_le_next hks hr.isSome

section

variable [FeltCodec] {E : Type} {H : StarkHash} {memo : Memo} {nodes : NodeKey → Option Node} {disk : Disk}
  {h : NodeHandle} {p : Path} {t : Trie Felt} {ks : List NodeKey} {n : Nat} {tree : MerkleTree} {k : NodeKey}

/-- Hashing the handle of a trie: the hash, and the memos that were filled in. -/
def Hashed (H : StarkHash) (memo : Memo) (disk : Disk) (h : NodeHandle) (p : Path) (t : Trie Felt) (ks : List NodeKey)
    (tree : MerkleTree) (r : EStateM.Result (Failure E) MerkleTree Felt) : Prop :=
  ∃ v nodes, r = .ok v { tree with nodes := nodes } ∧ memo t v ∧ Rep H memo nodes.slots disk h p t ks ∧
    ∀ j, j ∉ ks → nodes.slots j = tree.nodes.slots j

omit [FeltCodec] in
variable (tree) in
theorem memoise_ok {node : Node} (hk : tree.nodes.slots k = some node) (v : Felt) :
    (MerkleTree.memoise k v : MerkleTree.M E Felt) tree =
      .ok v { tree with nodes := tree.nodes.set k (node.setHash v) } :=
  (bind_ok (MerkleTree.getNodeMut_ok hk) _).trans (bind_ok (MerkleTree.putNode_ok (by rw [hk]; rfl) _) _)

/-- The hash is a memo, or is computed from those of the children and becomes one. -/
theorem getOrComputeNodeHash_ok (hr : Rep H memo nodes disk h p t ks) (hlaw : memo.Lawful H) (ht : t.WF n)
    (hn : n ≤ 256) (hks : ks.Nodup) (tree : MerkleTree) (htree : ∀ j ∈ ks, tree.nodes.slots j = nodes j) (fuel : Nat)
    (hf : ks.length ≤ fuel) :
    Hashed H memo disk h p t ks tree (MerkleTree.getOrComputeNodeHash H fuel h tree : EStateM.Result (Failure E) _ _) := by
  induction hr generalizing n tree fuel with
  | stored hs =>
    refine ⟨_, tree.nodes, ?_, hlaw.hash _, .stored hs, fun _ _ => rfl⟩
    cases fuel <;> rfl
  | @edge p k m q ch c ks hk hm hc ih =>
    obtain ⟨fuel, rfl⟩ : ∃ f, fuel = f + 1 := ⟨fuel - 1, by simp only [List.length_cons] at hf; omega⟩
    obtain ⟨i, rfl, -, hwf, -⟩ := ht.edge_inv
    obtain ⟨hnk, hnd⟩ := List.nodup_cons.mp hks
    have hk' : tree.nodes.slots k = some (.edge ⟨m, p.length, q, ch⟩) := (htree k List.mem_cons_self).trans hk
    rw [MerkleTree.getOrComputeNodeHash, bind_ok (MerkleTree.getNodeMut_ok hk')]
    cases m with
    | some x =>
      exact ⟨x, tree.nodes, rfl, hm x rfl, (Rep.edge hk hm hc).congr htree fun _ _ => rfl, fun _ _ => rfl⟩
    | none =>
      obtain ⟨v, nodes', hrun, hv, hrep, hkeep⟩ := ih hwf (by omega) hnd tree
        (fun j hj => htree j (List.mem_cons_of_mem _ hj)) fuel (by simpa using hf)
      have hk₁ : nodes'.slots k = some (.edge ⟨none, p.length, q, ch⟩) := (hkeep k hnk).trans hk'
      refine ⟨edgeHash H q v, nodes'.set k (.edge ⟨some (edgeHash H q v), p.length, q, ch⟩), ?_, hlaw.edge hv,
        .edge (SlotMap.set_slots_self (by rw [hk₁]; rfl) _) ?_ (hrep.congr (fun j hj => ?_) fun _ _ => rfl), fun j hj => ?_⟩
      · have hq : q.length ≤ 256 := by omega
        refine (bind_ok hrun _).trans ?_
        refine (bind_ok (MerkleTree.lift_ok (hashEdge_ok v hq) _) _).trans ?_
        exact memoise_ok { tree with nodes := nodes' } hk₁ _
      · rintro x ⟨⟩
        exact hlaw.edge hv
      · exact SlotMap.set_slots_of_ne _ _ (by rintro rfl; exact hnk hj)
      · obtain ⟨hne, hj⟩ := not_or.mp (mt List.mem_cons.mpr hj)
        rw [SlotMap.set_slots_of_ne _ _ hne, hkeep j hj]
  | @binary p k m lh rh l r ks ks' hk hm hl hr ihl ihr =>
    obtain ⟨fuel, rfl⟩ : ∃ f, fuel = f + 1 := ⟨fuel - 1, by simp only [List.length_cons] at hf; omega⟩
    simp only [List.length_cons, List.length_append] at hf
    obtain ⟨i, rfl, hwl, hwr⟩ := ht.binary_inv
    obtain ⟨hnk, hnd⟩ := List.nodup_cons.mp hks
    have hdisj := (List.nodup_append.mp hnd).2.2
    have hk' : tree.nodes.slots k = some (.binary ⟨m, p.length, lh, rh⟩) := (htree k List.mem_cons_self).trans hk
    rw [MerkleTree.getOrComputeNodeHash, bind_ok (MerkleTree.getNodeMut_ok hk')]
    cases m with
    | some x =>
      exact ⟨x, tree.nodes, rfl, hm x rfl, (Rep.binary hk hm hl hr).congr htree fun _ _ => rfl, fun _ _ => rfl⟩
    | none =>
      have hsub : ∀ j ∈ ks ++ ks', tree.nodes.slots j = nodes j := fun j hj => htree j (List.mem_cons_of_mem _ hj)
      obtain ⟨a, nodes₁, hrunl, ha, hrepl, hkeepl⟩ := ihl hwl (by omega) (List.nodup_append.mp hnd).1 tree
        (fun j hj => hsub j (List.mem_append_left _ hj)) fuel (by omega)
      have hright : ∀ j ∈ ks', nodes₁.slots j = nodes j := fun j hj => by
        rw [hkeepl j fun hj' => hdisj j hj' j hj rfl, hsub j (List.mem_append_right _ hj)]
      obtain ⟨b, nodes₂, hrunr, hb, hrepr, hkeepr⟩ := ihr hwr (by omega) (List.nodup_append.mp hnd).2.1
        { tree with nodes := nodes₁ } hright fuel (by omega)
      have hk₂ : nodes₂.slots k = some (.binary ⟨none, p.length, lh, rh⟩) := by
        rw [hkeepr k fun hj => hnk (List.mem_append_right _ hj), hkeepl k fun hj => hnk (List.mem_append_left _ hj), hk']
      have hset (j : NodeKey) (hj : j ∈ ks ++ ks') (node : Node) : (nodes₂.set k node).slots j = nodes₂.slots j :=
        SlotMap.set_slots_of_ne _ _ (by rintro rfl; exact hnk hj)
      refine ⟨hashBinaryNode H a b, nodes₂.set k (.binary ⟨some (hashBinaryNode H a b), p.length, lh, rh⟩), ?_,
        hlaw.binary ha hb, .binary (SlotMap.set_slots_self (by rw [hk₂]; rfl) _) ?_
        (hrepl.congr (fun j hj => ?_) fun _ _ => rfl) (hrepr.congr (fun j hj => ?_) fun _ _ => rfl), fun j hj => ?_⟩
      · refine (bind_ok hrunl _).trans ?_
        refine (bind_ok hrunr _).trans ?_
        exact memoise_ok { tree with nodes := nodes₂ } hk₂ _
      · rintro x ⟨⟩
        exact hlaw.binary ha hb
      · rw [hset j (List.mem_append_left _ hj), hkeepr j fun hj' => hdisj j hj j hj' rfl]
      · exact hset j (List.mem_append_right _ hj) _
      · obtain ⟨hne, hj⟩ := not_or.mp (mt List.mem_cons.mpr hj)
        obtain ⟨hj₁, hj₂⟩ := not_or.mp (mt List.mem_append.mpr hj)
        rw [SlotMap.set_slots_of_ne _ _ hne, hkeepr j hj₂, hkeepl j hj₁]

variable (tree) in
theorem nodeHash_ok (hr : Rep H memo tree.nodes.slots disk h p t ks) (hlaw : memo.Lawful H) (ht : t.WF n) (hn : n ≤ 256)
    (hks : ks.Nodup) :
    Hashed H memo disk h p t ks tree (MerkleTree.nodeHash H h tree : EStateM.Result (Failure E) _ _) := by
  have := hr.length_le_next hks
  rw [MerkleTree.nodeHash, bind_ok (MerkleTree.self_run tree)]
  exact getOrComputeNodeHash_ok hr hlaw ht hn hks tree (fun _ _ => rfl) _ (by omega)

/-! ## The nodes of a proof -/

/-- A node of a proof, for the node at the top of a trie. -/
def Proves (memo : Memo) : Trie Felt → ProofNode → Prop
  | .binary l r, .binary a b => memo l a ∧ memo r b
  | .edge q c, .edge a q' => memo c a ∧ q' = q
  | _, _ => False

/-- The node of a proof, from the node at the top of a trie. -/
theorem proofNode_ok (hr : Rep H memo tree.nodes.slots disk (.inMemory k) p t ks) (hlaw : memo.Lawful H) (ht : t.WF n)
    (hn : n ≤ 256) (hks : ks.Nodup) :
    ∃ node pn nodes, tree.nodes.slots k = some node ∧
      (MerkleTree.proofNode H node : MerkleTree.M E ProofNode) tree = .ok pn { tree with nodes := nodes } ∧
      Proves memo t pn ∧ Rep H memo nodes.slots disk (.inMemory k) p t ks ∧
      ∀ j, j ∉ ks → nodes.slots j = tree.nodes.slots j := by
  cases hr with
  | @edge _ _ m q ch c ks hk hm hc =>
    obtain ⟨i, rfl, -, hwf, -⟩ := ht.edge_inv
    obtain ⟨hnk, hnd⟩ := List.nodup_cons.mp hks
    obtain ⟨a, nodes, hrun, ha, hrep, hkeep⟩ := nodeHash_ok (E := E) tree hc hlaw hwf (by omega) hnd
    refine ⟨_, .edge a q, nodes, hk, (bind_ok hrun _).trans rfl, ⟨ha, rfl⟩, .edge ((hkeep k hnk).trans hk) hm hrep,
      fun j hj => hkeep j fun hj' => hj (List.mem_cons_of_mem _ hj')⟩
  | @binary _ _ m lh rh l r ks ks' hk hm hl hr =>
    obtain ⟨i, rfl, hwl, hwr⟩ := ht.binary_inv
    obtain ⟨hnk, hnd⟩ := List.nodup_cons.mp hks
    have hdisj := (List.nodup_append.mp hnd).2.2
    obtain ⟨a, nodes₁, hrunl, ha, hrepl, hkeepl⟩ :=
      nodeHash_ok (E := E) tree hl hlaw hwl (by omega) (List.nodup_append.mp hnd).1
    have hr₁ : Rep H memo nodes₁.slots disk rh (p ++ [true]) r ks' := hr.congr
      (fun j hj => hkeepl j fun hj' => hdisj j hj' j hj rfl) fun _ _ => rfl
    obtain ⟨b, nodes₂, hrunr, hb, hrepr, hkeepr⟩ :=
      nodeHash_ok (E := E) { tree with nodes := nodes₁ } hr₁ hlaw hwr (by omega) (List.nodup_append.mp hnd).2.1
    refine ⟨_, .binary a b, nodes₂, hk, (bind_ok hrunl _).trans ((bind_ok hrunr _).trans rfl), ⟨ha, hb⟩,
      .binary ?_ hm (hrepl.congr (fun j hj => hkeepr j fun hj' => hdisj j hj j hj' rfl) fun _ _ => rfl) hrepr,
      fun j hj => ?_⟩
    · rw [hkeepr k fun hj => hnk (List.mem_append_right _ hj), hkeepl k fun hj => hnk (List.mem_append_left _ hj), hk]
    · obtain ⟨-, hj⟩ := not_or.mp (mt List.mem_cons.mpr hj)
      obtain ⟨hj₁, hj₂⟩ := not_or.mp (mt List.mem_append.mpr hj)
      rw [hkeepr j hj₂, hkeepl j hj₁]

omit [FeltCodec] in
theorem besideVisitor_ok {V α : Type} {m : MerkleTree.M E α} {v : V} {a : α} {tree' : MerkleTree} (h : m tree = .ok a tree') :
    (MerkleTree.besideVisitor m : EStateM (Failure E) (V × MerkleTree) α) (v, tree) = .ok a (v, tree') := by
  rw [MerkleTree.besideVisitor, h]

/-- What `ProofVisitor` keeps and sees, from what adding a node to its map does. -/
theorem proofVisitor_visits {T : Trie Felt} {key : Path} {inv : MultiProof → Prop} {seen : MultiProof → Trie Felt → Prop}
    (hlaw : memo.Lawful H) (hT : T.WF n) (hn : n ≤ 256)
    (hadd : ∀ proof p s pn v, T.sub p = some s → ¬ s.IsLeaf → p <+: key → Proves memo s pn → memo s v → inv proof →
      inv (proof.insert v pn) ∧ seen (proof.insert v pn) s ∧
      ∀ q s', T.sub q = some s' → seen proof s' → seen (proof.insert v pn) s') :
    Visits (E := E) H memo T key inv seen (MerkleTree.proofVisitor H) := by
  intro proof tree disk k p t ks hr hks hsub hp hinv
  obtain ⟨i, hi, hwf⟩ := hT.sub hsub
  obtain ⟨node, pn, nodes₁, hk, hrun₁, hpn, hrep₁, hkeep₁⟩ := proofNode_ok (E := E) hr hlaw hwf (by omega) hks
  obtain ⟨v, nodes₂, hrun₂, hv, hrep₂, hkeep₂⟩ :=
    nodeHash_ok (E := E) { tree with nodes := nodes₁ } hrep₁ hlaw hwf (by omega) hks
  obtain ⟨hinv', hseen, hmono⟩ := hadd proof p t pn v hsub hr.not_isLeaf hp hpn hv hinv
  refine ⟨proof.insert v pn, nodes₂, ?_, hrep₂, fun j hj => (hkeep₂ j hj).trans (hkeep₁ j hj), hinv', hseen, hmono⟩
  refine Eq.trans (bind_ok (besideVisitor_ok (MerkleTree.getNodeMut_ok hk)) _) ?_
  refine Eq.trans (bind_ok (besideVisitor_ok hrun₁) _) ?_
  exact bind_ok (besideVisitor_ok hrun₂) _

end

/-! ## The walks of a proof -/

/-- The nodes that start on the way to a key are those of the walk to it. -/
theorem Way.Seen.of_sub {V : Type} {seen : V → Trie Felt → Prop} {v : V} {w : Way} {t T s : Trie Felt} {key p : Path}
    (h : w.Seen seen v t) (hT : w.plug t = T) (hw : T.WF key.length) (hend : Ended key w) (hp : p <+: key)
    (hs : T.sub p = some s) (hl : ¬ s.IsLeaf) : seen v s := by
  subst hT
  obtain ⟨m, hm, ht, hproper, -⟩ := Trie.WF.plug w.frames hw
  have hsub (r : Path) : (w.plug t).sub (w.path ++ r) = t.sub r := sub_plug_append hproper t r
  -- a node that starts above the end of the way is one of the way's
  have habove (hp : p <+: w.path) (hlt : p.length < w.path.length) : seen v s := by
    clear hend hm ht hsub
    induction w generalizing t with
    | nil => simp at hlt
    | cons kf w ih =>
      obtain ⟨k, f⟩ := kf
      have hproper' : Proper (Way.frames w) := fun g hg => hproper g (List.mem_cons_of_mem _ hg)
      have hsub (r : Path) : (Way.plug w (f.fill t)).sub (Way.path w ++ r) = (f.fill t).sub r := sub_plug_append hproper' _ r
      by_cases hlt' : p.length < (Way.path w).length
      · exact ih h.2 hw hs hproper' (List.prefix_of_prefix_length_le hp (Way.path_prefix [(k, f)] w) hlt'.le) hlt'
      · obtain ⟨r, rfl⟩ := List.prefix_of_prefix_length_le (Way.path_prefix [(k, f)] w) hp (by omega)
        rw [Way.path_cons, List.prefix_append_right_inj] at hp
        rw [Way.path_cons, List.length_append, List.length_append] at hlt
        have hs : (f.fill t).sub r = some s := (hsub r).symm.trans hs
        by_cases hr : r = []
        · subst hr
          rw [Trie.sub_nil] at hs
          exact Option.some.inj hs ▸ h.1
        · have := List.length_pos_of_ne_nil hr
          rcases f with y | x | q
          · simp only [Frame.tip, List.length_singleton] at hlt; omega
          · simp only [Frame.tip, List.length_singleton] at hlt; omega
          · rw [Frame.fill, Trie.sub_edge t hr, if_neg] at hs
            · cases hs
            · intro hq
              have := hq.length_le
              simp only [Frame.tip] at hlt
              omega
  rcases hend with hend | ⟨k, q, w', rfl, hpre, hoff⟩
  · by_cases hlt : p.length < key.length
    · exact habove (hend ▸ hp) (hend ▸ hlt)
    · -- the leaf is no node
      obtain rfl := hp.eq_of_length (le_antisymm hp.length_le (by omega))
      obtain rfl : m = 0 := by have : p.length = w.path.length + m := hm; rw [hend] at this; omega
      obtain ⟨x, rfl⟩ := ht.eq_leaf
      have := hsub []
      rw [List.append_nil, hend, hs] at this
      cases this
      exact (hl trivial).elim
  · have hq : q ≠ [] := hproper (.edge q) List.mem_cons_self
    by_cases hlt : p.length ≤ w'.path.length
    · refine habove ((List.prefix_of_prefix_length_le hp hpre hlt).trans (Way.path_prefix [(k, .edge q)] w')) ?_
      have := List.length_pos_of_ne_nil hq
      rw [Way.path_cons, Frame.tip, List.length_append]
      omega
    · -- nothing starts past the edge the key leaves
      obtain ⟨r, rfl⟩ := List.prefix_of_prefix_length_le hpre hp (by omega)
      have hproper' : Proper (Way.frames w') := fun g hg => hproper g (List.mem_cons_of_mem _ hg)
      have hr : r ≠ [] := by rintro rfl; simp at hlt
      have hs : (Trie.edge q t).sub r = some s := (sub_plug_append hproper' _ r).symm.trans hs
      rw [Trie.sub_edge t hr] at hs
      split at hs
      · rename_i hqr
        refine (hoff ?_).elim
        rw [Way.path_cons, Frame.tip]
        exact ((List.prefix_append_right_inj _).mpr hqr).trans hp
      · cases hs

/-- What `get_multi_proof` returns but for the proof: the first key of another length is refused. -/
def proveAnswer {E : Type} (n : Nat) (keys : List BitSlice) : Except (Failure E) Unit :=
  match keys.find? fun key => key.len ≠ n with
  | none => .ok ()
  | some key => .error (.error (.keyLength n key.len))

theorem proveAnswer_cons_of_len {E : Type} {n : Nat} {key : BitSlice} (h : key.len = n) (keys : List BitSlice) :
    (proveAnswer n (key :: keys) : Except (Failure E) Unit) = proveAnswer n keys := by
  rw [proveAnswer, List.find?_cons_of_neg (by simpa using h)]
  rfl

theorem proveAnswer_cons_of_ne {E : Type} {n : Nat} {key : BitSlice} (h : key.len ≠ n) (keys : List BitSlice) :
    (proveAnswer n (key :: keys) : Except (Failure E) Unit) = .error (.error (.keyLength n key.len)) := by
  rw [proveAnswer, List.find?_cons_of_pos (by simpa using h)]

theorem proveAnswer_ok {E : Type} {n : Nat} {keys : List BitSlice} (h : ∀ key ∈ keys, key.len = n) :
    (proveAnswer n keys : Except (Failure E) Unit) = .ok () := by
  induction keys with
  | nil => rfl
  | cons key keys ih =>
    rw [proveAnswer_cons_of_len (h key List.mem_cons_self)]
    exact ih fun k hk => h k (List.mem_cons_of_mem _ hk)

section

variable [FeltCodec] {DB ID : Type} [BonsaiDatabase DB] {db : KeyValueDB DB ID}
  {H : StarkHash} {memo : Memo} {n : Nat} {m : UInt8} {T : Trie Felt} {keys : List BitSlice} {key : BitSlice}
  {inv : MultiProof → Prop} {seen : MultiProof → Trie Felt → Prop} {it : MerkleTreeIterator MultiProof}

omit [FeltCodec] in
theorem Walks.refl {V : Type} {inv : V → Prop} {seen : V → Trie Felt → Prop} {it : MerkleTreeIterator V}
    (hI : inv it.visitor) : Walks T inv seen it it := ⟨⟨it.tree.nodes, rfl⟩, hI, fun _ _ _ h => h⟩

theorem proveKey_of_ne (hm : m.toNat = n) (hkey : key.len ≠ n) :
    MerkleTree.proveKey H db m key it = .error (.error (.keyLength n key.len)) it := by
  rw [MerkleTree.proveKey, if_pos (by rw [hm]; exact hkey), hm]
  rfl

theorem proveKey_of_len (hm : m.toNat = n) (hkey : key.len = n) :
    MerkleTree.proveKey H db m key it =
      MerkleTreeIterator.traverseTo db (MerkleTree.proofVisitor H) key.bits it := by
  rw [MerkleTree.proveKey, if_neg (by rw [hm]; simpa using hkey)]

variable [InfallibleDatabase DB]

/-- The walks to the keys of a proof. -/
theorem proveKeys_ok (hlaw : memo.Lawful H) (hw : T.WF n) (hn : n ≤ 255) (hpos : 0 < n) (hm : m.toNat = n)
    (hv : ∀ key ∈ keys, key.len = n →
      Visits H memo T key.bits inv seen (MerkleTree.proofVisitor (E := BonsaiDatabase.DatabaseError DB) H))
    (it : MerkleTreeIterator MultiProof) (hit : MerkleTreeIterator.Ready H memo db T seen it) (hI : inv it.visitor) :
    ∃ it', keys.forM (MerkleTree.proveKey H db m) it = leaving (proveAnswer n keys) it' ∧
      MerkleTreeIterator.Ready H memo db T seen it' ∧ Walks T inv seen it it' ∧
      ((proveAnswer n keys : Except (Failure (BonsaiDatabase.DatabaseError DB)) Unit) = .ok () → ∀ key ∈ keys, ∀ p s,
        T.sub p = some s → ¬ s.IsLeaf → p <+: key.bits → seen it'.visitor s) := by
  induction keys generalizing it with
  | nil => exact ⟨it, rfl, hit, .refl hI, by simp⟩
  | cons key keys ih =>
    by_cases hkey : key.len = n
    · have hlen : key.bits.length = n := hkey
      obtain ⟨it₁, w, h, s, ks₁, ks₂, hrun, htrail, hend, -, hwalk⟩ :=
        MerkleTreeIterator.traverseTo_ok (hv key List.mem_cons_self hkey) hlaw (hlen ▸ hw) (hlen ▸ hn) (hlen ▸ hpos) it
          hit hI
      obtain ⟨it', hrun', hready, hwalk', hseen⟩ := ih (fun k hk => hv k (List.mem_cons_of_mem _ hk)) it₁ (.on htrail) hwalk.inv
      refine ⟨it', ?_, hready, hwalk.trans hwalk', ?_⟩
      · rw [proveAnswer_cons_of_len hkey, ← hrun']
        exact bind_ok ((proveKey_of_len hm hkey).trans hrun) _
      · intro hans
        rw [proveAnswer_cons_of_len hkey] at hans
        refine List.forall_mem_cons.mpr ⟨fun p s hs hl hp => ?_, hseen hans⟩
        exact hwalk'.mono p s hs (htrail.shown.of_sub htrail.plug (hlen ▸ hw) hend hp hs hl)
    · refine ⟨it, ?_, hit, .refl hI, ?_⟩
      · rw [proveAnswer_cons_of_ne hkey]
        exact bind_error (proveKey_of_ne hm hkey) _
      · intro hans
        rw [proveAnswer_cons_of_ne hkey] at hans
        cases hans

/-- The walks in an empty tree. -/
theorem proveKeys_empty {tree : MerkleTree} (hR : TreeRep H memo n db.columns tree none) (hpos : 0 < n)
    (keys : List BitSlice) (lh : Option Felt) :
    ∃ root lh', keys.forM (MerkleTree.proveKey H db tree.maxHeight) ⟨tree, [], [], lh, ∅⟩ =
        leaving (proveAnswer n keys) ⟨{ tree with rootNode := root }, [], [], lh', ∅⟩ ∧
      TreeRep H memo n db.columns { tree with rootNode := root } none := by
  induction keys generalizing tree lh with
  | nil => exact ⟨tree.rootNode, lh, rfl, hR⟩
  | cons key keys ih =>
    by_cases hkey : key.len = n
    · have hlen : 0 < key.bits.length := by rw [show key.bits.length = n from hkey]; exact hpos
      obtain ⟨root, lh', hrun', hR''⟩ := ih hR.loadedEmpty none
      refine ⟨root, lh', ?_, hR''⟩
      rw [proveAnswer_cons_of_len hkey, ← hrun']
      exact bind_ok ((proveKey_of_len hR.height hkey).trans (traverseTo_empty hR hlen [] lh ∅)) _
    · refine ⟨tree.rootNode, lh, ?_, hR⟩
      rw [proveAnswer_cons_of_ne hkey]
      exact bind_error (proveKey_of_ne hR.height hkey) _

/-- `get_multi_proof` changes what is in memory, and nothing else. -/
theorem getMultiProof_ok {tree : MerkleTree} {T : Option (Trie Felt)} (hR : TreeRep H memo n db.columns tree T)
    (hlaw : memo.Lawful H) (hpos : 0 < n) (keys : List BitSlice) (inv : MultiProof → Prop)
    (seen : MultiProof → Trie Felt → Prop) (h₀ : inv ∅)
    (hv : ∀ t, T = some t → ∀ key ∈ keys, key.len = n →
      Visits H memo t key.bits inv seen (MerkleTree.proofVisitor (E := BonsaiDatabase.DatabaseError DB) H)) :
    ∃ proof nodes root, MerkleTree.getMultiProof H db keys tree =
        leaving ((proveAnswer n keys).map fun _ => proof) { tree with nodes := nodes, rootNode := root } ∧
      TreeRep H memo n db.columns { tree with nodes := nodes, rootNode := root } T ∧ inv proof ∧
      ((proveAnswer n keys : Except (Failure (BonsaiDatabase.DatabaseError DB)) Unit) = .ok () → ∀ t, T = some t →
        ∀ key ∈ keys, ∀ p s, t.sub p = some s → ¬ s.IsLeaf → p <+: key.bits → seen proof s) ∧
      (T = none → proof = ∅) := by
  have hget (it : MerkleTreeIterator MultiProof)
      (h : keys.forM (MerkleTree.proveKey H db tree.maxHeight) (MerkleTreeIterator.new tree ∅) =
        leaving (proveAnswer n keys) it) :
      MerkleTree.getMultiProof H db keys tree = leaving ((proveAnswer n keys).map fun _ => it.visitor) it.tree := by
    rw [MerkleTree.getMultiProof, h]
    cases (proveAnswer n keys : Except (Failure (BonsaiDatabase.DatabaseError DB)) Unit) <;> rfl
  cases T with
  | none =>
    obtain ⟨root, lh, hrun, hR'⟩ := proveKeys_empty hR hpos keys none
    exact ⟨∅, tree.nodes, root, hget _ hrun, hR', h₀, (by rintro _ t ⟨⟩), fun _ => rfl⟩
  | some t =>
    obtain ⟨it, hrun, hready, ⟨⟨nodes, htree⟩, hinv, -⟩, hseen⟩ :=
      proveKeys_ok hlaw (hR.wf t rfl) hR.le_255 hpos hR.height (hv t rfl) (MerkleTreeIterator.new tree ∅)
        (.start hR.rooted rfl rfl) h₀
    have htree : it.tree = { tree with nodes := nodes, rootNode := it.tree.rootNode } := htree
    refine ⟨it.visitor, nodes, it.tree.rootNode, ?_, ⟨hR.height, ?_, hR.wf, hR.only, hR.deathRow⟩, hinv, ?_, nofun⟩
    · rw [hget it hrun, ← htree]
    · have := hready.rooted
      rw [htree] at this
      exact this
    · rintro hans _ ⟨⟩
      exact hseen hans

end

end Bonsai
