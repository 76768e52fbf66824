import BonsaiTrie.Proof.Calls
import BonsaiTrie.Spec.Overlay

/-!
# What a tree shows

The trie a tree stands for is the one found by following its handles
(`Rep.nodeAt`), so walking it for a key gives the leaf of the trie
(`TreeRep.leafMap_eq`). With what a call does to the leaves, `set` changes the
leaf of its own key alone (`set_leafMap`).
-/

namespace Bonsai

open Patricia Run

/-- The key of a handle to memory. -/
def NodeHandle.keys : NodeHandle → List NodeKey
  | .hash _ => []
  | .inMemory key => [key]

section

variable [FeltCodec] {DB ID : Type} [BonsaiDatabase DB] [InfallibleDatabase DB] {db : KeyValueDB DB ID}
  {tree : MerkleTree} {H : StarkHash} {memo : Memo} {h : NodeHandle} {p : Path} {t : Trie Felt} {ks : List NodeKey}
  {n : Nat} {T : Option (Trie Felt)}

/-- The node of a handle that stands for a binary trie. -/
theorem Rep.nodeAt_binary {l r : Trie Felt} (hr : Rep H memo tree.nodes.slots (tree.disk db.columns) h p (.binary l r) ks)
    (ht : (Trie.binary l r).WF n) (hn : p.length + n ≤ 255) :
    ∃ m lh rh ks₁ ks₂, tree.nodeAt db h p = some (.binary ⟨m, p.length, lh, rh⟩) ∧
      Rep H memo tree.nodes.slots (tree.disk db.columns) lh (p ++ [false]) l ks₁ ∧
      Rep H memo tree.nodes.slots (tree.disk db.columns) rh (p ++ [true]) r ks₂ ∧ ks = h.keys ++ (ks₁ ++ ks₂) := by
  cases hr with
  | stored hs =>
    obtain ⟨bytes, node, hd, hdec, hnode⟩ := hs.read id ht hn
    cases hnode
    exact ⟨_, _, _, [], [], by rw [MerkleTree.nodeAt, MerkleTree.getTrieBranch_some hd hdec], .stored hs.2.1,
      .stored hs.2.2, rfl⟩
  | binary hk hm hl hr => exact ⟨_, _, _, _, _, hk, hl, hr, rfl⟩

/-- The node of a handle that stands for an edge. -/
theorem Rep.nodeAt_edge {q : Path} {c : Trie Felt} (hr : Rep H memo tree.nodes.slots (tree.disk db.columns) h p (.edge q c) ks)
    (ht : (Trie.edge q c).WF n) (hn : p.length + n ≤ 255) :
    ∃ m ch ks₁, tree.nodeAt db h p = some (.edge ⟨m, p.length, q, ch⟩) ∧
      Rep H memo tree.nodes.slots (tree.disk db.columns) ch (p ++ q) c ks₁ ∧ ks = h.keys ++ ks₁ := by
  cases hr with
  | stored hs =>
    obtain ⟨bytes, node, hd, hdec, hnode⟩ := hs.read id ht hn
    cases hnode
    exact ⟨_, _, [], by rw [MerkleTree.nodeAt, MerkleTree.getTrieBranch_some hd hdec], .stored hs.2, rfl⟩
  | edge hk hm hc => exact ⟨_, _, _, hk, hc, rfl⟩

/-- Walking from a handle gives the leaf of its trie. -/
theorem Rep.leafBelow_eq (hr : Rep H memo tree.nodes.slots (tree.disk db.columns) h p t ks) {rest : Path}
    (ht : t.WF rest.length) (hn : p.length + rest.length ≤ 255) {fuel : Nat} (hf : rest.length ≤ fuel) :
    tree.leafBelow db fuel h p rest = t.lookup rest := by
  induction t generalizing h p ks rest fuel with
  | leaf v =>
    obtain ⟨rfl, -⟩ := hr.leaf_inv
    cases rest with
    | nil => cases fuel <;> rfl
    | cons b rest => exact (ht.not_isLeaf (Nat.succ_pos _) trivial).elim
  | binary l r ihl ihr =>
    obtain ⟨i, hi, hwl, hwr⟩ := ht.binary_inv
    obtain ⟨b, rest, rfl⟩ := List.exists_cons_of_ne_nil (l := rest) (by rintro rfl; cases hi)
    obtain ⟨fuel, rfl⟩ : ∃ f, fuel = f + 1 := ⟨fuel - 1, by rw [List.length_cons] at hf; omega⟩
    rw [List.length_cons] at hi hn hf
    obtain rfl : rest.length = i := by omega
    obtain ⟨m, lh, rh, ks₁, ks₂, hnode, hl, hr, -⟩ := hr.nodeAt_binary ht (by rw [List.length_cons]; exact hn)
    rw [MerkleTree.leafBelow, hnode, Trie.lookup_binary_cons]
    cases b with
    | false => exact ihl hl hwl (by rw [List.length_append, List.length_singleton]; omega) (by omega)
    | true => exact ihr hr hwr (by rw [List.length_append, List.length_singleton]; omega) (by omega)
  | edge q c ih =>
    obtain ⟨i, hi, hq, hwc, -⟩ := ht.edge_inv
    have hpos := List.length_pos_of_ne_nil hq
    obtain ⟨b, rest, rfl⟩ := List.exists_cons_of_ne_nil (l := rest) (by rintro rfl; rw [List.length_nil] at hi; omega)
    obtain ⟨fuel, rfl⟩ : ∃ f, fuel = f + 1 := ⟨fuel - 1, by rw [List.length_cons] at hf; omega⟩
    obtain ⟨m, ch, ks₁, hnode, hc, -⟩ := hr.nodeAt_edge ht hn
    rw [MerkleTree.leafBelow, hnode, Trie.lookup_edge]
    by_cases hpre : q <+: b :: rest
    · have hdrop : ((b :: rest).drop q.length).length = i := by rw [List.length_drop]; omega
      simp only [List.isPrefixOf_iff_prefix.mpr hpre, if_true, if_pos hpre]
      exact ih hc (hdrop ▸ hwc) (by rw [hdrop, List.length_append]; omega) (by rw [hdrop]; omega)
    · simp only [mt List.isPrefixOf_iff_prefix.mp hpre, if_neg hpre]
      rfl

/-- The root of an empty tree. -/
theorem TreeRep.rootHandle_none (hR : TreeRep H memo n db.columns tree none) : tree.rootHandle db = none := by
  have hd : tree.disk db.columns [] = none := by
    rw [← Option.not_isSome_iff_eq_none]
    intro hs
    obtain ⟨t, h, -⟩ := hR.only [] (Nat.zero_le _) hs
    cases h
  have hr := hR.rooted
  rcases tree with ⟨root, nodes, identifier, deathRow, cache, maxHeight⟩
  cases hr with
  | empty => rfl
  | noTrie =>
    rw [MerkleTree.rootHandle]
    simp only [MerkleTree.nodeAt, MerkleTree.getTrieBranch_none hd]
    rfl

/-- The root of a tree that is not empty. -/
theorem TreeRep.rootHandle_some (hR : TreeRep H memo n db.columns tree (some t)) (hn : 0 < n) :
    ∃ h ks, tree.rootHandle db = some h ∧ Rep H memo tree.nodes.slots (tree.disk db.columns) h [] t ks ∧ ks.Nodup ∧
      ∀ k, (tree.nodes.slots k).isSome ↔ k ∈ ks := by
  have hw := hR.wf t rfl
  have hle := hR.le_255
  have hr := hR.rooted
  rcases tree with ⟨root, nodes, identifier, deathRow, cache, maxHeight⟩
  cases hr with
  | loaded hF =>
    exact ⟨_, _, rfl, hF.rep, by simpa using hF.nodup, by simpa using hF.total⟩
  | unloaded hF =>
    refine ⟨_, _, ?_, hF.rep, by simp, by simpa using hF.total⟩
    obtain ⟨-, hs, -⟩ := hF.rep.hash_inv
    obtain ⟨bytes, node, hd, hdec, hnode⟩ := hs.read (hw.not_isLeaf hn) hw (by simpa using hle)
    have hhash : node.getHash = some (merkleHash H t) := by
      cases t with
      | leaf v => cases hnode
      | binary l r => cases hnode; rfl
      | edge q c => cases hnode; rfl
    rw [MerkleTree.rootHandle]
    simp only [MerkleTree.nodeAt, MerkleTree.getTrieBranch_some (p := []) hd hdec, Option.map_some, hhash]
    rfl

/-- Walking a tree for a key gives the leaf of its trie. -/
theorem TreeRep.leafMap_eq (hR : TreeRep H memo n db.columns tree T) (hn : 0 < n) {key : Path} (hkey : key.length = n) :
    tree.leafMap db key = content T key := by
  rw [MerkleTree.leafMap]
  cases T with
  | none => rw [hR.rootHandle_none]; rfl
  | some t =>
    obtain ⟨h, ks, hroot, hrep, -⟩ := hR.rootHandle_some hn
    have hle := hR.le_255
    rw [hroot, Option.bind_some, content_some]
    exact hrep.leafBelow_eq (hkey ▸ hR.wf t rfl) (by simp only [List.length_nil]; omega) le_rfl

theorem LeafRep.leafMap_eq {o : Fin 8} {s : Leaves} (h : LeafRep H n o db.columns tree T s) (hn : 0 < n) {key : Path}
    (hkey : key.length = n) : tree.leafMap db key = s.trie key :=
  (h.rep.leafMap_eq hn hkey).trans (h.trie key hkey)

end

/-! ## A write and the leaves -/

namespace Leaves

variable {s : Leaves} {key : Path} {value : Felt}

/-- A value that is pending or stored is not written to the trie. -/
theorem trie_insert_of_skip (h : (∃ old, s.cache key = some (.insert old)) ∨ s.flat key = some value) :
    (s.insert key value).trie = s.trie := by
  rw [insert]
  split
  · rfl
  · rename_i hc
    rcases h with ⟨old, hold⟩ | hf
    · exact (hc old hold).elim
    · rw [if_pos hf]

/-- Any other is. -/
theorem trie_insert (hc : ∀ old, s.cache key ≠ some (.insert old)) (hf : s.flat key ≠ some value) :
    (s.insert key value).trie = Function.update s.trie key (some value) := by
  rw [insert]
  split
  · rename_i old hold
    exact (hc old hold).elim
  · rw [if_neg hf]

/-- A removal leaves the other keys, and none of its own. -/
theorem SameKeys.trie_remove (h : s.SameKeys) : (s.remove key).trie = Function.update s.trie key none := by
  rw [Leaves.remove]
  split
  · rfl
  · rename_i hnone
    have hkey : s.trie key = none := by
      have := h key
      rw [Bool.eq_false_iff.mpr hnone] at this
      simpa using this
    rw [← hkey, Function.update_eq_self]

end Leaves

theorem encode_injective [FeltCodec] : Function.Injective (FeltCodec.encode : Felt → ByteVec) := by
  intro a b h
  have ha := FeltCodec.decode_encode a []
  rw [h, FeltCodec.decode_encode b []] at ha
  simpa using ha.symm

section

variable [FeltCodec] {DB ID : Type} [BonsaiDatabase DB] [InfallibleDatabase DB]

/-- The leaf of a key in the tree of the empty identifier. -/
def leafOf (st : MerkleTrees DB ID) (key : Path) : Option Felt := (st.treeOf []).leafMap st.db key

theorem CallRep.leafOf_eq {H : StarkHash} {n : Nat} {st : MerkleTrees DB ID} {s : Leaves} (h : CallRep H n st s) (hn : 0 < n)
    {key : Path} (hkey : key.length = n) : leafOf st key = s.trie key := by
  obtain ⟨T, hT⟩ := h.leafRep
  exact hT.leafMap_eq hn hkey

/-- In every state a run reaches, `set` changes the leaf of its key alone: to the value, unless one is
pending or it is the one stored; a deletion takes the leaf away. -/
theorem set_leafOf (H : StarkHash) (m : UInt8) (hm : 0 < m.toNat) (db : KeyValueDB DB ID)
    (hdb : ∀ key : TrieKey, db.columns key.toDatabaseKey = none) (cs : List Call) (hcs : ∀ c ∈ cs, c.Aligned)
    (st : MerkleTrees DB ID) (hst : st = Trace.after (Call.run H) cs (MerkleTrees.new db m))
    (key : BitSlice) (hh : key.head = 0) (hkey : key.len = m.toNat) (value : Felt) :
    ∃ st', MerkleTrees.set [] key value st = .ok () st' ∧
      (value ≠ 0 → (∀ k : Path, k.length = m.toNat → k ≠ key.bits → leafOf st' k = leafOf st k) ∧
        ((∀ old, pendingOf st [] key ≠ some (.insert old)) →
          st.db.columns (.flat (bitsliceToBytes key)) ≠ some (FeltCodec.encode value) → leafOf st' key.bits = some value) ∧
        ((∃ old, pendingOf st [] key = some (.insert old)) ∨
          st.db.columns (.flat (bitsliceToBytes key)) = some (FeltCodec.encode value) →
          leafOf st' key.bits = leafOf st key.bits)) ∧
      (value = 0 → ∀ k : Path, k.length = m.toNat →
        leafOf st' k = if k = key.bits then none else leafOf st k) := by
  obtain ⟨hR, -⟩ := (CallRep.start (H := H) hdb m).simulates hm hcs
  rw [← hst] at hR
  generalize cs.foldl (Call.leaves m.toNat) .empty = s at hR
  obtain ⟨st', hrun, hR', -⟩ := hR.set_ok hm hh hkey value
  have hlen : key.bits.length = m.toNat := hkey
  have hleaf (k : Path) (hk : k.length = m.toNat) : leafOf st k = s.trie k := hR.leafOf_eq hm hk
  have hleaf' (k : Path) (hk : k.length = m.toNat) : leafOf st' k = (s.set key.bits value).trie k := hR'.leafOf_eq hm hk
  -- what is pending and what is stored, of the leaves
  have hpend : pendingOf st [] key = s.cache key.bits := hR.rep.pendingOf_eq rfl hh hkey
  have hflat : st.db.columns (.flat (bitsliceToBytes key)) = (s.flat key.bits).map FeltCodec.encode := by
    obtain ⟨T, hT⟩ := hR.leafRep
    have := hT.flat key.bits hkey
    rw [hR.rep.identifier_treeOf []] at this
    rwa [← hh] at this
  have hstored : st.db.columns (.flat (bitsliceToBytes key)) = some (FeltCodec.encode value) ↔
      s.flat key.bits = some value := by
    rw [hflat, Option.map_eq_some_iff]
    exact ⟨fun ⟨v, hv, he⟩ => encode_injective he ▸ hv, fun h => ⟨value, h, rfl⟩⟩
  refine ⟨st', hrun, fun hv => ?_, fun hv k hk => ?_⟩
  · rw [hpend]
    simp only [ne_eq, hstored, Leaves.set, if_neg hv] at hleaf' ⊢
    refine ⟨fun k hk hne => ?_, fun hc hf => ?_, fun hskip => ?_⟩
    · rw [hleaf' k hk, hleaf k hk]
      by_cases hskip : (∃ old, s.cache key.bits = some (.insert old)) ∨ s.flat key.bits = some value
      · rw [Leaves.trie_insert_of_skip hskip]
      · obtain ⟨hc, hf⟩ := not_or.mp hskip
        rw [Leaves.trie_insert (not_exists.mp hc) hf, Function.update_of_ne hne]
    · rw [hleaf' _ hlen, Leaves.trie_insert hc hf, Function.update_self]
    · rw [hleaf' _ hlen, hleaf _ hlen, Leaves.trie_insert_of_skip hskip]
  · obtain ⟨T, hT⟩ := hR.leafRep
    rw [hleaf' k hk, hleaf k hk, Leaves.set, if_pos hv, hT.keys.trie_remove, Function.update_apply]

end

/-- A key is split off, and deleted again. -/
theorem set_leafOf_delete :
    ∃ st', MerkleTrees.set [] (.aligned [true, true]) 0
        (Trace.after (Call.run fun a b => a + b) writeProveDelete (BonsaiStorage.inMemory 2)) = .ok () st' ∧
      leafOf st' [true, false] =
        leafOf (Trace.after (Call.run fun a b => a + b) writeProveDelete (BonsaiStorage.inMemory 2)) [true, false] := by
  obtain ⟨st', hrun, -, hdel⟩ := set_leafOf (fun a b => a + b) 2 (by decide) (KeyValueDB.new HashMapDb.empty ⟨none, none, 1⟩ none)
    HashMapDb.columns_empty writeProveDelete (fun c hc => (writeProveDelete_fits c hc).1) _ rfl (.aligned [true, true]) rfl rfl 0
  exact ⟨st', hrun, (hdel rfl [true, false] rfl).trans (if_neg (by decide))⟩

end Bonsai
