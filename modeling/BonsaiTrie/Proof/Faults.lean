import BonsaiTrie.Framework.Falter
import BonsaiTrie.Proof.Frame
import BonsaiTrie.Proof.Requests
import BonsaiTrie.Spec.Faults

/-!
# Failed writes

With reads that fail, code that loads nodes does what it does without, or fails
where it has only loaded some of them (`Loaded`): the tree stands for the same
trie.
-/

namespace Bonsai

open Patricia Run

section Reads

variable [FeltCodec] {DB ID : Type} [BonsaiDatabase DB] (fault : Fault DB) (db : KeyValueDB DB ID)

variable {fault} in
omit [FeltCodec] in
theorem get_withFault_none {key : TrieKey} (h : fault key.toDatabaseKey = none) :
    (db.withFault fault).get key = (db.get key :) := by
  simp only [KeyValueDB.get, KeyValueDB.withFault, BonsaiDatabase.get, h]
  rfl

variable {fault} in
omit [FeltCodec] in
theorem get_withFault_some {key : TrieKey} {e : BonsaiDatabase.DatabaseError DB} (h : fault key.toDatabaseKey = some e) :
    (db.withFault fault).get key = .error (.error (.database e)) := by
  simp only [KeyValueDB.get, KeyValueDB.withFault, BonsaiDatabase.get, h]
  rfl

omit [FeltCodec] in
/-- A read that fails, or gives what is there. -/
theorem get_withFault (key : TrieKey) :
    (db.withFault fault).get key = (db.get key :) ∨ ∃ e, (db.withFault fault).get key = .error e := by
  cases hf : fault key.toDatabaseKey with
  | none => exact .inl (get_withFault_none db hf)
  | some e => exact .inr ⟨_, get_withFault_some db hf⟩

omit [FeltCodec] in
theorem lift_falters {E σ α : Type} {r r' : Except (Failure E) α} (h : r = r' ∨ ∃ e, r = .error e) (s : σ) :
    Falters (· = s) (MerkleTree.lift r) (MerkleTree.lift r') s := by
  rcases h with rfl | ⟨e, rfl⟩
  · exact .refl _ s
  · exact .inr ⟨e, s, rfl, rfl⟩

omit [FeltCodec] in
theorem state_of_lift {E σ α : Type} {r : Except (Failure E) α} {a : α} {s s' : σ}
    (h : (MerkleTree.lift r : EStateM (Failure E) σ α) s = .ok a s') : s' = s := by
  cases r <;> cases h
  rfl

theorem loadDbNode_falters (key : TrieKey) (tree : MerkleTree) :
    Falters (· = tree) (MerkleTree.loadDbNode (db.withFault fault) key) (MerkleTree.loadDbNode db key :) tree := by
  refine .bind_ok (MerkleTree.self_run tree) (.ite (.refl _ tree) ((lift_falters (get_withFault fault db key) tree).bind_right _))

theorem loadRootNode_falters (tree : MerkleTree) :
    Falters (· = tree) (MerkleTree.loadRootNode (db.withFault fault)) (MerkleTree.loadRootNode db :) tree := by
  refine .bind_ok (MerkleTree.self_run tree) ?_
  rcases tree.rootNode with _ | (_ | id)
  · exact .bind_ok (MerkleTree.self_run tree) ((loadDbNode_falters fault db _ tree).bind_right _)
  · exact .refl _ tree
  · exact .refl _ tree

theorem loadNodeHandle_falters (handle : NodeHandle) (path : Path) (tree : MerkleTree) :
    Falters (· = tree) (MerkleTree.loadNodeHandle (db.withFault fault) handle path) (MerkleTree.loadNodeHandle db handle path :)
      tree := by
  cases handle with
  | hash felt => exact .bind_ok (MerkleTree.self_run tree) ((loadDbNode_falters fault db _ tree).bind_right _)
  | inMemory key => exact .refl _ tree

/-! ### The iterator -/

omit [FeltCodec] [BonsaiDatabase DB] in
theorem onTree_falters {E V α : Type} {J : MerkleTree → Prop} {x y : MerkleTree.M E α} (it : MerkleTreeIterator V)
    (h : Falters J x y it.tree) :
    Falters (fun it' => J it'.tree) (MerkleTreeIterator.onTree x) (MerkleTreeIterator.onTree y : MerkleTreeIterator.M E V α) it := by
  rcases h with h | ⟨e, tree, h, hJ⟩
  · exact .inl (by rw [MerkleTreeIterator.onTree, MerkleTreeIterator.onTree, h])
  · exact .inr ⟨e, { it with tree := tree }, by rw [MerkleTreeIterator.onTree, h], hJ⟩

theorem traverseOne_falters {V : Type} (nodeId : NodeKey) (height : Nat) (key : Path) (it : MerkleTreeIterator V) :
    Falters (fun it' => it'.tree = it.tree) (MerkleTreeIterator.traverseOne (db.withFault fault) nodeId height key)
      (MerkleTreeIterator.traverseOne db nodeId height key :) it := by
  refine .bind_ok (modify_run _ it) (.bind_left fun node it₁ h₁ => .bind_left fun step it₂ h₂ =>
    .bind_ok (get_run it₂) (.ite (.refl _ it₂) (Falters.bind_right ?_ _)))
  have hget : Preserves (fun it' : MerkleTreeIterator V => it'.tree = it.tree)
      (MerkleTreeIterator.onTree (MerkleTree.getNodeMut nodeId : MerkleTree.M (BonsaiDatabase.DatabaseError DB) Node)) :=
    Framed.onTree (Framed.getNodeMut (I := (· = it.tree)) nodeId)
  have htree₁ := hget _ (rfl : { it with currentNodesHeights := it.currentNodesHeights ++ [(nodeId, it.currentPath.length)] }.tree = it.tree)
  rw [h₁] at htree₁
  have hstep : Preserves (fun it' : MerkleTreeIterator V => it'.tree = it.tree)
      (MerkleTreeIterator.stepInto node height key : MerkleTreeIterator.M (BonsaiDatabase.DatabaseError DB) V _) :=
    Framed.stepInto (I := (· = it.tree)) node height key
  have htree₂ := hstep it₁ htree₁
  rw [h₂] at htree₂
  exact (onTree_falters it₂ (loadNodeHandle_falters fault db step.1 it₂.currentPath it₂.tree)).mono fun it' h => h.trans htree₂

end Reads

/-! ## Walks -/

section Walks

variable [FeltCodec] {DB ID V : Type} [BonsaiDatabase DB] [InfallibleDatabase DB] (fault : Fault DB)
  {db : KeyValueDB DB ID} {H : StarkHash} {memo : Memo} {key : Path} {t T : Trie Felt} {w : Way} {k : NodeKey}
  {ks ks' : List NodeKey} {inv : V → Prop} {seen : V → Trie Felt → Prop}
  {visit : NodeVisitor (BonsaiDatabase.DatabaseError DB) V} {it : MerkleTreeIterator V}

/-- Nodes were loaded, and the tree stands for the same trie. -/
def Loaded (H : StarkHash) (memo : Memo) (cols : Columns) (T : Option (Trie Felt)) (tree tree' : MerkleTree) : Prop :=
  ∃ nodes root, tree' = { tree with nodes := nodes, rootNode := root } ∧
    Rooted H memo nodes.slots (tree.disk cols) root T

theorem Loaded.of_walks {it' : MerkleTreeIterator V} {tree : MerkleTree} {cols : Columns} {T' : Option (Trie Felt)}
    (h : Walks T inv seen it it') (h' : Loaded H memo cols T' it'.tree tree) : Loaded H memo cols T' it.tree tree := by
  obtain ⟨nodes, ht⟩ := h.tree
  obtain ⟨nodes', root', rfl, hr⟩ := h'
  refine ⟨nodes', root', by rw [ht], ?_⟩
  rw [ht] at hr
  exact hr

theorem Trail.loaded {h : NodeHandle} (hit : Trail H memo db T seen it w h t ks ks') :
    Loaded H memo db.columns (some T) it.tree it.tree := by
  obtain ⟨⟨k₀, hroot, hF⟩, -, -, hT, -⟩ := hit
  obtain ⟨ks₁, hF₀⟩ := hF.up_root
  refine ⟨it.tree.nodes, it.tree.rootNode, rfl, ?_⟩
  rw [hroot, ← hT]
  exact .loaded hF₀

namespace MerkleTreeIterator

/-- From a node that was seen, some nodes may be loaded before a read fails. -/
theorem walk_falters (hv : Visits H memo T key inv seen visit) (hlaw : memo.Lawful H) (hw : T.WF key.length)
    (hn : key.length ≤ 255) (fuel : Nat) (hit : Trail H memo db T seen it w (.inMemory k) t ks ks') (hI : inv it.visitor)
    (hs : seen it.visitor t) (hp : w.path <+: key) (hlt : w.path.length < key.length) :
    Falters (fun it' => Loaded H memo db.columns (some T) it.tree it'.tree)
      (fromNode (db.withFault fault) visit key fuel k w.path.length) (fromNode db visit key fuel k w.path.length :) it := by
  induction fuel generalizing it w t k ks ks' with
  | zero =>
    refine ((traverseOne_falters fault db k _ key it).mono fun it' h => ?_).bind fun r it₁ _ => ?_
    · rw [h]
      exact hit.loaded
    · cases r <;> exact .refl _ it₁
  | succ fuel ih =>
    refine ((traverseOne_falters fault db k _ key it).mono fun it' h => ?_).bind fun r it₁ hone => ?_
    · rw [h]
      exact hit.loaded
    obtain ⟨r', it₁', hone', ⟨rfl, -⟩ |
      ⟨kn, v, tree, f, s, ks₁, ks₂, rfl, hpath, hvis, hit₂, hs₂, hp', hlt', -, hwalk⟩⟩ :=
      step_ok hv hlaw hw hn hit hI hs hp hlt
    · obtain ⟨rfl, rfl⟩ : r = none ∧ it₁ = it₁' := by rw [hone] at hone'; cases hone'; exact ⟨rfl, rfl⟩
      exact .refl _ it₁
    · obtain ⟨rfl, rfl⟩ : r = some kn ∧ it₁ = it₁' := by rw [hone] at hone'; cases hone'; exact ⟨rfl, rfl⟩
      refine .of_eq (traverseLoop_visit (by rw [hpath]) hvis) (traverseLoop_visit (by rw [hpath]) hvis) ?_
      exact (ih hit₂ hwalk.inv hs₂ hp' hlt').mono fun it' h => .of_walks hwalk h

/-- From the root. -/
theorem fromRoot_falters (hv : Visits H memo T key inv seen visit) (hlaw : memo.Lawful H) (hw : T.WF key.length)
    (hn : key.length ≤ 255) (hpos : 0 < key.length)
    (hr : Rooted H memo it.tree.nodes.slots (it.tree.disk db.columns) it.tree.rootNode (some T))
    (hcr : it.currentNodesHeights = []) (hI : inv it.visitor) :
    Falters (fun it' => Loaded H memo db.columns (some T) it.tree it'.tree) (fromRoot (db.withFault fault) visit key)
      (fromRoot db visit key :) it := by
  obtain ⟨k, it₁, v, tree, ks, hload, hpath, hvis, hit₂, hs₂, hwalk⟩ := rootStep_ok hv hlaw hw hn hpos it hr hcr hI
  have hroot := onTree_falters { it with currentPath := [] } (loadRootNode_falters fault db it.tree)
  refine .bind_ok (modify_run _ it) (Falters.bind (hroot.mono fun it' h => ?_) fun root it₂ hroot' => ?_)
  · rw [h]
    exact ⟨_, _, rfl, hr⟩
  · obtain ⟨rfl, rfl⟩ : root = some k ∧ it₂ = it₁ := by rw [hload] at hroot'; cases hroot'; exact ⟨rfl, rfl⟩
    refine .of_eq (traverseLoop_visit (by rw [hpath]; rfl) hvis) (traverseLoop_visit (by rw [hpath]; rfl) hvis) ?_
    exact (walk_falters fault hv hlaw hw hn key.length hit₂ hwalk.inv hs₂ List.nil_prefix hpos).mono fun it' h =>
      .of_walks hwalk h

/-- A walk to a key, after another walk or from the root. -/
theorem traverseTo_falters (hv : Visits H memo T key inv seen visit) (hlaw : memo.Lawful H) (hw : T.WF key.length)
    (hn : key.length ≤ 255) (hpos : 0 < key.length) (hit : Ready H memo db T seen it) (hI : inv it.visitor) :
    Falters (fun it' => Loaded H memo db.columns (some T) it.tree it'.tree) (traverseTo (db.withFault fault) visit key)
      (traverseTo db visit key :) it := by
  rcases hit.cases with ⟨hr, hcr⟩ | ⟨k, f, w, t, ks, ks', hcr, hit', hs, hp, hlt⟩
  · exact .of_eq (traverseTo_eq_fromRoot hpos hcr) (traverseTo_eq_fromRoot hpos hcr)
      (fromRoot_falters fault hv hlaw hw hn hpos hr hcr hI)
  · exact .of_eq (traverseTo_eq_fromNode hpos hcr) (traverseTo_eq_fromNode hpos hcr)
      (walk_falters fault hv hlaw hw hn (key.length + 1) hit' hI hs hp hlt)

end MerkleTreeIterator

end Walks

/-! ## Trees -/

section Trees

variable [FeltCodec] {DB ID : Type} [BonsaiDatabase DB] [InfallibleDatabase DB] (fault : Fault DB)
  {db : KeyValueDB DB ID} {H : StarkHash} {n : Nat} {tree : MerkleTree} {T : Option (Trie Felt)} {key : BitSlice}

theorem TreeRep.loaded {memo : Memo} {cols : Columns} {tree' : MerkleTree} (hR : TreeRep H memo n cols tree T)
    (h : Loaded H memo cols T tree tree') : TreeRep H memo n cols tree' T := by
  obtain ⟨nodes, root, rfl, hr⟩ := h
  exact ⟨hR.height, hr, hR.wf, hR.only, hR.deathRow⟩

theorem TreeRep.loaded_refl {memo : Memo} {cols : Columns} (hR : TreeRep H memo n cols tree T) :
    Loaded H memo cols T tree tree := ⟨tree.nodes, tree.rootNode, rfl, hR.rooted⟩

/-- A walk in an empty tree. -/
theorem traverseTo_empty_falters {memo : Memo} {V : Type} {visit : NodeVisitor (BonsaiDatabase.DatabaseError DB) V}
    (hR : TreeRep H memo n db.columns tree none) {key : Path} (hpos : 0 < key.length) (path : Path) (lh : Option Felt)
    (v : V) :
    Falters (fun it' => it'.tree = tree) (MerkleTreeIterator.traverseTo (db.withFault fault) visit key)
      (MerkleTreeIterator.traverseTo db visit key :) ⟨tree, path, [], lh, v⟩ := by
  refine .of_eq (MerkleTreeIterator.traverseTo_eq_fromRoot hpos (MerkleTreeIterator.truncate_start rfl))
    (MerkleTreeIterator.traverseTo_eq_fromRoot hpos (MerkleTreeIterator.truncate_start rfl)) ?_
  have hroot := onTree_falters { MerkleTreeIterator.truncate key ⟨tree, path, [], lh, v⟩ with currentPath := [] }
    (loadRootNode_falters fault db tree)
  refine .bind_ok (modify_run _ _) (Falters.bind hroot fun root it₁ h => ?_)
  have hload := MerkleTreeIterator.onTree_ok (i := { MerkleTreeIterator.truncate key ⟨tree, path, [], lh, v⟩ with currentPath := [] })
    (loadRootNode_empty hR.rooted hR.disk_root)
  obtain rfl : root = none := by
    have h' := h.symm.trans hload
    cases h'
    rfl
  exact .refl _ it₁

theorem seekTo_falters {memo : Memo} (hR : TreeRep H memo n db.columns tree T) (hlaw : memo.Lawful H) (hn : 0 < n)
    {key : Path} (hkey : key.length = n) :
    Falters (Loaded H memo db.columns T tree) (MerkleTree.seekTo (db.withFault fault) key) (MerkleTree.seekTo db key :)
      tree := by
  have hwalk : Falters (fun it' : MerkleTreeIterator Unit => Loaded H memo db.columns T tree it'.tree)
      (MerkleTreeIterator.traverseTo (db.withFault fault) noopVisitor key)
      (MerkleTreeIterator.traverseTo db noopVisitor key :) (MerkleTreeIterator.new tree ()) := by
    cases T with
    | none =>
      exact (traverseTo_empty_falters fault hR (hkey ▸ hn) [] none ()).mono fun it' h => h ▸ hR.loaded_refl
    | some t =>
      exact MerkleTreeIterator.traverseTo_falters fault (noopVisitor_visits t key) hlaw (hkey ▸ hR.wf t rfl)
        (hkey ▸ hR.le_255) (hkey ▸ hn) (.start hR.rooted rfl rfl) trivial
  rcases hwalk with h | ⟨e, it', h, hJ⟩
  · refine .inl ?_
    rw [MerkleTree.seekTo, MerkleTree.seekTo, h]
    cases MerkleTreeIterator.traverseTo db noopVisitor key (MerkleTreeIterator.new tree ()) <;> rfl
  · exact .inr ⟨e, it'.tree, by rw [MerkleTree.seekTo, h], hJ⟩

/-- An insertion whose reads may fail. -/
theorem set_falters {memo : Memo} (hR : TreeRep H memo n db.columns tree T) (hlaw : memo.Lawful H) (hn : 0 < n)
    (hkey : key.len = n) {value : Felt} (hv : value ≠ 0) :
    Falters (Loaded H memo db.columns T tree) (MerkleTree.set (db.withFault fault) key value)
      (MerkleTree.set db key value :) tree := by
  have hwalk : Falters (Loaded H memo db.columns T tree) (MerkleTree.setWalk (db.withFault fault) key value)
      (MerkleTree.setWalk db key value :) tree := (seekTo_falters fault hR hlaw hn hkey).bind_right _
  have hread := (lift_falters (get_withFault fault db (TrieKey.new tree.identifier .flat (bitsliceToBytes key))) tree).mono
    fun tree' h => (h ▸ hR.loaded_refl : Loaded H memo db.columns T tree tree')
  rw [MerkleTree.set, MerkleTree.set, if_neg hv, if_neg hv]
  refine .bind_ok (MerkleTree.self_run tree) (.ite (.throw_bind _ _ _ tree) ?_)
  simp only
  rcases tree.cacheLeafModified.lookup (bitsliceToBytes key) with _ | (v | _)
  case some.insert => exact .refl _ tree
  all_goals
    refine hread.bind fun found tree' h => ?_
    obtain rfl := state_of_lift h
    cases found with
    | none => exact hwalk
    | some bytes =>
      refine .bind_left fun old tree'' h' => ?_
      obtain rfl := state_of_lift h'
      exact .ite (.refl _ _) hwalk

/-! ### Proofs -/

theorem proveKeys_falters {memo : Memo} {m : UInt8} {t : Trie Felt} {inv : MultiProof → Prop}
    {seen : MultiProof → Trie Felt → Prop} {keys : List BitSlice} (hlaw : memo.Lawful H) (hw : t.WF n) (hn : n ≤ 255)
    (hpos : 0 < n) (hm : m.toNat = n)
    (hv : ∀ key ∈ keys, key.len = n →
      Visits H memo t key.bits inv seen (MerkleTree.proofVisitor (E := BonsaiDatabase.DatabaseError DB) H))
    (it : MerkleTreeIterator MultiProof) (hit : MerkleTreeIterator.Ready H memo db t seen it) (hI : inv it.visitor) :
    Falters (fun it' => Loaded H memo db.columns (some t) it.tree it'.tree)
      (keys.forM (MerkleTree.proveKey H (db.withFault fault) m)) (keys.forM (MerkleTree.proveKey H db m) :) it := by
  refine Falters.forM (P := fun it' => MerkleTreeIterator.Ready H memo db t seen it' ∧ Walks t inv seen it it')
    (fun key hmem it' h => ?_) ⟨hit, .refl hI⟩
  by_cases hkey : key.len = n
  · have hlen : key.bits.length = n := hkey
    have hvk := hv key hmem hkey
    obtain ⟨it₁, w, h', s, ks₁, ks₂, hrun, htrail, -, -, hwalk⟩ :=
      MerkleTreeIterator.traverseTo_ok hvk hlaw (hlen ▸ hw) (hlen ▸ hn) (hlen ▸ hpos) it' h.1 h.2.inv
    have hrun := (proveKey_of_len (H := H) hm hkey).trans hrun
    have hfalter : Falters (fun it'' => Loaded H memo db.columns (some t) it'.tree it''.tree)
        (MerkleTree.proveKey H (db.withFault fault) m key) (MerkleTree.proveKey H db m key :) it' :=
      .of_eq (proveKey_of_len hm hkey) (proveKey_of_len hm hkey)
        (MerkleTreeIterator.traverseTo_falters fault hvk hlaw (hlen ▸ hw) (hlen ▸ hn) (hlen ▸ hpos) h.1 h.2.inv)
    refine ⟨hfalter.mono fun it'' hl => .of_walks h.2 hl, fun it₂ hrun₂ => ?_⟩
    obtain rfl : it₂ = it₁ := by
      have heq := hrun₂.symm.trans hrun
      cases heq
      rfl
    exact ⟨.on htrail, h.2.trans hwalk⟩
  · refine ⟨.of_result (proveKey_of_ne hm hkey) (proveKey_of_ne hm hkey), fun it₂ hrun₂ => ?_⟩
    rw [proveKey_of_ne hm hkey] at hrun₂
    cases hrun₂

theorem proveKeys_empty_falters {memo : Memo} (hR : TreeRep H memo n db.columns tree none) (hpos : 0 < n)
    (keys : List BitSlice) (lh : Option Felt) :
    Falters (fun it' => Loaded H memo db.columns none tree it'.tree)
      (keys.forM (MerkleTree.proveKey H (db.withFault fault) tree.maxHeight))
      (keys.forM (MerkleTree.proveKey H db tree.maxHeight) :) ⟨tree, [], [], lh, ∅⟩ := by
  refine Falters.forM (P := fun it' => ∃ root lh', it' = ⟨{ tree with rootNode := root }, [], [], lh', ∅⟩ ∧
    TreeRep H memo n db.columns { tree with rootNode := root } none) (fun key _ it' h => ?_) ⟨tree.rootNode, lh, rfl, hR⟩
  obtain ⟨root, lh', rfl, hR'⟩ := h
  by_cases hkey : key.len = n
  · have hlen : 0 < key.bits.length := by rw [show key.bits.length = n from hkey]; exact hpos
    have hrun := (proveKey_of_len (H := H) hR.height hkey).trans (traverseTo_empty hR' hlen [] lh' ∅)
    have hfalter : Falters (fun it'' => it''.tree = { tree with rootNode := root })
        (MerkleTree.proveKey H (db.withFault fault) tree.maxHeight key) (MerkleTree.proveKey H db tree.maxHeight key :)
        ⟨{ tree with rootNode := root }, [], [], lh', ∅⟩ :=
      .of_eq (proveKey_of_len hR.height hkey) (proveKey_of_len hR.height hkey)
        (traverseTo_empty_falters fault hR' hlen [] lh' ∅)
    refine ⟨hfalter.mono fun it'' h => ?_, fun it₂ hrun₂ => ?_⟩
    · rw [h]
      exact ⟨tree.nodes, root, rfl, hR'.rooted⟩
    · have heq := hrun₂.symm.trans hrun
      cases heq
      exact ⟨some .empty, none, rfl, hR'.loadedEmpty⟩
  · refine ⟨.of_result (proveKey_of_ne hR.height hkey) (proveKey_of_ne hR.height hkey), fun it₂ hrun₂ => ?_⟩
    rw [proveKey_of_ne hR.height hkey] at hrun₂
    cases hrun₂

/-- A proof whose reads may fail. -/
theorem getMultiProof_falters (hR : TreeRep H anyMemo n db.columns tree T) (hpos : 0 < n) (keys : List BitSlice) :
    Falters (Loaded H anyMemo db.columns T tree) (MerkleTree.getMultiProof H (db.withFault fault) keys)
      (MerkleTree.getMultiProof H db keys :) tree := by
  have hwalk : Falters (fun it' : MerkleTreeIterator MultiProof => Loaded H anyMemo db.columns T tree it'.tree)
      (keys.forM (MerkleTree.proveKey H (db.withFault fault) tree.maxHeight))
      (keys.forM (MerkleTree.proveKey H db tree.maxHeight) :) (MerkleTreeIterator.new tree ∅) := by
    cases T with
    | none => exact proveKeys_empty_falters fault hR hpos keys none
    | some t =>
      exact proveKeys_falters fault (anyMemo_lawful H) (hR.wf t rfl) hR.le_255 hpos hR.height
        (fun key _ _ => proofVisitor_visits_any (hR.wf t rfl) hR.le_255 key.bits) _ (.start hR.rooted rfl rfl) trivial
  rcases hwalk with h | ⟨e, it', h, hJ⟩
  · refine .inl ?_
    rw [MerkleTree.getMultiProof, MerkleTree.getMultiProof, h]
    cases keys.forM (MerkleTree.proveKey H db tree.maxHeight) (MerkleTreeIterator.new tree ∅) <;> rfl
  · exact .inr ⟨e, it'.tree, by rw [MerkleTree.getMultiProof, h], hJ⟩

/-! ### Deletions -/

omit [InfallibleDatabase DB] in
theorem getTrieBranch_falters (path : Path) :
    Falters (· = tree) (MerkleTree.getTrieBranchInDbFromPath (db.withFault fault) path)
      (MerkleTree.getTrieBranchInDbFromPath db path :) tree :=
  .bind_ok (MerkleTree.self_run tree)
    (.ite (.refl _ tree) ((lift_falters (get_withFault fault db _) tree).bind fun bytes tree' _ => by
      cases bytes with
      | none => exact .refl _ tree'
      | some bytes =>
        simp only
        rcases Node.decode bytes with (_ | _) | node
        · exact .refl _ tree'
        · exact .refl _ tree'
        · exact .refl _ tree'))

omit [InfallibleDatabase DB] in
theorem mergeEdges_falters (parent : EdgeNode) (path : Path) :
    Falters (fun _ => True) (MerkleTree.mergeEdges (db.withFault fault) parent path)
      (MerkleTree.mergeEdges db parent path :) tree := by
  rw [MerkleTree.mergeEdges, MerkleTree.mergeEdges]
  cases parent.child with
  | hash felt =>
    refine ((getTrieBranch_falters fault path).mono fun _ _ => trivial).bind fun node tree' _ => ?_
    rcases node with _ | (b | e)
    · exact .refl _ tree'
    · exact .refl _ tree'
    · exact .refl _ tree'
  | inMemory childId =>
    refine .bind_left fun node tree' _ => ?_
    cases node with
    | binary b => exact .refl _ tree'
    | edge e => exact .refl _ tree'

omit [InfallibleDatabase DB] in
theorem dissolveBinary_falters (key : Path) (nodeId : NodeKey) (parentNode : Option (NodeKey × Nat)) (lastBinaryPath : Path) :
    Falters (fun _ => True) (MerkleTree.dissolveBinary (db.withFault fault) key nodeId parentNode lastBinaryPath)
      (MerkleTree.dissolveBinary db key nodeId parentNode lastBinaryPath :) tree :=
  .bind_left fun node _ _ => .bind_left fun binary _ _ => .bind_left fun direction _ _ =>
    (mergeEdges_falters fault _ _).bind fun newEdge tree' _ => by
      rcases parentNode with _ | ⟨parentNodeId, height⟩
      · exact .refl _ tree'
      · refine .bind_left fun node tree'' _ => ?_
        cases node with
        | binary b => exact .refl _ tree''
        | edge e => exact .refl _ tree''

/-- A deletion whose reads may fail does what it does without, or fails once the leaf is gone from the cache. -/
theorem deleteWalk_falters {memo : Memo} (hR : TreeRep H memo n db.columns tree T) (hlaw : memo.Lawful H) (hn : 0 < n)
    (hkey : key.len = n) :
    Falters (fun _ => True) (MerkleTree.deleteWalk (db.withFault fault) key) (MerkleTree.deleteWalk db key :) tree := by
  refine ((seekTo_falters fault hR hlaw hn hkey).mono fun _ _ => trivial).bind fun pathNodes _ _ =>
    .bind_left fun rest tree' _ => ?_
  obtain ⟨pathNodes, lastBinaryPath⟩ := rest
  simp only
  rcases pathNodes.reverse with _ | ⟨⟨nodeId, height⟩, rest⟩
  · exact .refl _ tree'
  · exact dissolveBinary_falters fault key.bits nodeId rest.head? lastBinaryPath

end Trees

/-! ## Storages -/

section Storages

variable [FeltCodec] {DB ID : Type} [BonsaiDatabase DB] [InfallibleDatabase DB] (fault : Fault DB)
  {H : StarkHash} {n : Nat} {st st' : BonsaiStorage DB ID} {s : Leaves} {key : BitSlice} {value : Felt}

omit [FeltCodec] [InfallibleDatabase DB] in
theorem onTrees_falters {α : Type} {J : MerkleTree → Prop}
    {x y : KeyValueDB DB ID → MerkleTree.M (BonsaiDatabase.DatabaseError DB) α}
    (h : Falters J (x st.db) (y st.db) (st.treeOf [])) :
    Falters (fun st₁ => ∃ tree', J tree' ∧ st₁ = { st with trees := st.trees.insert [] tree' }) (MerkleTrees.onTree [] x)
      (MerkleTrees.onTree [] y) st := by
  rcases h with h | ⟨e, tree', h, hJ⟩
  · exact .inl (by rw [MerkleTrees.onTree, MerkleTrees.onTree, h])
  · exact .inr ⟨e, _, by rw [MerkleTrees.onTree, h], tree', hJ, rfl⟩

theorem LeafRep.loaded {o : Fin 8} {cols : Columns} {tree tree' : MerkleTree} {T : Option (Trie Felt)}
    (h : LeafRep H n o cols tree T s) (hl : Loaded H anyMemo cols T tree tree') : LeafRep H n o cols tree' T s := by
  have hR := h.rep.loaded hl
  obtain ⟨nodes, root, rfl, -⟩ := hl
  exact ⟨hR, h.trie, h.cache, h.flat, h.keys, h.known⟩

theorem Loaded.identifier {memo : Memo} {cols : Columns} {tree tree' : MerkleTree} {T : Option (Trie Felt)}
    (h : Loaded H memo cols T tree tree') : tree'.identifier = tree.identifier := by
  obtain ⟨nodes, root, rfl, -⟩ := h
  rfl

/-- A storage whose tree has loaded nodes has the same content. -/
theorem CallRep.sameContent (hs : CallRep H n st s) (hs' : CallRep H n st' s) (h : SameContent H n st st')
    {T : Option (Trie Felt)} {tree' : MerkleTree} (hT : LeafRep H n 0 st.db.columns (st.treeOf []) T s)
    (hl : Loaded H anyMemo st.db.columns T (st.treeOf []) tree') :
    SameContent H n { st with trees := st.trees.insert [] tree' } st' :=
  ⟨⟨s, hs.insert_tree (hT.loaded hl) (hl.identifier.trans (hs.rep.identifier_treeOf [])), hs'⟩, h.columns, h.changes,
    h.config⟩

namespace SameContent

/-- An insertion that fails leaves the content as it is. -/
theorem set_falters (h : SameContent H n st st') (hn : 0 < n) (hkey : key.len = n) (hv : value ≠ 0) :
    Falters (fun st₁ => SameContent H n st₁ st') (setWithFault fault key value) (MerkleTrees.set [] key value) st := by
  obtain ⟨s, hs, hs'⟩ := h.leaves
  obtain ⟨T, hT⟩ := hs.leafRep
  refine (onTrees_falters (Bonsai.set_falters fault hT.rep (anyMemo_lawful H) hn hkey hv)).mono ?_
  rintro _ ⟨tree', hl, rfl⟩
  exact hs.sameContent hs' h hT hl

/-- So does a proof that fails. -/
theorem getMultiProof_falters (h : SameContent H n st st') (hn : 0 < n) (keys : List BitSlice) :
    Falters (fun st₁ => SameContent H n st₁ st') (getMultiProofWithFault H fault keys) (MerkleTrees.getMultiProof H [] keys)
      st := by
  obtain ⟨s, hs, hs'⟩ := h.leaves
  obtain ⟨T, hT⟩ := hs.leafRep
  refine (onTrees_falters (Bonsai.getMultiProof_falters fault hT.rep hn keys)).mono ?_
  rintro _ ⟨tree', hl, rfl⟩
  exact hs.sameContent hs' h hT hl

/-- So does a deletion that cannot read the flat entry. -/
theorem delete_unread (h : SameContent H n st st') (hkey : key.len = n) (hpend : pendingOf st [] key = none)
    (hfault : (fault (.flat (bitsliceToBytes key))).isSome) :
    ∃ e st₁, setWithFault fault key 0 st = .error e st₁ ∧ SameContent H n st₁ st' := by
  obtain ⟨s, hs, hs'⟩ := h.leaves
  obtain ⟨T, hT⟩ := hs.leafRep
  obtain ⟨e, he⟩ := Option.isSome_iff_exists.mp hfault
  have hlen : ¬ key.len ≠ (st.treeOf []).maxHeight.toNat := by rw [hT.rep.height]; simpa using hkey
  have hread := @get_withFault_some _ _ _ _ st.db (TrieKey.new (st.treeOf []).identifier .flat (bitsliceToBytes key)) _
    (by rw [hs.rep.identifier_treeOf]; exact he)
  have hrun : MerkleTree.set (st.db.withFault fault) key 0 (st.treeOf []) =
      .error (.error (.database e)) (st.treeOf []) := by
    rw [MerkleTree.set, if_pos rfl, MerkleTree.deleteLeaf, bind_ok (MerkleTree.self_run _), if_neg hlen]
    simp only [show (st.treeOf []).cacheLeafModified.lookup (bitsliceToBytes key) = none from hpend]
    rw [hread]
    rfl
  refine ⟨.error (.database e), _, ?_, hs.sameContent hs' h hT hT.rep.loaded_refl⟩
  rw [setWithFault, MerkleTrees.onTree, hrun]

/-- A deletion that fails later has taken the leaf away. -/
theorem delete_falters (h : SameContent H n st st') (hn : 0 < n) (hh : key.head.val = 0) (hkey : key.len = n)
    (hread : pendingOf st [] key = none → fault (.flat (bitsliceToBytes key)) = none) :
    Falters (fun st₁ => BonsaiStorage.get st₁ [] key ≠ BonsaiStorage.get st [] key) (setWithFault fault key 0)
      (MerkleTrees.set [] key 0) st := by
  obtain ⟨s, hs, -⟩ := h.leaves
  obtain ⟨T, hT⟩ := hs.leafRep
  have hh : key.head = 0 := Fin.ext hh
  have hrun := hT.deleteLeaf_run hh hkey st.db fun _ => hT.flat_eq hh hkey
  have hrunF := hT.deleteLeaf_run hh hkey (st.db.withFault fault) fun hc => by
    rw [get_withFault_none st.db (by
      rw [hs.rep.identifier_treeOf]
      exact hread ((hT.cache_eq hh hkey).trans hc))]
    exact hT.flat_eq hh hkey
  have hset (db' : KeyValueDB DB ID) : MerkleTree.set db' key 0 (st.treeOf []) = MerkleTree.deleteLeaf db' key (st.treeOf []) := by
    rw [MerkleTree.set, if_pos rfl]
  have hsetF (db' : KeyValueDB (Faulty DB) ID) :
      MerkleTree.set db' key 0 (st.treeOf []) = MerkleTree.deleteLeaf db' key (st.treeOf []) := by
    rw [MerkleTree.set, if_pos rfl]
  by_cases hg : (s.get key.bits).isSome
  · rw [if_pos hg] at hrun hrunF
    have hframed : Framed fun tree => tree.cacheLeafModified.lookup (bitsliceToBytes key) = some .remove := fun _ _ _ _ h => h
    have hR : TreeRep H anyMemo n st.db.columns ((st.treeOf []).cacheRemove key) T := LeafRep.TreeRep_cache hT.rep _
    have hwalk := (deleteWalk_falters fault hR (anyMemo_lawful H) hn hkey).preserves
      (hframed.deleteWalk (st.db.withFault fault) key) (AList.lookup_insert _)
    have htree : Falters (fun tree' => True ∧ tree'.cacheLeafModified.lookup (bitsliceToBytes key) = some .remove)
        (MerkleTree.set (st.db.withFault fault) key 0) (MerkleTree.set st.db key 0 :) (st.treeOf []) :=
      .of_eq ((hsetF _).trans hrunF) ((hset _).trans hrun) hwalk
    refine (onTrees_falters htree).mono ?_
    rintro _ ⟨tree', ⟨-, hcache⟩, rfl⟩ heq
    have hafter : BonsaiStorage.get { st with trees := st.trees.insert [] tree' } [] key = .ok none := by
      rw [BonsaiStorage.get, MerkleTrees.get, MerkleTrees.treeOf_insert, MerkleTree.get]
      simp only [hcache]
    have hbefore : BonsaiStorage.get st [] key = .ok (s.get key.bits) := hT.get_ok hh hkey
    have hnone : none = s.get key.bits := Except.ok.inj (hafter.symm.trans (heq.trans hbefore))
    rw [← hnone] at hg
    cases hg
  · rw [if_neg hg] at hrun hrunF
    have htree : Falters (fun _ => False) (MerkleTree.set (st.db.withFault fault) key 0) (MerkleTree.set st.db key 0 :)
        (st.treeOf []) := .of_result ((hsetF _).trans hrunF) ((hset _).trans hrun)
    refine (onTrees_falters htree).mono ?_
    rintro _ ⟨_, ⟨⟩, _⟩

end SameContent

end Storages

/-! ## Runs -/

section Attempts

variable [FeltCodec] {DB ID T : Type} [BonsaiDatabase DB] [InfallibleDatabase DB] [AnswersOld DB] [Id ID]
  [BonsaiPersistentDatabase DB ID T] [InfallibleSnapshots DB ID T] {H : StarkHash} {n : Nat}
  {st st' : BonsaiStorage DB ID} {key : BitSlice} {value : Felt}

namespace SameContent

/-- A storage with the same content has no trace of what was tried. -/
theorem traceless (h : SameContent H n st' st) (hn : 0 < n) : Traceless H st st' := by
  obtain ⟨s, hs', hs⟩ := h.leaves
  refine ⟨hs'.get_eq hs h.columns, fun rs hrs => ?_⟩
  obtain ⟨hend, hans⟩ := Trace.agree (R := SameContent H n) (fun st st' r h hr => h.agree hn hr) hrs h
  exact ⟨hans, hend.columns⟩

omit [AnswersOld DB] [Id ID] in
/-- A write whose reads may fail does what it does without, or fails: harmlessly, or with the leaf gone. -/
theorem set_outcome (h : SameContent H n st st') (hn : 0 < n) (hh : key.head.val = 0) (fault : Fault DB) (value : Felt) :
    (∃ st₁, setWithFault fault key value st = .ok () st₁ ∧ MerkleTrees.set [] key value st = .ok () st₁) ∨
      ∃ e st₁, setWithFault fault key value st = .error e st₁ ∧
        (Harmless n st fault key value ∧ SameContent H n st₁ st' ∨
          ¬ Harmless n st fault key value ∧ BonsaiStorage.get st₁ [] key ≠ BonsaiStorage.get st [] key) := by
  obtain ⟨s, hs, hs'⟩ := h.leaves
  by_cases hkey : key.len = n
  · obtain ⟨st₁, hrun, -⟩ := hs.set_ok hn (Fin.ext hh) hkey value
    by_cases hv : value = 0
    · subst hv
      by_cases hread : pendingOf st [] key = none ∧ (fault (.flat (bitsliceToBytes key))).isSome
      · obtain ⟨e, st₂, hrun, h₂⟩ := h.delete_unread fault hkey hread.1 hread.2
        exact .inr ⟨e, st₂, hrun, .inl ⟨.inr (.inr hread), h₂⟩⟩
      · have hharm : ¬ Harmless n st fault key 0 := by
          rintro (h₀ | h₀ | h₀)
          · exact h₀ rfl
          · exact h₀ hkey
          · exact hread h₀
        rcases h.delete_falters fault hn hh hkey fun hp => by
          rw [← Option.not_isSome_iff_eq_none]
          exact fun hf => hread ⟨hp, hf⟩ with heq | ⟨e, st₂, hrun₂, hne⟩
        · exact .inl ⟨st₁, heq.trans hrun, hrun⟩
        · exact .inr ⟨e, st₂, hrun₂, .inr ⟨hharm, hne⟩⟩
    · rcases h.set_falters fault hn hkey hv with heq | ⟨e, st₂, hrun₂, h₂⟩
      · exact .inl ⟨st₁, heq.trans hrun, hrun⟩
      · exact .inr ⟨e, st₂, hrun₂, .inl ⟨.inl hv, h₂⟩⟩
  · obtain ⟨T, hT⟩ := hs.leafRep
    have hrun := MerkleTree.set_keyLength (st.db.withFault fault) (by rw [hT.rep.height]; exact hkey) value
    refine .inr ⟨.error (.keyLength (st.treeOf []).maxHeight.toNat key.len), _, ?_,
      .inl ⟨.inr (.inl hkey), hs.sameContent hs' h hT hT.rep.loaded_refl⟩⟩
    rw [setWithFault, MerkleTrees.onTree, hrun]

/-- An attempt that fails harmlessly keeps the storage as it should be. -/
theorem attempt (h : SameContent H n st st) (hn : 0 < n) {a : Attempt DB ID} (ha : a.request.Aligned)
    (hharm : a.FailsHarmlessly H n st) :
    SameContent H n (Trace.next (Attempt.run H) a st) (Trace.next (Attempt.run H) a st) := by
  obtain ⟨fault, request⟩ := a
  cases request with
  | set key value =>
    rcases h.set_outcome hn ha fault value with ⟨st₁, hrun, hset⟩ | ⟨e, st₁, hrun, hout⟩
    · have hnext : Trace.next (Attempt.run H) ⟨fault, .set key value⟩ st = st₁ :=
        Trace.next_of (r := .ok none) ((bind_ok hrun _).trans rfl)
      have hnext' : Trace.next (Request.run H) (.set key value) st = st₁ :=
        Trace.next_of (r := .ok none) ((bind_ok hset _).trans rfl)
      rw [hnext, ← hnext']
      exact (h.agree hn (r := .set key value) ha).2
    · have hatt : Attempt.run H ⟨fault, .set key value⟩ st = leaving (.error e) st₁ := bind_error hrun _
      rw [Trace.next_of hatt]
      rcases hout with ⟨-, h₁⟩ | ⟨hnot, -⟩
      · obtain ⟨s, hs, hs'⟩ := h₁.leaves
        exact ⟨⟨s, hs, hs⟩, rfl, ⟨h₁.changes.1, h₁.changes.1⟩, rfl⟩
      · exact (hnot (hharm key value rfl e (Trace.answer_of hatt))).elim
  | get key =>
    have hatt : Attempt.run H ⟨fault, .get key⟩ st = leaving (getWithFault fault st key) st := rfl
    rw [Trace.next_of hatt]
    exact h
  | getMultiProof keys =>
    rcases h.getMultiProof_falters fault hn keys with heq | ⟨e, st₁, hrun, h₁⟩
    · have hatt : Attempt.run H ⟨fault, .getMultiProof keys⟩ st = Request.run H (.getMultiProof keys) st := by
        show (getMultiProofWithFault H fault keys >>= fun _ => pure none) st = _
        rw [bind_run, heq]
        rfl
      rw [Trace.next, hatt]
      exact (h.agree hn (r := .getMultiProof keys) ha).2
    · have hatt : Attempt.run H ⟨fault, .getMultiProof keys⟩ st = leaving (.error e) st₁ := bind_error hrun _
      rw [Trace.next_of hatt]
      obtain ⟨s, hs, hs'⟩ := h₁.leaves
      exact ⟨⟨s, hs, hs⟩, rfl, ⟨h₁.changes.1, h₁.changes.1⟩, rfl⟩
  | commit ords logOrd id => exact (h.agree hn (r := .commit ords logOrd id) ha).2

end SameContent

omit [InfallibleDatabase DB] [AnswersOld DB] [InfallibleSnapshots DB ID T] in
/-- The state a write that fails leaves. -/
theorem setWithFault_error {fault : Fault DB} {e : Failure (BonsaiDatabase.DatabaseError DB)}
    (h : Trace.answer (Attempt.run H) ⟨fault, .set key value⟩ st = .error e) :
    setWithFault fault key value st = .error e (Trace.next (Attempt.run H) ⟨fault, .set key value⟩ st) := by
  cases hset : setWithFault fault key value st with
  | ok _ st₁ =>
    have hatt : Attempt.run H ⟨fault, .set key value⟩ st = leaving (.ok none) st₁ := bind_ok hset _
    rw [Trace.answer_of hatt] at h
    cases h
  | error e' st₁ =>
    have hatt : Attempt.run H ⟨fault, .set key value⟩ st = leaving (.error e') st₁ := bind_error hset _
    rw [Trace.answer_of hatt] at h
    cases h
    rw [Trace.next_of hatt]

variable (H) in
/-- After any run in which the writes that failed were harmless, a write that fails leaves no trace
exactly when it is harmless as well. -/
theorem failed_set_traceless (m : UInt8) (hm : 0 < m.toNat) (db : DB)
    (hdb : ∀ key : TrieKey, InfallibleDatabase.columns db key.toDatabaseKey = none) (config : BonsaiStorageConfig)
    (attempts : List (Attempt DB ID)) (hkeys : ∀ a ∈ attempts, a.request.Aligned)
    (hrun : Trace.Meets (Attempt.run H) (fun st a => a.FailsHarmlessly H m.toNat st) attempts
      (BonsaiStorage.new db config m))
    (fault : Fault DB) (key : BitSlice) (hkey : key.head.val = 0) (value : Felt) (st' : BonsaiStorage DB ID)
    (e : Failure (BonsaiDatabase.DatabaseError DB))
    (hset : setWithFault fault key value (Trace.after (Attempt.run H) attempts (BonsaiStorage.new db config m)) =
      .error e st') :
    Traceless H (Trace.after (Attempt.run H) attempts (BonsaiStorage.new db config m)) st' ↔
      Harmless m.toNat (Trace.after (Attempt.run H) attempts (BonsaiStorage.new db config m)) fault key value := by
  have hnew : CallRep H m.toNat (BonsaiStorage.new db config m : BonsaiStorage DB ID) .empty :=
    .start (show ∀ key : TrieKey, (KeyValueDB.new db config none : KeyValueDB DB ID).columns key.toDatabaseKey = none from hdb) m
  have haligned : Trace.Meets (Attempt.run H) (fun _ a => a.request.Aligned) attempts
      (BonsaiStorage.new db config m) := Trace.meets_of_forall hkeys
  have hend : SameContent H m.toNat _ _ := Trace.invariant (I := fun st => SameContent H m.toNat st st)
    (fun st a h ha => h.attempt hm ha.2 ha.1) ⟨⟨.empty, hnew, hnew⟩, rfl, ⟨rfl, rfl⟩, rfl⟩ (hrun.and haligned)
  rcases hend.set_outcome hm hkey fault value with ⟨st₁, hok, -⟩ | ⟨e', st₁, hfail, hout⟩
  · rw [hset] at hok
    cases hok
  · rw [hset] at hfail
    cases hfail
    rcases hout with ⟨hharm, h₁⟩ | ⟨hharm, hne⟩
    · exact iff_of_true (h₁.traceless hm) hharm
    · exact iff_of_false (fun h => hne (h.1 key)) hharm

end Attempts

/-- Two keys that part at their last bit, written and committed. -/
def writeCommit : List (Attempt (HashMapDb BasicId) BasicId) :=
  [⟨fun _ => none, .set (.aligned [true, false]) 1⟩, ⟨fun _ => none, .set (.aligned [true, true]) 2⟩,
    ⟨fun _ => none, .commit (fun _ => .listed) .listed 1⟩]

/-- The node at the root cannot be read. -/
def noRoot : Fault (HashMapDb BasicId) := fun key => if key = .trie [0] then some .mk else none

theorem writeCommit_aligned : ∀ a ∈ writeCommit, a.request.Aligned := by
  intro a ha
  simp only [writeCommit, List.mem_cons, List.not_mem_nil, or_false] at ha
  rcases ha with rfl | rfl | rfl
  all_goals rw [Request.Aligned]; decide

theorem writeCommit_harmless :
    Trace.Meets (Attempt.run fun a b => a + b) (fun st a => a.FailsHarmlessly (fun a b => a + b) (UInt8.toNat 2) st)
      writeCommit (BonsaiStorage.inMemory 2) := by
  refine ⟨?_, ?_, ?_, trivial⟩
  · intro key value h
    cases h
    exact fun _ _ => .inl (by decide)
  · intro key value h
    cases h
    exact fun _ _ => .inl (by decide)
  · intro key value h
    cases h

theorem failed_set_traceless_insert :
    Traceless (fun a b => a + b) (Trace.after (Attempt.run fun a b => a + b) writeCommit (BonsaiStorage.inMemory 2))
      (Trace.next (Attempt.run fun a b => a + b) ⟨noRoot, .set (.aligned [true, true]) 3⟩
        (Trace.after (Attempt.run fun a b => a + b) writeCommit (BonsaiStorage.inMemory 2))) :=
  (failed_set_traceless (fun a b => a + b) 2 (by decide) HashMapDb.empty HashMapDb.columns_empty ⟨none, none, 1⟩
    writeCommit writeCommit_aligned writeCommit_harmless noRoot (.aligned [true, true]) rfl 3 _ (.error (.database .mk))
    (setWithFault_error (by decide +kernel))).mpr (.inl (by decide))

/-- A deletion that cannot read the root has hidden the leaf, and the next try returns without removing
its node. -/
theorem failed_set_leaves_trace :
    let st := Trace.after (Attempt.run fun a b => a + b) writeCommit (BonsaiStorage.inMemory 2)
    let st' := Trace.next (Attempt.run fun a b => a + b) ⟨noRoot, .set (.aligned [true, true]) 0⟩ st
    let again : List (Request BasicId) := [.set (.aligned [true, true]) 0, .commit (fun _ => .listed) .listed 2]
    Trace.answer (Attempt.run fun a b => a + b) ⟨noRoot, .set (.aligned [true, true]) 0⟩ st =
        .error (.error (.database .mk)) ∧
      BonsaiStorage.get st [] (.aligned [true, true]) = .ok (some 2) ∧
      BonsaiStorage.get st' [] (.aligned [true, true]) = .ok none ∧
      Trace.answers (Request.run fun a b => a + b) again st = Trace.answers (Request.run fun a b => a + b) again st' ∧
      (Trace.after (Request.run fun a b => a + b) again st).db.columns (.trie [0]) ≠
        (Trace.after (Request.run fun a b => a + b) again st').db.columns (.trie [0]) := by
  decide +kernel

end Bonsai
