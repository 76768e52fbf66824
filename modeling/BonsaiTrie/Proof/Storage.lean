import BonsaiTrie.Proof.CommitTree
import BonsaiTrie.Spec.Root
import BonsaiTrie.Spec.Runs

/-!
# The storage refines the leaves

`StorageRep` says that a storage holds trees with given leaves, for a set of
identifiers. Writes to one tree leave the others as they are (`set_ok`). A
commit writes the updates of every tree; when the trees have no database keys
in common and no tree removes a node of another, every tree is left committed
(`commit_ok`), and its root hash is that of its trie (`rootHash_ok`).
-/

namespace Bonsai

open Patricia Run

/-! ## One tree -/

section

variable [FeltCodec] {H : StarkHash} {memo : Memo} {n : Nat} {o : Fin 8} {cols cols' : Columns} {tree : MerkleTree}
  {T : Option (Trie Felt)} {s : Leaves} {u : Updates} {nodes : SlotMap Node}

/-- The tree with nothing in memory. -/
def MerkleTree.drained (tree : MerkleTree) (nodes : SlotMap Node) : MerkleTree :=
  { tree with rootNode := none, nodes := nodes, deathRow := ∅, cacheLeafModified := ∅ }

/-- A tree with nothing in memory, and nothing to write. -/
structure MerkleTree.Idle (tree : MerkleTree) : Prop where
  root : tree.rootNode = none
  nodes : ∀ k, tree.nodes.slots k = none
  deathRow : tree.deathRow = ∅
  cache : tree.cacheLeafModified = ∅

/-- A content that has what the updates give, where it matters to the tree. -/
structure Applied (n : Nat) (cols cols' : Columns) (tree : MerkleTree) (T : Option (Trie Felt)) (u : Updates) : Prop where
  node : ∀ t r, T = some t → t.HasNode r →
    cols' (.trie (tree.identifier ++ Path.encode r)) = u.apply cols (.trie (tree.identifier ++ Path.encode r))
  other : ∀ p : Path, p.length ≤ n → (cols' (.trie (tree.identifier ++ p.encode))).isSome →
    cols' (.trie (tree.identifier ++ p.encode)) = u.apply cols (.trie (tree.identifier ++ p.encode))

omit [FeltCodec] in
theorem MerkleTree.idle_drained (tree : MerkleTree) {nodes : SlotMap Node} (h : ∀ k, nodes.slots k = none) :
    (tree.drained nodes).Idle := ⟨rfl, h, rfl, rfl⟩

omit [FeltCodec] in
theorem MerkleTree.idle_new (X : ByteVec) (m : UInt8) : (MerkleTree.new X m).Idle := ⟨rfl, fun _ => rfl, rfl, rfl⟩

omit [FeltCodec] in
theorem MerkleTree.disk_drained (tree : MerkleTree) (nodes : SlotMap Node) (cols : Columns) (p : Path) :
    (tree.drained nodes).disk cols p = cols (.trie (tree.identifier ++ p.encode)) := by
  rw [MerkleTree.disk, MerkleTree.drained, AList.lookup_empty, if_neg (by simp)]

/-- The database nodes of an idle tree are those of its trie. -/
theorem TreeRep.columns_of_idle (hR : TreeRep H memo n cols tree T) (hi : tree.Idle) {p : Path} (hp : p.length ≤ n) :
    cols (.trie (tree.identifier ++ p.encode)) = (T.bind (·.sub p)).bind (storedBytes H p.length) := by
  have hd : tree.disk cols p = cols (.trie (tree.identifier ++ p.encode)) := by
    rw [MerkleTree.disk, hi.deathRow, AList.lookup_empty, if_neg (by simp)]
  rw [← hd]
  by_cases hs : ∃ t, T = some t ∧ t.HasNode p
  · obtain ⟨t, rfl, s, hsub, hl⟩ := hs
    have hr := hR.rooted
    rw [hi.root] at hr
    cases hr with
    | unloaded hF =>
      obtain ⟨-, hst, -⟩ := hF.rep.hash_inv
      rw [Option.bind_some, hsub, Option.bind_some]
      exact (hst.sub hsub).top hl
  · rw [Option.not_isSome_iff_eq_none.mp fun h => hs (hR.only p hp h)]
    cases T with
    | none => rfl
    | some t =>
      cases hsub : t.sub p with
      | none => rw [Option.bind_some, hsub]; rfl
      | some s =>
        cases s with
        | leaf v => rw [Option.bind_some, hsub]; rfl
        | binary l r => exact (hs ⟨t, rfl, _, hsub, id⟩).elim
        | edge q c => exact (hs ⟨t, rfl, _, hsub, id⟩).elim

/-- After the updates are made, the trie is in the database, and nothing else is. -/
theorem TreeRep.committed (hR : TreeRep H memo n cols tree T) (hu : UpdatesOf H cols tree T u)
    (hnone : ∀ j, nodes.slots j = none) (ha : Applied n cols cols' tree T u) :
    TreeRep H memo n cols' (tree.drained nodes) T := by
  have hn : n ≤ 255 := by have := UInt8.toNat_lt tree.maxHeight; have := hR.height; omega
  refine ⟨hR.height, ?_, hR.wf, fun p hp hs => ?_, fun b => rfl⟩
  · cases hT : T with
    | none => exact .noTrie hnone
    | some t =>
      have hs : Stored H ((tree.drained nodes).disk cols') [] t := (hu.stored t hT).congr fun r hr => by
        rw [MerkleTree.disk_drained]
        exact ha.node t r hT hr
      exact .unloaded ⟨.nil, .stored hs, by simp, fun j => by simp [MerkleTree.drained, hnone]⟩
  · rw [MerkleTree.disk_drained] at hs
    have heq := ha.other p hp hs
    rw [heq, show DatabaseKey.trie (tree.identifier ++ p.encode) =
      (TrieKey.trie (tree.identifier ++ p.encode)).toDatabaseKey from rfl, Updates.apply_key] at hs
    rcases hu.trie (tree.identifier ++ p.encode) with h | ⟨t, r, bytes, hT, hr, hb, -⟩
    · refine hR.only p hp ?_
      rw [h] at hs
      rw [MerkleTree.disk, TrieKey.new]
      rcases hd : tree.deathRow.lookup (.trie (tree.identifier ++ p.encode)) with _ | ⟨⟩
      · rw [hd] at hs
        rw [if_neg (by simp [hd])]
        exact hs
      · rw [hd] at hs; cases hs
    · have := (hR.wf t hT).length_lt_of_hasNode hr
      obtain rfl := Path.encode_inj (by omega) (by omega) (List.append_cancel_left hb)
      exact ⟨t, hT, hr⟩

/-- A committed tree has its leaves committed. -/
theorem LeafRep.committed (h : LeafRep H n o cols tree T s) (hu : UpdatesOf H cols tree T u)
    (hnone : ∀ j, nodes.slots j = none) (ha : Applied n cols cols' tree T u)
    (hflat : ∀ k : Path, k.length = n → cols' (.flat (tree.identifier ++ bitsliceToBytes ⟨o, k⟩)) =
      u.apply cols (.flat (tree.identifier ++ bitsliceToBytes ⟨o, k⟩))) :
    LeafRep H n o cols' (tree.drained nodes) T s.commit := by
  refine ⟨h.rep.committed hu hnone ha, h.trie, fun k _ => rfl, fun k hk => ?_, h.keys.commit, fun b hb => by cases hb⟩
  have hl := hu.flat (bitsliceToBytes ⟨o, k⟩)
  rw [h.cache k hk] at hl
  refine (hflat k hk).trans ?_
  rw [Updates.apply, hl, h.flat k hk]
  show _ = (s.get k).map FeltCodec.encode
  rw [Leaves.get]
  rcases s.cache k with _ | (v | _) <;> rfl

/-- Only the nodes and the leaves of a content matter. -/
theorem LeafRep.congr (h : LeafRep H n o cols tree T s) (hc : KeyValueDB.SameTries cols cols') :
    LeafRep H n o cols' tree T s := by
  have hd : tree.disk cols' = tree.disk cols := funext fun p => by
    rw [MerkleTree.disk, MerkleTree.disk, show cols' (.trie (tree.identifier ++ p.encode)) = _ from hc (.trie _)]
    rfl
  obtain ⟨⟨hh, hr, hw, ho, hdr⟩, ht, hca, hf, hk, hkn⟩ := h
  refine ⟨⟨hh, hd ▸ hr, hw, hd ▸ ho, hdr⟩, ht, hca, fun k hl => ?_, hk, hkn⟩
  rw [← hf k hl]
  exact hc (.flat _)

end

/-! ## The trees -/

/-- The storage has, for the identifiers of `S`, trees with the leaves `L`. -/
structure StorageRep [FeltCodec] {DB ID : Type} [BonsaiDatabase DB] [InfallibleDatabase DB] (H : StarkHash) (n : Nat)
    (o : Fin 8) (S : Set ByteVec) (st : MerkleTrees DB ID) (L : ByteVec → Leaves) : Prop where
  trees : ∀ X tree, st.trees.lookup X = some tree → X ∈ S ∧ tree.identifier = X
  leaves : ∀ X ∈ S, ∃ T, LeafRep H n o st.db.columns (st.treeOf X) T (L X)

section

variable [FeltCodec] {DB ID : Type} [BonsaiDatabase DB] [InfallibleDatabase DB] {H : StarkHash} {n : Nat} {o : Fin 8}
  {S : Set ByteVec} {st : MerkleTrees DB ID} {L : ByteVec → Leaves} {X : ByteVec} {key : BitSlice}
  {cols : Columns} {tree : MerkleTree} {T : Option (Trie Felt)} {s : Leaves}

/-- The trie of a tree is that of its leaves. -/
theorem LeafRep.trie_eq (h : LeafRep H n o cols tree T s) : ofMap n s.trie = T := by
  cases T with
  | some t => exact (h.rep.wf t rfl).ofMap_eq fun k hk => (h.trie k hk).symm
  | none =>
    have hspec := ofMap_spec n s.trie
    cases ht : ofMap n s.trie with
    | none => rfl
    | some t =>
      rw [ht] at hspec
      obtain ⟨k, v, hk⟩ := hspec.1.exists_lookup
      have hlen := hspec.1.length_of_lookup hk
      have := h.trie k hlen
      rw [hspec.2 k hlen, hk] at this
      cases this

/-- It has the shape of the trie of what `get` finds. -/
theorem LeafRep.shape (h : LeafRep H n o cols tree T s) {t : Trie Felt} (ht : T = some t) :
    ∃ t', ofMap n s.get = some t' ∧ SameShape t' t := by
  rw [← h.trie_eq] at ht
  obtain ⟨t', ht', hs⟩ := sameShape_ofMap (fun k _ => h.keys k) ht
  exact ⟨t', ht', Eq.symm hs⟩

omit [FeltCodec] [BonsaiDatabase DB] [InfallibleDatabase DB] in
variable (st) in
/-- The tree that was put in. -/
theorem MerkleTrees.treeOf_insert (X : ByteVec) (tree : MerkleTree) :
    ({ st with trees := st.trees.insert X tree } : MerkleTrees DB ID).treeOf X = tree := by
  rw [MerkleTrees.treeOf, AList.lookup_insert]
  rfl

namespace StorageRep

theorem identifier_treeOf (h : StorageRep H n o S st L) (X : ByteVec) : (st.treeOf X).identifier = X := by
  rw [MerkleTrees.treeOf]
  cases hl : st.trees.lookup X with
  | none => rfl
  | some tree => exact (h.trees X tree hl).2

theorem get_ok (h : StorageRep H n o S st L) (hX : X ∈ S) (hh : key.head = o) (hkey : key.len = n) :
    MerkleTrees.get st X key = .ok ((L X).get key.bits) := by
  obtain ⟨T, hT⟩ := h.leaves X hX
  exact hT.get_ok hh hkey

theorem contains_ok (h : StorageRep H n o S st L) (hX : X ∈ S) (hh : key.head = o) (hkey : key.len = n) :
    MerkleTrees.contains st X key = .ok ((L X).get key.bits).isSome := by
  obtain ⟨T, hT⟩ := h.leaves X hX
  exact hT.contains_ok hh hkey

/-- What `get` finds is that of the leaves. -/
theorem ofMap_contentOf (h : StorageRep H n o S st L) (hX : X ∈ S) :
    ofMap n (contentOf st X o) = ofMap n (L X).get := by
  refine ofMap_congr fun k hk => ?_
  have := h.get_ok hX (show (⟨o, k⟩ : BitSlice).head = o from rfl) hk
  rw [contentOf, BonsaiStorage.get, this]

/-- A tree put in the place of that of its identifier. -/
theorem insert_tree (h : StorageRep H n o S st L) (hX : X ∈ S) {tree' : MerkleTree} {T' : Option (Trie Felt)} {s' : Leaves}
    (hT' : LeafRep H n o st.db.columns tree' T' s') (hid : tree'.identifier = X) :
    StorageRep H n o S { st with trees := st.trees.insert X tree' } (Function.update L X s') := by
  refine ⟨fun Y tree hl => ?_, fun Y hY => ?_⟩
  · by_cases hYX : Y = X
    · subst hYX
      rw [AList.lookup_insert] at hl
      obtain rfl := Option.some.inj hl
      exact ⟨hX, hid⟩
    · rw [AList.lookup_insert_ne hYX] at hl
      exact h.trees Y tree hl
  · by_cases hYX : Y = X
    · subst hYX
      refine ⟨T', ?_⟩
      rw [Function.update_self, MerkleTrees.treeOf_insert]
      exact hT'
    · rw [Function.update_of_ne hYX, MerkleTrees.treeOf, AList.lookup_insert_ne hYX]
      exact h.leaves Y hY

/-- A write changes the leaves of its tree. -/
theorem set_ok (h : StorageRep H n o S st L) (hn : 0 < n) (hX : X ∈ S) (hh : key.head = o) (hkey : key.len = n)
    (value : Felt) (hstray : value ≠ 0 → ∀ t, ofMap n (contentOf st X o) = some t → NoStray X t key) :
    ∃ st', MerkleTrees.set X key value st = .ok () st' ∧
      StorageRep H n o S st' (Function.update L X ((L X).set key.bits value)) ∧ st'.db = st.db ∧
      st'.maxHeight = st.maxHeight := by
  obtain ⟨T, hT⟩ := h.leaves X hX
  obtain ⟨tree', T', hrun, hT', hid⟩ := hT.set_ok hn hh hkey value fun hv t ht => by
    obtain ⟨t', ht', hs⟩ := hT.shape ht
    rw [h.identifier_treeOf X]
    exact (hstray hv t' (by rw [h.ofMap_contentOf hX, ht'])).of_sameShape hs
  refine ⟨{ st with trees := st.trees.insert X tree' }, ?_, h.insert_tree hX hT' (hid.trans (h.identifier_treeOf X)), rfl, rfl⟩
  rw [MerkleTrees.set, MerkleTrees.onTree, hrun]

end StorageRep

end

/-! ## Commits -/

namespace MerkleTree

variable [FeltCodec]

/-- The updates of a tree. -/
def updatesOf (E : Type) (H : StarkHash) (tree : MerkleTree) : Updates :=
  match (getUpdates H : M E Updates) tree with
  | .ok updates _ => updates
  | .error _ _ => ∅

/-- The tree once its updates are made. -/
def afterUpdates (E : Type) (H : StarkHash) (tree : MerkleTree) : MerkleTree :=
  match (getUpdates H : M E Updates) tree with
  | .ok _ tree => tree
  | .error _ tree => tree

end MerkleTree

section

variable [FeltCodec] {DB ID : Type} [BonsaiDatabase DB] [InfallibleDatabase DB] {E : Type} {H : StarkHash} {n : Nat}
  {o : Fin 8} {S : Set ByteVec} {st : MerkleTrees DB ID} {L : ByteVec → Leaves} {X : ByteVec}

omit [BonsaiDatabase DB] [InfallibleDatabase DB] in
theorem updatesOf_ok {memo : Memo} {cols : Columns} {tree : MerkleTree} {T : Option (Trie Felt)} (E : Type)
    (hR : TreeRep H memo n cols tree T) :
    (MerkleTree.getUpdates H : MerkleTree.M E Updates) tree = .ok (tree.updatesOf E H) (tree.afterUpdates E H) ∧
      UpdatesOf H cols tree T (tree.updatesOf E H) ∧
      ∃ nodes, tree.afterUpdates E H = tree.drained nodes ∧ ∀ j, nodes.slots j = none := by
  obtain ⟨u, nodes, hrun, hnone, hu⟩ := getUpdates_ok (E := E) hR
  rw [MerkleTree.updatesOf, MerkleTree.afterUpdates, hrun]
  exact ⟨rfl, hu, nodes, rfl, hnone⟩

namespace MerkleTrees

omit [BonsaiDatabase DB] [InfallibleDatabase DB] in
/-- The updates of the trees, when all are made. -/
theorem allUpdates_ok {l : List (ByteVec × MerkleTree)}
    (h : ∀ e ∈ l, (MerkleTree.getUpdates H : MerkleTree.M E Updates) e.2 = .ok (e.2.updatesOf E H) (e.2.afterUpdates E H))
    (trees : HashMap ByteVec MerkleTree) :
    allUpdates E H l trees = (l.foldl (fun m e => m.insert e.1 (e.2.afterUpdates E H)) trees,
      (l.map fun e => e.2.updatesOf E H).map .ok) := by
  induction l generalizing trees with
  | nil => rfl
  | cons e l ih =>
    obtain ⟨X, tree⟩ := e
    rw [allUpdates, h _ List.mem_cons_self]
    simp only [ih fun e he => h e (List.mem_cons_of_mem _ he)]
    rfl

omit [FeltCodec] [BonsaiDatabase DB] [InfallibleDatabase DB] in
theorem firstPanic_ok (us : List Updates) : firstPanic (E := E) (us.map .ok) = none := by
  induction us with
  | nil => rfl
  | cons u us ih => exact ih

omit [FeltCodec] [InfallibleDatabase DB] in
theorem onDb_ok {α : Type} {m : EStateM (Failure (BonsaiDatabase.DatabaseError DB)) (KeyValueDB DB ID) α} {a : α}
    {kv : KeyValueDB DB ID} (h : m st.db = .ok a kv) : onDb m st = .ok a { st with db := kv } := by
  rw [onDb, h]

/-- The updates of every tree are written. -/
theorem commit_run (h : ∀ X tree, st.trees.lookup X = some tree →
      (MerkleTree.getUpdates H : MerkleTree.M (BonsaiDatabase.DatabaseError DB) Updates) tree =
        .ok (tree.updatesOf (BonsaiDatabase.DatabaseError DB) H) (tree.afterUpdates (BonsaiDatabase.DatabaseError DB) H))
    (ords : HashOrders) :
    ∃ st', MerkleTrees.commit H ords st = .ok () st' ∧ st'.maxHeight = st.maxHeight ∧ st.db.Kept st'.db ∧
      (∀ X, st'.trees.lookup X = (st.trees.lookup X).map (·.afterUpdates (BonsaiDatabase.DatabaseError DB) H)) ∧
      st'.db.columns = Updates.applyAll
        ((st.trees.iter (ords 0)).map fun e => e.2.updatesOf (BonsaiDatabase.DatabaseError DB) H) st.db.columns ∧
      ∃ kv batch, applyAll ords 1 (((st.trees.iter (ords 0)).map fun e =>
          e.2.updatesOf (BonsaiDatabase.DatabaseError DB) H).map .ok) (st.db, BonsaiDatabase.createBatch st.db.db) =
          .ok () (kv, batch) ∧ st'.db.currentChanges = kv.currentChanges := by
  have hmem : ∀ e ∈ st.trees.iter (ords 0), st.trees.lookup e.1 = some e.2 := fun e he =>
    (HashMap.mem_iter st.trees (ords 0)).mp he
  have hall := allUpdates_ok (fun e he => h e.1 e.2 (hmem e he)) st.trees
  obtain ⟨kv₁, batch₁, h₁, hk₁, hp₁⟩ := applyAll_ok ords 1 st.db (BonsaiDatabase.createBatch st.db.db)
    ((st.trees.iter (ords 0)).map fun e => e.2.updatesOf (BonsaiDatabase.DatabaseError DB) H)
  obtain ⟨db₂, h₂, hp₂⟩ := kv₁.writeBatch_ok batch₁
  let trees' := (st.trees.iter (ords 0)).foldl
    (fun m e => m.insert e.1 (e.2.afterUpdates (BonsaiDatabase.DatabaseError DB) H)) st.trees
  refine ⟨⟨{ kv₁ with db := db₂ }, trees', st.maxHeight⟩, ?_, rfl, hk₁, fun X => ?_, ?_, kv₁, batch₁, h₁, rfl⟩
  · rw [MerkleTrees.commit, hall]
    simp only [firstPanic_ok, bind_ok h₁, h₂]
    rfl
  · have hl := congrFun (Assoc.lookup_foldl_insert_pairs id (·.afterUpdates (BonsaiDatabase.DatabaseError DB) H)
      (st.trees.iter (ords 0)) st.trees) X
    refine hl.trans ?_
    cases hX : st.trees.lookup X with
    | some tree =>
      exact Assoc.foldl_update_of_mem (f := id) Function.injective_id
        (g := fun tree => some (tree.afterUpdates (BonsaiDatabase.DatabaseError DB) H)) (HashMap.nodup_iter st.trees (ords 0))
        ((HashMap.mem_iter st.trees (ords 0)).mpr hX) _
    | none =>
      have hne : ∀ e ∈ st.trees.iter (ords 0), id e.1 ≠ X := fun e he heq => by
        rw [← heq, id, hmem e he] at hX
        cases hX
      exact (Assoc.foldl_update_of_not_mem
        (g := fun tree => some (tree.afterUpdates (BonsaiDatabase.DatabaseError DB) H)) hne fun k => st.trees.lookup k).trans hX
  · show InfallibleDatabase.columns db₂ = _
    rw [hp₂, hp₁]
    exact congrArg _ (InfallibleDatabase.pending_createBatch st.db.db)

end MerkleTrees

omit [BonsaiDatabase DB] [InfallibleDatabase DB] in
/-- The updates of a tree that was just made are none. -/
theorem UpdatesOf.new {cols : Columns} {m : UInt8} {T : Option (Trie Felt)} {s : Leaves}
    (h : LeafRep H n o cols (.new X m) T s) : UpdatesOf H cols (.new X m) T ∅ := by
  refine ⟨fun b => .inl rfl, fun b => rfl, fun b _ => rfl, fun t ht => ?_⟩
  subst ht
  cases h.rep.rooted with
  | unloaded hF =>
    obtain ⟨-, hs, -⟩ := hF.rep.hash_inv
    exact hs.congr fun q _ => rfl

namespace StorageRep

/-- What the updates of the trees are. -/
theorem updates_ok (h : StorageRep H n o S st L) {Y : ByteVec} {tree : MerkleTree} (hY : st.trees.lookup Y = some tree) :
    Y ∈ S ∧ tree.identifier = Y ∧ ∃ T, LeafRep H n o st.db.columns tree T (L Y) := by
  obtain ⟨hS, hid⟩ := h.trees Y tree hY
  obtain ⟨T, hT⟩ := h.leaves Y hS
  rw [MerkleTrees.treeOf, hY] at hT
  exact ⟨hS, hid, T, hT⟩

/-- The updates of one tree do not write the keys of another, and do not touch its nodes and leaves. -/
theorem updates_apart (h : StorageRep H n o S st L) (hS : Apart n S) (hI : NoIntrusion n o S st) {Y : ByteVec}
    {tree : MerkleTree} (hY : st.trees.lookup Y = some tree) (hX : X ∈ S) (hne : X ≠ Y) :
    (∀ t p, ofMap n (L X).get = some t → t.HasNode p →
      (tree.updatesOf E H).lookup (.trie (X ++ Path.encode p)) = none) ∧
    (∀ (p : Path) bytes, p.length ≤ n →
      (tree.updatesOf E H).lookup (.trie (X ++ p.encode)) ≠ some (.insert bytes)) ∧
    ∀ k : Path, k.length = n → (tree.updatesOf E H).lookup (.flat (X ++ bitsliceToBytes ⟨o, k⟩)) = none := by
  obtain ⟨hYS, hid, T, hT⟩ := h.updates_ok hY
  obtain ⟨-, hu, -⟩ := updatesOf_ok E hT.rep
  refine ⟨fun t p ht hp => ?_, fun p bytes hp hl => ?_, fun k hk => ?_⟩
  · rcases hu.trie (X ++ Path.encode p) with hl | ⟨t', r, bytes, ht', hr, hb, -⟩
    · rw [hl, hI Y tree hY X hX hne t p (by rw [h.ofMap_contentOf hX, ht]) hp]; rfl
    · rw [hid] at hb
      have hw := (ofMap_spec n (L X).get)
      rw [ht] at hw
      exact (hS X hX Y hYS hne p r (hw.1.length_lt_of_hasNode hp).le
        ((hT.rep.wf t' ht').length_lt_of_hasNode hr) hb).elim
  · rcases hu.trie (X ++ p.encode) with hl' | ⟨t', r, -, ht', hr, hb, -⟩
    · rw [hl'] at hl
      cases hd : tree.deathRow.lookup (.trie (X ++ p.encode)) <;> rw [hd] at hl <;> cases hl
    · rw [hid] at hb
      exact hS X hX Y hYS hne p r hp ((hT.rep.wf t' ht').length_lt_of_hasNode hr) hb
  · by_cases hb : ∃ b, X ++ bitsliceToBytes ⟨o, k⟩ = tree.identifier ++ b
    · obtain ⟨b, hb⟩ := hb
      rw [hb, hu.flat]
      cases hc : tree.cacheLeafModified.lookup b with
      | none => rfl
      | some v =>
        obtain ⟨k', hk', rfl⟩ := hT.known b (by rw [hc]; rfl)
        have := List.append_inj' hb (BitSlice.length_bytes rfl (hk.trans hk'.symm))
        exact (hne (this.1.trans hid)).elim
    · exact hu.flat_other _ fun b he => hb ⟨b, he⟩

/-- The content after the updates of a tree and of others, as the tree sees it. -/
theorem applied_around (h : StorageRep H n o S st L) (hS : Apart n S) (hI : NoIntrusion n o S st) (hX : X ∈ S)
    {T : Option (Trie Felt)} (hT : LeafRep H n o st.db.columns (st.treeOf X) T (L X)) (us₁ us₂ : List Updates)
    (u : Updates) (hother : ∀ v ∈ us₁ ++ us₂, ∃ Y tree, st.trees.lookup Y = some tree ∧ X ≠ Y ∧ v = tree.updatesOf E H) :
    Applied n st.db.columns (Updates.applyAll (us₁ ++ u :: us₂) st.db.columns) (st.treeOf X) T u ∧
      ∀ k : Path, k.length = n →
        Updates.applyAll (us₁ ++ u :: us₂) st.db.columns (.flat ((st.treeOf X).identifier ++ bitsliceToBytes ⟨o, k⟩)) =
          u.apply st.db.columns (.flat ((st.treeOf X).identifier ++ bitsliceToBytes ⟨o, k⟩)) := by
  rw [h.identifier_treeOf X]
  refine ⟨⟨fun t r ht hr => ?_, fun p hp hs => ?_⟩, fun k hk => ?_⟩
  · obtain ⟨t', ht', hsh⟩ := hT.shape ht
    rw [h.identifier_treeOf X]
    refine Updates.applyAll_around_of_none (.trie (X ++ Path.encode r)) (fun v hv => ?_) _
    obtain ⟨Y, tree, hl, hne, rfl⟩ := hother v hv
    exact (h.updates_apart hS hI hl hX hne).1 t' r ht' ((hsh.hasNode r).mpr hr)
  · rw [h.identifier_treeOf X] at hs ⊢
    refine Updates.applyAll_around_of_isSome (.trie (X ++ p.encode)) (fun v hv bytes => ?_) hs
    obtain ⟨Y, tree, hl, hne, rfl⟩ := hother v hv
    exact (h.updates_apart hS hI hl hX hne).2.1 p bytes hp
  · refine Updates.applyAll_around_of_none (.flat (X ++ bitsliceToBytes ⟨o, k⟩)) (fun v hv => ?_) _
    obtain ⟨Y, tree, hl, hne, rfl⟩ := hother v hv
    exact (h.updates_apart hS hI hl hX hne).2.2 k hk

/-- A tree, once the updates of all are made. -/
theorem leaves_commit (h : StorageRep H n o S st L) (hS : Apart n S) (hI : NoIntrusion n o S st) (ord : HashOrder)
    (hX : X ∈ S) :
    ∃ T, LeafRep H n o (Updates.applyAll ((st.trees.iter ord).map fun e => e.2.updatesOf E H) st.db.columns)
      (((st.trees.lookup X).map (·.afterUpdates E H)).getD (.new X st.maxHeight)) T (L X).commit := by
  obtain ⟨T, hT⟩ := h.leaves X hX
  have hmem : ∀ e ∈ st.trees.iter ord, st.trees.lookup e.1 = some e.2 := fun e he =>
    (HashMap.mem_iter st.trees ord).mp he
  refine ⟨T, ?_⟩
  cases hl : st.trees.lookup X with
  | none =>
    have htree : st.treeOf X = .new X st.maxHeight := by rw [MerkleTrees.treeOf, hl]; rfl
    obtain ⟨ha, hf⟩ := h.applied_around (E := E) hS hI hX hT ((st.trees.iter ord).map fun e => e.2.updatesOf E H) [] ∅
      fun v hv => by
        rw [List.append_nil] at hv
        obtain ⟨e, he, rfl⟩ := List.mem_map.mp hv
        refine ⟨e.1, e.2, hmem e he, fun hXe => ?_, rfl⟩
        rw [hXe, hmem e he] at hl
        cases hl
    have hend : Updates.applyAll (((st.trees.iter ord).map fun e => e.2.updatesOf E H) ++ [∅]) st.db.columns =
        Updates.applyAll ((st.trees.iter ord).map fun e => e.2.updatesOf E H) st.db.columns := by
      rw [Updates.applyAll, List.foldl_append]
      exact Updates.apply_empty _
    rw [hend, htree] at ha hf
    rw [htree] at hT
    exact hT.committed (.new hT) (fun _ => rfl) ha hf
  | some tree =>
    have htree : st.treeOf X = tree := by rw [MerkleTrees.treeOf, hl]; rfl
    obtain ⟨l₁, l₂, hiter, hne⟩ := HashMap.iter_around st.trees ord hl
    obtain ⟨ha, hf⟩ := h.applied_around (E := E) hS hI hX hT (l₁.map fun e => e.2.updatesOf E H)
      (l₂.map fun e => e.2.updatesOf E H) (tree.updatesOf E H) fun v hv => by
        rw [← List.map_append] at hv
        obtain ⟨e, he, rfl⟩ := List.mem_map.mp hv
        refine ⟨e.1, e.2, hmem e ?_, (hne e he).symm, rfl⟩
        rw [hiter]
        exact (List.mem_append.mp he).elim (List.mem_append_left _) fun h =>
          List.mem_append_right _ (List.mem_cons_of_mem _ h)
    rw [htree] at ha hf hT
    obtain ⟨-, hu, nodes, hafter, hnone⟩ := updatesOf_ok E hT.rep
    rw [hiter, List.map_append, List.map_cons, Option.map_some, Option.getD_some, hafter]
    exact hT.committed hu hnone ha hf

/-- The updates of every tree are written, and leave the trees committed. -/
theorem commitTrees_ok (h : StorageRep H n o S st L) (hS : Apart n S) (hI : NoIntrusion n o S st) (ords : HashOrders) :
    ∃ st', MerkleTrees.commit H ords st = .ok () st' ∧ StorageRep H n o S st' (fun X => (L X).commit) ∧
      st'.maxHeight = st.maxHeight ∧ st.db.Kept st'.db ∧ ∀ X, (st'.treeOf X).Idle := by
  obtain ⟨st', hrun, hm, hk, htrees, hcols, -⟩ := MerkleTrees.commit_run (H := H) (fun X tree hl => by
    obtain ⟨-, -, T, hT⟩ := h.updates_ok hl
    exact (updatesOf_ok _ hT.rep).1) ords
  have htree (X : ByteVec) : st'.treeOf X = ((st.trees.lookup X).map
      (·.afterUpdates (BonsaiDatabase.DatabaseError DB) H)).getD (.new X st.maxHeight) := by
    rw [MerkleTrees.treeOf, htrees, hm]
  refine ⟨st', hrun, ⟨fun X tree hl => ?_, fun X hX => ?_⟩, hm, hk, fun X => ?_⟩
  · rw [htrees] at hl
    obtain ⟨tree₀, hl₀, rfl⟩ := Option.map_eq_some_iff.mp hl
    obtain ⟨hXS, hid, T, hT⟩ := h.updates_ok hl₀
    obtain ⟨-, -, nodes, hafter, -⟩ := updatesOf_ok (BonsaiDatabase.DatabaseError DB) hT.rep
    exact ⟨hXS, by rw [hafter]; exact hid⟩
  · rw [hcols, htree]
    exact h.leaves_commit hS hI (ords 0) hX
  · rw [htree]
    cases hl : st.trees.lookup X with
    | none => exact MerkleTree.idle_new X _
    | some tree =>
      obtain ⟨-, -, T, hT⟩ := h.updates_ok hl
      obtain ⟨-, -, nodes, hafter, hnone⟩ := updatesOf_ok (BonsaiDatabase.DatabaseError DB) hT.rep
      rw [Option.map_some, Option.getD_some, hafter]
      exact tree.idle_drained hnone

/-- Only the nodes and the leaves of the database matter. -/
theorem congr_db (h : StorageRep H n o S st L) (kv : KeyValueDB DB ID)
    (hc : KeyValueDB.SameTries st.db.columns kv.columns) : StorageRep H n o S { st with db := kv } L := by
  refine ⟨h.trees, fun X hX => ?_⟩
  obtain ⟨T, hT⟩ := h.leaves X hX
  exact ⟨T, hT.congr hc⟩

end StorageRep

omit [BonsaiDatabase DB] [InfallibleDatabase DB] in
/-- The root of the leaves of a tree is the hash of its trie. -/
theorem LeafRep.merkleRoot_eq {cols : Columns} {tree : MerkleTree} {T : Option (Trie Felt)} {s : Leaves}
    (h : LeafRep H n o cols tree T s) : merkleRoot H n s.trie = (T.map (merkleHash H)).getD 0 := by
  rw [merkleRoot]
  cases T with
  | none => exact mapDigest_of_not_populated _ _ _ _ fun k hk => (h.trie k hk).symm
  | some t => exact (h.rep.wf t rfl).mapDigest_eq _ _ _ _ fun k hk => (h.trie k hk).symm

/-- The root hash of a tree that is not loaded. -/
theorem TreeRep.rootHash_ok {memo : Memo} {db : KeyValueDB DB ID} {tree : MerkleTree} {T : Option (Trie Felt)}
    (h : TreeRep H memo n db.columns tree T) (hn : 0 < n) (hroot : tree.rootNode = none) :
    MerkleTree.rootHash db tree = .ok ((T.map (merkleHash H)).getD 0) := by
  rw [MerkleTree.rootHash]
  have hR := h.rooted
  simp only [hroot] at hR ⊢
  cases hR with
  | noTrie =>
    have hd : tree.disk db.columns [] = none := by
      rw [← Option.not_isSome_iff_eq_none]
      intro hs
      obtain ⟨t, ht, -⟩ := h.only [] (Nat.zero_le _) hs
      cases ht
    rw [MerkleTree.getTrieBranch_none hd]
    rfl
  | @unloaded t hF =>
    have hw := h.wf t rfl
    obtain ⟨-, hs, -⟩ := hF.rep.hash_inv
    obtain ⟨bytes, node, hd, hdec, hnode⟩ := hs.read (hw.not_isLeaf hn) hw (by simpa using h.le_255)
    rw [MerkleTree.getTrieBranch_some (p := []) hd hdec]
    cases t with
    | leaf v => cases hnode
    | binary l r => cases hnode; rfl
    | edge q c => cases hnode; rfl

theorem LeafRep.rootHash_ok {db : KeyValueDB DB ID} {tree : MerkleTree} {T : Option (Trie Felt)} {s : Leaves}
    (h : LeafRep H n o db.columns tree T s) (hn : 0 < n) (hroot : tree.rootNode = none) :
    MerkleTree.rootHash db tree = .ok (merkleRoot H n s.trie) := by
  rw [h.rep.rootHash_ok hn hroot, h.merkleRoot_eq]

section

variable {T : Type} [Id ID] [BonsaiPersistentDatabase DB ID T] [InfallibleSnapshots DB ID T]

omit [FeltCodec] in
/-- A snapshot is taken, or not. -/
theorem KeyValueDB.createSnapshot_ok (kv : KeyValueDB DB ID) (h : kv.config.snapshotInterval ≠ 0) (id : ID) :
    ∃ db', KeyValueDB.createSnapshot id kv = .ok () { kv with db := db' } ∧
      InfallibleDatabase.columns db' = kv.columns := by
  rw [KeyValueDB.createSnapshot, if_neg h]
  split
  · exact ⟨_, rfl, InfallibleSnapshots.columns_snapshot kv.db id⟩
  · exact ⟨kv.db, rfl, rfl⟩

/-- A commit leaves every tree committed, with the root hash of its trie. -/
theorem StorageRep.commit_ok (h : StorageRep H n o S st L) (hn : 0 < n) (hS : Apart n S) (hI : NoIntrusion n o S st)
    (hint : st.db.config.snapshotInterval ≠ 0) (ords : HashOrders) (logOrd : HashOrder) (id : ID) :
    ∃ st', BonsaiStorage.commit H ords logOrd id st = .ok () st' ∧ StorageRep H n o S st' (fun X => (L X).commit) ∧
      st'.maxHeight = st.maxHeight ∧ st'.db.config = st.db.config ∧ (∀ X, (st'.treeOf X).Idle) ∧
      ∀ X ∈ S, MerkleTrees.rootHash st' X = .ok (merkleRoot H n (L X).trie) := by
  obtain ⟨st₁, h₁, hR₁, hm₁, hk₁, hidle⟩ := h.commitTrees_ok hS hI ords
  obtain ⟨kv₂, h₂, hk₂, -, hcols⟩ := st₁.db.commit_ok logOrd id
  have hc₂ : KeyValueDB.SameTries st₁.db.columns kv₂.columns := hcols ▸ st₁.db.logged_sameTries logOrd id
  have hkept := hk₁.trans hk₂
  obtain ⟨db₃, h₃, hc₃⟩ := kv₂.createSnapshot_ok (by rw [hkept.1]; exact hint) id
  have hR := hR₁.congr_db { kv₂ with db := db₃ } (hc₂.trans fun key => congrFun hc₃ _)
  refine ⟨{ st₁ with db := { kv₂ with db := db₃ } }, ?_, hR, hm₁, hkept.1, hidle, fun X hX => ?_⟩
  · exact (bind_ok h₁ _).trans ((bind_ok (MerkleTrees.onDb_ok h₂) _).trans (MerkleTrees.onDb_ok h₃))
  · obtain ⟨T, hT⟩ := hR.leaves X hX
    exact hT.rootHash_ok hn (hidle X).root

end

end

end Bonsai
