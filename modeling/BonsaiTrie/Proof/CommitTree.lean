import BonsaiTrie.Proof.Batch
import BonsaiTrie.Proof.InMemory
import BonsaiTrie.Proof.Refine

/-!
# The updates of one tree

The in-memory part of a trie (`Rep.inMemory`) is what a commit writes, each node
with the hash of its trie, so what was written and what was in the database
before make up the trie (`PartOf.stored`). With the updates made, the trie is
in the database and nothing else is (`getUpdates_ok`).
-/

namespace Bonsai

open Patricia Run

/-- The database nodes of an identifier, with the updates made. -/
def Updates.disk (u : Updates) (cols : Columns) (identifier : ByteVec) : Disk := fun p =>
  u.apply cols (.trie (identifier ++ p.encode))

theorem Updates.disk_eq (u : Updates) (cols : Columns) (identifier : ByteVec) (p : Path) :
    u.disk cols identifier p = ((u.lookup (TrieKey.new identifier .trie p.encode)).map InsertOrRemove.toOption).getD
      (cols (.trie (identifier ++ p.encode))) := rfl

section

variable [FeltCodec] {H : StarkHash} {memo : Memo} {m : SlotMap Node} {disk : Disk} {h : NodeHandle} {p : Path}
  {t : Trie Felt} {ks : List NodeKey} {n : Nat}

/-- The in-memory part of a trie: what is written of it, over the rest, is the trie. -/
structure PartOf (H : StarkHash) (m : SlotMap Node) (disk : Disk) (h : NodeHandle) (p : Path) (t : Trie Felt)
    (ks : List NodeKey) (i : InMemory) : Prop where
  handle : i.handle = h
  keys : i.keys = ks
  held : i.Held m
  digest : i.digest H = merkleHash H t
  shortEdges : i.shortEdges = true
  proper : i.Proper p
  written : ∀ e ∈ i.written H p, ∃ r, t.HasNode r ∧ e.1 = p ++ r
  stored : ∀ disk' : Disk, (∀ e ∈ i.written H p, disk' e.1 = e.2.encode) →
    (∀ r, t.HasNode r → p ++ r ∉ (i.written H p).map Prod.fst → disk' (p ++ r) = disk (p ++ r)) → Stored H disk' p t

theorem PartOf.edge {k : NodeKey} {memo : Option Felt} {q : Path} {c : Trie Felt} {i : InMemory}
    (hk : m.slots k = some (.edge ⟨memo, p.length, q, h⟩)) (ht : (Trie.edge q c).WF n) (hn : p.length + n ≤ 255)
    (hi : PartOf H m disk h (p ++ q) c ks i) :
    PartOf H m disk (.inMemory k) p (.edge q c) (k :: ks) (.edge k memo p.length q i) := by
  obtain ⟨j, rfl, hq, hc, -⟩ := ht.edge_inv
  refine ⟨rfl, congrArg _ hi.keys, ⟨by rw [hi.handle]; exact hk, hi.held⟩, ?_, ?_, ⟨by omega, hq, hi.proper⟩, ?_, ?_⟩
  · rw [InMemory.digest, hi.digest]
    rfl
  · simp only [InMemory.shortEdges, hi.shortEdges, Bool.and_true, decide_eq_true_eq]
    omega
  · intro e he
    rcases List.mem_append.mp he with he | he
    · obtain ⟨r, hr, hpath⟩ := hi.written e he
      exact ⟨q ++ r, (Frame.edge q).hasNode_fill hr, by rw [hpath, List.append_assoc]⟩
    · rw [List.mem_singleton.mp he]
      exact ⟨[], Trie.hasNode_nil.mpr id, (List.append_nil p).symm⟩
  · intro disk' hwritten hrest
    refine ⟨?_, hi.stored disk' (fun e he => hwritten e (List.mem_append_left _ he)) fun r hr hnew => ?_⟩
    · rw [hwritten _ (List.mem_append_right _ List.mem_cons_self), InMemory.digest, hi.digest]
      rfl
    · have hne : p ++ (q ++ r) ≠ p := by simp [hq]
      rw [List.append_assoc] at hnew ⊢
      refine hrest (q ++ r) ((Frame.edge q).hasNode_fill hr) fun hmem => ?_
      rw [InMemory.written, List.map_append, List.mem_append] at hmem
      rcases hmem with hmem | hmem
      · exact hnew hmem
      · exact hne (List.mem_singleton.mp hmem)

omit [FeltCodec] in
/-- What is written on one side is not on the other. -/
theorem not_mem_written_other (i : InMemory) (p : Path) (b : Bool) (q : Path) :
    p ++ [b] ++ q ∉ (i.written H (p ++ [!b])).map Prod.fst := by
  intro hmem
  obtain ⟨e, he, hpath⟩ := List.mem_map.mp hmem
  have hpre := InMemory.prefix_of_written H he
  rw [hpath, List.append_assoc, List.prefix_append_right_inj] at hpre
  cases b <;> simp at hpre

theorem PartOf.binary {k : NodeKey} {memo : Option Felt} {lh rh : NodeHandle} {l r : Trie Felt} {ks' : List NodeKey}
    {i i' : InMemory} (hk : m.slots k = some (.binary ⟨memo, p.length, lh, rh⟩)) (hn : p.length ≤ 255)
    (hl : PartOf H m disk lh (p ++ [false]) l ks i) (hr : PartOf H m disk rh (p ++ [true]) r ks' i') :
    PartOf H m disk (.inMemory k) p (.binary l r) (k :: (ks ++ ks')) (.binary k memo p.length i i') := by
  refine ⟨rfl, ?_, ⟨by rw [hl.handle, hr.handle]; exact hk, hl.held, hr.held⟩, ?_, ?_, ⟨hn, hl.proper, hr.proper⟩, ?_, ?_⟩
  · rw [InMemory.keys, hl.keys, hr.keys]
  · rw [InMemory.digest, hl.digest, hr.digest]
    rfl
  · rw [InMemory.shortEdges, hl.shortEdges, hr.shortEdges]
    rfl
  · intro e he
    rcases List.mem_append.mp he with he | he
    · rcases List.mem_append.mp he with he | he
      · obtain ⟨q, hq, hpath⟩ := hl.written e he
        exact ⟨false :: q, (Frame.left r).hasNode_fill hq, by rw [hpath, List.append_assoc]; rfl⟩
      · obtain ⟨q, hq, hpath⟩ := hr.written e he
        exact ⟨true :: q, (Frame.right l).hasNode_fill hq, by rw [hpath, List.append_assoc]; rfl⟩
    · rw [List.mem_singleton.mp he]
      exact ⟨[], Trie.hasNode_nil.mpr id, (List.append_nil p).symm⟩
  · intro disk' hwritten hrest
    have hrest' (b : Bool) (q : Path) (hq : (Trie.binary l r).HasNode (b :: q))
        (hnew : p ++ [b] ++ q ∉ ((if b then i' else i).written H (p ++ [b])).map Prod.fst) :
        disk' (p ++ [b] ++ q) = disk (p ++ [b] ++ q) := by
      have happ : p ++ [b] ++ q = p ++ b :: q := List.append_cons p b q |>.symm
      have hother := not_mem_written_other (H := H) (if b then i else i') p b q
      rw [happ] at hnew hother ⊢
      refine hrest (b :: q) hq fun hmem => ?_
      rw [InMemory.written, List.map_append, List.map_append, List.mem_append, List.mem_append] at hmem
      rcases hmem with (hmem | hmem) | hmem
      · cases b with
        | false => exact hnew hmem
        | true => exact hother hmem
      · cases b with
        | false => exact hother hmem
        | true => exact hnew hmem
      · simp at hmem
    refine ⟨?_, hl.stored disk' ?_ ?_, hr.stored disk' ?_ ?_⟩
    · rw [hwritten _ (List.mem_append_right _ List.mem_cons_self), InMemory.digest, hl.digest, hr.digest]
      rfl
    · exact fun e he => hwritten e (List.mem_append_left _ (List.mem_append_left _ he))
    · exact fun q hq => hrest' false q ((Frame.left r).hasNode_fill hq)
    · exact fun e he => hwritten e (List.mem_append_left _ (List.mem_append_right _ he))
    · exact fun q hq => hrest' true q ((Frame.right l).hasNode_fill hq)

/-- A handle that stands for a trie leads to its in-memory part. -/
theorem Rep.inMemory (hr : Rep H memo m.slots disk h p t ks) (ht : t.WF n) (hn : p.length + n ≤ 255) :
    ∃ i, PartOf H m disk h p t ks i := by
  induction hr generalizing n with
  | stored hs =>
    exact ⟨.hash _, rfl, rfl, trivial, rfl, rfl, trivial, fun e he => absurd he List.not_mem_nil,
      fun disk' _ hrest => hs.congr fun r hr => hrest r hr List.not_mem_nil⟩
  | edge hk _ hc ih =>
    obtain ⟨j, rfl, -, hwf, -⟩ := ht.edge_inv
    obtain ⟨i, hi⟩ := ih hwf (by rw [List.length_append]; omega)
    exact ⟨_, .edge hk ht hn hi⟩
  | binary hk _ _ _ ihl ihr =>
    obtain ⟨j, rfl, hwl, hwr⟩ := ht.binary_inv
    obtain ⟨i, hi⟩ := ihl hwl (by simp only [List.length_append, List.length_singleton]; omega)
    obtain ⟨i', hi'⟩ := ihr hwr (by simp only [List.length_append, List.length_singleton]; omega)
    exact ⟨_, .binary hk (by omega) hi hi'⟩

end

/-! ## The updates -/

/-- The bytes a change of a leaf is written as. -/
def leafChange [FeltCodec] : InsertOrRemove Felt → InsertOrRemove ByteVec
  | .insert value => .insert (FeltCodec.encode value)
  | .remove => .remove

/-- The updates of a tree that stands for a trie: the keys of the death row are removed, but for those of
nodes of the trie, some of which are written; with the leaves of the cache. -/
structure UpdatesOf [FeltCodec] (H : StarkHash) (cols : Columns) (tree : MerkleTree) (T : Option (Trie Felt))
    (u : Updates) : Prop where
  trie : ∀ b, u.lookup (.trie b) = (tree.deathRow.lookup (.trie b)).map (fun _ => .remove) ∨
    ∃ t r bytes, T = some t ∧ t.HasNode r ∧ b = tree.identifier ++ Path.encode r ∧
      u.lookup (.trie b) = some (.insert bytes)
  flat : ∀ b, u.lookup (.flat (tree.identifier ++ b)) = (tree.cacheLeafModified.lookup b).map leafChange
  flat_other : ∀ b, (∀ b', b ≠ tree.identifier ++ b') → u.lookup (.flat b) = none
  stored : ∀ t, T = some t → Stored H (u.disk cols tree.identifier) [] t

section

variable [FeltCodec] {E : Type} {H : StarkHash} {memo : Memo} {n : Nat} {cols : Columns} {tree : MerkleTree}
  {T : Option (Trie Felt)} {t : Trie Felt}

/-- The removal of the keys of the death row. -/
def condemned (deathRow : HashSet TrieKey) : Updates := deathRow.keys.foldl (fun u key => u.insert key .remove) ∅

omit [FeltCodec] in
theorem lookup_condemned (deathRow : HashSet TrieKey) (key : TrieKey) :
    (condemned deathRow).lookup key = (deathRow.lookup key).map fun _ => .remove := by
  have := Assoc.lookup_foldl_insert (f := id) Function.injective_id (fun _ : Unit => (.remove : InsertOrRemove ByteVec))
    deathRow.nodupKeys ∅ key
  rw [condemned, AList.keys, List.keys, List.foldl_map]
  refine this.trans ?_
  rw [AList.lookup_empty, Option.or_none]
  rfl

omit [FeltCodec] in
/-- Without the keys of the death row, the database is as the tree sees it. -/
theorem disk_condemned (tree : MerkleTree) (cols : Columns) (p : Path) :
    (condemned tree.deathRow).disk cols tree.identifier p = tree.disk cols p := by
  rw [Updates.disk_eq, lookup_condemned, MerkleTree.disk]
  rcases tree.deathRow.lookup (TrieKey.new tree.identifier .trie p.encode) with _ | ⟨⟩ <;> rfl

variable (tree) in
/-- The nodes of a loaded tree go into the updates. -/
theorem commitRoot_ok {k : NodeKey} {ks : List NodeKey} {u : Updates} {disk : Disk}
    (hF : Focus H memo tree.nodes.slots disk (.inMemory k) [] (.inMemory k) t [] ks)
    (ht : t.WF n) (hn : n ≤ 255) (hroot : tree.rootNode = some (.loaded k))
    (hu : ∀ q, t.HasNode q → u.disk cols tree.identifier q = disk q) :
    ∃ u' nodes, (MerkleTree.commitRoot H u : MerkleTree.M E Updates) tree = .ok u' { tree with nodes := nodes } ∧
      (∀ j, nodes.slots j = none) ∧
      (∀ key, u'.lookup key = u.lookup key ∨ ∃ r bytes, t.HasNode r ∧
        key = TrieKey.new tree.identifier .trie (Path.encode r) ∧ u'.lookup key = some (.insert bytes)) ∧
      Stored H (u'.disk cols tree.identifier) [] t := by
  have hrep : Rep H memo tree.nodes.slots disk (.inMemory k) [] t ks := hF.rep
  obtain ⟨i, hi⟩ := hrep.inMemory ht (by simpa using hn)
  have hof : i.Of tree k := ⟨hroot, hi.handle, hi.held, by rw [hi.keys]; simpa using hF.nodup⟩
  obtain ⟨nodes, hrun, hnodes⟩ := hof.commitRoot_eq (E := E) (H := H) hi.shortEdges u
  refine ⟨_, nodes, hrun, fun j => ?_, fun key => ?_, ?_⟩
  · rw [hnodes j, hi.keys]
    split
    · rfl
    · rename_i hj
      rw [← Option.not_isSome_iff_eq_none, hF.total]
      simpa using hj
  · by_cases hkey : ∃ e ∈ i.written H [], key = TrieKey.new tree.identifier .trie e.1.encode
    · obtain ⟨e, he, rfl⟩ := hkey
      obtain ⟨r, hr, hpath⟩ := hi.written e he
      have hlook : (u.storeAll tree.identifier (i.written H [])).lookup (TrieKey.new tree.identifier .trie e.1.encode) =
          some (.insert (e.2.encode.getD [])) :=
        Updates.lookup_storeAll_of_mem hi.proper.nodup (fun e he => hi.proper.length_le he) he
      exact .inr ⟨r, _, hr, by rw [hpath]; rfl, hlook⟩
    · exact .inl (Updates.lookup_storeAll_of_not_mem fun e he heq => hkey ⟨e, he, heq⟩)
  · refine hi.stored _ (fun e he => ?_) fun r hr hnew => ?_
    · obtain ⟨bytes, hbytes⟩ := InMemory.encode_of_written H he
      rw [Updates.disk_eq, Updates.lookup_storeAll_of_mem hi.proper.nodup (fun e he => hi.proper.length_le he) he,
        hbytes]
      rfl
    · have hr255 := ht.length_lt_of_hasNode hr
      rw [List.nil_append, ← hu r hr, Updates.disk_eq, Updates.disk_eq, Updates.lookup_storeAll_of_not_mem]
      intro e he heq
      simp only [TrieKey.new, TrieKey.trie.injEq, List.append_cancel_left_eq] at heq
      have hsame : r = e.1 := Path.encode_inj (by omega) (hi.proper.length_le he) heq
      exact hnew (List.mem_map.mpr ⟨e, he, hsame.symm⟩)

/-- The nodes of a tree go into the updates, after the keys of its death row. -/
theorem commitNodes_ok (hR : TreeRep H memo n cols tree T) :
    ∃ u nodes, (MerkleTree.commitRoot H (condemned tree.deathRow) : MerkleTree.M E Updates)
        { tree with deathRow := ∅ } = .ok u { tree with deathRow := ∅, nodes := nodes } ∧
      (∀ j, nodes.slots j = none) ∧
      (∀ key, u.lookup key = (condemned tree.deathRow).lookup key ∨ ∃ t r bytes, T = some t ∧ t.HasNode r ∧
        key = TrieKey.new tree.identifier .trie (Path.encode r) ∧ u.lookup key = some (.insert bytes)) ∧
      ∀ t, T = some t → Stored H (u.disk cols tree.identifier) [] t := by
  have hn : n ≤ 255 := by have := UInt8.toNat_lt tree.maxHeight; have := hR.height; omega
  have hwf := hR.wf
  have hR := hR.rooted
  rcases tree with ⟨rootNode, nodes, identifier, deathRow, cache, maxHeight⟩
  cases hR with
  | noTrie hnone =>
    exact ⟨_, nodes, rfl, hnone, fun _ => .inl rfl, fun t ht => by cases ht⟩
  | empty hnone =>
    exact ⟨_, nodes, rfl, hnone, fun _ => .inl rfl, fun t ht => by cases ht⟩
  | unloaded hF =>
    obtain ⟨-, hs, -⟩ := hF.rep.hash_inv
    refine ⟨_, nodes, rfl, fun j => ?_, fun _ => .inl rfl, ?_⟩
    · rw [← Option.not_isSome_iff_eq_none, hF.total]; simp
    · rintro _ ⟨⟩
      exact hs.congr fun q _ => disk_condemned _ cols _
  | loaded hF =>
    obtain ⟨u, nodes, hrun, hnone, hstores, hstored⟩ := commitRoot_ok (E := E)
      ⟨_, nodes, identifier, ∅, cache, maxHeight⟩ hF (hwf _ rfl) hn rfl
      fun q _ => disk_condemned ⟨_, nodes, identifier, deathRow, cache, maxHeight⟩ cols q
    refine ⟨u, nodes, hrun, hnone, fun key => (hstores key).imp id ?_, by rintro _ ⟨⟩; exact hstored⟩
    rintro ⟨r, bytes, hr, hk, hb⟩
    exact ⟨_, r, bytes, rfl, hr, hk, hb⟩

/-- Nothing is in memory after the updates are made. -/
theorem getUpdates_ok (hR : TreeRep H memo n cols tree T) :
    ∃ u nodes, (MerkleTree.getUpdates H : MerkleTree.M E Updates) tree = .ok u
        { tree with rootNode := none, nodes := nodes, deathRow := ∅, cacheLeafModified := ∅ } ∧
      (∀ j, nodes.slots j = none) ∧ UpdatesOf H cols tree T u := by
  obtain ⟨u, nodes, hrun, hnone, hlook, hstored⟩ := commitNodes_ok (E := E) hR
  refine ⟨_, nodes, (bind_ok (MerkleTree.self_run tree) _).trans ((bind_ok (modify_run _ _) _).trans
    ((bind_ok hrun _).trans ((bind_ok (modify_run _ _) _).trans rfl))), hnone, ?_⟩
  have hinj : Function.Injective (TrieKey.new tree.identifier .flat) := fun a b h => by
    simpa [TrieKey.new] using h
  -- the leaves do not touch the nodes
  have htrie (b : ByteVec) : (tree.cacheLeafModified.entries.foldl
      (fun u e => MerkleTree.leafUpdate tree.identifier u e.1 e.2) u).lookup (.trie b) = u.lookup (.trie b) :=
    Assoc.lookup_foldl_insert_of_ne leafChange u (f := TrieKey.new tree.identifier .flat) (by simp [TrieKey.new])
  have hflat (b : ByteVec) : u.lookup (.flat b) = none := by
    rcases hlook (.flat b) with h | ⟨_, _, _, _, _, h, _⟩
    · rw [h, lookup_condemned, hR.deathRow]; rfl
    · cases h
  refine ⟨fun b => ?_, fun b => ?_, fun b hb => ?_, fun t ht => ?_⟩
  · rw [htrie]
    rcases hlook (.trie b) with h | ⟨t, r, bytes, ht, hr, hk, hb⟩
    · exact .inl (by rw [h, lookup_condemned])
    · exact .inr ⟨t, r, bytes, ht, hr, by simpa [TrieKey.new] using hk, hb⟩
  · refine (Assoc.lookup_foldl_insert hinj leafChange tree.cacheLeafModified.nodupKeys u b).trans ?_
    rw [TrieKey.new, hflat, Option.or_none]
    rfl
  · refine (Assoc.lookup_foldl_insert_of_ne leafChange u (f := TrieKey.new tree.identifier .flat) ?_).trans (hflat b)
    exact fun b' h => hb b' (by simpa [TrieKey.new] using h)
  · refine (hstored t ht).congr fun q _ => ?_
    rw [Updates.disk_eq, Updates.disk_eq, TrieKey.new, htrie]

end

end Bonsai
