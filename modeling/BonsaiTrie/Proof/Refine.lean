import BonsaiTrie.Proof.Delete
import BonsaiTrie.Spec.Leaves

/-!
# Writes refine the leaves

`LeafRep` relates a tree to its leaves: the values of the trie, the cache and
the flat table, for the keys of one length that start at one bit. `get` and
`contains` read the leaves (`get_ok`, `contains_ok`), and `set` and
`delete_leaf` return and change them as `Leaves.set` does (`set_ok`).
-/

namespace Bonsai

open Patricia Run

/-- The tree has the leaves `s`, for the keys of `n` bits that start at bit `o` of a byte. -/
structure LeafRep [FeltCodec] (H : StarkHash) (n : Nat) (o : Fin 8) (cols : Columns) (tree : MerkleTree)
    (T : Option (Trie Felt)) (s : Leaves) : Prop where
  rep : TreeRep H anyMemo n cols tree T
  trie : ∀ k : Path, k.length = n → content T k = s.trie k
  cache : ∀ k : Path, k.length = n → tree.cacheLeafModified.lookup (bitsliceToBytes ⟨o, k⟩) = s.cache k
  flat : ∀ k : Path, k.length = n →
    cols (.flat (tree.identifier ++ bitsliceToBytes ⟨o, k⟩)) = (s.flat k).map FeltCodec.encode
  keys : s.SameKeys
  known : ∀ b, (tree.cacheLeafModified.lookup b).isSome → ∃ k : Path, k.length = n ∧ b = bitsliceToBytes ⟨o, k⟩

section

variable [FeltCodec] {DB ID : Type} [BonsaiDatabase DB] [InfallibleDatabase DB] {db : KeyValueDB DB ID}
  {H : StarkHash} {n : Nat} {o : Fin 8} {tree : MerkleTree} {T : Option (Trie Felt)} {s : Leaves} {key : BitSlice}

omit [FeltCodec] in
/-- What may be pending for a key. -/
theorem pending_cases (s : Leaves) (k : Path) :
    s.cache k = none ∨ (∃ v, s.cache k = some (.insert v)) ∨ s.cache k = some .remove := by
  rcases s.cache k with _ | v | _
  · exact .inl rfl
  · exact .inr (.inl ⟨v, rfl⟩)
  · exact .inr (.inr rfl)

theorem decodeFelt_encode {E : Type} (v : Felt) :
    (MerkleTree.decodeFelt (FeltCodec.encode v) : Except (Failure E) Felt) = .ok v := by
  have := FeltCodec.decode_encode v []
  rw [List.append_nil] at this
  rw [MerkleTree.decodeFelt, this]

/-- `set`, past the exit for a pending insertion. -/
def MerkleTree.setUnlessStored (db : KeyValueDB DB ID) (key : BitSlice) (value : Felt)
    (stored : Except (Failure (BonsaiDatabase.DatabaseError DB)) (Option ByteVec)) :
    MerkleTree.M (BonsaiDatabase.DatabaseError DB) Unit := do
  match ← lift stored with
  | some valueDb =>
    if value = (← lift (decodeFelt valueDb)) then return
    else setWalk db key value
  | none => setWalk db key value

omit [InfallibleDatabase DB] in
/-- A key of another length is refused. -/
theorem MerkleTree.set_keyLength (db : KeyValueDB DB ID) (hkey : key.len ≠ tree.maxHeight.toNat) (value : Felt) :
    MerkleTree.set db key value tree = .error (.error (.keyLength tree.maxHeight.toNat key.len)) tree := by
  rw [MerkleTree.set]
  split
  · rw [MerkleTree.deleteLeaf, bind_ok (MerkleTree.self_run _), if_pos hkey]; rfl
  · rw [bind_ok (MerkleTree.self_run _), if_pos hkey]; rfl

/-- The tree with the deletion of a leaf cached. -/
def MerkleTree.cacheRemove (tree : MerkleTree) (key : BitSlice) : MerkleTree :=
  { tree with cacheLeafModified := tree.cacheLeafModified.insert (bitsliceToBytes key) .remove }

/-- The tree with the insertion of a leaf cached. -/
def MerkleTree.cacheInsert (tree : MerkleTree) (key : BitSlice) (value : Felt) : MerkleTree :=
  { tree with cacheLeafModified := tree.cacheLeafModified.insert (bitsliceToBytes key) (.insert value) }

namespace LeafRep

theorem cache_eq (h : LeafRep H n o db.columns tree T s) (hh : key.head = o) (hkey : key.len = n) :
    tree.cacheLeafModified.lookup (bitsliceToBytes key) = s.cache key.bits := by
  subst hh
  exact h.cache key.bits hkey

theorem flat_eq (h : LeafRep H n o db.columns tree T s) (hh : key.head = o) (hkey : key.len = n) :
    db.get (TrieKey.new tree.identifier .flat (bitsliceToBytes key)) =
      .ok ((s.flat key.bits).map FeltCodec.encode) := by
  subst hh
  rw [db.get_ok]
  exact congrArg _ (h.flat key.bits hkey)

/-- `get` gives the value of the key. -/
theorem get_ok (h : LeafRep H n o db.columns tree T s) (hh : key.head = o) (hkey : key.len = n) :
    MerkleTree.get db tree key = .ok (s.get key.bits) := by
  rw [MerkleTree.get]
  simp only [h.cache_eq hh hkey, h.flat_eq hh hkey, Leaves.get]
  rcases pending_cases s key.bits with hc | ⟨v, hc⟩ | hc
  · rw [hc]
    cases s.flat key.bits with
    | none => rfl
    | some v =>
      show (some <$> MerkleTree.decodeFelt (FeltCodec.encode v) : Except _ _) = _
      rw [decodeFelt_encode]
      rfl
  · rw [hc]
  · rw [hc]

/-- `contains` tells whether it has one. -/
theorem contains_ok (h : LeafRep H n o db.columns tree T s) (hh : key.head = o) (hkey : key.len = n) :
    MerkleTree.contains db tree key = .ok (s.get key.bits).isSome := by
  rw [MerkleTree.contains]
  simp only [h.cache_eq hh hkey, Leaves.get]
  rcases pending_cases s key.bits with hc | ⟨v, hc⟩ | hc
  · rw [hc]
    subst hh
    show db.contains _ = _
    rw [db.contains_ok, show db.columns (TrieKey.new tree.identifier .flat (bitsliceToBytes key)).toDatabaseKey =
      (s.flat key.bits).map FeltCodec.encode from h.flat key.bits hkey, Option.isSome_map]
  · rw [hc]; rfl
  · rw [hc]; rfl

/-- The tree with a change of one leaf. -/
theorem write {tree' : MerkleTree} {T' : Option (Trie Felt)} {value : InsertOrRemove Felt} {trie' : Path → Option Felt}
    (h : LeafRep H n o db.columns tree T s) (hh : key.head = o) (hkey : key.len = n)
    (hw : Written H anyMemo n db.columns tree tree' T' (bitsliceToBytes key) value)
    (ht : ∀ k : Path, k.length = n → content T' k = trie' k)
    (hk : Leaves.SameKeys ⟨trie', Function.update s.cache key.bits (some value), s.flat⟩) :
    LeafRep H n o db.columns tree' T' ⟨trie', Function.update s.cache key.bits (some value), s.flat⟩ := by
  subst hh
  refine ⟨hw.rep, ht, fun k hkn => ?_, fun k hkn => ?_, hk, fun b hb => ?_⟩
  · rw [hw.cache]
    by_cases hb : k = key.bits
    · subst hb
      rw [AList.lookup_insert]
      exact (Function.update_self key.bits _ s.cache).symm
    · rw [AList.lookup_insert_ne, h.cache k hkn]
      · exact (Function.update_of_ne hb _ s.cache).symm
      intro he
      exact hb (BitSlice.bits_inj (s := ⟨key.head, k⟩) rfl (hkn.trans hkey.symm) he)
  · rw [hw.identifier, h.flat k hkn]
  · rw [hw.cache] at hb
    by_cases hbk : b = bitsliceToBytes key
    · exact ⟨key.bits, hkey, hbk⟩
    · rw [AList.lookup_insert_ne hbk] at hb
      exact h.known b hb

/-- A tree whose cache alone changes. -/
theorem TreeRep_cache {memo : Memo} (h : TreeRep H memo n db.columns tree T)
    (cache : HashMap ByteVec (InsertOrRemove Felt)) :
    TreeRep H memo n db.columns { tree with cacheLeafModified := cache } T :=
  ⟨h.height, h.rooted, h.wf, h.only, h.deathRow⟩

omit [InfallibleDatabase DB] in
/-- `delete_leaf` walks if the key is there; it reads the flat table if nothing is pending. -/
theorem deleteLeaf_run {cols : Columns} (h : LeafRep H n o cols tree T s) (hh : key.head = o) (hkey : key.len = n)
    (db : KeyValueDB DB ID) (hread : s.cache key.bits = none →
      db.get (TrieKey.new tree.identifier .flat (bitsliceToBytes key)) = .ok ((s.flat key.bits).map FeltCodec.encode)) :
    MerkleTree.deleteLeaf db key tree =
      if (s.get key.bits).isSome then MerkleTree.deleteWalk db key (tree.cacheRemove key) else .ok () tree := by
  subst hh
  have hlen : ¬ key.len ≠ tree.maxHeight.toNat := by rw [h.rep.height]; simpa using hkey
  rw [MerkleTree.deleteLeaf, bind_ok (MerkleTree.self_run tree), if_neg hlen]
  simp only [show tree.cacheLeafModified.lookup (bitsliceToBytes key) = _ from h.cache key.bits hkey, Leaves.get]
  rcases pending_cases s key.bits with hc | ⟨v, hc⟩ | hc
  · simp only [hc, hread hc]
    rcases hf : s.flat key.bits with _ | v
    · rfl
    · rfl
  · simp only [hc]; rfl
  · simp only [hc]; rfl

/-- `delete_leaf` takes the key away if it is there. -/
theorem deleteLeaf_ok (h : LeafRep H n o db.columns tree T s) (hn : 0 < n) (hh : key.head = o) (hkey : key.len = n) :
    ∃ tree' T', MerkleTree.deleteLeaf db key tree = .ok () tree' ∧
      LeafRep H n o db.columns tree' T' (s.remove key.bits) ∧ tree'.identifier = tree.identifier := by
  have hrun := h.deleteLeaf_run hh hkey db fun _ => h.flat_eq hh hkey
  rw [Leaves.remove, hrun]
  by_cases hg : (s.get key.bits).isSome
  · rw [if_pos hg]
    have htrie := h.keys key.bits
    rw [hg, ← h.trie key.bits hkey] at htrie
    cases T with
    | none => cases htrie
    | some t =>
      obtain ⟨v, hv⟩ := Option.isSome_iff_exists.mp htrie
      obtain ⟨tree', T', hwalk, hR, hid, hcache, hcont⟩ := deleteWalk_ok (TreeRep_cache h.rep _) (anyMemo_lawful H) hn hkey
        (looseWay_anyMemo _ _ _ _ _) hv
      refine ⟨tree', T', hwalk, ?_, hid⟩
      have hs := h.keys.remove key.bits
      rw [Leaves.remove, if_pos hg] at hs
      rw [if_pos hg]
      refine h.write hh hkey ⟨hR, hid, hcache⟩ (fun k hk => ?_) hs
      rw [hcont, Function.update_apply, ← h.trie k hk]
      rfl
  · rw [if_neg hg, if_neg hg]
    exact ⟨tree, T, rfl, h, rfl⟩

/-- `set` of a value that is not zero changes the cache, does nothing, or walks. -/
theorem insert_run (h : LeafRep H n o db.columns tree T s) (hh : key.head = o) (hkey : key.len = n) {value : Felt}
    (hv : value ≠ 0) :
    MerkleTree.set db key value tree =
      if (∃ old, s.cache key.bits = some (.insert old)) then .ok () (tree.cacheInsert key value)
      else if s.flat key.bits = some value then .ok () tree
      else MerkleTree.setWalk db key value tree := by
  have hlen : ¬ key.len ≠ tree.maxHeight.toNat := by rw [h.rep.height]; simpa using hkey
  rw [MerkleTree.set, if_neg hv, bind_ok (MerkleTree.self_run tree), if_neg hlen]
  simp only [h.cache_eq hh hkey, h.flat_eq hh hkey]
  -- past the first exit
  have hnew : MerkleTree.setUnlessStored db key value (.ok ((s.flat key.bits).map FeltCodec.encode)) tree =
      if s.flat key.bits = some value then .ok () tree else MerkleTree.setWalk db key value tree := by
    rw [MerkleTree.setUnlessStored, bind_ok (MerkleTree.lift_ok rfl tree)]
    cases hf : s.flat key.bits with
    | none => rfl
    | some v =>
      simp only [Option.map_some]
      rw [bind_ok (MerkleTree.lift_ok (decodeFelt_encode v) tree)]
      by_cases hvv : value = v
      · rw [if_pos hvv, if_pos (congrArg some hvv.symm)]
        rfl
      · rw [if_neg hvv, if_neg fun he => hvv (Option.some.inj he).symm]
  rcases pending_cases s key.bits with hc | ⟨v, hc⟩ | hc
  · rw [if_neg (by simp [hc])]
    simp only [hc]
    exact hnew
  · rw [if_pos ⟨v, hc⟩]
    simp only [hc]
    rfl
  · rw [if_neg (by simp [hc])]
    simp only [hc]
    exact hnew

/-- `set` returns, and changes the leaves as `Leaves.set` does. -/
theorem set_ok (h : LeafRep H n o db.columns tree T s) (hn : 0 < n) (hh : key.head = o) (hkey : key.len = n)
    (value : Felt) (hstray : value ≠ 0 → ∀ t, T = some t → NoStray tree.identifier t key) :
    ∃ tree' T', MerkleTree.set db key value tree = .ok () tree' ∧
      LeafRep H n o db.columns tree' T' (s.set key.bits value) ∧ tree'.identifier = tree.identifier := by
  by_cases hv : value = 0
  · rw [Leaves.set, MerkleTree.set, if_pos hv, if_pos hv]
    exact h.deleteLeaf_ok hn hh hkey
  rw [Leaves.set, if_neg hv, h.insert_run hh hkey hv]
  have hk := h.keys.insert key.bits value
  by_cases hc : ∃ old, s.cache key.bits = some (.insert old)
  · -- the value is changed in the cache only
    rw [if_pos hc]
    refine ⟨_, T, rfl, ?_, rfl⟩
    rw [Leaves.insert_of_pending hc] at hk ⊢
    exact h.write hh hkey ⟨TreeRep_cache h.rep _, rfl, rfl⟩ h.trie hk
  rw [if_neg hc]
  by_cases hf : s.flat key.bits = some value
  · rw [if_pos hf, Leaves.insert_of_stored hc hf]
    exact ⟨tree, T, rfl, h, rfl⟩
  · rw [if_neg hf]
    obtain ⟨tree', T', hrun, hw, hcont⟩ := setWalk_ok h.rep (anyMemo_lawful H) hn hkey value
      (fun _ _ => looseWay_anyMemo _ _ _ _ _) (hstray hv)
    refine ⟨tree', T', hrun, ?_, hw.identifier⟩
    rw [Leaves.insert_of_new hc hf] at hk ⊢
    refine h.write hh hkey hw (fun k hk => ?_) hk
    rw [hcont, Function.update_apply, ← h.trie k hk]

end LeafRep

end

end Bonsai
