import BonsaiTrie.Proof.HashMapDb
import BonsaiTrie.Proof.Runs

/-!
# The root hash

After a commit, the root hash of the only tree of a storage is the root of
what `get` finds, provided no value was written over another that was pending:
`set` then changes the cache and not the trie.
-/

namespace Bonsai

open Patricia Run

/-- A call on the tree of the empty identifier that keeps its trie in step with `get`: a write
finds no other value pending for its key, and its split marks no other node. -/
def Op.Tracked [FeltCodec] {DB ID : Type} [BonsaiDatabase DB] (n : Nat) (o : Fin 8) (st : BonsaiStorage DB ID) :
    Op ID → Prop
  | .insert identifier key value => identifier = [] ∧ key.head = o ∧ (key.len = n → value ≠ 0 →
      (∀ old, pendingOf st [] key = some (.insert old) → old = value) ∧
      ∀ t, ofMap n (contentOf st [] o) = some t → NoStray [] t key)
  | .remove identifier key => identifier = [] ∧ key.head = o
  | .commit _ _ _ => st.db.config.snapshotInterval ≠ 0

/-- A key that starts at the first bit of a byte marks no other node. -/
theorem Op.tracked_insert [FeltCodec] {DB ID : Type} [BonsaiDatabase DB] {n : Nat} (hn : n ≤ 255)
    {st : BonsaiStorage DB ID} {key : BitSlice} (hh : key.head = 0) {value : Felt}
    (hp : ∀ old, pendingOf st [] key = some (.insert old) → old = value) : (Op.insert [] key value).Tracked n 0 st :=
  ⟨rfl, hh, fun hkey _ => ⟨hp, fun _ ht => noStray_ofMap hn hh hkey ht⟩⟩

section

variable [FeltCodec] {DB ID T : Type} [BonsaiDatabase DB] [InfallibleDatabase DB] [Id ID]
  [BonsaiPersistentDatabase DB ID T] [InfallibleSnapshots DB ID T] {H : StarkHash} {n : Nat} {o : Fin 8}
  {st : BonsaiStorage DB ID} {L : ByteVec → Leaves} {op : Op ID}

omit [Id ID] [BonsaiPersistentDatabase DB ID T] [InfallibleSnapshots DB ID T] in
theorem StorageRep.inStep (h : StorageRep H n o {[]} st L) (hL : (L []).InStep) (hop : op.Tracked n o st) :
    op.Clean n o {[]} st ∧ (op.leaves n L []).InStep := by
  cases op with
  | insert X key value =>
    obtain ⟨rfl, hh, hw⟩ := hop
    refine ⟨⟨rfl, hh, fun hkey hv => (hw hkey hv).2⟩, ?_⟩
    rw [Op.leaves]
    split
    · rename_i hkey
      rw [Function.update_self]
      refine hL.set fun hv old hold => (hw hkey hv).1 old ?_
      rw [h.pendingOf_eq rfl hh hkey, hold]
    · exact hL
  | remove X key =>
    obtain ⟨rfl, hh⟩ := hop
    refine ⟨⟨rfl, hh⟩, ?_⟩
    rw [Op.leaves]
    split
    · rw [Function.update_self]
      exact hL.set fun h0 => (h0 rfl).elim
    · exact hL
  | commit ords logOrd id => exact ⟨⟨h.noIntrusion, hop⟩, hL.commit⟩

/-- The root hash after a run that ends with a commit. -/
theorem rootHash_run {m : UInt8} (hm : 0 < m.toNat) {db : DB}
    (hdb : ∀ key : TrieKey, InfallibleDatabase.columns db key.toDatabaseKey = none) {config : BonsaiStorageConfig}
    {ops : List (Op ID)} {ords : HashOrders} {logOrd : HashOrder} {id : ID}
    (hrun : Meets (Op.Tracked m.toNat o) H (ops ++ [Op.commit ords logOrd id]) (BonsaiStorage.new db config m)) :
    BonsaiStorage.rootHash (after H (ops ++ [Op.commit ords logOrd id]) (BonsaiStorage.new db config m)) [] =
      .ok (merkleRoot H m.toNat
        (contentOf (after H (ops ++ [Op.commit ords logOrd id]) (BonsaiStorage.new db config m)) [] o)) := by
  obtain ⟨hops, hc, -⟩ := Meets.append.mp hrun
  have hS := apart_singleton m.toNat []
  obtain ⟨-, L, hR, hL⟩ := StorageRep.simulates (P := fun L (_ : Unit) => (L []).InStep) (f := fun a _ => a) hm hS
    (fun st op L _ h hL hop => h.inStep hL hop) hops (.start hdb config m o {[]}) (a := ()) fun _ => rfl
  obtain ⟨hclean, -⟩ := hR.inStep hL hc
  rw [after_append]
  obtain ⟨-, hR', -, -, hroot⟩ := hR.commit_step hm hS ords logOrd id hclean
  refine (hroot [] rfl).trans (congrArg _ (mapDigest_congr _ _ _ _ fun k hk => ?_))
  exact (hL k).trans (hR'.contentOf_eq rfl hk).symm

variable (H) (o) in
/-- After every commit of a tracked run, the root hash is the root of what `get` finds; so two runs
with the same content have the same root hash. -/
theorem rootHash_eq_merkleRoot (m : UInt8) (hm : 0 < m.toNat) (db : DB)
    (hdb : ∀ key : TrieKey, InfallibleDatabase.columns db key.toDatabaseKey = none) (config : BonsaiStorageConfig)
    (ops : List (Op ID)) (ords : HashOrders) (logOrd : HashOrder) (id : ID)
    (hrun : Meets (Op.Tracked m.toNat o) H (ops ++ [Op.commit ords logOrd id]) (BonsaiStorage.new db config m)) :
    BonsaiStorage.rootHash (after H (ops ++ [Op.commit ords logOrd id]) (BonsaiStorage.new db config m)) [] =
        .ok (merkleRoot H m.toNat
          (contentOf (after H (ops ++ [Op.commit ords logOrd id]) (BonsaiStorage.new db config m)) [] o)) ∧
      ∀ (db' : DB) (_ : ∀ key : TrieKey, InfallibleDatabase.columns db' key.toDatabaseKey = none)
        (config' : BonsaiStorageConfig) (o' : Fin 8) (ops' : List (Op ID)) (ords' : HashOrders) (logOrd' : HashOrder) (id' : ID)
        (_ : Meets (Op.Tracked m.toNat o') H (ops' ++ [Op.commit ords' logOrd' id']) (BonsaiStorage.new db' config' m))
        (_ : ∀ k : Path, k.length = m.toNat →
          contentOf (after H (ops ++ [Op.commit ords logOrd id]) (BonsaiStorage.new db config m)) [] o k =
            contentOf (after H (ops' ++ [Op.commit ords' logOrd' id']) (BonsaiStorage.new db' config' m)) [] o' k),
        BonsaiStorage.rootHash (after H (ops ++ [Op.commit ords logOrd id]) (BonsaiStorage.new db config m)) [] =
          BonsaiStorage.rootHash (after H (ops' ++ [Op.commit ords' logOrd' id']) (BonsaiStorage.new db' config' m)) [] := by
  refine ⟨rootHash_run hm hdb hrun, fun db' hdb' config' o' ops' ords' logOrd' id' hrun' hsame => ?_⟩
  rw [rootHash_run hm hdb hrun, rootHash_run hm hdb' hrun']
  exact congrArg _ (mapDigest_congr _ _ _ _ hsame)

end

/-- Two keys that part at their last bit. -/
def writeTwo : List (Op BasicId) := [.insert [] (.aligned [true, false]) 1, .insert [] (.aligned [true, true]) 2]

theorem rootHash_eq_merkleRoot_split :
    BonsaiStorage.rootHash (after (fun a b => a + b) (writeTwo ++ [.commit (fun _ => .listed) .listed 1]) (.inMemory 2)) [] =
      .ok (merkleRoot (fun a b => a + b) (UInt8.toNat 2)
        (contentOf (after (fun a b => a + b) (writeTwo ++ [.commit (fun _ => .listed) .listed 1]) (.inMemory 2)) [] 0)) := by
  have hm : 0 < UInt8.toNat 2 := by decide
  have hfresh : pendingOf ((Op.insert [] (.aligned [true, false]) 1).after (fun a b => a + b) (.inMemory 2)) [] (.aligned [true, true]) =
      none := by decide +kernel
  have hrun : Meets (Op.Tracked (UInt8.toNat 2) 0) (fun a b => a + b)
      (writeTwo ++ [.commit (fun _ => .listed) .listed 1]) (.inMemory 2) := by
    refine ⟨Op.tracked_insert (by decide) rfl (by rintro old ⟨⟩), Op.tracked_insert (by decide) rfl ?_,
      by rw [Op.Tracked]; decide +kernel, trivial⟩
    intro old hold
    rw [hfresh] at hold
    cases hold
  have h := rootHash_eq_merkleRoot (fun a b => a + b) 0 2 hm HashMapDb.empty HashMapDb.columns_empty ⟨none, none, 1⟩ writeTwo
    (fun _ => .listed) .listed 1 hrun
  exact h.1

/-- Two values written to a key before a commit. -/
def overwrite : List (Op BasicId) :=
  [.insert [] (.aligned [true, false]) 1, .insert [] (.aligned [true, false]) 2, .commit (fun _ => .listed) .listed 1]

/-- `get` finds the second value; the root is that of the first. -/
theorem rootHash_ne_merkleRoot :
    BonsaiStorage.rootHash (after (fun a b => a + b) overwrite (.inMemory 2)) [] ≠
      .ok (merkleRoot (fun a b => a + b) 2 (contentOf (after (fun a b => a + b) overwrite (.inMemory 2)) [] 0)) := by
  decide +kernel

end Bonsai
