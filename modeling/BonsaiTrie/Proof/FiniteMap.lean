import BonsaiTrie.Proof.HashMapDb
import BonsaiTrie.Proof.Runs

/-!
# The storage is a finite map

`get` and `contains` read what was last written, and every call returns `Ok`,
provided no value is written back that was committed and removed since: `set`
then takes the exit for a value that is there already, and the key stays
removed.
-/

namespace Bonsai

open Patricia Run

/-- What a call does to the map the storage stands for. -/
def Op.write {ID : Type} (M : Path → Option Felt) : Op ID → Path → Option Felt
  | .insert _ key value => Function.update M key.bits (if value = 0 then none else some value)
  | .remove _ key => Function.update M key.bits none
  | .commit _ _ _ => M

/-- What was last written to each key. -/
def written {ID : Type} (ops : List (Op ID)) : Path → Option Felt := ops.foldl Op.write fun _ => none

/-- A call on the tree of one identifier, with a key of its length, that does not write back a
committed value over a pending removal, and whose split marks no other node. -/
def Op.Plain [FeltCodec] {DB ID : Type} [BonsaiDatabase DB] (n : Nat) (o : Fin 8) (X : ByteVec)
    (st : BonsaiStorage DB ID) : Op ID → Prop
  | .insert identifier key value => identifier = X ∧ key.head = o ∧ key.len = n ∧ (value ≠ 0 →
      ¬ (pendingOf st X key = some .remove ∧
        st.db.get (TrieKey.new X .flat (bitsliceToBytes key)) = .ok (some (FeltCodec.encode value))) ∧
      ∀ t, ofMap n (contentOf st X o) = some t → NoStray X t key)
  | .remove identifier key => identifier = X ∧ key.head = o ∧ key.len = n
  | .commit _ _ _ => st.db.config.snapshotInterval ≠ 0

namespace Leaves

/-- A write is read back. -/
theorem get_set {s : Leaves} {key : Path} {value : Felt}
    (h : value ≠ 0 → ¬ (s.cache key = some .remove ∧ s.flat key = some value)) :
    (s.set key value).get = Function.update s.get key (if value = 0 then none else some value) := by
  funext k
  rw [set]
  by_cases hv : value = 0
  · rw [if_pos hv, if_pos hv, get_remove]
  · rw [if_neg hv, if_neg hv, get_insert (h hv)]

end Leaves

section

variable [FeltCodec] {DB ID T : Type} [BonsaiDatabase DB] [InfallibleDatabase DB] [Id ID]
  [BonsaiPersistentDatabase DB ID T] [InfallibleSnapshots DB ID T] {H : StarkHash} {n : Nat} {o : Fin 8} {X : ByteVec}
  {st : BonsaiStorage DB ID} {L : ByteVec → Leaves} {op : Op ID} {key : BitSlice}

omit [Id ID] [BonsaiPersistentDatabase DB ID T] [InfallibleSnapshots DB ID T] in
/-- The committed value of a key. -/
theorem StorageRep.flat_eq (h : StorageRep H n o {X} st L) (hh : key.head = o) (hkey : key.len = n) {value : Felt}
    (hf : (L X).flat key.bits = some value) :
    st.db.get (TrieKey.new X .flat (bitsliceToBytes key)) = .ok (some (FeltCodec.encode value)) := by
  obtain ⟨T, hT⟩ := h.leaves X rfl
  have hflat := hT.flat_eq hh hkey
  rw [h.identifier_treeOf X, hf] at hflat
  exact hflat

omit [Id ID] [BonsaiPersistentDatabase DB ID T] [InfallibleSnapshots DB ID T] in
theorem StorageRep.get_step (h : StorageRep H n o {X} st L) {M : Path → Option Felt} (hM : (L X).get = M)
    (hop : op.Plain n o X st) : op.Clean n o {X} st ∧ (op.leaves n L X).get = op.write M := by
  subst hM
  cases op with
  | insert Y key value =>
    obtain ⟨rfl, hh, hkey, hw⟩ := hop
    refine ⟨⟨rfl, hh, fun _ hv => (hw hv).2⟩, ?_⟩
    rw [Op.leaves, if_pos hkey, Function.update_self]
    refine Leaves.get_set fun hv ⟨hc, hf⟩ => (hw hv).1 ⟨?_, h.flat_eq hh hkey hf⟩
    rw [h.pendingOf_eq rfl hh hkey, hc]
  | remove Y key =>
    obtain ⟨rfl, hh, hkey⟩ := hop
    refine ⟨⟨rfl, hh⟩, ?_⟩
    rw [Op.leaves, if_pos hkey, Function.update_self]
    exact Leaves.get_set fun h0 => (h0 rfl).elim
  | commit ords logOrd id => exact ⟨⟨h.noIntrusion, hop⟩, rfl⟩

omit [InfallibleDatabase DB] [Id ID] [BonsaiPersistentDatabase DB ID T] [InfallibleSnapshots DB ID T] in
/-- Keys of the length of the tree are not refused. -/
theorem Op.answer_of_plain (hop : op.Plain n o X st) {E : Type} : (op.answer n : Except (Failure E) Unit) = .ok () := by
  cases op with
  | insert Y key value => exact if_pos hop.2.2.1
  | remove Y key => exact if_pos hop.2.2
  | commit ords logOrd id => rfl

variable (H) (o) (X) in
/-- Along a plain run every call returns `Ok`, `get` finds what was last written and `contains`
tells whether there is a value. -/
theorem get_eq_written (m : UInt8) (hm : 0 < m.toNat) (db : DB)
    (hdb : ∀ key : TrieKey, InfallibleDatabase.columns db key.toDatabaseKey = none) (config : BonsaiStorageConfig)
    (ops : List (Op ID)) (hrun : Meets (Op.Plain m.toNat o X) H ops (BonsaiStorage.new db config m)) :
    (∀ r ∈ results H ops (BonsaiStorage.new db config m), r = .ok ()) ∧
      ∀ key : BitSlice, key.head = o → key.len = m.toNat →
        BonsaiStorage.get (after H ops (BonsaiStorage.new db config m)) X key = .ok (written ops key.bits) ∧
        BonsaiStorage.contains (after H ops (BonsaiStorage.new db config m)) X key =
          .ok (written ops key.bits).isSome := by
  obtain ⟨hres, L, hR, hL⟩ := StorageRep.simulates (P := fun L M => (L X).get = M) (f := fun M op => op.write M) hm
    (apart_singleton _ X) (fun st op L M h hL hop => h.get_step hL hop) hrun (.start hdb config m o {X})
    (a := fun _ => none) rfl
  refine ⟨fun r hr => ?_, fun key hh hkey => ?_⟩
  · rw [hres] at hr
    obtain ⟨op, hop, rfl⟩ := List.mem_map.mp hr
    exact hrun.forall_mem (Q := fun op => op.answer m.toNat = .ok ()) (fun st op h => Op.answer_of_plain h) op hop
  · rw [show written ops = (L X).get from hL.symm]
    exact ⟨hR.get_ok rfl hh hkey, hR.contains_ok rfl hh hkey⟩

end

/-- A value written, committed and removed. -/
def writeRemove : List (Op BasicId) :=
  [.insert [7] (.aligned [true]) 5, .commit (fun _ => .listed) .listed 1, .remove [7] (.aligned [true])]

theorem get_eq_written_removed :
    BonsaiStorage.get (after (fun a b => a + b) writeRemove (.inMemory 1)) [7] (.aligned [true]) =
      .ok (written writeRemove [true]) := by
  have hm : 0 < UInt8.toNat 1 := by decide
  have hempty : ofMap (UInt8.toNat 1) (contentOf (.inMemory 1) [7] 0) = none := by decide +kernel
  have hrun : Meets (Op.Plain (UInt8.toNat 1) 0 [7]) (fun a b => a + b) writeRemove (.inMemory 1) := by
    refine ⟨⟨rfl, rfl, rfl, fun _ => ⟨(by rintro ⟨⟨⟩, -⟩), fun t ht => ?_⟩⟩, by rw [Op.Plain]; decide +kernel,
      ⟨rfl, rfl, rfl⟩, trivial⟩
    rw [hempty] at ht
    cases ht
  have h := get_eq_written (fun a b => a + b) 0 [7] 1 hm HashMapDb.empty HashMapDb.columns_empty ⟨none, none, 1⟩ writeRemove hrun
  exact (h.2 (.aligned [true]) rfl rfl).1

/-- Written back, the value is not found. -/
theorem get_ne_written :
    BonsaiStorage.get (after (fun a b => a + b) (writeRemove ++ [Op.insert [7] (.aligned [true]) 5]) (.inMemory 1)) [7] (.aligned [true]) ≠
      .ok (written (writeRemove ++ [Op.insert [7] (.aligned [true]) 5]) [true]) := by
  decide +kernel

end Bonsai
