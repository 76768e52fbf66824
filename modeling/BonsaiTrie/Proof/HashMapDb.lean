import Mathlib.Control.Monad.Basic
import BonsaiTrie.Framework.Assoc
import BonsaiTrie.Impl.HashMapDb
import BonsaiTrie.Impl.Storage
import BonsaiTrie.Proof.Codec
import BonsaiTrie.Spec.Infallible

/-!
# The in-memory backend never fails

`HashMapDb` is an infallible database: its content is that of its maps, and a
batch changes nothing, since writes are immediate. `feltBytesBe` is the codec
of a field element as 32 bytes, the first the most significant.
-/

namespace Bonsai

namespace HashMapDb

variable {ID : Type} (db : HashMapDb ID) (key : DatabaseKey)

theorem get_setMap_self (map : HashMap ByteVec ByteVec) : (db.setMap key map).get key = map.lookup key.asSlice := by
  cases key <;> rfl

/-- A map that is put in the place of one changes the keys of its column only. -/
theorem get_setMap (map : HashMap ByteVec ByteVec) (h : ∀ k, k ≠ key.asSlice → map.lookup k = (db.getMap key).lookup k) :
    (db.setMap key map).get = Function.update db.get key (map.lookup key.asSlice) := by
  funext k
  by_cases hk : k = key
  · subst hk
    rw [get_setMap_self, Function.update_self]
  · rw [Function.update_of_ne hk]
    cases key with
    | trie b =>
      cases k with
      | trie b' => exact h b' fun he => hk (congrArg _ he)
      | flat b' => rfl
      | trieLog b' => rfl
    | flat b =>
      cases k with
      | trie b' => rfl
      | flat b' => exact h b' fun he => hk (congrArg _ he)
      | trieLog b' => rfl
    | trieLog b =>
      cases k with
      | trie b' => rfl
      | flat b' => rfl
      | trieLog b' => exact h b' fun he => hk (congrArg _ he)

theorem get_insert (value : ByteVec) : (db.insert key value).2.get = Function.update db.get key (some value) := by
  rw [insert, get_setMap _ _ _ fun k hk => AList.lookup_insert_ne hk, AList.lookup_insert]

theorem get_remove : (db.remove key).2.get = Function.update db.get key none := by
  rw [remove, get_setMap _ _ _ fun k hk => AList.lookup_erase_ne hk, AList.lookup_erase]

/-- The keys erased are those that start with the prefix. -/
theorem lookup_erasePrefix (map : HashMap ByteVec ByteVec) (pre k : ByteVec) :
    ((map.keys.filter fun k => pre.isPrefixOf k).foldl (fun m k => m.erase k) map).lookup k =
      if pre.isPrefixOf k then none else map.lookup k := by
  rw [Assoc.lookup_foldl_erase]
  by_cases hp : pre.isPrefixOf k
  · by_cases hk : k ∈ map.keys
    · rw [if_pos (List.mem_filter.mpr ⟨hk, hp⟩), if_pos hp]
    · rw [if_neg fun h => hk (List.mem_filter.mp h).1, if_pos hp]
      exact AList.lookup_eq_none.mpr hk
  · rw [if_neg fun h => hp (List.mem_filter.mp h).2, if_neg hp]

theorem get_removeByPrefix (pre : DatabaseKey) : (db.removeByPrefix pre).get = Columns.clear db.get pre := by
  funext k
  rw [Columns.clear]
  cases pre with
  | trie b =>
    cases k with
    | trie b' => exact lookup_erasePrefix _ _ _
    | flat b' => rfl
    | trieLog b' => rfl
  | flat b =>
    cases k with
    | trie b' => rfl
    | flat b' => exact lookup_erasePrefix _ _ _
    | trieLog b' => rfl
  | trieLog b =>
    cases k with
    | trie b' => rfl
    | flat b' => rfl
    | trieLog b' => exact lookup_erasePrefix _ _ _

end HashMapDb

instance {ID : Type} : InfallibleDatabase (HashMapDb ID) where
  columns db := db.get
  pending db _ := db.get
  get_eq _ _ := rfl
  contains_eq _ _ := rfl
  pending_createBatch _ := rfl
  insert_eq db key value batch := ⟨_, _, batch, rfl, db.get_insert key value⟩
  remove_eq db key batch := ⟨_, _, batch, rfl, db.get_remove key⟩
  removeByPrefix_eq db pre := ⟨_, rfl, db.get_removeByPrefix pre⟩
  writeBatch_eq _ _ := ⟨_, rfl, rfl⟩

instance {ID : Type} [LT ID] [DecidableLT ID] : InfallibleSnapshots (HashMapDb ID) ID (HashMapDb ID) where
  columns_snapshot _ _ := rfl

instance {ID : Type} : DecidableEq (BonsaiDatabase.DatabaseError (HashMapDb ID)) :=
  inferInstanceAs (DecidableEq HashMapDbError)

/-- An empty database has no trees. -/
theorem HashMapDb.columns_empty {ID : Type} (key : TrieKey) :
    InfallibleDatabase.columns (HashMapDb.empty : HashMapDb ID) key.toDatabaseKey = none := by
  cases key <;> rfl

/-- A key that starts at the first bit of a byte. -/
def BitSlice.aligned (bits : List Bool) : BitSlice := ⟨0, bits⟩

/-- The order in which the entries are listed. -/
def HashOrder.listed : HashOrder := fun n => Equiv.refl (Fin n)

/-- A new storage in memory, with all logs kept and a snapshot at every commit. -/
def BonsaiStorage.inMemory (m : UInt8) : BonsaiStorage (HashMapDb BasicId) BasicId := .new .empty ⟨none, none, 1⟩ m

/-! ## Field elements as bytes -/

theorem length_bytesLe (k x : Nat) : (bytesLe k x).length = k := by
  induction k generalizing x with
  | zero => rfl
  | succ k ih => rw [bytesLe, List.length_cons, ih]

/-- The digits of an integer give it back. -/
theorem natOfBytesBe_reverse_bytesLe {k x : Nat} (h : x < 256 ^ k) : natOfBytesBe (bytesLe k x).reverse = x := by
  induction k generalizing x with
  | zero => rw [show x = 0 by simpa using h]; rfl
  | succ k ih =>
    have hdiv : x / 256 < 256 ^ k := by
      rw [Nat.div_lt_iff_lt_mul (by decide)]
      rwa [← Nat.pow_succ]
    rw [bytesLe, List.reverse_cons, natOfBytesBe, List.foldl_append]
    show 256 * natOfBytesBe (bytesLe k (x / 256)).reverse + (UInt8.ofNat (x % 256)).toNat = x
    rw [ih hdiv, UInt8.toNat_ofNat']
    omega

/-- A field element as 32 bytes, the most significant first. -/
instance feltBytesBe : FeltCodec where
  encode v := (bytesLe 32 v.val).reverse
  decode bytes := if bytes.length < 32 then none else some (Felt.ofBytesBe (bytes.take 32), bytes.drop 32)
  decode_encode v rest := by
    have hlen : (bytesLe 32 v.val).reverse.length = 32 := by rw [List.length_reverse, length_bytesLe]
    have hv : v.val < 256 ^ 32 := v.isLt.trans (by decide)
    rw [if_neg (by rw [List.length_append, hlen]; omega), List.take_left' hlen, List.drop_left' hlen, Felt.ofBytesBe,
      natOfBytesBe_reverse_bytesLe hv]
    exact congrArg (fun w => some (w, rest)) (Fin.ext (Nat.mod_eq_of_lt v.isLt))

end Bonsai
