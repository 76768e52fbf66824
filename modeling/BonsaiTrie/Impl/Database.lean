import BonsaiTrie.Impl.Node
import Mathlib.Data.List.AList

/-!
# Databases

The keys of the database (`bonsai_database.rs`, `trie_db.rs`), the trait a
backend implements, the errors of the crate (`error.rs`) and the commit ids
(`id.rs`). A hash map is an association list with distinct keys; the order in
which it is iterated is not specified, so every iteration takes one
(`HashOrder`).
-/

namespace Bonsai

/-- `HashMap<K, V>`. -/
abbrev HashMap (K V : Type) := AList fun _ : K => V

/-- `HashSet<K>`. -/
abbrev HashSet (K : Type) := HashMap K Unit

/-- The order of one iteration over a hash map: for every size, a permutation. -/
abbrev HashOrder := (n : Nat) → Equiv.Perm (Fin n)

/-- The orders of the iterations a call makes, by number. -/
abbrev HashOrders := Nat → HashOrder

/-- A list in the order of an iteration. -/
def HashOrder.arrange {α : Type} (ord : HashOrder) (l : List α) : List α :=
  List.ofFn fun i => l.get (ord l.length i)

/-- The entries of a hash map, as an iteration over it meets them. -/
def HashMap.iter {K V : Type} (m : HashMap K V) (ord : HashOrder) : List (K × V) :=
  ord.arrange (m.entries.map fun e => (e.1, e.2))

/-- `DatabaseKey`. -/
inductive DatabaseKey where
  | trie (bytes : ByteVec)
  | flat (bytes : ByteVec)
  | trieLog (bytes : ByteVec)
  deriving DecidableEq, Repr

/-- `DatabaseKey::as_slice`. -/
def DatabaseKey.asSlice : DatabaseKey → ByteVec
  | trie bytes | flat bytes | trieLog bytes => bytes

/-- `TrieKeyType`. -/
inductive TrieKeyType where
  | trie
  | flat
  deriving DecidableEq, Repr

/-- `TrieKeyType as u8`. -/
def TrieKeyType.toByte : TrieKeyType → UInt8
  | trie => 0
  | flat => 1

/-- `TrieKey`. -/
inductive TrieKey where
  | trie (bytes : ByteVec)
  | flat (bytes : ByteVec)
  deriving DecidableEq, Repr

namespace TrieKey

/-- `TrieKey::new`: the identifier, then the key. -/
def new (identifier : ByteVec) (keyType : TrieKeyType) (key : ByteVec) : TrieKey :=
  match keyType with
  | .trie => trie (identifier ++ key)
  | .flat => flat (identifier ++ key)

/-- `TrieKey::as_slice`. -/
def asSlice : TrieKey → ByteVec
  | trie bytes | flat bytes => bytes

/-- `u8::from(&TrieKey)`. -/
def keyType : TrieKey → TrieKeyType
  | trie _ => .trie
  | flat _ => .flat

/-- `TrieKey::from_variant_and_bytes`, which panics on another variant. -/
def fromVariantAndBytes (variant : UInt8) (bytes : ByteVec) : Option TrieKey :=
  if variant = TrieKeyType.trie.toByte then some (trie bytes)
  else if variant = TrieKeyType.flat.toByte then some (flat bytes)
  else none

/-- `DatabaseKey::from(&TrieKey)`. -/
def toDatabaseKey : TrieKey → DatabaseKey
  | trie bytes => .trie bytes
  | flat bytes => .flat bytes

end TrieKey

/-- `BonsaiStorageError`. -/
inductive BonsaiStorageError (E : Type) where
  | trie (message : String)
  | goTo (message : String)
  | transaction (message : String)
  | merge (message : String)
  | database (error : E)
  | nodeDecodeError
  | keyLength (expected got : Nat)
  deriving DecidableEq, Repr

/-- How a call ends other than by returning `Ok`: with an error, with a panic, or not at all. -/
inductive Failure (E : Type) where
  | error (e : BonsaiStorageError E)
  | panic (message : String)
  | diverges
  deriving DecidableEq, Repr

/-- `Id`. -/
class Id (ID : Type) where
  toBytes : ID → ByteVec
  asU64 : ID → UInt64
  fromU64 : UInt64 → ID

/-- `BasicId`. -/
abbrev BasicId := UInt64

/-- `u64::to_be_bytes`. -/
def u64ToBeBytes (x : UInt64) : ByteVec := (bytesLe 8 x.toNat).reverse

instance : Id BasicId where
  toBytes := u64ToBeBytes
  asU64 := id
  fromU64 := id

/-- `BasicIdBuilder`. -/
structure BasicIdBuilder where
  lastId : UInt64

namespace BasicIdBuilder

/-- `BasicIdBuilder::new`. -/
def new : BasicIdBuilder := ⟨0⟩

/-- `u64::checked_add(1)`. -/
def checkedSucc (a : UInt64) : Option UInt64 := if a + 1 = 0 then none else some (a + 1)

/-- `BasicIdBuilder::new_id`. -/
def newId {E : Type} : EStateM (Failure E) BasicIdBuilder BasicId := fun builder =>
  match checkedSucc builder.lastId with
  | some lastId => .ok builder.lastId ⟨lastId⟩
  | none => .error (.panic "Id overflow") builder

end BasicIdBuilder

/-- `BonsaiDatabase`. A call that takes `&mut self` gives back the database, and the batch it was
passed, also when it fails. -/
class BonsaiDatabase (DB : Type) where
  Batch : Type
  DatabaseError : Type
  createBatch : DB → Batch
  get : DB → DatabaseKey → Except DatabaseError (Option ByteVec)
  getByPrefix : DB → DatabaseKey → HashOrder → Except DatabaseError (List (ByteVec × ByteVec))
  contains : DB → DatabaseKey → Except DatabaseError Bool
  insert : DB → DatabaseKey → ByteVec → Option Batch →
    Except DatabaseError (Option ByteVec) × DB × Option Batch
  remove : DB → DatabaseKey → Option Batch →
    Except DatabaseError (Option ByteVec) × DB × Option Batch
  removeByPrefix : DB → DatabaseKey → Except DatabaseError Unit × DB
  writeBatch : DB → Batch → Except DatabaseError Unit × DB

/-- `BonsaiPersistentDatabase`. -/
class BonsaiPersistentDatabase (DB : Type) (ID : outParam Type) (Transaction : outParam Type) where
  snapshot : DB → ID → DB
  transaction : DB → ID → Option (ID × Transaction)

end Bonsai
