import BonsaiTrie.Spec.Infallible
import BonsaiTrie.Spec.Runs

/-!
# Enumeration

What the scans of an infallible database list, and the inserts that keep the
enumeration of a tree apart from the leaves of the others: the enumeration of
`X` lists every flat key that starts with the bytes of `X`, whatever tree it
is of.
-/

namespace Bonsai

/-- The same column, at other bytes. -/
def DatabaseKey.withSlice : DatabaseKey → ByteVec → DatabaseKey
  | trie _, bytes => .trie bytes
  | flat _, bytes => .flat bytes
  | trieLog _, bytes => .trieLog bytes

/-- Its scans list the entries of a column that start with the given bytes, each once, and a write
through a batch shows in the content at once or not at all. -/
class Scans (DB : Type) [BonsaiDatabase DB] [InfallibleDatabase DB] : Prop where
  getByPrefix_eq (db : DB) (pre : DatabaseKey) (ord : HashOrder) :
    ∃ entries, BonsaiDatabase.getByPrefix db pre ord = .ok entries ∧ (entries.map Prod.fst).Nodup ∧
      ∀ k v, (k, v) ∈ entries ↔ pre.asSlice <+: k ∧ InfallibleDatabase.columns db (pre.withSlice k) = some v
  insert_columns {db db' : DB} {key : DatabaseKey} {value : ByteVec} {old : Option ByteVec}
    {batch batch' : BonsaiDatabase.Batch DB} :
    BonsaiDatabase.insert db key value (some batch) = (.ok old, db', some batch') →
      InfallibleDatabase.columns db' = InfallibleDatabase.columns db ∨
        InfallibleDatabase.columns db' = Function.update (InfallibleDatabase.columns db) key (some value)
  remove_columns {db db' : DB} {key : DatabaseKey} {old : Option ByteVec} {batch batch' : BonsaiDatabase.Batch DB} :
    BonsaiDatabase.remove db key (some batch) = (.ok old, db', some batch') →
      InfallibleDatabase.columns db' = InfallibleDatabase.columns db ∨
        InfallibleDatabase.columns db' = Function.update (InfallibleDatabase.columns db) key none

/-- A flat key that does not start with `X`, or is that of a leaf of `X`. -/
def ClearOf (X : ByteVec) (n : Nat) (flatKey : ByteVec) : Prop :=
  X <+: flatKey → ∃ key : BitSlice, key.len = n ∧ flatKey = X ++ bitsliceToBytes key

/-- The leaf that is inserted, if one is, is clear of `X`. -/
def Op.ClearOf {ID : Type} (X : ByteVec) (n : Nat) : Op ID → Prop
  | .insert identifier key value => key.len = n → value ≠ 0 → Bonsai.ClearOf X n (identifier ++ bitsliceToBytes key)
  | .remove _ _ => True
  | .commit _ _ _ => True

/-- What `X` enumerates is what is read at its keys, each once. -/
def Enumerates [FeltCodec] {DB ID : Type} [BonsaiDatabase DB] (st : BonsaiStorage DB ID) (X : ByteVec)
    (ord ord' : HashOrder) : Prop :=
  ∃ pairs keys, BonsaiStorage.getKeyValuePairs st X ord = .ok pairs ∧ BonsaiStorage.getKeys st X ord' = .ok keys ∧
    pairs.Nodup ∧
    (∀ b e, (b, e) ∈ pairs ↔ ∃ (key : BitSlice) (v : Felt),
      BonsaiStorage.get st X key = .ok (some v) ∧ b = key.rawSlice ∧ e = FeltCodec.encode v) ∧
    keys.Perm (pairs.map Prod.fst)

end Bonsai
