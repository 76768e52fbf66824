import BonsaiTrie.Impl.KeyValueDb

/-!
# Infallible databases

What a backend that never fails does, said without its types: it has a content
(`columns`), a batch stands for the content there will be once it is written
(`pending`), and each call of the trait acts on these two. Snapshots leave the
content alone.
-/

namespace Bonsai

/-- The content of a database. -/
abbrev Columns := DatabaseKey → Option ByteVec

/-- A key of the column of `pre` that starts with its bytes. -/
def DatabaseKey.startsWith : DatabaseKey → DatabaseKey → Bool
  | trie k, trie pre | flat k, flat pre | trieLog k, trieLog pre => pre.isPrefixOf k
  | _, _ => false

/-- The content without the keys that start with `pre`. -/
def Columns.clear (cols : Columns) (pre : DatabaseKey) : Columns :=
  fun k => if k.startsWith pre then none else cols k

/-- A backend whose calls all succeed. -/
class InfallibleDatabase (DB : Type) [BonsaiDatabase DB] where
  columns : DB → Columns
  pending : DB → BonsaiDatabase.Batch DB → Columns
  get_eq (db : DB) (key : DatabaseKey) : BonsaiDatabase.get db key = .ok (columns db key)
  contains_eq (db : DB) (key : DatabaseKey) : BonsaiDatabase.contains db key = .ok (columns db key).isSome
  pending_createBatch (db : DB) : pending db (BonsaiDatabase.createBatch db) = columns db
  insert_eq (db : DB) (key : DatabaseKey) (value : ByteVec) (batch : BonsaiDatabase.Batch DB) :
    ∃ old db' batch', BonsaiDatabase.insert db key value (some batch) = (.ok old, db', some batch') ∧
      pending db' batch' = Function.update (pending db batch) key (some value)
  remove_eq (db : DB) (key : DatabaseKey) (batch : BonsaiDatabase.Batch DB) :
    ∃ old db' batch', BonsaiDatabase.remove db key (some batch) = (.ok old, db', some batch') ∧
      pending db' batch' = Function.update (pending db batch) key none
  removeByPrefix_eq (db : DB) (pre : DatabaseKey) :
    ∃ db', BonsaiDatabase.removeByPrefix db pre = (.ok (), db') ∧ columns db' = (columns db).clear pre
  writeBatch_eq (db : DB) (batch : BonsaiDatabase.Batch DB) :
    ∃ db', BonsaiDatabase.writeBatch db batch = (.ok (), db') ∧ columns db' = pending db batch

/-- Its writes answer with the value that was there, and leave the other keys as they are. -/
class AnswersOld (DB : Type) [BonsaiDatabase DB] [InfallibleDatabase DB] : Prop where
  insert_old {db db' : DB} {key : DatabaseKey} {value : ByteVec} {old : Option ByteVec}
    {batch batch' : BonsaiDatabase.Batch DB} :
    BonsaiDatabase.insert db key value (some batch) = (.ok old, db', some batch') →
      old = InfallibleDatabase.columns db key ∧
        ∀ k, k ≠ key → InfallibleDatabase.columns db' k = InfallibleDatabase.columns db k
  remove_old {db db' : DB} {key : DatabaseKey} {old : Option ByteVec} {batch batch' : BonsaiDatabase.Batch DB} :
    BonsaiDatabase.remove db key (some batch) = (.ok old, db', some batch') →
      old = InfallibleDatabase.columns db key ∧
        ∀ k, k ≠ key → InfallibleDatabase.columns db' k = InfallibleDatabase.columns db k

/-- Its snapshots leave the content as it is. -/
class InfallibleSnapshots (DB : Type) (ID T : outParam Type) [BonsaiDatabase DB] [InfallibleDatabase DB]
    [BonsaiPersistentDatabase DB ID T] : Prop where
  columns_snapshot (db : DB) (id : ID) :
    InfallibleDatabase.columns (BonsaiPersistentDatabase.snapshot db id) = InfallibleDatabase.columns db

namespace KeyValueDB

variable {DB ID : Type} [BonsaiDatabase DB] [InfallibleDatabase DB]

/-- The content of the database below. -/
def columns (kv : KeyValueDB DB ID) : Columns := InfallibleDatabase.columns kv.db

theorem get_ok (kv : KeyValueDB DB ID) (key : TrieKey) : kv.get key = .ok (kv.columns key.toDatabaseKey) := by
  rw [get, InfallibleDatabase.get_eq]; rfl

theorem contains_ok (kv : KeyValueDB DB ID) (key : TrieKey) :
    kv.contains key = .ok (kv.columns key.toDatabaseKey).isSome := by
  rw [contains, InfallibleDatabase.contains_eq]; rfl

end KeyValueDB

end Bonsai
