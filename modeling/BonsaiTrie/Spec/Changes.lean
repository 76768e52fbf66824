import BonsaiTrie.Impl.HashMapDb
import BonsaiTrie.Impl.Storage

/-!
# What change batches are for

The changes that change a value (`ChangeBatch.effective`), which are what a log
should give back; entries in an order in which a value is lost (`TornLog`); and
what a recorder should hold after some writes (`KeyValueDB.Composes`), with the
database that its old values are written back to.
-/

namespace Bonsai

namespace ChangeBatch

/-- The changes of a batch whose old and new values differ. -/
def effective (batch : ChangeBatch) (key : TrieKey) : Option Change :=
  (batch.lookup key).filter fun change => change.oldValue ≠ change.newValue

/-- The old value of a key is read after its new one, and not right after it. -/
def TornLog {ID : Type} [Id ID] (id : ID) (entries : List (ByteVec × ByteVec)) : Prop :=
  ∃ (key : TrieKey) (new old : ByteVec) (l₁ l₂ l₃ : List (ByteVec × ByteVec)),
    l₂ ≠ [] ∧ entries = l₁ ++ (keyNewValue id key, new) :: (l₂ ++ (keyOldValue id key, old) :: l₃)

end ChangeBatch

namespace KeyValueDB

variable {ID : Type}

/-- Writes, one after the other. -/
def writes (ws : List (TrieKey × InsertOrRemove ByteVec)) : KeyValueDB.M (HashMapDb ID) ID Unit :=
  ws.forM fun (key, value) => MerkleTrees.applyUpdate key value

/-- The recorder holds, for the keys that were written, the values before and after. -/
def Composes (before after : KeyValueDB (HashMapDb ID) ID) (ws : List (TrieKey × InsertOrRemove ByteVec)) : Prop :=
  ∀ key : TrieKey, after.currentChanges.lookup key =
    if key ∈ ws.map Prod.fst then
      some ⟨before.db.get key.toDatabaseKey, after.db.get key.toDatabaseKey⟩
    else none

/-- The database with the old values written back. -/
def writtenBack (kv : KeyValueDB (HashMapDb ID) ID) (ord : HashOrder) : HashMapDb ID :=
  (kv.currentChanges.iter ord).foldl (fun db (key, change) =>
    match change.oldValue with
    | some old => (db.insert key.toDatabaseKey old).2
    | none => (db.remove key.toDatabaseKey).2) kv.db

/-- A key that was not in the database is inserted, and written again. -/
def Rewrites (before : KeyValueDB (HashMapDb ID) ID) (ws : List (TrieKey × InsertOrRemove ByteVec)) : Prop :=
  ∃ key value ws₁ ws₂, before.db.get key.toDatabaseKey = none ∧
    ws = ws₁ ++ (key, .insert value) :: ws₂ ∧ key ∈ ws₂.map Prod.fst

end KeyValueDB

end Bonsai
