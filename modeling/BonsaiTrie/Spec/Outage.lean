import BonsaiTrie.Spec.LeafStore

/-!
# Databases whose writes may fail

A database of which any write may fail (`Failing`), commits attempted on it,
and what such a commit should amount to in the store of leaves: the whole
commit, or the loss of what was pending (`Outcome`).
-/

namespace Bonsai

/-- A database, and how its next writes go: they are made, or fail with an error. -/
structure Failing (DB : Type) [BonsaiDatabase DB] where
  inner : DB
  script : List (Option (BonsaiDatabase.DatabaseError DB))

namespace Failing

variable {DB α β : Type} [BonsaiDatabase DB]

/-- A write that fails and changes nothing, or is made. -/
def attempt (db : Failing DB) (call : DB → Except (BonsaiDatabase.DatabaseError DB) α × DB) :
    Except (BonsaiDatabase.DatabaseError DB) α × Failing DB :=
  match db.script.head?.join with
  | some e => (.error e, ⟨db.inner, db.script.tail⟩)
  | none =>
    let (r, inner) := call db.inner
    (r, ⟨inner, db.script.tail⟩)

/-- The same, through a batch. -/
def attemptWith (db : Failing DB) (batch : β) (call : DB → β → Except (BonsaiDatabase.DatabaseError DB) α × DB × β) :
    Except (BonsaiDatabase.DatabaseError DB) α × Failing DB × β :=
  match db.script.head?.join with
  | some e => (.error e, ⟨db.inner, db.script.tail⟩, batch)
  | none =>
    let (r, inner, batch) := call db.inner batch
    (r, ⟨inner, db.script.tail⟩, batch)

instance : BonsaiDatabase (Failing DB) where
  Batch := BonsaiDatabase.Batch DB
  DatabaseError := BonsaiDatabase.DatabaseError DB
  createBatch db := BonsaiDatabase.createBatch db.inner
  get db := BonsaiDatabase.get db.inner
  getByPrefix db := BonsaiDatabase.getByPrefix db.inner
  contains db := BonsaiDatabase.contains db.inner
  insert db key value batch := db.attemptWith batch fun inner => BonsaiDatabase.insert inner key value
  remove db key batch := db.attemptWith batch fun inner => BonsaiDatabase.remove inner key
  removeByPrefix db pre := db.attempt fun inner => BonsaiDatabase.removeByPrefix inner pre
  writeBatch db batch := db.attempt fun inner => BonsaiDatabase.writeBatch inner batch

end Failing

instance {DB ID T : Type} [BonsaiDatabase DB] [BonsaiPersistentDatabase DB ID T] : BonsaiPersistentDatabase (Failing DB) ID T where
  snapshot db id := { db with inner := BonsaiPersistentDatabase.snapshot db.inner id }
  transaction db id := BonsaiPersistentDatabase.transaction db.inner id

/-- Writes through a batch do not show before it is written. -/
class DefersWrites (DB : Type) [BonsaiDatabase DB] [InfallibleDatabase DB] : Prop where
  insert_columns {db db' : DB} {key : DatabaseKey} {value : ByteVec} {old : Option ByteVec}
    {batch batch' : BonsaiDatabase.Batch DB} :
    BonsaiDatabase.insert db key value (some batch) = (.ok old, db', some batch') →
      InfallibleDatabase.columns db' = InfallibleDatabase.columns db
  remove_columns {db db' : DB} {key : DatabaseKey} {old : Option ByteVec} {batch batch' : BonsaiDatabase.Batch DB} :
    BonsaiDatabase.remove db key (some batch) = (.ok old, db', some batch') →
      InfallibleDatabase.columns db' = InfallibleDatabase.columns db

section

variable {DB ID : Type} [BonsaiDatabase DB]

/-- The same storage, with writes that may fail. -/
def MerkleTrees.failing (script : List (Option (BonsaiDatabase.DatabaseError DB))) (st : MerkleTrees DB ID) :
    MerkleTrees (Failing DB) ID :=
  ⟨⟨⟨st.db.db, script⟩, st.db.currentChanges, st.db.config, st.db.createdAt⟩, st.trees, st.maxHeight⟩

/-- The database below. -/
def KeyValueDB.repaired (kv : KeyValueDB (Failing DB) ID) : KeyValueDB DB ID :=
  ⟨kv.db.inner, kv.currentChanges, kv.config, kv.createdAt⟩

/-- The same storage, with writes that do not fail. -/
def MerkleTrees.repaired (st : MerkleTrees (Failing DB) ID) : MerkleTrees DB ID := ⟨st.db.repaired, st.trees, st.maxHeight⟩

/-- A commit, with writes that may fail. -/
def commitFailing [FeltCodec] [Id ID] {T : Type} [BonsaiPersistentDatabase DB ID T] (H : StarkHash)
    (script : List (Option (BonsaiDatabase.DatabaseError DB))) (ords : HashOrders) (logOrd : HashOrder) (id : ID) :
    MerkleTrees.M DB ID Unit := fun st =>
  match (BonsaiStorage.commit H ords logOrd id : MerkleTrees.M (Failing DB) ID Unit) (st.failing script) with
  | .ok () st => .ok () st.repaired
  | .error e st => .error e st.repaired

variable (DB)

/-- A request, or a commit that may fail. -/
inductive Work where
  | request (r : Request BasicId)
  | attempt (script : List (Option (BonsaiDatabase.DatabaseError DB))) (ords : HashOrders) (logOrd : HashOrder) (id : BasicId)

variable {DB} in
/-- The keys that are written are stored from the first bit of a byte. -/
def Work.Aligned : Work DB → Prop
  | request r => r.Aligned
  | attempt _ _ _ _ => True

/-- What an attempt amounts to. -/
inductive Outcome where
  | committed
  | rolledBack

variable {DB} [FeltCodec] {T : Type} [BonsaiPersistentDatabase DB BasicId T]

/-- The request or attempt. -/
def Work.run (H : StarkHash) : Work DB → MerkleTrees.M DB BasicId (Option Felt)
  | request r => Request.run H r
  | attempt script ords logOrd id => do
    commitFailing H script ords logOrd id
    return none

/-- The same for the store of leaves: an attempt commits, or what was pending is lost. -/
noncomputable def Work.ideal (n : Nat) (H : StarkHash) : Work DB × Outcome → EStateM Refusal LeafStore (Option Felt)
  | (request r, _) => LeafStore.request n H r
  | (attempt _ ords logOrd id, .committed) => LeafStore.request n H (.commit ords logOrd id)
  | (attempt _ _ _ _, .rolledBack) => fun l => .ok none { l with leaves := l.committed }

/-- Requests are answered as the store answers them. An attempt that returns has committed, and one that fails, with an error
of the database, has done either. -/
def Work.Explains {E : Type} : Work DB × Outcome → Except (Failure E) (Option Felt) → Except Refusal (Option Felt) → Prop
  | (request _, _), a, a' => a = a'.mapError Refusal.failure
  | (attempt _ _ _ _, .committed), a, a' => a = a'.mapError Refusal.failure ∨ ∃ e, a = .error (.error (.database e))
  | (attempt _ _ _ _, .rolledBack), a, _ => ∃ e, a = .error (.error (.database e))

end

end Bonsai
