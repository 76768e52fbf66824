import BonsaiTrie.Framework.Journal
import BonsaiTrie.Impl.HashMapDb
import BonsaiTrie.Spec.Infallible
import BonsaiTrie.Spec.Leaves
import BonsaiTrie.Spec.Requests
import Mathlib.Data.List.DropRight

/-!
# The history of a run

The commits of a run with the contents before and after each
(`Request.history`), what the log of a commit has entries of
(`Commit.HasEntry`), which logs and snapshots of the commits there are
(`Logged`, `SnapshotsOf`), and the ids that a builder gives the commits
(`newIds`).
-/

namespace Bonsai

/-- The nodes and leaves of a content. -/
def Columns.tries (cols : Columns) (key : TrieKey) : Option ByteVec := cols key.toDatabaseKey

/-- A commit of a run: its id, and the contents before and after it. -/
structure Commit (ID : Type) where
  id : ID
  before : Columns
  after : Columns

namespace Commit

variable {ID : Type} [Id ID]

/-- What the commit did to a key. -/
def change (c : Commit ID) (key : TrieKey) : Change := ⟨c.before.tries key, c.after.tries key⟩

/-- An entry of the log of the commit. -/
def HasEntry (c : Commit ID) (b v : ByteVec) : Prop := ∃ key, (b, v) ∈ ChangeBatch.serializeChange c.id key (c.change key)

/-- A content with the changes of a commit undone. -/
def undo (c : Commit ID) (tries : TrieKey → Option ByteVec) : TrieKey → Option ByteVec :=
  Journal.undo c.before.tries c.after.tries tries

end Commit

namespace Request

/-- The id of a commit. -/
def commitId {ID : Type} : Request ID → Option ID
  | set _ _ => none
  | get _ => none
  | getMultiProof _ => none
  | commit _ _ id => some id

/-- What a request does to the leaves: a key of another length is refused. -/
def leaves {ID : Type} (n : Nat) (s : Leaves) : Request ID → Leaves
  | set key value => if key.len = n then s.set key.bits value else s
  | get _ => s
  | getMultiProof _ => s
  | commit _ _ _ => s.commit

variable [FeltCodec] {DB ID T : Type} [BonsaiDatabase DB] [InfallibleDatabase DB] [Id ID] [BonsaiPersistentDatabase DB ID T]

/-- The commits of a run, the first one first. -/
def history (H : StarkHash) : List (Request ID) → BonsaiStorage DB ID → List (Commit ID)
  | [], _ => []
  | r :: rs, st =>
    (r.commitId.toList.map fun id => ⟨id, st.db.columns, (Trace.next (run H) r st).db.columns⟩) ++
      history H rs (Trace.next (run H) r st)

end Request

/-- The log of a commit stays after later ones: none of them is exactly as many ids later as logs are saved. -/
def KeyValueDBConfig.KeepsLog (config : KeyValueDBConfig) (id : BasicId) (later : List BasicId) : Prop :=
  ∀ n, config.maxSavedTrieLogs = some n → n ≠ 0 ∧ ∀ id' ∈ later, id'.toNat ≠ id.toNat + n.toNat

/-- A commit takes a snapshot. -/
def KeyValueDBConfig.TakesSnapshot (config : KeyValueDBConfig) (id : BasicId) : Prop :=
  config.snapshotInterval ≠ 0 ∧ id % config.snapshotInterval = 0

instance (config : KeyValueDBConfig) (id : BasicId) : Decidable (config.TakesSnapshot id) :=
  inferInstanceAs (Decidable (_ ∧ _))

/-- A commit of a history whose log stays. -/
def KeyValueDBConfig.Logged (config : KeyValueDBConfig) (history : List (Commit BasicId)) (c : Commit BasicId) : Prop :=
  ∃ earlier later, history = earlier ++ c :: later ∧ config.KeepsLog c.id (later.map Commit.id)

/-- The last commits, as many as logs are saved. -/
def KeyValueDBConfig.lastCommits (config : KeyValueDBConfig) (history : List (Commit BasicId)) : List (Commit BasicId) :=
  match config.maxSavedTrieLogs with
  | none => history
  | some n => history.rtake n.toNat

/-- As many ids as are asked for, one after the other. -/
def BasicIdBuilder.newIds {E : Type} : Nat → EStateM (Failure E) BasicIdBuilder (List BasicId)
  | 0 => return []
  | k + 1 => do
    let id ← newId
    let ids ← newIds k
    return id :: ids

/-- A new storage in memory. -/
def BonsaiStorage.newInMemory (config : BonsaiStorageConfig) (m : UInt8) : BonsaiStorage (HashMapDb BasicId) BasicId :=
  .new .empty config m

/-- The keys increase. -/
def BTreeMap.Sorted {K V : Type} [LT K] (m : BTreeMap K V) : Prop := m.Pairwise fun e e' => e.1 < e'.1

/-- The entries of the greatest keys, as many as there may be. -/
def BTreeMap.latest {K V : Type} (limit : Option Nat) (m : BTreeMap K V) : BTreeMap K V :=
  match limit with
  | none => m
  | some k => m.rtake k

/-- No write through a batch, or of one, touches a part of the database. -/
structure Unwritten {DB α : Type} [BonsaiDatabase DB] (f : DB → α) : Prop where
  insert : ∀ db key value batch, f (BonsaiDatabase.insert db key value batch).2.1 = f db
  remove : ∀ db key batch, f (BonsaiDatabase.remove db key batch).2.1 = f db
  removeByPrefix : ∀ db pre, f (BonsaiDatabase.removeByPrefix db pre).2 = f db
  writeBatch : ∀ db batch, f (BonsaiDatabase.writeBatch db batch).2 = f db

/-- A database whose writes through a batch all succeed; its scans may list anything. -/
class BatchWrites (T : Type) [BonsaiDatabase T] where
  columns : T → Columns
  pending : T → BonsaiDatabase.Batch T → Columns
  pending_createBatch (txn : T) : pending txn (BonsaiDatabase.createBatch txn) = columns txn
  insert_eq (txn : T) (key : DatabaseKey) (value : ByteVec) (batch : BonsaiDatabase.Batch T) :
    ∃ old txn' batch', BonsaiDatabase.insert txn key value (some batch) = (.ok old, txn', some batch') ∧
      pending txn' batch' = Function.update (pending txn batch) key (some value)
  remove_eq (txn : T) (key : DatabaseKey) (batch : BonsaiDatabase.Batch T) :
    ∃ old txn' batch', BonsaiDatabase.remove txn key (some batch) = (.ok old, txn', some batch') ∧
      pending txn' batch' = Function.update (pending txn batch) key none
  writeBatch_eq (txn : T) (batch : BonsaiDatabase.Batch T) :
    ∃ txn', BonsaiDatabase.writeBatch txn batch = (.ok (), txn') ∧ columns txn' = pending txn batch

instance (T : Type) [BonsaiDatabase T] [InfallibleDatabase T] : BatchWrites T where
  columns := InfallibleDatabase.columns
  pending := InfallibleDatabase.pending
  pending_createBatch := InfallibleDatabase.pending_createBatch
  insert_eq := InfallibleDatabase.insert_eq
  remove_eq := InfallibleDatabase.remove_eq
  writeBatch_eq := InfallibleDatabase.writeBatch_eq

/-- A backend that keeps snapshots by id, the latest ones if there is a limit, and opens transactions on them. -/
class KeepsSnapshots (DB : Type) (T : outParam Type) [BonsaiDatabase DB] [InfallibleDatabase DB]
    [BonsaiPersistentDatabase DB BasicId T] [BonsaiDatabase T] [BatchWrites T] where
  snapshots : DB → BTreeMap BasicId Columns
  limit : DB → Option Nat
  unwritten : Unwritten fun db => (snapshots db, limit db)
  snapshots_snapshot (db : DB) (id : BasicId) : snapshots (BonsaiPersistentDatabase.snapshot db id) =
    BTreeMap.latest (limit db) (BTreeMap.insert id (InfallibleDatabase.columns db) (snapshots db))
  limit_snapshot (db : DB) (id : BasicId) : limit (BonsaiPersistentDatabase.snapshot db id) = limit db
  transaction_eq (db : DB) (id : BasicId) : (BonsaiPersistentDatabase.transaction db id).map
    (fun e : BasicId × T => (e.1, BatchWrites.columns e.2)) = BTreeMap.rangeToNext (snapshots db) id

/-- The snapshots are those of the commits that take one, each with the content right after its commit, or the ones of the
greatest ids among them. -/
def KeyValueDBConfig.SnapshotsOf (config : KeyValueDBConfig) (limit : Option Nat) (history : List (Commit BasicId))
    (snapshots : BTreeMap BasicId Columns) : Prop :=
  ∃ taken : BTreeMap BasicId Columns, taken.Sorted ∧
    taken.Perm ((history.filter fun c => config.TakesSnapshot c.id).map fun c => (c.id, c.after)) ∧
    snapshots = taken.latest limit

/-- What a transactional state for an id is made from and has: the content right after the commit with the least id
that has a snapshot, if that is below the id, but for the keys that commits from that one on and below the id have
changed: these are as they were before the last such commit whose log is kept. -/
structure KeyValueDBConfig.TransactionOf (config : KeyValueDBConfig) (history : List (Commit BasicId))
    (snapshots : BTreeMap BasicId Columns) (id : BasicId) (cols : Columns) (base : Commit BasicId) : Prop where
  mem : base ∈ history
  kept : (base.id, base.after) ∈ snapshots
  below : base.id < id
  least : ∀ e ∈ snapshots, ¬ e.1 < base.id
  unchanged : ∀ key, (∀ c, config.Logged history c → ¬ c.id < base.id → c.id < id → c.before.tries key = c.after.tries key) →
    cols.tries key = base.after.tries key
  changed : ∀ key c, config.Logged history c → ¬ c.id < base.id → c.id < id → c.before.tries key ≠ c.after.tries key →
    (∀ c', config.Logged history c' → c.id < c'.id → c'.id < id → c'.before.tries key = c'.after.tries key) →
    cols.tries key = c.before.tries key

end Bonsai
