import BonsaiTrie.Proof.HashMapDb
import BonsaiTrie.Proof.Overlay
import BonsaiTrie.Spec.History
import BonsaiTrie.Spec.Runs

/-!
# A store of leaves

What the storage is for, said without trees in memory, backends or orders of
iteration: leaves with pending changes over a database whose nodes and leaves
are determined by the leaves committed last (`Leaves.tries`), and whose logs by
the commits (`LeafStore.logOf`). A storage that is made anew over the database
of another one has the committed leaves (`Turn.restart`).
-/

namespace Bonsai

open Patricia

open Classical in
/-- The nodes and leaves that stand in the database for committed leaves: those of their canonical trie, each node
under its path and with the hashes of its children, and each leaf under its key. -/
noncomputable def Leaves.tries [FeltCodec] (H : StarkHash) (n : Nat) (s : Leaves) : TrieKey → Option ByteVec
  | .trie b =>
    if h : ∃ p : Path, p.length < n ∧ b = p.encode then
      ((ofMap n s.trie).bind (·.sub h.choose)).bind (storedBytes H h.choose.length)
    else none
  | .flat b =>
    if h : ∃ k : Path, k.length = n ∧ b = bitsliceToBytes (.aligned k) then (s.flat h.choose).map FeltCodec.encode else none

open Classical in
/-- The value that is read at the bytes of a key: bytes that are those of no key of `n` bits have none. -/
noncomputable def Leaves.read (n : Nat) (s : Leaves) (b : ByteVec) : Option Felt :=
  if h : ∃ k : Path, k.length = n ∧ b = bitsliceToBytes (.aligned k) then s.get h.choose else none

/-- Why a request is refused. -/
inductive Refusal where
  | keyLength (expected got : Nat)
  | zeroInterval
  deriving DecidableEq, Repr

/-- The refusal, as it is reported over any backend. -/
def Refusal.failure {E : Type} : Refusal → Failure E
  | keyLength expected got => .error (.keyLength expected got)
  | zeroInterval => .panic "attempt to calculate the remainder with a divisor of zero"

/-- What a request is answered. -/
noncomputable def Request.answer {ID : Type} (n : Nat) (s : Leaves) (config : KeyValueDBConfig) :
    Request ID → Except Refusal (Option Felt)
  | set key _ => if key.len = n then .ok none else .error (.keyLength n key.len)
  | get key => .ok (s.read n (bitsliceToBytes key))
  | getMultiProof keys =>
    match keys.find? fun key => key.len ≠ n with
    | none => .ok none
    | some key => .error (.keyLength n key.len)
  | commit _ _ _ => if config.snapshotInterval = 0 then .error .zeroInterval else .ok none

/-- A request, a commit without a snapshot, or a storage made anew over a database. -/
inductive Turn (DB : Type) where
  | request (r : Request BasicId)
  | transactionalCommit (ords : HashOrders) (logOrd : HashOrder) (id : BasicId)
  | restart (db : DB) (config : BonsaiStorageConfig)

namespace Turn

variable {DB : Type}

/-- The keys that are written are stored from the first bit of a byte, and the database of a new storage has the content of
that of the old one. -/
def Sound [BonsaiDatabase DB] [InfallibleDatabase DB] (st : BonsaiStorage DB BasicId) : Turn DB → Prop
  | request r => r.Aligned
  | transactionalCommit _ _ _ => True
  | restart db _ => InfallibleDatabase.columns db = st.db.columns

/-- The turn, for keys of `m` bits. -/
def run [FeltCodec] {T : Type} [BonsaiDatabase DB] [BonsaiPersistentDatabase DB BasicId T] (H : StarkHash) (m : UInt8) :
    Turn DB → MerkleTrees.M DB BasicId (Option Felt)
  | request r => Request.run H r
  | transactionalCommit ords logOrd id => do
    BonsaiStorage.transactionalCommit H ords logOrd id
    return none
  | restart db config => fun _ => .ok none (BonsaiStorage.new db config m)

/-- No other value is pending for a key that is written, either. -/
def Tracked [BonsaiDatabase DB] [InfallibleDatabase DB] (n : Nat) (st : BonsaiStorage DB BasicId) : Turn DB → Prop
  | request (.set key value) => key.head.val = 0 ∧
    (key.len = n → value ≠ 0 → ∀ old, pendingOf st [] key = some (.insert old) → old = value)
  | request _ => True
  | transactionalCommit _ _ _ => True
  | restart db _ => InfallibleDatabase.columns db = st.db.columns

end Turn

/-- The bytes belong to the log that a commit removes. -/
def KeyValueDBConfig.Prunes (config : KeyValueDBConfig) (id : BasicId) (b : ByteVec) : Prop :=
  ∃ k, config.maxSavedTrieLogs = some k ∧ ∃ old : BasicId, id.toNat = old.toNat + k.toNat ∧ Id.toBytes old <+: b

/-- The leaves, those committed last, the content of the database, and the configuration. -/
structure LeafStore where
  leaves : Leaves
  committed : Leaves
  columns : Columns
  config : KeyValueDBConfig

namespace LeafStore

/-- A store of nothing. -/
def empty (config : KeyValueDBConfig) : LeafStore := ⟨.empty, .empty, fun _ => none, config⟩

variable (n : Nat) (l : LeafStore)

open Classical in
/-- The log column after a commit: an old log is pruned, and the entries of the commit are put in it. -/
noncomputable def logOf (c : Commit BasicId) (b : ByteVec) : Option ByteVec :=
  if l.config.maxSavedTrieLogs = some 0 then l.columns (.trieLog b)
  else if l.config.Prunes c.id b then none
  else if h : ∃ v, c.HasEntry b v then some h.choose
  else l.columns (.trieLog b)

variable [FeltCodec] (H : StarkHash)

/-- The content after a commit, but for the log. -/
noncomputable def written : Columns
  | .trie b => l.leaves.commit.tries H n (.trie b)
  | .flat b => l.leaves.commit.tries H n (.flat b)
  | .trieLog b => l.columns (.trieLog b)

/-- The content after a commit. -/
noncomputable def logged (id : BasicId) : Columns
  | .trieLog b => l.logOf ⟨id, l.columns, l.written n H⟩ b
  | key => l.written n H key

/-- The store after a request. -/
noncomputable def next (r : Request BasicId) : LeafStore :=
  match r with
  | .commit _ _ id => { l with leaves := l.leaves.commit, committed := l.leaves.commit, columns := l.logged n H id }
  | r => { l with leaves := r.leaves n l.leaves }

/-- A request to the store. -/
noncomputable def request (r : Request BasicId) : EStateM Refusal LeafStore (Option Felt) := fun l =>
  Run.leaving (r.answer n l.leaves l.config) (l.next n H r)

/-- A turn of the store: a new storage has the committed leaves. -/
noncomputable def run {DB : Type} : Turn DB → EStateM Refusal LeafStore (Option Felt)
  | .request r => request n H r
  | .transactionalCommit ords logOrd id => fun l => .ok none (l.next n H (.commit ords logOrd id))
  | .restart _ config => fun l => .ok none { l with leaves := l.committed, config := config }

end LeafStore

end Bonsai
