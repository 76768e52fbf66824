import BonsaiTrie.Impl.Storage
import BonsaiTrie.Spec.Leaves
import BonsaiTrie.Spec.Stray

/-!
# Runs

The calls that change a storage, and the states a run of them goes through. A
run goes on after a call that failed, from the state it left.
-/

namespace Bonsai

/-- A call that changes a storage. -/
inductive Op (ID : Type) where
  | insert (identifier : ByteVec) (key : BitSlice) (value : Felt)
  | remove (identifier : ByteVec) (key : BitSlice)
  | commit (ords : HashOrders) (logOrd : HashOrder) (id : ID)

section

variable [FeltCodec] {DB ID T : Type} [BonsaiDatabase DB] [Id ID] [BonsaiPersistentDatabase DB ID T]

/-- The call. -/
def Op.run (H : StarkHash) : Op ID → MerkleTrees.M DB ID Unit
  | .insert identifier key value => BonsaiStorage.insert identifier key value
  | .remove identifier key => BonsaiStorage.remove identifier key
  | .commit ords logOrd id => BonsaiStorage.commit H ords logOrd id

/-- What the call returns. -/
def Op.result (H : StarkHash) (op : Op ID) (st : BonsaiStorage DB ID) :
    Except (Failure (BonsaiDatabase.DatabaseError DB)) Unit :=
  match op.run H st with
  | .ok () _ => .ok ()
  | .error e _ => .error e

/-- The state the call leaves. -/
def Op.after (H : StarkHash) (op : Op ID) (st : BonsaiStorage DB ID) : BonsaiStorage DB ID :=
  match op.run H st with
  | .ok () st => st
  | .error _ st => st

/-- The state a run leaves. -/
def after (H : StarkHash) (ops : List (Op ID)) (st : BonsaiStorage DB ID) : BonsaiStorage DB ID :=
  ops.foldl (fun st op => op.after H st) st

/-- What the calls of a run return. -/
def results (H : StarkHash) : List (Op ID) → BonsaiStorage DB ID →
    List (Except (Failure (BonsaiDatabase.DatabaseError DB)) Unit)
  | [], _ => []
  | op :: ops, st => op.result H st :: results H ops (op.after H st)

/-- Every step of a run meets a condition on the state before it. -/
def Meets (cond : BonsaiStorage DB ID → Op ID → Prop) (H : StarkHash) : List (Op ID) → BonsaiStorage DB ID → Prop
  | [], _ => True
  | op :: ops, st => cond st op ∧ Meets cond H ops (op.after H st)

variable {H : StarkHash} {op : Op ID} {ops : List (Op ID)} {st st' : BonsaiStorage DB ID}

@[simp] theorem after_nil : after H ([] : List (Op ID)) st = st := rfl

@[simp] theorem after_cons : after H (op :: ops) st = after H ops (op.after H st) := rfl

theorem after_append (ops' : List (Op ID)) : after H (ops ++ ops') st = after H ops' (after H ops st) :=
  List.foldl_append

theorem Op.after_ok (h : op.run H st = .ok () st') : op.after H st = st' := by rw [Op.after, h]

theorem Op.result_ok (h : op.run H st = .ok () st') : op.result H st = .ok () := by rw [Op.result, h]

theorem Op.after_error {e : Failure (BonsaiDatabase.DatabaseError DB)} (h : op.run H st = .error e st') :
    op.after H st = st' := by rw [Op.after, h]

theorem Op.result_error {e : Failure (BonsaiDatabase.DatabaseError DB)} (h : op.run H st = .error e st') :
    op.result H st = .error e := by rw [Op.result, h]

theorem Meets.append {cond : BonsaiStorage DB ID → Op ID → Prop} {ops' : List (Op ID)} :
    Meets cond H (ops ++ ops') st ↔ Meets cond H ops st ∧ Meets cond H ops' (after H ops st) := by
  induction ops generalizing st with
  | nil => simp [Meets]
  | cons op ops ih => rw [List.cons_append, Meets, Meets, ih, and_assoc]; rfl

/-- What the condition says of the calls alone. -/
theorem Meets.forall_mem {cond : BonsaiStorage DB ID → Op ID → Prop} {Q : Op ID → Prop}
    (hQ : ∀ st op, cond st op → Q op) (h : Meets cond H ops st) : ∀ op ∈ ops, Q op := by
  induction ops generalizing st with
  | nil => simp
  | cons op ops ih => exact List.forall_mem_cons.mpr ⟨hQ st op h.1, ih h.2⟩

end

/-- What `get` finds in a tree, at the keys that start at bit `o`. -/
def contentOf [FeltCodec] {DB ID : Type} [BonsaiDatabase DB] (st : BonsaiStorage DB ID) (identifier : ByteVec)
    (o : Fin 8) (key : Path) : Option Felt :=
  match BonsaiStorage.get st identifier ⟨o, key⟩ with
  | .ok value => value
  | .error _ => none

/-- The change of a key that is pending in its tree. -/
def pendingOf {DB ID : Type} [BonsaiDatabase DB] (st : BonsaiStorage DB ID) (identifier : ByteVec) (key : BitSlice) :
    Option (InsertOrRemove Felt) :=
  (st.treeOf identifier).cacheLeafModified.lookup (bitsliceToBytes key)

/-- No tree has a node of another on its death row. -/
def NoIntrusion [FeltCodec] {DB ID : Type} [BonsaiDatabase DB] (n : Nat) (o : Fin 8) (S : Set ByteVec)
    (st : BonsaiStorage DB ID) : Prop :=
  ∀ Y tree, st.trees.lookup Y = some tree → ∀ X ∈ S, X ≠ Y →
    ∀ t p, Patricia.ofMap n (contentOf st X o) = some t → t.HasNode p →
      tree.deathRow.lookup (.trie (X ++ Path.encode p)) = none

/-- What a call does to the leaves of the trees: a key of another length is refused. -/
def Op.leaves {ID : Type} (n : Nat) (L : ByteVec → Leaves) : Op ID → ByteVec → Leaves
  | .insert identifier key value =>
    if key.len = n then Function.update L identifier ((L identifier).set key.bits value) else L
  | .remove identifier key =>
    if key.len = n then Function.update L identifier ((L identifier).set key.bits 0) else L
  | .commit _ _ _ => fun identifier => (L identifier).commit

/-- What it returns. -/
def Op.answer {E ID : Type} (n : Nat) : Op ID → Except (Failure E) Unit
  | .insert _ key _ | .remove _ key => if key.len = n then .ok () else .error (.error (.keyLength n key.len))
  | .commit _ _ _ => .ok ()

/-- The calls that keep the trees apart: on the identifiers of `S`, with keys that start at bit `o`;
a split marks no other node, and a commit removes no node of another tree and does not panic. -/
def Op.Clean [FeltCodec] {DB ID : Type} [BonsaiDatabase DB] (n : Nat) (o : Fin 8) (S : Set ByteVec)
    (st : BonsaiStorage DB ID) : Op ID → Prop
  | .insert identifier key value => identifier ∈ S ∧ key.head = o ∧
    (key.len = n → value ≠ 0 → ∀ t, Patricia.ofMap n (contentOf st identifier o) = some t → NoStray identifier t key)
  | .remove identifier key => identifier ∈ S ∧ key.head = o
  | .commit _ _ _ => NoIntrusion n o S st ∧ st.db.config.snapshotInterval ≠ 0

end Bonsai
