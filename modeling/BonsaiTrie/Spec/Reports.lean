import BonsaiTrie.Spec.Requests

/-!
# What `root_hash` reports

The root hash of the latest commit of a run (`Request.latestRoot`), and the
requests after which `root_hash` still returns it or refuses to answer
(`Request.KeepsRoot`): a removal of the last key puts an empty root in its
place, and a proof of a tree with uncommitted changes hashes the root.
-/

namespace Bonsai

/-- What `root_hash` returns while the root has no hash. -/
def uncommitted {E : Type} : Except (Failure E) Felt := .error (.error (.trie "The tree has uncommited changes"))

/-- The root hash of the tree in the database, as one that is opened anew has it. -/
def BonsaiStorage.storedRoot [FeltCodec] {DB ID : Type} [BonsaiDatabase DB] (st : BonsaiStorage DB ID) :
    Except (Failure (BonsaiDatabase.DatabaseError DB)) Felt :=
  MerkleTree.rootHash st.db (MerkleTree.new [] st.maxHeight)

namespace Request

/-- A commit. -/
def isCommit {ID : Type} : Request ID → Bool
  | commit _ _ _ => true
  | _ => false

variable [FeltCodec] {DB ID T : Type} [BonsaiDatabase DB]

/-- What `root_hash` returned right after the latest commit of a run, `latest` if there was none. -/
def latestRoot [Id ID] [BonsaiPersistentDatabase DB ID T] (H : StarkHash) :
    List (Request ID) → BonsaiStorage DB ID → Except (Failure (BonsaiDatabase.DatabaseError DB)) Felt →
      Except (Failure (BonsaiDatabase.DatabaseError DB)) Felt
  | [], _, latest => latest
  | r :: rs, st, latest =>
    latestRoot H rs (Trace.next (run H) r st)
      (if r.isCommit then BonsaiStorage.rootHash (Trace.next (run H) r st) [] else latest)

/-- A removal leaves another key, or the latest root is zero as that of an empty tree; a proof that walks finds
a root hash. -/
def KeepsRoot (st : BonsaiStorage DB ID) : Request ID → Prop
  | set key value => value = 0 → key.len = (st.treeOf []).maxHeight.toNat → (∃ v, BonsaiStorage.get st [] key = .ok (some v)) →
    BonsaiStorage.storedRoot st = .ok 0 ∨
      ∃ other : BitSlice, other.head = key.head ∧ other.bits ≠ key.bits ∧ other.len = key.len ∧
        ∃ v, BonsaiStorage.get st [] other = .ok (some v)
  | get _ => True
  | getMultiProof keys =>
    ∀ key, keys.head? = some key → key.len = (st.treeOf []).maxHeight.toNat → ∃ h, BonsaiStorage.rootHash st [] = .ok h
  | commit _ _ _ => True

end Request

end Bonsai
