import BonsaiTrie.Impl.MultiProof
import BonsaiTrie.Framework.Trace

/-!
# The walk of a verification

The way a verification goes through a multi-proof, said without its state:
from a felt at a path of the key, through the node the felt is the hash of, to
the felt of a child. `Classified` says how the verification of a key should
end, by what the walk reaches.
-/

namespace Bonsai

open Relation

namespace MultiProof

variable (proof : MultiProof) (H : StarkHash) (k : Path)

/-- One step of the walk to a key. -/
def walkStep : Path × Felt → Option (Path × Felt)
  | (p, felt) =>
    if k.length ≤ p.length then none
    else match proof.lookup felt with
      | none => none
      | some node =>
        if node.hash H ≠ some felt then none
        else match node with
          | .binary left right => k[p.length]?.map fun bit => (p ++ [bit], if bit then right else left)
          | .edge child path => if p ++ path <+: k then some (p ++ path, child) else none

/-- The walk reaches a felt at a path. -/
def Reached (root : Felt) (p : Path) (felt : Felt) : Prop :=
  ReflTransGen (fun a b => walkStep proof H k a = some b) ([], root) (p, felt)

/-- The felt of a node of the map, and one of its children. -/
def Link (felt child : Felt) : Prop := ∃ node, proof.lookup felt = some node ∧ node.hash H = some felt ∧
  match node with
  | .binary left right => child = left ∨ child = right
  | .edge c _ => child = c

/-- No chain of the node hashes of the map is a cycle. -/
def Acyclic : Prop := ∀ felt, ¬ TransGen (Link proof H) felt felt

/-- The walk reaches a node that is in the map: at `p`, under `felt`. -/
def ReachedNode (root : Felt) (p : Path) (felt : Felt) (node : ProofNode) : Prop :=
  Reached proof H k root p felt ∧ p.length < k.length ∧ proof.lookup felt = some node

/-- A node that is reached does not hash to its felt. -/
def ReachesMismatch (root : Felt) : Prop :=
  ∃ p felt node hash, ReachedNode proof H k root p felt node ∧ node.hash H = some hash ∧ hash ≠ felt

/-- A felt is reached that is not zero and has no node. -/
def ReachesMissing (root : Felt) : Prop :=
  ∃ p felt, Reached proof H k root p felt ∧ p.length < k.length ∧ proof.lookup felt = none ∧ felt ≠ 0

/-- An edge is reached, with the right hash or too long to have one, that goes past the height of the tree. -/
def ReachesOverlong (root : Felt) : Prop :=
  ∃ p felt child path, ReachedNode proof H k root p felt (.edge child path) ∧
    (hashEdgeNode H path child = some felt ∨ hashEdgeNode H path child = none) ∧ k.length < p.length + path.length

/-- An edge is reached, with the right hash, that leaves the key within the height of the tree. -/
def ReachesDivergence (root : Felt) : Prop :=
  ∃ p felt child path, ReachedNode proof H k root p felt (.edge child path) ∧
    hashEdgeNode H path child = some felt ∧ p.length + path.length ≤ k.length ∧ ¬ p ++ path <+: k

/-- How the verification of a key should end: with a value or an error, by what its walk reaches. -/
structure Classified (root : Felt) (result : Except VerifyFailure Felt) : Prop where
  returns : (∃ v, result = .ok v) ∨ ∃ e, result = .error (.error e)
  empty : root = 0 → result = .ok 0
  hashMismatch : root ≠ 0 →
    ((∃ p expected got, result = .error (.error (.hashMismatch p expected got))) ↔ ReachesMismatch proof H k root)
  missingNode : root ≠ 0 →
    ((∃ p hash, result = .error (.error (.missingNode p hash))) ↔ ReachesMissing proof H k root)
  overshot : root ≠ 0 →
    ((∃ p height, result = .error (.error (.overshot p height))) ↔ ReachesOverlong proof H k root)
  divergence : root ≠ 0 → ReachesDivergence proof H k root → result = .ok 0
  value : root ≠ 0 → ∀ felt, Reached proof H k root k felt → result = .ok felt

/-- What the verification of a key returns after that of others. -/
def resultOf (root : Felt) (treeHeight : UInt8) (before : List Path) : Except VerifyFailure Felt :=
  Trace.answer (verifyKey proof H root treeHeight) k (Trace.after (verifyKey proof H root treeHeight) before ⟨∅, []⟩)

end MultiProof

end Bonsai
