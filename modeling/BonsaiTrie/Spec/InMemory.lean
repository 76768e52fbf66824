import BonsaiTrie.Impl.Commit

/-!
# The in-memory part of a tree

The nodes in memory below a handle, as a tree that ends at hashes
(`InMemory`), its hash, and what a commit should write of it (`written`): every
node under its path, after those below it, with their hashes in their place.
-/

namespace Bonsai

/-- What a handle leads to in memory. -/
inductive InMemory where
  | hash (felt : Felt)
  | binary (key : NodeKey) (memo : Option Felt) (height : Nat) (left right : InMemory)
  | edge (key : NodeKey) (memo : Option Felt) (height : Nat) (path : Path) (child : InMemory)

namespace InMemory

/-- The handle. -/
def handle : InMemory → NodeHandle
  | hash felt => .hash felt
  | binary key _ _ _ _ | edge key _ _ _ _ => .inMemory key

/-- The keys of the nodes. -/
def keys : InMemory → List NodeKey
  | hash _ => []
  | binary key _ _ left right => key :: (left.keys ++ right.keys)
  | edge key _ _ _ child => key :: child.keys

/-- The nodes are in a slot map. -/
def Held (m : SlotMap Node) : InMemory → Prop
  | hash _ => True
  | binary key memo height left right =>
    m.slots key = some (.binary ⟨memo, height, left.handle, right.handle⟩) ∧ left.Held m ∧ right.Held m
  | edge key memo height path child =>
    m.slots key = some (.edge ⟨memo, height, path, child.handle⟩) ∧ child.Held m

/-- The nodes of a tree in memory are those of `t`, each in one place. -/
structure Of (tree : MerkleTree) (t : InMemory) (key : NodeKey) : Prop where
  root : tree.rootNode = some (.loaded key)
  handle : t.handle = .inMemory key
  held : t.Held tree.nodes
  nodup : t.keys.Nodup

/-- No edge is longer than `hash_edge_node` takes. -/
def shortEdges : InMemory → Bool
  | hash _ => true
  | binary _ _ _ left right => left.shortEdges && right.shortEdges
  | edge _ _ _ path child => decide (path.length ≤ 256) && child.shortEdges

/-- No edge is empty, and no path of a node at `p` or below it is longer than a length byte tells. -/
def Proper : Path → InMemory → Prop
  | _, hash _ => True
  | p, binary _ _ _ left right => p.length ≤ 255 ∧ left.Proper (p ++ [false]) ∧ right.Proper (p ++ [true])
  | p, edge _ _ _ path child => p.length ≤ 255 ∧ path ≠ [] ∧ child.Proper (p ++ path)

variable (H : StarkHash)

/-- The hash. -/
def digest : InMemory → Felt
  | hash felt => felt
  | binary _ _ _ left right => hashBinaryNode H left.digest right.digest
  | edge _ _ _ path child => edgeHash H path child.digest

/-- The hashes of the nodes, those of the children first. -/
def hashes : InMemory → List Felt
  | hash _ => []
  | binary key memo height left right => left.hashes ++ right.hashes ++ [(binary key memo height left right).digest H]
  | edge key memo height path child => child.hashes ++ [(edge key memo height path child).digest H]

/-- The nodes to be written for the nodes at `p` and below it, each with its path. -/
def written : Path → InMemory → List (Path × Node)
  | _, hash _ => []
  | p, binary key memo height left right =>
    left.written (p ++ [false]) ++ right.written (p ++ [true]) ++
      [(p, .binary ⟨some ((binary key memo height left right).digest H), height, .hash (left.digest H),
        .hash (right.digest H)⟩)]
  | p, edge key memo height path child =>
    child.written (p ++ path) ++
      [(p, .edge ⟨some ((edge key memo height path child).digest H), height, path, .hash (child.digest H)⟩)]

end InMemory

/-- The updates with nodes written, each under its path. -/
def Updates.storeAll [FeltCodec] (identifier : ByteVec) (u : Updates) (nodes : List (Path × Node)) : Updates :=
  nodes.foldl (fun u e => u.insert (TrieKey.new identifier .trie e.1.encode) (.insert (e.2.encode.getD []))) u

end Bonsai
