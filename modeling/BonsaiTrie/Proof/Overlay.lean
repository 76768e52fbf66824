import BonsaiTrie.Framework.PatriciaEdit
import BonsaiTrie.Framework.PatriciaMap
import BonsaiTrie.Impl.Tree
import BonsaiTrie.Proof.Codec

/-!
# The trie a tree stands for

A tree is a Patricia trie of which the top may be in memory and the rest in
the database. `Stored` says that a trie is in the database from a path on,
`Rep` that a handle stands for one, with the keys of the nodes that are in
memory. `RepCtx` is the way from the root to a handle, all of it in memory, and
`Focus` puts the two together: the way, the handle, and every in-memory node
exactly once. The lemmas say how the focus moves (`Focus.down`, `Focus.up`) and
what it depends on (`Rep.congr`, `RepCtx.congr`).
-/

namespace Bonsai

open Patricia

/-- The root hash of a trie. -/
def merkleHash (H : StarkHash) (t : Trie Felt) : Felt := t.digest id (hashBinaryNode H) (edgeHash H)

/-- The database nodes of a tree, by path. -/
abbrev Disk := Path → Option ByteVec

/-- The node that stands in the database for a trie at a depth. -/
def storedNode (H : StarkHash) (depth : Nat) : Trie Felt → Option Node
  | .leaf _ => none
  | .binary l r => some (.binary
      ⟨some (merkleHash H (.binary l r)), depth, .hash (merkleHash H l), .hash (merkleHash H r)⟩)
  | .edge q c => some (.edge ⟨some (merkleHash H (.edge q c)), depth, q, .hash (merkleHash H c)⟩)

/-- The bytes of that node. -/
def storedBytes [FeltCodec] (H : StarkHash) (depth : Nat) (t : Trie Felt) : Option ByteVec :=
  (storedNode H depth t).bind Node.encode

/-- Every node of the trie is in the database, from the path `p` on. -/
def Stored [FeltCodec] (H : StarkHash) (disk : Disk) : Path → Trie Felt → Prop
  | _, .leaf _ => True
  | p, .binary l r =>
    disk p = storedBytes H p.length (.binary l r) ∧ Stored H disk (p ++ [false]) l ∧ Stored H disk (p ++ [true]) r
  | p, .edge q c => disk p = storedBytes H p.length (.edge q c) ∧ Stored H disk (p ++ q) c

/-- The memos a node of a trie may have. -/
abbrev Memo := Trie Felt → Felt → Prop

/-- What hashing relies on: the hashes of children that may be memos give one that may be. -/
structure Memo.Lawful (H : StarkHash) (memo : Memo) : Prop where
  hash (t : Trie Felt) : memo t (merkleHash H t)
  binary {l r : Trie Felt} {a b : Felt} : memo l a → memo r b → memo (.binary l r) (hashBinaryNode H a b)
  edge {q : Path} {c : Trie Felt} {a : Felt} : memo c a → memo (.edge q c) (edgeHash H q a)

/-- Any memo. -/
def anyMemo : Memo := fun _ _ => True

/-- The true hash only. -/
def trueMemo (H : StarkHash) : Memo := fun t h => h = merkleHash H t

theorem anyMemo_lawful (H : StarkHash) : anyMemo.Lawful H := ⟨fun _ => trivial, fun _ _ => trivial, fun _ => trivial⟩

theorem trueMemo_lawful (H : StarkHash) : (trueMemo H).Lawful H where
  hash _ := rfl
  binary := by rintro l r a b rfl rfl; rfl
  edge := by rintro q c a rfl; rfl

/-- A handle stands for a trie at a path; the list has the in-memory nodes it leads to. -/
inductive Rep [FeltCodec] (H : StarkHash) (memo : Memo) (nodes : NodeKey → Option Node) (disk : Disk) :
    NodeHandle → Path → Trie Felt → List NodeKey → Prop where
  | stored {p : Path} {t : Trie Felt} : Stored H disk p t → Rep H memo nodes disk (.hash (merkleHash H t)) p t []
  | binary {p : Path} {k : NodeKey} {m : Option Felt} {lh rh : NodeHandle} {l r : Trie Felt} {ks ks' : List NodeKey} :
      nodes k = some (.binary ⟨m, p.length, lh, rh⟩) → (∀ x, m = some x → memo (.binary l r) x) →
      Rep H memo nodes disk lh (p ++ [false]) l ks → Rep H memo nodes disk rh (p ++ [true]) r ks' →
      Rep H memo nodes disk (.inMemory k) p (.binary l r) (k :: (ks ++ ks'))
  | edge {p : Path} {k : NodeKey} {m : Option Felt} {q : Path} {ch : NodeHandle} {c : Trie Felt} {ks : List NodeKey} :
      nodes k = some (.edge ⟨m, p.length, q, ch⟩) → (∀ x, m = some x → memo (.edge q c) x) →
      Rep H memo nodes disk ch (p ++ q) c ks → Rep H memo nodes disk (.inMemory k) p (.edge q c) (k :: ks)

/-- The node `k` is the frame `f` at the path `p`, with the handle `h` of the trie `t` in its hole. -/
inductive RepFrame [FeltCodec] (H : StarkHash) (memo : Memo) (nodes : NodeKey → Option Node) (disk : Disk)
    (k : NodeKey) (p : Path) (h : NodeHandle) (t : Trie Felt) : Frame Felt → List NodeKey → Prop where
  | left {m : Option Felt} {rh : NodeHandle} {r : Trie Felt} {ks : List NodeKey} :
      nodes k = some (.binary ⟨m, p.length, h, rh⟩) → (∀ x, m = some x → memo (.binary t r) x) →
      Rep H memo nodes disk rh (p ++ [true]) r ks → RepFrame H memo nodes disk k p h t (.left r) ks
  | right {m : Option Felt} {lh : NodeHandle} {l : Trie Felt} {ks : List NodeKey} :
      nodes k = some (.binary ⟨m, p.length, lh, h⟩) → (∀ x, m = some x → memo (.binary l t) x) →
      Rep H memo nodes disk lh (p ++ [false]) l ks → RepFrame H memo nodes disk k p h t (.right l) ks
  | edge {m : Option Felt} {q : Path} :
      nodes k = some (.edge ⟨m, p.length, q, h⟩) → (∀ x, m = some x → memo (.edge q t) x) →
      RepFrame H memo nodes disk k p h t (.edge q) []

/-- The frames of a way, and the key of the node each is. -/
abbrev Way := List (NodeKey × Frame Felt)

/-- The frames of a way. -/
def Way.frames (w : Way) : List (Frame Felt) := w.map Prod.snd

/-- The path a way ends at. -/
def Way.path (w : Way) : Path := Patricia.path w.frames

/-- The trie, in the context of a way. -/
def Way.plug (w : Way) (t : Trie Felt) : Trie Felt := Patricia.plug w.frames t

namespace Way

@[simp] theorem frames_nil : frames [] = [] := rfl
@[simp] theorem frames_cons (k : NodeKey) (f : Frame Felt) (w : Way) : frames ((k, f) :: w) = f :: w.frames := rfl
@[simp] theorem path_nil : path [] = [] := rfl
@[simp] theorem path_cons (k : NodeKey) (f : Frame Felt) (w : Way) : path ((k, f) :: w) = w.path ++ f.tip := rfl
@[simp] theorem plug_nil (t : Trie Felt) : plug [] t = t := rfl
@[simp] theorem plug_cons (k : NodeKey) (f : Frame Felt) (w : Way) (t : Trie Felt) :
    plug ((k, f) :: w) t = w.plug (f.fill t) := rfl

end Way

/-- The way from the root to a handle `h` that stands for `t`, all of it in memory. -/
inductive RepCtx [FeltCodec] (H : StarkHash) (memo : Memo) (nodes : NodeKey → Option Node) (disk : Disk)
    (root : NodeHandle) : Way → NodeHandle → Trie Felt → List NodeKey → Prop where
  | nil {t : Trie Felt} : RepCtx H memo nodes disk root [] root t []
  | cons {w : Way} {k : NodeKey} {f : Frame Felt} {h : NodeHandle} {t : Trie Felt} {ks ks' : List NodeKey} :
      RepCtx H memo nodes disk root w (.inMemory k) (f.fill t) ks → RepFrame H memo nodes disk k w.path h t f ks' →
      RepCtx H memo nodes disk root ((k, f) :: w) h t (k :: (ks' ++ ks))

/-- A handle on the way from the root, and the trie it stands for; every node in memory is one of
the way's or one of the handle's, and only once. -/
structure Focus [FeltCodec] (H : StarkHash) (memo : Memo) (nodes : NodeKey → Option Node) (disk : Disk)
    (root : NodeHandle) (w : Way) (h : NodeHandle) (t : Trie Felt) (ks ks' : List NodeKey) : Prop where
  ctx : RepCtx H memo nodes disk root w h t ks
  rep : Rep H memo nodes disk h w.path t ks'
  nodup : (ks ++ ks').Nodup
  total : ∀ k, (nodes k).isSome ↔ k ∈ ks ++ ks'

section

variable [FeltCodec] {H : StarkHash} {memo : Memo} {nodes nodes' : NodeKey → Option Node} {disk disk' : Disk}
  {root h : NodeHandle} {p : Path} {t : Trie Felt} {ks ks' : List NodeKey}

/-! ## In the database -/

@[simp] theorem stored_leaf (v : Felt) : Stored H disk p (.leaf v) := trivial

/-- Only the nodes of the trie matter. -/
theorem Stored.congr (h : Stored H disk p t) (hd : ∀ q, t.HasNode q → disk' (p ++ q) = disk (p ++ q)) :
    Stored H disk' p t := by
  induction t generalizing p with
  | leaf v => trivial
  | binary l r ihl ihr =>
    obtain ⟨h₀, hl, hr⟩ := h
    refine ⟨?_, ihl hl fun q hq => ?_, ihr hr fun q hq => ?_⟩
    · have := hd [] (Trie.hasNode_nil.mpr id)
      rw [List.append_nil] at this
      rw [this, h₀]
    · simpa using hd (false :: q) (by simpa using hq)
    · simpa using hd (true :: q) (by simpa using hq)
  | edge q c ih =>
    obtain ⟨h₀, hc⟩ := h
    refine ⟨?_, ih hc fun q' hq' => ?_⟩
    · have := hd [] (Trie.hasNode_nil.mpr id)
      rw [List.append_nil] at this
      rw [this, h₀]
    · have := hd (q ++ q') ((Frame.edge q).hasNode_fill hq')
      rwa [← List.append_assoc] at this

/-- The node at the top of a stored trie. -/
theorem Stored.top (h : Stored H disk p t) (ht : ¬ t.IsLeaf) : disk p = storedBytes H p.length t := by
  cases t with
  | leaf v => exact (ht trivial).elim
  | binary l r => exact h.1
  | edge q c => exact h.1

theorem exists_storedBytes (H : StarkHash) (d : Nat) (ht : ¬ t.IsLeaf) :
    ∃ node bytes, storedNode H d t = some node ∧ node.encode = some bytes ∧ storedBytes H d t = some bytes := by
  cases t with
  | leaf v => exact (ht trivial).elim
  | binary l r => exact ⟨_, _, rfl, rfl, rfl⟩
  | edge q c => exact ⟨_, _, rfl, rfl, rfl⟩

/-- What is below a path of a stored trie is stored there. -/
theorem Stored.sub (h : Stored H disk p t) {q : Path} {s : Trie Felt} (hq : t.sub q = some s) :
    Stored H disk (p ++ q) s := by
  induction t generalizing p q with
  | leaf v =>
    cases q with
    | nil => rw [List.append_nil]; cases hq; trivial
    | cons b q => cases hq
  | binary l r ihl ihr =>
    cases q with
    | nil => rw [List.append_nil]; cases hq; exact h
    | cons b q =>
      rw [show p ++ b :: q = p ++ [b] ++ q by simp]
      cases b
      · exact ihl h.2.1 hq
      · exact ihr h.2.2 hq
  | edge q' c ih =>
    by_cases hq0 : q = []
    · subst hq0
      rw [List.append_nil]
      cases hq
      exact h
    · rw [Trie.sub_edge c hq0] at hq
      split at hq
      · rename_i hpre
        obtain ⟨q, rfl⟩ := hpre
        rw [List.drop_left] at hq
        rw [← List.append_assoc]
        exact ih h.2 hq
      · cases hq

/-- The nodes of a stored trie are all there. -/
theorem Stored.isSome (h : Stored H disk p t) {q : Path} (hq : t.HasNode q) : (disk (p ++ q)).isSome := by
  obtain ⟨s, hs, hl⟩ := hq
  obtain ⟨node, bytes, -, -, hb⟩ := exists_storedBytes H (p ++ q).length hl
  rw [(h.sub hs).top hl, hb]
  rfl

/-! ## Handles -/

/-- Only the nodes a handle leads to and the database nodes of its trie matter. -/
theorem Rep.congr (hr : Rep H memo nodes disk h p t ks) (hn : ∀ k ∈ ks, nodes' k = nodes k)
    (hd : ∀ q, t.HasNode q → disk' (p ++ q) = disk (p ++ q)) : Rep H memo nodes' disk' h p t ks := by
  induction hr with
  | stored hs => exact .stored (hs.congr hd)
  | binary hk hm _ _ ihl ihr =>
    refine .binary ((hn _ List.mem_cons_self).trans hk) hm (ihl (fun k hk => hn k ?_) fun q hq => ?_)
      (ihr (fun k hk => hn k ?_) fun q hq => ?_)
    · exact List.mem_cons_of_mem _ (List.mem_append_left _ hk)
    · simpa using hd (false :: q) (by simpa using hq)
    · exact List.mem_cons_of_mem _ (List.mem_append_right _ hk)
    · simpa using hd (true :: q) (by simpa using hq)
  | @edge p k m q ch c ks hk hm _ ih =>
    refine .edge ((hn _ List.mem_cons_self).trans hk) hm (ih (fun k hk => hn k (List.mem_cons_of_mem _ hk)) fun q' hq' => ?_)
    have := hd (q ++ q') ((Frame.edge q).hasNode_fill hq')
    rwa [← List.append_assoc] at this

/-- Weaker memos. -/
theorem Rep.mono {memo' : Memo} (hr : Rep H memo nodes disk h p t ks) (hm : ∀ t x, memo t x → memo' t x) :
    Rep H memo' nodes disk h p t ks := by
  induction hr with
  | stored hs => exact .stored hs
  | binary hk hx _ _ ihl ihr => exact .binary hk (fun x e => hm _ x (hx x e)) ihl ihr
  | edge hk hx _ ih => exact .edge hk (fun x e => hm _ x (hx x e)) ih

theorem Rep.hash_inv {v : Felt} (hr : Rep H memo nodes disk (.hash v) p t ks) :
    v = merkleHash H t ∧ Stored H disk p t ∧ ks = [] := by
  cases hr with | stored hs => exact ⟨rfl, hs, rfl⟩

theorem Rep.leaf_inv {v : Felt} (hr : Rep H memo nodes disk h p (.leaf v) ks) : h = .hash v ∧ ks = [] := by
  cases hr with | stored hs => exact ⟨rfl, rfl⟩

theorem rep_leaf (v : Felt) : Rep H memo nodes disk (.hash v) p (.leaf v) [] := .stored (t := .leaf v) trivial

theorem Rep.binary_inv {k : NodeKey} {l r : Trie Felt} (hr : Rep H memo nodes disk (.inMemory k) p (.binary l r) ks) :
    ∃ m lh rh ks₁ ks₂, nodes k = some (.binary ⟨m, p.length, lh, rh⟩) ∧ (∀ x, m = some x → memo (.binary l r) x) ∧
      Rep H memo nodes disk lh (p ++ [false]) l ks₁ ∧ Rep H memo nodes disk rh (p ++ [true]) r ks₂ ∧
      ks = k :: (ks₁ ++ ks₂) := by
  cases hr with | binary hk hm hl hr => exact ⟨_, _, _, _, _, hk, hm, hl, hr, rfl⟩

theorem Rep.edge_inv {k : NodeKey} {q : Path} {c : Trie Felt} (hr : Rep H memo nodes disk (.inMemory k) p (.edge q c) ks) :
    ∃ m ch ks', nodes k = some (.edge ⟨m, p.length, q, ch⟩) ∧ (∀ x, m = some x → memo (.edge q c) x) ∧
      Rep H memo nodes disk ch (p ++ q) c ks' ∧ ks = k :: ks' := by
  cases hr with | edge hk hm hc => exact ⟨_, _, _, hk, hm, hc, rfl⟩

theorem Rep.not_isLeaf {k : NodeKey} (hr : Rep H memo nodes disk (.inMemory k) p t ks) : ¬ t.IsLeaf := by
  cases hr <;> exact id

/-- The nodes a handle leads to are in memory. -/
theorem Rep.isSome (hr : Rep H memo nodes disk h p t ks) : ∀ k ∈ ks, (nodes k).isSome := by
  induction hr with
  | stored => simp
  | binary hk _ _ _ ihl ihr =>
    intro j hj
    rcases List.mem_cons.mp hj with rfl | hj
    · simp [hk]
    · exact (List.mem_append.mp hj).elim (ihl j) (ihr j)
  | edge hk _ _ ih =>
    intro j hj
    rcases List.mem_cons.mp hj with rfl | hj
    · simp [hk]
    · exact ih j hj

/-- The node at the top of a stored trie, in memory. -/
theorem Stored.rep_loaded (hs : Stored H disk p t) (hlaw : memo.Lawful H) {k : NodeKey} {node : Node}
    (hnode : storedNode H p.length t = some node) (hk : nodes k = some node) :
    Rep H memo nodes disk (.inMemory k) p t [k] := by
  cases t with
  | leaf v => simp [storedNode] at hnode
  | binary l r =>
    simp only [storedNode, Option.some.injEq] at hnode
    subst hnode
    exact .binary hk (fun x hx => Option.some.inj hx ▸ hlaw.hash _) (.stored hs.2.1) (.stored hs.2.2)
  | edge q c =>
    simp only [storedNode, Option.some.injEq] at hnode
    subst hnode
    exact .edge hk (fun x hx => Option.some.inj hx ▸ hlaw.hash _) (.stored hs.2)

/-! ## Frames and ways -/

/-- A frame with its hole filled. -/
theorem RepFrame.fill {k : NodeKey} {f : Frame Felt} (hf : RepFrame H memo nodes disk k p h t f ks')
    (hr : Rep H memo nodes disk h (p ++ f.tip) t ks) :
    ∃ ks'', Rep H memo nodes disk (.inMemory k) p (f.fill t) ks'' ∧ ks''.Perm (k :: (ks' ++ ks)) := by
  cases hf with
  | left hk hm hs => exact ⟨_, .binary hk hm hr hs, .cons _ List.perm_append_comm⟩
  | right hk hm hs => exact ⟨_, .binary hk hm hs hr, .refl _⟩
  | edge hk hm => exact ⟨_, .edge hk hm hr, .refl _⟩

/-- A node in memory is a frame over each of its children. -/
theorem Rep.frame {k : NodeKey} {f : Frame Felt} (hr : Rep H memo nodes disk (.inMemory k) p (f.fill t) ks) :
    ∃ h ks₁ ks₂, RepFrame H memo nodes disk k p h t f ks₁ ∧ Rep H memo nodes disk h (p ++ f.tip) t ks₂ ∧
      ks.Perm (k :: (ks₁ ++ ks₂)) := by
  cases f with
  | left r =>
    obtain ⟨m, lh, rh, ks₁, ks₂, hk, hm, h₁, h₂, rfl⟩ := hr.binary_inv
    exact ⟨lh, ks₂, ks₁, .left hk hm h₂, h₁, .cons _ List.perm_append_comm⟩
  | right l =>
    obtain ⟨m, lh, rh, ks₁, ks₂, hk, hm, h₁, h₂, rfl⟩ := hr.binary_inv
    exact ⟨rh, ks₁, ks₂, .right hk hm h₁, h₂, .refl _⟩
  | edge q =>
    obtain ⟨m, ch, ks', hk, hm, hc, rfl⟩ := hr.edge_inv
    exact ⟨ch, [], ks', .edge hk hm, hc, .refl _⟩

theorem RepFrame.congr {k : NodeKey} {f : Frame Felt} (hf : RepFrame H memo nodes disk k p h t f ks)
    (hk : nodes' k = nodes k) (hn : ∀ j ∈ ks, nodes' j = nodes j)
    (hd : ∀ q, (f.fill t).HasNode q → ¬ f.tip <+: q → disk' (p ++ q) = disk (p ++ q)) :
    RepFrame H memo nodes' disk' k p h t f ks := by
  cases hf with
  | left h₀ hm hs =>
    refine .left (hk.trans h₀) hm (hs.congr hn fun q hq => ?_)
    simpa using hd (true :: q) (by simpa [Frame.fill] using hq) (by simp [Frame.tip])
  | right h₀ hm hs =>
    refine .right (hk.trans h₀) hm (hs.congr hn fun q hq => ?_)
    simpa using hd (false :: q) (by simpa [Frame.fill] using hq) (by simp [Frame.tip])
  | edge h₀ hm => exact .edge (hk.trans h₀) hm

/-- Only the nodes of the way and the database nodes off the hole matter. -/
theorem RepCtx.congr {w : Way} (hc : RepCtx H memo nodes disk root w h t ks) (hn : ∀ k ∈ ks, nodes' k = nodes k)
    (hd : ∀ q, (w.plug t).HasNode q → ¬ w.path <+: q → disk' q = disk q) :
    RepCtx H memo nodes' disk' root w h t ks := by
  induction hc with
  | nil => exact .nil
  | @cons w k f h t ks ks' _ hf ih =>
    refine .cons (ih (fun j hj => hn j ?_) fun q hq hp => hd q hq fun hp' => hp ?_)
      (hf.congr (hn k List.mem_cons_self) (fun j hj => hn j ?_) fun q hq hp => hd _ (hasNode_plug _ hq) fun hp' => hp ?_)
    · exact List.mem_cons_of_mem _ (List.mem_append_right _ hj)
    · exact (List.prefix_append ..).trans hp'
    · exact List.mem_cons_of_mem _ (List.mem_append_left _ hj)
    · rw [Way.path_cons] at hp'
      exact (List.prefix_append_right_inj _).mp hp'

/-! ## Moving the focus -/

namespace Focus

variable {w : Way}

theorem of_perm {ks₁ ks₁' : List NodeKey} (ctx : RepCtx H memo nodes disk root w h t ks₁)
    (rep : Rep H memo nodes disk h w.path t ks₁') (hp : (ks₁ ++ ks₁').Perm (ks ++ ks')) (hn : (ks ++ ks').Nodup)
    (ht : ∀ k, (nodes k).isSome ↔ k ∈ ks ++ ks') : Focus H memo nodes disk root w h t ks₁ ks₁' :=
  ⟨ctx, rep, hp.nodup_iff.mpr hn, fun k => (ht k).trans hp.mem_iff.symm⟩

/-- Up to the node of the last frame. -/
theorem up {k : NodeKey} {f : Frame Felt} (hF : Focus H memo nodes disk root ((k, f) :: w) h t ks ks') :
    ∃ ks₁ ks₂, Focus H memo nodes disk root w (.inMemory k) (f.fill t) ks₁ ks₂ := by
  obtain ⟨hc, hr, hn, ht⟩ := hF
  cases hc with
  | @cons _ _ _ _ _ ks₁ ks₂ hc hf =>
    obtain ⟨ks'', hr', hp⟩ := hf.fill hr
    refine ⟨_, _, of_perm hc hr' ?_ hn ht⟩
    calc (ks₁ ++ ks'').Perm (ks₁ ++ (k :: (ks₂ ++ ks'))) := hp.append_left _
      _ |>.Perm (k :: (ks₁ ++ (ks₂ ++ ks'))) := List.perm_middle
      _ |>.Perm (k :: (ks₂ ++ (ks₁ ++ ks'))) := .cons _ (List.perm_append_comm_assoc ..)
      _ = k :: (ks₂ ++ ks₁) ++ ks' := by simp

/-- Down to a child of a node in memory. -/
theorem down {k : NodeKey} {f : Frame Felt} (hF : Focus H memo nodes disk root w (.inMemory k) (f.fill t) ks ks') :
    ∃ h ks₁ ks₂, Focus H memo nodes disk root ((k, f) :: w) h t ks₁ ks₂ := by
  obtain ⟨hc, hr, hn, ht⟩ := hF
  obtain ⟨h, ks₁, ks₂, hf, hr', hp⟩ := hr.frame
  refine ⟨h, k :: (ks₁ ++ ks), ks₂, of_perm (.cons hc hf) hr' ?_ hn ht⟩
  calc (k :: (ks₁ ++ ks) ++ ks₂).Perm (k :: (ks ++ (ks₁ ++ ks₂))) := by
        simpa using List.perm_append_comm_assoc ks₁ ks ks₂
    _ |>.Perm (ks ++ (k :: (ks₁ ++ ks₂))) := List.perm_middle.symm
    _ |>.Perm (ks ++ ks') := (hp.symm).append_left _

/-- The nodes below the focus changed, for the same trie. -/
theorem below (hF : Focus H memo nodes disk root w h t ks ks') (hr : Rep H memo nodes' disk h w.path t ks')
    (hj : ∀ j, j ∉ ks' → nodes' j = nodes j) : Focus H memo nodes' disk root w h t ks ks' := by
  have hdisj := (List.nodup_append.mp hF.nodup).2.2
  refine ⟨hF.ctx.congr (fun j hk => hj j fun hk' => hdisj j hk j hk' rfl) fun _ _ _ => rfl, hr, hF.nodup, fun j => ?_⟩
  by_cases hk : j ∈ ks'
  · simp [hr.isSome j hk, hk]
  · rw [hj j hk, hF.total]

end Focus

end

end Bonsai
