import BonsaiTrie.Proof.Load
import BonsaiTrie.Spec.Seek

/-!
# What loading leaves as it is

The hashes that a tree knows (`hashAt`) are as before when a stored node is
loaded (`hashAt_loaded`), also seen from the root (`RepCtx.hashAt_congr`), and
they tell how the nodes on a way look (`RepCtx.looks`).
-/

namespace Bonsai

open Patricia MerkleTree

section

variable [FeltCodec] {H : StarkHash} {memo : Memo} {nodes nodes' : NodeKey → Option Node} {disk : Disk}
  {root h h' : NodeHandle} {p : Path} {t : Trie Felt} {w : Way} {k : NodeKey} {f : Frame Felt} {ks ks' : List NodeKey}

omit [FeltCodec] in
@[simp] theorem hashAt_hash (v : Felt) (q : Path) : hashAt H nodes t (.hash v) q = (t.sub q).map (merkleHash H) := by
  cases t <;> cases q <;> rfl

omit [FeltCodec] in
@[simp] theorem hashAt_inMemory_nil : hashAt H nodes t (.inMemory k) [] = (nodes k).bind Node.getHash := by
  cases t <;> rfl

omit [FeltCodec] in
theorem hashAt_binary {m : Option Felt} {d : Nat} {lh rh : NodeHandle} {l r : Trie Felt}
    (hk : nodes k = some (.binary ⟨m, d, lh, rh⟩)) (b : Bool) (q : Path) :
    hashAt H nodes (.binary l r) (.inMemory k) (b :: q) = if b then hashAt H nodes r rh q else hashAt H nodes l lh q := by
  rw [hashAt, hk]

omit [FeltCodec] in
theorem hashAt_edge {m : Option Felt} {d : Nat} {e : Path} {ch : NodeHandle} {c : Trie Felt}
    (hk : nodes k = some (.edge ⟨m, d, e, ch⟩)) {q : Path} (hq : q ≠ []) :
    hashAt H nodes (.edge e c) (.inMemory k) q = if e <+: q then hashAt H nodes c ch (q.drop e.length) else none := by
  obtain ⟨b, q, rfl⟩ := List.exists_cons_of_ne_nil hq
  rw [hashAt, hk]

/-- A handle leads to the hash known of its trie. -/
theorem Rep.handleHash_eq (hr : Rep H memo nodes disk h p t ks) : handleHash nodes h = hashAt H nodes t h [] := by
  cases hr with
  | stored => rw [hashAt_hash, Trie.sub_nil]; rfl
  | binary => rw [hashAt_inMemory_nil]; rfl
  | edge => rw [hashAt_inMemory_nil]; rfl

/-- Only the nodes a handle leads to matter. -/
theorem Rep.hashAt_congr (hr : Rep H memo nodes disk h p t ks) (hn : ∀ j ∈ ks, nodes' j = nodes j) (q : Path) :
    hashAt H nodes' t h q = hashAt H nodes t h q := by
  induction hr generalizing q with
  | stored => rw [hashAt_hash, hashAt_hash]
  | @binary p k m lh rh l r ks ks' hk _ _ _ ihl ihr =>
    have hk' := (hn k List.mem_cons_self).trans hk
    cases q with
    | nil => rw [hashAt_inMemory_nil, hashAt_inMemory_nil, hk, hk']
    | cons b q =>
      rw [hashAt_binary hk, hashAt_binary hk', ihl fun j hj => hn j (List.mem_cons_of_mem _ (List.mem_append_left _ hj)),
        ihr fun j hj => hn j (List.mem_cons_of_mem _ (List.mem_append_right _ hj))]
  | @edge p k m e ch c ks hk _ _ ih =>
    have hk' := (hn k List.mem_cons_self).trans hk
    by_cases hq : q = []
    · rw [hq, hashAt_inMemory_nil, hashAt_inMemory_nil, hk, hk']
    · rw [hashAt_edge hk hq, hashAt_edge hk' hq, ih fun j hj => hn j (List.mem_cons_of_mem _ hj)]

omit [FeltCodec] in
/-- A stored node that is loaded. -/
theorem hashAt_loaded {node : Node} {d : Nat} (hnode : storedNode H d t = some node) (hk : nodes k = some node) (q : Path) :
    hashAt H nodes t (.inMemory k) q = (t.sub q).map (merkleHash H) := by
  cases t with
  | leaf v => cases hnode
  | binary l r =>
    cases hnode
    cases q with
    | nil => rw [hashAt_inMemory_nil, hk]; rfl
    | cons b q =>
      rw [hashAt_binary hk, hashAt_hash, hashAt_hash]
      cases b <;> rfl
  | edge e c =>
    cases hnode
    by_cases hq : q = []
    · rw [hq, hashAt_inMemory_nil, hk, Trie.sub_nil]; rfl
    · rw [hashAt_edge hk hq, hashAt_hash, Trie.sub_edge c hq]
      split <;> rfl

/-- Through a frame. -/
theorem RepFrame.hashAt_fill (hf : RepFrame H memo nodes disk k p h t f ks) (htip : f.tip ≠ []) (q : Path) :
    hashAt H nodes (f.fill t) (.inMemory k) (f.tip ++ q) = hashAt H nodes t h q := by
  cases hf with
  | left hk => exact hashAt_binary hk false q
  | right hk => exact hashAt_binary hk true q
  | edge hk =>
    have hne : Frame.tip (.edge _ : Frame Felt) ++ q ≠ [] := fun he => htip (List.append_eq_nil_iff.mp he).1
    rw [Frame.fill, hashAt_edge hk hne, Frame.tip, if_pos (List.prefix_append ..), List.drop_left]

/-- Another handle in the hole of a frame, of which the same is known. -/
theorem RepFrame.hashAt_congr (hf : RepFrame H memo nodes disk k p h t f ks) {node : Node} (hk : nodes k = some node)
    (hk' : nodes' k = some (Bonsai.refill f h' node)) (hn : ∀ j ∈ ks, nodes' j = nodes j)
    (ht : ∀ q, hashAt H nodes' t h' q = hashAt H nodes t h q) (q : Path) :
    hashAt H nodes' (f.fill t) (.inMemory k) q = hashAt H nodes (f.fill t) (.inMemory k) q := by
  cases hf with
  | left h₀ _ hr =>
    obtain rfl := Option.some.inj (hk.symm.trans h₀)
    cases q with
    | nil => rw [hashAt_inMemory_nil, hashAt_inMemory_nil, hk, hk']; rfl
    | cons b q =>
      rw [Frame.fill, hashAt_binary hk, hashAt_binary (by rw [hk']; rfl), ht, hr.hashAt_congr hn]
  | right h₀ _ hl =>
    obtain rfl := Option.some.inj (hk.symm.trans h₀)
    cases q with
    | nil => rw [hashAt_inMemory_nil, hashAt_inMemory_nil, hk, hk']; rfl
    | cons b q =>
      rw [Frame.fill, hashAt_binary hk, hashAt_binary (by rw [hk']; rfl), ht, hl.hashAt_congr hn]
  | edge h₀ _ =>
    obtain rfl := Option.some.inj (hk.symm.trans h₀)
    by_cases hq : q = []
    · rw [hq, hashAt_inMemory_nil, hashAt_inMemory_nil, hk, hk']; rfl
    · rw [Frame.fill, hashAt_edge hk hq, hashAt_edge (by rw [hk']; rfl) hq, ht]

/-- The handle of a frame is the one in its node. -/
theorem RepFrame.refill_self (hf : RepFrame H memo nodes disk k p h t f ks) {node : Node} (hk : nodes k = some node) :
    Bonsai.refill f h node = node := by
  cases hf with
  | left h₀ =>
    obtain rfl := Option.some.inj (hk.symm.trans h₀)
    rfl
  | right h₀ =>
    obtain rfl := Option.some.inj (hk.symm.trans h₀)
    rfl
  | edge h₀ =>
    obtain rfl := Option.some.inj (hk.symm.trans h₀)
    rfl

theorem RepFrame.isSome (hf : RepFrame H memo nodes disk k p h t f ks) : ∃ node, nodes k = some node := by
  cases hf with
  | left h₀ => exact ⟨_, h₀⟩
  | right h₀ => exact ⟨_, h₀⟩
  | edge h₀ => exact ⟨_, h₀⟩

/-- From the root, when the nodes on the way stay and the same is known of what the handle leads to. -/
theorem RepCtx.hashAt_congr (hc : RepCtx H memo nodes disk root w h t ks) (hn : ∀ j ∈ ks, nodes' j = nodes j)
    (ht : ∀ q, hashAt H nodes' t h q = hashAt H nodes t h q) (q : Path) :
    hashAt H nodes' (w.plug t) root q = hashAt H nodes (w.plug t) root q := by
  induction hc with
  | nil => exact ht q
  | @cons w k f h t ks ks' hc hf ih =>
    obtain ⟨node, hk⟩ := hf.isSome
    have hk' : nodes' k = some (Bonsai.refill f h node) := by
      rw [hf.refill_self hk, hn k List.mem_cons_self, hk]
    refine ih (fun j hj => hn j (List.mem_cons_of_mem _ (List.mem_append_right _ hj))) fun q => ?_
    exact hf.hashAt_congr hk hk' (fun j hj => hn j (List.mem_cons_of_mem _ (List.mem_append_left _ hj))) ht q

/-- From the root, at the paths below the handle. -/
theorem RepCtx.hashAt_append (hc : RepCtx H memo nodes disk root w h t ks) (hp : Patricia.Proper w.frames) (q : Path) :
    hashAt H nodes (w.plug t) root (w.path ++ q) = hashAt H nodes t h q := by
  induction hc generalizing q with
  | nil => rfl
  | @cons w k f h t ks ks' hc hf ih =>
    rw [Way.path_cons, List.append_assoc, Way.plug_cons, ih (fun g hg => hp g (List.mem_cons_of_mem _ hg)),
      hf.hashAt_fill (hp f List.mem_cons_self)]

/-- The handle in the focus is replaced by one of which the same is known. -/
theorem Focus.hashAt_refill (hF : Focus H memo nodes disk root ((k, f) :: w) h t ks ks') {node : Node}
    (hk : nodes k = some node) (hk' : nodes' k = some (Bonsai.refill f h' node)) (hj : ∀ j ∈ ks, j ≠ k → nodes' j = nodes j)
    (ht : ∀ q, hashAt H nodes' t h' q = hashAt H nodes t h q) (q : Path) :
    hashAt H nodes' (Way.plug ((k, f) :: w) t) root q = hashAt H nodes (Way.plug ((k, f) :: w) t) root q := by
  obtain ⟨ks₁, ks₂, hf, hc, rfl⟩ := hF.last
  have hne : k ∉ ks₁ ++ ks₂ := (List.nodup_cons.mp (List.nodup_append.mp hF.nodup).1).1
  have hn : ∀ j ∈ ks₁ ++ ks₂, nodes' j = nodes j := fun j h =>
    hj j (List.mem_cons_of_mem _ h) fun e => hne (e ▸ h)
  exact hc.hashAt_congr (fun j h => hn j (List.mem_append_right _ h))
    (hf.hashAt_congr hk hk' (fun j h => hn j (List.mem_append_left _ h)) ht) q

/-! ## Looks -/

/-- The nodes of a way and the depths they start at, the root first. -/
def Way.crumbs : Way → List (NodeKey × Nat)
  | [] => []
  | (k, _) :: w => Way.crumbs w ++ [(k, (Way.path w).length)]

omit [FeltCodec] in
theorem Way.getLast?_crumbs (k : NodeKey) (f : Frame Felt) (w : Way) :
    (Way.crumbs ((k, f) :: w)).getLast? = some (k, w.path.length) := by
  simp [Way.crumbs]

/-- The look of the node of a frame. -/
theorem RepFrame.look (hf : RepFrame H memo nodes disk k p h t f ks) (htip : f.tip ≠ [])
    (hh : handleHash nodes h = hashAt H nodes t h []) {known : Path → Option Felt}
    (hknown : ∀ q, known (p ++ q) = hashAt H nodes (f.fill t) (.inMemory k) q) :
    (nodes k).map (lookOf nodes) = lookAt known p (f.fill t) := by
  have htop := hknown []
  rw [List.append_nil, hashAt_inMemory_nil] at htop
  have hhole : known (p ++ f.tip) = handleHash nodes h := by
    rw [hh, ← hf.hashAt_fill htip, hknown, List.append_nil]
  cases hf with
  | left h₀ _ hr =>
    rw [h₀] at htop ⊢
    have hother := hknown [true]
    rw [Frame.fill, hashAt_binary h₀, if_pos rfl, ← hr.handleHash_eq] at hother
    rw [Frame.fill, lookAt, htop, show known (p ++ [false]) = _ from hhole, hother]
    rfl
  | right h₀ _ hl =>
    rw [h₀] at htop ⊢
    have hother := hknown [false]
    rw [Frame.fill, hashAt_binary h₀, if_neg (by decide), ← hl.handleHash_eq] at hother
    rw [Frame.fill, lookAt, htop, show known (p ++ [true]) = _ from hhole, hother]
    rfl
  | @edge m q h₀ =>
    rw [h₀] at htop ⊢
    rw [Frame.fill, lookAt, htop, show known (p ++ q) = _ from hhole]
    rfl

/-- The looks of the nodes on a way. -/
theorem RepCtx.looks (hc : RepCtx H memo nodes disk root w h t ks) (hp : Patricia.Proper w.frames)
    (hh : handleHash nodes h = hashAt H nodes t h []) :
    (w.crumbs.map fun (k, d) => (d, (nodes k).map (lookOf nodes))) =
      (stations w.frames t).map fun (p, s) => (p.length, lookAt (hashAt H nodes (w.plug t) root) p s) := by
  induction hc with
  | nil => rfl
  | @cons w k f h t ks ks' hc hf ih =>
    have hp' : Patricia.Proper w.frames := fun g hg => hp g (List.mem_cons_of_mem _ hg)
    have hlook := hf.look (hp f List.mem_cons_self) hh fun q => hc.hashAt_append hp' q
    have htop : handleHash nodes (.inMemory k) = hashAt H nodes (f.fill t) (.inMemory k) [] := by
      rw [hashAt_inMemory_nil]
      rfl
    rw [Way.crumbs, List.map_append, ih hp' htop, Way.frames_cons, stations, List.map_append]
    simp only [List.map_cons, List.map_nil, hlook]
    rfl

end

end Bonsai
