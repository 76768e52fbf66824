import BonsaiTrie.Proof.LeafMap

/-!
# The trie is all there is

Following the handles of a tree finds the nodes of its trie, each at its path
(`Rep.sub_of_reaches`, `Rep.exists_reaches`), and every node in memory at one
path (`Rep.exists_inMemory`, `Rep.path_unique`). So the tree shows a Patricia
trie in every state a run reaches (`overlaid_run`).
-/

namespace Bonsai

open Patricia Run

section

variable [FeltCodec] {DB ID : Type} [BonsaiDatabase DB] [InfallibleDatabase DB] {db : KeyValueDB DB ID}
  {tree : MerkleTree} {H : StarkHash} {memo : Memo} {h h' : NodeHandle} {p p' : Path} {t : Trie Felt} {ks : List NodeKey}
  {i n : Nat} {T : Option (Trie Felt)}

omit [FeltCodec] in
/-- Nothing is reached from the depth of the leaves. -/
theorem reaches_leaf {nodeAt : NodeHandle → Path → Option Node} (hp : p.length = n) :
    Reaches nodeAt n h p h' p' ↔ h' = h ∧ p' = p := by
  constructor
  · intro hre
    cases hre with
    | refl => exact ⟨rfl, rfl⟩
    | binary _ hlt _ _ => omega
    | edge hlt _ _ => omega
  · rintro ⟨rfl, rfl⟩
    exact .refl

/-- What is reached from a binary node. -/
theorem Rep.reaches_binary {l r : Trie Felt} (hr : Rep H memo tree.nodes.slots (tree.disk db.columns) h p (.binary l r) ks)
    (ht : (Trie.binary l r).WF i) (hi : p.length + i = n) (hn : n ≤ 255) :
    ∃ lh rh ks₁ ks₂, Rep H memo tree.nodes.slots (tree.disk db.columns) lh (p ++ [false]) l ks₁ ∧
      Rep H memo tree.nodes.slots (tree.disk db.columns) rh (p ++ [true]) r ks₂ ∧ ks = h.keys ++ (ks₁ ++ ks₂) ∧
      ∀ h' p', Reaches (tree.nodeAt db) n h p h' p' ↔ (h' = h ∧ p' = p) ∨
        Reaches (tree.nodeAt db) n lh (p ++ [false]) h' p' ∨ Reaches (tree.nodeAt db) n rh (p ++ [true]) h' p' := by
  obtain ⟨m, lh, rh, ks₁, ks₂, hnode, hl, hr, hks⟩ := hr.nodeAt_binary ht (by omega)
  obtain ⟨j, rfl, -, -⟩ := ht.binary_inv
  refine ⟨lh, rh, ks₁, ks₂, hl, hr, hks, fun h' p' => ⟨fun hre => ?_, ?_⟩⟩
  · cases hre with
    | refl => exact .inl ⟨rfl, rfl⟩
    | edge _ hnode' _ => rw [hnode] at hnode'; cases hnode'
    | binary b _ hnode' hre =>
      rw [hnode] at hnode'
      cases hnode'
      cases b with
      | false => exact .inr (.inl hre)
      | true => exact .inr (.inr hre)
  · have hlt : p.length < n := by omega
    rintro (⟨rfl, rfl⟩ | hre | hre)
    · exact .refl
    · exact .binary false hlt hnode hre
    · exact .binary true hlt hnode hre

/-- What is reached from an edge. -/
theorem Rep.reaches_edge {q : Path} {c : Trie Felt} (hr : Rep H memo tree.nodes.slots (tree.disk db.columns) h p (.edge q c) ks)
    (ht : (Trie.edge q c).WF i) (hi : p.length + i = n) (hn : n ≤ 255) :
    ∃ ch ks₁, Rep H memo tree.nodes.slots (tree.disk db.columns) ch (p ++ q) c ks₁ ∧ ks = h.keys ++ ks₁ ∧
      ∀ h' p', Reaches (tree.nodeAt db) n h p h' p' ↔ (h' = h ∧ p' = p) ∨
        Reaches (tree.nodeAt db) n ch (p ++ q) h' p' := by
  obtain ⟨m, ch, ks₁, hnode, hc, hks⟩ := hr.nodeAt_edge ht (by omega)
  obtain ⟨j, rfl, hq, -⟩ := ht.edge_inv
  have := List.length_pos_of_ne_nil hq
  refine ⟨ch, ks₁, hc, hks, fun h' p' => ⟨fun hre => ?_, ?_⟩⟩
  · cases hre with
    | refl => exact .inl ⟨rfl, rfl⟩
    | binary _ _ hnode' _ => rw [hnode] at hnode'; cases hnode'
    | edge _ hnode' hre =>
      rw [hnode] at hnode'
      cases hnode'
      exact .inr hre
  · have hlt : p.length < n := by omega
    rintro (⟨rfl, rfl⟩ | hre)
    · exact .refl
    · exact .edge hlt hnode hre

omit [FeltCodec] in
theorem leaf_depth {v : Felt} (ht : (Trie.leaf v).WF i) (hi : p.length + i = n) : p.length = n := by
  have : ¬ 0 < i := fun h => ht.not_isLeaf h trivial
  omega

/-- A handle that is reached stands for the trie at its path. -/
theorem Rep.sub_of_reaches (hr : Rep H memo tree.nodes.slots (tree.disk db.columns) h p t ks) (ht : t.WF i)
    (hi : p.length + i = n) (hn : n ≤ 255) (hre : Reaches (tree.nodeAt db) n h p h' p') :
    ∃ q s ks', p' = p ++ q ∧ t.sub q = some s ∧ Rep H memo tree.nodes.slots (tree.disk db.columns) h' p' s ks' ∧
      ∀ k ∈ ks', k ∈ ks := by
  induction t generalizing h p ks i with
  | leaf v =>
    obtain ⟨rfl, rfl⟩ := (reaches_leaf (leaf_depth ht hi)).mp hre
    exact ⟨[], _, ks, (List.append_nil _).symm, Trie.sub_nil _, hr, fun _ h => h⟩
  | binary l r ihl ihr =>
    obtain ⟨lh, rh, ks₁, ks₂, hl, hr', rfl, hiff⟩ := hr.reaches_binary ht hi hn
    obtain ⟨j, rfl, hwl, hwr⟩ := ht.binary_inv
    have hlen (b : Bool) : (p ++ [b]).length + j = n := by simp only [List.length_append, List.length_singleton]; omega
    rcases (hiff h' p').mp hre with ⟨rfl, rfl⟩ | hre | hre
    · exact ⟨[], _, _, (List.append_nil _).symm, Trie.sub_nil _, hr, fun _ h => h⟩
    · obtain ⟨q, s, ks', rfl, hs, hrep, hmem⟩ := ihl hl hwl (hlen false) hre
      exact ⟨false :: q, s, ks', by simp, hs, hrep, fun k hk => by simp [hmem k hk]⟩
    · obtain ⟨q, s, ks', rfl, hs, hrep, hmem⟩ := ihr hr' hwr (hlen true) hre
      exact ⟨true :: q, s, ks', by simp, hs, hrep, fun k hk => by simp [hmem k hk]⟩
  | edge q₀ c ih =>
    obtain ⟨ch, ks₁, hc, rfl, hiff⟩ := hr.reaches_edge ht hi hn
    obtain ⟨j, rfl, hq, hwc, -⟩ := ht.edge_inv
    rcases (hiff h' p').mp hre with ⟨rfl, rfl⟩ | hre
    · exact ⟨[], _, _, (List.append_nil _).symm, Trie.sub_nil _, hr, fun _ h => h⟩
    · obtain ⟨q, s, ks', rfl, hs, hrep, hmem⟩ := ih hc hwc (by rw [List.length_append]; omega) hre
      refine ⟨q₀ ++ q, s, ks', List.append_assoc .., ?_, hrep, fun k hk => by simp [hmem k hk]⟩
      rw [Trie.sub_edge_append _ _ hq]
      exact hs

/-- Every trie below is reached. -/
theorem Rep.exists_reaches (hr : Rep H memo tree.nodes.slots (tree.disk db.columns) h p t ks) (ht : t.WF i)
    (hi : p.length + i = n) (hn : n ≤ 255) {q : Path} {s : Trie Felt} (hs : t.sub q = some s) :
    ∃ h', Reaches (tree.nodeAt db) n h p h' (p ++ q) := by
  induction t generalizing h p ks i q with
  | leaf v =>
    cases q with
    | nil => exact ⟨h, by rw [List.append_nil]; exact .refl⟩
    | cons b q => cases hs
  | binary l r ihl ihr =>
    obtain ⟨lh, rh, ks₁, ks₂, hl, hr', rfl, hiff⟩ := hr.reaches_binary ht hi hn
    obtain ⟨j, rfl, hwl, hwr⟩ := ht.binary_inv
    have hlen (b : Bool) : (p ++ [b]).length + j = n := by simp only [List.length_append, List.length_singleton]; omega
    rcases q with _ | ⟨b, q⟩
    · exact ⟨h, by rw [List.append_nil]; exact .refl⟩
    · rw [show p ++ b :: q = p ++ [b] ++ q by simp]
      cases b with
      | false =>
        obtain ⟨h', hre⟩ := ihl hl hwl (hlen false) hs
        exact ⟨h', (hiff _ _).mpr (.inr (.inl hre))⟩
      | true =>
        obtain ⟨h', hre⟩ := ihr hr' hwr (hlen true) hs
        exact ⟨h', (hiff _ _).mpr (.inr (.inr hre))⟩
  | edge q₀ c ih =>
    obtain ⟨ch, ks₁, hc, rfl, hiff⟩ := hr.reaches_edge ht hi hn
    obtain ⟨j, rfl, hq, hwc, -⟩ := ht.edge_inv
    by_cases hq0 : q = []
    · subst hq0
      exact ⟨h, by rw [List.append_nil]; exact .refl⟩
    · rw [Trie.sub_edge c hq0] at hs
      split at hs
      · rename_i hpre
        obtain ⟨q, rfl⟩ := hpre
        rw [List.drop_left] at hs
        obtain ⟨h', hre⟩ := ih hc hwc (by rw [List.length_append]; omega) hs
        exact ⟨h', (hiff _ _).mpr (.inr (by rw [← List.append_assoc]; exact hre))⟩
      · cases hs

omit [FeltCodec] in
theorem NodeHandle.eq_of_mem_keys {k : NodeKey} (hk : k ∈ h.keys) : h = .inMemory k := by
  cases h with
  | hash v => cases hk
  | inMemory j => rw [List.mem_singleton.mp hk]

/-- Every node in memory is reached. -/
theorem Rep.exists_inMemory (hr : Rep H memo tree.nodes.slots (tree.disk db.columns) h p t ks) (ht : t.WF i)
    (hi : p.length + i = n) (hn : n ≤ 255) {k : NodeKey} (hk : k ∈ ks) :
    ∃ p', Reaches (tree.nodeAt db) n h p (.inMemory k) p' := by
  induction t generalizing h p ks i with
  | leaf v =>
    obtain ⟨-, rfl⟩ := hr.leaf_inv
    cases hk
  | binary l r ihl ihr =>
    obtain ⟨lh, rh, ks₁, ks₂, hl, hr', rfl, hiff⟩ := hr.reaches_binary ht hi hn
    obtain ⟨j, rfl, hwl, hwr⟩ := ht.binary_inv
    have hlen (b : Bool) : (p ++ [b]).length + j = n := by simp only [List.length_append, List.length_singleton]; omega
    rw [List.mem_append, List.mem_append] at hk
    rcases hk with hk | hk | hk
    · exact ⟨p, NodeHandle.eq_of_mem_keys hk ▸ .refl⟩
    · obtain ⟨p', hre⟩ := ihl hl hwl (hlen false) hk
      exact ⟨p', (hiff _ _).mpr (.inr (.inl hre))⟩
    · obtain ⟨p', hre⟩ := ihr hr' hwr (hlen true) hk
      exact ⟨p', (hiff _ _).mpr (.inr (.inr hre))⟩
  | edge q₀ c ih =>
    obtain ⟨ch, ks₁, hc, rfl, hiff⟩ := hr.reaches_edge ht hi hn
    obtain ⟨j, rfl, hq, hwc, -⟩ := ht.edge_inv
    rcases List.mem_append.mp hk with hk | hk
    · exact ⟨p, NodeHandle.eq_of_mem_keys hk ▸ .refl⟩
    · obtain ⟨p', hre⟩ := ih hc hwc (by rw [List.length_append]; omega) hk
      exact ⟨p', (hiff _ _).mpr (.inr hre)⟩

/-- The key of a handle is among those below it. -/
theorem Rep.mem_keys {k : NodeKey} (hr : Rep H memo tree.nodes.slots (tree.disk db.columns) (.inMemory k) p t ks) : k ∈ ks := by
  cases hr with
  | binary => exact List.mem_cons_self
  | edge => exact List.mem_cons_self

/-- What is reached below a handle is below it. -/
theorem Rep.mem_of_reaches (hr : Rep H memo tree.nodes.slots (tree.disk db.columns) h p t ks) (ht : t.WF i)
    (hi : p.length + i = n) (hn : n ≤ 255) {k : NodeKey} (hre : Reaches (tree.nodeAt db) n h p (.inMemory k) p') : k ∈ ks := by
  obtain ⟨q, s, ks', -, -, hrep, hmem⟩ := hr.sub_of_reaches ht hi hn hre
  exact hmem k hrep.mem_keys

/-- A node in memory is reached at one path. -/
theorem Rep.path_unique (hr : Rep H memo tree.nodes.slots (tree.disk db.columns) h p t ks) (ht : t.WF i)
    (hi : p.length + i = n) (hn : n ≤ 255) (hks : ks.Nodup) {k : NodeKey} {p₁ p₂ : Path}
    (h₁ : Reaches (tree.nodeAt db) n h p (.inMemory k) p₁) (h₂ : Reaches (tree.nodeAt db) n h p (.inMemory k) p₂) : p₁ = p₂ := by
  induction t generalizing h p ks i with
  | leaf v =>
    obtain ⟨-, rfl⟩ := (reaches_leaf (leaf_depth ht hi)).mp h₁
    exact ((reaches_leaf (leaf_depth ht hi)).mp h₂).2.symm
  | binary l r ihl ihr =>
    obtain ⟨lh, rh, ks₁, ks₂, hl, hr', rfl, hiff⟩ := hr.reaches_binary ht hi hn
    obtain ⟨j, rfl, hwl, hwr⟩ := ht.binary_inv
    have hlen (b : Bool) : (p ++ [b]).length + j = n := by simp only [List.length_append, List.length_singleton]; omega
    have hml {p'} (h : Reaches (tree.nodeAt db) n lh (p ++ [false]) (.inMemory k) p') := hl.mem_of_reaches hwl (hlen _) hn h
    have hmr {p'} (h : Reaches (tree.nodeAt db) n rh (p ++ [true]) (.inMemory k) p') := hr'.mem_of_reaches hwr (hlen _) hn h
    obtain ⟨-, hks', hdisj⟩ := List.nodup_append.mp hks
    have htop (h' : .inMemory k = h) (hk : k ∈ ks₁ ++ ks₂) : False := by
      subst h'
      exact hdisj k (List.mem_singleton_self k) k hk rfl
    have hside (h₁ : k ∈ ks₁) (h₂ : k ∈ ks₂) : False := (List.nodup_append.mp hks').2.2 k h₁ k h₂ rfl
    rcases (hiff _ _).mp h₁ with ⟨hk, rfl⟩ | h₁ | h₁ <;> rcases (hiff _ _).mp h₂ with ⟨hk', rfl⟩ | h₂ | h₂
    · rfl
    · exact (htop hk (List.mem_append_left _ (hml h₂))).elim
    · exact (htop hk (List.mem_append_right _ (hmr h₂))).elim
    · exact (htop hk' (List.mem_append_left _ (hml h₁))).elim
    · exact ihl hl hwl (hlen false) (List.nodup_append.mp hks').1 h₁ h₂
    · exact (hside (hml h₁) (hmr h₂)).elim
    · exact (htop hk' (List.mem_append_right _ (hmr h₁))).elim
    · exact (hside (hml h₂) (hmr h₁)).elim
    · exact ihr hr' hwr (hlen true) (List.nodup_append.mp hks').2.1 h₁ h₂
  | edge q₀ c ih =>
    obtain ⟨ch, ks₁, hc, rfl, hiff⟩ := hr.reaches_edge ht hi hn
    obtain ⟨j, rfl, hq, hwc, -⟩ := ht.edge_inv
    have hlen : (p ++ q₀).length + j = n := by rw [List.length_append]; omega
    have hmem {p'} (h : Reaches (tree.nodeAt db) n ch (p ++ q₀) (.inMemory k) p') := hc.mem_of_reaches hwc hlen hn h
    obtain ⟨-, hks', hdisj⟩ := List.nodup_append.mp hks
    have htop (h' : .inMemory k = h) (hk : k ∈ ks₁) : False := by
      subst h'
      exact hdisj k (List.mem_singleton_self k) k hk rfl
    rcases (hiff _ _).mp h₁ with ⟨hk, rfl⟩ | h₁ <;> rcases (hiff _ _).mp h₂ with ⟨hk', rfl⟩ | h₂
    · rfl
    · exact (htop hk (hmem h₂)).elim
    · exact (htop hk' (hmem h₁)).elim
    · exact ih hc hwc hlen hks' h₁ h₂

/-! ## The tree -/

namespace TreeRep

/-- A handle of the tree stands for the trie at its path. -/
theorem of_hasHandle (hR : TreeRep H memo n db.columns tree T) (hn : 0 < n) (hh : tree.HasHandle db n h p) :
    ∃ t s ks, T = some t ∧ t.sub p = some s ∧ Rep H memo tree.nodes.slots (tree.disk db.columns) h p s ks ∧
      ∃ i, n = p.length + i ∧ s.WF i := by
  obtain ⟨r, hroot, hre⟩ := hh
  cases T with
  | none =>
    rw [hR.rootHandle_none] at hroot
    cases hroot
  | some t =>
    obtain ⟨r', ks, hroot', hrep, -⟩ := hR.rootHandle_some hn
    obtain rfl : r = r' := Option.some.inj (hroot.symm.trans hroot')
    obtain ⟨q, s, ks', rfl, hs, hrep', -⟩ := hrep.sub_of_reaches (hR.wf t rfl) (Nat.zero_add n) hR.le_255 hre
    exact ⟨t, s, ks', rfl, hs, hrep', (hR.wf t rfl).sub hs⟩

/-- There is a handle for every node of the trie. -/
theorem exists_hasHandle (hR : TreeRep H memo n db.columns tree (some t)) (hn : 0 < n) {s : Trie Felt}
    (hs : t.sub p = some s) : ∃ h, tree.HasHandle db n h p := by
  obtain ⟨r, ks, hroot, hrep, -⟩ := hR.rootHandle_some hn
  obtain ⟨h, hre⟩ := hrep.exists_reaches (hR.wf t rfl) (Nat.zero_add n) hR.le_255 hs
  exact ⟨h, r, hroot, hre⟩

/-- A handle above the leaves resolves to a node at its depth; no edge leads to an edge. -/
theorem proper_node (hR : TreeRep H memo n db.columns tree T) (hn : 0 < n) (hh : tree.HasHandle db n h p)
    (hp : p.length < n) : ∃ node, tree.nodeAt db h p = some node ∧ node.Proper n p (tree.nodeAt db) := by
  obtain ⟨t, s, ks, rfl, -, hrep, i, hi, hw⟩ := hR.of_hasHandle hn hh
  have hle := hR.le_255
  cases s with
  | leaf v => exact (hw.not_isLeaf (by omega) trivial).elim
  | binary l r =>
    obtain ⟨m, lh, rh, _, _, hnode, -⟩ := hrep.nodeAt_binary hw (by omega)
    exact ⟨_, hnode, rfl⟩
  | edge q c =>
    obtain ⟨m, ch, _, hnode, hc, -⟩ := hrep.nodeAt_edge hw (by omega)
    obtain ⟨j, rfl, hq, hwc, he⟩ := hw.edge_inv
    have hlen : (p ++ q).length = p.length + q.length := List.length_append
    refine ⟨_, hnode, rfl, hq, by show p.length + q.length ≤ n; omega, fun hlt e hce => ?_⟩
    have hlt : p.length + q.length < n := hlt
    cases c with
    | leaf v => exact hwc.not_isLeaf (by omega) trivial
    | edge q' c' => exact he trivial
    | binary l r =>
      obtain ⟨m', lh, rh, _, _, hnode', -⟩ := hc.nodeAt_binary hwc (by omega)
      have hce : tree.nodeAt db ch (p ++ q) = some (.edge e) := hce
      rw [hnode'] at hce
      cases hce

/-- The tree shows its trie, when all of the database is nodes of it. -/
theorem overlaid (hR : TreeRep H memo n db.columns tree T) (hn : 0 < n)
    (hknown : ∀ b, (db.columns (.trie b)).isSome → ∃ p : Path, p.length < n ∧ b = tree.identifier ++ p.encode) :
    tree.Overlaid db n where
  node _ _ hh hp := hR.proper_node hn hh hp
  leaf h p hh := by
    obtain ⟨t, s, ks, rfl, -, hrep, i, hi, hw⟩ := hR.of_hasHandle hn hh
    refine ⟨by omega, fun hp => ?_⟩
    obtain rfl : i = 0 := by omega
    obtain ⟨v, rfl⟩ := hw.eq_leaf
    exact ⟨v, hrep.leaf_inv.1⟩
  inMemory k := by
    constructor
    · intro hk
      cases T with
      | none =>
        have hr := hR.rooted
        rcases tree with ⟨root, nodes, identifier, deathRow, cache, maxHeight⟩
        cases hr with
        | noTrie hnone => rw [hnone k] at hk; cases hk
        | empty hnone => rw [hnone k] at hk; cases hk
      | some t =>
        obtain ⟨r, ks, hroot, hrep, hks, htotal⟩ := hR.rootHandle_some hn
        obtain ⟨p, hre⟩ := hrep.exists_inMemory (hR.wf t rfl) (Nat.zero_add n) hR.le_255 ((htotal k).mp hk)
        refine ⟨p, ⟨r, hroot, hre⟩, ?_⟩
        rintro p' ⟨r', hroot', hre'⟩
        obtain rfl : r = r' := Option.some.inj (hroot.symm.trans hroot')
        exact hrep.path_unique (hR.wf t rfl) (Nat.zero_add n) hR.le_255 hks hre' hre
    · rintro ⟨p, hh, -⟩
      obtain ⟨t, s, ks, -, -, hrep, -⟩ := hR.of_hasHandle hn hh
      exact hrep.isSome k hrep.mem_keys
  stored v p hh hp := by
    obtain ⟨t, s, ks, rfl, hs, hrep, i, hi, hw⟩ := hR.of_hasHandle hn hh
    obtain ⟨-, hst, -⟩ := hrep.hash_inv
    have hd := hst.isSome (q := []) (Trie.hasNode_nil.mpr (hw.not_isLeaf (by omega)))
    rw [List.append_nil] at hd
    by_contra hdead
    obtain ⟨⟨⟩, hdead⟩ := Option.ne_none_iff_exists'.mp hdead
    rw [MerkleTree.disk, TrieKey.new, if_pos hdead] at hd
    cases hd
  orphan b bytes hb := by
    have hcol : db.columns (.trie b) = some bytes := by
      rw [InfallibleDatabase.get_eq] at hb
      exact Except.ok.inj hb
    obtain ⟨p, hp, rfl⟩ := hknown b (by rw [hcol]; rfl)
    by_cases hdead : tree.deathRow.lookup (.trie (tree.identifier ++ p.encode)) = some ()
    · exact .inr hdead
    · have hd : (tree.disk db.columns p).isSome := by
        rw [MerkleTree.disk, TrieKey.new, if_neg hdead, hcol]
        rfl
      obtain ⟨t, rfl, s, hs, -⟩ := hR.only p hp.le hd
      obtain ⟨h, hh⟩ := hR.exists_hasHandle hn hs
      exact .inl ⟨h, p, hh, hp, rfl⟩

/-- The keys of the leaves are those of the trie. -/
theorem hasHandle_leaf_iff (hR : TreeRep H memo n db.columns tree T) (hn : 0 < n) {key : Path} (hkey : key.length = n) :
    (∃ v, tree.HasHandle db n (.hash v) key) ↔ (content T key).isSome := by
  constructor
  · rintro ⟨v, hh⟩
    obtain ⟨t, s, ks, rfl, hs, hrep, i, hi, hw⟩ := hR.of_hasHandle hn hh
    obtain rfl : i = 0 := by omega
    obtain ⟨v, rfl⟩ := hw.eq_leaf
    rw [content_some, (hR.wf t rfl).lookup_eq_some_iff.mpr hs]
    rfl
  · intro hs
    cases T with
    | none => cases hs
    | some t =>
      obtain ⟨v, hv⟩ := Option.isSome_iff_exists.mp hs
      obtain ⟨h, hh⟩ := hR.exists_hasHandle hn ((hR.wf t rfl).lookup_eq_some_iff.mp hv)
      obtain ⟨-, s, ks, -, -, hrep, i, hi, hw⟩ := hR.of_hasHandle hn hh
      obtain rfl : i = 0 := by omega
      obtain ⟨v', rfl⟩ := hw.eq_leaf
      exact ⟨v', hrep.leaf_inv.1 ▸ hh⟩

/-- The database of an idle tree has its nodes, and no others. -/
theorem columns_iff (hR : TreeRep H memo n db.columns tree T) (hn : 0 < n) (hi : tree.Idle)
    (hknown : ∀ b, (db.columns (.trie b)).isSome → ∃ p : Path, p.length < n ∧ b = tree.identifier ++ p.encode)
    (b bytes : ByteVec) :
    db.columns (.trie b) = some bytes ↔ ∃ h p node, tree.HasHandle db n h p ∧ p.length < n ∧
      b = tree.identifier ++ p.encode ∧ tree.nodeAt db h p = some node ∧ node.encode = some bytes := by
  have hle := hR.le_255
  -- a handle is a hash, of a node stored at its path
  have hnode {h : NodeHandle} {p : Path} (hh : tree.HasHandle db n h p) (hp : p.length < n) :
      ∃ node bytes, tree.nodeAt db h p = some node ∧ node.encode = some bytes ∧
        db.columns (.trie (tree.identifier ++ p.encode)) = some bytes := by
    obtain ⟨t, s, ks, rfl, hs, hrep, i, hi', hw⟩ := hR.of_hasHandle hn hh
    cases h with
    | inMemory k =>
      have := hrep.isSome k hrep.mem_keys
      rw [hi.nodes k] at this
      cases this
    | hash v =>
      obtain ⟨-, hst, -⟩ := hrep.hash_inv
      have hl : ¬ s.IsLeaf := hw.not_isLeaf (by omega)
      obtain ⟨bytes, node, hd, hdec, hnode⟩ := hst.read hl hw (by omega)
      obtain ⟨node', bytes', hnode', hb, hsb⟩ := exists_storedBytes H p.length hl
      obtain rfl : node = node' := Option.some.inj (hnode.symm.trans hnode')
      obtain rfl : bytes = bytes' := Option.some.inj (hd.symm.trans ((hst.top hl).trans hsb))
      refine ⟨node, bytes, by rw [MerkleTree.nodeAt, MerkleTree.getTrieBranch_some hd hdec], hb, ?_⟩
      rw [MerkleTree.disk, hi.deathRow, AList.lookup_empty, if_neg (by simp)] at hd
      exact hd
  constructor
  · intro hb
    have hget : BonsaiDatabase.get db.db (.trie b) = .ok (some bytes) := by rw [InfallibleDatabase.get_eq]; exact congrArg _ hb
    rcases (hR.overlaid hn hknown).orphan b bytes hget with ⟨h, p, hh, hp, rfl⟩ | hdead
    · obtain ⟨node, bytes', hnode, henc, hcol⟩ := hnode hh hp
      obtain rfl : bytes = bytes' := Option.some.inj (hb.symm.trans hcol)
      exact ⟨h, p, node, hh, hp, rfl, hnode, henc⟩
    · rw [hi.deathRow, AList.lookup_empty] at hdead
      cases hdead
  · rintro ⟨h, p, node, hh, hp, rfl, hnode', henc⟩
    obtain ⟨node', bytes', hnode, henc', hcol⟩ := hnode hh hp
    obtain rfl : node = node' := Option.some.inj (hnode'.symm.trans hnode)
    rw [hcol, ← henc, henc']

end TreeRep

namespace CallRep

variable {st : MerkleTrees DB ID} {s : Leaves}

theorem known_nodes (hR : CallRep H n st s) (b : ByteVec) (hb : (st.db.columns (.trie b)).isSome) :
    ∃ p : Path, p.length < n ∧ b = (st.treeOf []).identifier ++ p.encode := by
  obtain ⟨p, hp, rfl⟩ := hR.known (.trie b) hb
  exact ⟨p, hp, by rw [hR.rep.identifier_treeOf [], List.nil_append]⟩

theorem overlaid (hR : CallRep H n st s) (hn : 0 < n) : (st.treeOf []).Overlaid st.db n := by
  obtain ⟨T, hT⟩ := hR.leafRep
  exact hT.rep.overlaid hn hR.known_nodes

end CallRep

variable (H) in
/-- In every state a run reaches the tree shows a Patricia trie, whose keys are those `get` finds; a commit
leaves nothing in memory, and the nodes of the trie in the database. -/
theorem overlaid_run (m : UInt8) (hm : 0 < m.toNat) (db : KeyValueDB DB ID)
    (hdb : ∀ key : TrieKey, db.columns key.toDatabaseKey = none) (cs : List Call) (hcs : ∀ c ∈ cs, c.Aligned)
    (st : MerkleTrees DB ID) (hst : st = Trace.after (Call.run H) cs (MerkleTrees.new db m)) :
    (st.treeOf []).Overlaid st.db m.toNat ∧
      (∀ k : Path, k.length = m.toNat →
        ((∃ v, (st.treeOf []).HasHandle st.db m.toNat (.hash v) k) ↔ ∃ v, MerkleTrees.get st [] ⟨0, k⟩ = .ok (some v))) ∧
      ∀ ords, ∃ st', MerkleTrees.commit H ords st = .ok () st' ∧ (∀ k, (st'.treeOf []).nodes.slots k = none) ∧
        ∀ b bytes, st'.db.columns (.trie b) = some bytes ↔ ∃ h p node, (st'.treeOf []).HasHandle st'.db m.toNat h p ∧
          p.length < m.toNat ∧ b = p.encode ∧ (st'.treeOf []).nodeAt st'.db h p = some node ∧ node.encode = some bytes := by
  obtain ⟨hR, -⟩ := (CallRep.start (H := H) hdb m).simulates hm hcs
  rw [← hst] at hR
  generalize cs.foldl (Call.leaves m.toNat) .empty = s at hR
  refine ⟨hR.overlaid hm, fun k hk => ?_, fun ords => ?_⟩
  · obtain ⟨T, hT⟩ := hR.leafRep
    have hget : MerkleTrees.get st [] ⟨0, k⟩ = .ok (s.get k) := hR.rep.get_ok rfl rfl hk
    rw [hT.rep.hasHandle_leaf_iff hm hk, hT.trie k hk, hT.keys k, hget, Option.isSome_iff_exists]
    simp only [Except.ok.injEq]
  · obtain ⟨st', hrun, hR', hidle⟩ := hR.commit_ok ords
    obtain ⟨T, hT⟩ := hR'.leafRep
    refine ⟨st', hrun, hidle.nodes, fun b bytes => ?_⟩
    have h := hT.rep.columns_iff hm hidle hR'.known_nodes b bytes
    simpa only [hR'.rep.identifier_treeOf [], List.nil_append] using h

end

theorem overlaid_run_delete :
    (MerkleTrees.treeOf (Trace.after (Call.run fun a b => a + b) writeProveDelete (BonsaiStorage.inMemory 2)) []).Overlaid
      (Trace.after (Call.run fun a b => a + b) writeProveDelete (BonsaiStorage.inMemory 2)).db 2 :=
  (overlaid_run (fun a b => a + b) 2 (by decide) (KeyValueDB.new HashMapDb.empty ⟨none, none, 1⟩ none)
    HashMapDb.columns_empty writeProveDelete (fun c hc => (writeProveDelete_fits c hc).1) _ rfl).1

end Bonsai
