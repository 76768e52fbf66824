import BonsaiTrie.Framework.Patricia

/-!
# Splitting and joining edges

The two edits that keep a Patricia trie canonical: an edge is split where a new
key leaves it (`split`), and an edge is joined with the edge below it when the
branch between them goes (`join`). For each: the content, the canonical form
and the nodes.
-/

namespace Patricia

variable {α : Type}

namespace Trie

/-- An edge, if it has any bits. -/
def ext : List Bool → Trie α → Trie α
  | [], t => t
  | b :: q, t => edge (b :: q) t

/-- An edge, joined with an edge below it. -/
def join (q : List Bool) : Trie α → Trie α
  | edge q' c => edge (q ++ q') c
  | leaf v => edge q (leaf v)
  | binary l r => edge q (binary l r)

/-- A binary node with `x` in the direction `b` and `y` in the other. -/
def branch (b : Bool) (x y : Trie α) : Trie α := if b then binary y x else binary x y

/-- The edge `common ++ !b :: old` over `c`, split for the leaf at `common ++ b :: new`. -/
def split (common : List Bool) (b : Bool) (new : List Bool) (v : α) (old : List Bool) (c : Trie α) : Trie α :=
  ext common (branch b (ext new (leaf v)) (ext old c))

theorem lookup_edge_append_append (p q : List Bool) (c : Trie α) (k : List Bool) :
    (edge (p ++ q) c).lookup (p ++ k) = (edge q c).lookup k := by
  simp only [lookup_edge, List.prefix_append_right_inj, List.length_append, ← List.drop_drop, List.drop_left]

/-! ## Edges that may be empty -/

theorem ext_of_ne_nil {q : List Bool} (t : Trie α) (hq : q ≠ []) : ext q t = edge q t := by
  cases q <;> simp_all [ext]

theorem lookup_ext (q : List Bool) (t : Trie α) (k : List Bool) :
    (ext q t).lookup k = if q <+: k then t.lookup (k.drop q.length) else none := by
  cases q with
  | nil => simp [ext]
  | cons b q => exact lookup_edge _ _ _

theorem lookup_ext_append (q : List Bool) (t : Trie α) (k : List Bool) :
    (ext q t).lookup (q ++ k) = t.lookup k := by
  simp [lookup_ext]

theorem lookup_ext_leaf (q : List Bool) (v : α) (k : List Bool) :
    (ext q (leaf v)).lookup k = if k = q then some v else none := by
  rw [lookup_ext]
  by_cases h : q <+: k
  · obtain ⟨k, rfl⟩ := h
    cases k <;> simp [lookup]
  · rw [if_neg h, if_neg]
    rintro rfl
    exact h List.prefix_rfl

theorem WF.ext {n : Nat} {t : Trie α} (q : List Bool) (h : t.WF n) (he : ¬ t.IsEdge) :
    (ext q t).WF (q.length + n) := by
  cases q with
  | nil => simpa [Trie.ext] using h
  | cons b q => exact .edge (by simp) h he

theorem hasNode_ext_append (q : List Bool) (t : Trie α) (p : List Bool) :
    (ext q t).HasNode (q ++ p) ↔ t.HasNode p := by
  cases q with
  | nil => rfl
  | cons b q => exact hasNode_edge_append _ _ (by simp)

/-! ## Binary nodes in a direction -/

@[simp] theorem lookup_branch_nil (b : Bool) (x y : Trie α) : (branch b x y).lookup [] = none := by
  cases b <;> rfl

@[simp] theorem lookup_branch_cons (b : Bool) (x y : Trie α) (b' : Bool) (k : List Bool) :
    (branch b x y).lookup (b' :: k) = if b' = b then x.lookup k else y.lookup k := by
  cases b <;> cases b' <;> rfl

theorem WF.branch {n : Nat} {x y : Trie α} (b : Bool) (hx : x.WF n) (hy : y.WF n) : (branch b x y).WF (n + 1) := by
  cases b
  · exact .binary hx hy
  · exact .binary hy hx

theorem WF.branch_inv {n : Nat} {b : Bool} {x y : Trie α} (h : (Trie.branch b x y).WF n) :
    ∃ m, n = m + 1 ∧ x.WF m ∧ y.WF m := by
  cases b with
  | false => exact h.binary_inv
  | true =>
    obtain ⟨m, hm, hy, hx⟩ := h.binary_inv
    exact ⟨m, hm, hx, hy⟩

@[simp] theorem not_isEdge_branch (b : Bool) (x y : Trie α) : ¬ (branch b x y).IsEdge := by cases b <;> exact id

theorem hasNode_branch_nil (b : Bool) (x y : Trie α) : (branch b x y).HasNode [] := by
  cases b <;> simp [branch, hasNode_nil]

theorem hasNode_branch_cons (b : Bool) (x y : Trie α) (b' : Bool) (p : List Bool) :
    (branch b x y).HasNode (b' :: p) ↔ if b' = b then x.HasNode p else y.HasNode p := by
  cases b <;> cases b' <;> simp [branch]

/-! ## Split -/

theorem lookup_split (common : List Bool) (b : Bool) (new : List Bool) (v : α) (old : List Bool) (c : Trie α)
    (k : List Bool) : (split common b new v old c).lookup k =
      if k = common ++ b :: new then some v else (edge (common ++ (!b) :: old) c).lookup k := by
  rw [split, lookup_ext]
  by_cases h : common <+: k
  · obtain ⟨k, rfl⟩ := h
    rw [lookup_edge_append_append, lookup_edge]
    simp only [List.prefix_append, if_true, List.drop_left, List.append_cancel_left_eq]
    cases k with
    | nil => simp
    | cons b' k =>
      rw [lookup_branch_cons, lookup_ext_leaf, lookup_ext]
      by_cases hb : b' = b
      · subst hb; simp
      · have hb' : b' = !b := by cases b <;> cases b' <;> simp_all
        subst hb'
        simp
  · rw [if_neg h, lookup_edge, if_neg, if_neg]
    · exact fun hp => h ((List.prefix_append ..).trans hp)
    · rintro rfl
      exact h (List.prefix_append ..)

theorem WF.split {n : Nat} {common : List Bool} {b : Bool} {new old : List Bool} {c : Trie α} (v : α)
    (h : (Trie.edge (common ++ (!b) :: old) c).WF n) (hn : n = common.length + 1 + new.length) :
    (split common b new v old c).WF n := by
  obtain ⟨m, hm, -, hc, hce⟩ := h.edge_inv
  simp only [List.length_append, List.length_cons] at hm
  have h1 : (Trie.ext new (Trie.leaf v)).WF new.length := by simpa using (WF.leaf v).ext new id
  have h2 : (Trie.ext old c).WF new.length := by
    rw [show new.length = old.length + m by omega]; exact hc.ext old hce
  have := (h1.branch b h2).ext common (not_isEdge_branch b _ _)
  rwa [show common.length + (new.length + 1) = n by omega] at this

/-- Splitting an edge keeps every node. -/
theorem HasNode.split {common : List Bool} {b : Bool} {new old : List Bool} {c : Trie α} {v : α} {p : List Bool}
    (h : (edge (common ++ (!b) :: old) c).HasNode p) : (split common b new v old c).HasNode p := by
  by_cases hp : p = []
  · subst hp
    cases common with
    | nil => exact hasNode_branch_nil ..
    | cons a common => simp [Trie.split, Trie.ext, hasNode_nil]
  · obtain ⟨⟨p, rfl⟩, h⟩ := (hasNode_edge c hp).mp h
    rw [List.drop_left] at h
    rw [Trie.split, List.append_assoc, hasNode_ext_append, List.cons_append, hasNode_branch_cons,
      if_neg (by cases b <;> simp), hasNode_ext_append]
    exact h

/-! ## Join -/

/-- Joining changes no content. -/
theorem lookup_join (q : List Bool) (t : Trie α) (k : List Bool) : (join q t).lookup k = (edge q t).lookup k := by
  cases t with
  | leaf v => rfl
  | binary l r => rfl
  | edge q' c =>
    by_cases h : q <+: k
    · obtain ⟨k, rfl⟩ := h
      rw [join, lookup_edge_append_append, lookup_edge_append]
    · rw [join, lookup_edge, lookup_edge, if_neg h, if_neg fun hp => h ((List.prefix_append ..).trans hp)]

@[simp] theorem isEdge_join (q : List Bool) (t : Trie α) : (join q t).IsEdge := by cases t <;> exact trivial

theorem WF.join {n : Nat} {q : List Bool} {t : Trie α} (hq : q ≠ []) (h : t.WF n) : (join q t).WF (q.length + n) := by
  cases h with
  | leaf v => exact .edge hq (.leaf v) id
  | binary hl hr => exact .edge hq (.binary hl hr) id
  | @edge m q' c hq' hc he =>
    have := WF.edge (q := q ++ q') (by simp [hq]) hc he
    rwa [List.length_append, Nat.add_assoc] at this

/-- Joining loses only the node of the lower edge. -/
theorem HasNode.join {q : List Bool} {t : Trie α} {p : List Bool} (hq : q ≠ []) (h : (edge q t).HasNode p) :
    (join q t).HasNode p ∨ p = q ∧ t.IsEdge := by
  cases t with
  | leaf v => exact .inl h
  | binary l r => exact .inl h
  | edge q' c =>
    by_cases hp : p = []
    · subst hp; exact .inl (hasNode_nil.mpr id)
    obtain ⟨⟨p, rfl⟩, h⟩ := (hasNode_edge _ hp).mp h
    rw [List.drop_left] at h
    by_cases hp' : p = []
    · subst hp'; exact .inr ⟨by simp, trivial⟩
    obtain ⟨⟨p, rfl⟩, h⟩ := (hasNode_edge _ hp').mp h
    rw [List.drop_left] at h
    refine .inl ?_
    rw [Trie.join, ← List.append_assoc, hasNode_edge_append _ _ (by simp [hq])]
    exact h

/-- What is left of a binary node without its child in the direction `b` keeps the nodes that are
not in that child, except the other child if it is an edge. -/
theorem HasNode.join_branch {b : Bool} {x y : Trie α} {p : List Bool} (h : (branch b x y).HasNode p) :
    (Trie.join [!b] y).HasNode p ∨ (∃ p', p = b :: p' ∧ x.HasNode p') ∨ p = [!b] ∧ y.IsEdge := by
  cases p with
  | nil => exact .inl (by cases y <;> simp [Trie.join, hasNode_nil])
  | cons b' p =>
    rw [hasNode_branch_cons] at h
    split at h
    · rename_i hb; subst hb; exact .inr (.inl ⟨p, rfl, h⟩)
    · rename_i hb
      have hb' : b' = !b := by cases b <;> cases b' <;> simp_all
      subst hb'
      have := HasNode.join (q := [!b]) (by simp) ((hasNode_edge_append y p (by simp)).mpr h)
      rcases this with h | h
      · exact .inl h
      · exact .inr (.inr (by simpa using h))

/-- The content of a binary node without the one leaf in the direction `b`. -/
theorem lookup_join_branch (b : Bool) (q : List Bool) (v : α) (y : Trie α) (k : List Bool) :
    (join [!b] y).lookup k = if k = b :: q then none else (branch b (ext q (leaf v)) y).lookup k := by
  rw [lookup_join, lookup_edge]
  cases k with
  | nil => simp
  | cons b' k =>
    rw [lookup_branch_cons, lookup_ext_leaf]
    by_cases hb : b' = b
    · subst hb
      rw [if_neg (by simp)]
      by_cases hk : k = q <;> simp [hk]
    · have hb' : b' = !b := by cases b <;> cases b' <;> simp_all
      subst hb'
      simp

end Trie

end Patricia
