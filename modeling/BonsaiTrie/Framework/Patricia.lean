import Mathlib.Tactic

/-!
# Binary Patricia tries

Tries over bit strings whose unary runs are edges. `WF n` is the canonical form
at height `n`: all leaves at depth `n`, edges not empty and an edge's child
never an edge. `lookup` is the content, `sub` the subtrie that starts at a
path, and `plug` puts a subtrie in a context (`Frame`), the nodes passed on the
way to it. What a change of the subtrie does to the content (`lookup_plug_append`,
`lookup_plug_of_off`), to the canonical form (`WF.plug`) and to the set
of nodes (`hasNode_plug_append`, `hasNode_plug_of_off`) is said once, for
every context.
-/

namespace Patricia

variable {α : Type}

/-- A trie: a leaf, a branch on the next bit, or an edge of several bits. -/
inductive Trie (α : Type) where
  | leaf (v : α)
  | binary (l r : Trie α)
  | edge (q : List Bool) (c : Trie α)

namespace Trie

def IsLeaf : Trie α → Prop
  | leaf _ => True
  | _ => False

def IsEdge : Trie α → Prop
  | edge _ _ => True
  | _ => False

@[simp] theorem isLeaf_leaf (v : α) : (leaf v).IsLeaf := trivial
@[simp] theorem not_isLeaf_binary (l r : Trie α) : ¬ (binary l r).IsLeaf := id
@[simp] theorem not_isLeaf_edge (q : List Bool) (c : Trie α) : ¬ (edge q c).IsLeaf := id
@[simp] theorem not_isEdge_leaf (v : α) : ¬ (leaf v).IsEdge := id
@[simp] theorem not_isEdge_binary (l r : Trie α) : ¬ (binary l r).IsEdge := id
@[simp] theorem isEdge_edge (q : List Bool) (c : Trie α) : (edge q c).IsEdge := trivial

/-- The canonical tries of height `n`. -/
inductive WF : Nat → Trie α → Prop where
  | leaf (v : α) : WF 0 (leaf v)
  | binary {n : Nat} {l r : Trie α} : WF n l → WF n r → WF (n + 1) (binary l r)
  | edge {n : Nat} {q : List Bool} {c : Trie α} : q ≠ [] → WF n c → ¬ c.IsEdge → WF (q.length + n) (edge q c)

/-- The value under a key. -/
def lookup : Trie α → List Bool → Option α
  | leaf v, [] => some v
  | leaf _, _ :: _ => none
  | binary _ _, [] => none
  | binary l r, b :: k => if b then r.lookup k else l.lookup k
  | edge q c, k => if q <+: k then c.lookup (k.drop q.length) else none

/-- The subtrie that starts at a path. -/
def sub : Trie α → List Bool → Option (Trie α)
  | t, [] => some t
  | leaf _, _ :: _ => none
  | binary l r, b :: p => if b then r.sub p else l.sub p
  | edge q c, b :: p => if q <+: b :: p then c.sub ((b :: p).drop q.length) else none

/-- The nodes on the way to a key, down to the parent of its leaf or to the first edge that leaves it. -/
def search : Trie α → List Bool → List (Trie α)
  | leaf _, _ => []
  | binary l r, [] => [binary l r]
  | binary l r, b :: k => binary l r :: if b then r.search k else l.search k
  | edge q c, k => edge q c :: if q <+: k then c.search (k.drop q.length) else []

/-- The nodes above the end of a key, with the paths they start at, down to the first edge that leaves the key. -/
def course : Trie α → List Bool → List (List Bool × Trie α)
  | _, [] => []
  | leaf _, _ :: _ => []
  | binary l r, b :: k => ([], binary l r) :: (if b then r.course k else l.course k).map fun e => (b :: e.1, e.2)
  | edge q c, b :: k =>
    ([], edge q c) ::
      if q <+: b :: k then (c.course ((b :: k).drop q.length)).map fun e => (q ++ e.1, e.2) else []

/-- The path that the last of these nodes ends at. -/
def reach : Trie α → List Bool → List Bool
  | _, [] => []
  | leaf _, _ :: _ => []
  | binary l r, b :: k => b :: if b then r.reach k else l.reach k
  | edge q c, b :: k => q ++ if q <+: b :: k then c.reach ((b :: k).drop q.length) else []

/-- A node, that is not a leaf, starts at the path. -/
def HasNode (t : Trie α) (p : List Bool) : Prop := ∃ s, t.sub p = some s ∧ ¬ s.IsLeaf

@[simp] theorem sub_nil (t : Trie α) : t.sub [] = some t := by cases t <;> rfl

@[simp] theorem course_nil (t : Trie α) : t.course [] = [] := by cases t <;> rfl

@[simp] theorem reach_nil (t : Trie α) : t.reach [] = [] := by cases t <;> rfl

theorem lookup_edge (q : List Bool) (c : Trie α) (k : List Bool) :
    (edge q c).lookup k = if q <+: k then c.lookup (k.drop q.length) else none := by
  rw [lookup]

@[simp] theorem lookup_edge_append (q : List Bool) (c : Trie α) (k : List Bool) :
    (edge q c).lookup (q ++ k) = c.lookup k := by
  simp [lookup_edge]

@[simp] theorem lookup_binary_cons (l r : Trie α) (b : Bool) (k : List Bool) :
    (binary l r).lookup (b :: k) = if b then r.lookup k else l.lookup k := rfl

theorem sub_edge {q p : List Bool} (c : Trie α) (hp : p ≠ []) :
    (edge q c).sub p = if q <+: p then c.sub (p.drop q.length) else none := by
  obtain ⟨b, p, rfl⟩ := List.exists_cons_of_ne_nil hp
  rfl

@[simp] theorem sub_edge_append {q : List Bool} (c : Trie α) (p : List Bool) (hq : q ≠ []) :
    (edge q c).sub (q ++ p) = c.sub p := by
  rw [sub_edge c (by simp [hq])]
  simp

theorem hasNode_nil {t : Trie α} : t.HasNode [] ↔ ¬ t.IsLeaf := by simp [HasNode]

@[simp] theorem hasNode_leaf (v : α) (p : List Bool) : ¬ (leaf v).HasNode p := by
  rintro ⟨s, hs, hl⟩
  cases p with
  | nil => simp only [sub_nil, Option.some.injEq] at hs; subst hs; exact hl trivial
  | cons b p => simp [sub] at hs

@[simp] theorem hasNode_binary_cons (l r : Trie α) (b : Bool) (p : List Bool) :
    (binary l r).HasNode (b :: p) ↔ if b then r.HasNode p else l.HasNode p := by
  cases b <;> simp [HasNode, sub]

theorem hasNode_edge {q p : List Bool} (c : Trie α) (hp : p ≠ []) :
    (edge q c).HasNode p ↔ q <+: p ∧ c.HasNode (p.drop q.length) := by
  simp only [HasNode, sub_edge c hp]
  split <;> simp [*]

theorem hasNode_edge_append {q : List Bool} (c : Trie α) (p : List Bool) (hq : q ≠ []) :
    (edge q c).HasNode (q ++ p) ↔ c.HasNode p := by
  simp [HasNode, sub_edge_append c p hq]

/-! ## Canonical tries -/

theorem WF.length_of_lookup {n : Nat} {t : Trie α} (h : t.WF n) {k : List Bool} {v : α}
    (hk : t.lookup k = some v) : k.length = n := by
  induction h generalizing k with
  | leaf w => cases k <;> simp_all [lookup]
  | binary _ _ ihl ihr =>
    cases k with
    | nil => simp [lookup] at hk
    | cons b k =>
      rw [lookup_binary_cons] at hk
      cases b
      · simp [ihl hk]
      · simp [ihr hk]
  | edge _ _ _ ih =>
    rw [lookup_edge] at hk
    split at hk
    · rename_i hq
      obtain ⟨k, rfl⟩ := hq
      rw [List.drop_left] at hk
      simp [ih hk]
    · cases hk

theorem WF.exists_lookup {n : Nat} {t : Trie α} (h : t.WF n) : ∃ k v, t.lookup k = some v := by
  induction h with
  | leaf v => exact ⟨[], v, rfl⟩
  | binary _ _ ihl _ => obtain ⟨k, v, hk⟩ := ihl; exact ⟨false :: k, v, hk⟩
  | edge _ _ _ ih => obtain ⟨k, v, hk⟩ := ih; exact ⟨_ ++ k, v, (lookup_edge_append ..).trans hk⟩

theorem WF.not_isLeaf {n : Nat} {t : Trie α} (h : t.WF n) (hn : 0 < n) : ¬ t.IsLeaf := by
  cases h with
  | leaf => omega
  | binary => exact id
  | edge => exact id

/-- A canonical trie of height zero. -/
theorem WF.eq_leaf {t : Trie α} (h : t.WF 0) : ∃ v, t = .leaf v := by
  generalize hn : 0 = n at h
  cases h with
  | leaf v => exact ⟨v, rfl⟩
  | binary => omega
  | edge hq => have := List.length_pos_of_ne_nil hq; omega

theorem WF.binary_inv {n : Nat} {l r : Trie α} (h : (Trie.binary l r).WF n) :
    ∃ m, n = m + 1 ∧ l.WF m ∧ r.WF m := by
  cases h with | binary hl hr => exact ⟨_, rfl, hl, hr⟩

theorem WF.edge_inv {n : Nat} {q : List Bool} {c : Trie α} (h : (Trie.edge q c).WF n) :
    ∃ m, n = q.length + m ∧ q ≠ [] ∧ c.WF m ∧ ¬ c.IsEdge := by
  cases h with | edge hq hc he => exact ⟨_, rfl, hq, hc, he⟩

/-- The nodes of a canonical trie are above its leaves. -/
theorem WF.length_lt_of_hasNode {n : Nat} {t : Trie α} (h : t.WF n) {p : List Bool} (hp : t.HasNode p) :
    p.length < n := by
  induction h generalizing p with
  | leaf v => exact (hasNode_leaf v p hp).elim
  | binary _ _ ihl ihr =>
    cases p with
    | nil => simp
    | cons b p =>
      rw [hasNode_binary_cons] at hp
      cases b
      · simpa using ihl (by simpa using hp)
      · simpa using ihr (by simpa using hp)
  | @edge m q c hq _ _ ih =>
    have := List.length_pos_of_ne_nil hq
    by_cases hp0 : p = []
    · subst hp0; simp only [List.length_nil]; omega
    · obtain ⟨⟨p, rfl⟩, hc⟩ := (hasNode_edge c hp0).mp hp
      rw [List.drop_left] at hc
      simpa using ih hc

/-- The subtries of a canonical trie are canonical. -/
theorem WF.sub {n : Nat} {t : Trie α} (h : t.WF n) {p : List Bool} {s : Trie α} (hs : t.sub p = some s) :
    ∃ m, n = p.length + m ∧ s.WF m := by
  induction h generalizing p with
  | leaf v =>
    cases p with
    | nil => simp only [sub_nil, Option.some.injEq] at hs; subst hs; exact ⟨0, rfl, .leaf v⟩
    | cons b p => simp [Trie.sub] at hs
  | @binary m l r hl hr ihl ihr =>
    cases p with
    | nil => simp only [sub_nil, Option.some.injEq] at hs; subst hs; exact ⟨_, by simp, .binary hl hr⟩
    | cons b p =>
      rw [Trie.sub] at hs
      cases b
      · obtain ⟨i, rfl, hi⟩ := ihl (by simpa using hs); exact ⟨i, by simp only [List.length_cons]; omega, hi⟩
      · obtain ⟨i, rfl, hi⟩ := ihr (by simpa using hs); exact ⟨i, by simp only [List.length_cons]; omega, hi⟩
  | @edge m q c hq hc he ih =>
    by_cases hp0 : p = []
    · subst hp0; simp only [sub_nil, Option.some.injEq] at hs; subst hs; exact ⟨_, by simp, .edge hq hc he⟩
    · rw [sub_edge c hp0] at hs
      split at hs
      · rename_i hpre
        obtain ⟨p, rfl⟩ := hpre
        rw [List.drop_left] at hs
        obtain ⟨i, rfl, hi⟩ := ih hs
        exact ⟨i, by simp only [List.length_append]; omega, hi⟩
      · cases hs

/-- The leaves are the values. -/
theorem WF.lookup_eq_some_iff {n : Nat} {t : Trie α} (h : t.WF n) {k : List Bool} {v : α} :
    t.lookup k = some v ↔ t.sub k = some (.leaf v) := by
  induction h generalizing k with
  | leaf w => cases k <;> simp [lookup, Trie.sub]
  | binary _ _ ihl ihr =>
    rcases k with _ | ⟨_ | _, k⟩
    · simp [lookup]
    · exact ihl
    · exact ihr
  | @edge m q c hq _ _ ih =>
    rw [lookup_edge]
    by_cases hk : k = []
    · subst hk
      simp [hq]
    · rw [sub_edge c hk]
      split
      · exact ih
      · simp

/-- What is below a path is below the subtrie there. -/
theorem WF.sub_append {n : Nat} {t s : Trie α} (h : t.WF n) {p : List Bool} (hs : t.sub p = some s) (q : List Bool) :
    t.sub (p ++ q) = s.sub q := by
  induction h generalizing p with
  | leaf v =>
    cases p with
    | nil => cases hs; rfl
    | cons b p => cases hs
  | @binary m l r _ _ ihl ihr =>
    rcases p with _ | ⟨_ | _, p⟩
    · cases hs; rfl
    · exact ihl hs
    · exact ihr hs
  | @edge m c' c hc _ _ ih =>
    by_cases hp : p = []
    · subst hp
      cases hs
      rfl
    · rw [sub_edge c hp] at hs
      split at hs
      · rename_i hpre
        obtain ⟨p, rfl⟩ := hpre
        rw [List.drop_left] at hs
        rw [List.append_assoc, sub_edge_append c _ hc, ih hs]
      · cases hs

/-- So is the value of a key. -/
theorem WF.lookup_append {n : Nat} {t s : Trie α} (h : t.WF n) {p : List Bool} (hs : t.sub p = some s) (k : List Bool) :
    t.lookup (p ++ k) = s.lookup k := by
  obtain ⟨m, -, hw⟩ := h.sub hs
  refine Option.ext fun v => ?_
  rw [h.lookup_eq_some_iff, hw.lookup_eq_some_iff, h.sub_append hs]

/-- They are the nodes that start at a prefix of the key. -/
theorem WF.mem_search_iff {n : Nat} {t s : Trie α} (h : t.WF n) {k : List Bool} :
    s ∈ t.search k ↔ ∃ p, p <+: k ∧ t.sub p = some s ∧ ¬ s.IsLeaf := by
  induction h generalizing k with
  | leaf v =>
    refine ⟨nofun, fun ⟨p, _, hs, hl⟩ => ?_⟩
    exact (hasNode_leaf v p ⟨s, hs, hl⟩).elim
  | @binary m l r _ _ ihl ihr =>
    have hroot : (∃ p, p <+: ([] : List Bool) ∧ (Trie.binary l r).sub p = some s ∧ ¬ s.IsLeaf) ↔ s = .binary l r := by
      constructor
      · rintro ⟨p, hp, hs, -⟩
        rw [List.prefix_nil.mp hp] at hs
        exact (Option.some.inj hs).symm
      · rintro rfl
        exact ⟨[], List.nil_prefix, sub_nil _, id⟩
    cases k with
    | nil => rw [hroot, search, List.mem_singleton]
    | cons b k =>
      have hsplit : (∃ p, p <+: b :: k ∧ (Trie.binary l r).sub p = some s ∧ ¬ s.IsLeaf) ↔
          s = .binary l r ∨ ∃ p, p <+: k ∧ (if b then r.sub p else l.sub p) = some s ∧ ¬ s.IsLeaf := by
        constructor
        · rintro ⟨p, hp, hs, hl⟩
          rcases p with _ | ⟨b', p⟩
          · exact .inl (Option.some.inj ((sub_nil _).symm.trans hs)).symm
          · obtain ⟨rfl, hpk⟩ := List.cons_prefix_cons.mp hp
            exact .inr ⟨p, hpk, hs, hl⟩
        · rintro (rfl | ⟨p, hp, hs, hl⟩)
          · exact ⟨[], List.nil_prefix, sub_nil _, id⟩
          · exact ⟨b :: p, List.cons_prefix_cons.mpr ⟨rfl, hp⟩, hs, hl⟩
      rw [hsplit, search, List.mem_cons]
      cases b
      · exact or_congr_right ihl
      · exact or_congr_right ihr
  | @edge m q c hq _ _ ih =>
    have hsplit : (∃ p, p <+: k ∧ (Trie.edge q c).sub p = some s ∧ ¬ s.IsLeaf) ↔
        s = .edge q c ∨ q <+: k ∧ ∃ p, p <+: k.drop q.length ∧ c.sub p = some s ∧ ¬ s.IsLeaf := by
      constructor
      · rintro ⟨p, hp, hs, hl⟩
        by_cases hp0 : p = []
        · subst hp0
          exact .inl (Option.some.inj ((sub_nil _).symm.trans hs)).symm
        · rw [sub_edge c hp0] at hs
          split at hs
          · rename_i hqp
            obtain ⟨p, rfl⟩ := hqp
            obtain ⟨k, rfl⟩ := (List.prefix_append q p).trans hp
            rw [List.drop_left] at hs ⊢
            exact .inr ⟨List.prefix_append .., p, (List.prefix_append_right_inj q).mp hp, hs, hl⟩
          · cases hs
      · rintro (rfl | ⟨⟨k, rfl⟩, p, hp, hs, hl⟩)
        · exact ⟨[], List.nil_prefix, sub_nil _, id⟩
        · rw [List.drop_left] at hp
          exact ⟨q ++ p, (List.prefix_append_right_inj q).mpr hp, by rw [sub_edge_append c p hq, hs], hl⟩
    rw [hsplit, search, List.mem_cons]
    refine or_congr_right ?_
    split
    · rename_i hk
      rw [ih]
      exact ⟨fun h => ⟨hk, h⟩, fun h => h.2⟩
    · rename_i hk
      exact ⟨nofun, fun h => (hk h.1).elim⟩

end Trie

/-! ## Contexts -/

open Trie

/-- A node passed on the way down: a binary node with its other child, or an edge. -/
inductive Frame (α : Type) where
  | left (r : Trie α)
  | right (l : Trie α)
  | edge (q : List Bool)

namespace Frame

/-- The node, with the trie below it. -/
def fill : Frame α → Trie α → Trie α
  | left r, t => .binary t r
  | right l, t => .binary l t
  | edge q, t => .edge q t

/-- The bits from the node to the trie below it. -/
def tip : Frame α → List Bool
  | left _ => [false]
  | right _ => [true]
  | edge q => q

def IsEdge : Frame α → Prop
  | edge _ => True
  | _ => False

theorem not_isLeaf_fill (f : Frame α) (t : Trie α) : ¬ (f.fill t).IsLeaf := by cases f <;> simp [fill]

@[simp] theorem lookup_fill_append (f : Frame α) (t : Trie α) (k : List Bool) :
    (f.fill t).lookup (f.tip ++ k) = t.lookup k := by
  cases f <;> simp [fill, tip]

theorem lookup_fill_of_off (f : Frame α) (t t' : Trie α) {k : List Bool} (h : ¬ f.tip <+: k) :
    (f.fill t).lookup k = (f.fill t').lookup k := by
  cases f with
  | edge q => rw [tip] at h; simp only [fill, lookup_edge, if_neg h]
  | left r =>
    cases k with
    | nil => rfl
    | cons b k => cases b <;> simp_all [tip, fill]
  | right l =>
    cases k with
    | nil => rfl
    | cons b k => cases b <;> simp_all [tip, fill]

theorem sub_fill_append (f : Frame α) (t : Trie α) (p : List Bool) (hf : f.tip ≠ []) :
    (f.fill t).sub (f.tip ++ p) = t.sub p := by
  cases f with
  | edge q => exact sub_edge_append t p hf
  | left r => rfl
  | right l => rfl

/-- Nodes with the paths they start at, from a path on. -/
def shift (p : List Bool) (l : List (List Bool × Trie α)) : List (List Bool × Trie α) := l.map fun e => (p ++ e.1, e.2)

@[simp] theorem shift_nil (l : List (List Bool × Trie α)) : shift [] l = l := by simp [shift]

theorem shift_shift (p q : List Bool) (l : List (List Bool × Trie α)) : shift p (shift q l) = shift (p ++ q) l := by
  simp [shift]

theorem course_fill_append (f : Frame α) (t : Trie α) {k : List Bool} (hf : f.tip ≠ []) :
    (f.fill t).course (f.tip ++ k) = ([], f.fill t) :: shift f.tip (t.course k) := by
  cases f with
  | left r => rfl
  | right l => rfl
  | edge q =>
    obtain ⟨b, q, rfl⟩ := List.exists_cons_of_ne_nil hf
    simp [fill, tip, Trie.course, shift]

theorem reach_fill_append (f : Frame α) (t : Trie α) {k : List Bool} (hf : f.tip ≠ []) :
    (f.fill t).reach (f.tip ++ k) = f.tip ++ t.reach k := by
  cases f with
  | left r => rfl
  | right l => rfl
  | edge q =>
    obtain ⟨b, q, rfl⟩ := List.exists_cons_of_ne_nil hf
    simp [fill, tip, Trie.reach]

/-- At an edge that the key leaves. -/
theorem course_edge_of_off (t : Trie α) {q k : List Bool} (hk : k ≠ []) (h : ¬ q <+: k) :
    (Trie.edge q t).course k = [([], Trie.edge q t)] ∧ (Trie.edge q t).reach k = q := by
  obtain ⟨b, k, rfl⟩ := List.exists_cons_of_ne_nil hk
  simp [Trie.course, Trie.reach, h]

/-- The nodes of the trie below are nodes. -/
theorem hasNode_fill (f : Frame α) {t : Trie α} {p : List Bool} (h : t.HasNode p) : (f.fill t).HasNode (f.tip ++ p) := by
  cases f with
  | left r => simpa [fill, tip] using h
  | right l => simpa [fill, tip] using h
  | edge q =>
    by_cases hp : q ++ p = []
    · rw [tip, hp]; exact hasNode_nil.mpr id
    · exact (hasNode_edge t hp).mpr ⟨List.prefix_append .., by simpa using h⟩

theorem hasNode_fill_of_off (f : Frame α) (t t' : Trie α) {p : List Bool} (h : ¬ f.tip <+: p) :
    (f.fill t).HasNode p ↔ (f.fill t').HasNode p := by
  by_cases hp : p = []
  · subst hp; simp [hasNode_nil, not_isLeaf_fill]
  cases f with
  | edge q => simp only [fill, hasNode_edge _ hp]; rw [tip] at h; simp [h]
  | left r => obtain ⟨b, p, rfl⟩ := List.exists_cons_of_ne_nil hp; cases b <;> simp_all [tip, fill]
  | right l => obtain ⟨b, p, rfl⟩ := List.exists_cons_of_ne_nil hp; cases b <;> simp_all [tip, fill]

end Frame

/-- A trie in a context, the innermost frame first. -/
def plug : List (Frame α) → Trie α → Trie α
  | [], t => t
  | f :: fs, t => plug fs (f.fill t)

/-- The path to the hole of a context. -/
def path : List (Frame α) → List Bool
  | [] => []
  | f :: fs => path fs ++ f.tip

@[simp] theorem plug_nil (t : Trie α) : plug [] t = t := rfl
@[simp] theorem plug_cons (f : Frame α) (fs : List (Frame α)) (t : Trie α) :
    plug (f :: fs) t = plug fs (f.fill t) := rfl
@[simp] theorem path_nil : path ([] : List (Frame α)) = [] := rfl
@[simp] theorem path_cons (f : Frame α) (fs : List (Frame α)) : path (f :: fs) = path fs ++ f.tip := rfl

theorem plug_append (fs gs : List (Frame α)) (t : Trie α) : plug (fs ++ gs) t = plug gs (plug fs t) := by
  induction fs generalizing t with
  | nil => rfl
  | cons f fs ih => exact ih _

theorem path_append (fs gs : List (Frame α)) : path (fs ++ gs) = path gs ++ path fs := by
  induction fs with
  | nil => simp
  | cons f fs ih => simp [ih]

/-- Keys through the hole are those of the trie in it. -/
@[simp] theorem lookup_plug_append (fs : List (Frame α)) (t : Trie α) (k : List Bool) :
    (plug fs t).lookup (path fs ++ k) = t.lookup k := by
  induction fs generalizing t k with
  | nil => rfl
  | cons f fs ih => rw [plug_cons, path_cons, List.append_assoc, ih, f.lookup_fill_append]

/-- Keys past the hole do not see the trie in it. -/
theorem lookup_plug_of_off (fs : List (Frame α)) (t t' : Trie α) {k : List Bool} (h : ¬ path fs <+: k) :
    (plug fs t).lookup k = (plug fs t').lookup k := by
  induction fs generalizing t t' k with
  | nil => exact (h (List.nil_prefix)).elim
  | cons f fs ih =>
    rw [plug_cons, plug_cons]
    by_cases hp : path fs <+: k
    · obtain ⟨k, rfl⟩ := hp
      rw [lookup_plug_append, lookup_plug_append]
      exact f.lookup_fill_of_off t t' fun hf => h (by
        rw [path_cons]; exact (List.prefix_append_right_inj _).mpr hf)
    · exact ih _ _ hp

/-- Tries with the same content have the same content in a context. -/
theorem lookup_plug_congr (fs : List (Frame α)) {t t' : Trie α} (h : ∀ k, t.lookup k = t'.lookup k)
    (k : List Bool) : (plug fs t).lookup k = (plug fs t').lookup k := by
  by_cases hp : path fs <+: k
  · obtain ⟨k, rfl⟩ := hp
    rw [lookup_plug_append, lookup_plug_append, h]
  · exact lookup_plug_of_off fs t t' hp

/-- No frame of the context is an empty edge. -/
def Proper (fs : List (Frame α)) : Prop := ∀ f ∈ fs, f.tip ≠ []

theorem sub_plug_append {fs : List (Frame α)} (hfs : Proper fs) (t : Trie α) (p : List Bool) :
    (plug fs t).sub (path fs ++ p) = t.sub p := by
  induction fs generalizing t p with
  | nil => rfl
  | cons f fs ih =>
    rw [plug_cons, path_cons, List.append_assoc, ih (fun g hg => hfs g (List.mem_cons_of_mem _ hg)),
      f.sub_fill_append _ _ (hfs f List.mem_cons_self)]

/-- The nodes of the context, with the paths they start at. -/
def stations : List (Frame α) → Trie α → List (List Bool × Trie α)
  | [], _ => []
  | f :: fs, t => stations fs (f.fill t) ++ [(path fs, f.fill t)]

/-- The nodes on the way to a key through the hole. -/
theorem course_plug_append {fs : List (Frame α)} (hfs : Proper fs) (t : Trie α) (k : List Bool) :
    (plug fs t).course (path fs ++ k) = stations fs t ++ Frame.shift (path fs) (t.course k) := by
  induction fs generalizing t k with
  | nil => simp [stations]
  | cons f fs ih =>
    rw [plug_cons, path_cons, List.append_assoc, ih (fun g hg => hfs g (List.mem_cons_of_mem _ hg)),
      f.course_fill_append _ (hfs f List.mem_cons_self), stations, List.append_assoc, ← Frame.shift_shift]
    simp [Frame.shift]

theorem reach_plug_append {fs : List (Frame α)} (hfs : Proper fs) (t : Trie α) (k : List Bool) :
    (plug fs t).reach (path fs ++ k) = path fs ++ t.reach k := by
  induction fs generalizing t k with
  | nil => rfl
  | cons f fs ih =>
    rw [plug_cons, path_cons, List.append_assoc, ih (fun g hg => hfs g (List.mem_cons_of_mem _ hg)),
      f.reach_fill_append _ (hfs f List.mem_cons_self), List.append_assoc]

/-- The way of a key that ends at the hole, or leaves the context's last edge. -/
theorem course_plug_of_end {f : Frame α} {fs : List (Frame α)} (hfs : Proper (f :: fs)) (t : Trie α) {k : List Bool}
    (hk : k ≠ []) (hend : f.tip = k ∨ f.IsEdge ∧ ¬ f.tip <+: k) :
    (plug (f :: fs) t).course (path fs ++ k) = stations (f :: fs) t ∧
      (plug (f :: fs) t).reach (path fs ++ k) = path (f :: fs) := by
  have hproper : Proper fs := fun g hg => hfs g (List.mem_cons_of_mem _ hg)
  have htop : (f.fill t).course k = [([], f.fill t)] ∧ (f.fill t).reach k = f.tip := by
    rcases hend with rfl | ⟨hedge, hoff⟩
    · have hc := f.course_fill_append t (hfs f List.mem_cons_self) (k := [])
      have hr := f.reach_fill_append t (hfs f List.mem_cons_self) (k := [])
      rw [List.append_nil, Trie.course_nil] at hc
      rw [List.append_nil, Trie.reach_nil, List.append_nil] at hr
      exact ⟨hc, hr⟩
    · cases f with
      | edge q => exact Frame.course_edge_of_off t hk hoff
      | left r => exact hedge.elim
      | right l => exact hedge.elim
  rw [plug_cons, course_plug_append hproper, reach_plug_append hproper, htop.1, htop.2]
  exact ⟨by simp [Frame.shift, stations], rfl⟩

theorem hasNode_plug_append {fs : List (Frame α)} (hfs : Proper fs) (t : Trie α) (p : List Bool) :
    (plug fs t).HasNode (path fs ++ p) ↔ t.HasNode p := by
  simp only [HasNode, sub_plug_append hfs]

/-- The nodes of the trie in the hole are nodes. -/
theorem hasNode_plug (fs : List (Frame α)) {t : Trie α} {p : List Bool} (h : t.HasNode p) :
    (plug fs t).HasNode (path fs ++ p) := by
  induction fs generalizing t p with
  | nil => exact h
  | cons f fs ih =>
    rw [path_cons, List.append_assoc]
    exact ih (f.hasNode_fill h)

/-- The nodes past the hole do not depend on the trie in it. -/
theorem hasNode_plug_of_off {fs : List (Frame α)} (hfs : Proper fs) (t t' : Trie α) {p : List Bool}
    (h : ¬ path fs <+: p) : (plug fs t).HasNode p ↔ (plug fs t').HasNode p := by
  induction fs generalizing t t' p with
  | nil => exact (h (List.nil_prefix)).elim
  | cons f fs ih =>
    have hfs' : Proper fs := fun g hg => hfs g (List.mem_cons_of_mem _ hg)
    rw [plug_cons, plug_cons]
    by_cases hp : path fs <+: p
    · obtain ⟨p, rfl⟩ := hp
      rw [hasNode_plug_append hfs', hasNode_plug_append hfs']
      exact f.hasNode_fill_of_off t t' fun hf => h (by
        rw [path_cons]; exact (List.prefix_append_right_inj _).mpr hf)
    · exact ih hfs' _ _ hp

/-- The innermost frame is an edge. -/
def EdgeHead : List (Frame α) → Prop
  | [] => False
  | f :: _ => f.IsEdge

/-- What a canonical trie says of a context and of the trie in its hole, and what may be put there
instead: a canonical trie of the same height, that is no edge under an edge. -/
theorem Trie.WF.plug (fs : List (Frame α)) {n : Nat} {t : Trie α} (h : (Patricia.plug fs t).WF n) :
    ∃ m, n = (path fs).length + m ∧ t.WF m ∧ Proper fs ∧ (t.IsEdge → ¬ EdgeHead fs) ∧
      ∀ t' : Trie α, t'.WF m → (t'.IsEdge → ¬ EdgeHead fs) → (Patricia.plug fs t').WF n := by
  induction fs generalizing t n with
  | nil => exact ⟨n, by simp, h, by simp [Proper], by simp [EdgeHead], fun t' ht' _ => ht'⟩
  | cons f fs ih =>
    obtain ⟨m, rfl, hf, hp, he, hr⟩ := ih h
    have hproper (hf : f.tip ≠ []) : Proper (f :: fs) := by
      intro g hg
      rcases List.mem_cons.mp hg with rfl | hg
      · exact hf
      · exact hp g hg
    cases f with
    | left r =>
      obtain ⟨i, rfl, hl, hr'⟩ := hf.binary_inv
      refine ⟨i, by simp only [path_cons, Frame.tip, List.length_append, List.length_singleton]; omega, hl,
        hproper (by simp [Frame.tip]), fun _ => id, fun t' ht' _ => hr _ (.binary ht' hr') (by simp [Frame.fill])⟩
    | right l =>
      obtain ⟨i, rfl, hl, hr'⟩ := hf.binary_inv
      refine ⟨i, by simp only [path_cons, Frame.tip, List.length_append, List.length_singleton]; omega, hr',
        hproper (by simp [Frame.tip]), fun _ => id, fun t' ht' _ => hr _ (.binary hl ht') (by simp [Frame.fill])⟩
    | edge q =>
      obtain ⟨i, rfl, hq, hc, hce⟩ := hf.edge_inv
      exact ⟨i, by simp only [path_cons, Frame.tip, List.length_append]; omega, hc, hproper hq,
        fun ht _ => hce ht, fun t' ht' ht'e => hr _ (.edge hq ht' fun h => ht'e h trivial) fun _ => he trivial⟩

end Patricia
