import BonsaiTrie.Framework.PatriciaMap

/-!
# What a digest binds

Canonical tries of one height with the same digest are equal, unless the digest
collides: at one path they have nodes that are not the same and have the same
digest (`WF.eq_or_collides`). The same holds of maps, or a trie has the digest
of the empty map (`eq_or_mapCollides`).
-/

namespace Patricia

variable {α β : Type} (zero : β) (leafD : α → β) (binD : β → β → β) (edgeD : List Bool → β → β)

namespace Trie

/-- The node at the top, over the digests of what is below it. -/
def top : Trie α → Trie β
  | leaf v => leaf (leafD v)
  | binary l r => binary (leaf (l.digest leafD binD edgeD)) (leaf (r.digest leafD binD edgeD))
  | edge q c => edge q (leaf (c.digest leafD binD edgeD))

/-- At one path, the tries have nodes that are not the same and have the same digest. -/
def Collides (t t' : Trie α) : Prop :=
  ∃ p s s', t.sub p = some s ∧ t'.sub p = some s' ∧ s.digest leafD binD edgeD = s'.digest leafD binD edgeD ∧
    s.top leafD binD edgeD ≠ s'.top leafD binD edgeD

variable {zero leafD binD edgeD} {t t' : Trie α} {n : Nat}

theorem Collides.of_top (h : t.digest leafD binD edgeD = t'.digest leafD binD edgeD)
    (hne : t.top leafD binD edgeD ≠ t'.top leafD binD edgeD) : Collides leafD binD edgeD t t' :=
  ⟨[], t, t', t.sub_nil, t'.sub_nil, h, hne⟩

theorem Collides.binary {l r l' r' : Trie α} (b : Bool)
    (h : Collides leafD binD edgeD (if b then r else l) (if b then r' else l')) :
    Collides leafD binD edgeD (.binary l r) (.binary l' r') := by
  obtain ⟨p, s, s', hs, hs', h⟩ := h
  refine ⟨b :: p, s, s', ?_, ?_, h⟩
  · cases b <;> exact hs
  · cases b <;> exact hs'

theorem Collides.edge {q : List Bool} {c c' : Trie α} (hq : q ≠ []) (h : Collides leafD binD edgeD c c') :
    Collides leafD binD edgeD (.edge q c) (.edge q c') := by
  obtain ⟨p, s, s', hs, hs', h⟩ := h
  exact ⟨q ++ p, s, s', by rw [sub_edge_append c p hq, hs], by rw [sub_edge_append c' p hq, hs'], h⟩

/-- The digest binds the trie. -/
theorem WF.eq_or_collides (ht : t.WF n) (ht' : t'.WF n) (hleaf : Function.Injective leafD)
    (h : t.digest leafD binD edgeD = t'.digest leafD binD edgeD) : t = t' ∨ Collides leafD binD edgeD t t' := by
  induction ht generalizing t' with
  | leaf v =>
    obtain ⟨v', rfl⟩ := ht'.eq_leaf
    exact .inl (congrArg Trie.leaf (hleaf h))
  | @binary n l r hl hr ihl ihr =>
    by_cases htop : (Trie.binary l r).top leafD binD edgeD = t'.top leafD binD edgeD
    · cases t' with
      | leaf v => cases htop
      | edge q c => cases htop
      | binary l' r' =>
        obtain ⟨hdl, hdr⟩ := Trie.binary.inj htop
        obtain ⟨m, hm, hl', hr'⟩ := ht'.binary_inv
        obtain rfl : n = m := by omega
        obtain rfl | hcol := ihl hl' (Trie.leaf.inj hdl)
        · obtain rfl | hcol := ihr hr' (Trie.leaf.inj hdr)
          · exact .inl rfl
          · exact .inr (.binary true hcol)
        · exact .inr (.binary false hcol)
    · exact .inr (.of_top h htop)
  | @edge n q c hq hc he ih =>
    by_cases htop : (Trie.edge q c).top leafD binD edgeD = t'.top leafD binD edgeD
    · cases t' with
      | leaf v => cases htop
      | binary l r => cases htop
      | edge q' c' =>
        obtain ⟨rfl, hdc⟩ := Trie.edge.inj htop
        obtain ⟨m, hm, -, hc', -⟩ := ht'.edge_inv
        obtain rfl : n = m := by omega
        obtain rfl | hcol := ih hc' (Trie.leaf.inj hdc)
        · exact .inl rfl
        · exact .inr (.edge hq hcol)
    · exact .inr (.of_top h htop)

end Trie

variable {M M' : List Bool → Option α} {n : Nat}

/-- One map is empty, and the trie of the other has the digest of the empty map. -/
def Vanishes (n : Nat) (M M' : List Bool → Option α) : Prop :=
  ofMap n M = none ∧ ∃ t, ofMap n M' = some t ∧ t.digest leafD binD edgeD = zero

/-- The digest collides on the tries of two maps. -/
def MapCollides (n : Nat) (M M' : List Bool → Option α) : Prop :=
  (∃ t t', ofMap n M = some t ∧ ofMap n M' = some t' ∧ Trie.Collides leafD binD edgeD t t') ∨
    Vanishes zero leafD binD edgeD n M M' ∨ Vanishes zero leafD binD edgeD n M' M

variable {zero leafD binD edgeD}

/-- The digest binds the map. -/
theorem eq_or_mapCollides (hleaf : Function.Injective leafD)
    (h : mapDigest zero leafD binD edgeD n M = mapDigest zero leafD binD edgeD n M') :
    (∀ k, k.length = n → M k = M' k) ∨ MapCollides zero leafD binD edgeD n M M' := by
  have hspec := ofMap_spec n M
  have hspec' := ofMap_spec n M'
  cases ht : ofMap n M with
  | none =>
    rw [ht] at hspec
    rw [mapDigest_of_not_populated _ _ _ _ hspec] at h
    cases ht' : ofMap n M' with
    | none =>
      rw [ht'] at hspec'
      exact .inl fun k hk => (hspec k hk).trans (hspec' k hk).symm
    | some t' =>
      rw [ht'] at hspec'
      rw [hspec'.1.mapDigest_eq _ _ _ _ hspec'.2] at h
      exact .inr (.inr (.inl ⟨ht, t', ht', h.symm⟩))
  | some t =>
    rw [ht] at hspec
    rw [hspec.1.mapDigest_eq _ _ _ _ hspec.2] at h
    cases ht' : ofMap n M' with
    | none =>
      rw [ht'] at hspec'
      rw [mapDigest_of_not_populated _ _ _ _ hspec'] at h
      exact .inr (.inr (.inr ⟨ht', t, ht, h⟩))
    | some t' =>
      rw [ht'] at hspec'
      rw [hspec'.1.mapDigest_eq _ _ _ _ hspec'.2] at h
      obtain rfl | hcol := hspec.1.eq_or_collides hspec'.1 hleaf h
      · exact .inl fun k hk => (hspec.2 k hk).trans (hspec'.2 k hk).symm
      · exact .inr (.inl ⟨t, t', ht, ht', hcol⟩)

end Patricia
