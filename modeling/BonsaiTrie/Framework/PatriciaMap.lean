import BonsaiTrie.Framework.PatriciaEdit

/-!
# The canonical trie of a map, and its digest

A map on the bit strings of length `n` has one canonical trie (`ofMap`): two
canonical tries with the same content are equal (`WF.ofMap_eq`). A digest
folds a trie bottom up; `mapDigest` says what it is without the trie, from the
map alone: the digests of the two halves where both are populated, else that
of the rest under the longest prefix all keys share (`WF.mapDigest_eq`).
-/

namespace Patricia

variable {α β : Type}

/-- A map with a key of length `n`. -/
def populated : Nat → (List Bool → Option α) → Bool
  | 0, M => (M []).isSome
  | n + 1, M => populated n (fun k => M (false :: k)) || populated n (fun k => M (true :: k))

/-- The longest prefix shared by all keys of length `n`. -/
def sharedPrefix : Nat → (List Bool → Option α) → List Bool
  | 0, _ => []
  | n + 1, M =>
    match populated n (fun k => M (false :: k)), populated n (fun k => M (true :: k)) with
    | true, false => false :: sharedPrefix n fun k => M (false :: k)
    | false, true => true :: sharedPrefix n fun k => M (true :: k)
    | _, _ => []

theorem populated_iff {n : Nat} {M : List Bool → Option α} :
    populated n M = true ↔ ∃ k, k.length = n ∧ (M k).isSome := by
  induction n generalizing M with
  | zero =>
    constructor
    · exact fun h => ⟨[], rfl, h⟩
    · rintro ⟨k, hk, h⟩
      rw [List.length_eq_zero_iff.mp hk] at h
      exact h
  | succ n ih =>
    rw [populated, Bool.or_eq_true, ih, ih]
    constructor
    · rintro (⟨k, hk, h⟩ | ⟨k, hk, h⟩)
      · exact ⟨false :: k, by simp [hk], h⟩
      · exact ⟨true :: k, by simp [hk], h⟩
    · rintro ⟨k, hk, h⟩
      cases k with
      | nil => simp at hk
      | cons b k =>
        cases b
        · exact .inl ⟨k, by simpa using hk, h⟩
        · exact .inr ⟨k, by simpa using hk, h⟩

/-- Where one half alone is populated, the shared prefix is not empty. -/
theorem sharedPrefix_ne_nil {n : Nat} {M : List Bool → Option α} (hp : populated (n + 1) M = true)
    (h : ¬ (populated n (fun k => M (false :: k)) && populated n fun k => M (true :: k)) = true) :
    sharedPrefix (n + 1) M ≠ [] := by
  rw [sharedPrefix]
  rw [populated] at hp
  revert hp h
  cases populated n (fun k => M (false :: k)) <;> cases populated n (fun k => M (true :: k)) <;> simp

section Digest

variable (zero : β) (leafD : α → β) (binD : β → β → β) (edgeD : List Bool → β → β)

/-- The digest of a trie. -/
def Trie.digest : Trie α → β
  | .leaf v => leafD v
  | .binary l r => binD l.digest r.digest
  | .edge q c => edgeD q c.digest

/-- The digest of a map on the keys of length `n`. -/
def mapDigest : Nat → (List Bool → Option α) → β
  | 0, M => match M [] with | some v => leafD v | none => zero
  | n + 1, M =>
    if _hp : populated (n + 1) M = true then
      if _h : (populated n (fun k => M (false :: k)) && populated n fun k => M (true :: k)) = true then
        binD (mapDigest n fun k => M (false :: k)) (mapDigest n fun k => M (true :: k))
      else
        edgeD (sharedPrefix (n + 1) M)
          (mapDigest (n + 1 - (sharedPrefix (n + 1) M).length) fun k => M (sharedPrefix (n + 1) M ++ k))
    else zero
  termination_by n => n
  decreasing_by
    · omega
    · omega
    · have := List.length_pos_of_ne_nil (sharedPrefix_ne_nil _hp _h)
      omega

end Digest

/-! ## Maps and canonical tries -/

/-- A map has, on the keys of length `n`, the content of a trie. -/
def Agrees (n : Nat) (M : List Bool → Option α) (t : Trie α) : Prop := ∀ k, k.length = n → M k = t.lookup k

namespace Agrees

variable {n : Nat} {M : List Bool → Option α}

theorem left {l r : Trie α} (h : Agrees (n + 1) M (.binary l r)) : Agrees n (fun k => M (false :: k)) l :=
  fun k hk => by simp [h (false :: k) (by simp [hk])]

theorem right {l r : Trie α} (h : Agrees (n + 1) M (.binary l r)) : Agrees n (fun k => M (true :: k)) r :=
  fun k hk => by simp [h (true :: k) (by simp [hk])]

theorem append {q : List Bool} {c : Trie α} (h : Agrees (q.length + n) M (.ext q c)) :
    Agrees n (fun k => M (q ++ k)) c :=
  fun k hk => by simp [h (q ++ k) (by simp [hk]), Trie.lookup_ext_append]

theorem ext_cons {b : Bool} {q : List Bool} {c : Trie α} (h : Agrees (n + 1) M (.ext (b :: q) c)) :
    Agrees n (fun k => M (b :: k)) (.ext q c) := fun k hk => by
  show M (b :: k) = _
  rw [h (b :: k) (by simp [hk]), Trie.lookup_ext, Trie.lookup_ext]
  simp

theorem populated {t : Trie α} (h : Agrees n M t) (ht : t.WF n) : populated n M = true := by
  obtain ⟨k, v, hk⟩ := ht.exists_lookup
  have hl := ht.length_of_lookup hk
  exact populated_iff.mpr ⟨k, hl, by rw [h k hl, hk]; rfl⟩

/-- Off an edge nothing is populated. -/
theorem not_populated {b : Bool} {q : List Bool} {c : Trie α} (h : Agrees (n + 1) M (.ext (b :: q) c)) :
    Patricia.populated n (fun k => M ((!b) :: k)) = false := by
  rw [← Bool.not_eq_true, populated_iff]
  rintro ⟨k, hk, hs⟩
  rw [h _ (by simp [hk]), Trie.lookup_ext, if_neg (by cases b <;> simp)] at hs
  simp at hs

end Agrees

/-- Over a trie that is no edge, the shared prefix is the path of the edge. -/
theorem sharedPrefix_eq {m : Nat} {c : Trie α} (hc : c.WF m) (he : ¬ c.IsEdge) {q : List Bool} :
    ∀ {M : List Bool → Option α}, Agrees (q.length + m) M (.ext q c) → sharedPrefix (q.length + m) M = q := by
  induction q with
  | nil =>
    intro M h
    cases hc with
    | leaf v => rfl
    | binary hl hr =>
      rw [List.length_nil, Nat.zero_add] at h ⊢
      rw [sharedPrefix, (Agrees.left h).populated hl, (Agrees.right h).populated hr]
    | edge => exact (he trivial).elim
  | cons b q ih =>
    intro M h
    rw [show (b :: q).length + m = (q.length + m) + 1 by simp only [List.length_cons]; omega] at h ⊢
    have hb := h.ext_cons
    have hpop := hb.populated (hc.ext q he)
    have hnot := h.not_populated
    rw [sharedPrefix]
    cases b
    · rw [hpop, show populated _ (fun k => M (true :: k)) = false from hnot]
      simp only [ih hb]
    · rw [hpop, show populated _ (fun k => M (false :: k)) = false from hnot]
      simp only [ih hb]

section Digest

variable (zero : β) (leafD : α → β) (binD : β → β → β) (edgeD : List Bool → β → β)

/-- The digest of a map is that of its canonical trie. -/
theorem Trie.WF.mapDigest_eq {n : Nat} {t : Trie α} (ht : t.WF n) {M : List Bool → Option α} (h : Agrees n M t) :
    mapDigest zero leafD binD edgeD n M = t.digest leafD binD edgeD := by
  induction ht generalizing M with
  | leaf v =>
    have : M [] = some v := h [] rfl
    rw [mapDigest, this]; rfl
  | binary hl hr ihl ihr =>
    have hp := Agrees.populated h (.binary hl hr)
    rw [mapDigest, dif_pos hp, dif_pos (by rw [h.left.populated hl, h.right.populated hr]; rfl), ihl h.left,
      ihr h.right]
    rfl
  | @edge m q c hq hc he ih =>
    rw [← ext_of_ne_nil c hq] at h
    have hpre := sharedPrefix_eq hc he h
    have hp := h.populated (hc.ext q he)
    obtain ⟨b, q, rfl⟩ := List.exists_cons_of_ne_nil hq
    have hlen : (b :: q).length + m = (q.length + m) + 1 := by simp only [List.length_cons]; omega
    have hr := Agrees.append h
    rw [hlen] at h hpre hp ⊢
    have hnot := h.not_populated
    rw [mapDigest, dif_pos hp, dif_neg]
    · simp only [hpre]
      rw [show q.length + m + 1 - (b :: q).length = m by simp only [List.length_cons]; omega, ih hr]
      rfl
    · cases b
      · rw [show populated _ (fun k => M (true :: k)) = false from hnot, Bool.and_false]; simp
      · rw [show populated _ (fun k => M (false :: k)) = false from hnot, Bool.false_and]; simp

/-- The digest of a map without keys of length `n`. -/
theorem mapDigest_of_not_populated {n : Nat} {M : List Bool → Option α} (h : ∀ k, k.length = n → M k = none) :
    mapDigest zero leafD binD edgeD n M = zero := by
  have hp : ¬ populated n M = true := by
    rw [populated_iff]
    rintro ⟨k, hk, hs⟩
    simp [h k hk] at hs
  cases n with
  | zero => rw [mapDigest, h [] rfl]
  | succ n => rw [mapDigest, dif_neg hp]

end Digest

/-! ## The canonical trie -/

/-- The canonical trie of a map on the keys of length `n`, if it has any. -/
def ofMap : Nat → (List Bool → Option α) → Option (Trie α)
  | 0, M => (M []).map .leaf
  | n + 1, M =>
    match ofMap n (fun k => M (false :: k)), ofMap n fun k => M (true :: k) with
    | none, none => none
    | some l, none => some (.join [false] l)
    | none, some r => some (.join [true] r)
    | some l, some r => some (.binary l r)

/-- What `ofMap` gives: the canonical trie with the content of the map. -/
def OfMapSpec (n : Nat) (M : List Bool → Option α) : Option (Trie α) → Prop
  | none => ∀ k, k.length = n → M k = none
  | some t => t.WF n ∧ Agrees n M t

theorem forall_length_succ {n : Nat} {P : List Bool → Prop} (hf : ∀ k, k.length = n → P (false :: k))
    (ht : ∀ k, k.length = n → P (true :: k)) : ∀ k, k.length = n + 1 → P k
  | [], hk => by simp at hk
  | false :: k, hk => hf k (by simpa using hk)
  | true :: k, hk => ht k (by simpa using hk)

theorem ofMapSpec_join {n : Nat} {M : List Bool → Option α} {b : Bool} {t : Trie α}
    (ht : t.WF n ∧ Agrees n (fun k => M (b :: k)) t) (hn : ∀ k, k.length = n → M ((!b) :: k) = none) :
    OfMapSpec (n + 1) M (some (.join [b] t)) := by
  refine ⟨by rw [Nat.add_comm]; exact Trie.WF.join (q := [b]) (by simp) ht.1, ?_⟩
  have h₁ (k : List Bool) (hk : k.length = n) : M (b :: k) = (Trie.join [b] t).lookup (b :: k) := by
    rw [show M (b :: k) = t.lookup k from ht.2 k hk, Trie.lookup_join, Trie.lookup_edge]; simp
  have h₂ (k : List Bool) (hk : k.length = n) : M ((!b) :: k) = (Trie.join [b] t).lookup ((!b) :: k) := by
    rw [hn k hk, Trie.lookup_join, Trie.lookup_edge, if_neg (by cases b <;> simp)]
  cases b
  · exact forall_length_succ h₁ h₂
  · exact forall_length_succ h₂ h₁

theorem ofMap_spec (n : Nat) (M : List Bool → Option α) : OfMapSpec n M (ofMap n M) := by
  induction n generalizing M with
  | zero =>
    rw [ofMap]
    cases h : M [] with
    | none =>
      intro k hk
      rw [List.length_eq_zero_iff.mp hk]; exact h
    | some v =>
      refine ⟨.leaf v, fun k hk => ?_⟩
      rw [List.length_eq_zero_iff.mp hk, h]; rfl
  | succ n ih =>
    have hl := ih fun k => M (false :: k)
    have hr := ih fun k => M (true :: k)
    rw [ofMap]
    cases h₁ : ofMap n (fun k => M (false :: k)) with
    | none =>
      rw [h₁] at hl
      cases h₂ : ofMap n (fun k => M (true :: k)) with
      | none => rw [h₂] at hr; exact forall_length_succ hl hr
      | some r => rw [h₂] at hr; exact ofMapSpec_join hr hl
    | some l =>
      rw [h₁] at hl
      cases h₂ : ofMap n (fun k => M (true :: k)) with
      | none => rw [h₂] at hr; exact ofMapSpec_join hl hr
      | some r => rw [h₂] at hr; exact ⟨.binary hl.1 hr.1, forall_length_succ hl.2 hr.2⟩

/-- A canonical trie is that of its content. -/
theorem Trie.WF.ofMap_eq {n : Nat} {t : Trie α} (ht : t.WF n) {M : List Bool → Option α} (h : Agrees n M t) :
    ofMap n M = some t := by
  induction ht generalizing M with
  | leaf v =>
    have : M [] = some v := h [] rfl
    rw [ofMap, this]; rfl
  | binary hl hr ihl ihr => rw [ofMap, ihl h.left, ihr h.right]
  | @edge m q c hq hc he ih =>
    rw [← ext_of_ne_nil c hq] at h ⊢
    clear hq
    induction q generalizing M with
    | nil =>
      rw [show ([] : List Bool).length + m = m by simp] at h ⊢
      exact ih h
    | cons b q ihq =>
      rw [show (b :: q).length + m = (q.length + m) + 1 by simp only [List.length_cons]; omega] at h ⊢
      have hb := ihq h.ext_cons
      have hn : ofMap (q.length + m) (fun k => M ((!b) :: k)) = none := by
        have hspec := ofMap_spec (q.length + m) fun k => M ((!b) :: k)
        cases ho : ofMap (q.length + m) (fun k => M ((!b) :: k)) with
        | none => rfl
        | some t =>
          rw [ho] at hspec
          have := Agrees.populated hspec.2 hspec.1
          rw [h.not_populated] at this
          cases this
      have hj : Trie.join [b] (Trie.ext q c) = Trie.ext (b :: q) c := by
        cases q with
        | nil =>
          cases c with
          | leaf v => rfl
          | binary l r => rfl
          | edge q' c => exact (he trivial).elim
        | cons a q => rfl
      rw [ofMap]
      cases b
      · rw [hb, show ofMap _ (fun k => M (true :: k)) = none from hn, ← hj]
      · rw [hb, show ofMap _ (fun k => M (false :: k)) = none from hn, ← hj]

/-! ## Shapes -/

/-- The trie with its values changed. -/
def Trie.map (f : α → β) : Trie α → Trie β
  | .leaf v => .leaf (f v)
  | .binary l r => .binary (l.map f) (r.map f)
  | .edge q c => .edge q (c.map f)

namespace Trie

theorem isLeaf_map (f : α → β) (t : Trie α) : (t.map f).IsLeaf ↔ t.IsLeaf := by cases t <;> exact Iff.rfl

theorem sub_map (f : α → β) (t : Trie α) (p : List Bool) : (t.map f).sub p = (t.sub p).map (Trie.map f) := by
  induction t generalizing p with
  | leaf v => cases p <;> rfl
  | binary l r ihl ihr =>
    cases p with
    | nil => rfl
    | cons b p =>
      cases b
      · exact ihl p
      · exact ihr p
  | edge q c ih =>
    by_cases hp : p = []
    · subst hp; rw [sub_nil, sub_nil]; rfl
    · rw [sub_edge _ hp, Trie.map, sub_edge _ hp, ih]
      split <;> rfl

theorem hasNode_map (f : α → β) (t : Trie α) (p : List Bool) : (t.map f).HasNode p ↔ t.HasNode p := by
  simp only [HasNode, sub_map, Option.map_eq_some_iff]
  constructor
  · rintro ⟨_, ⟨s, hs, rfl⟩, hl⟩
    exact ⟨s, hs, fun h => hl ((isLeaf_map f s).mpr h)⟩
  · rintro ⟨s, hs, hl⟩
    exact ⟨_, ⟨s, hs, rfl⟩, fun h => hl ((isLeaf_map f s).mp h)⟩

theorem map_join (f : α → β) (q : List Bool) (t : Trie α) : (join q t).map f = join q (t.map f) := by cases t <;> rfl

end Trie

theorem ofMap_map (f : α → β) (n : Nat) (M : List Bool → Option α) :
    ofMap n (fun k => (M k).map f) = (ofMap n M).map (Trie.map f) := by
  induction n generalizing M with
  | zero => rw [ofMap, ofMap]; cases M [] <;> rfl
  | succ n ih =>
    rw [ofMap, ofMap, ih fun k => M (false :: k), ih fun k => M (true :: k)]
    cases ofMap n (fun k => M (false :: k)) <;> cases ofMap n (fun k => M (true :: k)) <;>
      simp [Trie.map, Trie.map_join]

theorem ofMap_congr {n : Nat} {M M' : List Bool → Option α} (h : ∀ k, k.length = n → M k = M' k) :
    ofMap n M = ofMap n M' := by
  induction n generalizing M M' with
  | zero => rw [ofMap, ofMap, h [] rfl]
  | succ n ih =>
    rw [ofMap, ofMap, ih fun k hk => h (false :: k) (by simp [hk]), ih fun k hk => h (true :: k) (by simp [hk])]

/-- The digest is one of the keys of length `n` alone. -/
theorem mapDigest_congr (zero : β) (leafD : α → β) (binD : β → β → β) (edgeD : List Bool → β → β) {n : Nat}
    {M M' : List Bool → Option α} (h : ∀ k, k.length = n → M k = M' k) :
    mapDigest zero leafD binD edgeD n M = mapDigest zero leafD binD edgeD n M' := by
  have hspec := ofMap_spec n M
  cases ht : ofMap n M with
  | none =>
    rw [ht] at hspec
    rw [mapDigest_of_not_populated _ _ _ _ hspec,
      mapDigest_of_not_populated _ _ _ _ fun k hk => (h k hk).symm.trans (hspec k hk)]
  | some t =>
    rw [ht] at hspec
    rw [hspec.1.mapDigest_eq _ _ _ _ hspec.2,
      hspec.1.mapDigest_eq _ _ _ _ fun k hk => (h k hk).symm.trans (hspec.2 k hk)]

/-- Tries of the same shape. -/
def SameShape (t : Trie α) (t' : Trie β) : Prop := t.map (fun _ => ()) = t'.map fun _ => ()

theorem SameShape.hasNode {t : Trie α} {t' : Trie β} (h : SameShape t t') (p : List Bool) : t.HasNode p ↔ t'.HasNode p := by
  rw [← Trie.hasNode_map (fun _ => ()), show t.map _ = _ from h, Trie.hasNode_map]

theorem SameShape.sub_edge {t : Trie α} {t' : Trie β} (h : SameShape t t') {p q : List Bool} {c : Trie α}
    (hs : t.sub p = some (.edge q c)) : ∃ c', t'.sub p = some (.edge q c') := by
  have := congrArg (Trie.sub · p) h
  simp only [Trie.sub_map, hs, Option.map_some] at this
  obtain ⟨s, hs', he⟩ := Option.map_eq_some_iff.mp this.symm
  cases s with
  | leaf v => cases he
  | binary l r => cases he
  | edge q' c' =>
    obtain ⟨rfl, -⟩ := Trie.edge.inj he
    exact ⟨c', hs'⟩

/-- Maps with the same keys have tries of the same shape. -/
theorem sameShape_ofMap {n : Nat} {M : List Bool → Option α} {M' : List Bool → Option β}
    (h : ∀ k, k.length = n → (M k).isSome = (M' k).isSome) {t : Trie α} (ht : ofMap n M = some t) :
    ∃ t', ofMap n M' = some t' ∧ SameShape t t' := by
  have hu : ofMap n (fun k => (M k).map fun _ => ()) = ofMap n fun k => (M' k).map fun _ => () :=
    ofMap_congr fun k hk => by
      have := h k hk
      cases hM : M k <;> cases hM' : M' k <;> simp_all
  rw [ofMap_map, ofMap_map, ht] at hu
  obtain ⟨t', ht', he⟩ := Option.map_eq_some_iff.mp hu.symm
  exact ⟨t', ht', he.symm⟩

end Patricia
