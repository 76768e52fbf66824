import Mathlib.Tactic

/-!
# Journals

A journal has, for each of some changes made one after the other, the content
before it and the one after it. A change is undone by putting back the values
it changed (`undo`). From the last change to the first, that leads back to the
content before all of them (`foldr_undo`); from the first to the last, each
value ends as it was before the last change to it (`foldl_undo`).
-/

namespace Journal

variable {α β : Type} [DecidableEq β]

/-- The values that a change from `before` to `after` changed are put back. -/
def undo (before after c : α → β) : α → β := fun k => if before k = after k then c k else before k

theorem undo_of_eq {before after : α → β} {k : α} (h : before k = after k) (c : α → β) : undo before after c k = c k :=
  if_pos h

theorem undo_of_ne {before after : α → β} {k : α} (h : before k ≠ after k) (c : α → β) : undo before after c k = before k :=
  if_neg h

/-- A change is undone right after it. -/
theorem undo_after (before after : α → β) : undo before after after = before := by
  funext k
  by_cases h : before k = after k
  · rw [undo_of_eq h, h]
  · exact undo_of_ne h after

variable {ι : Type} (before after : ι → α → β)

/-- The last change of a journal that changed a value. -/
def lastChange (l : List ι) (k : α) : Option ι := l.reverse.find? fun i => before i k ≠ after i k

variable {before after} {l : List ι} {k : α} {i : ι}

theorem lastChange_concat (l : List ι) (i : ι) (k : α) :
    lastChange before after (l ++ [i]) k = if before i k = after i k then lastChange before after l k else some i := by
  rw [lastChange, List.reverse_append, List.reverse_singleton, List.singleton_append, List.find?_cons]
  by_cases h : before i k = after i k
  · simp [h, lastChange]
  · simp [h]

/-- No change of a part of a journal changed the value. -/
theorem lastChange_append {l' : List ι} (h : ∀ i ∈ l', before i k = after i k) :
    lastChange before after (l ++ l') k = lastChange before after l k := by
  induction l' using List.reverseRecOn with
  | nil => rw [List.append_nil]
  | append_singleton l' i ih =>
    rw [← List.append_assoc, lastChange_concat, if_pos (h i (List.mem_append_right _ List.mem_cons_self))]
    exact ih fun j hj => h j (List.mem_append_left _ hj)

/-- After the last change of a value there are others only. -/
theorem lastChange_split (h : lastChange before after l k = some i) :
    ∃ l₁ l₂, l = l₁ ++ i :: l₂ ∧ before i k ≠ after i k ∧ ∀ j ∈ l₂, before j k = after j k := by
  induction l using List.reverseRecOn with
  | nil => cases h
  | append_singleton l j ih =>
    rw [lastChange_concat] at h
    by_cases hj : before j k = after j k
    · rw [if_pos hj] at h
      obtain ⟨l₁, l₂, rfl, hne, hsame⟩ := ih h
      refine ⟨l₁, l₂ ++ [j], by simp, hne, fun j' hj' => ?_⟩
      obtain hj' | hj' := List.mem_append.mp hj'
      · exact hsame j' hj'
      · rwa [List.mem_singleton.mp hj']
    · rw [if_neg hj] at h
      obtain rfl := Option.some.inj h
      exact ⟨l, [], rfl, hj, fun _ h => absurd h List.not_mem_nil⟩

variable (before after l k) in
theorem lastChange_eq_none_iff : lastChange before after l k = none ↔ ∀ i ∈ l, before i k = after i k := by
  rw [lastChange, List.find?_eq_none]
  simp

variable (before after) in
/-- Undone from the first to the last, each value is as it was before the last change to it. -/
theorem foldl_undo (l : List ι) (c : α → β) (k : α) :
    l.foldl (fun c i => undo (before i) (after i) c) c k =
      ((lastChange before after l k).map fun i => before i k).getD (c k) := by
  induction l using List.reverseRecOn with
  | nil => rfl
  | append_singleton l i ih =>
    rw [List.foldl_append, lastChange_concat, List.foldl_cons, List.foldl_nil]
    by_cases h : before i k = after i k
    · rw [undo_of_eq h, if_pos h, ih]
    · rw [undo_of_ne h, if_neg h]
      rfl

variable (before after) in
/-- Each change starts from what the one before it left: from `c` to `d`. -/
def Linked : (α → β) → List ι → (α → β) → Prop
  | c, [], d => c = d
  | c, i :: l, d => before i = c ∧ Linked (after i) l d

omit [DecidableEq β] in
theorem Linked.append {l' : List ι} {c d e : α → β} (h : Linked before after c l d) (h' : Linked before after d l' e) :
    Linked before after c (l ++ l') e := by
  induction l generalizing c with
  | nil =>
    obtain rfl : c = d := h
    exact h'
  | cons i l ih => exact ⟨h.1, ih h.2⟩

omit [DecidableEq β] in
/-- What a later part of a journal starts from. -/
theorem Linked.suffix {l' : List ι} {c d e : α → β} (h : Linked before after c l d) (h' : Linked before after c (l ++ l') e) :
    Linked before after d l' e := by
  induction l generalizing c with
  | nil =>
    obtain rfl : c = d := h
    exact h'
  | cons i l ih => exact ih h.2 h'.2

omit [DecidableEq β] in
/-- Up to a change of a journal, and from there on. -/
theorem Linked.cut {l' : List ι} {c e : α → β} (h : Linked before after c (l ++ i :: l') e) :
    Linked before after c (l ++ [i]) (after i) ∧ Linked before after (after i) l' e := by
  induction l generalizing c with
  | nil => exact ⟨⟨h.1, rfl⟩, h.2⟩
  | cons j l ih =>
    obtain ⟨h₁, h₂⟩ := ih h.2
    exact ⟨⟨h.1, h₁⟩, h₂⟩

omit [DecidableEq β] in
/-- A value that no change changes is the same in the end. -/
theorem Linked.unchanged {c d : α → β} (h : Linked before after c l d) (hsame : ∀ i ∈ l, before i k = after i k) : c k = d k := by
  induction l generalizing c with
  | nil => exact congrFun h k
  | cons i l ih =>
    rw [← h.1, hsame i List.mem_cons_self]
    exact ih h.2 fun j hj => hsame j (List.mem_cons_of_mem _ hj)

/-- Undone from the last to the first, the changes lead back to the content before all of them. -/
theorem foldr_undo {c d : α → β} (h : Linked before after c l d) :
    l.foldr (fun i c => undo (before i) (after i) c) d = c := by
  induction l generalizing c with
  | nil => exact Eq.symm h
  | cons i l ih =>
    rw [List.foldr_cons, ih h.2, undo_after, h.1]

end Journal
