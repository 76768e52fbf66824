import Mathlib.Data.List.DropRight
import Mathlib.Tactic

/-!
# Consecutive numbers

The elements of a list have consecutive numbers (`Consecutive`): each number is
one more than that of the element before. Then what is so many numbers before
the last element is as many elements before it: an element stays in the list
until one comes that is exactly `k` numbers later if and only if it is one of
the last `k` elements (`Consecutive.mem_rtake_iff`).
-/

section

variable {α β : Type} {f : α → Nat} {l l₁ l₂ : List α} {x : α} {k : Nat}

/-- The numbers of the elements are consecutive. -/
def Consecutive (f : α → Nat) (l : List α) : Prop := ∃ a, l.map f = List.range' a l.length

namespace Consecutive

theorem map {g : β → α} {l : List β} : Consecutive f (l.map g) ↔ Consecutive (fun x => f (g x)) l := by
  rw [Consecutive, Consecutive, List.map_map, List.length_map]
  rfl

theorem nodup (h : Consecutive f l) : l.Nodup := by
  obtain ⟨a, h⟩ := h
  refine List.Nodup.of_map f ?_
  rw [h]
  exact List.nodup_range'

/-- After an element come those with the next numbers. -/
theorem after (h : Consecutive f (l₁ ++ x :: l₂)) : l₂.map f = List.range' (f x + 1) l₂.length := by
  obtain ⟨a, h⟩ := h
  rw [List.map_append, List.length_append, ← List.range'_append_1] at h
  obtain ⟨-, h⟩ := List.append_inj h (by rw [List.length_map, List.length_range'])
  rw [List.map_cons, List.length_cons, List.range'_succ, List.cons.injEq] at h
  rw [h.1, h.2]

/-- No element after `x` is `k` numbers later: there are fewer than `k`. -/
theorem length_lt_iff (h : Consecutive f (l₁ ++ x :: l₂)) (hk : 0 < k) : (∀ y ∈ l₂, f y ≠ f x + k) ↔ l₂.length < k := by
  have hmem : f x + k ∈ l₂.map f ↔ k ≤ l₂.length := by
    rw [h.after, List.mem_range'_1]
    omega
  rw [← not_le, ← hmem, List.mem_map]
  simp only [not_exists, not_and, ne_eq]

/-- The last `k` elements are those with fewer than `k` after them. -/
theorem mem_rtake_iff_append : x ∈ l.rtake k ↔ ∃ l₁ l₂, l = l₁ ++ x :: l₂ ∧ l₂.length < k := by
  constructor
  · intro h
    obtain ⟨l₁, l₂, hdrop⟩ := List.append_of_mem h
    refine ⟨l.take (l.length - k) ++ l₁, l₂, ?_, ?_⟩
    · rw [List.append_assoc, ← hdrop, List.rtake, List.take_append_drop]
    · have hlen := congrArg List.length hdrop
      rw [List.rtake, List.length_drop, List.length_append, List.length_cons] at hlen
      omega
  · rintro ⟨l₁, l₂, rfl, hk⟩
    have hlen : (l₁ ++ x :: l₂).length - k ≤ l₁.length := by
      rw [List.length_append, List.length_cons]
      omega
    rw [List.rtake, List.drop_append_of_le_length hlen]
    exact List.mem_append_right _ List.mem_cons_self

/-- The last `k` elements are those without one after them that is `k` numbers later. -/
theorem mem_rtake_iff (h : Consecutive f l) (hk : 0 < k) :
    x ∈ l.rtake k ↔ ∃ l₁ l₂, l = l₁ ++ x :: l₂ ∧ ∀ y ∈ l₂, f y ≠ f x + k := by
  rw [mem_rtake_iff_append]
  refine exists_congr fun l₁ => exists_congr fun l₂ => and_congr_right fun hl => ?_
  subst hl
  exact (h.length_lt_iff hk).symm

end Consecutive

end
