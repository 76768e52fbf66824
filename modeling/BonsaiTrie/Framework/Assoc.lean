import Mathlib.Tactic
import Mathlib.Data.List.AList

/-!
# Association lists

What is found in an association list after a loop that inserts or erases
entries, and the values of a function after a loop that updates it.
-/

namespace Assoc

variable {K K' V V' : Type} [DecidableEq K] [DecidableEq K']

/-- A loop of insertions, under keys that are kept apart: the values inserted, then those there were. -/
theorem lookup_foldl_insert {f : K → K'} (hf : Function.Injective f) (g : V → V') {l : List (Sigma fun _ : K => V)}
    (hl : l.NodupKeys) (m : AList fun _ : K' => V') (k : K) :
    (l.foldl (fun m e => m.insert (f e.1) (g e.2)) m).lookup (f k) =
      ((l.dlookup k).map g).or (m.lookup (f k)) := by
  induction l generalizing m with
  | nil => simp
  | cons e l ih =>
    obtain ⟨hne, hl⟩ := List.nodupKeys_cons.mp hl
    rw [List.foldl_cons, ih hl]
    by_cases hk : k = e.1
    · subst hk
      rw [List.dlookup_eq_none.mpr hne, List.dlookup_cons_eq, AList.lookup_insert]
      rfl
    · rw [List.dlookup_cons_ne _ _ hk, AList.lookup_insert_ne fun h => hk (hf h)]

omit [DecidableEq K] in
/-- A loop of insertions leaves the other keys. -/
theorem lookup_foldl_insert_of_ne {f : K → K'} (g : V → V') {l : List (Sigma fun _ : K => V)}
    (m : AList fun _ : K' => V') {k' : K'} (hk : ∀ k, k' ≠ f k) :
    (l.foldl (fun m e => m.insert (f e.1) (g e.2)) m).lookup k' = m.lookup k' := by
  induction l generalizing m with
  | nil => rfl
  | cons e l ih => rw [List.foldl_cons, ih, AList.lookup_insert_ne (hk e.1)]

/-- A loop of erasures. -/
theorem lookup_foldl_erase (l : List K) (m : AList fun _ : K => V) (k : K) :
    (l.foldl (fun m k => m.erase k) m).lookup k = if k ∈ l then none else m.lookup k := by
  induction l generalizing m with
  | nil => simp
  | cons j l ih =>
    rw [List.foldl_cons, ih]
    by_cases hk : k = j
    · subst hk; simp
    · rw [AList.lookup_erase_ne hk]
      simp [hk]

/-- An insertion, or an erasure. -/
def write (m : AList fun _ : K => V) (k : K) : Option V → AList fun _ : K => V
  | some v => m.insert k v
  | none => m.erase k

theorem lookup_write_self (m : AList fun _ : K => V) (k : K) (o : Option V) : (write m k o).lookup k = o := by
  cases o with
  | none => exact AList.lookup_erase k m
  | some v => exact AList.lookup_insert m

theorem lookup_write_of_ne (m : AList fun _ : K => V) {k j : K} (o : Option V) (h : j ≠ k) :
    (write m k o).lookup j = m.lookup j := by
  cases o with
  | none => exact AList.lookup_erase_ne h
  | some v => exact AList.lookup_insert_ne h

/-- A loop of insertions and erasures, with one of them for each key. -/
theorem lookup_foldl_write {l : List (Sigma fun _ : K => Option V)} (hl : l.NodupKeys) (m : AList fun _ : K => V) (k : K) :
    (l.foldl (fun m e => write m e.1 e.2) m).lookup k = (l.dlookup k).getD (m.lookup k) := by
  induction l generalizing m with
  | nil => rfl
  | cons e l ih =>
    obtain ⟨hne, hl⟩ := List.nodupKeys_cons.mp hl
    rw [List.foldl_cons, ih hl]
    by_cases hk : k = e.1
    · subst hk
      rw [List.dlookup_eq_none.mpr hne, List.dlookup_cons_eq]
      exact lookup_write_self m e.1 e.2
    · rw [List.dlookup_cons_ne _ _ hk, lookup_write_of_ne m e.2 hk]

omit [DecidableEq K] in
/-- A loop that updates a function: at a key it does not write. -/
theorem foldl_update_of_not_mem {f : K → K'} {g : V → V'} {l : List (K × V)} {k' : K'} (h : ∀ e ∈ l, f e.1 ≠ k')
    (c : K' → V') : l.foldl (fun c e => Function.update c (f e.1) (g e.2)) c k' = c k' := by
  induction l generalizing c with
  | nil => rfl
  | cons e l ih =>
    rw [List.foldl_cons, ih fun e he => h e (List.mem_cons_of_mem _ he),
      Function.update_of_ne (h e List.mem_cons_self).symm]

omit [DecidableEq K] in
/-- A loop that updates a function: at a key it writes, and no other entry does. -/
theorem foldl_update_of_mem_of {f : K → K'} {g : V → V'} {l : List (K × V)} (hl : (l.map Prod.fst).Nodup) {k : K} {v : V}
    (hf : ∀ e ∈ l, f e.1 = f k → e.1 = k) (h : (k, v) ∈ l) (c : K' → V') :
    l.foldl (fun c e => Function.update c (f e.1) (g e.2)) c (f k) = g v := by
  induction l generalizing c with
  | nil => cases h
  | cons e l ih =>
    obtain ⟨hne, hl⟩ := List.nodup_cons.mp hl
    rcases List.mem_cons.mp h with rfl | h
    · rw [List.foldl_cons, foldl_update_of_not_mem, Function.update_self]
      intro e he heq
      exact hne (List.mem_map.mpr ⟨e, he, hf e (List.mem_cons_of_mem _ he) heq⟩)
    · exact ih hl (fun e he => hf e (List.mem_cons_of_mem _ he)) h _

omit [DecidableEq K] in
/-- A loop that updates a function: at a key it writes, under keys that are kept apart. -/
theorem foldl_update_of_mem {f : K → K'} (hf : Function.Injective f) {g : V → V'} {l : List (K × V)}
    (hl : (l.map Prod.fst).Nodup) {k : K} {v : V} (h : (k, v) ∈ l) (c : K' → V') :
    l.foldl (fun c e => Function.update c (f e.1) (g e.2)) c (f k) = g v :=
  foldl_update_of_mem_of hl (fun _ _ heq => hf heq) h c

omit [DecidableEq K] in
/-- A loop of insertions is one of updates of what is found. -/
theorem lookup_foldl_insert_pairs (f : K → K') (g : V → V') (l : List (K × V)) (m : AList fun _ : K' => V') :
    (fun k => (l.foldl (fun m e => m.insert (f e.1) (g e.2)) m).lookup k) =
      l.foldl (fun c e => Function.update c (f e.1) (some (g e.2))) fun k => m.lookup k := by
  induction l generalizing m with
  | nil => rfl
  | cons e l ih =>
    rw [List.foldl_cons, List.foldl_cons, ih]
    congr 1
    funext k
    rw [Function.update_apply]
    split
    · rename_i hk
      rw [hk, AList.lookup_insert]
    · rename_i hk
      exact AList.lookup_insert_ne hk

end Assoc
