import BonsaiTrie.Impl.Tree

/-!
# The leaves of a tree

What a tree does, said of its leaves alone: the values in the trie, the
changes since the last commit, and the values committed. `get` reads the last
two; the root hash is that of the first. The exits `set` takes before it walks
are those of the source: a key with a pending insertion is changed in the
cache only, and a value equal to the committed one is not written.
-/

namespace Bonsai

/-- The leaves of a tree: in the trie, changed since the last commit, and committed. -/
structure Leaves where
  trie : Path → Option Felt
  cache : Path → Option (InsertOrRemove Felt)
  flat : Path → Option Felt

namespace Leaves

/-- No leaves. -/
def empty : Leaves := ⟨fun _ => none, fun _ => none, fun _ => none⟩

/-- The value of a key, as `get` finds it. -/
def get (s : Leaves) (key : Path) : Option Felt :=
  match s.cache key with
  | some .remove => none
  | some (.insert value) => some value
  | none => s.flat key

/-- `set` of a value that is not zero. -/
def insert (s : Leaves) (key : Path) (value : Felt) : Leaves :=
  match s.cache key with
  | some (.insert _) => { s with cache := Function.update s.cache key (some (.insert value)) }
  | _ =>
    if s.flat key = some value then s
    else { s with trie := Function.update s.trie key (some value), cache := Function.update s.cache key (some (.insert value)) }

/-- `delete_leaf`. -/
def remove (s : Leaves) (key : Path) : Leaves :=
  if (s.get key).isSome then { s with trie := Function.update s.trie key none, cache := Function.update s.cache key (some .remove) }
  else s

/-- `set`. -/
def set (s : Leaves) (key : Path) (value : Felt) : Leaves := if value = 0 then s.remove key else s.insert key value

/-- The commit of the changes. -/
def commit (s : Leaves) : Leaves := ⟨s.trie, fun _ => none, s.get⟩

/-- The keys of the trie are those `get` finds. -/
def SameKeys (s : Leaves) : Prop := ∀ key, (s.trie key).isSome = (s.get key).isSome

/-- The trie has the values `get` finds. -/
def InStep (s : Leaves) : Prop := ∀ key, s.trie key = s.get key

theorem insert_of_pending {s : Leaves} {key : Path} (h : ∃ old, s.cache key = some (.insert old)) (value : Felt) :
    s.insert key value = { s with cache := Function.update s.cache key (some (.insert value)) } := by
  obtain ⟨old, h⟩ := h
  rw [insert, h]

theorem insert_of_stored {s : Leaves} {key : Path} {value : Felt} (h : ¬ ∃ old, s.cache key = some (.insert old))
    (hf : s.flat key = some value) : s.insert key value = s := by
  rw [insert]
  split
  · rename_i old hold
    exact (h ⟨old, hold⟩).elim
  · rw [if_pos hf]

theorem insert_of_new {s : Leaves} {key : Path} {value : Felt} (h : ¬ ∃ old, s.cache key = some (.insert old))
    (hf : s.flat key ≠ some value) :
    s.insert key value = { s with
      trie := Function.update s.trie key (some value)
      cache := Function.update s.cache key (some (.insert value)) } := by
  rw [insert]
  split
  · rename_i old hold
    exact (h ⟨old, hold⟩).elim
  · rw [if_neg hf]

theorem get_insert_of_pending {s : Leaves} {key : Path} {old : Felt} (h : s.cache key = some (.insert old))
    (value : Felt) (k : Path) : (s.insert key value).get k = Function.update s.get key (some value) k := by
  rw [insert, h]
  by_cases hk : k = key
  · subst hk; simp [get]
  · simp [get, Function.update_of_ne hk _ _]

/-- A value is read back, but for one that is equal to the committed one and was removed since. -/
theorem get_insert {s : Leaves} {key : Path} {value : Felt}
    (h : ¬ (s.cache key = some .remove ∧ s.flat key = some value)) (k : Path) :
    (s.insert key value).get k = Function.update s.get key (some value) k := by
  by_cases hp : ∃ old, s.cache key = some (.insert old)
  · obtain ⟨old, hp⟩ := hp
    exact get_insert_of_pending hp value k
  rw [insert]
  split
  · rename_i old hold
    exact (hp ⟨old, hold⟩).elim
  · split
    · rename_i hc hf
      by_cases hk : k = key
      · subst hk
        have hcache : s.cache k = none := by
          cases hck : s.cache k with
          | none => rfl
          | some c =>
            cases c with
            | insert old => exact (hc old hck).elim
            | remove => exact (h ⟨hck, hf⟩).elim
        simp [get, hcache, hf]
      · rw [Function.update_of_ne hk _ _]
    · by_cases hk : k = key
      · subst hk; simp [get]
      · simp [get, Function.update_of_ne hk _ _]

theorem get_remove (s : Leaves) (key k : Path) : (s.remove key).get k = Function.update s.get key none k := by
  rw [remove]
  split
  · by_cases hk : k = key
    · subst hk; simp [get]
    · simp [get, Function.update_of_ne hk _ _]
  · rename_i hnone
    by_cases hk : k = key
    · subst hk; simpa using hnone
    · rw [Function.update_of_ne hk _ _]

/-! ## Invariants -/

theorem SameKeys.remove {s : Leaves} (h : s.SameKeys) (key : Path) : (s.remove key).SameKeys := by
  intro k
  rw [get_remove]
  rw [Leaves.remove]
  split
  · by_cases hk : k = key
    · subst hk; simp
    · rw [Function.update_of_ne hk _ _, ← h k]
      exact congrArg Option.isSome (Function.update_of_ne hk _ _)
  · rename_i hnone
    by_cases hk : k = key
    · subst hk
      rw [Function.update_self, h k]
      simpa using hnone
    · rw [Function.update_of_ne hk _ _]; exact h k

theorem SameKeys.insert {s : Leaves} (h : s.SameKeys) (key : Path) (value : Felt) : (s.insert key value).SameKeys := by
  intro k
  by_cases hp : ∃ old, s.cache key = some (.insert old)
  · obtain ⟨old, hp⟩ := hp
    rw [get_insert_of_pending hp]
    have htrie : (s.insert key value).trie = s.trie := by rw [Leaves.insert, hp]
    rw [htrie, h k]
    by_cases hk : k = key
    · subst hk; simp [get, hp]
    · rw [Function.update_of_ne hk _ _]
  · rw [Leaves.insert]
    split
    · rename_i old hold
      exact (hp ⟨old, hold⟩).elim
    · split
      · exact h k
      · by_cases hk : k = key
        · subst hk; simp [get]
        · simpa [get, Function.update_of_ne hk _ _] using h k

theorem SameKeys.set {s : Leaves} (h : s.SameKeys) (key : Path) (value : Felt) : (s.set key value).SameKeys := by
  rw [Leaves.set]
  split
  · exact h.remove key
  · exact h.insert key value

theorem InStep.remove {s : Leaves} (h : s.InStep) (key : Path) : (s.remove key).InStep := by
  intro k
  rw [get_remove, Leaves.remove]
  split
  · by_cases hk : k = key
    · subst hk; simp
    · rw [Function.update_of_ne hk _ _, ← h k]
      exact Function.update_of_ne hk _ _
  · rename_i hnone
    by_cases hk : k = key
    · subst hk
      rw [Function.update_self, h k]
      simpa using hnone
    · rw [Function.update_of_ne hk _ _]; exact h k

/-- The trie stays in step unless another value is pending for the key. -/
theorem InStep.insert {s : Leaves} (h : s.InStep) {key : Path} {value : Felt}
    (hp : ∀ old, s.cache key = some (.insert old) → old = value) : (s.insert key value).InStep := by
  intro k
  rw [Leaves.insert]
  split
  · rename_i old hold
    obtain rfl := hp old hold
    by_cases hk : k = key
    · subst hk; simp [get, h k, hold]
    · simpa [get, Function.update_of_ne hk _ _] using h k
  · split
    · exact h k
    · by_cases hk : k = key
      · subst hk; simp [get]
      · simpa [get, Function.update_of_ne hk _ _] using h k

theorem InStep.set {s : Leaves} (h : s.InStep) {key : Path} {value : Felt}
    (hp : value ≠ 0 → ∀ old, s.cache key = some (.insert old) → old = value) : (s.set key value).InStep := by
  rw [Leaves.set]
  split
  · exact h.remove key
  · rename_i hv
    exact h.insert (hp hv)

theorem SameKeys.commit {s : Leaves} (h : s.SameKeys) : s.commit.SameKeys := h

theorem InStep.commit {s : Leaves} (h : s.InStep) : s.commit.InStep := h

end Leaves

end Bonsai
