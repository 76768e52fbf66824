import BonsaiTrie.Framework.Trace
import BonsaiTrie.Proof.Log
import BonsaiTrie.Spec.Changes

/-!
# The change recorder

What is recorded of a key after some writes has as its old value the first one
that a write of it met (`firstValue`): that is the value before the writes,
unless there was none and a write put one there for the next to meet.
-/

namespace Bonsai

open Run

/-- The first value that a write of the key meets, from the one the key has. -/
def firstValue (key : TrieKey) : List (TrieKey × InsertOrRemove ByteVec) → Option ByteVec → Option ByteVec
  | [], _ => none
  | (k, value) :: ws, held =>
    if k = key then held.or (firstValue key ws value.toOption) else firstValue key ws held

section

variable {key k : TrieKey} {value : InsertOrRemove ByteVec} {ws : List (TrieKey × InsertOrRemove ByteVec)}
  {held : Option ByteVec}

theorem firstValue_self : firstValue key ((key, value) :: ws) held = held.or (firstValue key ws value.toOption) := if_pos rfl

theorem firstValue_of_ne (h : k ≠ key) : firstValue key ((k, value) :: ws) held = firstValue key ws held := if_neg h

theorem firstValue_of_not_mem (h : key ∉ ws.map Prod.fst) : firstValue key ws held = none := by
  induction ws generalizing held with
  | nil => rfl
  | cons w ws ih =>
    obtain ⟨k, value⟩ := w
    rw [List.map_cons, List.mem_cons, not_or] at h
    rw [firstValue_of_ne (Ne.symm h.1)]
    exact ih h.2

theorem firstValue_some (h : key ∈ ws.map Prod.fst) (x : ByteVec) : firstValue key ws (some x) = some x := by
  induction ws with
  | nil => cases h
  | cons w ws ih =>
    obtain ⟨k, value⟩ := w
    by_cases hk : k = key
    · rw [hk, firstValue_self]
      rfl
    · rw [firstValue_of_ne hk]
      exact ih ((List.mem_cons.mp h).resolve_left (Ne.symm hk))

/-- From no value: one is met when an insertion of the key is not its last write. -/
theorem firstValue_none_ne : firstValue key ws none ≠ none ↔
    ∃ x ws₁ ws₂, ws = ws₁ ++ (key, .insert x) :: ws₂ ∧ key ∈ ws₂.map Prod.fst := by
  constructor
  · intro h
    induction ws with
    | nil => exact (h rfl).elim
    | cons w ws ih =>
      obtain ⟨k, value⟩ := w
      by_cases hk : k = key
      · subst hk
        rw [firstValue_self, Option.none_or] at h
        cases value with
        | insert x =>
          refine ⟨x, [], ws, rfl, ?_⟩
          by_contra hmem
          exact h (firstValue_of_not_mem hmem)
        | remove =>
          obtain ⟨x, ws₁, ws₂, rfl, hmem⟩ := ih h
          exact ⟨x, _ :: ws₁, ws₂, rfl, hmem⟩
      · rw [firstValue_of_ne hk] at h
        obtain ⟨x, ws₁, ws₂, rfl, hmem⟩ := ih h
        exact ⟨x, _ :: ws₁, ws₂, rfl, hmem⟩
  · rintro ⟨x, ws₁, ws₂, rfl, hmem⟩
    induction ws₁ with
    | nil =>
      rw [List.nil_append, firstValue_self, Option.none_or, InsertOrRemove.toOption, firstValue_some hmem]
      exact nofun
    | cons w ws₁ ih =>
      obtain ⟨k, value⟩ := w
      by_cases hk : k = key
      · rw [List.cons_append, hk, firstValue_self, Option.none_or]
        cases value with
        | insert y =>
          rw [InsertOrRemove.toOption, firstValue_some (by simp)]
          exact nofun
        | remove => exact ih
      · rw [List.cons_append, firstValue_of_ne hk]
        exact ih

end

namespace KeyValueDB

variable {ID : Type} {kv kv' : KeyValueDB (HashMapDb ID) ID} {ws : List (TrieKey × InsertOrRemove ByteVec)}

/-- One write. -/
theorem write_ok (kv : KeyValueDB (HashMapDb ID) ID) (key : TrieKey) (value : InsertOrRemove ByteVec) :
    ∃ kv', MerkleTrees.applyUpdate key value (kv, ()) = .ok () (kv', ()) ∧
      kv'.db.get = Function.update kv.db.get key.toDatabaseKey value.toOption ∧
      kv'.currentChanges = kv.currentChanges.insertInPlace key ⟨kv.db.get key.toDatabaseKey, value.toOption⟩ := by
  obtain ⟨kv', batch', hrun, -, hdb⟩ := MerkleTrees.applyUpdate_ok kv () key value
  exact ⟨kv', hrun, hdb, (MerkleTrees.applyUpdate_records hrun).1⟩

/-- The writes, and what is recorded of each key. -/
theorem writes_ok (kv : KeyValueDB (HashMapDb ID) ID) (ws : List (TrieKey × InsertOrRemove ByteVec)) :
    ∃ kv', writes ws (kv, ()) = .ok () (kv', ()) ∧
      (∀ k, (∀ key ∈ ws.map Prod.fst, k ≠ key.toDatabaseKey) → kv'.db.get k = kv.db.get k) ∧
      ∀ key, kv'.currentChanges.lookup key =
        if key ∈ ws.map Prod.fst then
          some ⟨((kv.currentChanges.lookup key).bind Change.oldValue).or (firstValue key ws (kv.db.get key.toDatabaseKey)),
            kv'.db.get key.toDatabaseKey⟩
        else kv.currentChanges.lookup key := by
  induction ws generalizing kv with
  | nil => exact ⟨kv, rfl, fun _ _ => rfl, fun _ => rfl⟩
  | cons w ws ih =>
    obtain ⟨k, value⟩ := w
    obtain ⟨kv₁, hrun₁, hdb₁, hch₁⟩ := write_ok kv k value
    obtain ⟨kv₂, hrun₂, hkeep, hch₂⟩ := ih kv₁
    refine ⟨kv₂, (bind_ok hrun₁ _).trans hrun₂, fun j hj => ?_, fun key => ?_⟩
    · rw [hkeep j fun key hmem => hj key (List.mem_cons_of_mem _ hmem), hdb₁,
        Function.update_of_ne (hj k List.mem_cons_self)]
    · rw [hch₂ key]
      by_cases hk : key = k
      · subst hk
        have hget : kv₁.db.get key.toDatabaseKey = value.toOption := by rw [hdb₁, Function.update_self]
        have hin : key ∈ ((key, value) :: ws).map Prod.fst := by simp
        rw [hch₁, ChangeBatch.lookup_insertInPlace_self, hget, firstValue_self, ← Option.or_assoc, if_pos hin]
        by_cases hmem : key ∈ ws.map Prod.fst
        · rw [if_pos hmem]
          rfl
        · rw [if_neg hmem, firstValue_of_not_mem hmem, Option.or_none,
            hkeep _ fun k' hk' heq => hmem ((TrieKey.toDatabaseKey_injective heq : key = k') ▸ hk'), hget]
      · have hget : kv₁.db.get key.toDatabaseKey = kv.db.get key.toDatabaseKey := by
          rw [hdb₁, Function.update_of_ne fun h => hk (TrieKey.toDatabaseKey_injective h)]
        have hmem : key ∈ List.map Prod.fst ((k, value) :: ws) ↔ key ∈ ws.map Prod.fst := by simp [hk]
        rw [hch₁, ChangeBatch.lookup_insertInPlace_of_ne hk, hget, firstValue_of_ne (Ne.symm hk)]
        simp only [hmem]

/-- The database with the old values written back, key by key. -/
theorem get_writtenBack (kv : KeyValueDB (HashMapDb ID) ID) (ord : HashOrder) :
    (kv.writtenBack ord).get = (kv.currentChanges.iter ord).foldl
      (fun cols e => Function.update cols e.1.toDatabaseKey e.2.oldValue) kv.db.get := by
  rw [writtenBack]
  generalize kv.currentChanges.iter ord = l
  generalize kv.db = db
  induction l generalizing db with
  | nil => rfl
  | cons e l ih =>
    obtain ⟨key, old, new⟩ := e
    rw [List.foldl_cons, List.foldl_cons, ih]
    cases old with
    | some v => rw [HashMapDb.get_insert]
    | none => rw [HashMapDb.get_remove]

/-- A key that was recorded gets its old value back. -/
theorem get_writtenBack_of_some {key : TrieKey} {change : Change} (h : kv.currentChanges.lookup key = some change)
    (ord : HashOrder) : (kv.writtenBack ord).get key.toDatabaseKey = change.oldValue := by
  rw [get_writtenBack]
  exact Assoc.foldl_update_of_mem (g := Change.oldValue) TrieKey.toDatabaseKey_injective
    (HashMap.nodup_iter kv.currentChanges ord) ((HashMap.mem_iter kv.currentChanges ord).mpr h) _

/-- Another key stays. -/
theorem get_writtenBack_of_none {k : DatabaseKey}
    (h : ∀ key change, kv.currentChanges.lookup key = some change → key.toDatabaseKey ≠ k) (ord : HashOrder) :
    (kv.writtenBack ord).get k = kv.db.get k := by
  rw [get_writtenBack]
  exact Assoc.foldl_update_of_not_mem (g := Change.oldValue)
    (fun e he => h e.1 e.2 ((HashMap.mem_iter kv.currentChanges ord).mp he)) _

/-- After any writes, the recorder holds the values before and after, and writing the old ones back
restores the database, exactly when no key that was not there is inserted and written again. -/
theorem writes_composes (kv : KeyValueDB (HashMapDb ID) ID) (hkv : kv.currentChanges = ∅)
    (ws : List (TrieKey × InsertOrRemove ByteVec)) :
    ∃ kv', writes ws (kv, ()) = .ok () (kv', ()) ∧
      ((kv.Composes kv' ws ∧ ∀ ord, (kv'.writtenBack ord).get = kv.db.get) ↔ ¬ kv.Rewrites ws) := by
  obtain ⟨kv', hrun, hkeep, hch⟩ := writes_ok kv ws
  have hempty (key : TrieKey) : kv.currentChanges.lookup key = none := by rw [hkv, AList.lookup_empty]
  refine ⟨kv', hrun, fun hcomp => ?_, fun hno => ?_⟩
  · rintro ⟨key, x, ws₁, ws₂, hnone, hws, hmem⟩
    have hold := hcomp.1 key
    have hin : key ∈ ws.map Prod.fst := by rw [hws]; simp
    rw [hch key, if_pos hin, if_pos hin, hempty, hnone] at hold
    exact firstValue_none_ne.mpr ⟨x, ws₁, ws₂, hws, hmem⟩ (congrArg Change.oldValue (Option.some.inj hold))
  · have hcomp : kv.Composes kv' ws := by
      intro key
      rw [hch key]
      split
      · rename_i hin
        rw [hempty, Option.bind_none, Option.none_or]
        cases hget : kv.db.get key.toDatabaseKey with
        | some v => rw [firstValue_some hin]
        | none =>
          have : firstValue key ws none = none := by
            by_contra hne
            obtain ⟨x, ws₁, ws₂, hws, hmem⟩ := firstValue_none_ne.mp hne
            exact hno ⟨key, x, ws₁, ws₂, hget, hws, hmem⟩
          rw [this]
      · exact hempty key
    refine ⟨hcomp, fun ord => funext fun k => ?_⟩
    by_cases hk : ∃ key ∈ ws.map Prod.fst, key.toDatabaseKey = k
    · obtain ⟨key, hin, rfl⟩ := hk
      exact get_writtenBack_of_some ((hcomp key).trans (if_pos hin)) ord
    · rw [get_writtenBack_of_none (fun key change hl heq => hk ⟨key, ?_, heq⟩) ord,
        hkeep k fun key hin heq => hk ⟨key, hin, heq.symm⟩]
      by_contra hin
      rw [hcomp key, if_neg hin] at hl
      cases hl

end KeyValueDB

/-- A new key-value layer in memory. -/
def KeyValueDB.inMemory : KeyValueDB (HashMapDb BasicId) BasicId := .new .empty ⟨none, none, 1⟩ none

theorem KeyValueDB.writes_composes_remove :
    ∃ kv', writes [(.flat [1], .remove), (.flat [1], .insert [5])] (.inMemory, ()) = .ok () (kv', ()) ∧
      ((KeyValueDB.inMemory.Composes kv' [(.flat [1], .remove), (.flat [1], .insert [5])] ∧
          ∀ ord, (kv'.writtenBack ord).get = KeyValueDB.inMemory.db.get) ↔
        ¬ KeyValueDB.inMemory.Rewrites [(.flat [1], .remove), (.flat [1], .insert [5])]) :=
  writes_composes .inMemory rfl _

/-- Two insertions of a new key: the first value is recorded as the old one, and is what is written back. -/
theorem KeyValueDB.writes_recorded_twice :
    let kv : KeyValueDB (HashMapDb BasicId) BasicId := .inMemory
    let ws : List (TrieKey × InsertOrRemove ByteVec) := [(.flat [1], .insert [5]), (.flat [1], .insert [6])]
    let kv' := (Trace.next (fun (_ : Unit) => writes ws) () (kv, ())).1
    kv.currentChanges = ∅ ∧ kv.db.get (.flat [1]) = none ∧
      kv'.currentChanges.lookup (.flat [1]) = some ⟨some [5], some [6]⟩ ∧
      (kv'.writtenBack .listed).get (.flat [1]) = some [5] := by
  refine ⟨rfl, ?_⟩
  decide +kernel

end Bonsai
