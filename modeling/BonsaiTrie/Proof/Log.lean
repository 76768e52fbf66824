import BonsaiTrie.Proof.Batch
import BonsaiTrie.Proof.HashMapDb

/-!
# The log of a commit

The changes a commit records are the updates, with the values there were
before (`applyList_records`). The entries they are written as have distinct
keys (`nodup_serialize`), so that the log after a commit does not depend on the
order of the entries, nor on changes that change nothing (`logged_congr`).
-/

namespace Bonsai

open Run

/-! ## Recorded changes -/

instance {ID : Type} : AnswersOld (HashMapDb ID) where
  insert_old h := by
    obtain ⟨h₁, h₂⟩ := Prod.mk.inj h
    obtain ⟨rfl, -⟩ := Prod.mk.inj h₂
    exact ⟨(Except.ok.inj h₁).symm, fun k hk => (congrFun (HashMapDb.get_insert ..) k).trans (Function.update_of_ne hk ..)⟩
  remove_old h := by
    obtain ⟨h₁, h₂⟩ := Prod.mk.inj h
    obtain ⟨rfl, -⟩ := Prod.mk.inj h₂
    exact ⟨(Except.ok.inj h₁).symm, fun k hk => (congrFun (HashMapDb.get_remove ..) k).trans (Function.update_of_ne hk ..)⟩

namespace ChangeBatch

variable {changes : ChangeBatch} {key k : TrieKey}

/-- A change is folded into the one there was: the first old value that there is stays. -/
theorem lookup_insertInPlace_self (changes : ChangeBatch) (key : TrieKey) (change : Change) :
    (changes.insertInPlace key change).lookup key =
      some ⟨((changes.lookup key).bind Change.oldValue).or change.oldValue, change.newValue⟩ := by
  rw [insertInPlace]
  cases changes.lookup key with
  | none => exact AList.lookup_insert _
  | some e =>
    refine (AList.lookup_insert _).trans ?_
    cases h : e.oldValue <;> simp [h]

theorem lookup_insertInPlace_of_ne (hk : k ≠ key) (change : Change) :
    (changes.insertInPlace key change).lookup k = changes.lookup k := by
  rw [insertInPlace]
  cases changes.lookup key with
  | none => exact AList.lookup_insert_ne hk
  | some e => exact AList.lookup_insert_ne hk

end ChangeBatch

namespace MerkleTrees

variable {DB ID : Type} [BonsaiDatabase DB] [InfallibleDatabase DB] [AnswersOld DB] {kv kv' : KeyValueDB DB ID}
  {batch batch' : BonsaiDatabase.Batch DB}

/-- An update is recorded with the value there was. -/
theorem applyUpdate_records {key : TrieKey} {value : InsertOrRemove ByteVec}
    (h : applyUpdate key value (kv, batch) = .ok () (kv', batch')) :
    kv'.currentChanges =
        kv.currentChanges.insertInPlace key ⟨kv.columns key.toDatabaseKey, value.toOption⟩ ∧
      ∀ k, k ≠ key.toDatabaseKey → kv'.columns k = kv.columns k := by
  cases value with
  | insert value =>
    obtain ⟨old, db', batch', hrun, -⟩ := InfallibleDatabase.insert_eq kv.db key.toDatabaseKey value batch
    have h₁ : KeyValueDB.withBatch (fun db batch => BonsaiDatabase.insert db key.toDatabaseKey value batch) (kv, batch) =
        .ok old ({ kv with db := db' }, batch') := KeyValueDB.withBatch_ok hrun
    have h' := (bind_ok h₁ _).symm.trans h
    obtain ⟨rfl, hkeep⟩ := AnswersOld.insert_old hrun
    cases h'
    exact ⟨rfl, hkeep⟩
  | remove =>
    obtain ⟨old, db', batch', hrun, -⟩ := InfallibleDatabase.remove_eq kv.db key.toDatabaseKey batch
    have h₁ : KeyValueDB.withBatch (fun db batch => BonsaiDatabase.remove db key.toDatabaseKey batch) (kv, batch) =
        .ok old ({ kv with db := db' }, batch') := KeyValueDB.withBatch_ok hrun
    have h' := (bind_ok h₁ _).symm.trans h
    obtain ⟨rfl, hkeep⟩ := AnswersOld.remove_old hrun
    cases h'
    exact ⟨rfl, hkeep⟩

omit [BonsaiDatabase DB] [InfallibleDatabase DB] [AnswersOld DB] in
/-- A first change of a key is kept as it is. -/
theorem lookup_insertInPlace {changes : ChangeBatch} {key : TrieKey} (h : changes.lookup key = none) (change : Change)
    (k : TrieKey) :
    (changes.insertInPlace key change).lookup k = if k = key then some change else changes.lookup k := by
  by_cases hk : k = key
  · rw [hk, if_pos rfl, ChangeBatch.lookup_insertInPlace_self, h]
    rfl
  · rw [if_neg hk, ChangeBatch.lookup_insertInPlace_of_ne hk]

/-- The updates are recorded, each with the value there was. -/
theorem applyList_records {l : List (TrieKey × InsertOrRemove ByteVec)} (hl : (l.map Prod.fst).Nodup)
    (hnew : ∀ e ∈ l, kv.currentChanges.lookup e.1 = none)
    (h : (l.forM (fun (key, value) => applyUpdate key value) : KeyValueDB.M DB ID Unit) (kv, batch) = .ok () (kv', batch')) :
    (∀ key value, (key, value) ∈ l →
        kv'.currentChanges.lookup key = some ⟨kv.columns key.toDatabaseKey, value.toOption⟩) ∧
      ∀ key, key ∉ l.map Prod.fst → kv'.currentChanges.lookup key = kv.currentChanges.lookup key := by
  induction l generalizing kv batch with
  | nil =>
    cases h
    exact ⟨nofun, fun _ _ => rfl⟩
  | cons e l ih =>
    obtain ⟨key₀, value₀⟩ := e
    obtain ⟨hne, hl⟩ := List.nodup_cons.mp hl
    obtain ⟨⟨⟩, ⟨kv₁, batch₁⟩, h₁, h₂⟩ := bind_eq_ok h
    obtain ⟨hc, hkeep⟩ := applyUpdate_records h₁
    have hlook (k : TrieKey) : kv₁.currentChanges.lookup k =
        if k = key₀ then some ⟨kv.columns key₀.toDatabaseKey, value₀.toOption⟩ else kv.currentChanges.lookup k := by
      rw [hc, lookup_insertInPlace (hnew _ List.mem_cons_self)]
    have hother {k : TrieKey} (hk : k ∈ l.map Prod.fst) : k ≠ key₀ := by
      rintro rfl
      exact hne hk
    obtain ⟨hin, hout⟩ := ih hl (fun e he => by
      rw [hlook, if_neg (hother (List.mem_map_of_mem he))]
      exact hnew e (List.mem_cons_of_mem _ he)) h₂
    refine ⟨fun key value hmem => ?_, fun key hmem => ?_⟩
    · rcases List.mem_cons.mp hmem with heq | hmem
      · obtain ⟨rfl, rfl⟩ := Prod.mk.inj heq
        rw [hout key hne, hlook, if_pos rfl]
      · rw [hin key value hmem, hkeep]
        exact fun hk => hother (List.mem_map_of_mem hmem) (TrieKey.toDatabaseKey_injective hk)
    · rw [List.map_cons, List.mem_cons, not_or] at hmem
      rw [hout key hmem.2, hlook, if_neg hmem.1]

/-- The updates of one tree are recorded. -/
theorem applyAll_records {ords : HashOrders} {i : Nat} {u : Updates} (hnew : kv.currentChanges = ∅)
    (h : applyAll ords i [.ok u] (kv, batch) = .ok () (kv', batch')) (key : TrieKey) :
    kv'.currentChanges.lookup key = (u.lookup key).map fun v => ⟨kv.columns key.toDatabaseKey, v.toOption⟩ := by
  obtain ⟨⟨⟩, ⟨kv₁, batch₁⟩, h₁, h₂⟩ := bind_eq_ok h
  cases h₂
  obtain ⟨hin, hout⟩ := applyList_records (HashMap.nodup_iter u (ords i))
    (fun e _ => by rw [hnew, AList.lookup_empty]) h₁
  cases hu : u.lookup key with
  | some v => exact hin key v ((HashMap.mem_iter u (ords i)).mpr hu)
  | none =>
    rw [hout key, hnew, AList.lookup_empty, Option.map_none]
    intro hmem
    obtain ⟨e, he, rfl⟩ := List.mem_map.mp hmem
    have := (HashMap.mem_iter u (ords i)).mp he
    rw [hu] at this
    cases this

end MerkleTrees

/-! ## The entries -/

section

variable {ID : Type} [Id ID]

/-- The key of an entry tells what it is about. -/
theorem logKey_inj {tag tag' : UInt8} {id : ID} {key key' : TrieKey} (h : logKey tag id key = logKey tag' id key') :
    tag = tag' ∧ key = key' := by
  simp only [logKey, List.append_assoc, List.append_cancel_left_eq, List.singleton_append] at h
  obtain ⟨h₁, h₂⟩ := List.append_inj' h (by simp)
  obtain ⟨htype, htag⟩ : key.keyType.toByte = key'.keyType.toByte ∧ tag = tag' := by simpa using h₂
  refine ⟨htag, ?_⟩
  cases key <;> cases key' <;> simp_all [TrieKey.keyType, TrieKeyType.toByte, TrieKey.asSlice]

/-- Old and new values have entries of their own. -/
theorem keyOldValue_ne (id : ID) (key key' : TrieKey) : keyOldValue id key ≠ keyNewValue id key' := by
  intro h
  have := (logKey_inj h).1
  simp [oldValueTag, newValueTag] at this

namespace ChangeBatch

/-- The entries of a change are about its key. -/
theorem mem_serializeChange {id : ID} {key : TrieKey} {change : Change} {e : ByteVec × ByteVec} :
    e ∈ serializeChange id key change ↔ change.oldValue ≠ change.newValue ∧
      (e.1 = keyOldValue id key ∧ change.oldValue = some e.2 ∨ e.1 = keyNewValue id key ∧ change.newValue = some e.2) := by
  obtain ⟨b, v⟩ := e
  obtain ⟨old, new⟩ := change
  rcases old with _ | old <;> rcases new with _ | new
  · simp [serializeChange]
  · simp [serializeChange, eq_comm]
  · simp [serializeChange, eq_comm]
  · by_cases h : old = new
    · simp [serializeChange, h]
    · simp [serializeChange, h, eq_comm]

theorem nodup_serializeChange (id : ID) (key : TrieKey) (change : Change) :
    ((serializeChange id key change).map Prod.fst).Nodup := by
  obtain ⟨old, new⟩ := change
  rcases old with _ | old <;> rcases new with _ | new
  · simp [serializeChange]
  · simp [serializeChange]
  · simp [serializeChange]
  · by_cases h : old = new
    · simp [serializeChange, h]
    · simp [serializeChange, h, keyOldValue_ne]

/-- The entries of a key, if it was changed. -/
theorem mem_serialize {changes : ChangeBatch} {id : ID} {ord : HashOrder} {e : ByteVec × ByteVec} :
    e ∈ changes.serialize id ord ↔ ∃ key change, changes.lookup key = some change ∧ e ∈ serializeChange id key change := by
  rw [serialize, List.mem_flatMap]
  constructor
  · rintro ⟨⟨key, change⟩, hmem, he⟩
    exact ⟨key, change, (HashMap.mem_iter changes ord).mp hmem, he⟩
  · rintro ⟨key, change, hl, he⟩
    exact ⟨(key, change), (HashMap.mem_iter changes ord).mpr hl, he⟩

/-- The entries have distinct keys. -/
theorem nodup_serialize (changes : ChangeBatch) (id : ID) (ord : HashOrder) :
    ((changes.serialize id ord).map Prod.fst).Nodup := by
  rw [serialize, List.map_flatMap, List.nodup_flatMap]
  refine ⟨fun e _ => nodup_serializeChange id e.1 e.2, ?_⟩
  have hn := HashMap.nodup_iter changes ord
  rw [List.Nodup, List.pairwise_map] at hn
  refine hn.imp fun {a b} hab => ?_
  intro x hx hy
  obtain ⟨e, he, rfl⟩ := List.mem_map.mp hx
  obtain ⟨e', he', heq⟩ := List.mem_map.mp hy
  obtain ⟨-, h₁⟩ := mem_serializeChange.mp he
  obtain ⟨-, h₂⟩ := mem_serializeChange.mp he'
  rw [heq] at h₂
  rcases h₁ with ⟨h₁, -⟩ | ⟨h₁, -⟩ <;> rcases h₂ with ⟨h₂, -⟩ | ⟨h₂, -⟩
  · exact hab (logKey_inj (h₁.symm.trans h₂)).2
  · exact keyOldValue_ne id _ _ (h₁.symm.trans h₂)
  · exact keyOldValue_ne id _ _ (h₂.symm.trans h₁)
  · exact hab (logKey_inj (h₁.symm.trans h₂)).2

end ChangeBatch

/-! ## The log column -/

namespace KeyValueDB

theorem withLog_of_mem {l : List (ByteVec × ByteVec)} (hl : (l.map Prod.fst).Nodup) {e : ByteVec × ByteVec} (he : e ∈ l)
    (cols : Columns) : withLog cols l (.trieLog e.1) = some e.2 :=
  Assoc.foldl_update_of_mem (fun a b h => by simpa using h) hl he cols

theorem withLog_of_not_mem {l : List (ByteVec × ByteVec)} {b : ByteVec} (hb : b ∉ l.map Prod.fst) (cols : Columns) :
    withLog cols l (.trieLog b) = cols (.trieLog b) := by
  refine Assoc.foldl_update_of_not_mem (fun e he heq => hb ?_) cols
  rw [← DatabaseKey.trieLog.inj heq]
  exact List.mem_map_of_mem he

/-- The order of the entries does not matter. -/
theorem withLog_congr {l l' : List (ByteVec × ByteVec)} (hl : (l.map Prod.fst).Nodup) (hl' : (l'.map Prod.fst).Nodup)
    (h : ∀ e, e ∈ l ↔ e ∈ l') (cols : Columns) : withLog cols l = withLog cols l' := by
  have hmem (b : ByteVec) : b ∈ l.map Prod.fst ↔ b ∈ l'.map Prod.fst := by simp only [List.mem_map, h]
  funext key
  cases key with
  | trie b => exact (withLog_sameTries cols l (.trie b)).trans (withLog_sameTries cols l' (.trie b)).symm
  | flat b => exact (withLog_sameTries cols l (.flat b)).trans (withLog_sameTries cols l' (.flat b)).symm
  | trieLog b =>
    by_cases hb : b ∈ l.map Prod.fst
    · obtain ⟨e, he, rfl⟩ := List.mem_map.mp hb
      rw [withLog_of_mem hl he, withLog_of_mem hl' ((h e).mp he)]
    · rw [withLog_of_not_mem hb, withLog_of_not_mem (mt (hmem b).mpr hb)]

variable {DB : Type} [BonsaiDatabase DB] [InfallibleDatabase DB] {kv kv' : KeyValueDB DB ID} {before : Columns}

/-- The recorded changes lead from a content to that of the database. -/
def Records (kv : KeyValueDB DB ID) (before : Columns) : Prop := ∀ key : TrieKey,
  kv.currentChanges.lookup key = some ⟨before key.toDatabaseKey, kv.columns key.toDatabaseKey⟩ ∨
    kv.currentChanges.lookup key = none ∧ kv.columns key.toDatabaseKey = before key.toDatabaseKey

/-- The entries are those of the keys that changed. -/
theorem Records.mem_serialize (h : kv.Records before) {id : ID} {ord : HashOrder} {e : ByteVec × ByteVec} :
    e ∈ kv.currentChanges.serialize id ord ↔
      ∃ key : TrieKey, e ∈ ChangeBatch.serializeChange id key ⟨before key.toDatabaseKey, kv.columns key.toDatabaseKey⟩ := by
  rw [ChangeBatch.mem_serialize]
  constructor
  · rintro ⟨key, change, hl, he⟩
    rcases h key with hk | ⟨hk, -⟩
    · obtain rfl := Option.some.inj (hl.symm.trans hk)
      exact ⟨key, he⟩
    · rw [hk] at hl; cases hl
  · rintro ⟨key, he⟩
    rcases h key with hk | ⟨-, hk⟩
    · exact ⟨key, _, hk, he⟩
    · exact ((ChangeBatch.mem_serializeChange.mp he).1 hk.symm).elim

/-- The log depends on the contents before and after, not on what else was recorded. -/
theorem Records.logged_eq (h : kv.Records before) (h' : kv'.Records before) (hc : kv.columns = kv'.columns)
    (hconf : kv.config = kv'.config) (ord ord' : HashOrder) (id : ID) : kv.logged ord id = kv'.logged ord' id := by
  have hlog := withLog_congr (kv.currentChanges.nodup_serialize id ord) (kv'.currentChanges.nodup_serialize id ord')
    (fun e => by rw [h.mem_serialize, h'.mem_serialize, hc]) kv.columns
  rw [logged, logged, hlog, hc, hconf]

end KeyValueDB

end

end Bonsai
