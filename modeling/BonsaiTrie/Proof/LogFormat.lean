import BonsaiTrie.Proof.Log
import BonsaiTrie.Spec.Changes

/-!
# Reading a log

`deserialize` keeps the change of the key it last read apart from the batch. For
one key the reading is in one of few states (`Unread`, `Open`, `Closed`): what
an entry of the key and an entry of another one do to each (`next_self`,
`next_other`) gives what is read of a key with no entry, one or two. The two
values of a key come back unless the old one is read after the new one, with
another entry between them (`deserialize_serialize`).
-/

namespace Bonsai

open ChangeBatch

/-- `deserialize` between two entries. -/
structure Reading where
  batch : ChangeBatch
  current : Change
  lastKey : Option TrieKey

namespace Reading

/-- Nothing was read. -/
def start : Reading := ⟨∅, ⟨none, none⟩, none⟩

/-- The batch, with the change that is being read. -/
def flush (r : Reading) : ChangeBatch :=
  match r.lastKey with
  | some last => r.batch.insertInPlace last r.current
  | none => r.batch

/-- One of the values of a key is read. -/
def next (r : Reading) (key : TrieKey) (set : Change → Change) : Reading :=
  if r.lastKey = some key then ⟨r.batch, set r.current, some key⟩ else ⟨r.flush, set ⟨none, none⟩, some key⟩

/-- No value of the key was read. -/
def Unread (r : Reading) (key : TrieKey) : Prop := r.batch.lookup key = none ∧ r.lastKey ≠ some key

/-- The key is being read, for the first time. -/
def Open (r : Reading) (key : TrieKey) (change : Change) : Prop :=
  r.batch.lookup key = none ∧ r.lastKey = some key ∧ r.current = change

/-- The key was read, and then another one. -/
def Closed (r : Reading) (key : TrieKey) (change : Change) : Prop :=
  r.batch.lookup key = some change ∧ r.lastKey ≠ some key

/-- The key is being read for the second time. -/
def Reopened (r : Reading) (key : TrieKey) (before change : Change) : Prop :=
  r.batch.lookup key = some before ∧ r.lastKey = some key ∧ r.current = change

variable {r : Reading} {key k : TrieKey} {set : Change → Change} {c c' : Change}

/-- A change put into another one. -/
def fold (c c' : Change) : Change := ⟨c.oldValue.or c'.oldValue, c'.newValue⟩

theorem lookup_flush_self (h : r.lastKey = some key) :
    r.flush.lookup key = some (match r.batch.lookup key with | some c => fold c r.current | none => r.current) := by
  simp only [flush, h, lookup_insertInPlace_self]
  cases r.batch.lookup key <;> rfl

theorem lookup_flush_of_ne (h : r.lastKey ≠ some key) : r.flush.lookup key = r.batch.lookup key := by
  cases hr : r.lastKey with
  | none => simp only [flush, hr]
  | some last =>
    simp only [flush, hr]
    exact lookup_insertInPlace_of_ne (fun he => h (by rw [hr, he])) _

theorem Unread.flush (h : r.Unread key) : r.flush.lookup key = none := (lookup_flush_of_ne h.2).trans h.1

theorem Open.flush (h : r.Open key c) : r.flush.lookup key = some c := by
  rw [lookup_flush_self h.2.1, h.1, h.2.2]

theorem Closed.flush (h : r.Closed key c) : r.flush.lookup key = some c := (lookup_flush_of_ne h.2).trans h.1

theorem Reopened.flush (h : r.Reopened key c c') : r.flush.lookup key = some (fold c c') := by
  rw [lookup_flush_self h.2.1, h.1, h.2.2]

/-! ## An entry -/

theorem next_eq_of_ne (hk : r.lastKey ≠ some k) : r.next k set = ⟨r.flush, set ⟨none, none⟩, some k⟩ := if_neg hk

theorem Unread.next_self (h : r.Unread key) : (r.next key set).Open key (set ⟨none, none⟩) := by
  rw [next_eq_of_ne h.2]
  exact ⟨h.flush, rfl, rfl⟩

theorem Open.next_self (h : r.Open key c) : (r.next key set).Open key (set c) := by
  rw [next, if_pos h.2.1, h.2.2]
  exact ⟨h.1, rfl, rfl⟩

theorem Closed.next_self (h : r.Closed key c) : (r.next key set).Reopened key c (set ⟨none, none⟩) := by
  rw [next_eq_of_ne h.2]
  exact ⟨h.flush, rfl, rfl⟩

/-- An entry of another key keeps what is held of this one, and closes it. -/
theorem next_other (hk : k ≠ key) : (r.next k set).lastKey ≠ some key ∧ (r.next k set).batch.lookup key = r.flush.lookup key := by
  by_cases hl : r.lastKey = some k
  · have hne : r.lastKey ≠ some key := by
      rw [hl]
      exact fun h => hk (Option.some.inj h)
    rw [next, if_pos hl, lookup_flush_of_ne hne]
    exact ⟨fun h => hk (Option.some.inj h), rfl⟩
  · rw [next_eq_of_ne hl]
    exact ⟨fun h => hk (Option.some.inj h), rfl⟩

theorem Unread.next_other (h : r.Unread key) (hk : k ≠ key) : (r.next k set).Unread key :=
  ⟨(Reading.next_other hk).2.trans h.flush, (Reading.next_other hk).1⟩

theorem Open.next_other (h : r.Open key c) (hk : k ≠ key) : (r.next k set).Closed key c :=
  ⟨(Reading.next_other hk).2.trans h.flush, (Reading.next_other hk).1⟩

theorem Closed.next_other (h : r.Closed key c) (hk : k ≠ key) : (r.next k set).Closed key c :=
  ⟨(Reading.next_other hk).2.trans h.flush, (Reading.next_other hk).1⟩

theorem Reopened.next_other (h : r.Reopened key c c') (hk : k ≠ key) : (r.next k set).Closed key (fold c c') :=
  ⟨(Reading.next_other hk).2.trans h.flush, (Reading.next_other hk).1⟩

end Reading

section

variable {ID : Type} [Id ID] {id : ID} {key k : TrieKey} {l l₁ l₂ l₃ : List (ByteVec × ByteVec)} {r : Reading}

/-- A log key tells its key and its tag. -/
theorem parseLogKey_logKey (tag : UInt8) (id : ID) (key : TrieKey) :
    parseLogKey (Id.toBytes id).length (logKey tag id key) = some (key, tag) := by
  have hlen : ¬ (logKey tag id key).length < (Id.toBytes id).length + 3 := by
    simp only [logKey, List.length_append, List.length_singleton]
    omega
  have hdrop : (Id.toBytes id ++ [keySeparator] ++ key.asSlice).drop ((Id.toBytes id).length + 1) = key.asSlice :=
    List.drop_left' (by simp)
  rw [parseLogKey, if_neg hlen, logKey, List.reverse_append, List.reverse_append, List.reverse_singleton,
    List.reverse_singleton]
  simp only [List.singleton_append, List.reverse_reverse, hdrop]
  cases key <;> rfl

/-- The value of a key, the old one or the new one, is read. -/
def setTo (old : Bool) (value : ByteVec) (change : Change) : Change :=
  if old then { change with oldValue := some value } else { change with newValue := some value }

/-- The log key of the old value or of the new one. -/
def valueKey (old : Bool) (id : ID) (key : TrieKey) : ByteVec := if old then keyOldValue id key else keyNewValue id key

/-- An entry of the log of an id. -/
def IsEntry (id : ID) (e : ByteVec × ByteVec) : Prop := ∃ old key, e.1 = valueKey old id key

/-- An entry is about a key. -/
def About (id : ID) (key : TrieKey) (e : ByteVec × ByteVec) : Prop := ∃ old, e.1 = valueKey old id key

/-- An entry is read. -/
def Reading.readEntry (idLen : Nat) (r : Reading) (e : ByteVec × ByteVec) : Reading :=
  match parseLogKey idLen e.1 with
  | some (key, tag) => r.next key (setTo (tag = oldValueTag) e.2)
  | none => r

theorem readEntry_eq (old : Bool) {e : ByteVec × ByteVec} (he : e.1 = valueKey old id key) :
    r.readEntry (Id.toBytes id).length e = r.next key (setTo old e.2) := by
  rw [Reading.readEntry, he]
  cases old with
  | false =>
    have := parseLogKey_logKey newValueTag id key
    simp only [valueKey, Bool.false_eq_true, if_false, keyNewValue, this]
    rfl
  | true =>
    have := parseLogKey_logKey oldValueTag id key
    simp only [valueKey, if_true, keyOldValue, this]
    rfl

theorem valueKey_inj {old old' : Bool} (h : valueKey old id key = valueKey old' id k) : old = old' ∧ key = k := by
  cases old <;> cases old'
  · exact ⟨rfl, (logKey_inj h).2⟩
  · exact (keyOldValue_ne id _ _ h.symm).elim
  · exact (keyOldValue_ne id _ _ h).elim
  · exact ⟨rfl, (logKey_inj h).2⟩

/-- A change that is being read has a value, and there is none before the first entry. -/
def Reading.Begun (r : Reading) : Prop :=
  r.lastKey = none ∧ r.current = ⟨none, none⟩ ∨
    r.lastKey ≠ none ∧ (r.current.newValue.isSome || r.current.oldValue.isSome) = true

theorem Reading.begun_next (old : Bool) (value : ByteVec) : (r.next key (setTo old value)).Begun := by
  have hset (c : Change) : ((setTo old value c).newValue.isSome || (setTo old value c).oldValue.isSome) = true := by
    cases old <;> simp [setTo]
  rw [Reading.next]
  split
  · exact .inr ⟨nofun, hset _⟩
  · exact .inr ⟨nofun, hset _⟩

/-- `deserialize` reads the entries one by one, and ends by putting the last change in the batch. -/
theorem deserializeLoop_eq (hl : ∀ e ∈ l, IsEntry id e) (hr : r.Begun) :
    deserializeLoop (Id.toBytes id).length l r.batch r.current r.lastKey =
      some (l.foldl (Reading.readEntry (Id.toBytes id).length) r).flush := by
  induction l generalizing r with
  | nil =>
    rw [deserializeLoop.eq_def]
    rcases r with ⟨batch, current, last⟩
    cases last with
    | none => rfl
    | some last =>
      rcases hr with ⟨hr, -⟩ | ⟨-, hr⟩
      · cases hr
      · exact if_pos hr
  | cons e l ih =>
    obtain ⟨old, key, he⟩ := hl e List.mem_cons_self
    have hbegun : (r.next key (setTo old e.2)).Begun := r.begun_next old e.2
    have hrest := ih (fun e he => hl e (List.mem_cons_of_mem _ he)) hbegun
    rw [List.foldl_cons, readEntry_eq old he, ← hrest]
    obtain ⟨b, v⟩ := e
    obtain rfl : b = valueKey old id key := he
    rcases r with ⟨batch, current, last⟩
    have hnone (h : last = none) : current = ⟨none, none⟩ := by
      rcases hr with ⟨-, hr⟩ | ⟨hr, -⟩
      · exact hr
      · exact (hr h).elim
    cases old with
    | false =>
      rw [deserializeLoop, valueKey, if_neg Bool.false_ne_true, keyNewValue, parseLogKey_logKey]
      cases last with
      | none => simp [Reading.next, Reading.flush, setTo, setValue, hnone]
      | some last =>
        by_cases hk : last = key
        · subst hk
          simp [Reading.next, setTo, setValue]
        · simp [Reading.next, Reading.flush, setTo, setValue, hk]
    | true =>
      rw [deserializeLoop, valueKey, if_pos rfl, keyOldValue, parseLogKey_logKey]
      cases last with
      | none => simp [Reading.next, Reading.flush, setTo, setValue, oldValueTag, newValueTag, hnone]
      | some last =>
        by_cases hk : last = key
        · subst hk
          simp [Reading.next, setTo, setValue, oldValueTag, newValueTag]
        · simp [Reading.next, Reading.flush, setTo, setValue, oldValueTag, newValueTag, hk]

/-! ## The entries of one key -/

namespace Reading

variable {c c' : Change}

theorem readEntry_other {e : ByteVec × ByteVec} (he : IsEntry id e) (hk : ¬ About id key e) :
    ∃ k set, k ≠ key ∧ r.readEntry (Id.toBytes id).length e = r.next k set := by
  obtain ⟨old, k, he⟩ := he
  refine ⟨k, setTo old e.2, ?_, readEntry_eq old he⟩
  rintro rfl
  exact hk ⟨old, he⟩

/-- The key has no entry. -/
def Skips (id : ID) (key : TrieKey) (l : List (ByteVec × ByteVec)) : Prop := ∀ e ∈ l, IsEntry id e ∧ ¬ About id key e

theorem Skips.tail {e : ByteVec × ByteVec} (h : Skips id key (e :: l)) : Skips id key l :=
  fun e he => h e (List.mem_cons_of_mem _ he)

theorem Unread.foldl (h : r.Unread key) (hl : Skips id key l) :
    (l.foldl (readEntry (Id.toBytes id).length) r).Unread key := by
  induction l generalizing r with
  | nil => exact h
  | cons e l ih =>
    obtain ⟨k, set, hk, hnext⟩ := readEntry_other (r := r) (hl e List.mem_cons_self).1 (hl e List.mem_cons_self).2
    rw [List.foldl_cons, hnext]
    exact ih (h.next_other hk) hl.tail

theorem Closed.foldl (h : r.Closed key c) (hl : Skips id key l) :
    (l.foldl (readEntry (Id.toBytes id).length) r).Closed key c := by
  induction l generalizing r with
  | nil => exact h
  | cons e l ih =>
    obtain ⟨k, set, hk, hnext⟩ := readEntry_other (r := r) (hl e List.mem_cons_self).1 (hl e List.mem_cons_self).2
    rw [List.foldl_cons, hnext]
    exact ih (h.next_other hk) hl.tail

theorem Open.foldl (h : r.Open key c) (hl : Skips id key l) (hne : l ≠ []) :
    (l.foldl (readEntry (Id.toBytes id).length) r).Closed key c := by
  obtain ⟨e, l, rfl⟩ := List.exists_cons_of_ne_nil hne
  obtain ⟨k, set, hk, hnext⟩ := readEntry_other (r := r) (hl e List.mem_cons_self).1 (hl e List.mem_cons_self).2
  rw [List.foldl_cons, hnext]
  exact (h.next_other hk).foldl hl.tail

theorem Open.flush_foldl (h : r.Open key c) (hl : Skips id key l) :
    (l.foldl (readEntry (Id.toBytes id).length) r).flush.lookup key = some c := by
  by_cases hne : l = []
  · rw [hne]
    exact h.flush
  · exact (h.foldl hl hne).flush

theorem Reopened.flush_foldl (h : r.Reopened key c c') (hl : Skips id key l) :
    (l.foldl (readEntry (Id.toBytes id).length) r).flush.lookup key = some (fold c c') := by
  cases l with
  | nil => exact h.flush
  | cons e l =>
    obtain ⟨k, set, hk, hnext⟩ := readEntry_other (r := r) (hl e List.mem_cons_self).1 (hl e List.mem_cons_self).2
    rw [List.foldl_cons, hnext]
    exact ((h.next_other hk).foldl hl.tail).flush

/-- What is read of a key with one entry. -/
theorem lookup_one (old : Bool) (v : ByteVec) (h : r.Unread key) (h₁ : Skips id key l₁) (h₂ : Skips id key l₂) :
    ((l₁ ++ (valueKey old id key, v) :: l₂).foldl (readEntry (Id.toBytes id).length) r).flush.lookup key =
      some (setTo old v ⟨none, none⟩) := by
  rw [List.foldl_append, List.foldl_cons, readEntry_eq old rfl]
  exact (h.foldl h₁).next_self.flush_foldl h₂

/-- What is read of a key with two entries: the second one is put in the change that the first one
started, or in the batch. -/
theorem lookup_two (old old' : Bool) (v v' : ByteVec) (h : r.Unread key) (h₁ : Skips id key l₁) (h₂ : Skips id key l₂)
    (h₃ : Skips id key l₃) :
    ((l₁ ++ (valueKey old id key, v) :: (l₂ ++ (valueKey old' id key, v') :: l₃)).foldl
        (readEntry (Id.toBytes id).length) r).flush.lookup key =
      some (if l₂ = [] then setTo old' v' (setTo old v ⟨none, none⟩)
        else fold (setTo old v ⟨none, none⟩) (setTo old' v' ⟨none, none⟩)) := by
  rw [List.foldl_append, List.foldl_cons, readEntry_eq old rfl, List.foldl_append, List.foldl_cons, readEntry_eq old' rfl]
  have hopen : ((l₁.foldl (readEntry (Id.toBytes id).length) r).next key (setTo old v)).Open key
      (setTo old v ⟨none, none⟩) := (h.foldl h₁).next_self
  by_cases hne : l₂ = []
  · rw [if_pos hne, hne]
    exact hopen.next_self.flush_foldl h₃
  · rw [if_neg hne]
    exact (hopen.foldl h₂ hne).next_self.flush_foldl h₃

end Reading

end

/-! ## The log of a batch -/

section

variable {ID : Type} [Id ID] {id : ID} {batch : ChangeBatch} {ord : HashOrder} {key : TrieKey}
  {l : List (ByteVec × ByteVec)}

/-- The old value of a change, or the new one. -/
def Change.value (old : Bool) (change : Change) : Option ByteVec := if old then change.oldValue else change.newValue

theorem effective_eq_some {change : Change} :
    batch.effective key = some change ↔ batch.lookup key = some change ∧ change.oldValue ≠ change.newValue := by
  rw [effective, Option.filter_eq_some_iff]
  simp

/-- A value has an entry if its key was changed. -/
theorem mem_log (hl : l.Perm (batch.serialize id ord)) (old : Bool) (v : ByteVec) :
    (valueKey old id key, v) ∈ l ↔ ∃ change, batch.effective key = some change ∧ change.value old = some v := by
  rw [hl.mem_iff, mem_serialize]
  constructor
  · rintro ⟨k, change, hlook, he⟩
    obtain ⟨hne, hval⟩ := mem_serializeChange.mp he
    have hk : key = k ∧ change.value old = some v := by
      rcases hval with ⟨hkey, hv⟩ | ⟨hkey, hv⟩
      · obtain ⟨rfl, hk⟩ := @valueKey_inj _ _ id key k old true hkey
        exact ⟨hk, hv⟩
      · obtain ⟨rfl, hk⟩ := @valueKey_inj _ _ id key k old false hkey
        exact ⟨hk, hv⟩
    obtain ⟨rfl, hv⟩ := hk
    exact ⟨change, effective_eq_some.mpr ⟨hlook, hne⟩, hv⟩
  · rintro ⟨change, heff, hv⟩
    obtain ⟨hlook, hne⟩ := effective_eq_some.mp heff
    refine ⟨key, change, hlook, mem_serializeChange.mpr ⟨hne, ?_⟩⟩
    cases old with
    | true => exact .inl ⟨rfl, hv⟩
    | false => exact .inr ⟨rfl, hv⟩

theorem isEntry_of_mem (hl : l.Perm (batch.serialize id ord)) {e : ByteVec × ByteVec} (he : e ∈ l) : IsEntry id e := by
  obtain ⟨key, change, -, he⟩ := mem_serialize.mp (hl.mem_iff.mp he)
  obtain ⟨-, ⟨hkey, -⟩ | ⟨hkey, -⟩⟩ := mem_serializeChange.mp he
  · exact ⟨true, key, hkey⟩
  · exact ⟨false, key, hkey⟩

theorem nodup_log (hl : l.Perm (batch.serialize id ord)) : (l.map Prod.fst).Nodup :=
  (hl.map Prod.fst).nodup_iff.mpr (batch.nodup_serialize id ord)

/-- A part of the log without the entries of a changed key. -/
theorem skips_of (hl : l.Perm (batch.serialize id ord)) {change : Change} (heff : batch.effective key = some change)
    {part : List (ByteVec × ByteVec)} (hpart : ∀ e ∈ part, e ∈ l)
    (hno : ∀ old v, change.value old = some v → (valueKey old id key, v) ∉ part) : Reading.Skips id key part := by
  refine fun e he => ⟨isEntry_of_mem hl (hpart e he), ?_⟩
  rintro ⟨old, hkey⟩
  have he : (valueKey old id key, e.2) ∈ part := by rwa [← hkey]
  obtain ⟨change', heff', hv⟩ := (mem_log hl old e.2).mp (hpart _ he)
  obtain rfl := Option.some.inj (heff.symm.trans heff')
  exact hno old e.2 hv he

theorem skips_of_none (hl : l.Perm (batch.serialize id ord)) (heff : batch.effective key = none) :
    Reading.Skips id key l := by
  refine fun e he => ⟨isEntry_of_mem hl he, ?_⟩
  rintro ⟨old, hkey⟩
  obtain ⟨change, heff', -⟩ := (mem_log hl old e.2).mp (by rwa [← hkey])
  rw [heff] at heff'
  cases heff'

/-- The entries of a log, read one by one. -/
def readLog (id : ID) (l : List (ByteVec × ByteVec)) : Reading :=
  l.foldl (Reading.readEntry (Id.toBytes id).length) .start

theorem start_unread (key : TrieKey) : Reading.start.Unread key := ⟨AList.lookup_empty key, nofun⟩

/-- The entries of both values, the old one first or second. -/
theorem lookup_readLog_two (hl : l.Perm (batch.serialize id ord)) {old old' : Bool} (hne : old ≠ old') {v v' : ByteVec}
    {l₁ l₂ l₃ : List (ByteVec × ByteVec)}
    (hsplit : l = l₁ ++ (valueKey old id key, v) :: (l₂ ++ (valueKey old' id key, v') :: l₃)) :
    (readLog id l).flush.lookup key =
      some (if l₂ = [] then setTo old' v' (setTo old v ⟨none, none⟩)
        else Reading.fold (setTo old v ⟨none, none⟩) (setTo old' v' ⟨none, none⟩)) := by
  have hfst : (valueKey old id key, v) ∈ l := by rw [hsplit]; simp
  have hsnd : (valueKey old' id key, v') ∈ l := by rw [hsplit]; simp
  obtain ⟨change, heff, hv⟩ := (mem_log hl old v).mp hfst
  have hv' : change.value old' = some v' := by
    obtain ⟨change', heff', hv'⟩ := (mem_log hl old' v').mp hsnd
    rwa [Option.some.inj (heff.symm.trans heff')]
  -- the two entries are the only ones of the key
  have hnd := (nodup_log hl).of_map
  have honly (part : List (ByteVec × ByteVec)) (hpart : ∀ e ∈ part, e ∈ l) (h : (valueKey old id key, v) ∉ part)
      (h' : (valueKey old' id key, v') ∉ part) : Reading.Skips id key part := by
    refine skips_of hl heff hpart fun o w hw => ?_
    by_cases ho : o = old
    · subst ho
      rwa [Option.some.inj (hw.symm.trans hv)]
    · obtain rfl : o = old' := by
        revert hne ho
        cases o <;> cases old <;> cases old' <;> decide
      rwa [Option.some.inj (hw.symm.trans hv')]
  rw [hsplit] at hnd
  simp only [List.nodup_append, List.nodup_cons, List.mem_append, List.mem_cons, not_or] at hnd
  obtain ⟨-, ⟨⟨h₂, -, h₃⟩, -, ⟨h₃', -⟩, h₂'⟩, h₁⟩ := hnd
  rw [readLog, hsplit]
  refine Reading.lookup_two old old' v v' (start_unread key) (honly l₁ (fun e he => ?_) ?_ ?_)
    (honly l₂ (fun e he => ?_) h₂ ?_) (honly l₃ (fun e he => ?_) h₃ h₃')
  · rw [hsplit]; simp [he]
  · exact fun h => h₁ _ h _ (.inl rfl) rfl
  · exact fun h => h₁ _ h _ (.inr (.inr (.inl rfl))) rfl
  · rw [hsplit]; simp [he]
  · exact fun h => h₂' _ h _ (.inl rfl) rfl
  · rw [hsplit]; simp [he]

/-- A key with one value comes back. -/
theorem lookup_readLog_one (hl : l.Perm (batch.serialize id ord)) {change : Change} (heff : batch.effective key = some change)
    {old : Bool} {v : ByteVec} (hv : change.value old = some v) (hnone : change.value (!old) = none) :
    (readLog id l).flush.lookup key = some change := by
  have hmem : (valueKey old id key, v) ∈ l := (mem_log hl old v).mpr ⟨change, heff, hv⟩
  obtain ⟨l₁, l₂, hsplit⟩ := List.append_of_mem hmem
  have hnd := (nodup_log hl).of_map
  have honly (part : List (ByteVec × ByteVec)) (hpart : ∀ e ∈ part, e ∈ l) (h : (valueKey old id key, v) ∉ part) :
      Reading.Skips id key part := by
    refine skips_of hl heff hpart fun o w hw => ?_
    by_cases ho : o = old
    · subst ho
      rwa [Option.some.inj (hw.symm.trans hv)]
    · rw [Bool.eq_not_of_ne ho, hnone] at hw
      cases hw
  rw [hsplit] at hnd
  simp only [List.nodup_append, List.nodup_cons, List.mem_cons] at hnd
  rw [readLog, hsplit, Reading.lookup_one old v (start_unread key) (honly l₁ (fun e he => ?_) fun h => ?_)
    (honly l₂ (fun e he => ?_) hnd.2.1.1)]
  · obtain ⟨o, n⟩ := change
    cases old with
    | true =>
      obtain rfl : n = none := hnone
      obtain rfl : o = some v := hv
      rfl
    | false =>
      obtain rfl : o = none := hnone
      obtain rfl : n = some v := hv
      rfl
  · rw [hsplit]; simp [he]
  · exact hnd.2.2 _ h _ (.inl rfl) rfl
  · rw [hsplit]; simp [he]

/-- Every change comes back from a log that is not torn. -/
theorem lookup_readLog (hl : l.Perm (batch.serialize id ord)) (hwhole : ¬ TornLog id l) (key : TrieKey) :
    (readLog id l).flush.lookup key = batch.effective key := by
  cases heff : batch.effective key with
  | none => exact ((start_unread key).foldl (skips_of_none hl heff)).flush
  | some change =>
    obtain ⟨old, new⟩ := change
    rcases old with _ | old <;> rcases new with _ | new
    · exact ((effective_eq_some.mp heff).2 rfl).elim
    · exact lookup_readLog_one hl heff (show Change.value false _ = some new from rfl) rfl
    · exact lookup_readLog_one hl heff (show Change.value true _ = some old from rfl) rfl
    · have hold : (valueKey true id key, old) ∈ l := (mem_log hl true old).mpr ⟨_, heff, rfl⟩
      have hnew : (valueKey false id key, new) ∈ l := (mem_log hl false new).mpr ⟨_, heff, rfl⟩
      obtain ⟨l₁, l₂, hsplit⟩ := List.append_of_mem hold
      rw [hsplit, List.mem_append, List.mem_cons] at hnew
      rcases hnew with hnew | heq | hnew
      · -- the new value is read first, so right before the old one
        obtain ⟨l₃, l₄, rfl⟩ := List.append_of_mem hnew
        rw [List.append_assoc, List.cons_append] at hsplit
        obtain rfl : l₄ = [] := by
          by_contra hne
          exact hwhole ⟨key, new, old, l₃, l₄, l₂, hne, hsplit⟩
        rw [lookup_readLog_two hl (by decide) hsplit]
        rfl
      · obtain ⟨h, -⟩ := valueKey_inj (Prod.mk.inj heq).1
        cases h
      · obtain ⟨l₃, l₄, rfl⟩ := List.append_of_mem hnew
        rw [lookup_readLog_two hl (by decide) hsplit]
        split
        · rfl
        · rfl

/-- `deserialize` of the entries of a log in any order returns, and gives back the changes that
change a value exactly when no new value is read before the old one and apart from it. -/
theorem deserialize_serialize (batch : ChangeBatch) (id : ID) (ord : HashOrder) (entries : List (ByteVec × ByteVec))
    (hentries : entries.Perm (batch.serialize id ord)) :
    ∃ batch', deserialize id entries = some batch' ∧
      ((∀ key, batch'.lookup key = batch.effective key) ↔ ¬ TornLog id entries) := by
  refine ⟨(readLog id entries).flush, deserializeLoop_eq (r := .start) (fun e he => isEntry_of_mem hentries he)
    (.inl ⟨rfl, rfl⟩), fun h => ?_, lookup_readLog hentries⟩
  rintro ⟨key, new, old, l₁, l₂, l₃, hne, hsplit⟩
  have hread := lookup_readLog_two hentries Bool.false_ne_true hsplit
  rw [if_neg hne, h key] at hread
  have hmem : (valueKey false id key, new) ∈ entries := by rw [hsplit]; simp [valueKey]
  obtain ⟨change, heff, hv⟩ := (mem_log hentries false new).mp hmem
  obtain rfl := Option.some.inj (hread.symm.trans heff)
  cases hv

end

/-- A key with both values, and a key that begins with the log entry of its new value. -/
def nested : ChangeBatch :=
  ((∅ : ChangeBatch).insert (.trie [0, 0]) ⟨none, some [7]⟩).insert (.trie []) ⟨some [5], some [6]⟩

theorem deserialize_serialize_nested :
    ∃ batch', deserialize (1 : BasicId) (nested.serialize (1 : BasicId) .listed) = some batch' ∧
      ((∀ key, batch'.lookup key = nested.effective key) ↔
        ¬ TornLog (1 : BasicId) (nested.serialize (1 : BasicId) .listed)) :=
  deserialize_serialize nested (1 : BasicId) .listed _ (.refl _)

/-- In the order of the bytes the entry of the longer key comes between the two values, and the new one is lost. -/
theorem deserialize_ascending_torn :
    let entries := [(keyNewValue (1 : BasicId) (.trie []), [6]), (keyNewValue (1 : BasicId) (.trie [0, 0]), [7]),
      (keyOldValue (1 : BasicId) (.trie []), [5])]
    entries.Perm (nested.serialize (1 : BasicId) .listed) ∧ (entries.Pairwise fun e e' => e.1 < e'.1) ∧
      nested.effective (.trie []) = some ⟨some [5], some [6]⟩ ∧
      (deserialize (1 : BasicId) entries).map (fun batch => batch.lookup (.trie [])) = some (some ⟨some [5], none⟩) := by
  decide +kernel

end Bonsai
