import BonsaiTrie.Impl.Database

/-!
# Change batches and their log format

`changes.rs`: the changes a commit makes, keyed by what they touch, and the
entries of the trie log they are stored as: the id, a separator, the key, its
type and whether the value is the old or the new one.
-/

namespace Bonsai

/-- `Change`. -/
structure Change where
  oldValue : Option ByteVec
  newValue : Option ByteVec
  deriving DecidableEq, Repr

/-- `ChangeBatch`. -/
abbrev ChangeBatch := HashMap TrieKey Change

/-- `KEY_SEPARATOR`. -/
def keySeparator : UInt8 := 0x00
/-- `NEW_VALUE`. -/
def newValueTag : UInt8 := 0x00
/-- `OLD_VALUE`. -/
def oldValueTag : UInt8 := 0x01

section

variable {ID : Type} [Id ID]

/-- A log key: that of the old or of the new value of `key`. -/
def logKey (tag : UInt8) (id : ID) (key : TrieKey) : ByteVec :=
  Id.toBytes id ++ [keySeparator] ++ key.asSlice ++ [key.keyType.toByte] ++ [tag]

/-- `key_old_value`. -/
def keyOldValue (id : ID) (key : TrieKey) : ByteVec := logKey oldValueTag id key

/-- `key_new_value`. -/
def keyNewValue (id : ID) (key : TrieKey) : ByteVec := logKey newValueTag id key

end

namespace ChangeBatch

/-- `ChangeBatch::insert_in_place`. -/
def insertInPlace (batch : ChangeBatch) (key : TrieKey) (change : Change) : ChangeBatch :=
  match batch.lookup key with
  | some e =>
    batch.insert key
      { oldValue := if e.oldValue.isNone then change.oldValue else e.oldValue
        newValue := change.newValue }
  | none => batch.insert key change

variable {ID : Type} [Id ID]

/-- The log entries of one change; a change to an equal value has none. -/
def serializeChange (id : ID) (key : TrieKey) (change : Change) : List (ByteVec × ByteVec) :=
  match change.oldValue, change.newValue with
  | some old, some new =>
    if old = new then [] else [(keyOldValue id key, old), (keyNewValue id key, new)]
  | some old, none => [(keyOldValue id key, old)]
  | none, some new => [(keyNewValue id key, new)]
  | none, none => []

/-- `ChangeBatch::serialize`. -/
def serialize (batch : ChangeBatch) (id : ID) (ord : HashOrder) : List (ByteVec × ByteVec) :=
  (batch.iter ord).flatMap fun kc => serializeChange id kc.1 kc.2

/-- A log key taken apart: the key it is about and the tag; `none` where the code panics. -/
def parseLogKey (idLen : Nat) (key : ByteVec) : Option (TrieKey × UInt8) :=
  if key.length < idLen + 3 then none
  else match key.reverse with
    | changeType :: keyType :: rest =>
      (TrieKey.fromVariantAndBytes keyType (rest.reverse.drop (idLen + 1))).map (·, changeType)
    | _ => none

/-- `Change` with one of its values set; `none` where the code panics on the tag. -/
def setValue (change : Change) (changeType : UInt8) (value : ByteVec) : Option Change :=
  if changeType = newValueTag then some { change with newValue := some value }
  else if changeType = oldValueTag then some { change with oldValue := some value }
  else none

/-- The loop of `deserialize`: the entries left, the batch, the change being read and its key. -/
def deserializeLoop (idLen : Nat) :
    List (ByteVec × ByteVec) → ChangeBatch → Change → Option TrieKey → Option ChangeBatch
  | [], batch, current, lastKey =>
    match lastKey with
    | some last =>
      if current.newValue.isSome || current.oldValue.isSome then some (batch.insertInPlace last current)
      else some batch
    | none => some batch
  | (key, value) :: changes, batch, current, lastKey => do
    let (changeKey, changeType) ← parseLogKey idLen key
    let (batch, current) :=
      match lastKey with
      | some last => if last ≠ changeKey then (batch.insertInPlace last current, ⟨none, none⟩) else (batch, current)
      | none => (batch, current)
    let current ← setValue current changeType value
    deserializeLoop idLen changes batch current (some changeKey)

/-- `ChangeBatch::deserialize`: `none` where the code panics. -/
def deserialize (id : ID) (changes : List (ByteVec × ByteVec)) : Option ChangeBatch :=
  deserializeLoop (Id.toBytes id).length changes ∅ ⟨none, none⟩ none

end ChangeBatch

end Bonsai
