import BonsaiTrie.Impl.Database

/-!
# The in-memory backend

`HashMapDb` (`databases/hashmap_db.rs`): three hash maps and the snapshots
taken of the whole database. Writes are immediate, whatever batch they are
given; the batch is the unit type.
-/

namespace Bonsai

/-- `BTreeMap<K, V>`: the entries by increasing key. -/
abbrev BTreeMap (K V : Type) := List (K × V)

namespace BTreeMap

variable {K V : Type} [LT K] [DecidableLT K]

/-- `BTreeMap::insert`. -/
def insert (k : K) (v : V) : BTreeMap K V → BTreeMap K V
  | [] => [(k, v)]
  | (j, w) :: rest =>
    if k < j then (k, v) :: (j, w) :: rest
    else if j < k then (j, w) :: insert k v rest
    else (k, v) :: rest

/-- `range(..&k).next()`: the entry of the least key, if it is below `k`. -/
def rangeToNext (m : BTreeMap K V) (k : K) : Option (K × V) := (m.takeWhile (·.1 < k)).head?

end BTreeMap

/-- `HashMapDb`. -/
structure HashMapDb (ID : Type) where
  trieDb : HashMap ByteVec ByteVec
  flatDb : HashMap ByteVec ByteVec
  trieLogDb : HashMap ByteVec ByteVec
  snapshots : List (ID × HashMapDb ID)

/-- `HashMapDbError`. -/
inductive HashMapDbError where
  | mk
  deriving DecidableEq, Repr

namespace HashMapDb

variable {ID : Type}

/-- `HashMapDb::default`. -/
def empty : HashMapDb ID := ⟨∅, ∅, ∅, []⟩

/-- `HashMapDb::get_map`. -/
def getMap (db : HashMapDb ID) : DatabaseKey → HashMap ByteVec ByteVec
  | .trie _ => db.trieDb
  | .flat _ => db.flatDb
  | .trieLog _ => db.trieLogDb

/-- `*get_map_mut(key) = map`. -/
def setMap (db : HashMapDb ID) (key : DatabaseKey) (map : HashMap ByteVec ByteVec) : HashMapDb ID :=
  match key with
  | .trie _ => { db with trieDb := map }
  | .flat _ => { db with flatDb := map }
  | .trieLog _ => { db with trieLogDb := map }

def get (db : HashMapDb ID) (key : DatabaseKey) : Option ByteVec := (db.getMap key).lookup key.asSlice

def getByPrefix (db : HashMapDb ID) (pre : DatabaseKey) (ord : HashOrder) : List (ByteVec × ByteVec) :=
  ((db.getMap pre).iter ord).filter fun kv => pre.asSlice.isPrefixOf kv.1

def insert (db : HashMapDb ID) (key : DatabaseKey) (value : ByteVec) : Option ByteVec × HashMapDb ID :=
  (db.get key, db.setMap key ((db.getMap key).insert key.asSlice value))

def remove (db : HashMapDb ID) (key : DatabaseKey) : Option ByteVec × HashMapDb ID :=
  (db.get key, db.setMap key ((db.getMap key).erase key.asSlice))

/-- `remove_by_prefix`: the keys are collected, then removed one by one. -/
def removeByPrefix (db : HashMapDb ID) (pre : DatabaseKey) : HashMapDb ID :=
  let map := db.getMap pre
  let keysToRemove := map.keys.filter fun k => pre.asSlice.isPrefixOf k
  db.setMap pre (keysToRemove.foldl (fun m k => m.erase k) map)

instance : BonsaiDatabase (HashMapDb ID) where
  Batch := Unit
  DatabaseError := HashMapDbError
  createBatch _ := ()
  get db key := .ok (db.get key)
  getByPrefix db pre ord := .ok (db.getByPrefix pre ord)
  contains db key := .ok (db.get key).isSome
  insert db key value batch := (.ok (db.insert key value).1, (db.insert key value).2, batch)
  remove db key batch := (.ok (db.remove key).1, (db.remove key).2, batch)
  removeByPrefix db pre := (.ok (), db.removeByPrefix pre)
  writeBatch db _ := (.ok (), db)

instance [LT ID] [DecidableLT ID] : BonsaiPersistentDatabase (HashMapDb ID) ID (HashMapDb ID) where
  snapshot db id := { db with snapshots := BTreeMap.insert id db db.snapshots }
  transaction db id := BTreeMap.rangeToNext db.snapshots id

end HashMapDb

end Bonsai
