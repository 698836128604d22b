/-
  StorageEngine/Sharding/DbSlice.lean
  ===================================
  **The part of the store that one shard owns** (`sharding/db_slice.cpp`, class `DbSlice`,
  and `sharding/namespaces.cpp`, class `Namespace`).

  The prime table of a slice is taken as the finite map that the table represents.  An
  iterator is done, or stands on the entry of a key; the source's iterators look their
  key up again when the entry has moved.  The only database is the one with index 0, and
  no caller asks for the type of an object.
-/
import StorageEngine.Sharding.EngineShardSet
import StorageEngine.Redis.ReplyBuilder
import Mathlib.Data.Finmap

namespace StorageEngine.Sharding

open StorageEngine.Redis

/-- The statuses other than `OK`. -/
inductive OpStatus where
  | keyNotFound
  | wrongType
  | skipped
deriving DecidableEq, Repr

/-- `OpResult`: a value under the status `OK`, or another status. -/
abbrev OpResult (α : Type) := Except OpStatus α

/-- A value of the store: without a tag, an integer, which no command stores, or a string.  The
    other tag is for keys. -/
inductive PrimeValue where
  | empty
  | int (ival : Int64)
  | str (s : Bytes)
deriving DecidableEq, Repr

namespace PrimeValue

def setString (_ : PrimeValue) (s : Bytes) : PrimeValue := .str s

def setInt (_ : PrimeValue) (ival : Int64) : PrimeValue := .int ival

/-- The assignment from a temporary, which leaves the target alone if that has no tag. -/
def assign (v : PrimeValue) : PrimeValue → PrimeValue
  | .empty => v
  | .int ival => v.setInt ival
  | .str s => v.setString s

end PrimeValue

/-- What the table holds for a key: the expiry that is stored with the key, and the value. -/
structure Entry where
  expire : Option UInt64
  value : PrimeValue
deriving DecidableEq, Repr

/-- A time that is read as an `int64_t`. -/
theorem toInt_toInt64 (x : UInt64) :
    x.toInt64.toInt = if x.toNat < 2 ^ 63 then (x.toNat : Int) else x.toNat - 2 ^ 64 := by
  show x.toBitVec.toInt = _
  rw [BitVec.toInt_eq_toNat_cond, show x.toBitVec.toNat = x.toNat from rfl]
  split
  · rw [if_pos (by omega)]
  · rw [if_neg (by omega)]
    rfl

abbrev PrimeTable := Finmap fun _ : Bytes => Entry

/-- A slice, with the id of the shard that owns it. -/
structure DbSlice where
  owner : ShardId
  prime : PrimeTable

namespace DbSlice

/-- The key of the entry that an iterator stands on. -/
abbrev Iterator := Option Bytes

variable (db : DbSlice)

def findInternal (key : Bytes) : OpResult Iterator :=
  if key ∈ db.prime then .ok (some key) else .error .keyNotFound

/-- The iterator of a failed lookup is the default one, which is done. -/
def findReadOnly (key : Bytes) : Iterator :=
  match db.findInternal key with
  | .ok it => it
  | .error _ => none

/-- `FindMutable`, through `FindMutableInternal`. -/
def findMutable (key : Bytes) : Iterator :=
  match db.findInternal key with
  | .ok it => it
  | .error _ => none

/-- `AddOrFind`: the iterator, and whether its entry is new. -/
def addOrFind (key : Bytes) : DbSlice × Iterator × Bool :=
  match db.findInternal key with
  | .ok it => (db, it, false)
  | .error _ => ({ db with prime := db.prime.insert key ⟨none, .empty⟩ }, some key, true)

/-- The entry of an iterator. -/
def entry (it : Iterator) : Option Entry := it.bind fun key => db.prime.lookup key

/-- A write through an iterator. -/
def modify (it : Iterator) (f : Entry → Entry) : DbSlice :=
  match it, db.entry it with
  | some key, some e => { db with prime := db.prime.insert key (f e) }
  | _, _ => db

def addExpire (it : Iterator) (atMs : UInt64) : DbSlice :=
  db.modify it fun e => { e with expire := some atMs }

def removeExpire (it : Iterator) : DbSlice := db.modify it fun e => { e with expire := none }

/-- `AddOrUpdate`, that is `AddOrUpdateInternal`: the result of `AddOrFind`, whose entry is written
    if it is new. -/
def addOrUpdate (key : Bytes) (obj : PrimeValue) (expireAtMs : UInt64) :
    DbSlice × Iterator × Bool :=
  match db.addOrFind key with
  | (db, it, false) => (db, it, false)
  | (db, it, true) =>
    let db := db.modify it fun e => { e with value := e.value.assign obj }
    (if expireAtMs ≠ 0 then db.addExpire it expireAtMs else db.removeExpire it, it, true)

/-- `Del`, that is `PerformDeletionAtomic`. -/
def del (it : Iterator) : DbSlice :=
  match it with
  | some key => { db with prime := db.prime.erase key }
  | none => db

/-! ### Lookups -/

variable {db}

theorem findReadOnly_eq (key : Bytes) :
    db.findReadOnly key = if key ∈ db.prime then some key else none := by
  unfold findReadOnly findInternal
  split <;> split at * <;> simp_all

theorem findMutable_eq (key : Bytes) :
    db.findMutable key = if key ∈ db.prime then some key else none :=
  findReadOnly_eq key

/-- A lookup leads to the entry of the key. -/
theorem entry_findReadOnly (key : Bytes) :
    db.entry (db.findReadOnly key) = db.prime.lookup key := by
  rw [findReadOnly_eq]
  split
  · rfl
  · rename_i h
    exact (Finmap.lookup_eq_none.mpr h).symm

@[simp] theorem modify_owner (it : Iterator) (f : Entry → Entry) :
    (db.modify it f).owner = db.owner := by
  unfold modify
  split <;> rfl

@[simp] theorem del_owner (it : Iterator) : (db.del it).owner = db.owner := by
  cases it <;> rfl

@[simp] theorem addOrFind_owner (key : Bytes) : (db.addOrFind key).1.owner = db.owner := by
  unfold addOrFind
  split <;> rfl

theorem lookup_modify (key : Bytes) (f : Entry → Entry) (k : Bytes) :
    (db.modify (some key) f).prime.lookup k =
      if k = key then (db.prime.lookup key).map f else db.prime.lookup k := by
  unfold modify entry
  dsimp only [Option.bind_some]
  cases he : db.prime.lookup key with
  | none =>
    by_cases hk : k = key
    · rw [if_pos hk, hk]
      exact he
    · rw [if_neg hk]
  | some e =>
    by_cases hk : k = key
    · rw [if_pos hk, hk]
      exact Finmap.lookup_insert _
    · rw [if_neg hk]
      exact Finmap.lookup_insert_of_ne _ hk

theorem lookup_del (key k : Bytes) :
    (db.del (some key)).prime.lookup k = if k = key then none else db.prime.lookup k := by
  by_cases hk : k = key
  · rw [if_pos hk, hk]
    exact Finmap.lookup_erase _ _
  · rw [if_neg hk]
    exact Finmap.lookup_erase_ne hk

/-! ### Additions -/

theorem addOrUpdate_of_mem {key : Bytes} (h : key ∈ db.prime) (obj : PrimeValue)
    (expireAtMs : UInt64) : db.addOrUpdate key obj expireAtMs = (db, some key, false) := by
  unfold addOrUpdate addOrFind findInternal
  rw [if_pos h]

/-- The expiry that an entry gets for the argument, where 0 stands for none. -/
def expiryOf (expireAtMs : UInt64) : Option UInt64 :=
  if expireAtMs = 0 then none else some expireAtMs

/-- Either call stores the expiry that the argument stands for. -/
theorem addExpire_or_removeExpire (it : Iterator) (expireAtMs : UInt64) :
    (if expireAtMs ≠ 0 then db.addExpire it expireAtMs else db.removeExpire it) =
      db.modify it fun e => { e with expire := expiryOf expireAtMs } := by
  unfold expiryOf
  by_cases he : expireAtMs = 0
  · rw [if_neg (not_not_intro he), if_pos he]
    rfl
  · rw [if_pos he, if_neg he]
    rfl

/-- A key that was not there is bound to the value, with the expiry. -/
theorem lookup_addOrUpdate {key : Bytes} (h : key ∉ db.prime) (obj : PrimeValue)
    (expireAtMs : UInt64) (k : Bytes) :
    (db.addOrUpdate key obj expireAtMs).1.prime.lookup k =
      if k = key then some ⟨expiryOf expireAtMs, PrimeValue.empty.assign obj⟩
      else db.prime.lookup k := by
  unfold addOrUpdate addOrFind findInternal
  rw [if_neg h]
  dsimp only
  rw [addExpire_or_removeExpire, lookup_modify, lookup_modify, lookup_modify]
  by_cases hk : k = key
  · simp [hk, Finmap.lookup_insert]
  · simp [hk, Finmap.lookup_insert_of_ne]

theorem keys_addOrUpdate {key : Bytes} (h : key ∉ db.prime) (obj : PrimeValue)
    (expireAtMs : UInt64) :
    (db.addOrUpdate key obj expireAtMs).1.prime.keys = insert key db.prime.keys := by
  ext k
  rw [Finmap.mem_keys, Finset.mem_insert, Finmap.mem_keys, ← Finmap.lookup_isSome,
    ← Finmap.lookup_isSome, lookup_addOrUpdate h]
  by_cases hk : k = key
  · simp [hk]
  · simp [hk]

/-- The call binds the key to the value, with the expiry, and leaves the other keys alone. -/
structure Binds (db : DbSlice) (key : Bytes) (obj : PrimeValue) (expireAtMs : UInt64) : Prop where
  lookup : (db.addOrUpdate key obj expireAtMs).1.prime.lookup key =
    some ⟨expiryOf expireAtMs, obj⟩
  others : ∀ k, k ≠ key →
    (db.addOrUpdate key obj expireAtMs).1.prime.lookup k = db.prime.lookup k
  card : (db.addOrUpdate key obj expireAtMs).1.prime.keys.card =
    if key ∈ db.prime then db.prime.keys.card else db.prime.keys.card + 1

/-- **When `AddOrUpdate` binds the key**: the key is not there, or is bound to the value with the
    expiry already. -/
theorem binds_iff (db : DbSlice) (key : Bytes) (obj : PrimeValue) (expireAtMs : UInt64)
    (hobj : obj ≠ .empty) :
    db.Binds key obj expireAtMs ↔
      key ∉ db.prime ∨ db.prime.lookup key = some ⟨expiryOf expireAtMs, obj⟩ := by
  have hassign : PrimeValue.empty.assign obj = obj := by
    cases obj with
    | empty => exact absurd rfl hobj
    | int ival => rfl
    | str s => rfl
  by_cases h : key ∈ db.prime
  · rw [or_iff_right (not_not_intro h)]
    constructor
    · intro hbinds
      rw [← hbinds.lookup, addOrUpdate_of_mem h]
    · intro hlookup
      refine ⟨?_, ?_, ?_⟩
      · rw [addOrUpdate_of_mem h, hlookup]
      · intro k _
        rw [addOrUpdate_of_mem h]
      · rw [addOrUpdate_of_mem h, if_pos h]
  · refine iff_of_true ⟨?_, ?_, ?_⟩ (Or.inl h)
    · rw [lookup_addOrUpdate h, if_pos rfl, hassign]
    · intro k hk
      rw [lookup_addOrUpdate h, if_neg hk]
    · rw [keys_addOrUpdate h, Finset.card_insert_of_notMem (mt Finmap.mem_keys.mp h), if_neg h]

theorem binds_new : DbSlice.Binds ⟨0, ∅⟩ (text "k") (.str (text "v")) 5 :=
  (binds_iff ⟨0, ∅⟩ (text "k") (.str (text "v")) 5 (by decide)).mpr (Or.inl Finmap.notMem_empty)

/-- A key that is there keeps its value and its expiry. -/
theorem not_binds_present :
    ¬ DbSlice.Binds ⟨0, Finmap.singleton (text "k") ⟨some 7, .str (text "old")⟩⟩ (text "k")
      (.str (text "new")) 0 := by
  intro h
  have hlookup := h.lookup
  rw [addOrUpdate_of_mem (Finmap.mem_singleton _ _ _ |>.mpr rfl),
    Finmap.lookup_singleton_eq] at hlookup
  revert hlookup
  decide

end DbSlice

/-! ### The slices of a namespace -/

/-- `shard_db_slices_`, by the ids of the shards. -/
abbrev Namespace := ShardId → DbSlice

/-- The slices as the constructor of a namespace makes them. -/
def Namespace.new : Namespace := fun sid => ⟨sid, ∅⟩

end StorageEngine.Sharding
