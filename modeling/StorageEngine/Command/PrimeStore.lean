/-
  StorageEngine/Command/PrimeStore.lean
  =====================================
  **The commands on the tables themselves** (`string_family.cpp`, `generic_family.cpp`,
  `db_slice.cpp` and `db_table.hpp` together).

  The command families are modelled over slices whose prime table is a finite map.  Here the
  slices hold the dash tables of `CompactObj` keys and values, with what their assignments
  leave behind in the slots, and `SET`, `GET`, `DEL` and `EXISTS` are the calls of the table
  that the source makes.  Two refinements lead back to the maps: a table of `CompactObj` is
  alike to one that holds strings and entries, and that one refines a map.
-/
import StorageEngine.Command.GenericFamily
import StorageEngine.DashTable.Parametric
import StorageEngine.DashTable.ValueWrite
import StorageEngine.Sharding.AddOrFind
import StorageEngine.Sharding.ExpireIfNeeded

namespace StorageEngine.Command

open StorageEngine.DashTable StorageEngine.Redis StorageEngine.Sharding StorageEngine.StepMachine

/-! ### The commands -/

/-- A slice over the table, with the id of the shard that owns it. -/
structure PrimeSlice where
  owner : ShardId
  prime : Prime.Slots

abbrev PrimeNamespace := ShardId → PrimeSlice

abbrev Dictionary := Finmap fun _ : Bytes => Bytes

/-- What a callback does to the slices when a shard runs it.  It has no outcome as long as an
    insertion has not returned, and none if it reads an argument that is not there. -/
abbrev PrimeCallback := Transaction → ShardId → PrimeNamespace → Option (PrimeNamespace × Result)

/-- A command, and the flags that `ParseSetParams` sets for the options of a `SET`; it never
    sets an expiry. -/
inductive Request where
  | set (key value : Bytes) (flags : UInt16)
  | get (key : Bytes)
  | del (key : Bytes) (rest : List Bytes)
  | exists (key : Bytes) (rest : List Bytes)

namespace Request

def args : Request → List Bytes
  | set key value _ => [text "SET", key, value]
  | get key => [text "GET", key]
  | del key rest => text "DEL" :: key :: rest
  | .exists key rest => text "EXISTS" :: key :: rest

def key : Request → Bytes
  | set key _ _ | get key | del key _ | .exists key _ => key

/-- The callback over slices that are maps. -/
def onMaps : Request → Callback Result
  | set key value flags => cmdSetWith { flags := flags } key value
  | get key => cmdGet key
  | del _ _ => cmdDel
  | .exists _ _ => cmdExists

end Request

section Tables

variable (shared : Bool) (hashInt : Int64 → UInt64) (hashStr : Bytes → UInt64)
  (selfMove : Bytes → Bytes) (fuel : Nat)

/-- The slices as the constructor of a namespace makes them. -/
def PrimeNamespace.new : PrimeNamespace := fun sid => ⟨sid, Prime.new shared hashInt hashStr⟩

/-- `it->second`. -/
def valueAt (t : Prime.Slots) (it : TableIter) : Prime.SlotObj :=
  ((t.seg it.segId).bucket it.bucketId).value it.slotId

namespace PrimeSet

variable (now : UInt64) (params : SetCmd.SetParams) (value : Bytes)

/-- `SetCmd::SetExisting`. -/
def setExisting (t : Prime.Slots) (it : TableIter) : Prime.Slots :=
  let atMs := if params.expireAfterMs ≠ 0 then params.expireAfterMs + now else 0
  let t :=
    if params.flags &&& SetCmd.setKeepExpire = 0 then
      Prime.modifyAt t it (Prime.updateExpire shared selfMove atMs) id
    else t
  Prime.modifyAt t it id fun second => second.setString shared value

/-- `SetCmd::AddNew`. -/
def addNew (t : Prime.Slots) (it : TableIter) : Prime.Slots :=
  let t := Prime.modifyAt t it id fun second => second.assign shared (.ofString value)
  if params.expireAfterMs ≠ 0 then
    Prime.modifyAt t it (fun first => first.setExpireTime shared selfMove
      (params.expireAfterMs + now)) id
  else t

/-- `SetCmd::Set`. -/
def set (key : Bytes) (t : Prime.Slots) : Option (Prime.Slots × OpResult Unit) :=
  (Prime.addOrFind shared hashInt hashStr fuel t key).map fun
    | (t, it, false) => (setExisting shared selfMove now params value t it, .ok ())
    | (t, it, true) => (addNew shared selfMove now params value t it, .ok ())

end PrimeSet

/-- The callback of `CmdSet`. -/
def primeSet (params : SetCmd.SetParams) (key value : Bytes) : PrimeCallback := fun tx es ns =>
  (PrimeSet.set shared hashInt hashStr selfMove fuel tx.timeNowMs params value key
    (ns es).prime).map
    fun (t, r) => (Function.update ns es ⟨(ns es).owner, t⟩, .status r)

/-- The callback of `CmdGet`. -/
def primeGet (key : Bytes) : PrimeCallback := fun _ es ns =>
  some (ns, match Prime.findInternal shared hashInt hashStr (ns es).prime key with
    | none => .string (.error .keyNotFound)
    | some it => match (valueAt (ns es).prime it).obj.toString with
      | some s => .string (.ok s)
      | none => .fatal)

/-- The body of `OpDel`'s loop. -/
def primeDelKey (acc : Prime.Slots × UInt32) (key : Bytes) : Prime.Slots × UInt32 :=
  match Prime.findInternal shared hashInt hashStr acc.1 key with
  | none => acc
  | some it => (acc.1.eraseIt (Prime.policy shared hashInt hashStr) it, acc.2 + 1)

/-- The callback of `CmdDel`. -/
def primeDel : PrimeCallback := fun tx es ns =>
  (tx.getShardArgs es).read.map fun keys =>
    let (t, res) := keys.foldl (primeDelKey shared hashInt hashStr) ((ns es).prime, 0)
    (Function.update ns es ⟨(ns es).owner, t⟩, .count res)

/-- The callback of `CmdExists`. -/
def primeExists : PrimeCallback := fun tx es ns =>
  (tx.getShardArgs es).read.map fun keys =>
    (ns, .count (keys.foldl (fun res key => res +
      if (Prime.findInternal shared hashInt hashStr (ns es).prime key).isSome then 1 else 0) 0))

/-- What a handler comes to: its end; an access that is undefined, or the end of the process; more
    rounds of a loop; or its `co_await`, with a callback. -/
inductive Await where
  | returns
  | crashes
  | running
  | callback (cb : PrimeCallback)

/-- The handlers up to their `co_await`.  `CmdExpire` and `CmdTtl` have no context to schedule a
    callback with. -/
def Handler.awaits (args : List Bytes) : Handler → Await
  | .set =>
    match args with
    | [] => .crashes
    | _ :: rest =>
      let ((key, value), parser) := CmdArgParser.nextTwo { args := rest }
      match WhileLoop.run parseSetParamsRound fuel (parser, {}) with
      | none => .running
      | some (.params p) =>
        .callback (primeSet shared hashInt hashStr selfMove fuel p key value)
      | some _ => .crashes
  | .get =>
    match args[1]? with
    | none => .crashes
    | some key => .callback (primeGet shared hashInt hashStr key)
  | .delex => .callback (primeDel shared hashInt hashStr)
  | .exists => .callback (primeExists shared hashInt hashStr)
  | .expire | .ttl => .crashes
  | .ping | .clientInfo | .shutDown => .returns

/-- The callback over slices that are tables. -/
def Request.onTables : Request → PrimeCallback
  | .set key value flags => primeSet shared hashInt hashStr selfMove fuel
    { flags := flags } key value
  | .get key => primeGet shared hashInt hashStr key
  | .del _ _ => primeDel shared hashInt hashStr
  | .exists _ _ => primeExists shared hashInt hashStr

variable (size : UInt32) (hash : Bytes → UInt64)

/-- A callback of a command at a time, as `runCommand` runs it.  What it does is undefined if it
    accesses a string that is not alive. -/
def runCallback (now : UInt64) (args : List Bytes) (cb : PrimeCallback) (ns : PrimeNamespace) :
    Option (PrimeNamespace × Result) :=
  let tx := Transaction.initByArgs size hash now args
  let es := (ns tx.uniqueShardId).owner
  (cb tx es ns).bind fun out => if Prime.Sound (out.1 es).prime then some out else none

def runPrime (ns : PrimeNamespace) (r : UInt64 × Request) : Option (PrimeNamespace × Result) :=
  runCallback size hash r.1 r.2.args (r.2.onTables shared hashInt hashStr selfMove fuel) ns

/-- The same with the results so far. -/
def stepPrime (s : PrimeNamespace × List Result) (r : UInt64 × Request) :
    Option (PrimeNamespace × List Result) :=
  (runPrime shared hashInt hashStr selfMove fuel size hash s.1 r).map fun (ns, x) =>
    (ns, s.2 ++ [x])

/-- What the commands are for: one dictionary, whatever the number of shards.  A command looks at
    its first key only. -/
def Request.onDictionary : Request → Dictionary → Dictionary × Result
  | .set key value _, d => (d.insert key value, .status (.ok ()))
  | .get key, d => (d, match d.lookup key with
    | none => .string (.error .keyNotFound)
    | some s => .string (.ok s))
  | .del key _, d => (d.erase key, .count (if key ∈ d then 1 else 0))
  | .exists key _, d => (d, .count (if key ∈ d then 1 else 0))

def stepDictionary (s : Dictionary × List Result) (r : Request) :
    Option (Dictionary × List Result) :=
  let (d, x) := r.onDictionary s.1
  some (d, s.2 ++ [x])

/-- The key, if it is new, finds its place without the loss of an entry: no split of its insertion
    drops one, and the directory stays within depth 31. -/
def FindsPlace (t : Prime.Slots) (key : Bytes) : Prop :=
  Prime.findInternal shared hashInt hashStr t key = none →
    ∀ out ∈ t.insertInternal (Prime.policy shared hashInt hashStr) fuel (.ofString key) .fresh
      .forceInsert, out.dropped = [] ∧ out.table.globalDepth ≤ 31

/-- The key of a `SET` finds its place. -/
def Request.Placeable (ns : PrimeNamespace) : Request → Prop
  | .set key _ _ =>
    FindsPlace shared hashInt hashStr fuel (ns (shard size (hash key))).prime key
  | _ => True

instance (t : Prime.Slots) (key : Bytes) :
    Decidable (FindsPlace shared hashInt hashStr fuel t key) :=
  inferInstanceAs (Decidable (_ = none → ∀ out ∈ _, _ ∧ _))

instance (ns : PrimeNamespace) :
    ∀ r, Decidable (Request.Placeable shared hashInt hashStr fuel size hash ns r)
  | .set key _ _ => inferInstanceAs (Decidable
      (FindsPlace shared hashInt hashStr fuel (ns (shard size (hash key))).prime key))
  | .get _ | .del _ _ | .exists _ _ => inferInstanceAs (Decidable True)

end Tables

/-! ### The contents -/

/-- The key of a slot is the string. -/
def SpellsKey (k : Bytes) (o : Prime.SlotObj) : Prop := o.obj = .ofString k

/-- The value of a slot is the string of the entry.  An entry that was not yet given a string
    stands for any content. -/
def SpellsValue (e : Entry) (o : Prime.SlotObj) : Prop :=
  e.value = .empty ∨ ∃ s, e.value = .str s ∧ o.obj = .ofString s

theorem relates_prime (shared : Bool) (hashInt : Int64 → UInt64) (hashStr : Bytes → UInt64) :
    (primeTablePolicy hashStr).Relates (Prime.policy shared hashInt hashStr) SpellsKey
      SpellsValue where
  kSlotNum := rfl
  kBucketNum := rfl
  hashFn := by
    rintro k ⟨_, _⟩ rfl
    rfl
  equal := by
    rintro a ⟨_, _⟩ b ⟨_, _⟩ rfl rfl
    show ((CompactObj.ofString a).equalsView b == some true) = (a == b)
    show (some (a == b) == some true) = (a == b)
    cases a == b <;> rfl
  assignKey := by
    rintro d d' k ⟨_, _⟩ rfl
    rfl
  movedKey h := h
  assignValue := by
    rintro d d' e ⟨_, _⟩ (hempty | ⟨s, hs, rfl⟩)
    · exact Or.inl hempty
    · exact Or.inr ⟨s, hs, rfl⟩
  movedValue h := h

/-- Every key is bound to a string, without an expiry. -/
def Plain (m : PrimeTable) : Prop := ∀ k e, m.lookup k = some e → ∃ s, e = ⟨none, .str s⟩

theorem Plain.insert {m : PrimeTable} (h : Plain m) (key value : Bytes) :
    Plain (m.insert key ⟨none, .str value⟩) := by
  intro k e he
  by_cases hk : k = key
  · rw [hk, Finmap.lookup_insert] at he
    exact ⟨value, (Option.some.inj he).symm⟩
  · rw [Finmap.lookup_insert_of_ne _ hk] at he
    exact h k e he

theorem Plain.erase {m : PrimeTable} (h : Plain m) (key : Bytes) : Plain (m.erase key) := by
  intro k e he
  by_cases hk : k = key
  · rw [hk, Finmap.lookup_erase] at he
    cases he
  · rw [Finmap.lookup_erase_ne hk] at he
    exact h k e he

section Stands

variable (hashStr : Bytes → UInt64)

/-- The table is alike to one that refines the map, and all accesses to its strings were to strings
    that are alive. -/
structure Stands (t' : Prime.Slots) (m : PrimeTable) : Prop where
  plain : Plain m
  sound : Prime.Sound t'
  exists_alike : ∃ t : Table Bytes Entry,
    t.Alike (primeTablePolicy hashStr) SpellsKey SpellsValue t' ∧
      t.Refines (primeTablePolicy hashStr) m

variable {shared : Bool} {hashInt : Int64 → UInt64} {hashStr} {t' : Prime.Slots} {m : PrimeTable}

theorem stands_new : Stands hashStr (Prime.new shared hashInt hashStr) ∅ := by
  refine ⟨?_, Prime.clean_new.sound, _, Table.alike_new (relates_prime shared hashInt hashStr) _,
    ?_⟩
  · intro k e he
    rw [Finmap.lookup_empty] at he
    cases he
  · exact (Table.MapRun.new Prime.kInitSegmentLog (by decide)).refines

theorem Stands.size_eq (h : Stands hashStr t' m) : t'.size = m.keys.card := by
  obtain ⟨t, halike, href⟩ := h.exists_alike
  rw [halike.size, href.size_eq]

variable (shared hashInt) in
/-- `Find` leads to the slot of the key, if there is one. -/
theorem Stands.find (h : Stands hashStr t' m) (key : Bytes) :
    (Prime.findInternal shared hashInt hashStr t' key = none ∧ key ∉ m) ∨
      ∃ it s, Prime.findInternal shared hashInt hashStr t' key = some it ∧
        m.lookup key = some ⟨none, .str s⟩ ∧
        ∃ t : Table Bytes Entry, t.Alike (primeTablePolicy hashStr) SpellsKey SpellsValue t' ∧
          t.Refines (primeTablePolicy hashStr) m ∧ t.find (primeTablePolicy hashStr) key = some it ∧
          t.Designates (primeTablePolicy hashStr) it key ⟨none, .str s⟩ := by
  obtain ⟨t, halike, href⟩ := h.exists_alike
  have heq :
      Prime.findInternal shared hashInt hashStr t' key = t.find (primeTablePolicy hashStr) key :=
    halike.find (relates_prime shared hashInt hashStr) rfl
  have hspec := href.find_spec key
  rw [heq]
  cases hfind : t.find (primeTablePolicy hashStr) key with
  | none =>
    rw [hfind] at hspec
    exact Or.inl ⟨rfl, Finmap.lookup_eq_none.mp hspec⟩
  | some it =>
    rw [hfind] at hspec
    obtain ⟨e, hlookup, hdes⟩ := hspec
    obtain ⟨s, rfl⟩ := h.plain key e hlookup
    exact Or.inr ⟨it, s, rfl, hlookup, t, halike, href, hfind, hdes⟩

/-- Where the map has an entry, the slot holds its strings, which are alive. -/
structure HoldsString (t' : Prime.Slots) (it : TableIter) (key s : Bytes) : Prop where
  slotId_lt : it.slotId < 14
  key : (((t'.seg it.segId).bucket it.bucketId).key it.slotId).obj = .ofString key
  value : (valueAt t' it).obj = .ofString s
  keySound : (((t'.seg it.segId).bucket it.bucketId).key it.slotId).faulty = false
  valueSound : (valueAt t' it).faulty = false

theorem Stands.holdsString (h : Stands hashStr t' m) {t : Table Bytes Entry}
    (halike : t.Alike (primeTablePolicy hashStr) SpellsKey SpellsValue t')
    (href : t.Refines (primeTablePolicy hashStr) m) {it : TableIter} {key s : Bytes}
    (hdes : t.Designates (primeTablePolicy hashStr) it key ⟨none, .str s⟩) :
    HoldsString t' it key s := by
  obtain ⟨hseg, hbucket, hslot, hbusy, hkey, hvalue⟩ := hdes
  have hcontent := (halike.seg it.segId).bucket it.bucketId
  have hspells := hcontent.value it.slotId hbusy
  have hspellsKey := hcontent.key it.slotId hbusy
  rw [hkey] at hspellsKey
  rw [hvalue] at hspells
  have hptr : t'.segment it.segId < t'.nextPtr := by
    rw [halike.segment, halike.nextPtr]
    exact href.allocated _ (href.segmentSize ▸ hseg)
  obtain ⟨hkeySound, hvalueSound⟩ := h.sound _ hptr _ hbucket _ hslot
  rcases hspells with hempty | ⟨s', hs', ho⟩
  · cases hempty
  · cases hs'
    exact ⟨hslot, hspellsKey, ho, hkeySound, hvalueSound⟩

/-- Two writes through one iterator. -/
theorem modifyAt_modifyAt (t' : Prime.Slots) (it : TableIter)
    (first second : Prime.SlotObj → Prime.SlotObj) :
    Prime.modifyAt (Prime.modifyAt t' it first id) it id second =
      Prime.modifyAt t' it first second := by
  simp [Prime.modifyAt, Table.setSeg, Table.seg, Segment.setBucket]

/-- A write of the string, which leaves the key as it reads. -/
theorem alike_modifyAt {t : Table Bytes Entry}
    (halike : t.Alike (primeTablePolicy hashStr) SpellsKey SpellsValue t') (it : TableIter)
    {first second : Prime.SlotObj → Prime.SlotObj} {s : Bytes}
    (hfirst : ∀ k o, SpellsKey k o → SpellsKey k (first o))
    (hsecond : ∀ o, (second o).obj = .ofString s) :
    (t.writeValue it ⟨none, .str s⟩).Alike (primeTablePolicy hashStr) SpellsKey SpellsValue
      (Prime.modifyAt t' it first second) := by
  have hbucket := (halike.seg it.segId).bucket it.bucketId
  have hcontent : ((t.seg it.segId).bucket it.bucketId).isBusy it.slotId = true →
      SpellsKey (((t.seg it.segId).bucket it.bucketId).key it.slotId)
          (first (((t'.seg it.segId).bucket it.bucketId).key it.slotId)) ∧
        SpellsValue ⟨none, .str s⟩
          (second (((t'.seg it.segId).bucket it.bucketId).value it.slotId)) := fun hbusy =>
    ⟨hfirst _ _ (hbucket.key it.slotId hbusy), Or.inr ⟨s, rfl, hsecond _⟩⟩
  have hwrite := hbucket.write hcontent
  rw [Function.update_eq_self] at hwrite
  exact halike.setSeg ((halike.seg it.segId).setBucket hwrite it.bucketId) it.segId

/-- A key without an expiry has none to remove. -/
theorem updateExpire_zero (selfMove : Bytes → Bytes) {k : Bytes} {o : Prime.SlotObj}
    (h : SpellsKey k o) : Prime.updateExpire shared selfMove 0 o = o := by
  have hnone : o.obj.hasExpire = false := by
    rw [show o.obj = .ofString k from h]
    rfl
  unfold Prime.updateExpire
  rw [if_neg (by simp), hnone]
  rfl

/-- What `SetExisting` does when no option of the `SET` names an expiry. -/
theorem setExisting_plain {selfMove : Bytes → Bytes} {now : UInt64} {flags : UInt16} {value : Bytes}
    {it : TableIter} : ∃ first : Prime.SlotObj → Prime.SlotObj,
      PrimeSet.setExisting shared selfMove now { flags := flags } value t' it =
        Prime.modifyAt t' it first (fun second => second.setString shared value) ∧
      ∀ k o, SpellsKey k o → first o = o := by
  unfold PrimeSet.setExisting
  dsimp only
  split
  · rw [modifyAt_modifyAt]
    exact ⟨_, rfl, fun k o h => updateExpire_zero selfMove h⟩
  · exact ⟨id, rfl, fun _ _ _ => rfl⟩

/-- A key that is absent finds its place, with an empty value to be written. -/
theorem Stands.insertNew (h : Stands hashStr t' m) {fuel : Nat} {key : Bytes} (hnew : key ∉ m)
    {out' : Table.InsertOut Prime.SlotObj Prime.SlotObj}
    (hout' : t'.insertInternal (Prime.policy shared hashInt hashStr) fuel
      (.ofString key) .fresh .forceInsert =
      some out')
    (hplace : out'.dropped = [] ∧ out'.table.globalDepth ≤ 31) :
    ∃ t : Table Bytes Entry,
      t.Alike (primeTablePolicy hashStr) SpellsKey SpellsValue out'.table ∧
        t.Refines (primeTablePolicy hashStr) (m.insert key ⟨none, .empty⟩) ∧
        t.Designates (primeTablePolicy hashStr) out'.it key ⟨none, .empty⟩ := by
  obtain ⟨t, halike, href⟩ := h.exists_alike
  have hkey : SpellsKey key (.ofString key) := rfl
  have hvalue : SpellsValue ⟨none, .empty⟩ .fresh := Or.inl rfl
  have hrel :=
    halike.insertInternal (relates_prime shared hashInt hashStr) hkey hvalue .forceInsert fuel
  rw [hout'] at hrel
  obtain ⟨out, hinsert, halike', hit, -, hlength⟩ :
      ∃ out, t.insertInternal (primeTablePolicy hashStr) fuel key ⟨none, .empty⟩ .forceInsert =
        some out ∧
        out.Alike (primeTablePolicy hashStr) SpellsKey SpellsValue out' := by
    generalize t.insertInternal (primeTablePolicy hashStr) fuel key ⟨none, .empty⟩ .forceInsert =
      o at hrel
    cases hrel with
    | some hout => exact ⟨_, rfl, hout⟩
  obtain ⟨hdropped, hdepth⟩ := hplace
  rw [hdropped, List.length_nil] at hlength
  rw [halike'.globalDepth] at hdepth
  have hinserts : t.Inserts (primeTablePolicy hashStr) key ⟨none, .empty⟩ .forceInsert out :=
    ⟨⟨fuel, hinsert⟩, List.length_eq_zero_iff.mp hlength.symm, hdepth⟩
  obtain ⟨href', -, hdes, -⟩ := href.insert_spec hinserts fun _ => hnew
  rw [if_neg hnew] at href'
  rw [Finmap.lookup_eq_none.mpr hnew, ← hit] at hdes
  exact ⟨out.table, halike', href', hdes⟩

/-- **A `SET`** binds its key to the string, whether the key is there or not. -/
theorem Stands.set (h : Stands hashStr t' m) {selfMove : Bytes → Bytes} {fuel : Nat} {now : UInt64}
    {flags : UInt16} {value key : Bytes} {out : Prime.Slots × OpResult Unit}
    (hset : PrimeSet.set shared hashInt hashStr selfMove fuel now { flags := flags } value key t' =
      some out) (hsound : Prime.Sound out.1)
        (hplace : FindsPlace shared hashInt hashStr fuel t' key) :
    out.2 = .ok () ∧ Stands hashStr out.1 (m.insert key ⟨none, .str value⟩) := by
  have hplain := h.plain.insert key value
  unfold PrimeSet.set Prime.addOrFind at hset
  rcases h.find shared hashInt key with
    ⟨hnone, hnew⟩ | ⟨it, s, hsome, -, t, halike, href, -, hdes⟩
  · rw [hnone] at hset
    obtain ⟨_, hadd, rfl⟩ := Option.map_eq_some_iff.mp hset
    obtain ⟨out', hout', rfl⟩ := Option.map_eq_some_iff.mp hadd
    obtain ⟨t, halike, href, hdes⟩ := h.insertNew hnew hout' (hplace hnone out' hout')
    have hwrite := href.writeValue hdes ⟨none, .str value⟩
    rw [Finmap.insert_insert] at hwrite
    have halike' := @alike_modifyAt _ _ _ halike out'.it id
      (fun second => second.assign shared (.ofString value)) value (fun _ _ h => h) fun _ => rfl
    exact ⟨rfl, hplain, hsound, _, halike', hwrite⟩
  · rw [hsome] at hset
    obtain rfl := Option.some.inj hset
    obtain ⟨first, heq, hfirst⟩ := @setExisting_plain shared t' selfMove now flags value it
    refine ⟨rfl, hplain, hsound, t.writeValue it ⟨none, .str value⟩, ?_, href.writeValue hdes _⟩
    dsimp only
    rw [heq]
    exact alike_modifyAt halike it (fun k o h => (hfirst k o h).symm ▸ h) fun _ => rfl

/-- **A `SET` of a key that is there** assigns to a string that is alive. -/
theorem Stands.set_existing (h : Stands hashStr t' m) (selfMove : Bytes → Bytes) (fuel : Nat)
    (now : UInt64) (flags : UInt16) (value : Bytes) {key : Bytes} (hmem : key ∈ m) :
    ∃ out, PrimeSet.set shared hashInt hashStr selfMove fuel now { flags := flags } value key t' =
      some out ∧ Prime.Sound out.1 := by
  unfold PrimeSet.set Prime.addOrFind
  rcases h.find shared hashInt key with
    ⟨-, hnew⟩ | ⟨it, s, hsome, -, t, halike, href, -, hdes⟩
  · exact absurd hmem hnew
  · have hholds := h.holdsString halike href hdes
    rw [hsome]
    refine ⟨_, rfl, ?_⟩
    obtain ⟨first, heq, hfirst⟩ := @setExisting_plain shared t' selfMove now flags value it
    show Prime.Sound (PrimeSet.setExisting _ _ _ _ _ _ _)
    rw [heq]
    apply h.sound.modifyAt
    · rw [hfirst key _ hholds.key]
      exact hholds.keySound
    · show ((valueAt t' it).faulty || !(valueAt t' it).obj.u.holdsStr shared) = false
      rw [hholds.valueSound, hholds.value]
      rfl

theorem readable_of_str {o : CompactObj} {s : Bytes} (h : o = .ofString s) : o.Readable := by
  rw [h]
  exact Or.inr rfl

variable (shared hashInt) in
/-- **A `DEL`** removes its key, and counts it if it was there; it destroys strings that are
    alive. -/
theorem Stands.delKey (h : Stands hashStr t' m) (key : Bytes) :
    Stands hashStr (primeDelKey shared hashInt hashStr (t', 0) key).1 (m.erase key) ∧
      (primeDelKey shared hashInt hashStr (t', 0) key).2 = if key ∈ m then 1 else 0 := by
  unfold primeDelKey
  dsimp only
  rcases h.find shared hashInt key with
    ⟨hnone, hnew⟩ | ⟨it, s, hsome, hlookup, t, halike, href, hfind, hdes⟩
  · rw [hnone, if_neg hnew, FiniteMap.erase_of_notMem hnew]
    exact ⟨h, rfl⟩
  · have hholds := h.holdsString halike href hdes
    obtain ⟨-, -, hslot, hbusy, -⟩ := hdes
    have hkey := @Prime.SlotObj.faulty_reset shared _ (readable_of_str hholds.key) hholds.keySound
    have hvalue :=
      @Prime.SlotObj.faulty_reset shared _ (readable_of_str hholds.value) hholds.valueSound
    rw [hsome, if_pos (Finmap.mem_of_lookup_eq_some hlookup)]
    exact ⟨⟨h.plain.erase key, h.sound.eraseIt hslot hkey hvalue, _,
      halike.eraseIt (relates_prime shared hashInt hashStr) hslot hbusy, href.eraseIt_spec hfind⟩,
      rfl⟩

end Stands

/-! ### The slices -/

theorem modify_of_lookup {db : DbSlice} {key : Bytes} {e : Sharding.Entry}
    (he : db.prime.lookup key = some e) (f : Sharding.Entry → Sharding.Entry) :
    db.modify (some key) f = ⟨db.owner, db.prime.insert key (f e)⟩ := by
  have hentry : db.entry (some key) = some e := he
  unfold DbSlice.modify
  rw [hentry]

/-- A `SET` over maps, when no key has an expiry. -/
theorem set_plain {db : DbSlice} (h : Plain db.prime) (now : UInt64) (flags : UInt16)
    (value key : Bytes) :
    SetCmd.set now { flags := flags } value key db =
      (⟨db.owner, db.prime.insert key ⟨none, .str value⟩⟩, .ok ()) := by
  unfold SetCmd.set DbSlice.addOrFind DbSlice.findInternal
  by_cases hmem : key ∈ db.prime
  · obtain ⟨e, he⟩ := Finmap.mem_iff.mp hmem
    obtain ⟨s, rfl⟩ := h key e he
    have hremoved : (⟨db.owner, db.prime.insert key ⟨none, .str s⟩⟩ : DbSlice).prime.lookup key =
        some ⟨none, .str s⟩ := Finmap.lookup_insert _
    rw [if_pos hmem]
    dsimp only [SetCmd.setExisting]
    refine Prod.ext ?_ rfl
    split
    · rw [if_neg (by simp), DbSlice.removeExpire, modify_of_lookup he, modify_of_lookup hremoved,
        Finmap.insert_insert]
      rfl
    · rw [modify_of_lookup he]
      rfl
  · have hadded : (⟨db.owner, db.prime.insert key ⟨none, .empty⟩⟩ : DbSlice).prime.lookup key =
        some ⟨none, .empty⟩ := Finmap.lookup_insert _
    rw [if_neg hmem]
    dsimp only [SetCmd.addNew]
    rw [if_neg (by decide), modify_of_lookup hadded, Finmap.insert_insert]
    rfl

/-- A shard gets the key of the command. -/
theorem keys_args {tx : Transaction} {r : Request} (hargs : tx.fullArgs = r.args) (sid : ShardId) :
    (tx.getShardArgs sid).keys = [r.key] := by
  rw [tx.keys_getShardArgs, hargs]
  cases r <;> rfl

theorem read_args {tx : Transaction} {r : Request} (hargs : tx.fullArgs = r.args) (sid : ShardId) :
    (tx.getShardArgs sid).read = some [r.key] := by
  rw [tx.read_getShardArgs, hargs]
  cases r <;> rfl

/-- A transaction belongs to the shard of the key. -/
theorem uniqueShardId_args (size : UInt32) (hash : Bytes → UInt64) (now : UInt64) (r : Request) :
    (Transaction.initByArgs size hash now r.args).uniqueShardId = shard size (hash r.key) := by
  cases r <;> rfl

section Slices

variable (hashStr : Bytes → UInt64)

/-- Every slice belongs to its shard, and its table stands for the map of the slice. -/
structure Stored (ns' : PrimeNamespace) (ns : Namespace) : Prop where
  owner : ∀ sid, (ns' sid).owner = sid
  owned : ∀ sid, (ns sid).owner = sid
  stands : ∀ sid, Stands hashStr (ns' sid).prime (ns sid).prime

variable {shared : Bool} {hashInt : Int64 → UInt64} {hashStr} {ns' : PrimeNamespace}
    {ns : Namespace}

theorem stored_new : Stored hashStr (PrimeNamespace.new shared hashInt hashStr) Namespace.new :=
  ⟨fun _ => rfl, fun _ => rfl, fun _ => stands_new⟩

theorem Stored.update (h : Stored hashStr ns' ns) (sid : ShardId) {t : Prime.Slots} {db : DbSlice}
    (howned : db.owner = sid) (hstands : Stands hashStr t db.prime) :
    Stored hashStr (Function.update ns' sid ⟨(ns' sid).owner, t⟩) (Function.update ns sid db) := by
  refine ⟨fun sid' => ?_, fun sid' => ?_, fun sid' => ?_⟩
  all_goals
    by_cases hsid : sid' = sid
    · subst hsid
      simp only [Function.update_self]
      first
        | exact h.owner sid'
        | exact howned
        | exact hstands
    · simp only [Function.update_of_ne hsid]
      first
        | exact h.owner sid'
        | exact h.owned sid'
        | exact h.stands sid'

theorem Stored.updateSelf (h : Stored hashStr ns' ns) (sid : ShardId) {t : Prime.Slots}
    (hstands : Stands hashStr t (ns sid).prime) :
    Stored hashStr (Function.update ns' sid ⟨(ns' sid).owner, t⟩) ns := by
  have hupdate := h.update sid (h.owned sid) hstands
  rwa [Function.update_eq_self] at hupdate

/-- A key that was looked up is in the map, or not. -/
theorem Stands.isSome_find {t' : Prime.Slots} {m : PrimeTable} (h : Stands hashStr t' m)
    (key : Bytes) :
    (Prime.findInternal shared hashInt hashStr t' key).isSome = decide (key ∈ m) := by
  rcases h.find shared hashInt key with ⟨hnone, hnew⟩ | ⟨it, s, hsome, hlookup, -⟩
  · rw [hnone, decide_eq_false hnew, Option.isSome_none]
  · rw [hsome, decide_eq_true (Finmap.mem_of_lookup_eq_some hlookup), Option.isSome_some]

variable {selfMove : Bytes → Bytes} {fuel : Nat}

/-- **A callback over tables** does to the slices what it does over maps, with the same result. -/
theorem Stored.callback (h : Stored hashStr ns' ns) {r : Request} {tx : Transaction} (sid : ShardId)
    (hargs : tx.fullArgs = r.args) {out : PrimeNamespace × Result}
    (hplace : ∀ key value flags, r = .set key value flags →
      FindsPlace shared hashInt hashStr fuel (ns' sid).prime key)
    (hsound : Prime.Sound (out.1 sid).prime)
    (hrun : r.onTables shared hashInt hashStr selfMove fuel tx sid ns' = some out) :
    Stored hashStr out.1 (r.onMaps tx sid ns).1 ∧ out.2 = (r.onMaps tx sid ns).2 := by
  have hstands := h.stands sid
  have hkeys := keys_args hargs sid
  have hread := read_args hargs sid
  cases r with
  | set key value flags =>
    obtain ⟨p, hset, rfl⟩ := Option.map_eq_some_iff.mp hrun
    dsimp only at hsound
    rw [Function.update_self] at hsound
    obtain ⟨hstatus, hstands'⟩ := hstands.set hset hsound (hplace key value flags rfl)
    dsimp only [Request.onMaps, cmdSetWith]
    rw [set_plain hstands.plain]
    exact ⟨h.update sid (h.owned sid) hstands', congrArg Result.status hstatus⟩
  | get key =>
    obtain rfl := Option.some.inj hrun
    dsimp only [Request.onMaps, cmdGet]
    rw [DbSlice.entry_findReadOnly]
    rcases hstands.find shared hashInt key with
      ⟨hnone, hnew⟩ | ⟨it, s, hsome, hlookup, t, halike, href, -, hdes⟩
    · rw [hnone, Finmap.lookup_eq_none.mpr hnew]
      exact ⟨h, rfl⟩
    · rw [hsome, hlookup]
      dsimp only
      rw [(hstands.holdsString halike href hdes).value]
      exact ⟨h, rfl⟩
  | del key rest =>
    dsimp only [Request.onTables, primeDel] at hrun
    rw [hread] at hrun
    obtain rfl := Option.some.inj hrun
    dsimp only [Request.onMaps, Request.key, cmdDel] at hkeys ⊢
    rw [opDel_single _ hkeys, List.foldl_cons, List.foldl_nil]
    obtain ⟨hstands', hcount⟩ := hstands.delKey shared hashInt key
    by_cases hmem : key ∈ (ns sid).prime
    · rw [if_pos hmem] at hcount ⊢
      have howned : ((ns sid).del (some key)).owner = sid :=
        (DbSlice.del_owner _).trans (h.owned sid)
      exact ⟨h.update sid howned hstands', congrArg Result.count hcount⟩
    · rw [if_neg hmem] at hcount ⊢
      rw [FiniteMap.erase_of_notMem hmem] at hstands'
      dsimp only
      rw [Function.update_eq_self]
      exact ⟨h.updateSelf sid hstands', congrArg Result.count hcount⟩
  | «exists» key rest =>
    dsimp only [Request.onTables, primeExists] at hrun
    rw [hread] at hrun
    obtain rfl := Option.some.inj hrun
    dsimp only [Request.onMaps, Request.key, cmdExists] at hkeys ⊢
    rw [opExists_single _ hkeys, List.foldl_cons, List.foldl_nil, hstands.isSome_find]
    refine ⟨h, ?_⟩
    by_cases hmem : key ∈ (ns sid).prime
    · simp [hmem]
    · simp [hmem]

theorem Stored.runPrime (h : Stored hashStr ns' ns) {size : UInt32} {hash : Bytes → UInt64}
    {r : UInt64 × Request} {out : PrimeNamespace × Result}
    (hplace : r.2.Placeable shared hashInt hashStr fuel size hash ns')
    (hrun : runPrime shared hashInt hashStr selfMove fuel size hash ns' r = some out) :
    Stored hashStr out.1 (runCommand size hash r.1 r.2.onMaps r.2.args ns).1 ∧
      out.2 = (runCommand size hash r.1 r.2.onMaps r.2.args ns).2 := by
  unfold Command.runPrime runCallback at hrun
  unfold runCommand Transaction.runTask
  dsimp only at hrun
  rw [uniqueShardId_args, h.owner] at hrun
  rw [uniqueShardId_args, h.owned]
  obtain ⟨o, ho, hchecked⟩ := Option.bind_eq_some_iff.mp hrun
  split at hchecked
  · rename_i hsound
    obtain rfl := Option.some.inj hchecked
    refine h.callback _ rfl ?_ hsound ho
    intro key value flags hr
    rw [hr] at hplace ⊢
    exact hplace
  · cases hchecked

/-- **Only a `SET` of a new key may be undefined**, or not return. -/
theorem Stored.callback_sound (h : Stored hashStr ns' ns) {r : Request} {tx : Transaction}
    (sid : ShardId) (hargs : tx.fullArgs = r.args) (selfMove : Bytes → Bytes) (fuel : Nat)
    (hold : ∀ key value flags, r = .set key value flags → key ∈ (ns sid).prime) :
    ∃ out, r.onTables shared hashInt hashStr selfMove fuel tx sid ns' = some out ∧
      Prime.Sound (out.1 sid).prime := by
  have hstands := h.stands sid
  have hread := read_args hargs sid
  cases r with
  | set key value flags =>
    obtain ⟨out, hset, hsound⟩ := @Stands.set_existing _ shared hashInt _ _ hstands selfMove fuel
      tx.timeNowMs flags value key (hold key value flags rfl)
    dsimp only [Request.onTables, primeSet]
    rw [hset, Option.map_some]
    refine ⟨_, rfl, ?_⟩
    dsimp only
    rw [Function.update_self]
    exact hsound
  | get key => exact ⟨_, rfl, hstands.sound⟩
  | del key rest =>
    dsimp only [Request.onTables, primeDel]
    rw [hread, Option.map_some]
    refine ⟨_, rfl, ?_⟩
    dsimp only [Request.key]
    rw [List.foldl_cons, List.foldl_nil, Function.update_self]
    exact (hstands.delKey shared hashInt key).1.sound
  | «exists» key rest =>
    dsimp only [Request.onTables, primeExists]
    rw [hread, Option.map_some]
    exact ⟨_, rfl, hstands.sound⟩

theorem Stored.runPrime_isSome (h : Stored hashStr ns' ns) (selfMove : Bytes → Bytes) (fuel : Nat)
    {size : UInt32} {hash : Bytes → UInt64} {r : UInt64 × Request}
    (hold : ∀ key value flags, r.2 = .set key value flags →
      key ∈ (ns (shard size (hash r.2.key))).prime) :
    (Command.runPrime shared hashInt hashStr selfMove fuel size hash ns' r).isSome = true := by
  obtain ⟨out, hout, hsound⟩ := @Stored.callback_sound _ shared hashInt _ _ h r.2
    (Transaction.initByArgs size hash r.1 r.2.args) _ rfl selfMove fuel hold
  unfold Command.runPrime runCallback
  dsimp only
  rw [uniqueShardId_args, h.owner, hout, Option.bind_some, if_pos hsound]
  rfl

end Slices

/-! ### The dictionary -/

section Dictionary

variable {size : UInt32} {hash : Bytes → UInt64}

variable (size hash) in
/-- The slice of a shard holds what the dictionary has for the keys of the shard. -/
structure Divides (ns : Namespace) (d : Dictionary) : Prop where
  owned : ∀ sid, (ns sid).owner = sid
  lookup : ∀ sid k, (ns sid).prime.lookup k =
    if sid = shard size (hash k) then (d.lookup k).map fun s => ⟨none, .str s⟩ else none

variable {ns : Namespace} {d : Dictionary}

theorem divides_new : Divides size hash Namespace.new ∅ := by
  refine ⟨fun _ => rfl, fun sid k => ?_⟩
  show Finmap.lookup k ∅ = _
  simp

theorem Divides.lookup_self (h : Divides size hash ns d) (k : Bytes) :
    (ns (shard size (hash k))).prime.lookup k = (d.lookup k).map fun s => ⟨none, .str s⟩ := by
  rw [h.lookup, if_pos rfl]

theorem Divides.mem_iff (h : Divides size hash ns d) (k : Bytes) :
    k ∈ (ns (shard size (hash k))).prime ↔ k ∈ d := by
  rw [← Finmap.lookup_isSome, ← Finmap.lookup_isSome, h.lookup_self, Option.isSome_map]

theorem Divides.plain (h : Divides size hash ns d) (sid : ShardId) : Plain (ns sid).prime := by
  intro k e he
  rw [h.lookup] at he
  split at he
  · obtain ⟨s, -, rfl⟩ := Option.map_eq_some_iff.mp he
    exact ⟨s, rfl⟩
  · cases he

/-- The keys of a slice are those that belong to its shard. -/
theorem Divides.keys_eq (h : Divides size hash ns d) (sid : ShardId) :
    (ns sid).prime.keys = d.keys.filter fun k => shard size (hash k) = sid := by
  ext k
  rw [Finset.mem_filter, Finmap.mem_keys, Finmap.mem_keys, ← Finmap.lookup_isSome, h.lookup]
  by_cases hsid : sid = shard size (hash k)
  · rw [if_pos hsid, Option.isSome_map, Finmap.lookup_isSome]
    exact (and_iff_left hsid.symm).symm
  · rw [if_neg hsid]
    refine iff_of_false (by simp) ?_
    rintro ⟨-, heq⟩
    exact hsid heq.symm

/-- A slice and the dictionary change at one key alike. -/
theorem Divides.update (h : Divides size hash ns d) {key : Bytes} {db : DbSlice} {d' : Dictionary}
    (howner : db.owner = shard size (hash key))
    (hkey : db.prime.lookup key = (d'.lookup key).map fun s => ⟨none, .str s⟩)
    (hslice : ∀ k, k ≠ key → db.prime.lookup k = (ns (shard size (hash key))).prime.lookup k)
    (hothers : ∀ k, k ≠ key → d'.lookup k = d.lookup k) :
    Divides size hash (Function.update ns (shard size (hash key)) db) d' := by
  refine ⟨fun sid => ?_, fun sid k => ?_⟩
  · by_cases hsid : sid = shard size (hash key)
    · rw [hsid, Function.update_self]
      exact howner
    · rw [Function.update_of_ne hsid]
      exact h.owned sid
  · by_cases hk : k = key
    · subst hk
      by_cases hsid : sid = shard size (hash k)
      · rw [if_pos hsid, hsid, Function.update_self, hkey]
      · rw [if_neg hsid, Function.update_of_ne hsid, h.lookup, if_neg hsid]
    · rw [hothers k hk, ← h.lookup sid k]
      by_cases hsid : sid = shard size (hash key)
      · rw [hsid, Function.update_self, hslice k hk]
      · rw [Function.update_of_ne hsid]

/-- **A callback over the maps of the shards** answers as the dictionary does. -/
theorem Divides.callback (h : Divides size hash ns d) (r : Request) {tx : Transaction}
    (hargs : tx.fullArgs = r.args) :
    Divides size hash (r.onMaps tx (shard size (hash r.key)) ns).1 (r.onDictionary d).1 ∧
      (r.onMaps tx (shard size (hash r.key)) ns).2 = (r.onDictionary d).2 := by
  have howned := h.owned (shard size (hash r.key))
  have hkeys := keys_args hargs (shard size (hash r.key))
  cases r with
  | set key value flags =>
    dsimp only [Request.onMaps, Request.onDictionary, Request.key, cmdSetWith] at howned ⊢
    rw [set_plain (h.plain _)]
    refine ⟨h.update howned ?_ (fun k hk => Finmap.lookup_insert_of_ne _ hk) fun k hk =>
      Finmap.lookup_insert_of_ne _ hk, rfl⟩
    rw [Finmap.lookup_insert d]
    exact Finmap.lookup_insert _
  | get key =>
    dsimp only [Request.onMaps, Request.onDictionary, Request.key, cmdGet]
    rw [DbSlice.entry_findReadOnly, h.lookup_self]
    cases d.lookup key with
    | none => exact ⟨h, rfl⟩
    | some s => exact ⟨h, rfl⟩
  | del key rest =>
    dsimp only [Request.onMaps, Request.onDictionary, Request.key, cmdDel] at howned hkeys ⊢
    rw [opDel_single _ hkeys]
    by_cases hmem : key ∈ d
    · rw [if_pos ((h.mem_iff key).mpr hmem), if_pos hmem]
      refine ⟨h.update ((DbSlice.del_owner _).trans howned) ?_ ?_ ?_, rfl⟩
      · rw [DbSlice.lookup_del, if_pos rfl, Finmap.lookup_erase]
        rfl
      · intro k hk
        rw [DbSlice.lookup_del, if_neg hk]
      · exact fun k hk => Finmap.lookup_erase_ne hk
    · rw [if_neg (mt (h.mem_iff key).mp hmem), if_neg hmem, FiniteMap.erase_of_notMem hmem]
      dsimp only
      rw [Function.update_eq_self]
      exact ⟨h, rfl⟩
  | «exists» key rest =>
    dsimp only [Request.onMaps, Request.onDictionary, Request.key, cmdExists] at hkeys ⊢
    rw [opExists_single _ hkeys]
    exact ⟨h, congrArg Result.count (if_congr (h.mem_iff key) rfl rfl)⟩

theorem Divides.runCommand (h : Divides size hash ns d) (now : UInt64) (r : Request) :
    Divides size hash (runCommand size hash now r.onMaps r.args ns).1 (r.onDictionary d).1 ∧
      (runCommand size hash now r.onMaps r.args ns).2 = (r.onDictionary d).2 := by
  unfold Command.runCommand Transaction.runTask
  rw [uniqueShardId_args, h.owned]
  exact h.callback r rfl

/-! ### Runs -/

/-- The tables of the shards hold the dictionary, and the results are those of the dictionary. -/
def Serves (size : UInt32) (hash hashStr : Bytes → UInt64) (s : PrimeNamespace × List Result)
    (u : Dictionary × List Result) : Prop :=
  (∃ ns, Stored hashStr s.1 ns ∧ Divides size hash ns u.1) ∧ s.2 = u.2

variable {shared : Bool} {hashInt : Int64 → UInt64} {hashStr : Bytes → UInt64}
    {selfMove : Bytes → Bytes} {fuel : Nat}

/-- The size of a table is the number of keys of its shard. -/
theorem Serves.size_eq {s : PrimeNamespace × List Result} {u : Dictionary × List Result}
    (h : Serves size hash hashStr s u) (sid : ShardId) :
    (s.1 sid).prime.size = (u.1.keys.filter fun k => shard size (hash k) = sid).card := by
  obtain ⟨⟨ns, hstored, hdivides⟩, -⟩ := h
  rw [(hstored.stands sid).size_eq, hdivides.keys_eq]

theorem Serves.step {s t : PrimeNamespace × List Result} {u : Dictionary × List Result}
    {r : UInt64 × Request} (h : Serves size hash hashStr s u)
    (hplace : r.2.Placeable shared hashInt hashStr fuel size hash s.1)
    (hstep : stepPrime shared hashInt hashStr selfMove fuel size hash s r = some t) :
    ∃ u', run stepDictionary u [r.2] = some u' ∧ Serves size hash hashStr t u' := by
  obtain ⟨⟨ns, hstored, hdivides⟩, hresults⟩ := h
  obtain ⟨out, hout, rfl⟩ := Option.map_eq_some_iff.mp hstep
  obtain ⟨hstored', hresult⟩ := hstored.runPrime hplace hout
  obtain ⟨hdivides', hresult'⟩ := hdivides.runCommand r.1 r.2
  refine ⟨_, rfl, ⟨_, hstored', hdivides'⟩, ?_⟩
  show s.2 ++ [out.2] = u.2 ++ [(r.2.onDictionary u.1).2]
  rw [hresults, hresult, hresult']

/-- Every command has a next step, except perhaps a `SET` of a new key. -/
theorem Serves.isSome {s : PrimeNamespace × List Result} {u : Dictionary × List Result}
    (h : Serves size hash hashStr s u) {r : UInt64 × Request}
    (hold : ∀ key value flags, r.2 = .set key value flags → key ∈ u.1) :
    (stepPrime shared hashInt hashStr selfMove fuel size hash s r).isSome = true := by
  obtain ⟨⟨ns, hstored, hdivides⟩, -⟩ := h
  unfold stepPrime
  rw [Option.isSome_map]
  apply hstored.runPrime_isSome
  intro key value flags hr
  rw [hr]
  exact (hdivides.mem_iff key).mpr (hold key value flags hr)

/-- **The store answers like one dictionary.**  Whatever the number of shards and the hashes,
    the commands of a run on the tables have the results that they have on a dictionary, and
    every table counts the keys of its shard.  A command that has no step, because it would access
    a string that is not alive or because its insertion does not return, is a `SET` of a new
    key. -/
theorem runPrime_dictionary (shared : Bool) (hashInt : Int64 → UInt64) (hashStr : Bytes → UInt64)
    (selfMove : Bytes → Bytes) (fuel : Nat) (size : UInt32) (hash : Bytes → UInt64)
    {rs : List (UInt64 × Request)} {s : PrimeNamespace × List Result}
    (hplace : Along (stepPrime shared hashInt hashStr selfMove fuel size hash)
      (fun s r => r.2.Placeable shared hashInt hashStr fuel size hash s.1)
      (PrimeNamespace.new shared hashInt hashStr, []) rs)
    (hrun : run (stepPrime shared hashInt hashStr selfMove fuel size hash)
      (PrimeNamespace.new shared hashInt hashStr, []) rs = some s) :
    ∃ d, run stepDictionary (∅, []) (rs.map Prod.snd) = some (d, s.2) ∧
      (∀ sid, (s.1 sid).prime.size = (d.keys.filter fun k => shard size (hash k) = sid).card) ∧
      ∀ r : UInt64 × Request, (∀ key value flags, r.2 = .set key value flags → key ∈ d) →
        (stepPrime shared hashInt hashStr selfMove fuel size hash s r).isSome = true := by
  have hnew : Serves size hash hashStr (PrimeNamespace.new shared hashInt hashStr, []) (∅, []) :=
    ⟨⟨_, stored_new, divides_new⟩, rfl⟩
  obtain ⟨u, hu, hserves⟩ := run_rel_along (g := fun r => [r.2])
    (fun s r t u h hp ht => h.step hp ht) hnew hplace hrun
  rw [← List.map_eq_flatMap] at hu
  obtain ⟨d, xs⟩ := u
  obtain ⟨-, rfl⟩ := id hserves
  exact ⟨d, hu, hserves.size_eq, fun r hold => hserves.isSome hold⟩

/-- Keys of two shards: one is deleted, and a key of another bucket comes behind it. -/
def setAndDelete : List (UInt64 × Request) :=
  [(0, .set [1, 0] (text "a") 0), (0, .set [1, 1] (text "b") 0), (0, .del [1, 1] []),
    (0, .set [3, 1] (text "c") 0), (0, .get [1, 0])]

theorem runPrime_dictionary_setAndDelete : ∃ s,
    run (stepPrime true (fun _ => 0) Prime.hashBytes id 1 2 Prime.hashBytes)
      (PrimeNamespace.new true (fun _ => 0) Prime.hashBytes, []) setAndDelete = some s ∧
    s.2 = [.status (.ok ()), .status (.ok ()), .count 1, .status (.ok ()),
      .string (.ok (text "a"))] ∧
    (s.1 0).prime.size = 1 ∧ (s.1 1).prime.size = 1 := by
  have hplace : Along (stepPrime true (fun _ => 0) Prime.hashBytes id 1 2 Prime.hashBytes)
      (fun s r => r.2.Placeable true (fun _ => 0) Prime.hashBytes 1 2 Prime.hashBytes s.1)
      (PrimeNamespace.new true (fun _ => 0) Prime.hashBytes, []) setAndDelete := by
    decide +kernel
  have hsome : (run (stepPrime true (fun _ => 0) Prime.hashBytes id 1 2 Prime.hashBytes)
      (PrimeNamespace.new true (fun _ => 0) Prime.hashBytes, []) setAndDelete).isSome = true := by
    decide +kernel
  obtain ⟨s, hs⟩ := Option.isSome_iff_exists.mp hsome
  obtain ⟨d, hd, hsize, -⟩ := runPrime_dictionary _ _ _ _ _ _ _ hplace hs
  have hdict : run stepDictionary (∅, []) (setAndDelete.map Prod.snd) =
      some (((∅ : Dictionary).insert [1, 0] (text "a")).insert [3, 1] (text "c"),
        [.status (.ok ()), .status (.ok ()), .count 1, .status (.ok ()),
          .string (.ok (text "a"))]) := by
    decide +kernel
  obtain ⟨rfl, hresults⟩ := Prod.mk.inj (Option.some.inj (hdict.symm.trans hd))
  refine ⟨s, hs, hresults.symm, ?_, ?_⟩
  · rw [hsize]
    decide +kernel
  · rw [hsize]
    decide +kernel

end Dictionary

end StorageEngine.Command
