/-
  StorageEngine/Sharding/AddOrFind.lean
  =====================================
  **New entries of a slice** (`sharding/db_slice.cpp`, on the table of `db_table.hpp`).

  Here the slots of the prime table hold keys and values as they are, and the assignments are
  those of `CompactObj`.  A new entry is stored with an empty value, whose assignment leaves
  the old content of the slot alone: the entry starts empty only if the slot is clean.  A slot
  that an entry was moved out of is not.  An erased slot is, but its strings were destroyed,
  and the new key is assigned to one of them.
-/
import StorageEngine.DashTable.CompactKey
import StorageEngine.DashTable.InsertRoom

namespace StorageEngine.Sharding.Prime

open StorageEngine.DashTable StorageEngine.Redis StorageEngine.StepMachine

/-! ### The objects of the slots -/

/-- An object in a slot, and whether a member of it, or of an object that was assigned to it, was
    assigned to or destroyed that was not alive.  From then on nothing is known of it. -/
structure SlotObj where
  obj : CompactObj
  faulty : Bool := false
deriving DecidableEq

namespace SlotObj

variable (shared : Bool) (o : SlotObj)

def fresh : SlotObj := ⟨.fresh, false⟩

def ofString (s : Bytes) : SlotObj := ⟨.ofString s, false⟩

instance : Inhabited SlotObj := ⟨fresh⟩

def setString (s : Bytes) : SlotObj :=
  ⟨o.obj.setString s, o.faulty || !o.obj.u.holdsStr shared⟩

/-- `operator=(CompactObj&&)`. -/
def assign (src : SlotObj) : SlotObj :=
  ⟨o.obj.assign src.obj, o.faulty || src.faulty || !(o.obj.assignTo shared src.obj).isSome⟩

/-- The member that the tag names is destroyed. -/
def reset : SlotObj :=
  ⟨o.obj.reset, o.faulty || !match o.obj.tag with
    | .zero | .int => true
    | .str => o.obj.u.holdsStr shared
    | .ttlStr => o.obj.u.holdsTtlStr shared⟩

/-- `SetExpireTime`.  Without an expiry one string is read and the other one assigned to. -/
def setExpireTime (selfMove : Bytes → Bytes) (absMs : UInt64) : SlotObj :=
  ⟨o.obj.setExpireTime selfMove absMs, o.faulty || !(o.obj.u.holdsTtlStr shared &&
    (o.obj.hasExpire || o.obj.u.holdsStr shared))⟩

/-- `ClearExpireTime`.  With an expiry one string is read and the other one assigned to. -/
def clearExpireTime : SlotObj :=
  ⟨o.obj.clearExpireTime, o.faulty || (o.obj.hasExpire &&
    !(o.obj.u.holdsTtlStr shared && o.obj.u.holdsStr shared))⟩

end SlotObj

/-- `PrimeTablePolicy`, with the `std::hash` of an integer and of a string.  The hash of an object
    without a tag ends the process. -/
def policy (shared : Bool) (hashInt : Int64 → UInt64) (hashStr : Bytes → UInt64) :
    Policy SlotObj SlotObj where
  kSlotNum := 14
  kBucketNum := 56
  hashFn s := (s.obj.hashCode hashInt hashStr).getD 0
  equal s1 s2 :=
    match s2.obj.u with
    | .str x => s1.obj.equalsView x == some true
    | _ => false
  destroyKey := SlotObj.reset shared
  destroyValue := SlotObj.reset shared
  assignKey := SlotObj.assign shared
  movedKey s := s
  assignValue := SlotObj.assign shared
  movedValue s := s
  kSlotNum_pos := dash64.kSlotNum_pos
  kSlotNum_le := dash64.kSlotNum_le
  kBucketNum_pos := dash64.kBucketNum_pos
  kTotalBuckets_lt := dash64.kTotalBuckets_lt

/-- `prime_`. -/
abbrev Slots := Table SlotObj SlotObj

/-- `kInitSegmentLog`. -/
def kInitSegmentLog : Nat := 3

section Operations

variable (shared : Bool) (hashInt : Int64 → UInt64) (hashStr : Bytes → UInt64)
  (selfMove : Bytes → Bytes) (fuel : Nat) (t : Slots)

/-- `DbTable::DbTable`. -/
def new : Slots := Table.new (policy shared hashInt hashStr) kInitSegmentLog

def findInternal (key : Bytes) : Option TableIter :=
  t.find (policy shared hashInt hashStr) (.ofString key)

/-- `AddOrFind`, that is `AddOrFindInternal` with any type of object: the iterator, and whether
    its entry is new. -/
def addOrFind (key : Bytes) : Option (Slots × TableIter × Bool) :=
  match findInternal shared hashInt hashStr t key with
  | some it => some (t, it, false)
  | none =>
    (t.insertInternal (policy shared hashInt hashStr) fuel (.ofString key) .fresh .forceInsert).map
      fun out => (out.table, out.it, true)

/-- A write through an iterator. -/
def modifyAt (it : TableIter) (first second : SlotObj → SlotObj) : Slots :=
  let s := t.seg it.segId
  let b := s.bucket it.bucketId
  t.setSeg it.segId (s.setBucket it.bucketId
    { b with
      key := Function.update b.key it.slotId (first (b.key it.slotId))
      value := Function.update b.value it.slotId (second (b.value it.slotId)) })

/-- `AddExpire` or `RemoveExpire`, on the key. -/
def updateExpire (expireAtMs : UInt64) (first : SlotObj) : SlotObj :=
  if expireAtMs ≠ 0 then first.setExpireTime shared selfMove expireAtMs
  else if first.obj.hasExpire then first.clearExpireTime shared else first

/-- `AddOrUpdate`, that is `AddOrUpdateInternal`. -/
def addOrUpdate (key : Bytes) (obj : CompactObj) (expireAtMs : UInt64) :
    Option (Slots × TableIter × Bool) :=
  (addOrFind shared hashInt hashStr fuel t key).map fun
    | (t, it, false) => (t, it, false)
    | (t, it, true) =>
      (modifyAt t it (updateExpire shared selfMove expireAtMs)
        fun second => second.assign shared ⟨obj, false⟩, it, true)

/-- `SetString` on the value of a key. -/
def setString (key value : Bytes) : Slots :=
  match findInternal shared hashInt hashStr t key with
  | some it => modifyAt t it id fun second => second.setString shared value
  | none => t

/-- `Del` of the iterator of a key. -/
def del (key : Bytes) : Slots :=
  match findInternal shared hashInt hashStr t key with
  | some it => t.eraseIt (policy shared hashInt hashStr) it
  | none => t

inductive Action where
  | addOrFind (key : Bytes)
  | addOrUpdate (key : Bytes) (obj : CompactObj) (expireAtMs : UInt64)
  | setString (key value : Bytes)
  | del (key : Bytes)

/-- One operation.  An insertion that has not returned within the fuel is not a step. -/
def step : Action → Option Slots
  | .addOrFind key => (addOrFind shared hashInt hashStr fuel t key).map Prod.fst
  | .addOrUpdate key obj expireAtMs =>
    (addOrUpdate shared hashInt hashStr selfMove fuel t key obj expireAtMs).map Prod.fst
  | .setString key value => some (setString shared hashInt hashStr t key value)
  | .del key => some (del shared hashInt hashStr t key)

end Operations

/-! ### What a new entry is -/

/-- A busy slot holds the key. -/
def Holds (t : Slots) (key : Bytes) : Prop :=
  ∃ sid < t.segmentSize, ∃ i < 60, ∃ j < 14, ((t.seg sid).raw (i, j)).1 = true ∧
    ((t.seg sid).raw (i, j)).2.1.obj.equalsView key = some true

instance (t : Slots) (key : Bytes) : Decidable (Holds t key) :=
  inferInstanceAs (Decidable (∃ sid < t.segmentSize, ∃ i < 60, ∃ j < 14, _ ∧ _))

/-- No member was accessed that was not alive, ever. -/
def Sound (t : Slots) : Prop :=
  ∀ ptr < t.nextPtr, ∀ i < 60, ∀ j < 14, ((t.heap ptr).raw (i, j)).2.1.faulty = false ∧
    ((t.heap ptr).raw (i, j)).2.2.faulty = false

instance (t : Slots) : Decidable (Sound t) :=
  inferInstanceAs (Decidable (∀ ptr < t.nextPtr, ∀ i < 60, ∀ j < 14, _ ∧ _))

/-- `AddOrFind` returns a new entry: a slot that was free holds the key without an expiry and an
    empty value, the other slots are as they were, and all accesses were to members that are
    alive. -/
structure NewEntry (t t' : Slots) (it : TableIter) (key : Bytes) : Prop where
  segId_lt : it.segId < t'.segmentSize
  bucketId_lt : it.bucketId < 60
  slotId_lt : it.slotId < 14
  free : ((t.seg it.segId).raw (it.bucketId, it.slotId)).1 = false
  busy : ((t'.seg it.segId).raw (it.bucketId, it.slotId)).1 = true
  key : ((t'.seg it.segId).raw (it.bucketId, it.slotId)).2.1.obj = .ofString key
  value : ((t'.seg it.segId).raw (it.bucketId, it.slotId)).2.2.obj.tag = .zero
  segments : t'.segmentSize = t.segmentSize ∧ t'.segment = t.segment
  others : ∀ sid x, (t.segment sid, x) ≠ (t.segment it.segId, (it.bucketId, it.slotId)) →
    (t'.seg sid).raw x = (t.seg sid).raw x
  sound : Sound t'

section Conditions

variable (shared : Bool) (hashInt : Int64 → UInt64) (hashStr : Bytes → UInt64) (t : Slots)

/-- `AddOrFind` of the key makes a new entry that starts empty. -/
def StartsEmpty (key : Bytes) : Prop :=
  ∀ fuel, ∃ t' it, addOrFind shared hashInt hashStr (fuel + 1) t key = some (t', it, true) ∧
    NewEntry t t' it key

/-- The slot that a new entry with the key comes to if nothing has to move. -/
def placeOf (key : Bytes) : Bool × SlotObj × SlotObj :=
  let s := t.seg (t.segmentId (hashStr key))
  s.raw (s.roomAt (policy shared hashInt hashStr) (hashStr key))

/-- A new entry with the key has room without a move, and its slot has a string to assign the key
    to. -/
def HasPlace (key : Bytes) : Prop :=
  (t.seg (t.segmentId (hashStr key))).HasRoom (policy shared hashInt hashStr) (hashStr key) ∧
    (placeOf shared hashInt hashStr t key).2.1.obj.u.holdsStr shared = true

/-- The operation moves no entry and accesses no member that is not alive: a key that it does not
    find has a place, and what it assigns is assigned to something. -/
def MovesNothing : Action → Prop
  | .addOrFind key =>
    findInternal shared hashInt hashStr t key = none → HasPlace shared hashInt hashStr t key
  | .addOrUpdate key obj expireAtMs =>
    findInternal shared hashInt hashStr t key = none →
      HasPlace shared hashInt hashStr t key ∧ obj.Readable ∧
        ((placeOf shared hashInt hashStr t key).2.2.obj.assignTo shared obj).isSome = true ∧
        (expireAtMs ≠ 0 → shared = true)
  | .setString key _ => ∀ it ∈ findInternal shared hashInt hashStr t key,
      ((t.seg it.segId).raw (it.bucketId, it.slotId)).2.2.obj.u.holdsStr shared = true
  | .del _ => True

instance (key : Bytes) : Decidable (HasPlace shared hashInt hashStr t key) :=
  inferInstanceAs (Decidable (_ ∧ _))

instance : ∀ a, Decidable (MovesNothing shared hashInt hashStr t a)
  | .addOrFind _ => inferInstanceAs (Decidable (_ = none → _))
  | .addOrUpdate _ _ _ => inferInstanceAs (Decidable (_ = none → _ ∧ _ ∧ _ ∧ (_ → _)))
  | .setString key _ =>
    inferInstanceAs (Decidable (∀ it ∈ findInternal shared hashInt hashStr t key,
      ((t.seg it.segId).raw (it.bucketId, it.slotId)).2.2.obj.u.holdsStr shared = true))
  | .del _ => inferInstanceAs (Decidable True)

end Conditions

/-! ### Clean slots -/

section Clean

variable (shared : Bool) (hashInt : Int64 → UInt64) (hashStr : Bytes → UInt64)

/-- What a slot may hold: a busy one objects whose tags are right, the other ones no value; and
    nothing that was accessed wrongly. -/
structure CleanSlot (o : Bool × SlotObj × SlotObj) : Prop where
  busy : o.1 = true → o.2.1.obj.Readable ∧ o.2.2.obj.Readable
  free : o.1 = false → o.2.2.obj.tag = .zero
  sound : o.2.1.faulty = false ∧ o.2.2.faulty = false

/-- The bitmaps are well formed, and the slots are clean. -/
structure CleanSegment (s : Segment SlotObj SlotObj) : Prop where
  slotsWF : s.SlotsWF (policy shared hashInt hashStr)
  slots : ∀ x, CleanSlot (s.raw x)

/-- Every segment is clean, and the directory is the one that the table was made with. -/
structure Clean (t : Slots) : Prop where
  globalDepth : t.globalDepth = 3
  segmentSize : t.segmentSize = 8
  heap : ∀ ptr, CleanSegment shared hashInt hashStr (t.heap ptr)

variable {shared hashInt hashStr} {s s' : Segment SlotObj SlotObj} {t : Slots}

theorem Clean.sound (h : Clean shared hashInt hashStr t) : Sound t :=
  fun ptr _ i _ j _ => ((h.heap ptr).slots (i, j)).sound

/-- One slot is written. -/
theorem CleanSegment.update (h : CleanSegment shared hashInt hashStr s)
    (hwf : s'.SlotsWF (policy shared hashInt hashStr)) {x : Nat × Nat}
    {o : Bool × SlotObj × SlotObj} (hraw : s'.raw = Function.update s.raw x o) (ho : CleanSlot o) :
    CleanSegment shared hashInt hashStr s' := by
  refine ⟨hwf, fun y => ?_⟩
  rw [hraw]
  by_cases hy : y = x
  · rw [hy, Function.update_self]
    exact ho
  · rw [Function.update_of_ne hy]
    exact h.slots y

theorem Clean.seg (h : Clean shared hashInt hashStr t) (sid : Nat) :
    CleanSegment shared hashInt hashStr (t.seg sid) :=
  h.heap _

theorem Clean.withSize (h : Clean shared hashInt hashStr t) (n : Nat) :
    Clean shared hashInt hashStr { t with size := n } :=
  ⟨h.globalDepth, h.segmentSize, h.heap⟩

theorem Clean.setSeg (h : Clean shared hashInt hashStr t) (sid : Nat)
    (hs : CleanSegment shared hashInt hashStr s) :
    Clean shared hashInt hashStr (t.setSeg sid s) := by
  refine ⟨h.globalDepth, h.segmentSize, fun ptr => ?_⟩
  show CleanSegment shared hashInt hashStr (Function.update t.heap (t.segment sid) s ptr)
  by_cases hptr : ptr = t.segment sid
  · rw [hptr, Function.update_self]
    exact hs
  · rw [Function.update_of_ne hptr]
    exact h.heap ptr

theorem cleanSegment_new (depth id : Nat) :
    CleanSegment shared hashInt hashStr (Segment.new depth id) := by
  have hfree : ∀ x, ¬ ((Segment.new depth id : Segment SlotObj SlotObj).raw x).1 = true := by
    intro x hbusy
    have hcell : (Segment.new depth id : Segment SlotObj SlotObj).cell x = none :=
      Segment.cell_new depth id x
    rw [← Option.not_isSome_iff_eq_none] at hcell
    exact hcell (Bucket.cell_isSome.trans hbusy)
  exact
  ⟨fun _ => SlotBitmap.wf_empty _,
    fun x => ⟨fun hbusy => (hfree x hbusy).elim, fun _ => rfl, rfl, rfl⟩⟩

theorem clean_new : Clean shared hashInt hashStr (new shared hashInt hashStr) := by
  have hfold : ∀ (l : List Nat) (t : Slots), Clean shared hashInt hashStr t →
      Clean shared hashInt hashStr
        (l.foldl (Table.constructAt (policy shared hashInt hashStr)) t) := by
    intro l
    induction l with
    | nil =>
      intro t h
      exact h
    | cons i l ih =>
      intro t h
      apply ih
      refine ⟨h.globalDepth, h.segmentSize, fun ptr => ?_⟩
      show CleanSegment shared hashInt hashStr
        (Function.update t.heap t.nextPtr (Segment.new t.globalDepth i) ptr)
      by_cases hptr : ptr = t.nextPtr
      · rw [hptr, Function.update_self]
        exact cleanSegment_new _ _
      · rw [Function.update_of_ne hptr]
        exact h.heap ptr
  exact hfold _ _ ⟨rfl, rfl, fun _ => cleanSegment_new _ _⟩

theorem Clean.segmentId_lt (h : Clean shared hashInt hashStr t) (hash : UInt64) :
    t.segmentId hash < t.segmentSize := by
  have hdepth : t.globalDepth ≤ 31 := by
    rw [h.globalDepth]
    decide
  have hlt := Table.segmentId_lt hdepth hash
  rw [h.segmentSize]
  rwa [h.globalDepth] at hlt

/-! ### The operations -/

variable (shared hashInt hashStr) in
theorem hashFn_ofString (key : Bytes) :
    (policy shared hashInt hashStr).hashFn (.ofString key) = hashStr key :=
  rfl

/-- What a lookup finds is a busy slot with the key. -/
theorem findInternal_some (h : Clean shared hashInt hashStr t) {key : Bytes} {it : TableIter}
    (hfind : findInternal shared hashInt hashStr t key = some it) :
    it.segId < t.segmentSize ∧ it.bucketId < 60 ∧ it.slotId < 14 ∧
      ((t.seg it.segId).raw (it.bucketId, it.slotId)).1 = true ∧
      ((t.seg it.segId).raw (it.bucketId, it.slotId)).2.1.obj.equalsView key = some true := by
  unfold findInternal Table.find Table.findFirst at hfind
  dsimp only at hfind
  obtain ⟨found, hfound, rfl⟩ := Option.map_eq_some_iff.mp hfind
  obtain ⟨hbucket, e, he, hpred⟩ :=
    Segment.findIt_some (policy shared hashInt hashStr) (h.seg _).slotsWF hfound
  have hslot := Segment.slot_lt_of_cell (policy shared hashInt hashStr) (h.seg _).slotsWF he
  have hkey : e.key.obj.equalsView key = some true := beq_iff_eq.mp hpred
  rw [← (Bucket.key_of_cell he).1] at hkey
  exact ⟨h.segmentId_lt _, hbucket, hslot, Bucket.busy_of_cell he, hkey⟩

/-- A key that no busy slot holds is not found. -/
theorem findInternal_eq_none (h : Clean shared hashInt hashStr t) {key : Bytes}
    (habsent : ¬ Holds t key) : findInternal shared hashInt hashStr t key = none := by
  rw [Option.eq_none_iff_forall_ne_some]
  intro it hfind
  obtain ⟨hseg, hbucket, hslot, hbusy, hkey⟩ := findInternal_some h hfind
  exact habsent ⟨_, hseg, _, hbucket, _, hslot, hbusy, hkey⟩

/-- An empty value is assigned to anything, without a change. -/
theorem SlotObj.assign_fresh (o : SlotObj) : o.assign shared .fresh = o := by
  obtain ⟨obj, faulty⟩ := o
  show SlotObj.mk _ (faulty || false || false) = _
  rw [Bool.or_false, Bool.or_false]
  rfl

/-- The key is assigned to a string that is alive. -/
theorem SlotObj.assign_ofString {o : SlotObj} (hfaulty : o.faulty = false)
    (halive : o.obj.u.holdsStr shared = true) (key : Bytes) :
    o.assign shared (.ofString key) = .ofString key := by
  have hassign : o.obj.assignTo shared (.ofString key) = some (.ofString key) := if_pos halive
  show SlotObj.mk (.ofString key) (o.faulty || false || _) = _
  rw [hfaulty, show (SlotObj.ofString key).obj = .ofString key from rfl, hassign]
  rfl

/-- What a new entry leaves of the slot that it comes to. -/
theorem raw_of_fills {x : Nat × Nat} {key : Bytes} (hs : CleanSegment shared hashInt hashStr s)
    (hfills : Segment.Fills (policy shared hashInt hashStr) s s' x (.ofString key) .fresh)
    (halive : (s.raw x).2.1.obj.u.holdsStr shared = true) :
    s'.raw = Function.update s.raw x (true, .ofString key, (s.raw x).2.2) := by
  have hkey : (policy shared hashInt hashStr).assignKey (s.raw x).2.1 (.ofString key) =
      .ofString key :=
    SlotObj.assign_ofString (hs.slots x).sound.1 halive key
  have hvalue : (policy shared hashInt hashStr).assignValue (s.raw x).2.2 .fresh = (s.raw x).2.2 :=
    SlotObj.assign_fresh _
  rw [hfills.raw, hkey, hvalue]

theorem cleanSegment_fills {x : Nat × Nat} {key : Bytes}
    (hs : CleanSegment shared hashInt hashStr s)
    (hfills : Segment.Fills (policy shared hashInt hashStr) s s' x (.ofString key) .fresh) (halive :
      (s.raw x).2.1.obj.u.holdsStr shared = true) : CleanSegment shared hashInt hashStr s' := by
  refine hs.update hfills.slotsWF (raw_of_fills hs hfills halive) ⟨fun _ => ⟨Or.inr rfl, ?_⟩,
    nofun, rfl, ?_⟩
  · exact Or.inl ((hs.slots x).free hfills.free)
  · exact (hs.slots x).sound.2

/-- The slot that is filled holds the new entry. -/
theorem newEntry_of_fills (h : Clean shared hashInt hashStr t) {key : Bytes} {sid : Nat}
    (hsid : sid < t.segmentSize) {it : Iter}
    (hfills : Segment.Fills (policy shared hashInt hashStr) (t.seg sid) s' it.at
      (.ofString key) .fresh)
    (halive : ((t.seg sid).raw it.at).2.1.obj.u.holdsStr shared = true) (n : Nat) :
    NewEntry t { t.setSeg sid s' with size := n } ⟨sid, it.index, it.slot⟩ key := by
  have hseg : Table.seg { t.setSeg sid s' with size := n } sid = s' :=
    Table.seg_setSeg_self t sid s'
  have hraw := raw_of_fills (h.seg sid) hfills halive
  have hslot : s'.raw it.at = (true, .ofString key, ((t.seg sid).raw it.at).2.2) := by
    rw [hraw, Function.update_self]
  have hempty : ((t.seg sid).raw it.at).2.2.obj.tag = .zero :=
    ((h.seg sid).slots _).free hfills.free
  refine ⟨hsid, hfills.bucket_lt, hfills.slot_lt, hfills.free, ?_, ?_, ?_, ⟨rfl, rfl⟩, ?_, ?_⟩
  · rw [hseg]
    exact congrArg Prod.fst hslot
  · rw [hseg]
    exact congrArg (fun o => o.2.1.obj) hslot
  · rw [hseg]
    exact (congrArg (fun o => o.2.2.obj.tag) hslot).trans hempty
  · intro sid' x hne
    have hother := Table.seg_setSeg t sid s' sid'
    show ((t.setSeg sid s').seg sid').raw x = _
    rw [hother]
    by_cases hsame : t.segment sid' = t.segment sid
    · have hx : x ≠ it.at := fun hx => hne (Prod.ext hsame hx)
      rw [if_pos hsame, hraw, Function.update_of_ne hx, Table.seg, Table.seg, hsame]
    · rw [if_neg hsame]
  · exact ((h.setSeg sid (cleanSegment_fills (h.seg sid) hfills halive)).withSize n).sound

/-- **A new entry starts empty** if the slots are clean and it has a place.  Its slot then is the
    one that was looked at. -/
theorem newEntry_of_place (h : Clean shared hashInt hashStr t) {key : Bytes}
    (hnone : findInternal shared hashInt hashStr t key = none)
    (hplace : HasPlace shared hashInt hashStr t key) (fuel : Nat) :
    ∃ t' it, addOrFind shared hashInt hashStr (fuel + 1) t key = some (t', it, true) ∧
      NewEntry t t' it key ∧ Clean shared hashInt hashStr t' ∧
      (t'.seg it.segId).raw (it.bucketId, it.slotId) =
        (true, .ofString key, (placeOf shared hashInt hashStr t key).2.2) := by
  obtain ⟨hroom, halive⟩ := hplace
  unfold placeOf at halive
  dsimp only at halive
  rw [← hashFn_ofString shared hashInt hashStr key] at hroom halive
  obtain ⟨it, s', hins, hat, hfills⟩ := Table.insertInternal_of_room
    (policy shared hashInt hashStr) (.ofString key) .fresh fuel (h.seg _).slotsWF hroom
  rw [← hat] at halive
  have hclean := cleanSegment_fills (h.seg _) hfills halive
  refine ⟨_, _, ?_, newEntry_of_fills h (h.segmentId_lt _) hfills halive (t.size + 1),
    (h.setSeg _ hclean).withSize _, ?_⟩
  · unfold addOrFind
    rw [hnone]
    dsimp only
    rw [hins]
    rfl
  · have hseg := Table.seg_setSeg_self t (t.segmentId (hashStr key)) s'
    have hraw := raw_of_fills (h.seg _) hfills halive
    show ((t.setSeg _ s').seg _).raw it.at = _
    rw [hashFn_ofString, hseg, hraw, Function.update_self, hat]
    rfl

variable (shared hashInt hashStr) in
/-- What an erased entry leaves. -/
theorem raw_erase (s : Segment SlotObj SlotObj) (it : Iter) (hslot : it.slot < 14) (hash : UInt64) :
    ((s.destroySlot (policy shared hashInt hashStr) it).delete (policy shared hashInt hashStr) it
      hash).raw = Function.update s.raw it.at
        (false, (s.raw it.at).2.1.reset shared, (s.raw it.at).2.2.reset shared) := by
  rw [Segment.raw_delete _ _ _ (Nat.lt_trans hslot (by decide)), Segment.raw_destroySlot,
    Function.update_self, Function.update_idem]
  rfl

/-- A write through an iterator, or an erased entry, is sound if its slot is. -/
theorem Sound.setSeg (h : Sound t) {sid : Nat} {x : Nat × Nat} {o : Bool × SlotObj × SlotObj}
    (hraw : s'.raw = Function.update (t.seg sid).raw x o)
    (ho : o.2.1.faulty = false ∧ o.2.2.faulty = false) : Sound (t.setSeg sid s') := by
  intro ptr hptr i hi j hj
  show ((Function.update t.heap (t.segment sid) s' ptr).raw (i, j)).2.1.faulty = false ∧
    ((Function.update t.heap (t.segment sid) s' ptr).raw (i, j)).2.2.faulty = false
  by_cases hsame : ptr = t.segment sid
  · rw [hsame, Function.update_self, hraw]
    by_cases hx : (i, j) = x
    · rw [hx, Function.update_self]
      exact ho
    · rw [Function.update_of_ne hx]
      exact h _ (hsame ▸ hptr) i hi j hj
  · rw [Function.update_of_ne hsame]
    exact h ptr hptr i hi j hj

theorem Sound.modifyAt (h : Sound t) (it : TableIter) {first second : SlotObj → SlotObj}
    (hfirst : (first (((t.seg it.segId).bucket it.bucketId).key it.slotId)).faulty = false)
    (hsecond : (second (((t.seg it.segId).bucket it.bucketId).value it.slotId)).faulty = false) :
    Sound (modifyAt t it first second) :=
  h.setSeg (Segment.raw_setBucket (Bucket.raw_write _ _ _ _)) ⟨hfirst, hsecond⟩

theorem Sound.eraseIt (h : Sound t) {it : TableIter} (hslot : it.slotId < 14)
    (hkey : ((((t.seg it.segId).bucket it.bucketId).key it.slotId).reset shared).faulty = false)
    (hvalue : ((((t.seg it.segId).bucket it.bucketId).value it.slotId).reset shared).faulty =
      false) : Sound (t.eraseIt (policy shared hashInt hashStr) it) :=
  h.setSeg (raw_erase shared hashInt hashStr (t.seg it.segId) it.iter hslot _) ⟨hkey, hvalue⟩

/-- A write through an iterator whose slot is busy. -/
theorem clean_modifyAt (h : Clean shared hashInt hashStr t) {it : TableIter} {o : SlotObj × SlotObj}
    (hslot : (t.seg it.segId).raw (it.bucketId, it.slotId) = (true, o))
    (first second : SlotObj → SlotObj) (hclean : CleanSlot (true, first o.1, second o.2)) :
    Clean shared hashInt hashStr (modifyAt t it first second) := by
  have hwf := (h.seg it.segId).slotsWF
  have hraw :=
    Segment.raw_setBucket (Bucket.raw_write ((t.seg it.segId).bucket it.bucketId) it.slotId
    (first (((t.seg it.segId).bucket it.bucketId).key it.slotId))
    (second (((t.seg it.segId).bucket it.bucketId).value it.slotId)))
  obtain ⟨hbusy, hkey, hvalue⟩ : ((t.seg it.segId).bucket it.bucketId).isBusy it.slotId = true ∧
      ((t.seg it.segId).bucket it.bucketId).key it.slotId = o.1 ∧
      ((t.seg it.segId).bucket it.bucketId).value it.slotId = o.2 :=
    ⟨congrArg Prod.fst hslot, congrArg (fun r => r.2.1) hslot, congrArg (fun r => r.2.2) hslot⟩
  unfold modifyAt
  dsimp only
  apply h.setSeg
  refine (h.seg it.segId).update ?_ hraw ?_
  · exact hwf.setBucket _ it.bucketId (hwf it.bucketId)
  · rw [hbusy, hkey, hvalue]
    exact hclean

theorem tag_reset (o : CompactObj) : o.reset.tag = .zero := by
  obtain ⟨tag, u⟩ := o
  cases tag <;> rfl

/-- What an object whose tag is right is destroyed to. -/
theorem SlotObj.faulty_reset {o : SlotObj} (hreadable : o.obj.Readable)
    (hfaulty : o.faulty = false) :
    (o.reset shared).faulty = false := by
  obtain ⟨⟨tag, u⟩, faulty⟩ := o
  obtain rfl : faulty = false := hfaulty
  rcases hreadable with hzero | hlive
  · obtain rfl : tag = .zero := hzero
    rfl
  · obtain rfl : tag = u.tag := hlive
    cases u <;> rfl

/-- An erased slot is clean. -/
theorem clean_eraseIt (h : Clean shared hashInt hashStr t) {it : TableIter} (hslot : it.slotId < 14)
    (hbusy : ((t.seg it.segId).raw (it.bucketId, it.slotId)).1 = true) :
    Clean shared hashInt hashStr (t.eraseIt (policy shared hashInt hashStr) it) := by
  have hdelete := raw_erase shared hashInt hashStr (t.seg it.segId) it.iter hslot
    ((policy shared hashInt hashStr).hashFn (((t.seg it.segId).bucket it.bucketId).key it.slotId))
  have hwf := (h.seg it.segId).slotsWF.destroySlot (policy shared hashInt hashStr) it.iter
  have hslot := (h.seg it.segId).slots (it.bucketId, it.slotId)
  obtain ⟨hkey, hvalue⟩ := hslot.busy hbusy
  apply Clean.withSize
  apply h.setSeg
  apply (h.seg it.segId).update (hwf.delete _ it.iter _) hdelete
  refine ⟨nofun, fun _ => tag_reset _, ?_, ?_⟩
  · exact SlotObj.faulty_reset hkey hslot.sound.1
  · exact SlotObj.faulty_reset hvalue hslot.sound.2

/-- What `AddOrFind` returns for a key that has a place if it is new. -/
theorem clean_addOrFind (h : Clean shared hashInt hashStr t) {key : Bytes} {fuel : Nat}
    (hplace : findInternal shared hashInt hashStr t key = none →
      HasPlace shared hashInt hashStr t key)
    {t' : Slots} {it : TableIter} {isNew : Bool}
    (hadd : addOrFind shared hashInt hashStr fuel t key = some (t', it, isNew)) :
    Clean shared hashInt hashStr t' ∧ (isNew = true →
      findInternal shared hashInt hashStr t key = none ∧
        (t'.seg it.segId).raw (it.bucketId, it.slotId) =
          (true, .ofString key, (placeOf shared hashInt hashStr t key).2.2) ∧
        (placeOf shared hashInt hashStr t key).2.2.obj.tag = .zero) := by
  cases hfind : findInternal shared hashInt hashStr t key with
  | some found =>
    unfold addOrFind at hadd
    rw [hfind] at hadd
    cases hadd
    exact ⟨h, nofun⟩
  | none =>
    cases fuel with
    | zero =>
      unfold addOrFind at hadd
      rw [hfind] at hadd
      cases hadd
    | succ fuel =>
      obtain ⟨t₁, it₁, hadd₁, hentry, hclean, hslot⟩ :=
        newEntry_of_place h hfind (hplace hfind) fuel
      rw [hadd₁] at hadd
      cases hadd
      have hempty := hentry.value
      rw [hslot] at hempty
      exact ⟨hclean, fun _ => ⟨rfl, hslot, hempty⟩⟩

/-- The expiry of a new key. -/
theorem cleanKey_updateExpire {expireAtMs : UInt64} (hshared : expireAtMs ≠ 0 → shared = true)
    (selfMove : Bytes → Bytes) (key : Bytes) :
    (updateExpire shared selfMove expireAtMs (.ofString key)).obj.Readable ∧
      (updateExpire shared selfMove expireAtMs (.ofString key)).faulty = false := by
  unfold updateExpire
  split
  · rename_i hne
    obtain rfl := hshared hne
    exact ⟨Or.inr rfl, rfl⟩
  · exact ⟨Or.inr rfl, rfl⟩

/-- The value that is assigned to an empty one. -/
theorem cleanValue_assign {o : SlotObj} {obj : CompactObj} (hempty : o.obj.tag = .zero)
    (hfaulty : o.faulty = false) (hreadable : obj.Readable)
    (hsome : (o.obj.assignTo shared obj).isSome = true) :
    (o.assign shared ⟨obj, false⟩).obj.Readable ∧
    (o.assign shared ⟨obj, false⟩).faulty = false := by
  refine ⟨?_, ?_⟩
  · obtain ⟨tag, u⟩ := obj
    obtain ⟨⟨otag, ou⟩, faulty⟩ := o
    obtain rfl : otag = .zero := hempty
    rcases hreadable with hzero | hlive
    · obtain rfl : tag = .zero := hzero
      cases u <;> exact Or.inl rfl
    · obtain rfl : tag = u.tag := hlive
      cases u with
      | none | ttlStr _ _ => exact Or.inl rfl
      | int _ | str _ => exact Or.inr rfl
  · show (o.faulty || false || _) = false
    rw [hfaulty, hsome]
    rfl

/-- An operation that moves nothing keeps the slots clean. -/
theorem clean_step {selfMove : Bytes → Bytes} {fuel : Nat} (h : Clean shared hashInt hashStr t)
    {a : Action} (hmoves : MovesNothing shared hashInt hashStr t a) {t' : Slots}
    (hstep : step shared hashInt hashStr selfMove fuel t a = some t') :
    Clean shared hashInt hashStr t' := by
  cases a with
  | addOrFind key =>
    obtain ⟨⟨t₁, it, isNew⟩, hadd, rfl⟩ := Option.map_eq_some_iff.mp hstep
    exact (clean_addOrFind h hmoves hadd).1
  | addOrUpdate key obj expireAtMs =>
    obtain ⟨r, hupdate, rfl⟩ := Option.map_eq_some_iff.mp hstep
    obtain ⟨⟨t₁, it, isNew⟩, hadd, rfl⟩ := Option.map_eq_some_iff.mp hupdate
    obtain ⟨hclean, hnew⟩ := clean_addOrFind h (fun hnone => (hmoves hnone).1) hadd
    cases isNew with
    | false => exact hclean
    | true =>
      obtain ⟨hnone, hslot, hempty⟩ := hnew rfl
      obtain ⟨-, hreadable, hsome, hshared⟩ := hmoves hnone
      have hsound := ((hclean.seg it.segId).slots (it.bucketId, it.slotId)).sound
      rw [hslot] at hsound
      obtain ⟨hkey, hkeySound⟩ := cleanKey_updateExpire hshared selfMove key
      obtain ⟨hvalue, hvalueSound⟩ := cleanValue_assign hempty hsound.2 hreadable hsome
      have hwritten : CleanSlot (true, updateExpire shared selfMove expireAtMs (.ofString key),
          (placeOf shared hashInt hashStr t key).2.2.assign shared ⟨obj, false⟩) :=
        ⟨fun _ => ⟨hkey, hvalue⟩, nofun, hkeySound, hvalueSound⟩
      exact clean_modifyAt hclean hslot (updateExpire shared selfMove expireAtMs)
        (fun second => second.assign shared ⟨obj, false⟩) hwritten
  | setString key value =>
    cases hstep
    unfold setString
    split
    · rename_i it hfind
      obtain ⟨-, -, -, hbusy, -⟩ := findInternal_some h hfind
      have hslot := (h.seg it.segId).slots (it.bucketId, it.slotId)
      refine clean_modifyAt h (Prod.ext hbusy rfl) _ _
        ⟨fun _ => ⟨(hslot.busy hbusy).1, Or.inr rfl⟩, nofun, hslot.sound.1, ?_⟩
      show (_ || !_) = false
      rw [hslot.sound.2, hmoves it hfind]
      rfl
    · exact h
  | del key =>
    cases hstep
    unfold del
    split
    · rename_i it hfind
      obtain ⟨-, -, hslot, hbusy, -⟩ := findInternal_some h hfind
      exact clean_eraseIt h hslot hbusy
    · exact h

end Clean

/-- **When a key that `AddOrFind` creates starts empty**: in every run whose operations move nothing
    and access only what is alive, and in every state of it where the key has a place. -/
theorem startsEmpty_of_movesNothing (shared : Bool) (hashInt : Int64 → UInt64)
    (hashStr : Bytes → UInt64) (selfMove : Bytes → Bytes) (fuel : Nat) (as : List Action)
    (hmoves : Along (step shared hashInt hashStr selfMove fuel)
      (MovesNothing shared hashInt hashStr) (new shared hashInt hashStr) as) (t : Slots)
    (hrun : run (step shared hashInt hashStr selfMove fuel)
      (new shared hashInt hashStr) as = some t)
    (key : Bytes) (habsent : ¬ Holds t key)
    (hplace : MovesNothing shared hashInt hashStr t (.addOrFind key)) :
    StartsEmpty shared hashInt hashStr t key := by
  have hclean : Clean shared hashInt hashStr t :=
    inv_run (fun _ _ _ h hm hs => clean_step h hm hs) clean_new hmoves hrun
  have hnone := findInternal_eq_none hclean habsent
  intro n
  obtain ⟨t', it, hadd, hentry, -⟩ := newEntry_of_place hclean hnone (hplace hnone) n
  exact ⟨t', it, hadd, hentry⟩

/-- A hash that takes the home bucket from the first byte of a string, and the fingerprint from the
    second. -/
def hashBytes : Bytes → UInt64
  | [home, fp] => home.toUInt64 <<< 8 ||| fp.toUInt64
  | _ => 0

/-- A key that has a value, one with a number and an expiry, and one that was erased; then a new key
    of the bucket that holds the first two. -/
def addThree : List Action :=
  [.addOrFind [1, 0], .setString [1, 0] (text "v"), .addOrUpdate [1, 1] ⟨.int, .int 7⟩ 5,
    .addOrFind [3, 0], .del [3, 0]]

theorem startsEmpty_addThree : ∃ t,
    run (step true (fun _ => 0) hashBytes id 1) (new true (fun _ => 0) hashBytes) addThree =
      some t ∧
      StartsEmpty true (fun _ => 0) hashBytes t [1, 2] := by
  have hmoves : Along (step true (fun _ => 0) hashBytes id 1)
      (MovesNothing true (fun _ => 0) hashBytes) (new true (fun _ => 0) hashBytes) addThree := by
    decide +kernel
  have hreads : (run (step true (fun _ => 0) hashBytes id 1) (new true (fun _ => 0) hashBytes)
      addThree).any fun t => !(decide (Holds t [1, 2])) &&
        decide (HasPlace true (fun _ => 0) hashBytes t [1, 2]) := by decide +kernel
  obtain ⟨t, hrun, hread⟩ := (Option.any_eq_true _ _).mp hreads
  rw [Bool.and_eq_true, Bool.not_eq_true', decide_eq_false_iff_not, decide_eq_true_eq] at hread
  exact ⟨t, hrun, startsEmpty_of_movesNothing _ _ _ id 1 _ hmoves t hrun _ hread.1 fun _ => hread.2⟩

/-- A key of bucket 2 with a value, and keys of bucket 1 until both buckets are full. -/
def fillBuckets : List Action :=
  [.addOrFind [2, 0], .setString [2, 0] (text "v")] ++
    (List.range 27).map fun i => .addOrFind [1, i.toUInt8]

/-- One more key of bucket 1 displaces the key of bucket 2, and finds its value.  And a key that
    comes to the slot of an erased one is assigned to a string that was destroyed. -/
theorem not_startsEmpty_reused :
    (∃ t, run (step true (fun _ => 0) hashBytes id 1) (new true (fun _ => 0) hashBytes)
        fillBuckets = some t ∧
      ¬ Holds t [1, 27] ∧ ¬ StartsEmpty true (fun _ => 0) hashBytes t [1, 27]) ∧
    ∃ t, run (step true (fun _ => 0) hashBytes id 1) (new true (fun _ => 0) hashBytes)
        [.addOrFind [1, 0], .del [1, 0]] = some t ∧
      ¬ Holds t [1, 1] ∧ ¬ StartsEmpty true (fun _ => 0) hashBytes t [1, 1] := by
  constructor
  · have hreads : (run (step true (fun _ => 0) hashBytes id 1) (new true (fun _ => 0) hashBytes)
        fillBuckets).any fun t => !(decide (Holds t [1, 27])) &&
          (addOrFind true (fun _ => 0) hashBytes 1 t [1, 27]).any fun r =>
            ((r.1.seg r.2.1.segId).raw (r.2.1.bucketId, r.2.1.slotId)).2.2 =
              .ofString (text "v") := by
      decide +kernel
    obtain ⟨t, hrun, hread⟩ := (Option.any_eq_true _ _).mp hreads
    rw [Bool.and_eq_true, Bool.not_eq_true', decide_eq_false_iff_not] at hread
    refine ⟨t, hrun, hread.1, fun hempty => ?_⟩
    obtain ⟨t', it, hadd, hentry⟩ := hempty 0
    have hvalue := hread.2
    rw [show 0 + 1 = 1 from rfl] at hadd
    rw [hadd, Option.any_some, decide_eq_true_eq] at hvalue
    have htag := hentry.value
    rw [hvalue] at htag
    cases htag
  · have hreads : (run (step true (fun _ => 0) hashBytes id 1) (new true (fun _ => 0) hashBytes)
        [.addOrFind [1, 0], .del [1, 0]]).any fun t => !(decide (Holds t [1, 1])) &&
          (addOrFind true (fun _ => 0) hashBytes 1 t [1, 1]).any fun r =>
            !(decide (Sound r.1)) := by
      decide +kernel
    obtain ⟨t, hrun, hread⟩ := (Option.any_eq_true _ _).mp hreads
    rw [Bool.and_eq_true, Bool.not_eq_true', decide_eq_false_iff_not] at hread
    refine ⟨t, hrun, hread.1, fun hempty => ?_⟩
    obtain ⟨t', it, hadd, hentry⟩ := hempty 0
    have hfaulty := hread.2
    rw [show 0 + 1 = 1 from rfl] at hadd
    rw [hadd, Option.any_some, Bool.not_eq_true', decide_eq_false_iff_not] at hfaulty
    exact hfaulty hentry.sound

end StorageEngine.Sharding.Prime
