/-
  StorageEngine/DashTable/Bucket.lean
  ===================================
  **Buckets of the dash table** (`dash_internal.hpp`, `SlotBitmap`, `BucketBase`
  and `Segment::Bucket`).

  A bucket is `kSlotNum` slots described by two 32-bit words (busy and probe
  bits), one fingerprint byte per slot, and a small directory of references into
  the stash buckets: four fingerprints, a presence byte, a packed byte of 2-bit
  stash positions, a byte of probe flags and an overflow counter.

  The words are modelled bit for bit; the C arrays are functions of the index.
  Above the words each bucket is read through two partial functions, `cell` (the
  entry in a busy slot) and `refCell` (an occupied stash reference), and every
  operation gets one lemma saying how it changes them.  No later file looks at
  the bits again.
-/
import StorageEngine.BitMask
import StorageEngine.SlotStore
import Mathlib.Data.List.Find
import Mathlib.Logic.Function.Basic

namespace StorageEngine.DashTable

open StorageEngine

/-! ### Template parameters -/

/-- The template parameters of `Segment` and `DashTable`: the policy's numbers
    and functions, and the C++ assignments of the key and value types.

    `assignKey d s` is the content of `d` after `d = std::move(s)` and `movedKey s`
    is what the assignment leaves behind in `s`.  The bounds are the
    `static_assert`s of the source. -/
structure Policy (K V : Type) where
  kSlotNum : Nat
  kBucketNum : Nat
  hashFn : K → UInt64
  equal : K → K → Bool
  destroyKey : K → K
  destroyValue : V → V
  assignKey : K → K → K
  movedKey : K → K
  assignValue : V → V → V
  movedValue : V → V
  kSlotNum_pos : 0 < kSlotNum
  kSlotNum_le : kSlotNum ≤ 16
  kBucketNum_pos : 0 < kBucketNum
  kTotalBuckets_lt : kBucketNum + 4 < 0xFF

/-- Key and value types whose move-assignment transfers the value, and a policy
    whose `Equal` is equality of keys. -/
class Policy.Lawful {K V : Type} (p : Policy K V) : Prop where
  assignKey_eq : ∀ d s, p.assignKey d s = s
  assignValue_eq : ∀ d s, p.assignValue d s = s
  equal_iff : ∀ a b, p.equal a b = true ↔ a = b

/-- The part of `Policy.Lawful` that segments rely on: they never call `Equal`, the
    caller hands them a predicate. -/
class Policy.Movable {K V : Type} (p : Policy K V) : Prop where
  assignKey_eq : ∀ d s, p.assignKey d s = s
  assignValue_eq : ∀ d s, p.assignValue d s = s

/-- The part that the structure of a table relies on: a lookup may find another key, but
    one with the same hash. -/
class Policy.Coherent {K V : Type} (p : Policy K V) : Prop extends p.Movable where
  hashFn_eq : ∀ a b, p.equal a b = true → p.hashFn a = p.hashFn b

instance {K V : Type} (p : Policy K V) [p.Lawful] : p.Coherent where
  assignKey_eq := Policy.Lawful.assignKey_eq
  assignValue_eq := Policy.Lawful.assignValue_eq
  hashFn_eq a b h := congrArg p.hashFn ((Policy.Lawful.equal_iff a b).mp h)

theorem Policy.equal_self {K V : Type} (p : Policy K V) [p.Lawful] (a : K) : p.equal a a = true :=
  (Policy.Lawful.equal_iff a a).mpr rfl

theorem Policy.eq_of_equal {K V : Type} {p : Policy K V} [p.Lawful] {a b : K}
    (h : p.equal a b = true) : a = b :=
  (Policy.Lawful.equal_iff a b).mp h

attribute [simp] Policy.Movable.assignKey_eq Policy.Movable.assignValue_eq

/-- The `BasicDashPolicy` of `db_table_perf.cpp`, with `uint64_t` keys and values and
    the identity for `std::hash<uint64_t>`. -/
def dash64 : Policy UInt64 UInt64 where
  kSlotNum := 14
  kBucketNum := 56
  hashFn v := v
  equal u v := u == v
  destroyKey u := u
  destroyValue u := u
  assignKey _ s := s
  movedKey s := s
  assignValue _ s := s
  movedValue s := s
  kSlotNum_pos := by decide
  kSlotNum_le := by decide
  kBucketNum_pos := by decide
  kTotalBuckets_lt := by decide

instance : dash64.Lawful where
  assignKey_eq _ _ := rfl
  assignValue_eq _ _ := rfl
  equal_iff _ _ := beq_iff_eq

/-- One slot to a bucket and two regular buckets to a segment. -/
def narrow64 : Policy UInt64 UInt64 :=
  { dash64 with
    kSlotNum := 1
    kBucketNum := 2
    kSlotNum_pos := by decide
    kSlotNum_le := by decide
    kBucketNum_pos := by decide
    kTotalBuckets_lt := by decide }

instance : narrow64.Lawful where
  assignKey_eq _ _ := rfl
  assignValue_eq _ _ := rfl
  equal_iff _ _ := beq_iff_eq

/-! ### SlotBitmap -/

/-- `SlotBitmap`: `busy` is `val_[0].d`, `probe` is `val_[1].d`. -/
@[ext] structure SlotBitmap where
  busy : BitVec 32 := 0#32
  probe : BitVec 32 := 0#32

namespace SlotBitmap

/-- `(1u << NUM_SLOTS) - 1`. -/
def kAllocMask (n : Nat) : BitVec 32 := (1#32 <<< n) - 1#32

def getProbe (n : Nat) (b : SlotBitmap) (probe : Bool) : BitVec 32 :=
  (b.probe &&& kAllocMask n) ^^^ (if probe then 0#32 else kAllocMask n)

def getBusy (b : SlotBitmap) : BitVec 32 := b.busy

def size (b : SlotBitmap) : Nat := b.busy.cpop.toNat

def isFull (n : Nat) (b : SlotBitmap) : Bool := b.size == n

def findEmptySlot (b : SlotBitmap) : Nat := (~~~b.getBusy).ctz.toNat

def clearSlots (b : SlotBitmap) (mask : BitVec 32) : SlotBitmap :=
  { busy := b.busy &&& ~~~mask, probe := b.probe &&& ~~~mask }

def clear (_ : SlotBitmap) : SlotBitmap := { busy := 0#32, probe := 0#32 }

def clearSlot (b : SlotBitmap) (index : Nat) : SlotBitmap :=
  let mask := 1#32 <<< index
  { busy := b.busy &&& ~~~mask, probe := b.probe &&& ~~~mask }

def setSlot (b : SlotBitmap) (index : Nat) (probe : Bool) : SlotBitmap :=
  { busy := b.busy ||| 1#32 <<< index
    probe := b.probe ||| (if probe then 1#32 else 0#32) <<< index }

/-- Bitmaps as the table builds them: only the first `n` slots are ever busy and
    only busy slots carry a probe bit. -/
structure WF (n : Nat) (b : SlotBitmap) : Prop where
  busy_lt : ∀ j, b.busy.getLsbD j = true → j < n
  probe_busy : ∀ j, b.probe.getLsbD j = true → b.busy.getLsbD j = true

theorem wf_empty (n : Nat) : WF n {} := ⟨by simp, by simp⟩

theorem getLsbD_kAllocMask {n : Nat} (hn : n ≤ 16) (j : Nat) :
    (kAllocMask n).getLsbD j = decide (j < n) :=
  BitMask.getLsbD_low_mask (by omega) j

/-- `GetProbe(true)` selects the probing slots, `GetProbe(false)` the others —
    busy or not. -/
theorem getLsbD_getProbe {n : Nat} (hn : n ≤ 16) (b : SlotBitmap) (probe : Bool) (j : Nat) :
    (b.getProbe n probe).getLsbD j = (decide (j < n) && (b.probe.getLsbD j == probe)) := by
  unfold getProbe
  rw [BitVec.getLsbD_xor, BitVec.getLsbD_and, getLsbD_kAllocMask hn]
  cases probe with
  | true => simp [Bool.and_comm]
  | false =>
    simp only [Bool.false_eq_true, if_false, getLsbD_kAllocMask hn]
    cases b.probe.getLsbD j <;> cases decide (j < n) <;> rfl

theorem isFull_iff {n : Nat} {b : SlotBitmap} (h : b.WF n) :
    b.isFull n = true ↔ ∀ j < n, b.busy.getLsbD j = true := by
  simp only [isFull, size, beq_iff_eq]
  exact BitMask.toNat_cpop_eq_iff h.busy_lt

/-- The slot `FindEmptySlot` returns is free and in range, unless all are busy. -/
theorem findEmptySlot_spec {n : Nat} (hn : n ≤ 16) {b : SlotBitmap} (h : b.WF n)
    (hfull : b.isFull n = false) :
    b.findEmptySlot < n ∧ b.busy.getLsbD b.findEmptySlot = false := by
  have hex : ∃ j < n, b.busy.getLsbD j = false := by
    by_contra hall
    have : b.isFull n = true := (isFull_iff h).mpr fun j hj => by
      by_contra hj'
      exact hall ⟨j, hj, by simpa using hj'⟩
    simp [this] at hfull
  obtain ⟨j, hj, hfree⟩ := hex
  have hset : (~~~b.busy).getLsbD j = true := by
    rw [BitVec.getLsbD_not, hfree]
    simpa using (by omega : j < 32)
  have hle := BitMask.ctz_le hset
  have hbit := BitMask.getLsbD_ctz hset
  rw [BitVec.getLsbD_not] at hbit
  refine ⟨Nat.lt_of_le_of_lt hle hj, ?_⟩
  simpa [findEmptySlot, getBusy] using (Bool.and_eq_true_iff.mp hbit).2

theorem getLsbD_busy_setSlot (b : SlotBitmap) {k : Nat} (hk : k < 32) (probe : Bool) (j : Nat) :
    (b.setSlot k probe).busy.getLsbD j = (b.busy.getLsbD j || decide (j = k)) :=
  BitMask.getLsbD_or_bit b.busy hk j

theorem getLsbD_probe_setSlot (b : SlotBitmap) {k : Nat} (hk : k < 32) (probe : Bool) (j : Nat) :
    (b.setSlot k probe).probe.getLsbD j = (b.probe.getLsbD j || (probe && decide (j = k))) := by
  cases probe with
  | true => simpa [setSlot] using BitMask.getLsbD_or_bit b.probe hk j
  | false => simp [setSlot]

theorem WF.setSlot {n : Nat} (hn : n ≤ 16) {b : SlotBitmap} (h : b.WF n) {k : Nat} (hk : k < n)
    (probe : Bool) : (b.setSlot k probe).WF n := by
  have hk' : k < 32 := by omega
  constructor
  · intro j hj
    rw [getLsbD_busy_setSlot b hk', Bool.or_eq_true, decide_eq_true_eq] at hj
    rcases hj with hj | rfl
    · exact h.busy_lt j hj
    · exact hk
  · intro j hj
    rw [getLsbD_probe_setSlot b hk', Bool.or_eq_true, Bool.and_eq_true, decide_eq_true_eq] at hj
    rw [getLsbD_busy_setSlot b hk', Bool.or_eq_true, decide_eq_true_eq]
    rcases hj with hj | ⟨_, hj⟩
    · exact Or.inl (h.probe_busy j hj)
    · exact Or.inr hj

theorem WF.clearSlots {n : Nat} {b : SlotBitmap} (h : b.WF n) (mask : BitVec 32) :
    (b.clearSlots mask).WF n := by
  constructor
  · intro j hj
    simp only [SlotBitmap.clearSlots, BitVec.getLsbD_and, Bool.and_eq_true] at hj
    exact h.busy_lt j hj.1
  · intro j hj
    simp only [SlotBitmap.clearSlots, BitVec.getLsbD_and, Bool.and_eq_true] at hj ⊢
    exact ⟨h.probe_busy j hj.1, hj.2⟩

end SlotBitmap

/-! ### Stash references -/

/-- The stash reference members of `BucketBase`: `stash_arr_`, `stash_busy_`,
    `stash_pos_`, `stash_probe_mask_` and `overflow_count_`. -/
@[ext] structure StashPtrs where
  stashArr : Nat → UInt8 := fun _ => 0
  stashBusy : BitVec 8 := 0#8
  stashPos : BitVec 8 := 0#8
  stashProbeMask : BitVec 8 := 0#8
  overflowCount : BitVec 8 := 0#8

namespace StashPtrs

def kStashFpLen : Nat := 4

def kStashPresentBit : BitVec 8 := 1#8 <<< 4

/-- `(stash_pos_ >> (i * 2)) & 3`. -/
def posAt (b : StashPtrs) (i : Nat) : Nat := ((b.stashPos >>> (i * 2)) &&& 3#8).toNat

def clearStashPtrs (b : StashPtrs) : StashPtrs :=
  { b with stashBusy := 0#8, stashPos := 0#8, stashProbeMask := 0#8, overflowCount := 0#8 }

def hasStash (b : StashPtrs) : Bool := (b.stashBusy &&& kStashPresentBit) != 0#8

def hasStashOverflow (b : StashPtrs) : Bool := 0#8 < b.overflowCount

/-- The condition under which `IterateStash` looks at reference `i`. -/
def matchesAt (b : StashPtrs) (fp : UInt8) (isProbe : Bool) (i : Nat) : Bool :=
  let om := if isProbe then b.stashProbeMask else ~~~b.stashProbeMask
  b.stashBusy.getLsbD i && (b.stashArr i == fp) && om.getLsbD i

/-- `IterateStash`: the first reference with the fingerprint on which `func`
    answers, with its stash position. -/
def iterateStash {σ : Type} (b : StashPtrs) (fp : UInt8) (isProbe : Bool)
    (func : Nat → Nat → Option σ) : Option (Nat × σ) :=
  (List.range kStashFpLen).findSome? fun i =>
    if b.matchesAt fp isProbe i then (func i (b.posAt i)).map fun sid => (b.posAt i, sid) else none

/-- `SetStash`, `none` when all four references are taken. -/
def setStash (b : StashPtrs) (fp : UInt8) (stashPos : Nat) (probe : Bool) : Option StashPtrs :=
  let freeSlot := (~~~b.stashBusy).ctz.toNat
  if kStashFpLen ≤ freeSlot then none
  else some
    { b with
      stashArr := Function.update b.stashArr freeSlot fp
      stashBusy := b.stashBusy ||| 1#8 <<< freeSlot
      stashProbeMask := b.stashProbeMask ||| (if probe then 1#8 else 0#8) <<< freeSlot
      stashPos := (b.stashPos &&& ~~~(3#8 <<< (freeSlot * 2))) |||
        (BitVec.ofNat 8 stashPos <<< (freeSlot * 2)) }

/-- Dropping reference `i`, as the callback of `ClearStash` does. -/
def dropRef (b : StashPtrs) (i : Nat) : StashPtrs :=
  { b with
    stashBusy := b.stashBusy &&& ~~~(1#8 <<< i)
    stashProbeMask := b.stashProbeMask &&& ~~~(1#8 <<< i)
    stashPos := b.stashPos &&& ~~~(3#8 <<< (i * 2)) }

/-- `ClearStash`, `none` when no reference with the fingerprint and position is
    recorded. -/
def clearStash (b : StashPtrs) (fp : UInt8) (stashPos : Nat) (probe : Bool) : Option StashPtrs :=
  match b.iterateStash fp probe fun i pos => if pos = stashPos then some i else none with
  | some (_, i) => some (b.dropRef i)
  | none => none

end StashPtrs

/-! ### Bucket -/

/-- `Segment::Bucket` with its `BucketBase`. -/
structure Bucket (K V : Type) where
  slotb : SlotBitmap := {}
  fingerArr : Nat → UInt8 := fun _ => 0
  stash : StashPtrs := {}
  key : Nat → K
  value : Nat → V

namespace Bucket

variable {K V : Type} (p : Policy K V)

def isFull (b : Bucket K V) : Bool := b.slotb.isFull p.kSlotNum

def size (b : Bucket K V) : Nat := b.slotb.size

def getProbe (b : Bucket K V) (probe : Bool) : BitVec 32 := b.slotb.getProbe p.kSlotNum probe

def getBusy (b : Bucket K V) : BitVec 32 := b.slotb.getBusy

def isBusy (b : Bucket K V) (slot : Nat) : Bool := b.getBusy.getLsbD slot

/-- The byte at offset `i` of the 16-byte load of `CompareFP`.  The load starts
    at `finger_arr_` and runs on into the stash members behind it. -/
def lane (b : Bucket K V) (i : Nat) : UInt8 :=
  let n := p.kSlotNum
  if i < n then b.fingerArr i
  else if i < n + 4 then b.stash.stashArr (i - n)
  else if i = n + 4 then UInt8.ofBitVec b.stash.stashBusy
  else if i = n + 5 then UInt8.ofBitVec b.stash.stashPos
  else if i = n + 6 then UInt8.ofBitVec b.stash.stashProbeMask
  else if i = n + 7 then UInt8.ofBitVec b.stash.overflowCount
  else 0  -- past the metadata; only reached for `kSlotNum < 8`

/-- `CompareFP`: bit `i` of the move mask says whether lane `i` equals `fp`. -/
def compareFP (b : Bucket K V) (fp : UInt8) : BitVec 32 :=
  (List.range 16).foldl (fun m i => if b.lane p i == fp then m ||| 1#32 <<< i else m) 0#32

/-- `BucketBase::Find`. -/
def find (b : Bucket K V) (fp : UInt8) (probe : Bool) : BitVec 32 :=
  (b.compareFP p fp &&& b.getBusy) &&& b.getProbe p probe

/-- `FindByFp`: the loop starts at the first candidate and shifts the mask along. -/
def findByFp (b : Bucket K V) (fp : UInt8) (probe : Bool) (pred : K → Bool) : Option Nat :=
  let mask := b.find p fp probe
  if mask = 0#32 then none
  else
    let delta := mask.ctz.toNat
    (List.range' delta (p.kSlotNum - delta)).find? fun i =>
      (mask >>> delta).getLsbD (i - delta) && pred (b.key i)

/-- `Bucket::Insert` with `SetHash`. -/
def insert (b : Bucket K V) (slot : Nat) (u : K) (v : V) (fp : UInt8) (probe : Bool) :
    Bucket K V :=
  { b with
    key := Function.update b.key slot (p.assignKey (b.key slot) u)
    value := Function.update b.value slot (p.assignValue (b.value slot) v)
    fingerArr := Function.update b.fingerArr slot fp
    slotb := b.slotb.setSlot slot probe }

/-- `TryInsertToBucket`; `none` stands for the return value `-1`. -/
def tryInsertToBucket (b : Bucket K V) (u : K) (v : V) (fp : UInt8) (probe : Bool) :
    Bucket K V × Option Nat :=
  if b.isFull p then (b, none)
  else
    let slot := b.slotb.findEmptySlot
    (b.insert p slot u v fp probe, some slot)

/-- What a move-assignment out of `slot` leaves in the bucket. -/
def moveOut (b : Bucket K V) (slot : Nat) : Bucket K V :=
  { b with
    key := Function.update b.key slot (p.movedKey (b.key slot))
    value := Function.update b.value slot (p.movedValue (b.value slot)) }

/-- `BucketBase::Delete`. -/
def delete (b : Bucket K V) (slot : Nat) : Bucket K V :=
  { b with slotb := b.slotb.clearSlot slot }

def clearSlots (b : Bucket K V) (mask : BitVec 32) : Bucket K V :=
  { b with slotb := b.slotb.clearSlots mask }

/-- The slots `ForEachSlot` calls back on, in order. -/
def busySlots (b : Bucket K V) : List Nat :=
  (List.range p.kSlotNum).filter fun j => b.getBusy.getLsbD j

/-! ### Reading a bucket: entries -/

/-- What a busy slot holds. -/
@[ext] structure Entry (K V : Type) where
  key : K
  value : V
  fp : UInt8
  probe : Bool

/-- The entry in a slot, if it is busy. -/
def cell (b : Bucket K V) (j : Nat) : Option (Entry K V) :=
  if b.slotb.busy.getLsbD j then
    some ⟨b.key j, b.value j, b.fingerArr j, b.slotb.probe.getLsbD j⟩
  else none

theorem cell_eq_none {b : Bucket K V} {j : Nat} :
    b.cell j = none ↔ b.slotb.busy.getLsbD j = false := by
  simp [cell]

theorem cell_isSome {b : Bucket K V} {j : Nat} :
    (b.cell j).isSome = b.slotb.busy.getLsbD j := by
  unfold cell
  cases b.slotb.busy.getLsbD j <;> rfl

theorem busy_of_cell {b : Bucket K V} {j : Nat} {e : Entry K V} (h : b.cell j = some e) :
    b.slotb.busy.getLsbD j = true := by
  rw [← cell_isSome, h]
  rfl

theorem cell_of_busy {b : Bucket K V} {j : Nat} (h : b.slotb.busy.getLsbD j = true) :
    b.cell j = some ⟨b.key j, b.value j, b.fingerArr j, b.slotb.probe.getLsbD j⟩ := by
  simp [cell, h]

theorem key_of_cell {b : Bucket K V} {j : Nat} {e : Entry K V} (h : b.cell j = some e) :
    b.key j = e.key ∧ b.value j = e.value ∧ b.fingerArr j = e.fp ∧
      b.slotb.probe.getLsbD j = e.probe := by
  rw [cell_of_busy (busy_of_cell h), Option.some_inj] at h
  subst h
  exact ⟨rfl, rfl, rfl, rfl⟩

/-- A bucket is full when no slot is free. -/
theorem isFull_iff {b : Bucket K V} (h : b.slotb.WF p.kSlotNum) :
    b.isFull p = true ↔ ∀ j < p.kSlotNum, b.cell j ≠ none := by
  rw [isFull, SlotBitmap.isFull_iff h]
  simp [cell_eq_none]

theorem mem_busySlots {b : Bucket K V} (h : b.slotb.WF p.kSlotNum) {j : Nat} :
    j ∈ b.busySlots p ↔ b.cell j ≠ none := by
  simp only [busySlots, List.mem_filter, List.mem_range, getBusy, SlotBitmap.getBusy, ne_eq,
    cell_eq_none, Bool.not_eq_false, and_iff_right_iff_imp]
  exact h.busy_lt j

theorem nodup_busySlots (b : Bucket K V) : (b.busySlots p).Nodup :=
  List.nodup_range.filter _

section Movable

variable [p.Movable]

theorem cell_insert {b : Bucket K V} (hwf : b.slotb.WF p.kSlotNum) {k : Nat} (hk : k < p.kSlotNum)
    (hfree : b.cell k = none) (u : K) (v : V) (fp : UInt8) (probe : Bool) :
    (b.insert p k u v fp probe).cell = Function.update b.cell k (some ⟨u, v, fp, probe⟩) := by
  have hk' : k < 32 := Nat.lt_of_lt_of_le hk (Nat.le_trans p.kSlotNum_le (by decide))
  funext j
  by_cases hj : j = k
  · subst hj
    have hbusy := cell_eq_none.mp hfree
    have hprobe : b.slotb.probe.getLsbD j = false := by
      by_contra hp
      have := hwf.probe_busy j (by simpa using hp)
      simp [hbusy] at this
    simp [cell, insert, SlotBitmap.getLsbD_busy_setSlot _ hk',
      SlotBitmap.getLsbD_probe_setSlot _ hk', hprobe]
  · simp [cell, insert, SlotBitmap.getLsbD_busy_setSlot _ hk',
      SlotBitmap.getLsbD_probe_setSlot _ hk', hj]

/-- What `TryInsertToBucket` can do: nothing, when the bucket is full, or fill one
    free slot. -/
theorem tryInsertToBucket_cases {b : Bucket K V} (hwf : b.slotb.WF p.kSlotNum)
    (u : K) (v : V) (fp : UInt8) (probe : Bool) :
    (b.isFull p = true ∧ b.tryInsertToBucket p u v fp probe = (b, none)) ∨
    (b.isFull p = false ∧ ∃ j < p.kSlotNum, b.cell j = none ∧
      ∃ b', b.tryInsertToBucket p u v fp probe = (b', some j) ∧
        b'.cell = Function.update b.cell j (some ⟨u, v, fp, probe⟩) ∧
        b'.stash = b.stash ∧ b'.slotb.WF p.kSlotNum) := by
  unfold tryInsertToBucket
  cases hfull : b.isFull p with
  | true => exact Or.inl ⟨rfl, by simp⟩
  | false =>
    obtain ⟨hlt, hfree⟩ := SlotBitmap.findEmptySlot_spec p.kSlotNum_le hwf hfull
    have hnone := cell_eq_none.mpr hfree
    exact Or.inr ⟨rfl, _, hlt, hnone, _, by simp, cell_insert p hwf hlt hnone u v fp probe, rfl,
      hwf.setSlot p.kSlotNum_le hlt probe⟩

end Movable

theorem cell_clearSlots (b : Bucket K V) (mask : BitVec 32) (j : Nat) :
    (b.clearSlots mask).cell j = if mask.getLsbD j then none else b.cell j := by
  have hclear : ∀ x : BitVec 32, (x &&& ~~~mask).getLsbD j = (x.getLsbD j && !mask.getLsbD j) := by
    intro x
    rw [BitVec.getLsbD_and, BitVec.getLsbD_not]
    by_cases hj : j < 32
    · simp [hj]
    · simp [BitVec.getLsbD_of_ge x j (by omega)]
  simp only [cell, clearSlots, SlotBitmap.clearSlots, hclear]
  cases mask.getLsbD j <;> simp

theorem cell_delete {k : Nat} (hk : k < 32) (b : Bucket K V) :
    (b.delete k).cell = Function.update b.cell k none := by
  funext j
  have hclear := cell_clearSlots b (1#32 <<< k) j
  rw [BitMask.getLsbD_one_shiftLeft hk] at hclear
  rw [show (b.delete k).cell j = (b.clearSlots (1#32 <<< k)).cell j from rfl, hclear]
  by_cases hj : j = k <;> simp [hj]

/-- Moving a slot's content out only matters for that slot. -/
theorem cell_moveOut_of_ne (b : Bucket K V) {k j : Nat} (hj : j ≠ k) :
    (b.moveOut p k).cell j = b.cell j := by
  simp [cell, moveOut, hj]

/-! ### Lookup by fingerprint -/

theorem getLsbD_foldl_mark (q : Nat → Bool) (l : List Nat) (hl : ∀ i ∈ l, i < 32) (m : BitVec 32)
    (j : Nat) :
    (l.foldl (fun m i => if q i then m ||| 1#32 <<< i else m) m).getLsbD j =
      (m.getLsbD j || (decide (j ∈ l) && q j)) := by
  induction l generalizing m with
  | nil => simp
  | cons i l ih =>
    rw [List.foldl_cons, ih (fun i hi => hl i (List.mem_cons_of_mem _ hi))]
    have hi : i < 32 := hl i List.mem_cons_self
    by_cases hji : j = i
    · subst hji
      cases hq : q j <;> simp [BitMask.getLsbD_or_bit _ hi]
    · cases hq : q i <;> simp [BitMask.getLsbD_or_bit _ hi, hji]

/-- The candidates of `Find`: the extra lanes of the 16-byte load are dropped by
    the busy mask. -/
theorem getLsbD_find {b : Bucket K V} (hwf : b.slotb.WF p.kSlotNum) (fp : UInt8) (probe : Bool)
    (j : Nat) :
    (b.find p fp probe).getLsbD j =
      (b.slotb.busy.getLsbD j && (b.fingerArr j == fp) && (b.slotb.probe.getLsbD j == probe)) := by
  have hcmp := getLsbD_foldl_mark (fun i => b.lane p i == fp) (List.range 16)
    (by intro i hi; rw [List.mem_range] at hi; omega) 0#32 j
  rw [find, BitVec.getLsbD_and, BitVec.getLsbD_and, compareFP, hcmp, getProbe,
    SlotBitmap.getLsbD_getProbe p.kSlotNum_le]
  cases hbusy : b.slotb.busy.getLsbD j with
  | false => simp [getBusy, SlotBitmap.getBusy, hbusy]
  | true =>
    have hj := hwf.busy_lt j hbusy
    have hj16 : j < 16 := Nat.lt_of_lt_of_le hj p.kSlotNum_le
    simp [getBusy, SlotBitmap.getBusy, hbusy, hj, hj16, lane]

theorem getLsbD_find_iff {b : Bucket K V} (hwf : b.slotb.WF p.kSlotNum) {fp : UInt8} {probe : Bool}
    {j : Nat} : (b.find p fp probe).getLsbD j = true ↔
      ∃ e, b.cell j = some e ∧ e.fp = fp ∧ e.probe = probe := by
  rw [getLsbD_find p hwf]
  constructor
  · intro h
    simp only [Bool.and_eq_true, beq_iff_eq] at h
    exact ⟨_, cell_of_busy h.1.1, h.1.2, h.2⟩
  · rintro ⟨e, he, rfl, rfl⟩
    obtain ⟨_, _, hfp, hprobe⟩ := key_of_cell he
    simp [busy_of_cell he, hfp, hprobe]

/-- `FindByFp` walks exactly the candidate slots, so its answer is the first slot
    that passes both the mask and the predicate. -/
theorem findByFp_eq_find? (b : Bucket K V) (fp : UInt8) (probe : Bool) (pred : K → Bool) :
    b.findByFp p fp probe pred = (List.range' (b.find p fp probe).ctz.toNat
      (p.kSlotNum - (b.find p fp probe).ctz.toNat)).find?
        fun i => (b.find p fp probe).getLsbD i && pred (b.key i) := by
  unfold findByFp
  by_cases hmask : b.find p fp probe = 0#32
  · rw [if_pos hmask, eq_comm, List.find?_eq_none]
    intro i _
    simp [hmask]
  · rw [if_neg hmask]
    apply List.find?_congr
    intro i hi
    have hle : (b.find p fp probe).ctz.toNat ≤ i := (List.mem_range'_1.mp hi).1
    rw [BitVec.getLsbD_ushiftRight, Nat.add_sub_cancel' hle]

theorem findByFp_some {b : Bucket K V} (hwf : b.slotb.WF p.kSlotNum) {fp : UInt8} {probe : Bool}
    {pred : K → Bool} {j : Nat} (h : b.findByFp p fp probe pred = some j) :
    ∃ e, b.cell j = some e ∧ e.fp = fp ∧ e.probe = probe ∧ pred e.key = true := by
  rw [findByFp_eq_find?] at h
  have hj := List.find?_some h
  rw [Bool.and_eq_true, getLsbD_find_iff p hwf] at hj
  obtain ⟨⟨e, he, hfp, hprobe⟩, hpred⟩ := hj
  rw [(key_of_cell he).1] at hpred
  exact ⟨e, he, hfp, hprobe, hpred⟩

theorem findByFp_none {b : Bucket K V} (hwf : b.slotb.WF p.kSlotNum) {fp : UInt8} {probe : Bool}
    {pred : K → Bool} (h : b.findByFp p fp probe pred = none) {j : Nat} {e : Entry K V}
    (he : b.cell j = some e) (hfp : e.fp = fp) (hprobe : e.probe = probe) :
    pred e.key = false := by
  have hbit := (getLsbD_find_iff p hwf).mpr ⟨e, he, hfp, hprobe⟩
  have hj := hwf.busy_lt j (busy_of_cell he)
  have hle := BitMask.ctz_le hbit
  rw [findByFp_eq_find?, List.find?_eq_none] at h
  have hcand := h j (List.mem_range'_1.mpr ⟨hle, by omega⟩)
  rw [hbit, (key_of_cell he).1] at hcand
  simpa using hcand

end Bucket

end StorageEngine.DashTable
