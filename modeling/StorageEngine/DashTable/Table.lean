/-
  StorageEngine/DashTable/Table.lean
  ==================================
  **The dash table** (`dash_table.hpp`, class `DashTable`).

  The directory `segment_` maps the top `global_depth_` bits of a hash to a segment;
  several consecutive entries may point to the same one.  Segments live in a heap
  `Ptr → Segment`, so that the directory can alias them and a write through one entry
  is seen through the others.

  `InsertInternal` loops until the target segment has room.  The loop need not
  terminate (equal hashes fill any number of segments), so it takes fuel; a result of
  `none` means that it has not returned yet.
-/
import StorageEngine.Directory
import StorageEngine.DashTable.SegmentRuns

namespace StorageEngine.DashTable

open StorageEngine

abbrev Ptr := Nat

/-- `DashTable::Iterator` that is not `end()`: `seg_id_`, `bucket_id_`, `slot_id_`. -/
structure TableIter where
  segId : Nat
  bucketId : Nat
  slotId : Nat
deriving DecidableEq, Repr

def TableIter.iter (it : TableIter) : Iter := ⟨it.bucketId, it.slotId⟩

inductive InsertMode where
  | insertIfNotFound
  | forceInsert
deriving DecidableEq, Repr

/-- `DashTable` with its `DashTableBase`.  `segment` is the vector `segment_` of length
    `segmentSize`, and `nextPtr` the next address of the allocator. -/
structure Table (K V : Type) where
  segment : Nat → Ptr
  segmentSize : Nat
  heap : Ptr → Segment K V
  nextPtr : Ptr
  size : Nat
  uniqueSegments : UInt32
  bucketCount : UInt32
  initialDepth : Nat
  globalDepth : Nat

/-! ### Destroying the content of slots -/

namespace Segment

variable {K V : Type} (p : Policy K V)

/-- `DestroyKey(Key(it))` and `DestroyValue(Value(it))`. -/
def destroySlot (s : Segment K V) (it : Iter) : Segment K V :=
  let b := s.bucket it.index
  s.setBucket it.index
    { b with
      key := Function.update b.key it.slot (p.destroyKey (b.key it.slot))
      value := Function.update b.value it.slot (p.destroyValue (b.value it.slot)) }

/-- `TraverseAll`: the iterators handed to the callback. -/
def traverseAll (s : Segment K V) : List Iter :=
  (List.range p.kTotalBuckets).flatMap fun i => ((s.bucket i).busySlots p).map fun j => ⟨i, j⟩

/-- The callback of `DashTable::Clear` on one segment. -/
def destroyAndClear (s : Segment K V) : Segment K V :=
  ((s.traverseAll p).foldl (destroySlot p) s).clear p

end Segment

namespace Table

variable {K V : Type} (p : Policy K V)

/-- `num_buckets()`. -/
def numBuckets : UInt32 := UInt32.ofNat (p.kBucketNum + kStashBucketNum)

/-- `*segment_[sid]`. -/
def seg (t : Table K V) (sid : Nat) : Segment K V := t.heap (t.segment sid)

/-- Writing through `segment_[sid]`. -/
def setSeg (t : Table K V) (sid : Nat) (s : Segment K V) : Table K V :=
  { t with heap := Function.update t.heap (t.segment sid) s }

section Construct

variable [Inhabited K] [Inhabited V]

def constructSegment (t : Table K V) (depth id : Nat) : Table K V × Ptr :=
  ({ t with
      heap := Function.update t.heap t.nextPtr (Segment.new depth id)
      nextPtr := t.nextPtr + 1
      bucketCount := t.bucketCount + numBuckets p },
    t.nextPtr)

/-- `segment_[i] = ConstructSegment(global_depth_, i)`. -/
def constructAt (t : Table K V) (i : Nat) : Table K V :=
  let (t, ptr) := t.constructSegment p t.globalDepth i
  { t with segment := Function.update t.segment i ptr }

/-- The members after the initializers and `segment_.resize(unique_segments_)`. -/
def unfilled (capacityLog : Nat) : Table K V where
  segment _ := 0
  segmentSize := 1 <<< capacityLog
  heap _ := Segment.new 0 0
  nextPtr := 0
  size := 0
  uniqueSegments := UInt32.ofNat (1 <<< capacityLog)
  bucketCount := 0
  initialDepth := capacityLog
  globalDepth := capacityLog

/-- The constructor. -/
def new (capacityLog : Nat) : Table K V :=
  (List.range (1 <<< capacityLog)).foldl (constructAt p) (unfilled capacityLog)

end Construct

def segmentId (t : Table K V) (hash : UInt64) : Nat :=
  if t.globalDepth ≠ 0 then hash.toNat >>> (64 - t.globalDepth) % 2 ^ 32 else 0

def nextSeg (t : Table K V) (sid : Nat) : Nat :=
  sid + 2 ^ (t.globalDepth - (t.seg sid).localDepth)

/-- `IterateDistinct`: the directory indices it visits. -/
def iterateDistinct (t : Table K V) : List Nat :=
  Directory.visits t.segmentSize t.globalDepth t.segment (fun ptr => (t.heap ptr).localDepth) 0

/-! ### Lookup -/

/-- `EqPred`. -/
def eqPred (key : K) : K → Bool := fun probe => p.equal probe key

def findFirst (t : Table K V) (hash : UInt64) (pred : K → Bool) : Option TableIter :=
  let sid := t.segmentId hash
  ((t.seg sid).findIt p hash pred).map fun it => ⟨sid, it.index, it.slot⟩

def find (t : Table K V) (key : K) : Option TableIter :=
  t.findFirst p (p.hashFn key) (eqPred p key)

/-! ### Growth -/

/-- One round of the loop of `IncreaseDepth`. -/
def replicateEntry (replCnt : Nat) (t : Table K V) (i : Nat) : Table K V :=
  let offs := i * replCnt
  let t := { t with
    segment := fun j => if offs ≤ j ∧ j < offs + replCnt then t.segment i else t.segment j }
  t.setSeg i { t.seg i with segmentId := offs }

def increaseDepth (t : Table K V) (newDepth : Nat) : Table K V :=
  let prevSz := t.segmentSize
  let replCnt := 2 ^ (newDepth - t.globalDepth)
  let t := { t with segmentSize := 2 ^ newDepth }
  let t := (List.range prevSz).reverse.foldl (replicateEntry replCnt) t
  { t with globalDepth := newDepth }

section Split

variable [Inhabited K] [Inhabited V]

/-- `seg_id & (~(chunk_size - 1))` on `uint32_t`. -/
def chunkStart (segId chunkSize : Nat) : Nat :=
  (BitVec.ofNat 32 segId &&& ~~~(BitVec.ofNat 32 chunkSize - 1#32)).toNat

/-- `DashTable::Split`, with the entries its `Segment::Split` dropped. -/
def split (t : Table K V) (segId : Nat) : Table K V × List (K × V) :=
  let source := t.segment segId
  let chunkSize := 2 ^ (t.globalDepth - (t.heap source).localDepth)
  let startIdx := chunkStart segId chunkSize
  let targetId := startIdx + chunkSize / 2
  let (t, target) := t.constructSegment p ((t.heap source).localDepth + 1) targetId
  let st := Segment.split p (t.heap source) (t.heap target)
  ({ t with
      heap := Function.update (Function.update t.heap source st.source) target st.dest
      uniqueSegments := t.uniqueSegments + 1
      segment := fun i => if targetId ≤ i ∧ i < startIdx + chunkSize then target else t.segment i },
    st.dropped)

/-! ### Insertion -/

/-- What an insertion returns, with the entries dropped by splits on the way. -/
structure InsertOut (K V : Type) where
  table : Table K V
  it : TableIter
  inserted : Bool
  dropped : List (K × V) := []

/-- Making room: doubling the directory when the target owns a single entry, and
    splitting the target. -/
def grow (t : Table K V) (sid : Nat) (hash : UInt64) : (Table K V × Nat) × List (K × V) :=
  let (t, sid) :=
    if (t.seg sid).localDepth = t.globalDepth then
      let t := t.increaseDepth (t.globalDepth + 1)
      (t, t.segmentId hash)
    else (t, sid)
  let (t, dropped) := t.split p sid
  ((t, sid), dropped)

/-- The attempt on the target segment. -/
def tryTarget (t : Table K V) (sid : Nat) (key : K) (value : V) (mode : InsertMode) :
    Segment.InsertRes K V × Bool :=
  match mode with
  | .forceInsert =>
    let r := (t.seg sid).insertUniq p key value (p.hashFn key) true
    (r, r.it.isSome)
  | .insertIfNotFound => (t.seg sid).insert p key value (p.hashFn key) (eqPred p key)

/-- The loop of `InsertInternal`. -/
def insertLoop (key : K) (value : V) (mode : InsertMode) :
    Nat → Table K V → Nat → Option (InsertOut K V)
  | 0, _, _ => none
  | fuel + 1, t, sid =>
    let (r, res) := t.tryTarget p sid key value mode
    let t := t.setSeg sid r.seg
    match r.it with
    | some it =>
      some
        { table := if res then { t with size := t.size + 1 } else t
          it := ⟨sid, it.index, it.slot⟩, inserted := res }
    | none =>
      let ((t, sid), dropped) := t.grow p sid (p.hashFn key)
      (insertLoop key value mode fuel t sid).map fun out =>
        { out with dropped := dropped ++ out.dropped }

def insertInternal (fuel : Nat) (t : Table K V) (key : K) (value : V) (mode : InsertMode) :
    Option (InsertOut K V) :=
  insertLoop p key value mode fuel t (t.segmentId (p.hashFn key))

end Split

/-! ### Erasure -/

/-- `Erase(key)`. -/
def erase (t : Table K V) (key : K) : Table K V × Nat :=
  let hash := p.hashFn key
  let x := t.segmentId hash
  match (t.seg x).findIt p hash (eqPred p key) with
  | none => (t, 0)
  | some it =>
    let t := t.setSeg x (((t.seg x).destroySlot p it).delete p it hash)
    ({ t with size := t.size - 1 }, 1)

/-- `Erase(iterator)`. -/
def eraseIt (t : Table K V) (it : TableIter) : Table K V :=
  let target := t.seg it.segId
  let hash := p.hashFn ((target.bucket it.bucketId).key it.slotId)
  let t := t.setSeg it.segId ((target.destroySlot p it.iter).delete p it.iter hash)
  { t with size := t.size - 1 }

/-! ### Clear -/

/-- The branch of the compaction loop that keeps a segment. -/
def keepSegment (t : Table K V) (dest : Nat) (ptr : Ptr) : Table K V :=
  { t with
    heap := Function.update t.heap ptr { t.heap ptr with localDepth := t.initialDepth }
    bucketCount := t.bucketCount + numBuckets p
    segment := Function.update t.segment dest ptr }

/-- The compaction loop of `Clear`. -/
def compact (newSize : Nat) (t : Table K V) (dest src : Nat) : Table K V :=
  if src < t.segmentSize then
    let nextSrc := t.nextSeg src
    if dest < newSize then compact newSize (t.keepSegment p dest (t.segment src)) (dest + 1) nextSrc
    else compact newSize t dest nextSrc
  else t
termination_by t.segmentSize - src
decreasing_by
  all_goals
    have : 0 < 2 ^ (t.globalDepth - (t.seg src).localDepth) := Nat.pow_pos (by decide)
    simp only [nextSeg, keepSegment] at *
    omega

def clearSegmentAt (t : Table K V) (i : Nat) : Table K V :=
  t.setSeg i ((t.seg i).destroyAndClear p)

/-- `DashTable::Clear`. -/
def clear (t : Table K V) : Table K V :=
  let t := t.iterateDistinct.foldl (clearSegmentAt p) t
  let t := { t with size := 0 }
  if t.initialDepth < t.globalDepth then
    let newSize := 1 <<< t.initialDepth
    let t := compact p newSize { t with bucketCount := 0 } 0 0
    { t with
      globalDepth := t.initialDepth
      uniqueSegments := UInt32.ofNat newSize
      segmentSize := newSize }
  else t

end Table

end StorageEngine.DashTable
