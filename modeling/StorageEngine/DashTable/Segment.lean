/-
  StorageEngine/DashTable/Segment.lean
  ====================================
  **Segments of the dash table** (`dash_internal.hpp`, class `Segment`).

  A segment is `kBucketNum` regular buckets and four stash buckets.  An entry with
  home bucket `y` lives in bucket `y`, in the next bucket (flagged as probing), or
  in a stash bucket, in which case `y` or its neighbour records a reference to it
  or `y` counts it as an overflow.

  This file translates the operations.  Buckets are updated through the segment,
  one at a time and in the order of the source, so that two names for the same
  bucket (`target` and `neighbor` when `kBucketNum = 1`) are handled as they are
  there.  A result of `none` stands for the not-found `Iterator{}` and for the
  slot number `-1`; the failing paths return the segment they were given, and that
  this is unchanged is a theorem, not part of the definition.
-/
import StorageEngine.DashTable.StashRefs

namespace StorageEngine.DashTable

open StorageEngine

/-- `kStashBucketNum`. -/
def kStashBucketNum : Nat := 4

/-- `hash & kFpMask`. -/
def fingerprint (hash : UInt64) : UInt8 := (hash &&& 0xFF).toUInt8

namespace Policy

variable {K V : Type} (p : Policy K V)

def kTotalBuckets : Nat := p.kBucketNum + kStashBucketNum

/-- The home bucket of a hash. -/
def homeIndex (hash : UInt64) : Nat := (hash >>> 8).toNat % p.kBucketNum

def nextBid (bid : Nat) : Nat := if bid < p.kBucketNum - 1 then bid + 1 else 0

def prevBid (bid : Nat) : Nat := if bid ≠ 0 then bid - 1 else p.kBucketNum - 1

end Policy

/-- `Segment::Iterator` of a found entry. -/
@[ext] structure Iter where
  index : Nat
  slot : Nat
deriving DecidableEq, Repr

/-- `class Segment`: `bucket_`, `local_depth_`, `segment_id_`. -/
structure Segment (K V : Type) where
  bucket : Nat → Bucket K V
  localDepth : Nat
  segmentId : Nat

/-- A call `on_move_cb(segment_from, from, segment_to, to)`. -/
structure Move where
  segmentFrom : Nat
  bidFrom : Nat
  segmentTo : Nat
  bidTo : Nat
deriving DecidableEq, Repr

namespace Segment

variable {K V : Type} (p : Policy K V)

/-- The constructor; keys and values are default constructed. -/
def new [Inhabited K] [Inhabited V] (depth id : Nat) : Segment K V where
  bucket _ := { key := fun _ => default, value := fun _ => default }
  localDepth := depth
  segmentId := id

/-- Writing one bucket. -/
def setBucket (s : Segment K V) (i : Nat) (b : Bucket K V) : Segment K V :=
  { s with bucket := Function.update s.bucket i b }

/-- Writing the stash members of one bucket. -/
def setStash (s : Segment K V) (i : Nat) (st : StashPtrs) : Segment K V :=
  s.setBucket i { s.bucket i with stash := st }

def isBusy (s : Segment K V) (it : Iter) : Bool := (s.bucket it.index).isBusy it.slot

/-- `bucket_[i].TryInsertToBucket(..)`. -/
def tryInsert (s : Segment K V) (i : Nat) (u : K) (v : V) (fp : UInt8) (probe : Bool) :
    Segment K V × Option Nat :=
  let (b, slot) := (s.bucket i).tryInsertToBucket p u v fp probe
  (s.setBucket i b, slot)

/-! ### Stash references -/

/-- Recording a reference to stash bucket `stashPos`: in bucket `y`, else in the next
    one, else as an overflow. -/
def recordRef (s : Segment K V) (y stashPos : Nat) (fp : UInt8) : Segment K V :=
  match (s.bucket y).stash.setStash fp stashPos false with
  | some st => s.setStash y st
  | none =>
    match (s.bucket (p.nextBid y)).stash.setStash fp stashPos true with
    | some st => s.setStash (p.nextBid y) st
    | none =>
      let st := (s.bucket y).stash
      s.setStash y { st with overflowCount := st.overflowCount + 1#8 }

/-- `bucket_[y].SetStashPtr(stash_pos, fp, &bucket_[NextBid(y)])`. -/
def setStashPtr (s : Segment K V) (y stashPos : Nat) (fp : UInt8) : Segment K V :=
  let s := s.recordRef p y stashPos fp
  let st := (s.bucket y).stash
  s.setStash y { st with stashBusy := st.stashBusy ||| StashPtrs.kStashPresentBit }

/-- The condition under which `UnsetStashPtr` drops the present bit of `y`. -/
def noStashLeft (s : Segment K V) (y : Nat) : Bool :=
  let st := (s.bucket y).stash
  let sn := (s.bucket (p.nextBid y)).stash
  let mask1 := st.stashBusy &&& (StashPtrs.kStashPresentBit - 1#8)
  let mask2 := sn.stashBusy &&& (StashPtrs.kStashPresentBit - 1#8)
  (mask1 &&& ~~~st.stashProbeMask) == 0#8 && st.overflowCount == 0#8 &&
    (mask2 &&& sn.stashProbeMask) == 0#8

/-- Dropping a reference to stash bucket `stashPos`, or else one overflow. -/
def forgetRef (s : Segment K V) (y : Nat) (fp : UInt8) (stashPos : Nat) : Segment K V :=
  match (s.bucket y).stash.clearStash fp stashPos false with
  | some st => s.setStash y st
  | none =>
    match (s.bucket (p.nextBid y)).stash.clearStash fp stashPos true with
    | some st => s.setStash (p.nextBid y) st
    | none =>
      let st := (s.bucket y).stash
      s.setStash y { st with overflowCount := st.overflowCount - 1#8 }

/-- The `assert(overflow_count_ > 0)` of `UnsetStashPtr`, made when neither bucket
    holds the reference. -/
def overflowAssert (s : Segment K V) (y : Nat) (fp : UInt8) (stashPos : Nat) : Bool :=
  ((s.bucket y).stash.clearStash fp stashPos false).isSome ||
    ((s.bucket (p.nextBid y)).stash.clearStash fp stashPos true).isSome ||
    (s.bucket y).stash.hasStashOverflow

/-- `bucket_[y].UnsetStashPtr(fp, stash_pos, &bucket_[NextBid(y)])`; its return
    value is ignored by every caller. -/
def unsetStashPtr (s : Segment K V) (y : Nat) (fp : UInt8) (stashPos : Nat) : Segment K V :=
  let s := s.forgetRef p y fp stashPos
  if s.noStashLeft p y then
    let st := (s.bucket y).stash
    s.setStash y { st with stashBusy := st.stashBusy &&& ~~~StashPtrs.kStashPresentBit }
  else s

def removeStashReference (s : Segment K V) (stashPos : Nat) (hash : UInt64) : Segment K V :=
  s.unsetStashPtr p (p.homeIndex hash) (fingerprint hash) stashPos

/-! ### Insertion -/

/-- The result of `InsertUniq`: the segment, the iterator and the `on_move_cb(from, to)`
    calls. -/
structure InsertRes (K V : Type) where
  seg : Segment K V
  it : Option Iter
  moves : List (Nat × Nat) := []

/-- `MoveToOther`: moves the lowest own (or probing) slot of `from` to bucket `to`
    and returns the vacated slot. -/
def moveToOther (s : Segment K V) (ownItems : Bool) (fromBid toBid : Nat) :
    Segment K V × Option Nat :=
  let src := s.bucket fromBid
  let mask := src.getProbe p (!ownItems)
  if mask = 0#32 then (s, none)
  else
    let srcSlot := mask.ctz.toNat
    match s.tryInsert p toBid (src.key srcSlot) (src.value srcSlot) (src.fingerArr srcSlot)
        ownItems with
    | (s, none) => (s, none)
    | (s, some _) =>
      (s.setBucket fromBid (((s.bucket fromBid).moveOut p srcSlot).delete srcSlot), some srcSlot)

/-- The stash loop of `InsertUniq` over the remaining values of `i`. -/
def insertStash (bid : Nat) (key : K) (value : V) (fp : UInt8) :
    List Nat → Segment K V → InsertRes K V
  | [], s => { seg := s, it := none }
  | i :: rest, s =>
    let stashPos := (bid + i) % kStashBucketNum
    match s.tryInsert p (p.kBucketNum + stashPos) key value fp false with
    | (s, some slot) =>
      { seg := s.setStashPtr p bid stashPos fp, it := some ⟨p.kBucketNum + stashPos, slot⟩ }
    | (s, none) => insertStash bid key value fp rest s

/-- The displacements and the stash loop of `InsertUniq`, reached when neither
    bucket had room. -/
def insertDisplacing (s : Segment K V) (bid : Nat) (key : K) (value : V) (fp : UInt8) :
    InsertRes K V :=
  let nid := p.nextBid bid
  match s.moveToOther p true nid (p.nextBid nid) with
  | (s, some slot) =>
    { seg := s.setBucket nid ((s.bucket nid).insert p slot key value fp true)
      it := some ⟨nid, slot⟩, moves := [(nid, p.nextBid nid)] }
  | (s, none) =>
    match s.moveToOther p false bid (p.prevBid bid) with
    | (s, some slot) =>
      { seg := s.setBucket bid ((s.bucket bid).insert p slot key value fp false)
        it := some ⟨bid, slot⟩, moves := [(bid, p.prevBid bid)] }
    | (s, none) => insertStash p bid key value fp (List.range kStashBucketNum) s

/-- `InsertUniq`. -/
def insertUniq (s : Segment K V) (key : K) (value : V) (hash : UInt64) (spread : Bool) :
    InsertRes K V :=
  let bid := p.homeIndex hash
  let nid := p.nextBid bid
  let fp := fingerprint hash
  let ts := (s.bucket bid).size
  let ns := (s.bucket nid).size
  let probe := spread && decide (ns < ts)
  let first := if probe then nid else bid
  match s.tryInsert p first key value fp probe with
  | (s, some slot) => { seg := s, it := some ⟨first, slot⟩ }
  | (s, none) =>
    match if spread then (s, none) else s.tryInsert p nid key value fp true with
    | (s, some slot) => { seg := s, it := some ⟨nid, slot⟩ }
    | (s, none) => s.insertDisplacing p bid key value fp

/-! ### Lookup -/

/-- `FindIt`. -/
def findIt (s : Segment K V) (hash : UInt64) (pred : K → Bool) : Option Iter :=
  let bid := p.homeIndex hash
  let nid := p.nextBid bid
  let target := s.bucket bid
  let probe := s.bucket nid
  let fp := fingerprint hash
  let stashCb := fun (_ pos : Nat) => (s.bucket (p.kBucketNum + pos)).findByFp p fp false pred
  match target.findByFp p fp false pred with
  | some sid => some ⟨bid, sid⟩
  | none =>
    match probe.findByFp p fp true pred with
    | some sid => some ⟨nid, sid⟩
    | none =>
      if !target.stash.hasStash then none
      else if target.stash.hasStashOverflow then
        (List.range kStashBucketNum).findSome? fun i =>
          (stashCb 0 i).map fun sid => ⟨p.kBucketNum + i, sid⟩
      else
        match target.stash.iterateStash fp false stashCb with
        | some (pos, sid) => some ⟨p.kBucketNum + pos, sid⟩
        | none =>
          match probe.stash.iterateStash fp true stashCb with
          | some (pos, sid) => some ⟨p.kBucketNum + pos, sid⟩
          | none => none

/-- `Segment::Insert`: the iterator and whether the pair was inserted. -/
def insert (s : Segment K V) (key : K) (value : V) (hash : UInt64) (pred : K → Bool) :
    InsertRes K V × Bool :=
  match s.findIt p hash pred with
  | some it => ({ seg := s, it := some it }, false)
  | none =>
    let r := s.insertUniq p key value hash true
    (r, r.it.isSome)

/-! ### Deletion -/

/-- `Segment::Delete`. -/
def delete (s : Segment K V) (it : Iter) (hash : UInt64) : Segment K V :=
  let s :=
    if p.kBucketNum ≤ it.index then s.removeStashReference p (it.index - p.kBucketNum) hash else s
  s.setBucket it.index ((s.bucket it.index).delete it.slot)

/-- `Segment::Clear`. -/
def clear (s : Segment K V) : Segment K V :=
  { s with
    bucket := fun i =>
      if i < p.kTotalBuckets then
        { s.bucket i with
          slotb := (s.bucket i).slotb.clear, stash := (s.bucket i).stash.clearStashPtrs }
      else s.bucket i }

/-! ### Split -/

/-- `TryMoveFromStash`. -/
def tryMoveFromStash (s : Segment K V) (stashId stashSlot : Nat) (hash : UInt64) :
    Segment K V × Option Iter :=
  let bid := p.homeIndex hash
  let fp := fingerprint hash
  let stashBid := p.kBucketNum + stashId
  let key := (s.bucket stashBid).key stashSlot
  let value := (s.bucket stashBid).value stashSlot
  -- an insertion moves the key and the value out of the stash slot
  let done := fun (s : Segment K V) (bid slot : Nat) =>
    let s := s.setBucket stashBid ((s.bucket stashBid).moveOut p stashSlot)
    (s.removeStashReference p stashId hash, some (⟨bid, slot⟩ : Iter))
  match s.tryInsert p bid key value fp false with
  | (s, some slot) => done s bid slot
  | (s, none) =>
    match s.tryInsert p (p.nextBid bid) key value fp true with
    | (s, some slot) => done s (p.nextBid bid) slot
    | (s, none) => (s, none)

/-- The variables of `Split` while it runs.  `dropped` collects the entries whose
    `InsertUniq` into `dest_right` found no slot: the source asserts that there is
    none, and without assertions the entry is cleared from the source anyway.
    `asserted` says whether the overflow assertions of the `UnsetStashPtr` calls held. -/
structure SplitState (K V : Type) where
  source : Segment K V
  dest : Segment K V
  invalidMask : BitVec 32 := 0#32
  moves : List Move := []
  dropped : List (K × V) := []
  asserted : Bool := true

/-- `is_mine`, with the incremented local depth. -/
def isMine (localDepth : Nat) (hash : UInt64) : Bool :=
  (hash.toNat >>> (64 - localDepth)).testBit 0 == false

namespace SplitState

/-- Migrating one entry: `dest_right->InsertUniq(.., spread = false, ..)`. -/
def migrate (i bid slot : Nat) (st : SplitState K V) (hash : UInt64) : SplitState K V :=
  let b := st.source.bucket bid
  let r := st.dest.insertUniq p (b.key slot) (b.value slot) hash false
  { st with
    dest := r.seg
    source := if r.it.isSome then st.source.setBucket bid (b.moveOut p slot) else st.source
    invalidMask := st.invalidMask ||| 1#32 <<< slot
    moves := st.moves ++
      [⟨st.source.segmentId, i, st.dest.segmentId, (r.it.map Iter.index).getD 0xFF⟩]
    dropped := if r.it.isSome then st.dropped else st.dropped ++ [(b.key slot, b.value slot)] }

/-- The callback of the first loop, on one busy slot of regular bucket `i`. -/
def regularSlot (i : Nat) (st : SplitState K V) (slot : Nat) : SplitState K V :=
  let hash := p.hashFn ((st.source.bucket i).key slot)
  if isMine st.source.localDepth hash then st else st.migrate p i i slot hash

/-- The callback of the second loop, on one busy slot of stash bucket `i`. -/
def stashSlot (i : Nat) (st : SplitState K V) (slot : Nat) : SplitState K V :=
  let bid := p.kBucketNum + i
  let hash := p.hashFn ((st.source.bucket bid).key slot)
  if isMine st.source.localDepth hash then
    match st.source.tryMoveFromStash p i slot hash with
    | (s, some it) =>
      { st with
        source := s, invalidMask := st.invalidMask ||| 1#32 <<< slot
        moves := st.moves ++ [⟨st.source.segmentId, i, st.source.segmentId, it.index⟩]
        asserted := st.asserted &&
          st.source.overflowAssert p (p.homeIndex hash) (fingerprint hash) i }
    | (s, none) => { st with source := s }
  else
    let st := st.migrate p i bid slot hash
    { st with
      source := st.source.removeStashReference p i hash
      asserted := st.asserted &&
        st.source.overflowAssert p (p.homeIndex hash) (fingerprint hash) i }

/-- `ClearSlots(invalid_mask)` on bucket `bid`. -/
def flush (bid : Nat) (st : SplitState K V) : SplitState K V :=
  { st with
    source := st.source.setBucket bid ((st.source.bucket bid).clearSlots st.invalidMask)
    invalidMask := 0#32 }

/-- One round of the first loop. -/
def regularBucket (st : SplitState K V) (i : Nat) : SplitState K V :=
  (((st.source.bucket i).busySlots p).foldl (regularSlot p i) st).flush i

/-- One round of the second loop. -/
def stashBucket (st : SplitState K V) (i : Nat) : SplitState K V :=
  (((st.source.bucket (p.kBucketNum + i)).busySlots p).foldl (stashSlot p i) st).flush
    (p.kBucketNum + i)

end SplitState

/-- `Segment::Split`. -/
def split (s dest : Segment K V) : SplitState K V :=
  let depth := s.localDepth + 1
  let st : SplitState K V :=
    { source := { s with localDepth := depth }, dest := { dest with localDepth := depth } }
  let st := (List.range p.kBucketNum).foldl (SplitState.regularBucket p) st
  (List.range kStashBucketNum).foldl (SplitState.stashBucket p) st

/-! ### Traversal -/

/-- `TraverseLogicalBucket`: the iterators handed to the callback, in order.  The
    return value of the source is whether there is one. -/
def traverseLogicalBucket (s : Segment K V) (bid : Nat) : List Iter :=
  let b := s.bucket bid
  let nid := p.nextBid bid
  let next := s.bucket nid
  (if b.getProbe p false ≠ 0#32 then
    ((b.busySlots p).filter fun j => !(b.getProbe p true).getLsbD j).map fun j => ⟨bid, j⟩
    else []) ++
  (if next.getProbe p true ≠ 0#32 then
    ((next.busySlots p).filter fun j => (next.getProbe p true).getLsbD j).map fun j => ⟨nid, j⟩
    else []) ++
  (if b.stash.hasStash then
    (List.range kStashBucketNum).flatMap fun i =>
      let sb := s.bucket (p.kBucketNum + i)
      ((sb.busySlots p).filter fun j => p.homeIndex (p.hashFn (sb.key j)) == bid).map
        fun j => ⟨p.kBucketNum + i, j⟩
    else [])

end Segment

end StorageEngine.DashTable
