/-
  StorageEngine/DashTable/Iteration.lean
  ======================================
  **Going through a table** (`DashTable::begin`, `Iterator::operator++`, `Seek2Occupied` and
  `Segment::FindValidStartingFrom`).

  An iterator that is not at an occupied slot seeks the next one: in its bucket, in the
  buckets behind it, and in the next segments of the directory.  What is ahead of a position is
  a list, level by level; seeking finds the head of this list, and the slot behind it has the
  tail ahead.
-/
import StorageEngine.WhileLoop
import StorageEngine.DashTable.Traverse

namespace StorageEngine.DashTable

open StorageEngine SlotStore WhileLoop

variable {K V : Type} (p : Policy K V)

/-! ### A bucket -/

namespace Bucket

/-- The occupied slots from a slot on. -/
def busyFrom (b : Bucket K V) (slot : Nat) : List Nat :=
  (List.range' slot (p.kSlotNum - slot)).filter b.isBusy

theorem busyFrom_zero (b : Bucket K V) : b.busyFrom p 0 = b.busySlots p := by
  unfold busyFrom busySlots
  rw [List.range_eq_range', Nat.sub_zero]
  rfl

variable {p} {b : Bucket K V} {slot : Nat}

theorem busyFrom_of_mask_zero (h : b.getBusy >>> slot = 0#32) : b.busyFrom p slot = [] := by
  apply List.filter_eq_nil_iff.mpr
  intro j hj hbusy
  have hle : slot ≤ j := (List.mem_range'_1.mp hj).1
  have hbit : (b.getBusy >>> slot).getLsbD (j - slot) = b.isBusy j := by
    rw [BitVec.getLsbD_ushiftRight, Nat.add_sub_cancel' hle]
    rfl
  rw [h, hbusy] at hbit
  simp at hbit

/-- The number of trailing zeros of the shifted mask leads to the next occupied slot. -/
theorem busyFrom_of_mask (hwf : b.slotb.WF p.kSlotNum) (h : b.getBusy >>> slot ≠ 0#32) :
    b.busyFrom p slot = (slot + (b.getBusy >>> slot).ctz.toNat) ::
      b.busyFrom p (slot + (b.getBusy >>> slot).ctz.toNat + 1) := by
  set skip := (b.getBusy >>> slot).ctz.toNat with hskip
  have hbusy : b.isBusy (slot + skip) = true := by
    have hbit := BitVec.getLsbD_true_ctz_of_ne_zero h
    rw [← hskip, BitVec.getLsbD_ushiftRight] at hbit
    exact hbit
  have hlt : slot + skip < p.kSlotNum := hwf.busy_lt _ hbusy
  have hfree : (List.range' slot skip).filter b.isBusy = [] := by
    apply List.filter_eq_nil_iff.mpr
    intro j hj hbusy
    obtain ⟨hle, hj⟩ := List.mem_range'_1.mp hj
    have hbit : (b.getBusy >>> slot).getLsbD (j - slot) = true := by
      rw [BitVec.getLsbD_ushiftRight, Nat.add_sub_cancel' hle]
      exact hbusy
    have hctz : skip ≤ j - slot := BitMask.ctz_le hbit
    omega
  have hsplit : List.range' slot (p.kSlotNum - slot) =
      List.range' slot skip ++ List.range' (slot + skip) (p.kSlotNum - (slot + skip)) := by
    rw [List.range'_append_1]
    congr 1
    omega
  have hhead : List.range' (slot + skip) (p.kSlotNum - (slot + skip)) =
      (slot + skip) :: List.range' (slot + skip + 1) (p.kSlotNum - (slot + skip + 1)) := by
    rw [show p.kSlotNum - (slot + skip) = p.kSlotNum - (slot + skip + 1) + 1 by omega,
      List.range'_succ]
  unfold busyFrom
  rw [hsplit, List.filter_append, hfree, List.nil_append, hhead, List.filter_cons_of_pos hbusy]

end Bucket

/-! ### A segment -/

namespace Segment

/-- `FindValidStartingFrom`. -/
def findValidStartingFrom (s : Segment K V) (bid slot : Nat) : Option Iter :=
  if bid < p.kTotalBuckets then
    let mask := (s.bucket bid).getBusy >>> slot
    if mask ≠ 0#32 then some ⟨bid, slot + mask.ctz.toNat⟩
    else findValidStartingFrom s (bid + 1) 0
  else none
termination_by p.kTotalBuckets - bid

/-- The occupied slots from a slot of a bucket on. -/
def ahead (s : Segment K V) (bid slot : Nat) : List Iter :=
  if bid < p.kTotalBuckets then
    ((s.bucket bid).busyFrom p slot).map (fun j => ⟨bid, j⟩) ++ ahead s (bid + 1) 0
  else []
termination_by p.kTotalBuckets - bid

variable {p} in
theorem ahead_of_lt {bid : Nat} (hbid : bid < p.kTotalBuckets) (s : Segment K V) (slot : Nat) :
    s.ahead p bid slot =
      ((s.bucket bid).busyFrom p slot).map (fun j => ⟨bid, j⟩) ++ s.ahead p (bid + 1) 0 := by
  rw [ahead, if_pos hbid]

theorem ahead_eq_flatMap (s : Segment K V) (bid : Nat) :
    s.ahead p bid 0 = (List.range' bid (p.kTotalBuckets - bid)).flatMap fun i =>
      ((s.bucket i).busySlots p).map fun j => ⟨i, j⟩ := by
  induction hn : p.kTotalBuckets - bid generalizing bid with
  | zero =>
    rw [ahead, if_neg (by omega)]
    rfl
  | succ n ih =>
    rw [ahead_of_lt (by omega), ih (bid + 1) (by omega), Bucket.busyFrom_zero, List.range'_succ,
      List.flatMap_cons]

theorem ahead_zero (s : Segment K V) : s.ahead p 0 0 = s.traverseAll p := by
  rw [ahead_eq_flatMap, Nat.sub_zero, ← List.range_eq_range']
  rfl

theorem nodup_traverseAll (s : Segment K V) : (s.traverseAll p).Nodup := by
  unfold traverseAll
  rw [List.nodup_flatMap]
  constructor
  · intro i _
    exact (Bucket.nodup_busySlots p _).map fun _ _ h => (Iter.mk.inj h).2
  · apply List.nodup_range.imp
    intro i i' hne it hit hit'
    obtain ⟨j, -, rfl⟩ := List.mem_map.mp hit
    obtain ⟨j', -, heq⟩ := List.mem_map.mp hit'
    exact hne (Iter.mk.inj heq).1.symm

variable {p} {s : Segment K V}

theorem mem_traverseAll (hwf : s.SlotsWF p) {it : Iter} :
    it ∈ s.traverseAll p ↔ it.index < p.kTotalBuckets ∧ s.isBusy it = true := by
  have hbusy : ∀ i j, j ∈ (s.bucket i).busySlots p ↔ (s.bucket i).isBusy j = true := by
    intro i j
    rw [Bucket.mem_busySlots p (hwf i), ← Option.isSome_iff_ne_none, Bucket.cell_isSome]
    rfl
  unfold traverseAll
  rw [List.mem_flatMap]
  constructor
  · rintro ⟨i, hi, hit⟩
    obtain ⟨j, hj, rfl⟩ := List.mem_map.mp hit
    exact ⟨List.mem_range.mp hi, (hbusy i j).mp hj⟩
  · rintro ⟨hidx, hit⟩
    exact ⟨it.index, List.mem_range.mpr hidx, List.mem_map.mpr ⟨it.slot, (hbusy _ _).mpr hit, rfl⟩⟩

theorem findValidStartingFrom_eq_none {bid slot : Nat}
    (h : s.findValidStartingFrom p bid slot = none) : s.ahead p bid slot = [] := by
  fun_induction findValidStartingFrom p s bid slot with
  | case1 bid slot hbid mask hmask => cases h
  | case2 bid slot hbid mask hmask ih =>
    rw [ahead_of_lt hbid, ih h, Bucket.busyFrom_of_mask_zero (not_not.mp hmask)]
    rfl
  | case3 bid slot hbid => rw [ahead, if_neg hbid]

theorem findValidStartingFrom_eq_some (hwf : s.SlotsWF p) {bid slot : Nat} {it : Iter}
    (h : s.findValidStartingFrom p bid slot = some it) :
    s.ahead p bid slot = it :: s.ahead p it.index (it.slot + 1) := by
  fun_induction findValidStartingFrom p s bid slot with
  | case1 bid slot hbid mask hmask =>
    cases h
    rw [ahead_of_lt hbid, Bucket.busyFrom_of_mask (hwf bid) hmask, ahead_of_lt hbid]
    rfl
  | case2 bid slot hbid mask hmask ih =>
    rw [ahead_of_lt hbid, ih h, Bucket.busyFrom_of_mask_zero (not_not.mp hmask)]
    rfl
  | case3 bid slot hbid => cases h

end Segment

/-! ### A table -/

namespace Table

/-- `Seek2Occupied` of an iterator over all buckets; `none` is `end()`. -/
def seek2Occupied (t : Table K V) (it : TableIter) : Option TableIter :=
  if it.segId < t.segmentSize then
    match (t.seg it.segId).findValidStartingFrom p it.bucketId it.slotId with
    | some segIt => some ⟨it.segId, segIt.index, segIt.slot⟩
    | none => seek2Occupied t ⟨t.nextSeg it.segId, 0, 0⟩
  else none
termination_by t.segmentSize - it.segId
decreasing_by
  have := t.lt_nextSeg it.segId
  omega

def begin (t : Table K V) : Option TableIter := t.seek2Occupied p ⟨0, 0, 0⟩

/-- `operator++`. -/
def next (t : Table K V) (it : TableIter) : Option TableIter :=
  t.seek2Occupied p { it with slotId := it.slotId + 1 }

/-- A round of `for (it = begin(); it != end(); ++it)`, with the positions met before. -/
def iterateRound (t : Table K V) : Option TableIter × List TableIter →
    (Option TableIter × List TableIter) ⊕ List TableIter
  | (none, met) => .inr met
  | (some it, met) => .inl (t.next p it, met ++ [it])

/-- The occupied slots from a position on, in the segments that `NextSeg` leads to. -/
def ahead (t : Table K V) (it : TableIter) : List TableIter :=
  if it.segId < t.segmentSize then
    ((t.seg it.segId).ahead p it.bucketId it.slotId).map (fun i => ⟨it.segId, i.index, i.slot⟩) ++
      ahead t ⟨t.nextSeg it.segId, 0, 0⟩
  else []
termination_by t.segmentSize - it.segId
decreasing_by
  have := t.lt_nextSeg it.segId
  omega

variable {p} {t : Table K V}

theorem seek2Occupied_eq_none {it : TableIter} (h : t.seek2Occupied p it = none) :
    t.ahead p it = [] := by
  fun_induction seek2Occupied p t it with
  | case1 it hseg segIt hfound => cases h
  | case2 it hseg hnone ih =>
    rw [ahead, if_pos hseg, Segment.findValidStartingFrom_eq_none hnone, ih h]
    rfl
  | case3 it hseg => rw [ahead, if_neg hseg]

/-- **Seeking finds the first position ahead**; the rest is ahead of the slot behind it. -/
theorem seek2Occupied_eq_some (hinv : t.Inv p) {it it' : TableIter}
    (h : t.seek2Occupied p it = some it') :
    t.ahead p it = it' :: t.ahead p { it' with slotId := it'.slotId + 1 } := by
  fun_induction seek2Occupied p t it with
  | case1 it hseg segIt hfound =>
    cases h
    have hwf := (hinv.segInv it.segId (hinv.segmentSize ▸ hseg)).slotsWF
    rw [ahead, if_pos hseg, Segment.findValidStartingFrom_eq_some hwf hfound]
    conv_rhs => rw [ahead, if_pos hseg]
    rfl
  | case2 it hseg hnone ih =>
    rw [ahead, if_pos hseg, Segment.findValidStartingFrom_eq_none hnone, ih h]
    rfl
  | case3 it hseg => cases h

/-- The loop meets what is ahead of the place where it seeks. -/
theorem ends_iterate (hinv : t.Inv p) (it : TableIter) (met : List TableIter) :
    Ends (t.iterateRound p) (t.seek2Occupied p it, met) (met ++ t.ahead p it) := by
  induction hn : (t.ahead p it).length generalizing it met with
  | zero =>
    have hnil : t.ahead p it = [] := List.length_eq_zero_iff.mp hn
    cases hseek : t.seek2Occupied p it with
    | none =>
      rw [hnil, List.append_nil]
      exact ends_of_leave rfl
    | some it' =>
      rw [seek2Occupied_eq_some hinv hseek] at hnil
      cases hnil
  | succ n ih =>
    cases hseek : t.seek2Occupied p it with
    | none =>
      rw [seek2Occupied_eq_none hseek] at hn
      cases hn
    | some it' =>
      have hcons := seek2Occupied_eq_some hinv hseek
      rw [hcons, List.length_cons] at hn
      have hrest := ih { it' with slotId := it'.slotId + 1 } (met ++ [it']) (Nat.succ.inj hn)
      rw [List.append_assoc, List.singleton_append, ← hcons] at hrest
      have hround : t.iterateRound p (some it', met) = .inl (t.next p it', met ++ [it']) := rfl
      rw [ends_iff_of_continue hround]
      exact hrest

/-! ### All positions of a table -/

/-- The positions of a segment at an index of the directory. -/
def positionsAt (p : Policy K V) (t : Table K V) (sid : Nat) : List TableIter :=
  ((t.seg sid).traverseAll p).map fun i => ⟨sid, i.index, i.slot⟩

theorem ahead_eq_visits (t : Table K V) (sid : Nat) : t.ahead p ⟨sid, 0, 0⟩ =
    (Directory.visits t.segmentSize t.globalDepth t.segment t.depthOf sid).flatMap
      (t.positionsAt p) := by
  induction hn : t.segmentSize - sid using Nat.strongRecOn generalizing sid with
  | ind n ih =>
    by_cases hsid : sid < t.segmentSize
    · have hlt := t.lt_nextSeg sid
      have hrest := ih (t.segmentSize - t.nextSeg sid) (by omega) (t.nextSeg sid) rfl
      rw [ahead, if_pos hsid, Segment.ahead_zero, hrest, Directory.visits_of_lt hsid,
        List.flatMap_cons]
      rfl
    · rw [ahead, if_neg hsid, Directory.visits_of_ge (Nat.le_of_not_lt hsid)]
      rfl

/-- A busy slot of a segment of the directory. -/
def Occupied (p : Policy K V) (t : Table K V) (it : TableIter) : Prop :=
  it.segId < t.segmentSize ∧ it.bucketId < p.kTotalBuckets ∧
    ((t.seg it.segId).bucket it.bucketId).isBusy it.slotId = true

/-- The segment, the bucket and the slot, whatever the index that leads to the segment. -/
def place (t : Table K V) (it : TableIter) : Ptr × Nat × Nat :=
  (t.segment it.segId, it.bucketId, it.slotId)

/-- The stored pair at a position. -/
def pairAt (t : Table K V) (it : TableIter) : K × V := (t.seg it.segId).pair it.bucketId it.slotId

theorem mem_positionsAt (hinv : t.Inv p) {sid : Nat} (hsid : sid < t.segmentSize) {it : TableIter} :
    it ∈ t.positionsAt p sid ↔ it.segId = sid ∧ t.Occupied p it := by
  have hwf := (hinv.segInv sid (hinv.segmentSize ▸ hsid)).slotsWF
  unfold positionsAt
  rw [List.mem_map]
  constructor
  · rintro ⟨i, hi, rfl⟩
    obtain ⟨hidx, hbusy⟩ := (Segment.mem_traverseAll hwf).mp hi
    exact ⟨rfl, hsid, hidx, hbusy⟩
  · rintro ⟨rfl, -, hidx, hbusy⟩
    exact ⟨it.iter, (Segment.mem_traverseAll hwf).mpr ⟨hidx, hbusy⟩, rfl⟩

variable (p) in
/-- All positions, segment by segment. -/
def positions (t : Table K V) : List TableIter := t.iterateDistinct.flatMap (t.positionsAt p)

theorem walk_iterateDistinct (hinv : t.Inv p) :
    Directory.Walk t.globalDepth t.segment 0 t.iterateDistinct := by
  unfold iterateDistinct
  rw [hinv.segmentSize]
  exact hinv.aligned.walk_visits (Directory.isStart_zero _ _)

theorem occupied_of_mem (hinv : t.Inv p) {it : TableIter} (hit : it ∈ t.positions p) :
    t.Occupied p it := by
  obtain ⟨sid, hsid, hit⟩ := List.mem_flatMap.mp hit
  have hlt : sid < t.segmentSize :=
    hinv.segmentSize ▸ ((walk_iterateDistinct hinv).bounds sid hsid).2
  exact ((mem_positionsAt hinv hlt).mp hit).2

theorem place_mem_of_occupied (hinv : t.Inv p) {it : TableIter} (hit : t.Occupied p it) :
    t.place it ∈ (t.positions p).map t.place := by
  obtain ⟨hseg, hbucket, hbusy⟩ := hit
  have hwalk := walk_iterateDistinct hinv
  have hcovered := hwalk.covers it.segId (Nat.zero_le _) (hinv.segmentSize ▸ hseg)
  obtain ⟨sid, hsid, hsame⟩ := List.mem_map.mp hcovered
  have hlt : sid < t.segmentSize := hinv.segmentSize ▸ (hwalk.bounds sid hsid).2
  have hthere : t.Occupied p ⟨sid, it.bucketId, it.slotId⟩ := by
    refine ⟨hlt, hbucket, ?_⟩
    rw [seg_congr hsame]
    exact hbusy
  refine List.mem_map.mpr ⟨⟨sid, it.bucketId, it.slotId⟩, ?_, ?_⟩
  · exact List.mem_flatMap.mpr ⟨sid, hsid, (mem_positionsAt hinv hlt).mpr ⟨rfl, hthere⟩⟩
  · unfold place
    rw [hsame]

theorem nodup_places (hinv : t.Inv p) : ((t.positions p).map t.place).Nodup := by
  have hwalk := walk_iterateDistinct hinv
  unfold positions
  rw [List.map_flatMap, List.nodup_flatMap]
  constructor
  · intro sid _
    unfold positionsAt
    rw [List.map_map]
    apply (Segment.nodup_traverseAll p _).map
    rintro ⟨i, j⟩ ⟨i', j'⟩ heq
    obtain ⟨-, heq⟩ := Prod.mk.inj heq
    obtain ⟨hidx, hslot⟩ := Prod.mk.inj heq
    exact congrArg₂ Iter.mk hidx hslot
  · apply (List.pairwise_map.mp hwalk.nodup).imp
    intro sid sid' hne x hx hx'
    obtain ⟨it, hit, rfl⟩ := List.mem_map.mp hx
    obtain ⟨it', hit', heq⟩ := List.mem_map.mp hx'
    obtain ⟨i, -, rfl⟩ := List.mem_map.mp hit
    obtain ⟨i', -, rfl⟩ := List.mem_map.mp hit'
    exact hne (Prod.mk.inj heq).1.symm

theorem pairs_positionsAt (t : Table K V) (sid : Nat) :
    (t.positionsAt p sid).map t.pairAt = (t.seg sid).pairs p := by
  unfold positionsAt Segment.traverseAll Segment.pairs Segment.bucketPairs
  rw [List.map_map, List.map_flatMap]
  congr 1
  funext i
  rw [List.map_map]
  rfl

/-- Every stored pair is met once. -/
theorem pairs_positions (hinv : t.Inv p) :
    ((t.positions p).map t.pairAt : Multiset (K × V)) = t.entries p := by
  have hsum : ∀ l : List Nat, ((l.flatMap (t.positionsAt p)).map t.pairAt : Multiset (K × V)) =
      ((l.map t.segment).map fun ptr => (t.heap ptr).contents p).sum := by
    intro l
    induction l with
    | nil => rfl
    | cons sid l ih =>
      rw [List.flatMap_cons, List.map_append, ← Multiset.coe_add, ih, pairs_positionsAt,
        ← Segment.contents_eq_pairs, List.map_cons, List.map_cons, List.sum_cons]
      rfl
  have hitems : (t.iterateDistinct.map t.segment).toFinset =
      Directory.items t.globalDepth t.segment := by
    unfold iterateDistinct
    rw [hinv.segmentSize]
    exact hinv.aligned.toFinset_visits
  unfold positions entries
  rw [hsum, ← hitems, List.sum_toFinset _ (walk_iterateDistinct hinv).nodup]

section Reachable

variable [Inhabited K] [Inhabited V] [p.Coherent]

/-- **Full iteration** ends, and meets every busy slot of every segment once and nothing else. -/
theorem iterate_spec (h : Reachable p t) :
    ∃ met, Ends (t.iterateRound p) (t.begin p, []) met ∧
      (∀ it ∈ met, t.Occupied p it) ∧ (∀ it, t.Occupied p it → t.place it ∈ met.map t.place) ∧
      (met.map t.place).Nodup ∧ (met.map t.pairAt : Multiset (K × V)) = t.entries p := by
  have hinv : t.Inv p := h.runInv.toInv
  have hends := ends_iterate hinv ⟨0, 0, 0⟩ []
  rw [List.nil_append, ahead_eq_visits] at hends
  exact ⟨t.positions p, hends, fun _ => occupied_of_mem hinv, fun _ => place_mem_of_occupied hinv,
    nodup_places hinv, pairs_positions hinv⟩

end Reachable

/-- The iteration over a table that has grown meets its seven entries. -/
theorem iterate_spec_grown64 : ∃ t met, grown64 7 = some t ∧
    Ends (t.iterateRound narrow64) (t.begin narrow64, []) met ∧
      (∀ it ∈ met, t.Occupied narrow64 it) ∧
      (∀ it, t.Occupied narrow64 it → t.place it ∈ met.map t.place) ∧
      (met.map t.place).Nodup ∧ met.length = 7 := by
  have hsome : (grown64 7).isSome = true := by decide +kernel
  obtain ⟨t, ht⟩ := Option.isSome_iff_exists.mp hsome
  obtain ⟨met, hends, hbusy, hall, hnodup, hpairs⟩ := iterate_spec (reachable_grown64 ht)
  have hcard : (grown64 7).map (fun t => (t.entries narrow64).card) = some 7 := by decide +kernel
  rw [ht, Option.map_some, ← hpairs, Multiset.coe_card, List.length_map] at hcard
  exact ⟨t, met, ht, hends, hbusy, hall, hnodup, Option.some.inj hcard⟩

end Table

end StorageEngine.DashTable
