/-
  StorageEngine/DashTable/Traverse.lean
  =====================================
  **Traverse and its cursor** (`DashTable::Traverse`, `DashCursor`).

  A call of `Traverse` goes over the segments at one logical bucket, then at the next
  bucket, and stops after the first non-empty visit.  Stored keys are ranked by home
  bucket and hash; a block of the directory at one bucket is an interval of ranks, so
  one call hands out the keys of an interval, and the cursor is its upper end.
-/
import StorageEngine.DashTable.TableMap

namespace StorageEngine.DashTable

open StorageEngine SlotStore

variable {K V : Type}

/-! ### One logical bucket of a segment -/

namespace Segment

variable (p : Policy K V)

/-- The iterators of the busy slots of a bucket that pass a test. -/
theorem mem_slots {s : Segment K V} (hwf : s.SlotsWF p) (i : Nat) (q : Nat → Bool) {it : Iter} :
    it ∈ (((s.bucket i).busySlots p).filter q).map (fun j => (⟨i, j⟩ : Iter)) ↔
      it.index = i ∧ (∃ e, s.cell it.at = some e) ∧ q it.slot = true := by
  obtain ⟨index, slot⟩ := it
  rw [List.mem_map]
  constructor
  · rintro ⟨j, hj, heq⟩
    cases heq
    obtain ⟨hbusy, hq⟩ := List.mem_filter.mp hj
    rw [Bucket.mem_busySlots p (hwf i)] at hbusy
    exact ⟨rfl, Option.ne_none_iff_exists'.mp hbusy, hq⟩
  · rintro ⟨rfl, he, hq⟩
    refine ⟨slot, List.mem_filter.mpr ⟨?_, hq⟩, rfl⟩
    rw [Bucket.mem_busySlots p (hwf index)]
    exact Option.ne_none_iff_exists'.mpr he

theorem nodup_slots (s : Segment K V) (i : Nat) (q : Nat → Bool) :
    ((((s.bucket i).busySlots p).filter q).map (fun j => (⟨i, j⟩ : Iter))).Nodup :=
  ((Bucket.nodup_busySlots p _).filter q).map fun _ _ h => (Iter.mk.inj h).2

theorem getLsbD_getProbe_of_cell {s : Segment K V} (hwf : s.SlotsWF p) {i j : Nat} {e : Entry K V}
    (he : s.cell (i, j) = some e) (probe : Bool) :
    ((s.bucket i).getProbe p probe).getLsbD j = (e.probe == probe) := by
  have hlt : j < p.kSlotNum := slot_lt_of_cell p hwf he
  have hprobe : (s.bucket i).slotb.probe.getLsbD j = e.probe := (Bucket.key_of_cell he).2.2.2
  rw [Bucket.getProbe, SlotBitmap.getLsbD_getProbe p.kSlotNum_le, hprobe]
  simp [hlt]

/-- The entries of a bucket with a given probe bit.  The mask test in front of the loop
    only skips loops that would find nothing. -/
theorem mem_probed {s : Segment K V} (hwf : s.SlotsWF p) (i : Nat) (probe : Bool)
    {q : Nat → Bool} (hq : ∀ j e, s.cell (i, j) = some e → q j = (e.probe == probe)) {it : Iter} :
    it ∈ (if (s.bucket i).getProbe p probe ≠ 0#32 then
      (((s.bucket i).busySlots p).filter q).map (fun j => (⟨i, j⟩ : Iter)) else []) ↔
      it.index = i ∧ ∃ e, s.cell it.at = some e ∧ e.probe = probe := by
  have hcore : (it.index = i ∧ (∃ e, s.cell it.at = some e) ∧ q it.slot = true) ↔
      it.index = i ∧ ∃ e, s.cell it.at = some e ∧ e.probe = probe := by
    constructor
    · rintro ⟨rfl, ⟨e, he⟩, htest⟩
      rw [hq it.slot e he, beq_iff_eq] at htest
      exact ⟨rfl, e, he, htest⟩
    · rintro ⟨rfl, e, he, hprobe⟩
      refine ⟨rfl, ⟨e, he⟩, ?_⟩
      rw [hq it.slot e he, beq_iff_eq]
      exact hprobe
  split
  · rw [mem_slots p hwf, hcore]
  · rename_i hzero
    refine ⟨fun h => absurd h List.not_mem_nil, ?_⟩
    rintro ⟨rfl, e, he, hprobe⟩
    have hbit := getLsbD_getProbe_of_cell p hwf (i := it.index) he probe
    rw [not_not.mp hzero, hprobe] at hbit
    simp at hbit

/-- A stash entry makes its home bucket's present bit set. -/
theorem Inv.hasStash_of_cell {s : Segment K V} (hinv : s.Inv p) {bid q j : Nat}
    (hbid : bid < p.kBucketNum) (hq : q < kStashBucketNum) {e : Entry K V}
    (he : s.cell (p.kBucketNum + q, j) = some e)
    (hhome : p.homeIndex (p.hashFn e.key) = bid) : (s.bucket bid).stash.hasStash = true := by
  apply (hinv.present_iff bid hbid).mpr
  intro hzero
  have hslot : j < p.kSlotNum := slot_lt_of_cell p hinv.slotsWF he
  have hmem : (e.fp, q) ∈ s.stashPairs p bid :=
    (mem_stashPairs p).mpr ⟨hq, j, hslot, e, he, hhome, rfl⟩
  rw [hzero] at hmem
  exact Multiset.notMem_zero _ hmem

/-- An entry is at home in a bucket if it is an own entry there, a probing entry of the next
    bucket, or a stash entry with this home. -/
theorem home_iff_parts {s : Segment K V} (hinv : s.Inv p) {bid : Nat} (hbid : bid < p.kBucketNum)
    {x : Nat × Nat} (hx : x.1 < p.kTotalBuckets) {e : Entry K V} (he : s.cell x = some e) :
    ((x.1 = bid ∧ e.probe = false) ∨ (x.1 = p.nextBid bid ∧ e.probe = true)) ∨
      ((∃ q ∈ List.range kStashBucketNum, x.1 = p.kBucketNum + q) ∧
        p.homeIndex (p.hashFn e.key) = bid) ↔ p.homeIndex (p.hashFn e.key) = bid := by
  obtain ⟨i, j⟩ := x
  by_cases hlt : i < p.kBucketNum
  · have hplace := (hinv.home i hlt j e he).2
    have hno : ¬ ∃ q ∈ List.range kStashBucketNum, i = p.kBucketNum + q := by
      rintro ⟨q, -, rfl⟩
      omega
    rw [or_iff_left fun h => hno h.1, hplace]
    cases e.probe with
    | false => simp
    | true =>
      simp only [if_pos, Bool.true_eq_false, and_false, false_or, and_true]
      constructor
      · rintro rfl
        exact p.prevBid_nextBid hbid
      · rintro rfl
        exact (p.nextBid_prevBid hlt).symm
  · have htotal : p.kTotalBuckets = p.kBucketNum + kStashBucketNum := rfl
    have hstash : ∃ q ∈ List.range kStashBucketNum, i = p.kBucketNum + q := by
      refine ⟨i - p.kBucketNum, List.mem_range.mpr ?_, ?_⟩
      · dsimp only at hx
        omega
      · omega
    have hown : i ≠ bid := by omega
    have hnext : i ≠ p.nextBid bid := by
      have := p.nextBid_lt bid
      omega
    rw [and_iff_right hstash]
    simp [hown, hnext]

/-- The entries of the stash with a given home bucket.  The present bit only skips a loop
    that would find nothing. -/
theorem mem_stashed {s : Segment K V} (hinv : s.Inv p) {bid : Nat} (hbid : bid < p.kBucketNum)
    {it : Iter} :
    it ∈ (if (s.bucket bid).stash.hasStash then
      (List.range kStashBucketNum).flatMap fun i =>
        (((s.bucket (p.kBucketNum + i)).busySlots p).filter fun j =>
          p.homeIndex (p.hashFn ((s.bucket (p.kBucketNum + i)).key j)) == bid).map
            fun j => (⟨p.kBucketNum + i, j⟩ : Iter) else []) ↔
      ∃ q < kStashBucketNum, it.index = p.kBucketNum + q ∧ ∃ e, s.cell it.at = some e ∧
        p.homeIndex (p.hashFn e.key) = bid := by
  have hcore : (∃ q < kStashBucketNum, it ∈ (((s.bucket (p.kBucketNum + q)).busySlots p).filter
      fun j => p.homeIndex (p.hashFn ((s.bucket (p.kBucketNum + q)).key j)) == bid).map
        fun j => (⟨p.kBucketNum + q, j⟩ : Iter)) ↔
      ∃ q < kStashBucketNum, it.index = p.kBucketNum + q ∧ ∃ e, s.cell it.at = some e ∧
        p.homeIndex (p.hashFn e.key) = bid := by
    refine exists_congr fun q => and_congr_right fun _ => ?_
    rw [mem_slots p hinv.slotsWF]
    refine and_congr_right fun hidx => ?_
    rw [beq_iff_eq, ← exists_and_right]
    refine exists_congr fun e => and_congr_right fun he => ?_
    rw [← hidx, show (s.bucket it.index).key it.slot = e.key from (Bucket.key_of_cell he).1]
  split
  · rw [List.mem_flatMap, ← hcore]
    simp only [List.mem_range]
  · rename_i hno
    refine ⟨fun h => absurd h List.not_mem_nil, ?_⟩
    rintro ⟨q, hq, hidx, e, he, hhome⟩
    have hat : s.cell (p.kBucketNum + q, it.slot) = some e := by
      rw [← hidx]
      exact he
    exact absurd (hinv.hasStash_of_cell p hbid hq hat hhome) hno

/-- The three parts of a logical bucket: own entries, those that went to the next bucket,
    and those in the stash. -/
theorem traverseLogicalBucket_parts {s : Segment K V} (hinv : s.Inv p) {bid : Nat}
    (hbid : bid < p.kBucketNum) :
    ∃ own next stashed : List Iter, s.traverseLogicalBucket p bid = own ++ next ++ stashed ∧
      own.Nodup ∧ next.Nodup ∧ stashed.Nodup ∧
      (∀ it, it ∈ own ↔ it.index = bid ∧ ∃ e, s.cell it.at = some e ∧ e.probe = false) ∧
      (∀ it, it ∈ next ↔ it.index = p.nextBid bid ∧ ∃ e, s.cell it.at = some e ∧ e.probe = true) ∧
      (∀ it, it ∈ stashed ↔ ∃ q < kStashBucketNum, it.index = p.kBucketNum + q ∧
        ∃ e, s.cell it.at = some e ∧ p.homeIndex (p.hashFn e.key) = bid) := by
  refine ⟨_, _, _, rfl, ?_, ?_, ?_, fun it => ?_, fun it => ?_, fun it => mem_stashed p hinv hbid⟩
  · split
    · exact nodup_slots p s bid _
    · exact List.nodup_nil
  · split
    · exact nodup_slots p s _ _
    · exact List.nodup_nil
  · split
    · rw [List.nodup_flatMap]
      refine ⟨fun q _ => nodup_slots p s _ _, List.nodup_range.imp ?_⟩
      intro q q' hne it hit hit'
      have hidx := ((mem_slots p hinv.slotsWF _ _).mp hit).1
      have hidx' := ((mem_slots p hinv.slotsWF _ _).mp hit').1
      omega
    · exact List.nodup_nil
  · refine mem_probed p hinv.slotsWF bid false fun j e he => ?_
    rw [getLsbD_getProbe_of_cell p hinv.slotsWF he]
    cases e.probe <;> rfl
  · exact mem_probed p hinv.slotsWF (p.nextBid bid) true fun j e he =>
      getLsbD_getProbe_of_cell p hinv.slotsWF he true

/-- The entries of a logical bucket are those at home there. -/
theorem mem_traverseLogicalBucket {s : Segment K V} (hinv : s.Inv p) {bid : Nat}
    (hbid : bid < p.kBucketNum) {it : Iter} :
    it ∈ s.traverseLogicalBucket p bid ↔ it.index < p.kTotalBuckets ∧
      ∃ e, s.cell it.at = some e ∧ p.homeIndex (p.hashFn e.key) = bid := by
  obtain ⟨own, next, stashed, heq, -, -, -, hown, hnext, hstash⟩ :=
    traverseLogicalBucket_parts p hinv hbid
  rw [heq, List.mem_append, List.mem_append, hown, hnext, hstash]
  constructor
  · rintro ((⟨hidx, e, he, hprobe⟩ | ⟨hidx, e, he, hprobe⟩) | ⟨q, hq, hidx, e, he, hhome⟩)
    · have hlt : it.index < p.kTotalBuckets := p.lt_total_of_lt (hidx ▸ hbid)
      exact ⟨hlt, e, he, (home_iff_parts p hinv hbid hlt he).mp (Or.inl (Or.inl ⟨hidx, hprobe⟩))⟩
    · have hlt : it.index < p.kTotalBuckets := p.lt_total_of_lt (hidx ▸ p.nextBid_lt bid)
      exact ⟨hlt, e, he, (home_iff_parts p hinv hbid hlt he).mp (Or.inl (Or.inr ⟨hidx, hprobe⟩))⟩
    · exact ⟨hidx ▸ p.stash_lt_total hq, e, he, hhome⟩
  · rintro ⟨hlt, e, he, hhome⟩
    rcases (home_iff_parts p hinv hbid hlt he).mpr hhome with
      (⟨hidx, hprobe⟩ | ⟨hidx, hprobe⟩) | ⟨⟨q, hq, hidx⟩, -⟩
    · exact Or.inl (Or.inl ⟨hidx, e, he, hprobe⟩)
    · exact Or.inl (Or.inr ⟨hidx, e, he, hprobe⟩)
    · exact Or.inr ⟨q, List.mem_range.mp hq, hidx, e, he, hhome⟩

theorem nodup_traverseLogicalBucket {s : Segment K V} (hinv : s.Inv p) {bid : Nat}
    (hbid : bid < p.kBucketNum) : (s.traverseLogicalBucket p bid).Nodup := by
  obtain ⟨own, next, stashed, heq, hown', hnext', hstash', hown, hnext, hstash⟩ :=
    traverseLogicalBucket_parts p hinv hbid
  rw [heq, List.nodup_append', List.nodup_append']
  refine ⟨⟨hown', hnext', ?_⟩, hstash', ?_⟩
  · intro it hit hit'
    obtain ⟨-, e, he, hprobe⟩ := (hown it).mp hit
    obtain ⟨-, e', he', hprobe'⟩ := (hnext it).mp hit'
    rw [he, Option.some_inj] at he'
    rw [he', hprobe'] at hprobe
    cases hprobe
  · intro it hit hit'
    obtain ⟨q, -, hidx, -⟩ := (hstash it).mp hit'
    have hlt : it.index < p.kBucketNum := by
      rcases List.mem_append.mp hit with h | h
      · rw [((hown it).mp h).1]
        exact hbid
      · rw [((hnext it).mp h).1]
        exact p.nextBid_lt bid
    omega

end Segment

/-! ### The cursor -/

/-- `DashCursor`: the token `segment id << (40 - depth) | bucket`. -/
structure DashCursor where
  val : UInt64 := 0
deriving DecidableEq, Repr

namespace DashCursor

/-- The constructor from a position. -/
def pack (depth segId bid : Nat) : DashCursor :=
  ⟨UInt64.ofNat segId <<< UInt64.ofNat (40 - depth) ||| UInt64.ofNat bid⟩

def bucketId (c : DashCursor) : Nat := (c.val &&& 0xFF).toNat

def segmentId (c : DashCursor) (depth : Nat) : Nat :=
  (c.val >>> UInt64.ofNat (40 - depth)).toNat % 2 ^ 32

/-- The position a token stands for, in a form that does not mention a depth. -/
def rank (c : DashCursor) : Nat := c.val.toNat % 2 ^ 8 * 2 ^ 64 + c.val.toNat / 2 ^ 8 * 2 ^ 32

/-- The token packs the segment and the bucket of a directory of this depth. -/
structure Packs (c : DashCursor) (depth segId bid : Nat) : Prop where
  depth_le : depth ≤ 31
  segId_lt : segId < 2 ^ depth
  bid_lt : bid < 2 ^ 8
  val_eq : c.val.toNat = segId * 2 ^ (40 - depth) + bid

variable {c : DashCursor} {depth segId bid : Nat}

theorem packs_pack (hd : depth ≤ 31) (hseg : segId < 2 ^ depth) (hbid : bid < 2 ^ 8) :
    (DashCursor.pack depth segId bid).Packs depth segId bid := by
  refine ⟨hd, hseg, hbid, ?_⟩
  have hlow : bid < 2 ^ (40 - depth) :=
    Nat.lt_of_lt_of_le hbid (Nat.pow_le_pow_right (by decide) (by omega))
  have hpow : 2 ^ depth ≤ 2 ^ 31 := Nat.pow_le_pow_right (by decide) hd
  have htotal : segId * 2 ^ (40 - depth) < 2 ^ 40 := by
    have : 2 ^ depth * 2 ^ (40 - depth) = 2 ^ 40 := by
      rw [← pow_add]
      congr 1
      omega
    rw [← this]
    exact Nat.mul_lt_mul_of_pos_right hseg (Nat.pow_pos (by decide))
  have hseg64 : (UInt64.ofNat segId).toNat = segId := UInt64.toNat_ofNat_of_lt' (by
    show segId < 2 ^ 64
    omega)
  have hbid64 : (UInt64.ofNat bid).toNat = bid := UInt64.toNat_ofNat_of_lt' (by
    show bid < 2 ^ 64
    omega)
  have hshift : (UInt64.ofNat (40 - depth)).toNat % 64 = 40 - depth := by
    rw [UInt64.toNat_ofNat_of_lt' (show 40 - depth < 2 ^ 64 by omega)]
    omega
  show (UInt64.ofNat segId <<< UInt64.ofNat (40 - depth) ||| UInt64.ofNat bid).toNat = _
  rw [UInt64.toNat_or, UInt64.toNat_shiftLeft, hseg64, hbid64, hshift, Nat.shiftLeft_eq,
    Nat.mod_eq_of_lt (Nat.lt_trans htotal (by decide)), ← Nat.shiftLeft_eq,
    ← Nat.shiftLeft_add_eq_or_of_lt hlow, Nat.shiftLeft_eq]

theorem Packs.pow_eq (h : c.Packs depth segId bid) :
    2 ^ (40 - depth) = 2 ^ 8 * 2 ^ (32 - depth) := by
  have := h.depth_le
  rw [← pow_add]
  congr 1
  omega

theorem Packs.bucketId_eq (h : c.Packs depth segId bid) : c.bucketId = bid := by
  unfold bucketId
  rw [UInt64.toNat_and, h.val_eq, show (0xFF : UInt64).toNat = 2 ^ 8 - 1 from rfl,
    Nat.and_two_pow_sub_one_eq_mod, h.pow_eq, Nat.mul_left_comm, Nat.mul_add_mod,
    Nat.mod_eq_of_lt h.bid_lt]

theorem Packs.segmentId_eq (h : c.Packs depth segId bid) : c.segmentId depth = segId := by
  have hd := h.depth_le
  have hlow : bid < 2 ^ (40 - depth) :=
    Nat.lt_of_lt_of_le h.bid_lt (Nat.pow_le_pow_right (by decide) (by omega))
  have hshift : (UInt64.ofNat (40 - depth)).toNat % 64 = 40 - depth := by
    rw [UInt64.toNat_ofNat_of_lt' (show 40 - depth < 2 ^ 64 by omega)]
    omega
  have hpow : 2 ^ depth ≤ 2 ^ 32 := Nat.pow_le_pow_right (by decide) (by omega)
  unfold segmentId
  rw [UInt64.toNat_shiftRight, hshift, h.val_eq, Nat.shiftRight_eq_div_pow, Nat.mul_comm,
    Nat.mul_add_div (Nat.pow_pos (by decide)), Nat.div_eq_of_lt hlow, Nat.add_zero,
    Nat.mod_eq_of_lt (Nat.lt_of_lt_of_le h.segId_lt hpow)]

/-- The same token at a later, larger depth. -/
theorem Packs.deeper (h : c.Packs depth segId bid) {depth' : Nat} (hle : depth ≤ depth')
    (hd : depth' ≤ 31) : c.Packs depth' (segId * 2 ^ (depth' - depth)) bid := by
  refine ⟨hd, ?_, h.bid_lt, ?_⟩
  · have : 2 ^ depth' = 2 ^ depth * 2 ^ (depth' - depth) := by
      rw [← pow_add, Nat.add_sub_cancel' hle]
    rw [this]
    exact Nat.mul_lt_mul_of_pos_right h.segId_lt (Nat.pow_pos (by decide))
  · rw [h.val_eq, Nat.mul_assoc, ← pow_add]
    congr 3
    omega

/-- A token that packs anything but the first position is not the end. -/
theorem Packs.val_ne_zero (h : c.Packs depth segId bid) (hne : segId ≠ 0 ∨ bid ≠ 0) :
    c.val ≠ 0 := by
  intro hzero
  have hval := h.val_eq
  rw [hzero, UInt64.toNat_zero] at hval
  have hpos : 0 < 2 ^ (40 - depth) := Nat.pow_pos (by decide)
  rcases hne with hne | hne
  · have := Nat.mul_pos (Nat.pos_of_ne_zero hne) hpos
    omega
  · omega

end DashCursor

/-! ### Traverse -/

namespace Table

variable (p : Policy K V)

/-- The position after a visit: the next segment, or the first one at the next bucket. -/
def advance (t : Table K V) (bid sid : Nat) : Option (Nat × Nat) :=
  if t.segmentSize ≤ t.nextSeg sid then
    if p.kBucketNum ≤ bid + 1 then none else some (bid + 1, 0)
  else some (bid, t.nextSeg sid)

theorem lt_nextSeg (t : Table K V) (sid : Nat) : sid < t.nextSeg sid := by
  have : 0 < 2 ^ (t.globalDepth - (t.seg sid).localDepth) := Nat.pow_pos (by decide)
  unfold nextSeg
  omega

theorem advance_cases (t : Table K V) (bid sid : Nat) :
    (t.segmentSize ≤ t.nextSeg sid ∧ p.kBucketNum ≤ bid + 1 ∧ t.advance p bid sid = none) ∨
    (t.segmentSize ≤ t.nextSeg sid ∧ bid + 1 < p.kBucketNum ∧
      t.advance p bid sid = some (bid + 1, 0)) ∨
    (t.nextSeg sid < t.segmentSize ∧ t.advance p bid sid = some (bid, t.nextSeg sid)) := by
  unfold advance
  split
  · rename_i hend
    split
    · rename_i hlast
      exact Or.inl ⟨hend, hlast, rfl⟩
    · rename_i hlast
      exact Or.inr (Or.inl ⟨hend, Nat.lt_of_not_le hlast, rfl⟩)
  · rename_i hend
    exact Or.inr (Or.inr ⟨Nat.lt_of_not_le hend, rfl⟩)

/-- The loop of `Traverse`: the iterators handed to the callback, and the cursor. -/
def traverseFrom (t : Table K V) (bid sid : Nat) : List TableIter × DashCursor :=
  let visited := ((t.seg sid).traverseLogicalBucket p bid).map
    fun it => (⟨sid, it.index, it.slot⟩ : TableIter)
  match _h : t.advance p bid sid with
  | none => (visited, ⟨0⟩)
  | some (bid', sid') =>
    if visited = [] then traverseFrom t bid' sid'
    else (visited, DashCursor.pack t.globalDepth sid' bid')
termination_by (p.kBucketNum - bid, t.segmentSize - sid)
decreasing_by
  have hlt := t.lt_nextSeg sid
  rcases t.advance_cases p bid sid with
    ⟨-, -, hnone⟩ | ⟨-, hbid, hsome⟩ | ⟨hsid, hsome⟩
  · rw [hnone] at _h
    cases _h
  · rw [hsome] at _h
    cases _h
    exact Prod.Lex.left _ _ (by omega)
  · rw [hsome] at _h
    cases _h
    exact Prod.Lex.right _ (by omega)

/-- `DashTable::Traverse`. -/
def traverse (t : Table K V) (curs : DashCursor) : List TableIter × DashCursor :=
  let sid := curs.segmentId t.globalDepth
  let bid := curs.bucketId
  if p.kBucketNum ≤ bid ∨ t.segmentSize ≤ sid then ([], ⟨0⟩)
  else traverseFrom p t bid sid

def keyAt (t : Table K V) (it : TableIter) : K :=
  ((t.seg it.segId).bucket it.bucketId).key it.slotId

/-- Some busy slot holds the key. -/
def Holds (t : Table K V) (key : K) : Prop :=
  ∃ it : TableIter, it.segId < t.segmentSize ∧ it.bucketId < p.kTotalBuckets ∧
    ((t.seg it.segId).bucket it.bucketId).isBusy it.slotId = true ∧ t.keyAt it = key

/-! ### Ranks -/

/-- Keys are ranked by home bucket, then by hash. -/
def hashRank (hash : UInt64) : Nat := p.homeIndex hash * 2 ^ 64 + hash.toNat

/-- The rank of a directory index at a bucket. -/
def position (depth bid sid : Nat) : Nat := bid * 2 ^ 64 + sid * 2 ^ (64 - depth)

theorem mul_pow_le {g sid : Nat} (hg : g ≤ 64) (hsid : sid ≤ 2 ^ g) :
    sid * 2 ^ (64 - g) ≤ 2 ^ 64 := by
  rw [← pow_mul_pow_sub 2 hg]
  exact Nat.mul_le_mul_right _ hsid

/-- An interval of directory indices at one bucket is an interval of ranks. -/
theorem hashRank_between {g bid a b : Nat} (hg : g ≤ 64) (hb : b ≤ 2 ^ g) (hash : UInt64) :
    (position g bid a ≤ hashRank p hash ∧ hashRank p hash < position g bid b) ↔
      p.homeIndex hash = bid ∧ a ≤ hashTop g hash ∧ hashTop g hash < b := by
  have hpos : 0 < 2 ^ (64 - g) := Nat.pow_pos (by decide)
  have hbound := mul_pow_le hg hb
  have hlt : hash.toNat < 2 ^ 64 := hash.toNat_lt
  unfold hashTop hashRank position
  rw [Nat.le_div_iff_mul_le hpos, Nat.div_lt_iff_lt_mul hpos]
  constructor
  · rintro ⟨hlo, hhi⟩
    omega
  · rintro ⟨rfl, hlo, hhi⟩
    omega

theorem position_carry {g : Nat} (hg : g ≤ 64) (bid : Nat) :
    position g bid (2 ^ g) = position g (bid + 1) 0 := by
  unfold position
  rw [pow_mul_pow_sub 2 hg, Nat.succ_mul, Nat.zero_mul, Nat.add_zero]

end Table

theorem DashCursor.Packs.rank_eq {c : DashCursor} {depth segId bid : Nat}
    (h : c.Packs depth segId bid) : c.rank = Table.position depth bid segId := by
  have hd := h.depth_le
  have hval : c.val.toNat = 2 ^ 8 * (segId * 2 ^ (32 - depth)) + bid := by
    rw [h.val_eq, h.pow_eq]
    ring
  have hpow : 2 ^ (64 - depth) = 2 ^ (32 - depth) * 2 ^ 32 := by
    rw [← pow_add]
    congr 1
    omega
  unfold rank Table.position
  rw [hval, Nat.mul_add_mod, Nat.mod_eq_of_lt h.bid_lt, Nat.mul_add_div (by decide),
    Nat.div_eq_of_lt h.bid_lt, Nat.add_zero, hpow, Nat.mul_assoc]

/-! ### One call -/

namespace Table

variable {p : Policy K V} {t : Table K V} {m : Finmap fun _ : K => V}

theorem holds_of_mem (hinv : t.Inv p) {i : Nat} (hi : i < 2 ^ t.globalDepth) {it : Iter}
    {e : Entry K V} (hidx : it.index < p.kTotalBuckets) (he : (t.seg i).cell it.at = some e) :
    t.Holds p e.key :=
  ⟨⟨i, it.index, it.slot⟩, hinv.segmentSize ▸ hi, hidx, Bucket.busy_of_cell he,
    (Bucket.key_of_cell he).1⟩

theorem segment_eq_of_cell (hinv : t.Inv p) (hg : t.globalDepth ≤ 31) {i : Nat}
    (hi : i < 2 ^ t.globalDepth) {it : Iter} {e : Entry K V} (hidx : it.index < p.kTotalBuckets)
    (he : (t.seg i).cell it.at = some e) :
    t.segment (t.segmentId (p.hashFn e.key)) = t.segment i := by
  have hslot := Segment.slot_lt_of_cell p (hinv.segInv i hi).slotsWF he
  exact hinv.seg_of_mem hg hi (x := (e.key, e.value))
    ((Segment.mem_contents p).mpr ⟨it.at, (p.mem_cells).mpr ⟨hidx, hslot⟩, e, he, rfl, rfl⟩)

/-- From the first index of a block, `NextSeg` leads to its end. -/
theorem Inv.block_of_isStart (hinv : t.Inv p) {sid : Nat} (hsid : sid < 2 ^ t.globalDepth)
    (hstart : Directory.IsStart t.globalDepth t.segment sid) :
    t.nextSeg sid ≤ 2 ^ t.globalDepth ∧ ∀ j < 2 ^ t.globalDepth,
      t.segment j = t.segment sid ↔ sid ≤ j ∧ j < t.nextSeg sid := by
  have hdvd : 2 ^ (t.globalDepth - (t.seg sid).localDepth) ∣ sid :=
    hinv.aligned.dvd_of_isStart hsid hstart
  have hblock := hinv.block p hsid
  dsimp only at hblock
  rw [Nat.div_mul_cancel hdvd] at hblock
  exact hblock

/-- One visit hands out the keys of its interval. -/
theorem mem_visit (hinv : t.Inv p) (hg : t.globalDepth ≤ 31) {bid sid : Nat}
    (hbid : bid < p.kBucketNum) (hsid : sid < 2 ^ t.globalDepth)
    (hstart : Directory.IsStart t.globalDepth t.segment sid) (key : K) :
    key ∈ (((t.seg sid).traverseLogicalBucket p bid).map
        fun it => (⟨sid, it.index, it.slot⟩ : TableIter)).map t.keyAt ↔
      t.Holds p key ∧ position t.globalDepth bid sid ≤ hashRank p (p.hashFn key) ∧
        hashRank p (p.hashFn key) < position t.globalDepth bid (t.nextSeg sid) := by
  obtain ⟨hend, hblock⟩ := hinv.block_of_isStart hsid hstart
  rw [hashRank_between p (by omega) hend, List.map_map, List.mem_map]
  constructor
  · rintro ⟨it, hit, rfl⟩
    obtain ⟨hidx, e, he, hhome⟩ :=
      (Segment.mem_traverseLogicalBucket p (hinv.segInv sid hsid) hbid).mp hit
    have hkey : t.keyAt ⟨sid, it.index, it.slot⟩ = e.key := (Bucket.key_of_cell he).1
    have hseg := segment_eq_of_cell hinv hg hsid hidx he
    rw [hblock _ (segmentId_lt hg _), segmentId_eq hg] at hseg
    rw [Function.comp_apply, hkey]
    exact ⟨holds_of_mem hinv hsid hidx he, hhome, hseg⟩
  · rintro ⟨⟨it, hseg, hbucket, hbusy, rfl⟩, hhome, hrange⟩
    rw [hinv.segmentSize] at hseg
    obtain ⟨e, he, hk⟩ : ∃ e, (t.seg it.segId).cell it.iter.at = some e ∧ e.key = t.keyAt it :=
      ⟨_, Segment.cell_of_isBusy hbusy, rfl⟩
    rw [← hk] at hhome hrange ⊢
    have hsame := segment_eq_of_cell hinv hg hseg (show it.iter.index < _ from hbucket) he
    rw [← segmentId_eq hg] at hrange
    have hthis := (hblock _ (segmentId_lt hg _)).mpr hrange
    have heq : t.seg it.segId = t.seg sid := seg_congr (hsame.symm.trans hthis)
    rw [heq] at he
    exact ⟨it.iter, (Segment.mem_traverseLogicalBucket p (hinv.segInv sid hsid) hbid).mpr
      ⟨hbucket, e, he, hhome⟩, (Bucket.key_of_cell he).1⟩

/-- No key is handed out twice in a visit. -/
theorem nodup_visit (href : t.Refines p m) {bid sid : Nat} (hbid : bid < p.kBucketNum)
    (hsid : sid < 2 ^ t.globalDepth) :
    ((((t.seg sid).traverseLogicalBucket p bid).map
      fun it => (⟨sid, it.index, it.slot⟩ : TableIter)).map t.keyAt).Nodup := by
  rw [List.map_map]
  refine List.Nodup.map_on ?_ (Segment.nodup_traverseLogicalBucket p (href.segInv sid hsid) hbid)
  intro it hit it' hit' heq
  obtain ⟨hidx, e, he, -⟩ :=
    (Segment.mem_traverseLogicalBucket p (href.segInv sid hsid) hbid).mp hit
  obtain ⟨hidx', e', he', -⟩ :=
    (Segment.mem_traverseLogicalBucket p (href.segInv sid hsid) hbid).mp hit'
  obtain ⟨-, hindex, hslot⟩ := href.slot_unique hsid hsid hidx hidx' (Bucket.busy_of_cell he)
    (Bucket.busy_of_cell he') heq
  exact congrArg₂ Iter.mk hindex hslot

/-- The cursor packs a first index of a block. -/
structure ResumesAt (t : Table K V) (c : DashCursor) (bid sid : Nat) : Prop
    extends c.Packs t.globalDepth sid bid where
  bid_lt_num : bid < p.kBucketNum
  isStart : Directory.IsStart t.globalDepth t.segment sid

/-- The rank a scan has reached when `Traverse` returns this cursor. -/
def stopRank (p : Policy K V) (c : DashCursor) : Nat :=
  if c.val = 0 then p.kBucketNum * 2 ^ 64 else c.rank

/-- Between two positions of the loop there is no gap. -/
theorem advance_some (hinv : t.Inv p) (hg : t.globalDepth ≤ 31) {bid sid bid' sid' : Nat}
    (hbid : bid < p.kBucketNum) (hsid : sid < 2 ^ t.globalDepth)
    (hstart : Directory.IsStart t.globalDepth t.segment sid)
    (h : t.advance p bid sid = some (bid', sid')) :
    position t.globalDepth bid' sid' = position t.globalDepth bid (t.nextSeg sid) ∧
      bid' < p.kBucketNum ∧ sid' < 2 ^ t.globalDepth ∧ (sid' ≠ 0 ∨ bid' ≠ 0) ∧
      Directory.IsStart t.globalDepth t.segment sid' := by
  have hend := (hinv.block_of_isStart hsid hstart).1
  have hlt := t.lt_nextSeg sid
  have hsize := hinv.segmentSize
  rcases t.advance_cases p bid sid with
    ⟨-, -, hnone⟩ | ⟨hlast, hbid', hsome⟩ | ⟨hmore, hsome⟩
  · rw [hnone] at h
    cases h
  · rw [hsome] at h
    cases h
    have hnext : t.nextSeg sid = 2 ^ t.globalDepth := by omega
    rw [hnext, position_carry (by omega)]
    exact ⟨rfl, hbid', Nat.pow_pos (by decide), Or.inr (Nat.succ_ne_zero bid),
      Directory.isStart_zero _ _⟩
  · rw [hsome] at h
    cases h
    exact ⟨rfl, hbid, by omega, Or.inl (by omega), hinv.aligned.isStart_next hsid hstart⟩

theorem advance_none (hinv : t.Inv p) (hg : t.globalDepth ≤ 31) {bid sid : Nat}
    (hbid : bid < p.kBucketNum) (hsid : sid < 2 ^ t.globalDepth)
    (hstart : Directory.IsStart t.globalDepth t.segment sid) (h : t.advance p bid sid = none) :
    position t.globalDepth bid (t.nextSeg sid) = p.kBucketNum * 2 ^ 64 := by
  have hend := (hinv.block_of_isStart hsid hstart).1
  have hsize := hinv.segmentSize
  rcases t.advance_cases p bid sid with
    ⟨hlast, hbid', -⟩ | ⟨-, -, hsome⟩ | ⟨-, hsome⟩
  · have hnext : t.nextSeg sid = 2 ^ t.globalDepth := by omega
    have hnum : bid + 1 = p.kBucketNum := by omega
    rw [hnext, position_carry (by omega), hnum, position, Nat.zero_mul, Nat.add_zero]
  · rw [hsome] at h
    cases h
  · rw [hsome] at h
    cases h

/-- What a call that starts at a rank hands out: every key from there to where it stops,
    once. -/
structure CallSpec (p : Policy K V) (t : Table K V) (start : Nat)
    (r : List TableIter × DashCursor) : Prop where
  nodup : (r.1.map t.keyAt).Nodup
  mem : ∀ key, key ∈ r.1.map t.keyAt ↔ t.Holds p key ∧ start ≤ hashRank p (p.hashFn key) ∧
    hashRank p (p.hashFn key) < stopRank p r.2
  lt : start < stopRank p r.2
  resumes : r.2.val ≠ 0 → ∃ bid sid, t.ResumesAt (p := p) r.2 bid sid

theorem position_lt_nextSeg (t : Table K V) (bid sid : Nat) :
    position t.globalDepth bid sid < position t.globalDepth bid (t.nextSeg sid) :=
  Nat.add_lt_add_left (Nat.mul_lt_mul_of_pos_right (t.lt_nextSeg sid) (Nat.pow_pos (by decide))) _

theorem traverseFrom_spec (href : t.Refines p m) {bid sid : Nat} (hbid : bid < p.kBucketNum)
    (hsid : sid < 2 ^ t.globalDepth) (hstart : Directory.IsStart t.globalDepth t.segment sid) :
    CallSpec p t (position t.globalDepth bid sid) (t.traverseFrom p bid sid) := by
  have hg := href.globalDepth_le
  have hnum := p.kTotalBuckets_lt
  induction bid, sid using traverseFrom.induct p t with
  | case1 bid sid hnone =>
    rw [traverseFrom]
    split
    · have hstop : stopRank p ⟨0⟩ = position t.globalDepth bid (t.nextSeg sid) :=
        (advance_none href.toInv hg hbid hsid hstart hnone).symm
      refine ⟨nodup_visit href hbid hsid, fun key => ?_, ?_, fun hne => absurd rfl hne⟩
      · rw [hstop]
        exact mem_visit href.toInv hg hbid hsid hstart key
      · rw [hstop]
        exact t.position_lt_nextSeg bid sid
    · rename_i hsome
      rw [hnone] at hsome
      cases hsome
  | case2 bid sid visited bid' sid' hsome hempty ih =>
    obtain ⟨hpos, hbid', hsid', -, hstart'⟩ := advance_some href.toInv hg hbid hsid hstart hsome
    have hrest := ih hbid' hsid' hstart'
    rw [traverseFrom]
    split
    · rename_i hnone
      rw [hsome] at hnone
      cases hnone
    · rename_i b s hsome'
      rw [hsome] at hsome'
      cases hsome'
      rw [if_pos hempty]
      refine ⟨hrest.nodup, fun key => ?_, ?_, hrest.resumes⟩
      · -- nothing is held between the two positions
        have hgap := mem_visit href.toInv hg hbid hsid hstart key
        rw [show ((t.seg sid).traverseLogicalBucket p bid).map
          (fun it => (⟨sid, it.index, it.slot⟩ : TableIter)) = [] from hempty] at hgap
        have hlt := t.position_lt_nextSeg bid sid
        rw [hrest.mem, hpos]
        simp only [List.map_nil, List.not_mem_nil, false_iff] at hgap
        constructor
        · rintro ⟨hholds, hlo, hhi⟩
          exact ⟨hholds, by omega, hhi⟩
        · rintro ⟨hholds, hlo, hhi⟩
          refine ⟨hholds, Nat.le_of_not_lt fun hbefore => hgap ⟨hholds, hlo, hbefore⟩, hhi⟩
      · have hlt := t.position_lt_nextSeg bid sid
        have hlt' := hrest.lt
        rw [hpos] at hlt'
        exact Nat.lt_trans hlt hlt'
  | case3 bid sid visited bid' sid' hsome hne =>
    obtain ⟨hpos, hbid', hsid', hnz, hstart'⟩ := advance_some href.toInv hg hbid hsid hstart hsome
    have hpacks := DashCursor.packs_pack hg hsid' (show bid' < 2 ^ 8 by omega)
    have hstop : stopRank p (DashCursor.pack t.globalDepth sid' bid') =
        position t.globalDepth bid (t.nextSeg sid) := by
      rw [stopRank, if_neg (hpacks.val_ne_zero hnz), hpacks.rank_eq, hpos]
    rw [traverseFrom]
    split
    · rename_i hnone
      rw [hsome] at hnone
      cases hnone
    · rename_i b s hsome'
      rw [hsome] at hsome'
      cases hsome'
      rw [if_neg hne]
      refine ⟨nodup_visit href hbid hsid, fun key => ?_, ?_, fun _ =>
        ⟨bid', sid', hpacks, hbid', hstart'⟩⟩
      · rw [hstop]
        exact mem_visit href.toInv hg hbid hsid hstart key
      · rw [hstop]
        exact t.position_lt_nextSeg bid sid

/-- **One call of `Traverse`.** -/
theorem traverse_spec (href : t.Refines p m) {c : DashCursor} {bid sid : Nat}
    (hres : t.ResumesAt (p := p) c bid sid) : CallSpec p t c.rank (t.traverse p c) := by
  have hsid := hres.segId_lt
  have hbid := hres.bid_lt_num
  have hsize := href.segmentSize
  unfold traverse
  rw [hres.toPacks.segmentId_eq, hres.toPacks.bucketId_eq, hres.toPacks.rank_eq]
  rw [if_neg (by omega)]
  exact traverseFrom_spec href hbid hsid hres.isStart

end Table

end StorageEngine.DashTable
