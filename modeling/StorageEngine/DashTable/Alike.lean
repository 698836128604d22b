/-
  StorageEngine/DashTable/Alike.lean
  ==================================
  **Segments that hold different content alike.**

  A segment looks at a key only through its hash and the predicate of a lookup, and at a
  value not at all.  Two segments with the same bitmaps, fingerprints and stash references,
  whose busy slots hold related keys and values, therefore answer alike and stay alike.
  What the other slots hold does not matter, so that an assignment may leave an old content
  behind there.
-/
import StorageEngine.DashTable.InsertRoom

namespace StorageEngine.DashTable

open StorageEngine

variable {K V K' V' : Type}

/-- Segments of the same numbers of slots and buckets. -/
structure Policy.SameShape (p : Policy K V) (q : Policy K' V') : Prop where
  kSlotNum : q.kSlotNum = p.kSlotNum
  kBucketNum : q.kBucketNum = p.kBucketNum

/-- Relations of keys and of values that the functions of two policies respect.  An assignment
    has to do so whatever the slot held before. -/
structure Policy.Relates (p : Policy K V) (q : Policy K' V') (R : K → K' → Prop)
    (S : V → V' → Prop) : Prop extends p.SameShape q where
  hashFn : ∀ {k k'}, R k k' → q.hashFn k' = p.hashFn k
  equal : ∀ {a a' b b'}, R a a' → R b b' → q.equal a' b' = p.equal a b
  assignKey : ∀ d d' {s s'}, R s s' → R (p.assignKey d s) (q.assignKey d' s')
  movedKey : ∀ {s s'}, R s s' → R (p.movedKey s) (q.movedKey s')
  assignValue : ∀ d d' {s s'}, S s s' → S (p.assignValue d s) (q.assignValue d' s')
  movedValue : ∀ {s s'}, S s s' → S (p.movedValue s) (q.movedValue s')

section

variable (p : Policy K V)

/-- Well-formed buckets that differ in the content of their slots only, which is related in the
    busy ones. -/
structure Bucket.Alike (R : K → K' → Prop) (S : V → V' → Prop) (b : Bucket K V)
    (b' : Bucket K' V') : Prop where
  wf : b.slotb.WF p.kSlotNum
  slotb : b'.slotb = b.slotb
  fingerArr : b'.fingerArr = b.fingerArr
  stash : b'.stash = b.stash
  key : ∀ j, b.isBusy j = true → R (b.key j) (b'.key j)
  value : ∀ j, b.isBusy j = true → S (b.value j) (b'.value j)

structure Segment.Alike (R : K → K' → Prop) (S : V → V' → Prop) (s : Segment K V)
    (s' : Segment K' V') : Prop where
  bucket : ∀ i, (s.bucket i).Alike p R S (s'.bucket i)
  localDepth : s'.localDepth = s.localDepth
  segmentId : s'.segmentId = s.segmentId

end

section

variable {p : Policy K V} {q : Policy K' V'} {R : K → K' → Prop} {S : V → V' → Prop}

/-! ### Buckets -/

namespace Policy.SameShape

variable (h : p.SameShape q)

include h

theorem kTotalBuckets : q.kTotalBuckets = p.kTotalBuckets := by
  unfold Policy.kTotalBuckets
  rw [h.kBucketNum]

theorem homeIndex (hash : UInt64) : q.homeIndex hash = p.homeIndex hash := by
  unfold Policy.homeIndex
  rw [h.kBucketNum]

theorem nextBid (bid : Nat) : q.nextBid bid = p.nextBid bid := by
  unfold Policy.nextBid
  rw [h.kBucketNum]

theorem prevBid (bid : Nat) : q.prevBid bid = p.prevBid bid := by
  unfold Policy.prevBid
  rw [h.kBucketNum]

end Policy.SameShape

namespace Bucket

variable {b : Bucket K V} {b' : Bucket K' V'}

theorem isBusy_of_setSlot {m : SlotBitmap} {slot j : Nat} {probe : Bool}
    (h : (m.setSlot slot probe).busy.getLsbD j = true) : m.busy.getLsbD j = true ∨ j = slot := by
  by_cases hj : j = slot
  · exact Or.inr hj
  · left
    simp only [SlotBitmap.setSlot, BitVec.getLsbD_or, BitVec.getLsbD_shiftLeft, Bool.or_eq_true,
      Bool.and_eq_true] at h
    rcases h with h | ⟨⟨-, hle⟩, hbit⟩
    · exact h
    · have hle' : ¬ j < slot := by simpa using hle
      rw [BitVec.getLsbD_one, Bool.and_eq_true, decide_eq_true_eq, decide_eq_true_eq] at hbit
      exact absurd (Nat.le_antisymm (Nat.sub_eq_zero_iff_le.mp hbit.2) (Nat.not_lt.mp hle')) hj

theorem Alike.isBusy (h : b.Alike p R S b') (j : Nat) : b'.isBusy j = b.isBusy j := by
  unfold Bucket.isBusy getBusy
  rw [h.slotb]

theorem Alike.size (h : b.Alike p R S b') : b'.size = b.size := by
  unfold Bucket.size
  rw [h.slotb]

/-- A change that makes no slot busy and writes related content. -/
theorem Alike.write (h : b.Alike p R S b') {slot : Nat} {k : K} {k' : K'} {v : V} {v' : V'}
    (hcontent : b.isBusy slot = true → R k k' ∧ S v v') :
    Alike p R S
      { b with key := Function.update b.key slot k, value := Function.update b.value slot v }
      { b' with
        key := Function.update b'.key slot k', value := Function.update b'.value slot v' } := by
  refine ⟨h.wf, h.slotb, h.fingerArr, h.stash, ?_, ?_⟩
  · intro j hj
    by_cases heq : j = slot
    · subst heq
      simpa using (hcontent hj).1
    · simpa [heq] using h.key j hj
  · intro j hj
    by_cases heq : j = slot
    · subst heq
      simpa using (hcontent hj).2
    · simpa [heq] using h.value j hj

theorem Alike.delete (h : b.Alike p R S b') (slot : Nat) :
    (b.delete slot).Alike p R S (b'.delete slot) := by
  have hbusy : ∀ j, (b.delete slot).isBusy j = true → b.isBusy j = true := by
    intro j hj
    simp only [Bucket.delete, Bucket.isBusy, getBusy, SlotBitmap.getBusy, SlotBitmap.clearSlot,
      BitVec.getLsbD_and, Bool.and_eq_true] at hj
    exact hj.1
  refine ⟨h.wf.clearSlots _, ?_, h.fingerArr, h.stash, fun j hj => h.key j (hbusy j hj),
    fun j hj => h.value j (hbusy j hj)⟩
  unfold Bucket.delete
  rw [h.slotb]

theorem Alike.clearSlots (h : b.Alike p R S b') (mask : BitVec 32) :
    (b.clearSlots mask).Alike p R S (b'.clearSlots mask) := by
  have hbusy : ∀ j, (b.clearSlots mask).isBusy j = true → b.isBusy j = true := by
    intro j hj
    simp only [Bucket.clearSlots, Bucket.isBusy, getBusy, SlotBitmap.getBusy, SlotBitmap.clearSlots,
      BitVec.getLsbD_and, Bool.and_eq_true] at hj
    exact hj.1
  refine ⟨h.wf.clearSlots _, ?_, h.fingerArr, h.stash, fun j hj => h.key j (hbusy j hj),
    fun j hj => h.value j (hbusy j hj)⟩
  unfold Bucket.clearSlots
  rw [h.slotb]

section Shape

variable (hpq : p.SameShape q)

include hpq

theorem Alike.isFull (h : b.Alike p R S b') : b'.isFull q = b.isFull p := by
  unfold Bucket.isFull
  rw [h.slotb, hpq.kSlotNum]

theorem Alike.getProbe (h : b.Alike p R S b') (probe : Bool) :
    b'.getProbe q probe = b.getProbe p probe := by
  unfold Bucket.getProbe
  rw [h.slotb, hpq.kSlotNum]

theorem Alike.busySlots (h : b.Alike p R S b') : b'.busySlots q = b.busySlots p := by
  unfold Bucket.busySlots getBusy
  rw [h.slotb, hpq.kSlotNum]

theorem Alike.find (h : b.Alike p R S b') (fp : UInt8) (probe : Bool) :
    b'.find q fp probe = b.find p fp probe := by
  have hlane : ∀ i, b'.lane q i = b.lane p i := by
    intro i
    unfold lane
    rw [h.fingerArr, h.stash, hpq.kSlotNum]
  unfold Bucket.find compareFP getBusy
  simp only [hlane, h.slotb, h.getProbe hpq]

end Shape

section Related

variable (hpq : p.Relates q R S)

include hpq

/-- The predicate is asked about busy slots only. -/
theorem Alike.findByFp (h : b.Alike p R S b') {pred : K → Bool} {pred' : K' → Bool}
    (hpred : ∀ {k k'}, R k k' → pred' k' = pred k) (fp : UInt8) (probe : Bool) :
    b'.findByFp q fp probe pred' = b.findByFp p fp probe pred := by
  unfold Bucket.findByFp
  rw [h.find hpq.toSameShape, hpq.kSlotNum]
  dsimp only
  split
  · rfl
  · apply List.find?_congr
    intro i hi
    cases hbit : (b.find p fp probe >>> (b.find p fp probe).ctz.toNat).getLsbD
        (i - (b.find p fp probe).ctz.toNat) with
    | false => rfl
    | true =>
      have hle : (b.find p fp probe).ctz.toNat ≤ i := (List.mem_range'_1.mp hi).1
      rw [BitVec.getLsbD_ushiftRight, Nat.add_sub_cancel' hle] at hbit
      simp only [Bucket.find, BitVec.getLsbD_and, Bool.and_eq_true] at hbit
      rw [hpred (h.key i hbit.1.2)]

theorem Alike.moveOut (h : b.Alike p R S b') (slot : Nat) :
    (b.moveOut p slot).Alike p R S (b'.moveOut q slot) :=
  h.write fun hbusy => ⟨hpq.movedKey (h.key slot hbusy), hpq.movedValue (h.value slot hbusy)⟩

theorem Alike.insert (h : b.Alike p R S b') {u : K} {u' : K'} {v : V} {v' : V'} (hu : R u u')
    (hv : S v v') {slot : Nat} (hslot : slot < p.kSlotNum) (fp : UInt8) (probe : Bool) :
    (b.insert p slot u v fp probe).Alike p R S (b'.insert q slot u' v' fp probe) := by
  refine ⟨h.wf.setSlot p.kSlotNum_le hslot probe, ?_, ?_, h.stash, ?_, ?_⟩
  · unfold Bucket.insert
    rw [h.slotb]
  · unfold Bucket.insert
    rw [h.fingerArr]
  · intro j hj
    simp only [Bucket.insert]
    by_cases heq : j = slot
    · subst heq
      simpa using hpq.assignKey _ _ hu
    · simpa [heq] using h.key j ((isBusy_of_setSlot hj).resolve_right heq)
  · intro j hj
    simp only [Bucket.insert]
    by_cases heq : j = slot
    · subst heq
      simpa using hpq.assignValue _ _ hv
    · simpa [heq] using h.value j ((isBusy_of_setSlot hj).resolve_right heq)

end Related

end Bucket

/-! ### Segments -/

namespace Segment

variable {s : Segment K V} {s' : Segment K' V'}

theorem Alike.slotsWF (h : s.Alike p R S s') : s.SlotsWF p := fun i => (h.bucket i).wf

theorem Alike.setBucket (h : s.Alike p R S s') {b : Bucket K V} {b' : Bucket K' V'}
    (hb : b.Alike p R S b') (i : Nat) : (s.setBucket i b).Alike p R S (s'.setBucket i b') := by
  refine ⟨fun j => ?_, h.localDepth, h.segmentId⟩
  show (Function.update s.bucket i b j).Alike p R S (Function.update s'.bucket i b' j)
  by_cases hj : j = i
  · rw [hj, Function.update_self, Function.update_self]
    exact hb
  · rw [Function.update_of_ne hj, Function.update_of_ne hj]
    exact h.bucket j

theorem Alike.setStash (h : s.Alike p R S s') (i : Nat) (st : StashPtrs) :
    (s.setStash i st).Alike p R S (s'.setStash i st) := by
  have hb := h.bucket i
  have hst : Bucket.Alike p R S { s.bucket i with stash := st } { s'.bucket i with stash := st } :=
    ⟨hb.wf, hb.slotb, hb.fingerArr, rfl, hb.key, hb.value⟩
  exact h.setBucket hst i

/-- The results of an insertion. -/
structure InsertRes.Alike (p : Policy K V) (R : K → K' → Prop) (S : V → V' → Prop)
    (r : InsertRes K V) (r' : InsertRes K' V') : Prop where
  seg : r.seg.Alike p R S r'.seg
  it : r'.it = r.it
  moves : r'.moves = r.moves

section Shape

variable (hpq : p.SameShape q)

include hpq

theorem Alike.recordRef (h : s.Alike p R S s') (y stashPos : Nat) (fp : UInt8) :
    (s.recordRef p y stashPos fp).Alike p R S (s'.recordRef q y stashPos fp) := by
  unfold Segment.recordRef
  rw [hpq.nextBid, (h.bucket _).stash, (h.bucket _).stash]
  cases (s.bucket y).stash.setStash fp stashPos false with
  | some st => exact h.setStash y st
  | none =>
    cases (s.bucket (p.nextBid y)).stash.setStash fp stashPos true with
    | some st => exact h.setStash _ st
    | none => exact h.setStash y _

theorem Alike.setStashPtr (h : s.Alike p R S s') (y stashPos : Nat) (fp : UInt8) :
    (s.setStashPtr p y stashPos fp).Alike p R S (s'.setStashPtr q y stashPos fp) := by
  have hrecord := h.recordRef hpq y stashPos fp
  unfold Segment.setStashPtr
  dsimp only
  rw [(hrecord.bucket y).stash]
  exact hrecord.setStash y _

theorem Alike.forgetRef (h : s.Alike p R S s') (y : Nat) (fp : UInt8) (stashPos : Nat) :
    (s.forgetRef p y fp stashPos).Alike p R S (s'.forgetRef q y fp stashPos) := by
  unfold Segment.forgetRef
  rw [hpq.nextBid, (h.bucket _).stash, (h.bucket _).stash]
  cases (s.bucket y).stash.clearStash fp stashPos false with
  | some st => exact h.setStash y st
  | none =>
    cases (s.bucket (p.nextBid y)).stash.clearStash fp stashPos true with
    | some st => exact h.setStash _ st
    | none => exact h.setStash y _

theorem Alike.unsetStashPtr (h : s.Alike p R S s') (y : Nat) (fp : UInt8) (stashPos : Nat) :
    (s.unsetStashPtr p y fp stashPos).Alike p R S (s'.unsetStashPtr q y fp stashPos) := by
  have hforget := h.forgetRef hpq y fp stashPos
  have hleft : (s'.forgetRef q y fp stashPos).noStashLeft q y =
      (s.forgetRef p y fp stashPos).noStashLeft p y := by
    unfold Segment.noStashLeft
    rw [hpq.nextBid, (hforget.bucket _).stash, (hforget.bucket _).stash]
  unfold Segment.unsetStashPtr
  dsimp only
  rw [hleft, (hforget.bucket y).stash]
  split
  · exact hforget.setStash y _
  · exact hforget

theorem Alike.removeStashReference (h : s.Alike p R S s') (stashPos : Nat) (hash : UInt64) :
    (s.removeStashReference p stashPos hash).Alike p R S
      (s'.removeStashReference q stashPos hash) := by
  unfold Segment.removeStashReference
  rw [hpq.homeIndex]
  exact h.unsetStashPtr hpq _ _ _

theorem Alike.overflowAssert (h : s.Alike p R S s') (y : Nat) (fp : UInt8) (stashPos : Nat) :
    s'.overflowAssert q y fp stashPos = s.overflowAssert p y fp stashPos := by
  unfold Segment.overflowAssert
  rw [hpq.nextBid, (h.bucket _).stash, (h.bucket _).stash]

theorem Alike.delete (h : s.Alike p R S s') (it : Iter) (hash : UInt64) :
    (s.delete p it hash).Alike p R S (s'.delete q it hash) := by
  have hrefs := h.removeStashReference hpq (it.index - p.kBucketNum) hash
  unfold Segment.delete
  dsimp only
  rw [hpq.kBucketNum]
  split
  · exact hrefs.setBucket ((hrefs.bucket _).delete _) _
  · exact h.setBucket ((h.bucket _).delete _) _

end Shape

section Related

variable (hpq : p.Relates q R S)

include hpq

/-- What `TryInsertToBucket` does to the two segments. -/
theorem Alike.tryInsert (h : s.Alike p R S s') {u : K} {u' : K'} {v : V} {v' : V'} (hu : R u u')
    (hv : S v v') (i : Nat) (fp : UInt8) (probe : Bool) :
    ((s.bucket i).isFull p = true ∧ s.tryInsert p i u v fp probe = (s, none) ∧
        s'.tryInsert q i u' v' fp probe = (s', none)) ∨
      ∃ s₁ s₂ slot, s.tryInsert p i u v fp probe = (s₁, some slot) ∧
        s'.tryInsert q i u' v' fp probe = (s₂, some slot) ∧ s₁.Alike p R S s₂ := by
  have hb := h.bucket i
  cases hfull : (s.bucket i).isFull p with
  | true =>
    have hfull' : (s'.bucket i).isFull q = true := (hb.isFull hpq.toSameShape).trans hfull
    exact Or.inl ⟨rfl, tryInsert_of_full p hfull u v fp probe,
      tryInsert_of_full q hfull' u' v' fp probe⟩
  | false =>
    have hfull' : (s'.bucket i).isFull q = false := (hb.isFull hpq.toSameShape).trans hfull
    have hslot := (SlotBitmap.findEmptySlot_spec p.kSlotNum_le hb.wf hfull).1
    right
    unfold Segment.tryInsert Bucket.tryInsertToBucket
    simp only [hfull, hfull', Bool.false_eq_true, if_false, hb.slotb]
    exact ⟨_, _, _, rfl, rfl, h.setBucket (hb.insert hpq hu hv hslot fp probe) i⟩

/-- What `MoveToOther` does.  In a full bucket the slot that is moved is a busy one. -/
theorem Alike.moveToOther (h : s.Alike p R S s') (own : Bool) {fromBid : Nat}
    (hfull : (s.bucket fromBid).isFull p = true) (toBid : Nat) :
    (s.moveToOther p own fromBid toBid = (s, none) ∧
      s'.moveToOther q own fromBid toBid = (s', none)) ∨
      ∃ s₁ s₂ slot, s.moveToOther p own fromBid toBid = (s₁, some slot) ∧
        s'.moveToOther q own fromBid toBid = (s₂, some slot) ∧ s₁.Alike p R S s₂ ∧
        slot < p.kSlotNum := by
  have hb := h.bucket fromBid
  unfold Segment.moveToOther
  dsimp only
  rw [hb.getProbe hpq.toSameShape, hb.fingerArr]
  by_cases hzero : (s.bucket fromBid).getProbe p (!own) = 0#32
  · rw [if_pos hzero, if_pos hzero]
    exact Or.inl ⟨rfl, rfl⟩
  · rw [if_neg hzero, if_neg hzero]
    have hbit := BitMask.getLsbD_ctz_of_ne_zero hzero
    rw [Bucket.getProbe, SlotBitmap.getLsbD_getProbe p.kSlotNum_le, Bool.and_eq_true,
      decide_eq_true_eq] at hbit
    have hbusy := (SlotBitmap.isFull_iff hb.wf).mp hfull _ hbit.1
    rcases h.tryInsert hpq (hb.key _ hbusy) (hb.value _ hbusy) toBid
      ((s.bucket fromBid).fingerArr ((s.bucket fromBid).getProbe p (!own)).ctz.toNat) own with
      ⟨-, hp, hq⟩ | ⟨s₁, s₂, slot, hp, hq, hseg⟩
    · left
      unfold Bucket.getProbe at hp hq ⊢
      rw [hp, hq]
      exact ⟨rfl, rfl⟩
    · right
      unfold Bucket.getProbe at hp hq ⊢
      rw [hp, hq]
      exact ⟨_, _, _, rfl, rfl,
        hseg.setBucket (((hseg.bucket fromBid).moveOut hpq _).delete _) fromBid, hbit.1⟩

/-- The stash loop. -/
theorem Alike.insertStash (h : s.Alike p R S s') {key : K} {key' : K'} {value : V} {value' : V'}
    (hkey : R key key') (hvalue : S value value') (bid : Nat) (fp : UInt8) (l : List Nat) :
    (s.insertStash p bid key value fp l).Alike p R S (s'.insertStash q bid key' value' fp l) := by
  induction l generalizing s s' with
  | nil => exact ⟨h, rfl, rfl⟩
  | cons i rest ih =>
    unfold Segment.insertStash
    dsimp only
    rw [hpq.kBucketNum]
    rcases h.tryInsert hpq hkey hvalue (p.kBucketNum + (bid + i) % kStashBucketNum) fp false with
      ⟨-, hp, hq⟩ | ⟨s₁, s₂, slot, hp, hq, hseg⟩
    · rw [hp, hq]
      exact ih h
    · rw [hp, hq]
      exact ⟨hseg.setStashPtr hpq.toSameShape _ _ _, rfl, rfl⟩

/-- The displacements, with both buckets full. -/
theorem Alike.insertDisplacing (h : s.Alike p R S s') {key : K} {key' : K'} {value : V}
    {value' : V'} (hkey : R key key') (hvalue : S value value') {bid : Nat}
    (hhome : (s.bucket bid).isFull p = true) (hnext : (s.bucket (p.nextBid bid)).isFull p = true)
    (fp : UInt8) :
    (s.insertDisplacing p bid key value fp).Alike p R S
      (s'.insertDisplacing q bid key' value' fp) := by
  unfold Segment.insertDisplacing
  dsimp only
  rw [hpq.nextBid, hpq.nextBid, hpq.prevBid]
  rcases h.moveToOther hpq true hnext (p.nextBid (p.nextBid bid)) with
    ⟨hp, hq⟩ | ⟨s₁, s₂, slot, hp, hq, hseg, hslot⟩
  · rw [hp, hq]
    dsimp only
    rcases h.moveToOther hpq false hhome (p.prevBid bid) with
      ⟨hp, hq⟩ | ⟨s₁, s₂, slot, hp, hq, hseg, hslot⟩
    · rw [hp, hq]
      exact h.insertStash hpq hkey hvalue bid fp _
    · rw [hp, hq]
      exact ⟨hseg.setBucket ((hseg.bucket bid).insert hpq hkey hvalue hslot fp false) bid, rfl, rfl⟩
  · rw [hp, hq]
    exact ⟨hseg.setBucket ((hseg.bucket _).insert hpq hkey hvalue hslot fp true) _, rfl, rfl⟩

theorem Alike.insertUniq (h : s.Alike p R S s') {key : K} {key' : K'} {value : V} {value' : V'}
    (hkey : R key key') (hvalue : S value value') (hash : UInt64) (spread : Bool) :
    (s.insertUniq p key value hash spread).Alike p R S
      (s'.insertUniq q key' value' hash spread) := by
  have hhomeLe := size_le p h.slotsWF (p.homeIndex hash)
  have hsize : ∀ i, (s.bucket i).isFull p = true ↔ (s.bucket i).size = p.kSlotNum :=
    fun _ => beq_iff_eq
  unfold Segment.insertUniq
  dsimp only
  rw [hpq.homeIndex, hpq.nextBid, (h.bucket _).size, (h.bucket _).size]
  rcases h.tryInsert hpq hkey hvalue
    (if (spread && decide ((s.bucket (p.nextBid (p.homeIndex hash))).size <
      (s.bucket (p.homeIndex hash)).size)) = true then p.nextBid
        (p.homeIndex hash) else p.homeIndex hash)
      (fingerprint hash) (spread && decide ((s.bucket (p.nextBid (p.homeIndex hash))).size <
      (s.bucket (p.homeIndex hash)).size)) with
    ⟨hfull, hp, hq⟩ | ⟨s₁, s₂, slot, hp, hq, hseg⟩
  · rw [hp, hq]
    cases spread with
    | true =>
      -- the bucket with fewer entries is full, so both are
      have hboth : (s.bucket (p.homeIndex hash)).isFull p = true ∧
          (s.bucket (p.nextBid (p.homeIndex hash))).isFull p = true := by
        rw [Bool.true_and, hsize] at hfull
        rw [hsize, hsize]
        have hnextLe := size_le p h.slotsWF (p.nextBid (p.homeIndex hash))
        split at hfull <;> simp_all <;> omega
      exact h.insertDisplacing hpq hkey hvalue hboth.1 hboth.2 _
    | false =>
      have hhome : (s.bucket (p.homeIndex hash)).isFull p = true := by simpa using hfull
      simp only [Bool.false_eq_true, if_false]
      rcases h.tryInsert hpq hkey hvalue (p.nextBid (p.homeIndex hash)) (fingerprint hash) true with
        ⟨hnext, hp, hq⟩ | ⟨s₁, s₂, slot, hp, hq, hseg⟩
      · rw [hp, hq]
        exact h.insertDisplacing hpq hkey hvalue hhome hnext _
      · rw [hp, hq]
        exact ⟨hseg, rfl, rfl⟩
  · rw [hp, hq]
    exact ⟨hseg, rfl, rfl⟩

theorem Alike.findIt (h : s.Alike p R S s') {pred : K → Bool} {pred' : K' → Bool}
    (hpred : ∀ {k k'}, R k k' → pred' k' = pred k) (hash : UInt64) :
    s'.findIt q hash pred' = s.findIt p hash pred := by
  have hfp : ∀ i fp probe, (s'.bucket i).findByFp q fp probe pred' =
      (s.bucket i).findByFp p fp probe pred :=
    fun i fp probe => (h.bucket i).findByFp hpq hpred fp probe
  unfold Segment.findIt
  simp only [hpq.homeIndex, hpq.nextBid, hpq.kBucketNum, hfp, (h.bucket _).stash]

theorem Alike.insert (h : s.Alike p R S s') {key : K} {key' : K'} {value : V} {value' : V'}
    (hkey : R key key') (hvalue : S value value') (hash : UInt64) {pred : K → Bool}
    {pred' : K' → Bool} (hpred : ∀ {k k'}, R k k' → pred' k' = pred k) :
    (s.insert p key value hash pred).1.Alike p R S (s'.insert q key' value' hash pred').1 ∧
      (s'.insert q key' value' hash pred').2 = (s.insert p key value hash pred).2 := by
  have hinsert := h.insertUniq hpq hkey hvalue hash true
  unfold Segment.insert
  rw [h.findIt hpq hpred hash]
  cases s.findIt p hash pred with
  | some it => exact ⟨⟨h, rfl, rfl⟩, rfl⟩
  | none =>
    refine ⟨hinsert, ?_⟩
    dsimp only
    rw [hinsert.it]

end Related

/-- Alike but for the contents, which are related by what the slots hold. -/
theorem Alike.of_raw (h : s.Alike p (fun _ _ => True) (fun _ _ => True) s')
    (hraw : ∀ x, (s.raw x).1 = true →
      R (s.raw x).2.1 (s'.raw x).2.1 ∧ S (s.raw x).2.2 (s'.raw x).2.2) : s.Alike p R S s' := by
  refine ⟨fun i => ?_, h.localDepth, h.segmentId⟩
  have hb := h.bucket i
  exact ⟨hb.wf, hb.slotb, hb.fingerArr, hb.stash, fun j hj => (hraw (i, j) hj).1,
    fun j hj => (hraw (i, j) hj).2⟩

theorem Alike.forget (h : s.Alike p R S s') : s.Alike p (fun _ _ => True) (fun _ _ => True) s' := by
  refine ⟨fun i => ?_, h.localDepth, h.segmentId⟩
  have hb := h.bucket i
  exact ⟨hb.wf, hb.slotb, hb.fingerArr, hb.stash, fun _ _ => trivial, fun _ _ => trivial⟩

/-- Destroying the content of a slot and deleting it. -/
theorem Alike.erase (hpq : p.SameShape q) (h : s.Alike p R S s') (it : Iter)
    (hslot : it.slot < p.kSlotNum) (hash : UInt64) :
    ((s.destroySlot p it).delete p it hash).Alike p R S
      ((s'.destroySlot q it).delete q it hash) := by
  have hlt : it.slot < 32 := Nat.lt_trans hslot p.kSlotNum_lt
  apply Alike.of_raw
  · apply Alike.delete hpq
    unfold Segment.destroySlot
    exact h.forget.setBucket ((h.forget.bucket it.index).write fun _ => ⟨trivial, trivial⟩) it.index
  · intro x hbusy
    rw [raw_delete p _ it hlt, raw_destroySlot] at hbusy ⊢
    rw [raw_delete q _ it hlt, raw_destroySlot]
    by_cases hx : x = it.at
    · rw [hx, Function.update_self] at hbusy
      cases hbusy
    · rw [Function.update_of_ne hx, Function.update_of_ne hx] at hbusy ⊢
      rw [Function.update_of_ne hx, Function.update_of_ne hx]
      exact ⟨(h.bucket x.1).key x.2 hbusy, (h.bucket x.1).value x.2 hbusy⟩

end Segment

end

end StorageEngine.DashTable
