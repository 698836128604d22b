/-
  StorageEngine/DashTable/InsertRoom.lean
  =======================================
  **Insertions that move nothing.**

  As long as a bucket has room for a new entry, an insertion writes one free slot and nothing
  else.  Nothing is assumed of the assignments of keys and values here: the slot holds what
  they make of its old content, so what a free slot still contains is kept track of as well.
-/
import StorageEngine.DashTable.TableInsert

namespace StorageEngine.DashTable

open StorageEngine

variable {K V : Type}

namespace Bucket

variable (p : Policy K V)

/-- The content of a slot, busy or not. -/
def raw (b : Bucket K V) (j : Nat) : Bool × K × V := (b.isBusy j, b.key j, b.value j)

theorem raw_insert (b : Bucket K V) {j : Nat} (hj : j < 32) (u : K) (v : V) (fp : UInt8)
    (probe : Bool) :
    (b.insert p j u v fp probe).raw =
      Function.update b.raw j (true, p.assignKey (b.key j) u, p.assignValue (b.value j) v) := by
  funext k
  by_cases hk : k = j
  · subst hk
    simp [raw, insert, isBusy, getBusy, SlotBitmap.getBusy, SlotBitmap.getLsbD_busy_setSlot _ hj]
  · simp [raw, insert, isBusy, getBusy, SlotBitmap.getBusy,
      SlotBitmap.getLsbD_busy_setSlot _ hj, hk]

theorem raw_delete (b : Bucket K V) {j : Nat} (hj : j < 32) :
    (b.delete j).raw = Function.update b.raw j (false, b.key j, b.value j) := by
  have hcell := cell_delete hj b
  funext k
  have hbusy : (b.delete j).isBusy k = (Function.update b.cell j none k).isSome := by
    rw [← hcell]
    exact (cell_isSome).symm
  by_cases hk : k = j
  · subst hk
    rw [Function.update_self] at hbusy ⊢
    exact Prod.ext hbusy rfl
  · rw [Function.update_of_ne hk] at hbusy ⊢
    rw [cell_isSome] at hbusy
    exact Prod.ext hbusy rfl

/-- A key and a value are written. -/
theorem raw_write (b : Bucket K V) (j : Nat) (u : K) (v : V) :
    ({ b with key := Function.update b.key j u, value := Function.update b.value j v } :
      Bucket K V).raw = Function.update b.raw j (b.isBusy j, u, v) := by
  funext k
  by_cases hk : k = j
  · subst hk
    simp [raw, isBusy, getBusy]
  · simp [raw, isBusy, getBusy, hk]

end Bucket

namespace Segment

variable (p : Policy K V)

/-- The content of the slot `x = (bucket, slot)`, busy or not. -/
def raw (s : Segment K V) (x : Nat × Nat) : Bool × K × V := (s.bucket x.1).raw x.2

theorem raw_setBucket {s : Segment K V} {i j : Nat} {b : Bucket K V} {o : Bool × K × V}
    (h : b.raw = Function.update (s.bucket i).raw j o) :
    (s.setBucket i b).raw = Function.update s.raw (i, j) o := by
  funext x
  obtain ⟨i', j'⟩ := x
  by_cases hi : i' = i
  · subst hi
    by_cases hj : j' = j
    · subst hj
      simp [raw, h]
    · simp [raw, h, hj]
  · simp [raw, hi]

@[simp] theorem raw_setStash (s : Segment K V) (i : Nat) (st : StashPtrs) :
    (s.setStash i st).raw = s.raw := by
  funext x
  by_cases hx : x.1 = i
  · subst hx
    simp [raw, setStash, Bucket.raw, Bucket.isBusy, Bucket.getBusy]
  · simp [raw, setStash, hx]

theorem raw_setStashPtr (s : Segment K V) (y q : Nat) (fp : UInt8) :
    (s.setStashPtr p y q fp).raw = s.raw := by
  unfold setStashPtr recordRef
  split
  · simp
  · split <;> simp

theorem SlotsWF.setStashPtr {s : Segment K V} (h : s.SlotsWF p) (y q : Nat) (fp : UInt8) :
    (s.setStashPtr p y q fp).SlotsWF p := by
  unfold Segment.setStashPtr recordRef
  split
  · exact (h.setStash p _ _).setStash p _ _
  · split
    · exact (h.setStash p _ _).setStash p _ _
    · exact (h.setStash p _ _).setStash p _ _

theorem raw_unsetStashPtr (s : Segment K V) (y : Nat) (fp : UInt8) (q : Nat) :
    (s.unsetStashPtr p y fp q).raw = s.raw := by
  have hforget : (s.forgetRef p y fp q).raw = s.raw := by
    unfold forgetRef
    split
    · simp
    · split <;> simp
  unfold unsetStashPtr
  dsimp only
  split
  · rw [raw_setStash, hforget]
  · exact hforget

/-- `DestroyKey` and `DestroyValue` on one slot. -/
theorem raw_destroySlot (s : Segment K V) (it : Iter) :
    (s.destroySlot p it).raw = Function.update s.raw it.at
      ((s.raw it.at).1, p.destroyKey (s.raw it.at).2.1, p.destroyValue (s.raw it.at).2.2) :=
  raw_setBucket (Bucket.raw_write _ it.slot _ _)

/-- `Segment::Delete` leaves the content of the slot where it is. -/
theorem raw_delete (s : Segment K V) (it : Iter) (hslot : it.slot < 32) (hash : UInt64) :
    (s.delete p it hash).raw = Function.update s.raw it.at (false, (s.raw it.at).2) := by
  have hdelete : ∀ s' : Segment K V,
      (s'.setBucket it.index ((s'.bucket it.index).delete it.slot)).raw =
        Function.update s'.raw it.at (false, (s'.raw it.at).2) :=
    fun s' => raw_setBucket (Bucket.raw_delete _ hslot)
  unfold delete
  dsimp only
  rw [hdelete]
  split
  · rw [removeStashReference, raw_unsetStashPtr]
  · rfl

theorem SlotsWF.destroySlot {s : Segment K V} (h : s.SlotsWF p) (it : Iter) :
    (s.destroySlot p it).SlotsWF p :=
  h.setBucket p _ (h it.index)

theorem SlotsWF.delete {s : Segment K V} (h : s.SlotsWF p) (it : Iter) (hash : UInt64) :
    (s.delete p it hash).SlotsWF p := by
  unfold Segment.delete
  dsimp only
  split
  · have hunset := h.unsetStashPtr p (p.homeIndex hash) (fingerprint hash) (it.index - p.kBucketNum)
    exact hunset.setBucket p _ ((hunset it.index).clearSlots _)
  · exact h.setBucket p _ ((h it.index).clearSlots _)

/-- The free slot `x` is filled, and no other slot is written. -/
structure Fills (s s' : Segment K V) (x : Nat × Nat) (key : K) (value : V) : Prop where
  bucket_lt : x.1 < p.kTotalBuckets
  slot_lt : x.2 < p.kSlotNum
  free : (s.raw x).1 = false
  raw : s'.raw = Function.update s.raw x
    (true, p.assignKey (s.raw x).2.1 key, p.assignValue (s.raw x).2.2 value)
  slotsWF : s'.SlotsWF p

/-! ### One bucket -/

/-- The first empty slot of a bucket. -/
def emptyAt (s : Segment K V) (i : Nat) : Nat × Nat := (i, (s.bucket i).slotb.findEmptySlot)

theorem tryInsert_of_full {s : Segment K V} {i : Nat} (h : (s.bucket i).isFull p = true) (u : K)
    (v : V) (fp : UInt8) (probe : Bool) : s.tryInsert p i u v fp probe = (s, none) := by
  unfold tryInsert Bucket.tryInsertToBucket
  simp [h]

theorem tryInsert_of_free {s : Segment K V} (hwf : s.SlotsWF p) {i : Nat} (hi : i < p.kTotalBuckets)
    (h : (s.bucket i).isFull p = false) (u : K) (v : V) (fp : UInt8) (probe : Bool) :
    ∃ s', s.tryInsert p i u v fp probe = (s', some (s.emptyAt i).2) ∧
      Fills p s s' (s.emptyAt i) u v := by
  obtain ⟨hlt, hfree⟩ := SlotBitmap.findEmptySlot_spec p.kSlotNum_le (hwf i) h
  have hraw := Bucket.raw_insert p (s.bucket i) (Nat.lt_trans hlt p.kSlotNum_lt) u v fp probe
  refine ⟨s.setBucket i ((s.bucket i).insert p (s.bucket i).slotb.findEmptySlot u v fp probe),
    ?_, ⟨hi, hlt, hfree, raw_setBucket hraw, ?_⟩⟩
  · unfold tryInsert Bucket.tryInsertToBucket
    simp only [h, Bool.false_eq_true, if_false]
    rfl
  · exact hwf.setBucket p i ((hwf i).setSlot p.kSlotNum_le hlt probe)

/-- A displacement that fails: there is no entry of the kind in the bucket, or the other bucket
    is full. -/
theorem moveToOther_eq_none {s : Segment K V} {own : Bool} {i k : Nat}
    (h : (s.bucket i).getProbe p (!own) = 0#32 ∨ (s.bucket k).isFull p = true) :
    s.moveToOther p own i k = (s, none) := by
  unfold moveToOther
  dsimp only
  split
  · rfl
  · rename_i hmask
    rw [tryInsert_of_full p (h.resolve_left hmask)]

/-- The stash bucket that is tried in a round. -/
def stashBucket (bid i : Nat) : Nat := p.kBucketNum + (bid + i) % kStashBucketNum

/-- The first stash bucket of these rounds that is not full. -/
def freeStash (s : Segment K V) (bid : Nat) (l : List Nat) : Option Nat :=
  (l.map (stashBucket p bid)).find? fun i => !(s.bucket i).isFull p

theorem insertStash_of_free {s : Segment K V} (hwf : s.SlotsWF p) (bid : Nat) (key : K) (value : V)
    (fp : UInt8) (l : List Nat) {q : Nat} (h : s.freeStash p bid l = some q) :
    ∃ it, (insertStash p bid key value fp l s).it = some it ∧ it.at = s.emptyAt q ∧
      Fills p s (insertStash p bid key value fp l s).seg it.at key value := by
  induction l with
  | nil => cases h
  | cons i l ih =>
    have hlt : stashBucket p bid i < p.kTotalBuckets := p.stash_lt_total (Nat.mod_lt _ (by decide))
    unfold freeStash at h
    rw [List.map_cons, List.find?_cons] at h
    unfold insertStash
    dsimp only
    cases hfull : (s.bucket (stashBucket p bid i)).isFull p with
    | true =>
      rw [hfull] at h
      rw [show s.tryInsert p (p.kBucketNum + (bid + i) % kStashBucketNum) key value fp
        false = (s, none)
        from tryInsert_of_full p hfull key value fp false]
      exact ih h
    | false =>
      rw [hfull] at h
      obtain rfl := Option.some.inj h
      obtain ⟨s', hres, hfills⟩ := tryInsert_of_free p hwf hlt hfull key value fp false
      rw [show s.tryInsert p (p.kBucketNum + (bid + i) % kStashBucketNum) key value fp false =
        _ from hres]
      refine ⟨_, rfl, rfl, hfills.bucket_lt, hfills.slot_lt, hfills.free, ?_, ?_⟩
      · exact (raw_setStashPtr p s' bid _ fp).trans hfills.raw
      · exact hfills.slotsWF.setStashPtr p bid _ fp

/-! ### The segment -/

/-- There is room for a new entry without a move: in its home bucket or the next one; or no
    entry of these can be displaced, and a stash bucket has room. -/
def HasRoom (s : Segment K V) (hash : UInt64) : Prop :=
  let bid := p.homeIndex hash
  let nid := p.nextBid bid
  (s.bucket bid).isFull p = false ∨ (s.bucket nid).isFull p = false ∨
    (((s.bucket nid).getProbe p false = 0#32 ∨ (s.bucket (p.nextBid nid)).isFull p = true) ∧
      ((s.bucket bid).getProbe p true = 0#32 ∨ (s.bucket (p.prevBid bid)).isFull p = true) ∧
      ∃ q < kStashBucketNum, (s.bucket (p.kBucketNum + q)).isFull p = false)

instance (s : Segment K V) (hash : UInt64) : Decidable (s.HasRoom p hash) :=
  inferInstanceAs (Decidable (_ ∨ _ ∨ ((_ ∨ _) ∧ (_ ∨ _) ∧ ∃ q < kStashBucketNum, _)))

/-- The slot of a new entry that has room: in the next bucket if that holds fewer entries than the
    home bucket, or else in the home bucket if that is not full, or else in the first stash
    bucket that is not. -/
def roomAt (s : Segment K V) (hash : UInt64) : Nat × Nat :=
  let bid := p.homeIndex hash
  let nid := p.nextBid bid
  if (s.bucket nid).size < (s.bucket bid).size then s.emptyAt nid
  else if (s.bucket bid).isFull p then
    s.emptyAt ((s.freeStash p bid (List.range kStashBucketNum)).getD bid)
  else s.emptyAt bid

/-- The loop over the stash tries every stash bucket. -/
theorem exists_round (bid : Nat) {q : Nat} (hq : q < kStashBucketNum) :
    ∃ i ∈ List.range kStashBucketNum, (bid + i) % kStashBucketNum = q := by
  have hq4 : q < 4 := hq
  refine ⟨(q + 4 - bid % 4) % 4, List.mem_range.mpr (Nat.mod_lt _ (by decide)), ?_⟩
  unfold kStashBucketNum
  omega

theorem freeStash_isSome {s : Segment K V} (bid : Nat) {q : Nat} (hq : q < kStashBucketNum)
    (hstash : (s.bucket (p.kBucketNum + q)).isFull p = false) :
    ∃ i, s.freeStash p bid (List.range kStashBucketNum) = some i := by
  obtain ⟨i, hi, rfl⟩ := exists_round bid hq
  apply Option.isSome_iff_exists.mp
  unfold freeStash
  rw [List.find?_isSome]
  refine ⟨stashBucket p bid i, List.mem_map_of_mem hi, ?_⟩
  rw [Bool.not_eq_true']
  exact hstash

/-- Neither displacement is possible, and a stash bucket has room. -/
theorem insertDisplacing_of_stash {s : Segment K V} (hwf : s.SlotsWF p) {bid : Nat} (key : K)
    (value : V) (fp : UInt8)
    (hown : (s.bucket (p.nextBid bid)).getProbe p false = 0#32 ∨
      (s.bucket (p.nextBid (p.nextBid bid))).isFull p = true)
    (hprobing : (s.bucket bid).getProbe p true = 0#32 ∨ (s.bucket (p.prevBid bid)).isFull p = true)
    {q : Nat} (hstash : s.freeStash p bid (List.range kStashBucketNum) = some q) :
    ∃ it, (s.insertDisplacing p bid key value fp).it = some it ∧ it.at = s.emptyAt q ∧
      Fills p s (s.insertDisplacing p bid key value fp).seg it.at key value := by
  unfold insertDisplacing
  dsimp only
  rw [moveToOther_eq_none p hown]
  dsimp only
  rw [moveToOther_eq_none p hprobing]
  exact insertStash_of_free p hwf _ key value _ _ hstash

/-- **With room, `InsertUniq` fills one free slot.** -/
theorem insertUniq_of_room {s : Segment K V} (hwf : s.SlotsWF p) (key : K) (value : V)
    {hash : UInt64} (hroom : s.HasRoom p hash) :
    ∃ it, (s.insertUniq p key value hash true).it = some it ∧ it.at = s.roomAt p hash ∧
      Fills p s (s.insertUniq p key value hash true).seg it.at key value := by
  have hhome := p.lt_total_of_lt (p.homeIndex_lt hash)
  have hnext := p.lt_total_of_lt (p.nextBid_lt (p.homeIndex hash))
  have hsize : ∀ i, (s.bucket i).isFull p = true ↔ (s.bucket i).size = p.kSlotNum :=
    fun _ => beq_iff_eq
  have hhomeLe := size_le p hwf (p.homeIndex hash)
  have hnextLe := size_le p hwf (p.nextBid (p.homeIndex hash))
  unfold insertUniq roomAt
  dsimp only
  rw [Bool.true_and]
  by_cases hprobe :
      (s.bucket (p.nextBid (p.homeIndex hash))).size < (s.bucket (p.homeIndex hash)).size
  · -- the next bucket holds fewer entries, hence is not full
    have hfree : (s.bucket (p.nextBid (p.homeIndex hash))).isFull p = false := by
      rw [← Bool.not_eq_true, hsize]
      omega
    obtain ⟨s', hres, hfills⟩ :=
      tryInsert_of_free p hwf hnext hfree key value (fingerprint hash) true
    rw [decide_eq_true hprobe, if_pos hprobe]
    simp only [if_true, hres]
    exact ⟨_, rfl, rfl, hfills⟩
  · rw [decide_eq_false hprobe, if_neg hprobe]
    simp only [Bool.false_eq_true, if_false, if_true]
    cases hfull : (s.bucket (p.homeIndex hash)).isFull p with
    | false =>
      obtain ⟨s', hres, hfills⟩ :=
        tryInsert_of_free p hwf hhome hfull key value (fingerprint hash) false
      simp only [hres, Bool.false_eq_true, if_false]
      exact ⟨_, rfl, rfl, hfills⟩
    | true =>
      -- the next bucket holds no fewer entries, so both are full
      have hfullNext : (s.bucket (p.nextBid (p.homeIndex hash))).isFull p = true := by
        rw [hsize] at hfull ⊢
        omega
      obtain hroom | hroom | ⟨hown, hprobing, q, hq, hstash⟩ := hroom
      · rw [hfull] at hroom
        cases hroom
      · rw [hfullNext] at hroom
        cases hroom
      · obtain ⟨i, hi⟩ := freeStash_isSome p (p.homeIndex hash) hq hstash
        rw [tryInsert_of_full p hfull, if_pos rfl, hi]
        exact insertDisplacing_of_stash p hwf key value _ hown hprobing hi

end Segment

namespace Table

variable (p : Policy K V) [Inhabited K] [Inhabited V]

/-- **With room in the segment of the key, `InsertNew` fills one free slot of it.** -/
theorem insertInternal_of_room {t : Table K V} (key : K) (value : V) (fuel : Nat)
    (hwf : (t.seg (t.segmentId (p.hashFn key))).SlotsWF p)
    (hroom : (t.seg (t.segmentId (p.hashFn key))).HasRoom p (p.hashFn key)) :
    ∃ (it : Iter) (s' : Segment K V),
      t.insertInternal p (fuel + 1) key value .forceInsert = some
        { table := { t.setSeg (t.segmentId (p.hashFn key)) s' with size := t.size + 1 }
          it := ⟨t.segmentId (p.hashFn key), it.index, it.slot⟩, inserted := true } ∧
      it.at = (t.seg (t.segmentId (p.hashFn key))).roomAt p (p.hashFn key) ∧
      Segment.Fills p (t.seg (t.segmentId (p.hashFn key))) s' it.at key value := by
  obtain ⟨it, hit, hat, hfills⟩ := Segment.insertUniq_of_room p hwf key value hroom
  refine ⟨it, _, ?_, hat, hfills⟩
  unfold insertInternal insertLoop tryTarget
  simp only [hit, Option.isSome_some, if_true]
  rfl

end Table

end StorageEngine.DashTable
