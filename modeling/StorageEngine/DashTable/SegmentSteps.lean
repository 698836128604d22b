/-
  StorageEngine/DashTable/SegmentSteps.lean
  =========================================
  **What the segment operations do to the slots.**

  Seen through `Segment.cell`, every operation of a segment is a sequence of two
  elementary moves: filling a free slot (`Put`) and emptying a busy one (`Take`).
  This file says once, for `TryInsertToBucket`, `MoveToOther` and `InsertUniq`,
  which moves they are; everything later — the contents, the representation
  invariant, the room left in a segment — is derived from the two moves and never
  from the code again.
-/
import StorageEngine.DashTable.Segment
import Mathlib.Data.Finset.Prod

namespace StorageEngine.DashTable

open StorageEngine SlotStore

variable {K V : Type}

abbrev Entry := @Bucket.Entry

/-- The slots of a segment. -/
def Policy.cells (p : Policy K V) : Finset (Nat × Nat) :=
  Finset.range p.kTotalBuckets ×ˢ Finset.range p.kSlotNum

namespace Policy

variable (p : Policy K V)

theorem mem_cells {x : Nat × Nat} : x ∈ p.cells ↔ x.1 < p.kTotalBuckets ∧ x.2 < p.kSlotNum := by
  simp [cells]

theorem homeIndex_lt (hash : UInt64) : p.homeIndex hash < p.kBucketNum :=
  Nat.mod_lt _ p.kBucketNum_pos

theorem nextBid_lt (i : Nat) : p.nextBid i < p.kBucketNum := by
  have := p.kBucketNum_pos
  unfold nextBid
  split <;> omega

theorem prevBid_lt {i : Nat} (hi : i < p.kBucketNum) : p.prevBid i < p.kBucketNum := by
  unfold prevBid
  split <;> omega

theorem prevBid_nextBid {i : Nat} (hi : i < p.kBucketNum) : p.prevBid (p.nextBid i) = i := by
  unfold prevBid nextBid
  split_ifs <;> omega

theorem nextBid_prevBid {i : Nat} (hi : i < p.kBucketNum) : p.nextBid (p.prevBid i) = i := by
  unfold prevBid nextBid
  split_ifs <;> omega

theorem nextBid_injective {i j : Nat} (hi : i < p.kBucketNum) (hj : j < p.kBucketNum)
    (h : p.nextBid i = p.nextBid j) : i = j := by
  rw [← p.prevBid_nextBid hi, h, p.prevBid_nextBid hj]

theorem lt_total_of_lt {i : Nat} (hi : i < p.kBucketNum) : i < p.kTotalBuckets :=
  Nat.lt_of_lt_of_le hi (Nat.le_add_right _ _)

theorem stash_lt_total {q : Nat} (hq : q < kStashBucketNum) :
    p.kBucketNum + q < p.kTotalBuckets :=
  Nat.add_lt_add_left hq _

theorem kSlotNum_lt : p.kSlotNum < 32 := Nat.lt_of_le_of_lt p.kSlotNum_le (by decide)

end Policy

/-- The slot an iterator designates. -/
def Iter.at (it : Iter) : Nat × Nat := (it.index, it.slot)

namespace Segment

variable (p : Policy K V)

/-- The entry in slot `x = (bucket, slot)`. -/
def cell (s : Segment K V) (x : Nat × Nat) : Option (Entry K V) := (s.bucket x.1).cell x.2

/-- Well-formed bitmaps in every bucket. -/
def SlotsWF (s : Segment K V) : Prop := ∀ i, (s.bucket i).slotb.WF p.kSlotNum

/-- No slot of bucket `i` is free. -/
def Full (s : Segment K V) (i : Nat) : Prop := ∀ j < p.kSlotNum, s.cell (i, j) ≠ none

/-- Everything but the slots is unchanged. -/
structure SameFrame (s s' : Segment K V) : Prop where
  stash : ∀ i, (s'.bucket i).stash = (s.bucket i).stash
  localDepth : s'.localDepth = s.localDepth
  segmentId : s'.segmentId = s.segmentId

theorem SameFrame.refl (s : Segment K V) : SameFrame s s := ⟨fun _ => rfl, rfl, rfl⟩

theorem SameFrame.trans {s s' s'' : Segment K V} (h : SameFrame s s') (h' : SameFrame s' s'') :
    SameFrame s s'' :=
  ⟨fun i => (h'.stash i).trans (h.stash i), h'.localDepth.trans h.localDepth,
    h'.segmentId.trans h.segmentId⟩

/-- A free slot is filled with `e`. -/
structure Put (s s' : Segment K V) (x : Nat × Nat) (e : Entry K V) : Prop where
  slot_lt : x.2 < p.kSlotNum
  free : s.cell x = none
  cell : s'.cell = Function.update s.cell x (some e)
  slotsWF : s'.SlotsWF p
  frame : SameFrame s s'

/-- A busy slot, holding `e`, is emptied. -/
structure Take (s s' : Segment K V) (x : Nat × Nat) (e : Entry K V) : Prop where
  slot_lt : x.2 < p.kSlotNum
  busy : s.cell x = some e
  cell : s'.cell = Function.update s.cell x none
  slotsWF : s'.SlotsWF p
  frame : SameFrame s s'

theorem slot_lt_of_cell {s : Segment K V} (hwf : s.SlotsWF p) {x : Nat × Nat} {e : Entry K V}
    (h : s.cell x = some e) : x.2 < p.kSlotNum :=
  (hwf x.1).busy_lt x.2 (Bucket.busy_of_cell h)

theorem full_iff {s : Segment K V} (hwf : s.SlotsWF p) (i : Nat) :
    s.Full p i ↔ (s.bucket i).isFull p = true :=
  (Bucket.isFull_iff p (hwf i)).symm

theorem full_of_le_size {s : Segment K V} (hwf : s.SlotsWF p) {i : Nat}
    (h : p.kSlotNum ≤ (s.bucket i).size) : s.Full p i := by
  have hle : (s.bucket i).size ≤ p.kSlotNum := BitMask.toNat_cpop_le (hwf i).busy_lt
  rw [full_iff p hwf, Bucket.isFull, SlotBitmap.isFull, beq_iff_eq]
  exact Nat.le_antisymm hle h

/-- A full bucket counts `kSlotNum` entries, any other fewer. -/
theorem size_eq_of_full {s : Segment K V} (hwf : s.SlotsWF p) {i : Nat} (h : s.Full p i) :
    (s.bucket i).size = p.kSlotNum := by
  rw [full_iff p hwf, Bucket.isFull, SlotBitmap.isFull, beq_iff_eq] at h
  exact h

theorem size_le {s : Segment K V} (hwf : s.SlotsWF p) (i : Nat) :
    (s.bucket i).size ≤ p.kSlotNum :=
  BitMask.toNat_cpop_le (hwf i).busy_lt

/-! ### Writing one bucket -/

@[simp] theorem setBucket_bucket (s : Segment K V) (i : Nat) (b : Bucket K V) :
    (s.setBucket i b).bucket = Function.update s.bucket i b := rfl

@[simp] theorem setBucket_self (s : Segment K V) (i : Nat) : s.setBucket i (s.bucket i) = s := by
  simp [setBucket]

theorem cell_setBucket {s : Segment K V} {i j : Nat} {b : Bucket K V} {o : Option (Entry K V)}
    (h : b.cell = Function.update (s.bucket i).cell j o) :
    (s.setBucket i b).cell = Function.update s.cell (i, j) o := by
  funext x
  obtain ⟨i', j'⟩ := x
  by_cases hi : i' = i
  · subst hi
    by_cases hj : j' = j
    · subst hj
      simp [cell, h]
    · simp [cell, h, hj]
  · simp [cell, hi]

theorem frame_setBucket {s : Segment K V} {i : Nat} {b : Bucket K V}
    (h : b.stash = (s.bucket i).stash) : SameFrame s (s.setBucket i b) := by
  refine ⟨fun j => ?_, rfl, rfl⟩
  by_cases hj : j = i
  · subst hj
    simp [h]
  · simp [hj]

theorem SlotsWF.setBucket {s : Segment K V} (hwf : s.SlotsWF p) (i : Nat) {b : Bucket K V}
    (hb : b.slotb.WF p.kSlotNum) : (s.setBucket i b).SlotsWF p := by
  intro j
  by_cases hj : j = i
  · subst hj
    simpa using hb
  · simpa [hj] using hwf j

/-- `BucketBase::Delete` on a busy slot. -/
theorem take_delete {s : Segment K V} (hwf : s.SlotsWF p) {i j : Nat} {e : Entry K V}
    (h : s.cell (i, j) = some e) :
    Take p s (s.setBucket i ((s.bucket i).delete j)) (i, j) e := by
  have hj := slot_lt_of_cell p hwf h
  have hj32 : j < 32 := Nat.lt_trans hj p.kSlotNum_lt
  refine ⟨hj, h, cell_setBucket (Bucket.cell_delete hj32 _), ?_, frame_setBucket rfl⟩
  exact hwf.setBucket p i ((hwf i).clearSlots _)

/-- `BucketBase::Delete` after the content has been moved out of the slot. -/
theorem take_moveOut_delete {s : Segment K V} (hwf : s.SlotsWF p) {i j : Nat} {e : Entry K V}
    (h : s.cell (i, j) = some e) :
    Take p s (s.setBucket i (((s.bucket i).moveOut p j).delete j)) (i, j) e := by
  have hj := slot_lt_of_cell p hwf h
  have hj32 : j < 32 := Nat.lt_trans hj p.kSlotNum_lt
  have hcell : (((s.bucket i).moveOut p j).delete j).cell =
      Function.update (s.bucket i).cell j none := by
    rw [Bucket.cell_delete hj32]
    funext k
    by_cases hk : k = j
    · simp [hk]
    · simp [hk, Bucket.cell_moveOut_of_ne p _ hk]
  refine ⟨hj, h, cell_setBucket hcell, ?_, frame_setBucket rfl⟩
  exact hwf.setBucket p i ((hwf i).clearSlots _)

section Movable

variable [p.Movable]

/-- `Bucket::Insert` into a free slot. -/
theorem put_insert {s : Segment K V} (hwf : s.SlotsWF p) {i j : Nat} (hj : j < p.kSlotNum)
    (hfree : s.cell (i, j) = none) (u : K) (v : V) (fp : UInt8) (probe : Bool) :
    Put p s (s.setBucket i ((s.bucket i).insert p j u v fp probe)) (i, j) ⟨u, v, fp, probe⟩ := by
  refine ⟨hj, hfree, cell_setBucket (Bucket.cell_insert p (hwf i) hj hfree u v fp probe), ?_,
    frame_setBucket rfl⟩
  exact hwf.setBucket p i ((hwf i).setSlot p.kSlotNum_le hj probe)

/-- What `TryInsertToBucket` can do to the segment. -/
theorem tryInsert_cases {s : Segment K V} (hwf : s.SlotsWF p) (i : Nat) (u : K) (v : V)
    (fp : UInt8) (probe : Bool) :
    (s.Full p i ∧ s.tryInsert p i u v fp probe = (s, none)) ∨
    (¬ s.Full p i ∧ ∃ s' j, s.tryInsert p i u v fp probe = (s', some j) ∧
      Put p s s' (i, j) ⟨u, v, fp, probe⟩) := by
  rw [full_iff p hwf]
  unfold tryInsert
  rcases Bucket.tryInsertToBucket_cases p (hwf i) u v fp probe with
    ⟨hfull, hres⟩ | ⟨hroom, j, hj, hfree, b', hres, hcell, hstash, hbwf⟩
  · left
    simp [hfull, hres]
  · right
    refine ⟨by simp [hroom], s.setBucket i b', j, by simp [hres], hj, hfree, cell_setBucket hcell,
      hwf.setBucket p i hbwf, frame_setBucket hstash⟩

/-- Some slot of bucket `i` holds an entry with the given probe bit. -/
def HasProbe (s : Segment K V) (i : Nat) (probe : Bool) : Prop :=
  ∃ j e, s.cell (i, j) = some e ∧ e.probe = probe

/-- What `MoveToOther` can do when the bucket it moves from is full.  The mask it
    picks the slot from is not intersected with the busy bits, so without
    `hfull` it could move a free slot. -/
theorem moveToOther_cases {s : Segment K V} (hwf : s.SlotsWF p) (own : Bool) {i k : Nat}
    (hfull : s.Full p i) :
    ((¬ s.HasProbe i (!own) ∨ s.Full p k) ∧ s.moveToOther p own i k = (s, none)) ∨
    (s.HasProbe i (!own) ∧ ¬ s.Full p k ∧
      ∃ e j j' s₁ s₂, e.probe = !own ∧ s.cell (i, j) = some e ∧
        s.moveToOther p own i k = (s₂, some j) ∧
        Put p s s₁ (k, j') { e with probe := own } ∧ Take p s₁ s₂ (i, j) e) := by
  have hmask : ∀ j, ((s.bucket i).getProbe p (!own)).getLsbD j = true ↔
      ∃ e, s.cell (i, j) = some e ∧ e.probe = !own := by
    intro j
    rw [Bucket.getProbe, SlotBitmap.getLsbD_getProbe p.kSlotNum_le, Bool.and_eq_true,
      decide_eq_true_eq, beq_iff_eq]
    constructor
    · rintro ⟨hj, hprobe⟩
      obtain ⟨e, he⟩ := Option.ne_none_iff_exists'.mp (hfull j hj)
      exact ⟨e, he, (Bucket.key_of_cell he).2.2.2 ▸ hprobe⟩
    · rintro ⟨e, he, hprobe⟩
      exact ⟨slot_lt_of_cell p hwf he, (Bucket.key_of_cell he).2.2.2.trans hprobe⟩
  unfold moveToOther
  by_cases hzero : (s.bucket i).getProbe p (!own) = 0#32
  · left
    refine ⟨Or.inl ?_, by simp [hzero]⟩
    rintro ⟨j, e, he, hprobe⟩
    have := (hmask j).mpr ⟨e, he, hprobe⟩
    simp [hzero] at this
  · obtain ⟨e, he, hprobe⟩ := (hmask _).mp (BitMask.getLsbD_ctz_of_ne_zero hzero)
    have hhas : s.HasProbe i (!own) := ⟨_, e, he, hprobe⟩
    obtain ⟨hkey, hvalue, hfp, -⟩ := Bucket.key_of_cell he
    rw [if_neg hzero]
    simp only [hkey, hvalue, hfp]
    rcases tryInsert_cases p hwf k e.key e.value e.fp own with
      ⟨hk, hres⟩ | ⟨hk, s₁, j', hres, hput⟩
    · left
      exact ⟨Or.inr hk, by simp [hres]⟩
    · right
      have hbusy : s₁.cell (i, ((s.bucket i).getProbe p (!own)).ctz.toNat) = some e := by
        rw [hput.cell, Function.update_of_ne, he]
        intro hx
        have := hput.free
        rw [← hx, he] at this
        cases this
      exact ⟨hhas, hk, e, _, j', s₁, _, hprobe, he, by simp [hres], hput,
        take_moveOut_delete p hput.slotsWF hbusy⟩

/-! ### InsertUniq -/

/-- No regular bucket takes an entry with home `bid`: its two buckets are full and
    neither displacement is possible. -/
structure NoRoom (s : Segment K V) (bid : Nat) : Prop where
  home : s.Full p bid
  next : s.Full p (p.nextBid bid)
  own : ¬ s.HasProbe (p.nextBid bid) false ∨ s.Full p (p.nextBid (p.nextBid bid))
  probing : ¬ s.HasProbe bid true ∨ s.Full p (p.prevBid bid)

/-- The ways `InsertUniq` places an entry, with the displacements it reports. -/
inductive Placed (s : Segment K V) (key : K) (value : V) (hash : UInt64) (spread : Bool) :
    Segment K V → Iter → List (Nat × Nat) → Prop where
  /-- in the home bucket (`probe = false`) or the next one (`probe = true`) -/
  | direct (probe : Bool) {s' : Segment K V} {j : Nat}
      (home : probe = true → spread = false → s.Full p (p.homeIndex hash))
      (put : Put p s s' (if probe then p.nextBid (p.homeIndex hash) else p.homeIndex hash, j)
        ⟨key, value, fingerprint hash, probe⟩) :
      Placed s key value hash spread s'
        ⟨if probe then p.nextBid (p.homeIndex hash) else p.homeIndex hash, j⟩ []
  /-- in the slot of an own entry of the next bucket, moved one bucket on -/
  | displacedOwn {e : Entry K V} {s₁ s₂ s' : Segment K V} {j j' : Nat} (own : e.probe = false)
      (home : s.Full p (p.homeIndex hash)) (next : s.Full p (p.nextBid (p.homeIndex hash)))
      (put : Put p s s₁ (p.nextBid (p.nextBid (p.homeIndex hash)), j') { e with probe := true })
      (take : Take p s₁ s₂ (p.nextBid (p.homeIndex hash), j) e)
      (put' : Put p s₂ s' (p.nextBid (p.homeIndex hash), j)
        ⟨key, value, fingerprint hash, true⟩) :
      Placed s key value hash spread s' ⟨p.nextBid (p.homeIndex hash), j⟩
        [(p.nextBid (p.homeIndex hash), p.nextBid (p.nextBid (p.homeIndex hash)))]
  /-- in the slot of a probing entry of the home bucket, moved back to its home -/
  | displacedProbing {e : Entry K V} {s₁ s₂ s' : Segment K V} {j j' : Nat}
      (probing : e.probe = true)
      (home : s.Full p (p.homeIndex hash)) (next : s.Full p (p.nextBid (p.homeIndex hash)))
      (own : ¬ s.HasProbe (p.nextBid (p.homeIndex hash)) false ∨
        s.Full p (p.nextBid (p.nextBid (p.homeIndex hash))))
      (put : Put p s s₁ (p.prevBid (p.homeIndex hash), j') { e with probe := false })
      (take : Take p s₁ s₂ (p.homeIndex hash, j) e)
      (put' : Put p s₂ s' (p.homeIndex hash, j) ⟨key, value, fingerprint hash, false⟩) :
      Placed s key value hash spread s' ⟨p.homeIndex hash, j⟩
        [(p.homeIndex hash, p.prevBid (p.homeIndex hash))]
  /-- in a stash bucket, with a reference -/
  | stashed {s₁ : Segment K V} {q j : Nat} (hq : q < kStashBucketNum)
      (noRoom : s.NoRoom p (p.homeIndex hash))
      (put : Put p s s₁ (p.kBucketNum + q, j) ⟨key, value, fingerprint hash, false⟩) :
      Placed s key value hash spread (s₁.setStashPtr p (p.homeIndex hash) q (fingerprint hash))
        ⟨p.kBucketNum + q, j⟩ []

theorem insertStash_cases {s : Segment K V} (hwf : s.SlotsWF p) (bid : Nat) (key : K) (value : V)
    (fp : UInt8) (l : List Nat) :
    ((insertStash p bid key value fp l s).it = none ∧
      (insertStash p bid key value fp l s).seg = s ∧
      ∀ i ∈ l, s.Full p (p.kBucketNum + (bid + i) % kStashBucketNum)) ∨
    ∃ q < kStashBucketNum, ∃ j s₁, Put p s s₁ (p.kBucketNum + q, j) ⟨key, value, fp, false⟩ ∧
      (insertStash p bid key value fp l s).it = some ⟨p.kBucketNum + q, j⟩ ∧
      (insertStash p bid key value fp l s).seg = s₁.setStashPtr p bid q fp ∧
      (insertStash p bid key value fp l s).moves = [] := by
  induction l with
  | nil => exact Or.inl ⟨rfl, rfl, by simp⟩
  | cons i l ih =>
    unfold insertStash
    rcases tryInsert_cases p hwf (p.kBucketNum + (bid + i) % kStashBucketNum) key value
      fp false with
      ⟨hfull, hres⟩ | ⟨-, s₁, j, hres, hput⟩
    · simp only [hres]
      rcases ih with ⟨hnone, hseg, hall⟩ | hplaced
      · exact Or.inl ⟨hnone, hseg, List.forall_mem_cons.mpr ⟨hfull, hall⟩⟩
      · exact Or.inr hplaced
    · exact Or.inr ⟨_, Nat.mod_lt _ (by decide), j, s₁, hput, by simp [hres], by simp [hres],
        by simp [hres]⟩

/-- All stash buckets are full. -/
def StashFull (s : Segment K V) : Prop := ∀ q < kStashBucketNum, s.Full p (p.kBucketNum + q)

/-- The displacements and the stash loop, reached when both buckets are full. -/
theorem insertDisplacing_cases {s : Segment K V} (hwf : s.SlotsWF p) (key : K) (value : V)
    (hash : UInt64) (spread : Bool) (hhome : s.Full p (p.homeIndex hash))
    (hnext : s.Full p (p.nextBid (p.homeIndex hash))) :
    let r := s.insertDisplacing p (p.homeIndex hash) key value (fingerprint hash)
    (r.it = none ∧ r.seg = s ∧ s.NoRoom p (p.homeIndex hash) ∧ s.StashFull p) ∨
    ∃ it, r.it = some it ∧ Placed p s key value hash spread r.seg it r.moves := by
  intro r
  have hr : r = s.insertDisplacing p (p.homeIndex hash) key value (fingerprint hash) := rfl
  unfold insertDisplacing at hr
  rcases moveToOther_cases p hwf true (k := p.nextBid (p.nextBid (p.homeIndex hash)))
    hnext with ⟨hown, hres⟩ | ⟨-, -, e, j, j', s₁, s₂, hprobe, -, hres, hput, htake⟩
  · simp only [hres] at hr
    rcases moveToOther_cases p hwf false (k := p.prevBid (p.homeIndex hash))
      hhome with ⟨hprobing, hres'⟩ | ⟨-, -, e, j, j', s₁, s₂, hprobe, -, hres', hput, htake⟩
    · simp only [hres'] at hr
      have hnoroom : s.NoRoom p (p.homeIndex hash) := ⟨hhome, hnext, hown, hprobing⟩
      rcases insertStash_cases p hwf (p.homeIndex hash) key value (fingerprint hash)
        (List.range kStashBucketNum) with ⟨hnone, hseg, hall⟩ | ⟨q, hq, j, s₁, hput, hit,
          hseg, hmoves⟩
      · left
        refine ⟨hr ▸ hnone, hr ▸ hseg, hnoroom, ?_⟩
        intro q hq
        -- stash bucket `q` is tried in the round `i` with `(bid + i) % 4 = q`
        have hq4 : q < 4 := hq
        have hi : (q + 4 - p.homeIndex hash % 4) % 4 ∈ List.range kStashBucketNum :=
          List.mem_range.mpr (Nat.mod_lt _ (by decide))
        have hfull := hall _ hi
        have heq : (p.homeIndex hash + (q + 4 - p.homeIndex hash % 4) % 4) % kStashBucketNum =
            q := by
          unfold kStashBucketNum
          omega
        rwa [heq] at hfull
      · right
        refine ⟨_, hr ▸ hit, ?_⟩
        rw [hr, hseg, hmoves]
        exact Placed.stashed hq hnoroom hput
    · right
      simp only [hres'] at hr
      have hfree : s₂.cell (p.homeIndex hash, j) = none := by simp [htake.cell]
      refine ⟨⟨p.homeIndex hash, j⟩, by rw [hr], ?_⟩
      rw [hr]
      exact Placed.displacedProbing hprobe hhome hnext hown hput htake
        (put_insert p htake.slotsWF htake.slot_lt hfree key value (fingerprint hash) false)
  · right
    simp only [hres] at hr
    have hfree : s₂.cell (p.nextBid (p.homeIndex hash), j) = none := by simp [htake.cell]
    refine ⟨⟨p.nextBid (p.homeIndex hash), j⟩, by rw [hr], ?_⟩
    rw [hr]
    exact Placed.displacedOwn hprobe hhome hnext hput htake
      (put_insert p htake.slotsWF htake.slot_lt hfree key value (fingerprint hash) true)

/-- **What `InsertUniq` can do.**  Either nothing changes and there is no room at
    all, or the entry is placed in one of four ways.  In both spread modes the
    displacements are only tried with both buckets full, which is what makes the
    unmasked choice of `MoveToOther` safe. -/
theorem insertUniq_cases {s : Segment K V} (hwf : s.SlotsWF p) (key : K) (value : V)
    (hash : UInt64) (spread : Bool) :
    let r := s.insertUniq p key value hash spread
    (r.it = none ∧ r.seg = s ∧ s.NoRoom p (p.homeIndex hash) ∧ s.StashFull p) ∨
    ∃ it, r.it = some it ∧ Placed p s key value hash spread r.seg it r.moves := by
  intro r
  have hr : r = s.insertUniq p key value hash spread := rfl
  unfold insertUniq at hr
  cases hprobe : spread && decide
      ((s.bucket (p.nextBid (p.homeIndex hash))).size < (s.bucket (p.homeIndex hash)).size) with
  | true =>
    -- the next bucket is the emptier one, hence not full
    simp only [hprobe, if_true] at hr
    have hlt := of_decide_eq_true (Bool.and_eq_true_iff.mp hprobe).2
    rcases tryInsert_cases p hwf (p.nextBid (p.homeIndex hash)) key value (fingerprint hash) true
      with ⟨hfull, -⟩ | ⟨-, s', j, hres, hput⟩
    · have := size_eq_of_full p hwf hfull
      have := size_le p hwf (p.homeIndex hash)
      omega
    · right
      simp only [hres] at hr
      refine ⟨⟨p.nextBid (p.homeIndex hash), j⟩, by rw [hr], ?_⟩
      rw [hr]
      have hdirect : Placed p s key value hash spread s' _ [] :=
        .direct true (fun _ h => by simp [h] at hprobe) (by simpa using hput)
      simpa using hdirect
  | false =>
    simp only [hprobe, Bool.false_eq_true, if_false] at hr
    rcases tryInsert_cases p hwf (p.homeIndex hash) key value (fingerprint hash) false
      with ⟨hhome, hres⟩ | ⟨-, s', j, hres, hput⟩
    · simp only [hres] at hr
      cases spread with
      | true =>
        -- the home bucket is full and the next one holds at least as many entries
        have hnext : s.Full p (p.nextBid (p.homeIndex hash)) := by
          apply full_of_le_size p hwf
          have := size_eq_of_full p hwf hhome
          have := of_decide_eq_false ((Bool.true_and _).symm.trans hprobe)
          omega
        simp only [if_true] at hr
        rw [hr]
        exact insertDisplacing_cases p hwf key value hash _ hhome hnext
      | false =>
        simp only [Bool.false_eq_true, if_false] at hr
        rcases tryInsert_cases p hwf (p.nextBid (p.homeIndex hash)) key value (fingerprint hash)
          true with ⟨hnext, hres'⟩ | ⟨-, s', j, hres', hput⟩
        · simp only [hres'] at hr
          rw [hr]
          exact insertDisplacing_cases p hwf key value hash _ hhome hnext
        · right
          simp only [hres'] at hr
          refine ⟨⟨p.nextBid (p.homeIndex hash), j⟩, by rw [hr], ?_⟩
          rw [hr]
          have hdirect : Placed p s key value hash false s' _ [] :=
            .direct true (fun _ _ => hhome) (by simpa using hput)
          simpa using hdirect
    · right
      simp only [hres] at hr
      refine ⟨⟨p.homeIndex hash, j⟩, by rw [hr], ?_⟩
      rw [hr]
      have hdirect : Placed p s key value hash spread s' _ [] :=
        .direct false (fun h => by cases h) (by simpa using hput)
      simpa using hdirect

end Movable

end Segment

end StorageEngine.DashTable
