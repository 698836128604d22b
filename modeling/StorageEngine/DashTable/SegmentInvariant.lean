/-
  StorageEngine/DashTable/SegmentInvariant.lean
  =============================================
  **The representation invariant of a segment.**

  `Inv` states where an entry may be and what the buckets know about the stash:

    * an entry of a regular bucket is in its home bucket, or in the next one with
      its probe bit set; its fingerprint is the low byte of its hash;
    * the stash references kept for home `y` — its own ones and the probing ones of
      the next bucket — are, as a multiset, part of the (fingerprint, position)
      pairs of the stash entries with home `y`, and the overflow counter of `y` is
      the number of the remaining ones;
    * the present bit of `y` is set exactly when there is such an entry.

  References are compared as a multiset because `UnsetStashPtr` drops any reference
  with the right fingerprint and position: it may belong to another entry.
-/
import StorageEngine.DashTable.SegmentSteps
import Mathlib.Algebra.BigOperators.Ring.Finset

namespace StorageEngine.DashTable

open StorageEngine SlotStore

variable {K V : Type}

namespace Segment

variable (p : Policy K V)

/-! ### Contents and stash bookkeeping of a segment -/

/-- The stored pairs. -/
def contents (s : Segment K V) : Multiset (K × V) :=
  gather p.cells s.cell fun _ e => {(e.key, e.value)}

/-- The (fingerprint, stash position) pairs of the stash entries with home `y`. -/
def stashPairs (s : Segment K V) (y : Nat) : Multiset (UInt8 × Nat) :=
  gather p.cells s.cell fun x e =>
    if p.kBucketNum ≤ x.1 ∧ p.homeIndex (p.hashFn e.key) = y then {(e.fp,
      x.1 - p.kBucketNum)} else 0

/-- The stash references kept for home `y`. -/
def refs (s : Segment K V) (y : Nat) : Multiset (UInt8 × Nat) :=
  (s.bucket y).stash.refs false + (s.bucket (p.nextBid y)).stash.refs true

def overflow (s : Segment K V) (y : Nat) : Nat := (s.bucket y).stash.overflowCount.toNat

def hasStash (s : Segment K V) (y : Nat) : Bool := (s.bucket y).stash.hasStash

/-- The representation invariant. -/
structure Inv (s : Segment K V) : Prop where
  slotsWF : s.SlotsWF p
  stashWF : ∀ i, (s.bucket i).stash.WF
  home : ∀ i < p.kBucketNum, ∀ j e, s.cell (i, j) = some e →
    e.fp = fingerprint (p.hashFn e.key) ∧
      p.homeIndex (p.hashFn e.key) = if e.probe then p.prevBid i else i
  stashed : ∀ q < kStashBucketNum, ∀ j e, s.cell (p.kBucketNum + q, j) = some e →
    e.fp = fingerprint (p.hashFn e.key) ∧ e.probe = false
  refs_le : ∀ y < p.kBucketNum, s.refs p y ≤ s.stashPairs p y
  overflow_eq : ∀ y < p.kBucketNum,
    (s.refs p y).card + s.overflow y = (s.stashPairs p y).card
  present_iff : ∀ y < p.kBucketNum, s.hasStash y = true ↔ s.stashPairs p y ≠ 0

/-! ### The two moves and the contents -/

theorem mem_cells_of_put {s s' : Segment K V} {x : Nat × Nat} {e : Entry K V}
    (h : Put p s s' x e) (hx : x.1 < p.kTotalBuckets) : x ∈ p.cells :=
  (p.mem_cells).mpr ⟨hx, h.slot_lt⟩

theorem Put.contents {s s' : Segment K V} {x : Nat × Nat} {e : Entry K V}
    (h : Put p s s' x e) (hx : x.1 < p.kTotalBuckets) :
    s'.contents p = (e.key, e.value) ::ₘ s.contents p := by
  unfold Segment.contents
  rw [h.cell, gather_put (mem_cells_of_put p h hx) h.free]
  rfl

theorem Take.contents {s s' : Segment K V} {x : Nat × Nat} {e : Entry K V}
    (h : Take p s s' x e) (hx : x.1 < p.kTotalBuckets) :
    (e.key, e.value) ::ₘ s'.contents p = s.contents p := by
  unfold Segment.contents
  rw [h.cell]
  exact gather_take (g := fun _ (e : Entry K V) => ({(e.key, e.value)} : Multiset (K × V)))
    ((p.mem_cells).mpr ⟨hx, h.slot_lt⟩) h.busy

theorem mem_contents {s : Segment K V} {k : K} {v : V} :
    (k, v) ∈ s.contents p ↔ ∃ x ∈ p.cells, ∃ e, s.cell x = some e ∧ e.key = k ∧ e.value = v := by
  simp only [contents, mem_gather, Multiset.mem_singleton, Prod.mk.injEq]
  constructor
  · rintro ⟨x, hx, e, he, hk, hv⟩
    exact ⟨x, hx, e, he, hk.symm, hv.symm⟩
  · rintro ⟨x, hx, e, he, hk, hv⟩
    exact ⟨x, hx, e, he, hk.symm, hv.symm⟩

/-! ### The two moves and the stash pairs -/

/-- The stash pairs only depend on the entries in stash buckets. -/
theorem stashPairs_put_regular {s s' : Segment K V} {x : Nat × Nat} {e : Entry K V}
    (h : s'.cell = Function.update s.cell x (some e)) (hfree : s.cell x = none)
    (hx : x.1 < p.kBucketNum) (y : Nat) : s'.stashPairs p y = s.stashPairs p y := by
  apply gather_congr
  intro z _
  rw [h]
  by_cases hz : z = x
  · subst hz
    have : ¬ p.kBucketNum ≤ z.1 := by omega
    simp [hfree, this]
  · rw [Function.update_of_ne hz]

theorem stashPairs_take_regular {s s' : Segment K V} {x : Nat × Nat}
    (h : s'.cell = Function.update s.cell x none) (hx : x.1 < p.kBucketNum) (y : Nat) :
    s'.stashPairs p y = s.stashPairs p y := by
  apply gather_congr
  intro z _
  rw [h]
  by_cases hz : z = x
  · subst hz
    have : ¬ p.kBucketNum ≤ z.1 := by omega
    cases s.cell z <;> simp [this]
  · rw [Function.update_of_ne hz]

theorem stashPairs_put {s s' : Segment K V} {q j : Nat} (hq : q < kStashBucketNum)
    (hj : j < p.kSlotNum) {e : Entry K V} (hfree : s.cell (p.kBucketNum + q, j) = none)
    (h : s'.cell = Function.update s.cell (p.kBucketNum + q, j) (some e)) (y : Nat) :
    s'.stashPairs p y =
      (if p.homeIndex (p.hashFn e.key) = y then {(e.fp, q)} else 0) + s.stashPairs p y := by
  unfold stashPairs
  rw [h, gather_put ((p.mem_cells).mpr ⟨p.stash_lt_total hq, hj⟩) hfree]
  simp

theorem stashPairs_take {s s' : Segment K V} {q j : Nat} (hq : q < kStashBucketNum)
    (hj : j < p.kSlotNum) {e : Entry K V} (hbusy : s.cell (p.kBucketNum + q, j) = some e)
    (h : s'.cell = Function.update s.cell (p.kBucketNum + q, j) none) (y : Nat) :
    (if p.homeIndex (p.hashFn e.key) = y then {(e.fp, q)} else 0) + s'.stashPairs p y =
      s.stashPairs p y := by
  have htake := gather_take (g := fun (x : Nat × Nat) (e : Entry K V) =>
    if p.kBucketNum ≤ x.1 ∧ p.homeIndex (p.hashFn e.key) = y then
      ({(e.fp, x.1 - p.kBucketNum)} : Multiset (UInt8 × Nat)) else 0)
    ((p.mem_cells).mpr ⟨p.stash_lt_total hq, hj⟩) hbusy
  unfold stashPairs
  rw [h, ← htake]
  simp

theorem mem_stashPairs {s : Segment K V} {y : Nat} {x : UInt8 × Nat} :
    x ∈ s.stashPairs p y ↔ x.2 < kStashBucketNum ∧ ∃ j < p.kSlotNum, ∃ e,
      s.cell (p.kBucketNum + x.2, j) = some e ∧ p.homeIndex (p.hashFn e.key) = y ∧ e.fp = x.1 := by
  unfold stashPairs
  rw [mem_gather]
  constructor
  · rintro ⟨z, hz, e, he, hx⟩
    have hz' := (p.mem_cells).mp hz
    split at hx
    · rename_i hstash
      rw [Multiset.mem_singleton] at hx
      subst hx
      have hsum : p.kBucketNum + (z.1 - p.kBucketNum) = z.1 := by omega
      refine ⟨?_, z.2, hz'.2, e, by rw [hsum]; exact he, hstash.2, rfl⟩
      have := hz'.1
      unfold Policy.kTotalBuckets at this
      dsimp only
      omega
    · simp at hx
  · rintro ⟨hq, j, hj, e, he, hy, hfp⟩
    refine ⟨_, (p.mem_cells).mpr ⟨p.stash_lt_total hq, hj⟩, e, he, ?_⟩
    rw [if_pos ⟨Nat.le_add_right _ _, hy⟩]
    simp [hfp]

/-- A segment has at most `4 * kSlotNum` stash entries, so the 8-bit overflow
    counter has room for all of them. -/
theorem card_stashPairs_le (s : Segment K V) (y : Nat) : (s.stashPairs p y).card ≤ 64 := by
  have hcard : (s.stashPairs p y).card = gather p.cells s.cell fun x e =>
      (if p.kBucketNum ≤ x.1 ∧ p.homeIndex (p.hashFn e.key) = y then
        ({(e.fp, x.1 - p.kBucketNum)} : Multiset (UInt8 × Nat)) else 0).card :=
    map_gather Multiset.cardHom
  have hsub : p.cells.filter (fun x => p.kBucketNum ≤ x.1) ⊆
      (Finset.range kStashBucketNum ×ˢ Finset.range p.kSlotNum).image
        fun x => (p.kBucketNum + x.1, x.2) := by
    intro x hx
    obtain ⟨hx, hge⟩ := Finset.mem_filter.mp hx
    have hx' := (p.mem_cells).mp hx
    rw [Finset.mem_image]
    refine ⟨(x.1 - p.kBucketNum, x.2), ?_, ?_⟩
    · rw [Finset.mem_product, Finset.mem_range, Finset.mem_range]
      have := hx'.1
      unfold Policy.kTotalBuckets at this
      exact ⟨by dsimp only; omega, hx'.2⟩
    · ext <;> dsimp only
      omega
  calc (s.stashPairs p y).card
      ≤ ∑ x ∈ p.cells, if p.kBucketNum ≤ x.1 then 1 else 0 := by
        rw [hcard]
        apply Finset.sum_le_sum
        intro x _
        cases s.cell x with
        | none => exact Nat.zero_le _
        | some e =>
          by_cases hx : p.kBucketNum ≤ x.1
          · rw [if_pos hx]
            by_cases hy : p.homeIndex (p.hashFn e.key) = y <;> simp [hx, hy]
          · simp [hx]
    _ = (p.cells.filter fun x => p.kBucketNum ≤ x.1).card := by rw [Finset.card_filter]
    _ ≤ ((Finset.range kStashBucketNum ×ˢ Finset.range p.kSlotNum).image
          fun x => (p.kBucketNum + x.1, x.2)).card := Finset.card_le_card hsub
    _ ≤ (Finset.range kStashBucketNum ×ˢ Finset.range p.kSlotNum).card := Finset.card_image_le
    _ = 4 * p.kSlotNum := by simp [kStashBucketNum]
    _ ≤ 64 := by have := p.kSlotNum_le; omega

/-! ### Changing the stash members of a bucket -/

@[simp] theorem cell_setStash (s : Segment K V) (i : Nat) (st : StashPtrs) :
    (s.setStash i st).cell = s.cell := by
  funext x
  by_cases hx : x.1 = i
  · subst hx
    simp [cell, setStash, Bucket.cell]
  · simp [cell, setStash, hx]

theorem stash_setStash (s : Segment K V) (i : Nat) (st : StashPtrs) (j : Nat) :
    ((s.setStash i st).bucket j).stash = if j = i then st else (s.bucket j).stash := by
  by_cases hj : j = i
  · subst hj
    simp [setStash]
  · simp [setStash, hj]

theorem SlotsWF.setStash {s : Segment K V} (h : s.SlotsWF p) (i : Nat) (st : StashPtrs) :
    (s.setStash i st).SlotsWF p :=
  h.setBucket p i (h i)

/-- The references of home `y` after a change of its own stash members. -/
theorem refs_setStash_home {s : Segment K V} {y : Nat} {st : StashPtrs}
    (hprobe : st.refs true = (s.bucket y).stash.refs true) :
    (s.setStash y st).refs p y = st.refs false + (s.bucket (p.nextBid y)).stash.refs true := by
  unfold refs
  rw [stash_setStash, stash_setStash, if_pos rfl]
  split
  · rename_i heq
    rw [hprobe, heq]
  · rfl

/-- The references of home `y` after a change of the next bucket's members. -/
theorem refs_setStash_next {s : Segment K V} {y : Nat} {st : StashPtrs}
    (hown : st.refs false = (s.bucket (p.nextBid y)).stash.refs false) :
    (s.setStash (p.nextBid y) st).refs p y = (s.bucket y).stash.refs false + st.refs true := by
  unfold refs
  rw [stash_setStash, stash_setStash, if_pos rfl]
  split
  · rename_i heq
    rw [hown, ← heq]
  · rfl

theorem overflow_setStash_home (s : Segment K V) (y : Nat) (st : StashPtrs) :
    (s.setStash y st).overflow y = st.overflowCount.toNat := by
  rw [overflow, stash_setStash, if_pos rfl]

theorem hasStash_setStash_home (s : Segment K V) (y : Nat) (st : StashPtrs) :
    (s.setStash y st).hasStash y = st.hasStash := by
  rw [hasStash, stash_setStash, if_pos rfl]

theorem overflow_setStash_same {s : Segment K V} {i : Nat} {st : StashPtrs}
    (h : st.overflowCount = (s.bucket i).stash.overflowCount) (y : Nat) :
    (s.setStash i st).overflow y = s.overflow y := by
  unfold overflow
  rw [stash_setStash]
  split
  · rename_i heq
    rw [h, ← heq]
  · rfl

theorem hasStash_setStash_same {s : Segment K V} {i : Nat} {st : StashPtrs}
    (h : st.hasStash = (s.bucket i).stash.hasStash) (y : Nat) :
    (s.setStash i st).hasStash y = s.hasStash y := by
  unfold hasStash
  rw [stash_setStash]
  split
  · rename_i heq
    rw [h, ← heq]
  · rfl

/-- What changes in the bookkeeping for home `y` and what does not. -/
structure StashStep (s s' : Segment K V) (y : Nat) : Prop where
  cell : s'.cell = s.cell
  slotsWF : s.SlotsWF p → s'.SlotsWF p
  stashWF : ∀ i, (s'.bucket i).stash.WF
  localDepth : s'.localDepth = s.localDepth
  segmentId : s'.segmentId = s.segmentId
  refs : ∀ y' < p.kBucketNum, y' ≠ y → s'.refs p y' = s.refs p y'
  overflow : ∀ y', y' ≠ y → s'.overflow y' = s.overflow y'
  hasStash : ∀ y', y' ≠ y → s'.hasStash y' = s.hasStash y'

/-- Replacing the stash members of bucket `y` by ones with the same probing
    references only concerns home `y`. -/
theorem stashStep_home {s : Segment K V} (hwf : ∀ i, (s.bucket i).stash.WF) {y : Nat}
    {st : StashPtrs} (hst : st.WF) (hprobe : st.refs true = (s.bucket y).stash.refs true) :
    StashStep p s (s.setStash y st) y where
  cell := cell_setStash s y st
  slotsWF h := h.setStash p y st
  stashWF i := by
    rw [stash_setStash]
    split
    · exact hst
    · exact hwf i
  localDepth := rfl
  segmentId := rfl
  refs y' _ hne := by
    unfold Segment.refs
    rw [stash_setStash, stash_setStash, if_neg hne]
    split
    · rename_i heq
      rw [hprobe, heq]
    · rfl
  overflow y' hne := by
    unfold Segment.overflow
    rw [stash_setStash, if_neg hne]
  hasStash y' hne := by
    unfold Segment.hasStash
    rw [stash_setStash, if_neg hne]

/-- Replacing the stash members of the next bucket by ones that differ in the
    probing references only concerns home `y` as well. -/
theorem stashStep_next {s : Segment K V} (hwf : ∀ i, (s.bucket i).stash.WF) {y : Nat}
    (hy : y < p.kBucketNum) {st : StashPtrs} (hst : st.WF)
    (hown : st.refs false = (s.bucket (p.nextBid y)).stash.refs false)
    (hover : st.overflowCount = (s.bucket (p.nextBid y)).stash.overflowCount)
    (hhas : st.hasStash = (s.bucket (p.nextBid y)).stash.hasStash) :
    StashStep p s (s.setStash (p.nextBid y) st) y where
  cell := cell_setStash s _ st
  slotsWF h := h.setStash p _ st
  stashWF i := by
    rw [stash_setStash]
    split
    · exact hst
    · exact hwf i
  localDepth := rfl
  segmentId := rfl
  refs y' hy' hne := by
    have hnext : p.nextBid y' ≠ p.nextBid y := fun h => hne (p.nextBid_injective hy' hy h)
    unfold Segment.refs
    rw [stash_setStash, stash_setStash, if_neg hnext]
    split
    · rename_i heq
      rw [hown, heq]
    · rfl
  overflow y' _ := overflow_setStash_same hover y'
  hasStash y' _ := hasStash_setStash_same hhas y'

theorem StashStep.trans {s s' s'' : Segment K V} {y : Nat} (h : StashStep p s s' y)
    (h' : StashStep p s' s'' y) : StashStep p s s'' y where
  cell := h'.cell.trans h.cell
  slotsWF hs := h'.slotsWF (h.slotsWF hs)
  stashWF := h'.stashWF
  localDepth := h'.localDepth.trans h.localDepth
  segmentId := h'.segmentId.trans h.segmentId
  refs y' hy hne := (h'.refs y' hy hne).trans (h.refs y' hy hne)
  overflow y' hne := (h'.overflow y' hne).trans (h.overflow y' hne)
  hasStash y' hne := (h'.hasStash y' hne).trans (h.hasStash y' hne)

/-! ### Recording and dropping a reference -/

/-- Setting the present bit. -/
theorem stash_setPresent (st : StashPtrs) (hst : st.WF) :
    let st' := { st with stashBusy := st.stashBusy ||| StashPtrs.kStashPresentBit }
    st'.WF ∧ (∀ probe, st'.refs probe = st.refs probe) ∧ st'.hasStash = true := by
  intro st'
  have hbit : ∀ i, st'.stashBusy.getLsbD i = (st.stashBusy.getLsbD i || decide (i = 4)) :=
    BitMask.getLsbD_or_bit st.stashBusy (by decide)
  refine ⟨?_, ?_, ?_⟩
  · intro i hi h
    rw [hbit, Bool.or_eq_true]
    exact Or.inl (hst i hi h)
  · intro probe
    apply StashPtrs.refs_of_busy
    intro i hi
    have hi4 : i ≠ 4 := Nat.ne_of_lt hi
    rw [hbit]
    simp [hi4]
  · rw [StashPtrs.hasStash_eq, hbit]
    simp

/-- Dropping the present bit. -/
theorem stash_clearPresent (st : StashPtrs) (hst : st.WF) :
    let st' := { st with stashBusy := st.stashBusy &&& ~~~StashPtrs.kStashPresentBit }
    st'.WF ∧ (∀ probe, st'.refs probe = st.refs probe) ∧ st'.hasStash = false := by
  intro st'
  have hbit : ∀ i, st'.stashBusy.getLsbD i = (st.stashBusy.getLsbD i && !decide (i = 4)) :=
    BitMask.getLsbD_and_not_bit st.stashBusy (by decide)
  refine ⟨?_, ?_, ?_⟩
  · intro i hi h
    have hi4 : i ≠ 4 := Nat.ne_of_lt hi
    rw [hbit]
    simp [hst i hi h, hi4]
  · intro probe
    apply StashPtrs.refs_of_busy
    intro i hi
    have hi4 : i ≠ 4 := Nat.ne_of_lt hi
    rw [hbit]
    simp [hi4]
  · rw [StashPtrs.hasStash_eq, hbit]
    simp

/-- One reference more for home `y`, or one overflow more. -/
theorem recordRef_spec {s : Segment K V} (hwf : ∀ i, (s.bucket i).stash.WF) {y q : Nat}
    (hy : y < p.kBucketNum) (hq : q < kStashBucketNum) (fp : UInt8) (hover : s.overflow y < 255) :
    StashStep p s (s.recordRef p y q fp) y ∧
      (((s.recordRef p y q fp).refs p y = (fp, q) ::ₘ s.refs p y ∧
          (s.recordRef p y q fp).overflow y = s.overflow y) ∨
        ((s.recordRef p y q fp).refs p y = s.refs p y ∧
          (s.recordRef p y q fp).overflow y = s.overflow y + 1)) := by
  unfold recordRef
  cases hown : (s.bucket y).stash.setStash fp q false with
  | some st =>
    obtain ⟨hst, hcount, -, hrefs, hother⟩ := StashPtrs.setStash_refs (hwf y) hq hown
    refine ⟨stashStep_home p hwf hst hother, Or.inl ⟨?_, overflow_setStash_same hcount y⟩⟩
    rw [refs_setStash_home p hother, hrefs, Multiset.cons_add]
    rfl
  | none =>
    cases hnext : (s.bucket (p.nextBid y)).stash.setStash fp q true with
    | some st =>
      obtain ⟨hst, hcount, hhas, hrefs, hother⟩ := StashPtrs.setStash_refs (hwf _) hq hnext
      refine ⟨stashStep_next p hwf hy hst hother hcount hhas,
        Or.inl ⟨?_, overflow_setStash_same hcount y⟩⟩
      rw [refs_setStash_next p hother, hrefs, Multiset.add_cons]
      rfl
    | none =>
      refine ⟨stashStep_home p hwf (hwf y) rfl, Or.inr ⟨refs_setStash_home p rfl, ?_⟩⟩
      unfold overflow at hover
      rw [overflow_setStash_home, BitVec.toNat_add]
      simp only [overflow, BitVec.toNat_ofNat]
      omega

/-- `SetStashPtr` for home `y`. -/
theorem setStashPtr_spec {s : Segment K V} (hwf : ∀ i, (s.bucket i).stash.WF) {y q : Nat}
    (hy : y < p.kBucketNum) (hq : q < kStashBucketNum) (fp : UInt8) (hover : s.overflow y < 255) :
    StashStep p s (s.setStashPtr p y q fp) y ∧ (s.setStashPtr p y q fp).hasStash y = true ∧
      (((s.setStashPtr p y q fp).refs p y = (fp, q) ::ₘ s.refs p y ∧
          (s.setStashPtr p y q fp).overflow y = s.overflow y) ∨
        ((s.setStashPtr p y q fp).refs p y = s.refs p y ∧
          (s.setStashPtr p y q fp).overflow y = s.overflow y + 1)) := by
  obtain ⟨hstep, hcase⟩ := recordRef_spec p hwf hy hq fp hover
  obtain ⟨hpwf, hprefs, hphas⟩ := stash_setPresent _ (hstep.stashWF y)
  have hpresent := stashStep_home p hstep.stashWF (y := y) hpwf (hprefs true)
  unfold setStashPtr
  refine ⟨hstep.trans p hpresent, by rw [hasStash_setStash_home, hphas], ?_⟩
  rw [refs_setStash_home p (hprefs true), hprefs, overflow_setStash_home]
  exact hcase

/-- The test for dropping the present bit sees whether any reference or overflow
    is left for home `y`. -/
theorem noStashLeft_iff (s : Segment K V) (y : Nat) :
    s.noStashLeft p y = true ↔ s.refs p y = 0 ∧ s.overflow y = 0 := by
  have hmask : ∀ (st : StashPtrs) (x : BitVec 8) (probe : Bool),
      (∀ i < 4, x.getLsbD i = (st.stashProbeMask.getLsbD i == probe)) →
      (((st.stashBusy &&& (StashPtrs.kStashPresentBit - 1#8)) &&& x) = 0#8 ↔
        st.refs probe = 0) := by
    intro st x probe hx
    rw [BitMask.eq_zero_iff, Multiset.eq_zero_iff_forall_notMem]
    have hlow : ∀ i, (StashPtrs.kStashPresentBit - 1#8).getLsbD i = decide (i < 4) :=
      BitMask.getLsbD_low_mask (by decide : 4 < 8)
    constructor
    · rintro hzero r hr
      obtain ⟨i, hi, hcell⟩ := StashPtrs.mem_refs.mp hr
      have hi4 : i < 4 := hi
      unfold StashPtrs.refCell at hcell
      split at hcell
      · rename_i hbusy
        have hflag := congrArg (fun r => r.2.2) (Option.some_inj.mp hcell)
        have := hzero i
        simp only [BitVec.getLsbD_and, hlow, hi4, hbusy, hx i hi4, decide_true, Bool.true_and,
          beq_eq_false_iff_ne, ne_eq] at this
        exact this hflag
      · cases hcell
    · intro hnone i
      by_cases hi4 : i < 4
      · by_contra hbit
        rw [Bool.not_eq_false, BitVec.getLsbD_and, BitVec.getLsbD_and, Bool.and_eq_true,
          Bool.and_eq_true, hx i hi4, beq_iff_eq] at hbit
        refine hnone (st.stashArr i, st.posAt i) (StashPtrs.mem_refs.mpr ⟨i, hi4, ?_⟩)
        simp [StashPtrs.refCell, hbit.1.1, hbit.2]
      · simp [BitVec.getLsbD_and, hlow, hi4]
  unfold noStashLeft refs overflow
  simp only [Bool.and_eq_true, beq_iff_eq]
  rw [hmask (s.bucket y).stash _ false, hmask (s.bucket (p.nextBid y)).stash _ true]
  · rw [add_eq_zero, ← BitVec.toNat_inj, BitVec.toNat_ofNat]
    constructor
    · rintro ⟨⟨ho, hc⟩, hn⟩
      exact ⟨⟨ho, hn⟩, hc⟩
    · rintro ⟨⟨ho, hn⟩, hc⟩
      exact ⟨⟨ho, hc⟩, hn⟩
  · intro i _
    simp
  · intro i hi
    rw [BitVec.getLsbD_not]
    simp [show i < 8 by omega]

/-- A reference with the fingerprint and position is dropped if home `y` has one,
    and an overflow is counted down otherwise. -/
theorem forgetRef_spec {s : Segment K V} (hwf : ∀ i, (s.bucket i).stash.WF) {y : Nat}
    (hy : y < p.kBucketNum) (fp : UInt8) (q : Nat)
    (hpos : (fp, q) ∉ s.refs p y → 0 < s.overflow y) :
    let s' := s.forgetRef p y fp q
    StashStep p s s' y ∧ s'.hasStash y = s.hasStash y ∧
      (((fp, q) ::ₘ s'.refs p y = s.refs p y ∧ s'.overflow y = s.overflow y) ∨
        ((fp, q) ∉ s.refs p y ∧ s'.refs p y = s.refs p y ∧ s'.overflow y + 1 = s.overflow y)) := by
  unfold forgetRef
  rcases StashPtrs.clearStash_cases (hwf y) fp q false with
    ⟨hown, hno⟩ | ⟨st, hown, hst, hcount, hhas, hrefs, hother⟩
  · rcases StashPtrs.clearStash_cases (hwf (p.nextBid y)) fp q true with
      ⟨hnext, hno'⟩ | ⟨st, hnext, hst, hcount, hhas, hrefs, hother⟩
    · have hnone : (fp, q) ∉ s.refs p y := by
        rw [refs, Multiset.mem_add]
        exact fun h => h.elim hno hno'
      simp only [hown, hnext]
      refine ⟨stashStep_home p hwf (hwf y) rfl, hasStash_setStash_home s y _,
        Or.inr ⟨hnone, refs_setStash_home p rfl, ?_⟩⟩
      have hlt := hpos hnone
      unfold overflow at hlt
      rw [overflow_setStash_home, BitVec.toNat_sub]
      simp only [overflow, BitVec.toNat_ofNat]
      have := (s.bucket y).stash.overflowCount.isLt
      omega
    · simp only [hown, hnext]
      refine ⟨stashStep_next p hwf hy hst hother hcount hhas, hasStash_setStash_same hhas y,
        Or.inl ⟨?_, overflow_setStash_same hcount y⟩⟩
      rw [refs_setStash_next p hother, ← Multiset.add_cons, hrefs]
      rfl
  · simp only [hown]
    refine ⟨stashStep_home p hwf hst hother, hasStash_setStash_same hhas y,
      Or.inl ⟨?_, overflow_setStash_same hcount y⟩⟩
    rw [refs_setStash_home p hother, ← Multiset.cons_add, hrefs]
    rfl

/-- `UnsetStashPtr` for home `y`. -/
theorem unsetStashPtr_spec {s : Segment K V} (hwf : ∀ i, (s.bucket i).stash.WF) {y : Nat}
    (hy : y < p.kBucketNum) (fp : UInt8) (q : Nat)
    (hpos : (fp, q) ∉ s.refs p y → 0 < s.overflow y) :
    let s' := s.unsetStashPtr p y fp q
    StashStep p s s' y ∧
      (s'.hasStash y = true ↔ s.hasStash y = true ∧ ¬ (s'.refs p y = 0 ∧ s'.overflow y = 0)) ∧
      (((fp, q) ::ₘ s'.refs p y = s.refs p y ∧ s'.overflow y = s.overflow y) ∨
        ((fp, q) ∉ s.refs p y ∧ s'.refs p y = s.refs p y ∧ s'.overflow y + 1 = s.overflow y)) := by
  intro s'
  obtain ⟨hstep, hhas, hcase⟩ := forgetRef_spec p hwf hy fp q hpos
  have hs' : s' = s.unsetStashPtr p y fp q := rfl
  unfold unsetStashPtr at hs'
  set s₁ := s.forgetRef p y fp q
  by_cases hleft : s₁.noStashLeft p y = true
  · simp only [hleft, if_true] at hs'
    obtain ⟨hpwf, hprefs, hphas⟩ := stash_clearPresent (s₁.bucket y).stash (hstep.stashWF y)
    have hpresent := stashStep_home p hstep.stashWF (y := y) hpwf (hprefs true)
    have hrefs : s'.refs p y = s₁.refs p y := by
      rw [hs', refs_setStash_home p (hprefs true), hprefs]
      rfl
    have hover : s'.overflow y = s₁.overflow y := by
      rw [hs', overflow_setStash_home]
      rfl
    have hgone := (noStashLeft_iff p s₁ y).mp hleft
    have hnohas : s'.hasStash y = false := by
      rw [hs', hasStash_setStash_home, hphas]
    rw [hrefs, hover]
    refine ⟨hs' ▸ hstep.trans p hpresent, ?_, hcase⟩
    simp [hnohas, hgone]
  · simp only [hleft, Bool.false_eq_true, if_false] at hs'
    have hsome : ¬ (s₁.refs p y = 0 ∧ s₁.overflow y = 0) := fun h =>
      hleft ((noStashLeft_iff p s₁ y).mpr h)
    rw [hs']
    exact ⟨hstep, by rw [hhas]; exact ⟨fun h => ⟨h, hsome⟩, fun h => h.1⟩, hcase⟩

end Segment

end StorageEngine.DashTable
