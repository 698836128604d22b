/-
  StorageEngine/DashTable/SegmentRuns.lean
  ========================================
  **Runs of segment operations.**

  The segments a table can build: from the constructor by insertions in either
  spread mode, deletions of busy slots, splits and `Clear`.  Every one of them has
  the representation invariant.
-/
import StorageEngine.DashTable.SegmentSplit

namespace StorageEngine.DashTable

open StorageEngine SlotStore

variable {K V : Type} [Inhabited K] [Inhabited V]

namespace Segment

variable (p : Policy K V)

/-- Everything the operations build from an empty segment.  A deletion names a busy
    slot and the hash of the key in it; a split moves entries into a new segment, and
    may drop some. -/
inductive Built : Segment K V → Prop where
  | new (depth id : Nat) : Built (new depth id)
  | insertUniq {s : Segment K V} (key : K) (value : V) (spread : Bool) (h : Built s) :
      Built (s.insertUniq p key value (p.hashFn key) spread).seg
  | insert {s : Segment K V} (key : K) (value : V) (pred : K → Bool) (h : Built s) :
      Built (s.insert p key value (p.hashFn key) pred).1.seg
  | delete {s : Segment K V} (it : Iter) (h : Built s) (index : it.index < p.kTotalBuckets)
      (busy : s.isBusy it = true) :
      Built (s.delete p it (p.hashFn ((s.bucket it.index).key it.slot)))
  | splitSource {s : Segment K V} (depth id : Nat) (h : Built s) :
      Built (split p s (.new depth id)).source
  | splitDest {s : Segment K V} (depth id : Nat) (h : Built s) :
      Built (split p s (.new depth id)).dest
  | clear {s : Segment K V} (h : Built s) : Built (s.clear p)

/-- The segments reached from an empty one when every split has room: both halves
    count when every entry found a slot. -/
inductive Reachable : Segment K V → Prop where
  | new (depth id : Nat) : Reachable (new depth id)
  | insertUniq {s : Segment K V} (key : K) (value : V) (spread : Bool) (h : Reachable s) :
      Reachable (s.insertUniq p key value (p.hashFn key) spread).seg
  | insert {s : Segment K V} (key : K) (value : V) (pred : K → Bool) (h : Reachable s) :
      Reachable (s.insert p key value (p.hashFn key) pred).1.seg
  | delete {s : Segment K V} (it : Iter) (h : Reachable s) (index : it.index < p.kTotalBuckets)
      (busy : s.isBusy it = true) :
      Reachable (s.delete p it (p.hashFn ((s.bucket it.index).key it.slot)))
  | splitSource {s : Segment K V} (depth id : Nat) (h : Reachable s)
      (room : (split p s (.new depth id)).dropped = []) :
      Reachable (split p s (.new depth id)).source
  | splitDest {s : Segment K V} (depth id : Nat) (h : Reachable s)
      (room : (split p s (.new depth id)).dropped = []) :
      Reachable (split p s (.new depth id)).dest
  | clear {s : Segment K V} (h : Reachable s) : Reachable (s.clear p)

variable {p} in
theorem Reachable.built {s : Segment K V} (h : Reachable p s) : Built p s := by
  induction h with
  | new depth id => exact .new depth id
  | insertUniq key value spread _ ih => exact .insertUniq key value spread ih
  | insert key value pred _ ih => exact .insert key value pred ih
  | delete it _ index busy ih => exact .delete it ih index busy
  | splitSource depth id _ _ ih => exact .splitSource depth id ih
  | splitDest depth id _ _ ih => exact .splitDest depth id ih
  | clear _ ih => exact .clear ih

omit [Inhabited K] [Inhabited V] in
theorem cell_of_isBusy {s : Segment K V} {i j : Nat} (h : (s.bucket i).isBusy j = true) :
    s.cell (i, j) = some ⟨(s.bucket i).key j, (s.bucket i).value j, (s.bucket i).fingerArr j,
      (s.bucket i).slotb.probe.getLsbD j⟩ :=
  Bucket.cell_of_busy h

section Movable

variable [p.Movable]

omit [Inhabited K] [Inhabited V] in
theorem insertUniq_inv {s : Segment K V} (hinv : s.Inv p) (key : K) (value : V) (spread : Bool) :
    (s.insertUniq p key value (p.hashFn key) spread).seg.Inv p := by
  rcases insertUniq_cases p hinv.slotsWF key value (p.hashFn key) spread with
    ⟨-, hseg, -⟩ | ⟨it, -, hplaced⟩
  · rw [hseg]
    exact hinv
  · exact hplaced.inv hinv

theorem Built.inv {s : Segment K V} (h : Built p s) : s.Inv p := by
  induction h with
  | new depth id => exact inv_new p depth id
  | insertUniq key value spread _ ih => exact insertUniq_inv p ih key value spread
  | @insert s key value pred _ ih =>
    unfold Segment.insert
    cases s.findIt p (p.hashFn key) pred with
    | some it => exact ih
    | none => exact insertUniq_inv p ih key value true
  | delete it _ index busy ih => exact (delete_spec p ih index (cell_of_isBusy busy)).1
  | splitSource depth id _ ih => exact (split_spec p ih _).1.inv
  | splitDest depth id _ ih =>
    exact (split_receives p ih (inv_new p depth id) (contents_new p depth id)).1
  | clear _ ih => exact inv_clear p ih.slotsWF ih.stashWF

end Movable

variable [p.Movable]

/-- **The representation of a reachable segment.**  Entries are where their hash and
    probe bit say; the stash references of a home bucket and its overflow counter
    account exactly for its stash entries, so that the assertions of `UnsetStashPtr`
    hold in `Delete` and throughout `Split`; and the present bit says whether there
    are any. -/
theorem reachable_representation {s : Segment K V} (h : Reachable p s) :
    (∀ i < p.kBucketNum, ∀ j, (s.bucket i).isBusy j = true →
      (s.bucket i).fingerArr j = fingerprint (p.hashFn ((s.bucket i).key j)) ∧
      p.homeIndex (p.hashFn ((s.bucket i).key j)) =
        if (s.bucket i).slotb.probe.getLsbD j then p.prevBid i else i) ∧
    (∀ q < kStashBucketNum, ∀ j, (s.bucket (p.kBucketNum + q)).isBusy j = true →
      (s.bucket (p.kBucketNum + q)).fingerArr j =
        fingerprint (p.hashFn ((s.bucket (p.kBucketNum + q)).key j)) ∧
      (s.bucket (p.kBucketNum + q)).slotb.probe.getLsbD j = false) ∧
    (∀ y < p.kBucketNum, s.refs p y ≤ s.stashPairs p y ∧
      s.overflow y = (s.stashPairs p y - s.refs p y).card ∧ s.overflow y < 255 ∧
      (s.hasStash y = true ↔ s.stashPairs p y ≠ 0)) ∧
    (∀ q < kStashBucketNum, ∀ j, (s.bucket (p.kBucketNum + q)).isBusy j = true →
      s.overflowAssert p (p.homeIndex (p.hashFn ((s.bucket (p.kBucketNum + q)).key j)))
        (fingerprint (p.hashFn ((s.bucket (p.kBucketNum + q)).key j))) q = true) ∧
    (∀ depth id, (split p s (.new depth id)).asserted = true) := by
  have hinv := h.built.inv p
  refine ⟨?_, ?_, ?_, ?_, ?_⟩
  · intro i hi j hbusy
    exact hinv.home i hi j _ (cell_of_isBusy hbusy)
  · intro q hq j hbusy
    exact hinv.stashed q hq j _ (cell_of_isBusy hbusy)
  · intro y hy
    have hle := hinv.refs_le y hy
    have hcard := hinv.overflow_eq y hy
    have hbound := hinv.overflow_le p hy
    refine ⟨hle, ?_, by omega, hinv.present_iff y hy⟩
    rw [Multiset.card_sub hle]
    omega
  · intro q hq j hbusy
    have hassert := hinv.overflowAssert p hq (cell_of_isBusy hbusy)
    exact hassert
  · intro depth id
    exact (split_spec p hinv _).2.1

/-! ### A segment with every slot taken -/

/-- Keys of both home buckets of `narrow64`, with the top bit of the hash alternating. -/
def mixedKey (n : Nat) : UInt64 := UInt64.ofNat (n % 2 * 2 ^ 63 + n / 2 % 2 * 2 ^ 8 + n)

/-- Two keys take the regular buckets and the next four the stash. -/
def filled (n : Nat) : Segment UInt64 UInt64 :=
  (List.range n).foldl (fun s k =>
    (s.insertUniq narrow64 (mixedKey k) (UInt64.ofNat k) (mixedKey k) true).seg) (new 0 0)

theorem reachable_filled (n : Nat) : Reachable narrow64 (filled n) := by
  induction n with
  | zero => exact .new 0 0
  | succ n ih =>
    rw [filled, List.range_succ, List.foldl_append]
    exact .insertUniq (mixedKey n) (UInt64.ofNat n) true ih

/-- The keys with the top bit set leave a full segment.  The one that stays in the stash is
    known to its home bucket, until it is deleted. -/
theorem reachable_representation_filled : ∃ s s' : Segment UInt64 UInt64,
    s = (split narrow64 (filled 6) (.new 1 1)).source ∧ Reachable narrow64 s ∧
    (s.bucket 3).isBusy 0 = true ∧ s.overflowAssert narrow64 1 2 1 = true ∧
    s.stashPairs narrow64 1 ≠ 0 ∧
    s' = s.delete narrow64 ⟨3, 0⟩ (narrow64.hashFn ((s.bucket 3).key 0)) ∧
    Reachable narrow64 s' ∧ s'.stashPairs narrow64 1 = 0 := by
  have hsplit : (split narrow64 (filled 6) (.new 1 1)).dropped = [] := by decide +kernel
  have hsource := Reachable.splitSource 1 1 (reachable_filled 6) hsplit
  generalize hs : (split narrow64 (filled 6) (.new 1 1)).source = s at hsource
  have hreads : ((s.bucket 3).isBusy 0, (s.bucket 3).key 0, s.hasStash 1) =
      (true, mixedKey 2, true) := by
    rw [← hs]
    decide +kernel
  obtain ⟨hbusy, hreads⟩ := Prod.mk.inj hreads
  obtain ⟨hkey, hstash⟩ := Prod.mk.inj hreads
  have hdeleted : Reachable narrow64
      (s.delete narrow64 ⟨3, 0⟩ (narrow64.hashFn ((s.bucket 3).key 0))) :=
    .delete ⟨3, 0⟩ hsource (by decide) hbusy
  have hgone : (s.delete narrow64 ⟨3, 0⟩ (narrow64.hashFn ((s.bucket 3).key 0))).hasStash 1 =
      false := by
    rw [← hs]
    decide +kernel
  obtain ⟨-, -, hcounts, hasserts, -⟩ := reachable_representation narrow64 hsource
  obtain ⟨-, -, hcounts', -⟩ := reachable_representation narrow64 hdeleted
  have hassert := hasserts 1 (by decide) 0 hbusy
  rw [show narrow64.kBucketNum + 1 = 3 from rfl, hkey,
    show narrow64.homeIndex (narrow64.hashFn (mixedKey 2)) = 1 by decide +kernel,
    show fingerprint (narrow64.hashFn (mixedKey 2)) = 2 by decide +kernel] at hassert
  refine ⟨s, _, rfl, hsource, hbusy, hassert, (hcounts 1 (by decide)).2.2.2.mp hstash, rfl,
    hdeleted, ?_⟩
  by_contra hpairs
  exact ne_true_of_eq_false hgone ((hcounts' 1 (by decide)).2.2.2.mpr hpairs)

end Segment

end StorageEngine.DashTable
