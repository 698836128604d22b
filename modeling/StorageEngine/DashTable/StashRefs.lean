import StorageEngine.DashTable.Bucket
import Mathlib.Tactic.FinCases
import Mathlib.Data.Multiset.AddSub

/-!
# Stash references of a bucket

A stash reference is a fingerprint and a stash position, stored in one of four
places of a bucket and flagged either as the bucket's own or as probing, that
is, kept for the previous bucket.  `refs` collects the references with one flag
as a multiset: the four places are interchangeable, and so are references with
the same fingerprint and position.  `setStash` adds one element to one of the two
multisets and `clearStash` removes one; these are the only facts about the packed
bytes that the segment proofs use.
-/

namespace StorageEngine.DashTable

open StorageEngine SlotStore

namespace StashPtrs

/-- Reference `i`, if it is taken: fingerprint, stash position, probe flag. -/
def refCell (b : StashPtrs) (i : Nat) : Option (UInt8 × Nat × Bool) :=
  if b.stashBusy.getLsbD i then some (b.stashArr i, b.posAt i, b.stashProbeMask.getLsbD i)
  else none

/-- The references with the given probe flag. -/
def refs (b : StashPtrs) (probe : Bool) : Multiset (UInt8 × Nat) :=
  gather (Finset.range kStashFpLen) b.refCell fun _ r =>
    if r.2.2 = probe then {(r.1, r.2.1)} else 0

/-- A probe flag is only ever set on a taken reference. -/
def WF (b : StashPtrs) : Prop :=
  ∀ i < kStashFpLen, b.stashProbeMask.getLsbD i = true → b.stashBusy.getLsbD i = true

theorem wf_empty : WF {} := by
  intro i _ h
  simp at h

theorem wf_clearStashPtrs (b : StashPtrs) : WF b.clearStashPtrs := by
  intro i _ h
  simp [clearStashPtrs] at h

theorem refs_eq_zero {b : StashPtrs} (h : b.stashBusy = 0#8) (probe : Bool) : b.refs probe = 0 := by
  apply gather_eq_zero
  intro i _ r hr
  simp [refCell, h] at hr

/-! ### The packed position byte -/

/-- Writing position `q` of reference `i` leaves the other positions alone. -/
theorem pos_write : ∀ (x : BitVec 8) (i j q : Fin 4),
    ((((x &&& ~~~(3#8 <<< (i.val * 2))) ||| (BitVec.ofNat 8 q.val <<< (i.val * 2))) >>>
      (j.val * 2)) &&& 3#8).toNat =
    if j = i then q.val else ((x >>> (j.val * 2)) &&& 3#8).toNat := by
  decide +kernel

/-- Clearing the position of reference `i` leaves the other positions alone. -/
theorem pos_clear : ∀ (x : BitVec 8) (i j : Fin 4), j ≠ i →
    (((x &&& ~~~(3#8 <<< (i.val * 2))) >>> (j.val * 2)) &&& 3#8).toNat =
      ((x >>> (j.val * 2)) &&& 3#8).toNat := by
  decide +kernel

theorem hasStash_eq (b : StashPtrs) : b.hasStash = b.stashBusy.getLsbD 4 := by
  have h : ∀ x : BitVec 8, ((x &&& kStashPresentBit) != 0#8) = x.getLsbD 4 := by decide +kernel
  exact h b.stashBusy

theorem posAt_lt (b : StashPtrs) (i : Nat) : b.posAt i < 4 := by
  have h := Nat.and_le_right (n := (b.stashPos >>> (i * 2)).toNat) (m := 3)
  simp only [posAt, BitVec.toNat_and]
  exact Nat.lt_succ_of_le h

/-! ### Adding and dropping a reference -/

/-- What `SetStash` can do: nothing, when the four references are taken, or fill
    a free one. -/
theorem setStash_cases (b : StashPtrs) (hwf : b.WF) (fp : UInt8) {q : Nat} (hq : q < 4)
    (probe : Bool) :
    b.setStash fp q probe = none ∨
    ∃ b' i, b.setStash fp q probe = some b' ∧ i < kStashFpLen ∧ b.refCell i = none ∧
      (∀ j < kStashFpLen, b'.refCell j = Function.update b.refCell i (some (fp, q, probe)) j) ∧
      b'.WF ∧ b'.overflowCount = b.overflowCount ∧ b'.hasStash = b.hasStash := by
  unfold setStash
  set i := (~~~b.stashBusy).ctz.toNat with hi
  by_cases hfull : kStashFpLen ≤ i
  · exact Or.inl (by simp [hfull])
  · right
    have hi4 : i < 4 := Nat.lt_of_not_le hfull
    have hbit : (~~~b.stashBusy).getLsbD i = true := by
      apply BitMask.getLsbD_ctz_of_ne_zero
      intro hzero
      have : i = 8 := by rw [hi, hzero]; decide
      omega
    have hfree : b.stashBusy.getLsbD i = false := by
      rw [BitVec.getLsbD_not] at hbit
      simpa using (Bool.and_eq_true_iff.mp hbit).2
    have hnoprobe : b.stashProbeMask.getLsbD i = false := by
      by_contra h
      have := hwf i hi4 (by simpa using h)
      simp [hfree] at this
    have hprobe : ∀ j, (b.stashProbeMask ||| (if probe then 1#8 else 0#8) <<< i).getLsbD j =
        (b.stashProbeMask.getLsbD j || (probe && decide (j = i))) := by
      intro j
      cases probe with
      | true => simpa using BitMask.getLsbD_or_bit b.stashProbeMask (by omega : i < 8) j
      | false => simp
    have hbusy := BitMask.getLsbD_or_bit b.stashBusy (by omega : i < 8)
    refine ⟨_, i, if_neg hfull, hi4, by simp [refCell, hfree], ?_, ?_, rfl, ?_⟩
    · intro j hj
      have hpos := pos_write b.stashPos ⟨i, hi4⟩ ⟨j, hj⟩ ⟨q, hq⟩
      by_cases hji : j = i
      · subst hji
        simp [refCell, posAt, hbusy, hprobe, hnoprobe, hpos]
      · have hpos' : ¬ (⟨j, hj⟩ : Fin 4) = ⟨i, hi4⟩ := fun h => hji (Fin.mk.inj h)
        rw [if_neg hpos'] at hpos
        simp [refCell, posAt, hbusy, hprobe, hji, hpos]
    · intro j hj hset
      simp only [hprobe, hbusy, Bool.or_eq_true, Bool.and_eq_true, decide_eq_true_eq] at hset ⊢
      rcases hset with hset | ⟨_, hset⟩
      · exact Or.inl (hwf j hj hset)
      · exact Or.inr hset
    · rw [hasStash_eq, hasStash_eq, hbusy]
      simp [show ¬ 4 = i by omega]

/-- Sums over the references only look at the four places. -/
theorem refs_congr {b b' : StashPtrs} (h : ∀ j < kStashFpLen, b'.refCell j = b.refCell j)
    (probe : Bool) : b'.refs probe = b.refs probe := by
  apply gather_congr
  intro j hj
  rw [h j (Finset.mem_range.mp hj)]

/-- The references do not depend on the present bit. -/
theorem refs_of_busy {b : StashPtrs} {busy : BitVec 8}
    (h : ∀ i < kStashFpLen, busy.getLsbD i = b.stashBusy.getLsbD i) (probe : Bool) :
    ({ b with stashBusy := busy } : StashPtrs).refs probe = b.refs probe := by
  apply refs_congr
  intro i hi
  unfold refCell
  dsimp only
  rw [h i hi]
  rfl

/-- `SetStash` records one more reference with its flag. -/
theorem setStash_refs {b b' : StashPtrs} (hwf : b.WF) {fp : UInt8} {q : Nat} (hq : q < 4)
    {probe : Bool} (h : b.setStash fp q probe = some b') :
    b'.WF ∧ b'.overflowCount = b.overflowCount ∧ b'.hasStash = b.hasStash ∧
      b'.refs probe = (fp, q) ::ₘ b.refs probe ∧ b'.refs (!probe) = b.refs (!probe) := by
  rcases setStash_cases b hwf fp hq probe with hnone | ⟨b'', i, hsome, hi, hfree, hcell, hrest⟩
  · simp [hnone] at h
  · obtain rfl : b'' = b' := Option.some_inj.mp (hsome ▸ h)
    have hput : ∀ flag, b''.refs flag =
        (if probe = flag then {(fp, q)} else 0) + b.refs flag := by
      intro flag
      refine (gather_congr fun j hj => ?_).trans (gather_put (e := (fp, q, probe))
        (Finset.mem_range.mpr hi) hfree)
      rw [hcell j (Finset.mem_range.mp hj)]
    refine ⟨hrest.1, hrest.2.1, hrest.2.2, ?_, ?_⟩
    · rw [hput]
      simp
    · rw [hput]
      simp

/-- Dropping a taken reference. -/
theorem dropRef_spec {b : StashPtrs} (hwf : b.WF) {i : Nat} (hi : i < kStashFpLen) :
    (b.dropRef i).WF ∧ (b.dropRef i).overflowCount = b.overflowCount ∧
      (b.dropRef i).hasStash = b.hasStash ∧
      ∀ j < kStashFpLen, (b.dropRef i).refCell j = Function.update b.refCell i none j := by
  have hi8 : i < 8 := Nat.lt_of_lt_of_le hi (by decide)
  have hbusy := BitMask.getLsbD_and_not_bit b.stashBusy hi8
  have hprobe := BitMask.getLsbD_and_not_bit b.stashProbeMask hi8
  refine ⟨?_, rfl, ?_, ?_⟩
  · intro j hj hset
    simp only [dropRef, hprobe, hbusy, Bool.and_eq_true] at hset ⊢
    exact ⟨hwf j hj hset.1, hset.2⟩
  · rw [hasStash_eq, hasStash_eq]
    have hi4 : ¬ 4 = i := fun h => absurd hi (by rw [← h]; decide)
    simp only [dropRef, hbusy, hi4]
    simp
  · intro j hj
    by_cases hji : j = i
    · subst hji
      simp [refCell, dropRef, hbusy]
    · have hpos := pos_clear b.stashPos ⟨i, hi⟩ ⟨j, hj⟩ fun h => hji (Fin.mk.inj h)
      simp [refCell, dropRef, hbusy, hprobe, hji, posAt, hpos]

theorem matchesAt_iff {b : StashPtrs} {fp : UInt8} {isProbe : Bool} {i : Nat}
    (hi : i < kStashFpLen) :
    b.matchesAt fp isProbe i = true ↔ b.refCell i = some (fp, b.posAt i, isProbe) := by
  have hi8 : i < 8 := Nat.lt_of_lt_of_le hi (by decide)
  cases hb : b.stashBusy.getLsbD i with
  | false => simp [matchesAt, refCell, hb]
  | true =>
    cases isProbe with
    | true => simp [matchesAt, refCell, hb]
    | false =>
      simp only [matchesAt, refCell, hb, Bool.true_and, Bool.false_eq_true, if_false, if_true,
        BitVec.getLsbD_not, hi8, decide_true, Bool.and_eq_true, beq_iff_eq, Bool.not_eq_true',
        Option.some.injEq, Prod.mk.injEq, true_and]

theorem mem_refs {b : StashPtrs} {probe : Bool} {x : UInt8 × Nat} :
    x ∈ b.refs probe ↔ ∃ i < kStashFpLen, b.refCell i = some (x.1, x.2, probe) := by
  rw [refs, mem_gather]
  constructor
  · rintro ⟨i, hi, ⟨fp, q, flag⟩, hr, hx⟩
    by_cases hflag : flag = probe
    · subst hflag
      simp only [if_true, Multiset.mem_singleton] at hx
      subst hx
      exact ⟨i, Finset.mem_range.mp hi, hr⟩
    · simp [hflag] at hx
  · rintro ⟨i, hi, hr⟩
    exact ⟨i, Finset.mem_range.mpr hi, _, hr, by simp⟩

/-- `ClearStash` fails only when there is no such reference, and otherwise drops
    one of them. -/
theorem clearStash_cases {b : StashPtrs} (hwf : b.WF) (fp : UInt8) (q : Nat) (probe : Bool) :
    (b.clearStash fp q probe = none ∧ (fp, q) ∉ b.refs probe) ∨
    ∃ b', b.clearStash fp q probe = some b' ∧ b'.WF ∧ b'.overflowCount = b.overflowCount ∧
      b'.hasStash = b.hasStash ∧ (fp, q) ::ₘ b'.refs probe = b.refs probe ∧
      b'.refs (!probe) = b.refs (!probe) := by
  unfold clearStash
  cases hit : b.iterateStash fp probe fun i pos => if pos = q then some i else none with
  | none =>
    left
    refine ⟨rfl, fun hmem => ?_⟩
    obtain ⟨i, hi, hr⟩ := mem_refs.mp hmem
    rw [iterateStash, List.findSome?_eq_none_iff] at hit
    have hno := hit i (List.mem_range.mpr hi)
    have hpos : b.posAt i = q := by
      unfold refCell at hr
      split at hr
      · simpa using (congrArg (fun r => r.2.1) (Option.some_inj.mp hr))
      · cases hr
    have hmatch : b.matchesAt fp probe i = true := (matchesAt_iff hi).mpr (by rw [hr, hpos])
    simp [hmatch, hpos] at hno
  | some found =>
    right
    obtain ⟨pos, i⟩ := found
    obtain ⟨i', hi', hfound⟩ := List.exists_of_findSome?_eq_some hit
    have hi4 : i' < kStashFpLen := List.mem_range.mp hi'
    split at hfound
    · rename_i hmatch
      by_cases hpos : b.posAt i' = q
      · simp only [hpos, if_true, Option.map_some, Option.some.injEq, Prod.mk.injEq] at hfound
        obtain ⟨-, rfl⟩ := hfound
        have hcell := (matchesAt_iff hi4).mp hmatch
        rw [hpos] at hcell
        obtain ⟨hwf', hover, hhas, hdrop⟩ := dropRef_spec hwf hi4
        have htake : ∀ flag, (if probe = flag then {(fp, q)} else 0) + (b.dropRef i').refs flag =
            b.refs flag := by
          intro flag
          have hgather : (b.dropRef i').refs flag = gather (Finset.range kStashFpLen)
              (Function.update b.refCell i' none) fun _ r =>
                if r.2.2 = flag then {(r.1, r.2.1)} else 0 :=
            gather_congr fun j hj => by rw [hdrop j (Finset.mem_range.mp hj)]
          rw [hgather]
          exact gather_take (g := fun _ (r : UInt8 × Nat × Bool) =>
            if r.2.2 = flag then ({(r.1, r.2.1)} : Multiset (UInt8 × Nat)) else 0)
            (Finset.mem_range.mpr hi4) hcell
        refine ⟨_, rfl, hwf', hover, hhas, ?_, ?_⟩
        · simpa using htake probe
        · simpa using htake (!probe)
      · simp [hpos] at hfound
    · cases hfound

end StashPtrs

end StorageEngine.DashTable
