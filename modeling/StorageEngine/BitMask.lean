/-
  StorageEngine/BitMask.lean
  ==========================
  **Bit masks as finite sets of positions.**

  A word used as a bitmap is read through `getLsbD`.  This file relates the two
  hardware primitives that bitmap code lives on — population count and "count
  trailing zeros" — to that reading: `cpop` is the number of set positions, and
  `ctz` of a non-zero word is the least of them.  Nothing here knows what the
  bits stand for.
-/
import Mathlib.Data.Finset.Card
import Mathlib.Algebra.BigOperators.Group.Finset.Basic
import Mathlib.Tactic.Linarith

namespace StorageEngine.BitMask

variable {w : Nat}

/-! ### Population count -/

/-- The positions of the set bits. -/
def positions (m : BitVec w) : Finset Nat := (Finset.range w).filter fun i => m.getLsbD i

@[simp] theorem mem_positions {m : BitVec w} {i : Nat} :
    i ∈ positions m ↔ m.getLsbD i = true := by
  simp only [positions, Finset.mem_filter, Finset.mem_range, and_iff_right_iff_imp]
  exact fun h => BitVec.lt_of_getLsbD h

theorem cpopNatRec_eq_card (m : BitVec w) (n : Nat) :
    m.cpopNatRec n 0 = ((Finset.range n).filter fun i => m.getLsbD i).card := by
  induction n with
  | zero => rfl
  | succ n ih =>
    rw [BitVec.cpopNatRec_succ, BitVec.cpopNatRec_eq, ih, Finset.range_add_one,
      Finset.filter_insert]
    cases hbit : m.getLsbD n with
    | false => simp
    | true => simp

/-- Population count is the number of set positions. -/
theorem toNat_cpop_eq_card (m : BitVec w) : m.cpop.toNat = (positions m).card := by
  rw [BitVec.toNat_cpop, cpopNatRec_eq_card]
  rfl

/-- A mask confined to the first `n` positions has population at most `n`. -/
theorem toNat_cpop_le {m : BitVec w} {n : Nat} (hm : ∀ i, m.getLsbD i = true → i < n) :
    m.cpop.toNat ≤ n := by
  rw [toNat_cpop_eq_card]
  calc (positions m).card ≤ (Finset.range n).card :=
        Finset.card_le_card fun i hi => Finset.mem_range.mpr (hm i (mem_positions.mp hi))
    _ = n := Finset.card_range n

/-- A mask confined to the first `n` positions has population `n` exactly when
    all of them are set. -/
theorem toNat_cpop_eq_iff {m : BitVec w} {n : Nat} (hm : ∀ i, m.getLsbD i = true → i < n) :
    m.cpop.toNat = n ↔ ∀ i < n, m.getLsbD i = true := by
  have hsub : positions m ⊆ Finset.range n := fun i hi =>
    Finset.mem_range.mpr (hm i (mem_positions.mp hi))
  rw [toNat_cpop_eq_card]
  constructor
  · intro hcard i hi
    have hall : positions m = Finset.range n :=
      Finset.eq_of_subset_of_card_le hsub (by simp [hcard])
    exact mem_positions.mp (hall ▸ Finset.mem_range.mpr hi)
  · intro hall
    have hset : positions m = Finset.range n :=
      Finset.Subset.antisymm hsub fun i hi => mem_positions.mpr (hall i (Finset.mem_range.mp hi))
    rw [hset, Finset.card_range]

/-! ### Counting trailing zeros -/

/-- `ctz` of a word with a set bit is a set position. -/
theorem getLsbD_ctz {m : BitVec w} {i : Nat} (h : m.getLsbD i = true) :
    m.getLsbD m.ctz.toNat = true := by
  apply BitVec.getLsbD_true_ctz_of_ne_zero
  rintro rfl
  simp at h

/-- `ctz` is at most any set position. -/
theorem ctz_le {m : BitVec w} {i : Nat} (h : m.getLsbD i = true) : m.ctz.toNat ≤ i := by
  by_contra hlt
  have := BitVec.getLsbD_false_of_lt_ctz (Nat.lt_of_not_le hlt)
  simp [h] at this

/-- A word is zero exactly when it has no set position. -/
theorem eq_zero_iff {m : BitVec w} : m = 0#w ↔ ∀ i, m.getLsbD i = false := by
  constructor
  · rintro rfl i
    simp
  · intro h
    apply BitVec.eq_of_getLsbD_eq
    intro i _
    simp [h i]

theorem getLsbD_ctz_of_ne_zero {m : BitVec w} (h : m ≠ 0#w) : m.getLsbD m.ctz.toNat = true :=
  BitVec.getLsbD_true_ctz_of_ne_zero h

/-! ### Single-bit updates -/

theorem getLsbD_one_shiftLeft {k i : Nat} (hk : k < w) :
    (1#w <<< k).getLsbD i = decide (i = k) := by
  by_cases hi : i = k
  · subst hi
    simp [hk]
  · simp only [BitVec.getLsbD_shiftLeft, BitVec.getLsbD_one, hi, decide_false]
    by_cases hik : i < k
    · simp [hik]
    · have : i - k ≠ 0 := by omega
      simp [this]

/-- Setting one bit. -/
theorem getLsbD_or_bit (m : BitVec w) {k : Nat} (hk : k < w) (i : Nat) :
    (m ||| 1#w <<< k).getLsbD i = (m.getLsbD i || decide (i = k)) := by
  rw [BitVec.getLsbD_or, getLsbD_one_shiftLeft hk]

/-- Clearing one bit. -/
theorem getLsbD_and_not_bit (m : BitVec w) {k : Nat} (hk : k < w) (i : Nat) :
    (m &&& ~~~(1#w <<< k)).getLsbD i = (m.getLsbD i && !decide (i = k)) := by
  rw [BitVec.getLsbD_and, BitVec.getLsbD_not, getLsbD_one_shiftLeft hk]
  by_cases hi : i < w
  · simp [hi]
  · simp [hi, BitVec.getLsbD_of_ge m i (by omega)]

/-- The mask of the first `n` positions. -/
theorem getLsbD_low_mask {n : Nat} (hn : n < w) (i : Nat) :
    ((1#w <<< n) - 1#w).getLsbD i = decide (i < n) := by
  have hpos : 0 < 2 ^ n := Nat.two_pow_pos n
  have hlt : 2 ^ n < 2 ^ w := Nat.pow_lt_pow_right (by decide) hn
  have hw : 0 < w := by omega
  have hone : 1 < 2 ^ w := Nat.one_lt_two_pow (by omega)
  have hval : ((1#w <<< n) - 1#w).toNat = 2 ^ n - 1 := by
    rw [BitVec.toNat_sub_of_le]
    · simp [Nat.shiftLeft_eq, Nat.mod_eq_of_lt hlt, Nat.mod_eq_of_lt hone]
    · simp only [BitVec.le_def, BitVec.toNat_shiftLeft, BitVec.toNat_ofNat, Nat.shiftLeft_eq,
        Nat.mod_eq_of_lt hone, Nat.one_mul, Nat.mod_eq_of_lt hlt]
      exact hpos
  rw [← BitVec.testBit_toNat, hval, Nat.testBit_two_pow_sub_one]

end StorageEngine.BitMask
