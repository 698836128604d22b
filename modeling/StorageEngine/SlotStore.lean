/-
  StorageEngine/SlotStore.lean
  ============================
  **Finite stores of optional cells.**

  Many containers are, under their bookkeeping, a family `cell : ι → Option E`
  over a finite index set: a slot is free (`none`) or occupied.  What such a
  store contains is a sum over the occupied cells (`gather`), and every
  container operation is a sequence of two elementary moves — filling a free
  cell and emptying an occupied one.  The rules below say what each move does
  to any such sum, so that contents, sizes and reference counts are all
  tracked by the same two lemmas.
-/
import Mathlib.Algebra.BigOperators.Group.Finset.Basic
import Mathlib.Algebra.Order.BigOperators.Group.Finset
import Mathlib.Algebra.BigOperators.Group.Multiset.Basic
import Mathlib.Algebra.Order.Group.Multiset

namespace StorageEngine.SlotStore

open scoped BigOperators

variable {ι E M : Type*} [AddCommMonoid M]

/-- The sum of `g` over the occupied cells with an index in `I`. -/
def gather (I : Finset ι) (cell : ι → Option E) (g : ι → E → M) : M :=
  ∑ i ∈ I, (cell i).elim 0 (g i)

variable {I : Finset ι} {cell : ι → Option E} {g : ι → E → M} {i : ι} {e : E}

theorem gather_eq_zero (h : ∀ i ∈ I, ∀ e, cell i = some e → g i e = 0) :
    gather I cell g = 0 := by
  apply Finset.sum_eq_zero
  intro i hi
  cases hc : cell i with
  | none => rfl
  | some e => exact h i hi e hc

theorem gather_congr {cell' : ι → Option E} {g' : ι → E → M}
    (h : ∀ i ∈ I, (cell i).elim 0 (g i) = (cell' i).elim 0 (g' i)) :
    gather I cell g = gather I cell' g' :=
  Finset.sum_congr rfl h

/-- Additive maps commute with gathering. -/
theorem map_gather {N : Type*} [AddCommMonoid N] (f : M →+ N) :
    f (gather I cell g) = gather I cell fun i e => f (g i e) := by
  unfold gather
  rw [map_sum]
  apply Finset.sum_congr rfl
  intro i _
  cases cell i with
  | none => simp
  | some e => rfl

theorem mem_gather {X : Type*} {c : ι → E → Multiset X} {x : X} :
    x ∈ gather I cell c ↔ ∃ i ∈ I, ∃ e, cell i = some e ∧ x ∈ c i e := by
  unfold gather
  rw [Multiset.mem_sum]
  constructor
  · rintro ⟨i, hi, hx⟩
    cases hc : cell i with
    | none => simp [hc] at hx
    | some e => exact ⟨i, hi, e, hc, by simpa [hc] using hx⟩
  · rintro ⟨i, hi, e, hc, hx⟩
    exact ⟨i, hi, by simpa [hc] using hx⟩

/-! ### The two elementary moves -/

variable [DecidableEq ι]

/-- Filling a free cell adds its term. -/
theorem gather_put (hi : i ∈ I) (hfree : cell i = none) :
    gather I (Function.update cell i (some e)) g = g i e + gather I cell g := by
  unfold gather
  rw [← Finset.add_sum_erase I _ hi, ← Finset.add_sum_erase I (fun i => (cell i).elim 0 (g i)) hi]
  have hrest : ∑ x ∈ I.erase i, (Function.update cell i (some e) x).elim 0 (g x) =
      ∑ x ∈ I.erase i, (cell x).elim 0 (g x) := by
    apply Finset.sum_congr rfl
    intro x hx
    rw [Function.update_of_ne (Finset.ne_of_mem_erase hx)]
  rw [hrest]
  simp [hfree]

/-- Emptying an occupied cell removes its term. -/
theorem gather_take (hi : i ∈ I) (hbusy : cell i = some e) :
    g i e + gather I (Function.update cell i none) g = gather I cell g := by
  have hput : gather I (Function.update (Function.update cell i none) i (some e)) g =
      g i e + gather I (Function.update cell i none) g := gather_put hi (by simp)
  rw [← hput]
  simp [← hbusy]

/-! ### Multiset-valued sums -/

section Contents

variable {X : Type*} {c : ι → E → Multiset X}

/-- One cell's term is part of the sum. -/
theorem le_gather (hi : i ∈ I) (hbusy : cell i = some e) : c i e ≤ gather I cell c := by
  rw [← gather_take hi hbusy]
  exact Multiset.le_add_right _ _

/-- Two different occupied cells contribute separately. -/
theorem add_le_gather {j : ι} {e' : E} (hi : i ∈ I) (hj : j ∈ I) (hne : i ≠ j)
    (hbusy : cell i = some e) (hbusy' : cell j = some e') :
    c i e + c j e' ≤ gather I cell c := by
  rw [← gather_take hi hbusy]
  have hj' : Function.update cell i none j = some e' := by
    rw [Function.update_of_ne hne.symm, hbusy']
  exact add_le_add_right (le_gather hj hj') _

omit [DecidableEq ι] in
/-- Occupied cells that each contribute one element. -/
theorem card_le_card_gather {J : Finset ι} (hJ : J ⊆ I) (hocc : ∀ i ∈ J, cell i ≠ none)
    (hone : ∀ i e, (c i e).card = 1) : J.card ≤ (gather I cell c).card := by
  have hcard : (gather I cell c).card = gather I cell fun i e => (c i e).card :=
    map_gather Multiset.cardHom
  rw [hcard, Finset.card_eq_sum_ones]
  calc ∑ _ ∈ J, 1 ≤ ∑ i ∈ J, (cell i).elim 0 (fun e => (c i e).card) := by
        apply Finset.sum_le_sum
        intro i hi
        obtain ⟨e, he⟩ := Option.ne_none_iff_exists'.mp (hocc i hi)
        rw [he, Option.elim_some, hone]
    _ ≤ gather I cell fun i e => (c i e).card := Finset.sum_le_sum_of_subset hJ

end Contents

end StorageEngine.SlotStore
