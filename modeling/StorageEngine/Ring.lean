/-
  StorageEngine/Ring.lean
  =======================
  **Lists in a ring of cells.**

  A list is laid out in a ring from a cell on, one entry to a cell, and the other cells are
  empty.  Cells are counted without an end, and a count stands for the cell at its remainder.
-/
import Mathlib.Data.List.Basic
import Mathlib.Data.Nat.ModEq
import Mathlib.Logic.Function.Basic

namespace StorageEngine.Ring

variable {T : Type*} {size start i j : Nat} {cells : Nat → Option T} {items : List T} {t : T}

/-- The entries are in the ring from a cell on. -/
structure Holds (size : Nat) (cells : Nat → Option T) (start : Nat) (items : List T) : Prop where
  length : items.length ≤ size
  cell : ∀ i, i < size → cells ((start + i) % size) = items[i]?

/-- Counts less than a lap apart stand for different cells. -/
theorem mod_inj (hi : i < size) (hj : j < size) (h : (start + i) % size = (start + j) % size) :
    i = j :=
  (Nat.ModEq.add_left_cancel' start h).eq_of_lt_of_lt hi hj

/-- From a cell a whole lap, and no shorter way, leads back to it. -/
theorem mod_eq_iff (hi : i < size) : (start + i + 1) % size = start % size ↔ i + 1 = size := by
  constructor
  · intro h
    by_contra hne
    have hlt : i + 1 < size := by omega
    have heq := mod_inj (j := 0) hlt (by omega) h
    omega
  · intro h
    rw [Nat.add_assoc, h, Nat.add_mod_right]

/-- The cell behind a cell. -/
theorem succ_mod (hsize : 0 < size) (n : Nat) :
    (if n % size + 1 = size then 0 else n % size + 1) = (n + 1) % size := by
  have hlt := Nat.mod_lt n hsize
  rw [← Nat.mod_add_mod]
  split
  · rename_i hlast
    rw [hlast, Nat.mod_self]
  · exact (Nat.mod_eq_of_lt (by omega)).symm

theorem holds_nil (size start : Nat) : Holds size (fun _ => (none : Option T)) start [] :=
  ⟨Nat.zero_le size, fun _ _ => rfl⟩

/-- The cell behind the entries is empty. -/
theorem Holds.free (h : Holds size cells start items) (hroom : items.length < size) :
    cells ((start + items.length) % size) = none := by
  rw [h.cell _ hroom, List.getElem?_eq_none (Nat.le_refl _)]

theorem Holds.push (h : Holds size cells start items) (hroom : items.length < size) (t : T) :
    Holds size (Function.update cells ((start + items.length) % size) (some t)) start
      (items ++ [t]) where
  length := by
    rw [List.length_append]
    exact hroom
  cell := by
    intro i hi
    by_cases heq : i = items.length
    · rw [heq, Function.update_self, List.getElem?_concat_length]
    · rw [Function.update_of_ne fun hmod => heq (mod_inj hi hroom hmod), h.cell i hi,
        List.getElem?_append]
      split
      · rfl
      · rename_i hle
        rw [List.getElem?_eq_none (Nat.le_of_not_lt hle), List.getElem?_eq_none]
        simp
        omega

/-- The first entry is in the first cell. -/
theorem Holds.first (h : Holds size cells start (t :: items)) : cells (start % size) = some t := by
  have hlength := h.length
  rw [List.length_cons] at hlength
  exact h.cell 0 (by omega)

/-- The first entry is taken out. -/
theorem Holds.pop (h : Holds size cells start (t :: items)) :
    Holds size (Function.update cells (start % size) none) (start + 1) items where
  length := Nat.le_of_succ_le h.length
  cell := by
    intro i hi
    have hsize : 0 < size := by omega
    by_cases hlast : i + 1 = size
    · have heq : (start + 1 + i) % size = start % size := by
        rw [Nat.add_assoc, Nat.add_comm 1 i]
        exact (mod_eq_iff hi).mpr hlast
      have hlength := h.length
      rw [List.length_cons] at hlength
      rw [heq, Function.update_self, List.getElem?_eq_none (by omega)]
    · rw [Function.update_of_ne, Nat.add_assoc, Nat.add_comm 1 i, h.cell (i + 1) (by omega),
        List.getElem?_cons_succ]
      intro heq
      rw [Nat.add_assoc, Nat.add_comm 1 i] at heq
      exact hlast ((mod_eq_iff hi).mp heq)

end StorageEngine.Ring
