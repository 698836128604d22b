/-
  StorageEngine/DashTable/BucketSwap.lean
  =======================================
  **Exchanging two slots of a bucket** (`dash_internal.hpp`, `SlotBitmap::Swap`,
  `BucketBase::Swap` and `Segment::Bucket::Swap`).

  A slot is spread over four places: a bit in each of the two words, a fingerprint, a key and
  a value.  `std::swap` exchanges the last three whatever the slot numbers are; the words are
  only touched when the first slot number is the larger one.
-/
import StorageEngine.DashTable.Bucket
import Mathlib.Logic.Equiv.Basic

namespace StorageEngine.BitMask

variable {w : Nat}

/-- The bits `i < j` of a word exchanged by their difference. -/
def exchange (m : BitVec w) (i j : Nat) : BitVec w :=
  let a := ((m <<< (j - i)) ^^^ m) &&& 1#w <<< j
  m ^^^ (a ||| a >>> (j - i))

theorem getLsbD_exchange (m : BitVec w) {i j : Nat} (hij : i < j) (hj : j < w) (k : Nat) :
    (exchange m i j).getLsbD k = m.getLsbD (Equiv.swap i j k) := by
  have hbit : ∀ q, ((m <<< (j - i) ^^^ m) &&& 1#w <<< j).getLsbD q =
      (decide (q = j) && (m.getLsbD i ^^ m.getLsbD j)) := by
    intro q
    rw [BitVec.getLsbD_and, getLsbD_one_shiftLeft hj, BitVec.getLsbD_xor,
      BitVec.getLsbD_shiftLeft]
    by_cases hq : q = j
    · subst hq
      have hsub : q - (q - i) = i := by omega
      simp [hj, hsub]
    · simp [hq]
  unfold exchange
  rw [BitVec.getLsbD_xor, BitVec.getLsbD_or, BitVec.getLsbD_ushiftRight, hbit, hbit,
    Equiv.swap_apply_def]
  by_cases hki : k = i
  · subst hki
    have hne : k ≠ j := by omega
    have hsum : j - k + k = j := by omega
    simp [hne, hsum]
  · by_cases hkj : k = j
    · subst hkj
      have hne : k - i ≠ 0 := by omega
      simp only [hki, if_false, if_true]
      cases m.getLsbD i <;> cases m.getLsbD k <;> simp [hne]
    · have hne : j - i + k ≠ j := by omega
      simp [hki, hkj, hne]

end StorageEngine.BitMask

namespace StorageEngine.DashTable

open StorageEngine

/-! ### Swap -/

namespace SlotBitmap

def swap (b : SlotBitmap) (slotA slotB : Nat) : SlotBitmap :=
  if slotB < slotA then
    { busy := BitMask.exchange b.busy slotB slotA, probe := BitMask.exchange b.probe slotB slotA }
  else b

end SlotBitmap

/-- `std::swap(f[i], f[j])` for a type with the given move-assignment. -/
def stdSwap {α : Type} (assign : α → α → α) (moved : α → α) (f : Nat → α) (i j : Nat) : Nat → α :=
  let tmp := f i
  let f := Function.update f i (moved tmp)
  let src := f j
  let f := Function.update f j (moved src)
  let f := Function.update f i (assign (f i) src)
  Function.update f j (assign (f j) tmp)

namespace Bucket

variable {K V : Type} (p : Policy K V)

def swap (b : Bucket K V) (slotA slotB : Nat) : Bucket K V :=
  { b with
    slotb := b.slotb.swap slotA slotB
    fingerArr := stdSwap (fun _ s => s) id b.fingerArr slotA slotB
    key := stdSwap p.assignKey p.movedKey b.key slotA slotB
    value := stdSwap p.assignValue p.movedValue b.value slotA slotB }

end Bucket

/-- A move-assignment that transfers the value makes `std::swap` an exchange. -/
theorem stdSwap_eq {α : Type} {assign : α → α → α} (hassign : ∀ d s, assign d s = s)
    (moved : α → α) (f : Nat → α) (i j k : Nat) :
    stdSwap assign moved f i j k = f (Equiv.swap i j k) := by
  simp only [stdSwap, hassign, Function.update_apply, Equiv.swap_apply_def]
  by_cases hkj : k = j
  · subst hkj
    by_cases hki : k = i
    · subst hki
      simp
    · simp [hki]
  · by_cases hki : k = i
    · subst hki
      have hjk : j ≠ k := fun h => hkj h.symm
      simp [hkj, hjk]
    · simp [hki, hkj]

theorem stdSwap_stdSwap {α : Type} {assign : α → α → α} (hassign : ∀ d s, assign d s = s)
    (moved : α → α) (f : Nat → α) (i j : Nat) :
    stdSwap assign moved (stdSwap assign moved f i j) i j = f := by
  funext k
  rw [stdSwap_eq hassign, stdSwap_eq hassign, Equiv.swap_apply_self]

namespace SlotBitmap

variable {b : SlotBitmap} {i j : Nat}

/-- From the larger slot to the smaller one, the bits are exchanged. -/
theorem swap_of_gt (hji : j < i) (hi : i < 32) (k : Nat) :
    (b.swap i j).busy.getLsbD k = b.busy.getLsbD (Equiv.swap i j k) ∧
      (b.swap i j).probe.getLsbD k = b.probe.getLsbD (Equiv.swap i j k) := by
  unfold swap
  rw [if_pos hji, Equiv.swap_comm i j]
  exact ⟨BitMask.getLsbD_exchange b.busy hji hi k, BitMask.getLsbD_exchange b.probe hji hi k⟩

/-- In the other order nothing happens. -/
theorem swap_of_le (hij : i ≤ j) : b.swap i j = b := if_neg (Nat.not_lt.mpr hij)

theorem swap_swap (hi : i < 32) : (b.swap i j).swap i j = b := by
  by_cases hji : j < i
  · apply SlotBitmap.ext
    · apply BitVec.eq_of_getLsbD_eq
      intro k _
      rw [(swap_of_gt hji hi k).1, (swap_of_gt hji hi _).1, Equiv.swap_apply_self]
    · apply BitVec.eq_of_getLsbD_eq
      intro k _
      rw [(swap_of_gt hji hi k).2, (swap_of_gt hji hi _).2, Equiv.swap_apply_self]
  · have hij := Nat.le_of_not_lt hji
    rw [swap_of_le hij, swap_of_le hij]

end SlotBitmap

namespace Bucket

variable {K V : Type} (p : Policy K V)

/-! ### What a swap is for -/

/-- The slots `i` and `j` have changed places, and nothing else has changed. -/
structure Exchanged (b b' : Bucket K V) (i j : Nat) : Prop where
  busy : ∀ k, b'.slotb.busy.getLsbD k = b.slotb.busy.getLsbD (Equiv.swap i j k)
  probe : ∀ k, b'.slotb.probe.getLsbD k = b.slotb.probe.getLsbD (Equiv.swap i j k)
  fp : ∀ k, b'.fingerArr k = b.fingerArr (Equiv.swap i j k)
  key : ∀ k, b'.key k = b.key (Equiv.swap i j k)
  value : ∀ k, b'.value k = b.value (Equiv.swap i j k)
  stash : b'.stash = b.stash

/-- The entries of a bucket: key, value, fingerprint and probe flag of its busy slots. -/
def entries (b : Bucket K V) : Set (Entry K V) := {e | ∃ j, b.cell j = some e}

/-- Swapping `i` and `j` exchanges the two slots, undoes itself and keeps the entries. -/
structure SwapsSlots (b : Bucket K V) (i j : Nat) : Prop where
  exchanged : Exchanged b (b.swap p i j) i j
  restored : (b.swap p i j).swap p i j = b
  entries : (b.swap p i j).entries = b.entries

variable {b b' : Bucket K V} {i j : Nat}

theorem Exchanged.cell (h : Exchanged b b' i j) (k : Nat) :
    b'.cell k = b.cell (Equiv.swap i j k) := by
  unfold Bucket.cell
  rw [h.busy, h.probe, h.fp, h.key, h.value]

theorem Exchanged.entries (h : Exchanged b b' i j) : b'.entries = b.entries := by
  apply Set.ext
  intro e
  constructor
  · rintro ⟨k, hk⟩
    exact ⟨Equiv.swap i j k, (h.cell k).symm.trans hk⟩
  · rintro ⟨k, hk⟩
    refine ⟨Equiv.swap i j k, ?_⟩
    rw [h.cell, Equiv.swap_apply_self]
    exact hk

section Movable

variable [p.Movable]

theorem swap_swap (hi : i < p.kSlotNum) : (b.swap p i j).swap p i j = b := by
  have hi32 : i < 32 := Nat.lt_of_lt_of_le hi (Nat.le_trans p.kSlotNum_le (by decide))
  cases b with
  | mk slotb fingerArr stash key value =>
    simp only [swap, Bucket.mk.injEq, true_and]
    exact ⟨SlotBitmap.swap_swap hi32, stdSwap_stdSwap (fun _ _ => rfl) id fingerArr i j,
      stdSwap_stdSwap Policy.Movable.assignKey_eq p.movedKey key i j,
      stdSwap_stdSwap Policy.Movable.assignValue_eq p.movedValue value i j⟩

/-- The fingerprints, keys and values are always exchanged; the bits are when the larger slot
    comes first, and are as they should be when they are equal. -/
theorem exchanged_swap_iff (hi : i < p.kSlotNum) :
    Exchanged b (b.swap p i j) i j ↔
      j ≤ i ∨ (b.slotb.busy.getLsbD i = b.slotb.busy.getLsbD j ∧
        b.slotb.probe.getLsbD i = b.slotb.probe.getLsbD j) := by
  have hi32 : i < 32 := Nat.lt_of_lt_of_le hi (Nat.le_trans p.kSlotNum_le (by decide))
  constructor
  · intro h
    by_cases hji : j ≤ i
    · exact Or.inl hji
    · have hkept : (b.swap p i j).slotb = b.slotb :=
        SlotBitmap.swap_of_le (Nat.le_of_lt (Nat.lt_of_not_le hji))
      have hbusy := h.busy i
      have hprobe := h.probe i
      rw [hkept, Equiv.swap_apply_left] at hbusy hprobe
      exact Or.inr ⟨hbusy, hprobe⟩
  · intro h
    have hbits : ∀ k, (b.slotb.swap i j).busy.getLsbD k = b.slotb.busy.getLsbD (Equiv.swap i j k) ∧
        (b.slotb.swap i j).probe.getLsbD k = b.slotb.probe.getLsbD (Equiv.swap i j k) := by
      intro k
      rcases Nat.lt_or_ge j i with hji | hij
      · exact SlotBitmap.swap_of_gt hji hi32 k
      · rw [SlotBitmap.swap_of_le hij]
        rcases h with hle | ⟨hbusy, hprobe⟩
        · obtain rfl := Nat.le_antisymm hij hle
          rw [Equiv.swap_self]
          exact ⟨rfl, rfl⟩
        · -- exchanging equal bits changes nothing
          exact ⟨(Equiv.apply_swap_eq_self hbusy k).symm, (Equiv.apply_swap_eq_self hprobe k).symm⟩
    exact
      { busy := fun k => (hbits k).1
        probe := fun k => (hbits k).2
        fp := stdSwap_eq (fun _ _ => rfl) id b.fingerArr i j
        key := stdSwap_eq Policy.Movable.assignKey_eq p.movedKey b.key i j
        value := stdSwap_eq Policy.Movable.assignValue_eq p.movedValue b.value i j
        stash := rfl }

/-- **`Bucket::Swap`** exchanges the two slots exactly when the first slot is not the smaller
    one, or both slots have the same busy bit and the same probe bit. -/
theorem swapsSlots_iff (b : Bucket K V) {i j : Nat} (hi : i < p.kSlotNum) :
    SwapsSlots p b i j ↔
      j ≤ i ∨ (b.slotb.busy.getLsbD i = b.slotb.busy.getLsbD j ∧
        b.slotb.probe.getLsbD i = b.slotb.probe.getLsbD j) := by
  constructor
  · intro h
    exact (exchanged_swap_iff p hi).mp h.exchanged
  · intro h
    have hexchanged := (exchanged_swap_iff p hi).mpr h
    exact ⟨hexchanged, swap_swap p hi, hexchanged.entries⟩

end Movable

/-- Slot 0 holds the entry 7 ↦ 8, the slots behind it are free. -/
def firstBusy : Bucket UInt64 UInt64 where
  slotb := { busy := 1#32 }
  key := fun _ => 7
  value := fun _ => 8

theorem swapsSlots_firstBusy : SwapsSlots dash64 firstBusy 1 0 :=
  (swapsSlots_iff dash64 firstBusy (show 1 < 14 by decide)).mpr (Or.inl (Nat.zero_le 1))

/-- Exchanging slot 0 with slot 1 leaves slot 0 busy. -/
theorem not_swapsSlots_firstBusy : ¬ SwapsSlots dash64 firstBusy 0 1 := by
  intro h
  have hbusy := h.exchanged.busy 0
  revert hbusy
  decide

end Bucket

end StorageEngine.DashTable
