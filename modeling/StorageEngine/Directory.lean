/-
  StorageEngine/Directory.lean
  ============================
  **Extendible directories.**

  A directory of depth `g` maps each of its `2 ^ g` indices to an item, and an item of
  depth `d` occupies exactly one aligned block of `2 ^ (g - d)` consecutive indices.
  The rules below say how the two growth steps of extendible hashing keep this —
  splitting the block of one item and doubling the directory — and that walking from
  block to block meets every item exactly once.
-/
import Mathlib.Data.Finset.Card
import Mathlib.Data.Finset.Range
import Mathlib.Algebra.Order.Group.Nat
import Mathlib.Data.List.Nodup
import Mathlib.Tactic.Ring

namespace StorageEngine.Directory

variable {α : Type*} {g : Nat} {dir : Nat → α} {depth : α → Nat}

/-- Every item occupies one aligned block of the size its depth says. -/
structure Aligned (g : Nat) (dir : Nat → α) (depth : α → Nat) : Prop where
  depth_le : ∀ i < 2 ^ g, depth (dir i) ≤ g
  eq_iff : ∀ i < 2 ^ g, ∀ j < 2 ^ g,
    dir j = dir i ↔ j / 2 ^ (g - depth (dir i)) = i / 2 ^ (g - depth (dir i))

/-- Different items at different indices, all of full depth. -/
theorem Aligned.of_injective (hinj : ∀ i < 2 ^ g, ∀ j < 2 ^ g, dir i = dir j → i = j)
    (hdepth : ∀ i < 2 ^ g, depth (dir i) = g) : Aligned g dir depth where
  depth_le i hi := (hdepth i hi).le
  eq_iff i hi j hj := by
    rw [hdepth i hi, Nat.sub_self, pow_zero, Nat.div_one, Nat.div_one]
    exact ⟨hinj j hj i hi, fun h => by rw [h]⟩

theorem Aligned.congr {dir' : Nat → α} {depth' : α → Nat} (h : Aligned g dir depth)
    (hdir : ∀ i < 2 ^ g, dir' i = dir i) (hdepth : ∀ i < 2 ^ g, depth' (dir i) = depth (dir i)) :
    Aligned g dir' depth' where
  depth_le i hi := by
    rw [hdir i hi, hdepth i hi]
    exact h.depth_le i hi
  eq_iff i hi j hj := by
    rw [hdir i hi, hdir j hj, hdepth i hi]
    exact h.eq_iff i hi j hj

/-! ### Doubling -/

theorem half_lt {i : Nat} (hi : i < 2 ^ (g + 1)) : i / 2 < 2 ^ g := by
  rw [pow_succ] at hi
  omega

/-- Every block becomes twice as long. -/
theorem Aligned.double (h : Aligned g dir depth) :
    Aligned (g + 1) (fun i => dir (i / 2)) depth where
  depth_le i hi := Nat.le_succ_of_le (h.depth_le _ (half_lt hi))
  eq_iff i hi j hj := by
    have hle := h.depth_le _ (half_lt hi)
    have hpow : 2 ^ (g + 1 - depth (dir (i / 2))) = 2 * 2 ^ (g - depth (dir (i / 2))) := by
      rw [Nat.succ_sub hle, pow_succ, Nat.mul_comm]
    rw [h.eq_iff _ (half_lt hi) _ (half_lt hj), hpow, Nat.div_div_eq_div_mul,
      Nat.div_div_eq_div_mul]

/-! ### Splitting a block -/

/-- The upper half of the block of `i`, of length `2 * e`. -/
theorem upper_half_iff {i j e : Nat} (he : 0 < e) :
    (i / (2 * e) * (2 * e) + e ≤ j ∧ j < i / (2 * e) * (2 * e) + 2 * e) ↔
      j / e = 2 * (i / (2 * e)) + 1 := by
  rw [Nat.div_eq_iff he]
  have hmul : i / (2 * e) * (2 * e) = 2 * (i / (2 * e)) * e := by ring
  have hsucc : (2 * (i / (2 * e)) + 1) * e = 2 * (i / (2 * e)) * e + e := by ring
  rw [hmul, hsucc]
  omega

theorem same_block_iff {i j e : Nat} :
    j / (2 * e) = i / (2 * e) ↔
      j / e = 2 * (i / (2 * e)) ∨ j / e = 2 * (i / (2 * e)) + 1 := by
  have hhalf : j / (2 * e) = j / e / 2 := by rw [Nat.div_div_eq_div_mul, Nat.mul_comm e 2]
  rw [hhalf]
  omega

/-- A block and its halves. -/
theorem pow_sub_eq_two_mul {d g : Nat} (h : d < g) : 2 ^ (g - d) = 2 * 2 ^ (g - (d + 1)) := by
  have hsub : g - d = g - (d + 1) + 1 := by omega
  rw [hsub, pow_succ, Nat.mul_comm]

/-- The upper half of the block of `i` gets a new item; both halves are one deeper. -/
theorem Aligned.split (h : Aligned g dir depth) {i : Nat} (hi : i < 2 ^ g)
    (hlt : depth (dir i) < g) {b : α} (hfresh : ∀ j < 2 ^ g, dir j ≠ b) {e : Nat}
    (he : e = 2 ^ (g - (depth (dir i) + 1))) {dir' : Nat → α} {depth' : α → Nat}
    (hdir : ∀ j < 2 ^ g, dir' j = if j / e = 2 * (i / (2 * e)) + 1 then b else dir j)
    (hold : depth' (dir i) = depth (dir i) + 1) (hnew : depth' b = depth (dir i) + 1)
    (hrest : ∀ x, x ≠ dir i → x ≠ b → depth' x = depth x) : Aligned g dir' depth' := by
  have hchunk : 2 ^ (g - depth (dir i)) = 2 * e := he ▸ pow_sub_eq_two_mul hlt
  have hblock : ∀ j < 2 ^ g, dir j = dir i ↔
      j / e = 2 * (i / (2 * e)) ∨ j / e = 2 * (i / (2 * e)) + 1 := by
    intro j hj
    rw [h.eq_iff i hi j hj, hchunk, same_block_iff]
  constructor
  · intro x hx
    rw [hdir x hx]
    split
    · omega
    · by_cases hxi : dir x = dir i
      · rw [hxi]
        omega
      · rw [hrest _ hxi (hfresh x hx)]
        exact h.depth_le x hx
  · intro x hx j hj
    rw [hdir x hx, hdir j hj]
    by_cases hxup : x / e = 2 * (i / (2 * e)) + 1
    · -- the new item
      rw [if_pos hxup, hnew, ← he, hxup]
      by_cases hjup : j / e = 2 * (i / (2 * e)) + 1
      · simp [hjup]
      · simp [hjup, hfresh j hj]
    · rw [if_neg hxup]
      by_cases hxi : dir x = dir i
      · -- the old item keeps the lower half
        have hxlow := ((hblock x hx).mp hxi).resolve_right hxup
        rw [hxi, hold, ← he, hxlow]
        by_cases hjup : j / e = 2 * (i / (2 * e)) + 1
        · rw [if_pos hjup, hjup]
          exact ⟨fun hb => absurd hb.symm (hfresh i hi), fun hne => by omega⟩
        · rw [if_neg hjup, hblock j hj]
          exact ⟨fun hor => hor.resolve_right hjup, Or.inl⟩
      · rw [hrest _ hxi (hfresh x hx), ← h.eq_iff x hx j hj]
        by_cases hjup : j / e = 2 * (i / (2 * e)) + 1
        · rw [if_pos hjup, (hblock j hj).mpr (Or.inr hjup)]
          exact ⟨fun hb => absurd hb.symm (hfresh x hx), fun heq => absurd heq.symm hxi⟩
        · rw [if_neg hjup]

/-! ### The distinct items -/

section Distinct

variable [DecidableEq α]

/-- The items of a directory. -/
def items (g : Nat) (dir : Nat → α) : Finset α := (Finset.range (2 ^ g)).image dir

theorem mem_items {x : α} : x ∈ items g dir ↔ ∃ i < 2 ^ g, dir i = x := by
  simp [items]

theorem items_congr {dir' : Nat → α} (h : ∀ i < 2 ^ g, dir' i = dir i) :
    items g dir' = items g dir := by
  apply Finset.image_congr
  intro i hi
  exact h i (Finset.mem_range.mp hi)

theorem items_double (g : Nat) (dir : Nat → α) :
    items (g + 1) (fun i => dir (i / 2)) = items g dir := by
  ext x
  rw [mem_items, mem_items]
  constructor
  · rintro ⟨i, hi, rfl⟩
    exact ⟨i / 2, half_lt hi, rfl⟩
  · rintro ⟨i, hi, rfl⟩
    refine ⟨2 * i, ?_, ?_⟩
    · rw [pow_succ]
      omega
    · rw [Nat.mul_div_cancel_left i (by decide)]

/-- Splitting adds the new item. -/
theorem items_split (h : Aligned g dir depth) {i : Nat} (hi : i < 2 ^ g)
    (hlt : depth (dir i) < g) {b : α} {e : Nat}
    (he : e = 2 ^ (g - (depth (dir i) + 1))) {dir' : Nat → α}
    (hdir : ∀ j < 2 ^ g, dir' j = if j / e = 2 * (i / (2 * e)) + 1 then b else dir j) :
    items g dir' = insert b (items g dir) := by
  have hpos : 0 < e := he ▸ Nat.pow_pos (by decide)
  have hchunk : 2 ^ (g - depth (dir i)) = 2 * e := he ▸ pow_sub_eq_two_mul hlt
  -- the block of `i` lies inside the directory
  have hend : i / (2 * e) * (2 * e) + 2 * e ≤ 2 ^ g := by
    have hdvd : 2 * e ∣ 2 ^ g := hchunk ▸ Nat.pow_dvd_pow 2 (Nat.sub_le g _)
    obtain ⟨m, hm⟩ := hdvd
    rw [hm] at hi ⊢
    have hq : i / (2 * e) < m := Nat.div_lt_of_lt_mul hi
    calc i / (2 * e) * (2 * e) + 2 * e = (i / (2 * e) + 1) * (2 * e) := by ring
      _ ≤ m * (2 * e) := Nat.mul_le_mul_right _ hq
      _ = 2 * e * m := Nat.mul_comm _ _
  ext x
  rw [Finset.mem_insert, mem_items, mem_items]
  constructor
  · rintro ⟨j, hj, rfl⟩
    rw [hdir j hj]
    split
    · exact Or.inl rfl
    · exact Or.inr ⟨j, hj, rfl⟩
  · rintro (rfl | ⟨j, hj, rfl⟩)
    · have hup : (i / (2 * e) * (2 * e) + e) / e = 2 * (i / (2 * e)) + 1 :=
        (upper_half_iff hpos).mp ⟨Nat.le_refl _, by omega⟩
      have hj : i / (2 * e) * (2 * e) + e < 2 ^ g := by omega
      exact ⟨_, hj, by rw [hdir _ hj, if_pos hup]⟩
    · by_cases hup : j / e = 2 * (i / (2 * e)) + 1
      · -- its item is still in the lower half
        have hlow : (i / (2 * e) * (2 * e)) / e = 2 * (i / (2 * e)) := by
          rw [← Nat.mul_assoc, Nat.mul_div_cancel _ hpos, Nat.mul_comm]
        have hk : i / (2 * e) * (2 * e) < 2 ^ g := by omega
        refine ⟨_, hk, ?_⟩
        rw [hdir _ hk, hlow, if_neg (by omega)]
        have hji : dir j = dir i := by
          rw [h.eq_iff i hi j hj, hchunk, same_block_iff]
          exact Or.inr hup
        rw [hji, h.eq_iff i hi _ hk, hchunk, same_block_iff]
        exact Or.inl hlow
      · exact ⟨j, hj, by rw [hdir j hj, if_neg hup]⟩

theorem card_items_insert {b : α} (hfresh : ∀ j < 2 ^ g, dir j ≠ b) :
    (insert b (items g dir)).card = (items g dir).card + 1 := by
  rw [Finset.card_insert_of_notMem]
  rw [mem_items]
  rintro ⟨j, hj, hb⟩
  exact hfresh j hj hb

theorem card_items_of_injective (h : ∀ i < 2 ^ g, ∀ j < 2 ^ g, dir i = dir j → i = j) :
    (items g dir).card = 2 ^ g := by
  unfold items
  rw [Finset.card_image_of_injOn, Finset.card_range]
  intro i hi j hj heq
  exact h i (Finset.mem_range.mp hi) j (Finset.mem_range.mp hj) heq

theorem card_items_le (g : Nat) (dir : Nat → α) : (items g dir).card ≤ 2 ^ g := by
  have := Finset.card_image_le (s := Finset.range (2 ^ g)) (f := dir)
  rwa [Finset.card_range] at this

theorem eq_of_mul_div_eq {k k' u c : Nat} (hu : 0 < u) (hc : 0 < c)
    (h : k * (u * c) / c = k' * (u * c) / c) : k = k' := by
  rw [← Nat.mul_assoc, ← Nat.mul_assoc, Nat.mul_div_cancel _ hc, Nat.mul_div_cancel _ hc] at h
  exact Nat.eq_of_mul_eq_mul_right hu h

/-- Items of depth at least `m` are at least `2 ^ m` many. -/
theorem pow_le_card_items (h : Aligned g dir depth) {m : Nat} (hm : m ≤ g)
    (hdepth : ∀ i < 2 ^ g, m ≤ depth (dir i)) : 2 ^ m ≤ (items g dir).card := by
  have hpow : 2 ^ m * 2 ^ (g - m) = 2 ^ g := by rw [← pow_add, Nat.add_sub_cancel' hm]
  have hlt : ∀ k < 2 ^ m, k * 2 ^ (g - m) < 2 ^ g := fun k hk => by
    rw [← hpow]
    exact Nat.mul_lt_mul_of_pos_right hk (Nat.pow_pos (by decide))
  calc 2 ^ m = (Finset.range (2 ^ m)).card := (Finset.card_range _).symm
    _ ≤ (items g dir).card := by
      apply Finset.card_le_card_of_injOn fun k => dir (k * 2 ^ (g - m))
      · intro k hk
        exact mem_items.mpr ⟨_, hlt k (Finset.mem_range.mp hk), rfl⟩
      · intro k hk k' hk' heq
        have hk := hlt k (Finset.mem_range.mp hk)
        have hk' := hlt k' (Finset.mem_range.mp hk')
        have hblock := (h.eq_iff _ hk' _ hk).mp heq
        have hd := hdepth _ hk'
        have hd' := h.depth_le _ hk'
        -- the stride is a multiple of the block length
        generalize depth (dir (k' * 2 ^ (g - m))) = d at hblock hd hd'
        have hstride : 2 ^ (g - m) = 2 ^ (d - m) * 2 ^ (g - d) := by
          rw [← pow_add]
          congr 1
          omega
        rw [hstride] at hblock
        exact eq_of_mul_div_eq (Nat.pow_pos (by decide)) (Nat.pow_pos (by decide)) hblock

end Distinct

/-! ### Walking from block to block -/

/-- The indices met from `i` on when each step jumps over the block of the item. -/
def visits (size g : Nat) (dir : Nat → α) (depth : α → Nat) (i : Nat) : List Nat :=
  if i < size then i :: visits size g dir depth (i + 2 ^ (g - depth (dir i))) else []
termination_by size - i
decreasing_by
  have : 0 < 2 ^ (g - depth (dir i)) := Nat.pow_pos (by decide)
  omega

theorem visits_of_lt {size i : Nat} (hi : i < size) : visits size g dir depth i =
    i :: visits size g dir depth (i + 2 ^ (g - depth (dir i))) := by
  rw [visits, if_pos hi]

theorem visits_of_ge {size i : Nat} (hi : size ≤ i) : visits size g dir depth i = [] := by
  rw [visits, if_neg (by omega)]

/-- `i` is the first index of its block, or past the end. -/
def IsStart (g : Nat) (dir : Nat → α) (i : Nat) : Prop := ∀ k, k + 1 = i → i < 2 ^ g → dir k ≠ dir i

instance [DecidableEq α] (g : Nat) (dir : Nat → α) (i : Nat) : Decidable (IsStart g dir i) :=
  decidable_of_iff (i = 0 ∨ (i < 2 ^ g → dir (i - 1) ≠ dir i)) <| by
    cases i with
    | zero => simp [IsStart]
    | succ k => simp [IsStart]

theorem isStart_zero (g : Nat) (dir : Nat → α) : IsStart g dir 0 := fun k hk => by omega

theorem Aligned.dvd_of_isStart (h : Aligned g dir depth) {i : Nat} (hi : i < 2 ^ g)
    (hstart : IsStart g dir i) : 2 ^ (g - depth (dir i)) ∣ i := by
  have hpos : 0 < 2 ^ (g - depth (dir i)) := Nat.pow_pos (by decide)
  cases i with
  | zero => exact Nat.dvd_zero _
  | succ k =>
    by_contra hdvd
    refine hstart k rfl hi ((h.eq_iff (k + 1) hi k (by omega)).mpr ?_)
    exact (Nat.succ_div_of_not_dvd hdvd).symm

theorem Aligned.isStart_next (h : Aligned g dir depth) {i : Nat} (hi : i < 2 ^ g)
    (hstart : IsStart g dir i) : IsStart g dir (i + 2 ^ (g - depth (dir i))) := by
  have hpos : 0 < 2 ^ (g - depth (dir i)) := Nat.pow_pos (by decide)
  obtain ⟨q, hq⟩ := h.dvd_of_isStart hi hstart
  intro k hk hlt heq
  have hki : dir k = dir i := by
    rw [h.eq_iff i hi k (by omega)]
    generalize 2 ^ (g - depth (dir i)) = c at hpos hq hk
    rw [Nat.div_eq_iff hpos]
    have hdiv : i / c = q := by rw [hq, Nat.mul_div_cancel_left _ hpos]
    rw [hdiv, Nat.mul_comm q c]
    omega
  rw [heq, h.eq_iff i hi _ hlt, Nat.add_div_right _ hpos] at hki
  omega

/-- Between two consecutive visits lies one block. -/
theorem Aligned.dir_eq_of_lt_next (h : Aligned g dir depth) {i j : Nat} (hi : i < 2 ^ g)
    (hstart : IsStart g dir i) (hle : i ≤ j) (hlt : j < i + 2 ^ (g - depth (dir i)))
    (hj : j < 2 ^ g) : dir j = dir i := by
  have hpos : 0 < 2 ^ (g - depth (dir i)) := Nat.pow_pos (by decide)
  obtain ⟨q, hq⟩ := h.dvd_of_isStart hi hstart
  rw [h.eq_iff i hi j hj]
  generalize 2 ^ (g - depth (dir i)) = c at hpos hq hlt
  have hdiv : i / c = q := by rw [hq, Nat.mul_div_cancel_left _ hpos]
  rw [hdiv, Nat.div_eq_iff hpos, Nat.mul_comm q c]
  omega

theorem Aligned.dir_ne_of_next_le (h : Aligned g dir depth) {i j : Nat} (hi : i < 2 ^ g)
    (hle : i + 2 ^ (g - depth (dir i)) ≤ j) (hj : j < 2 ^ g) : dir j ≠ dir i := by
  have hpos : 0 < 2 ^ (g - depth (dir i)) := Nat.pow_pos (by decide)
  intro heq
  rw [h.eq_iff i hi j hj] at heq
  have hmono : (i + 2 ^ (g - depth (dir i))) / 2 ^ (g - depth (dir i)) ≤
      j / 2 ^ (g - depth (dir i)) := Nat.div_le_div_right hle
  rw [Nat.add_div_right _ hpos] at hmono
  omega

/-- What the walk from the start of a block meets: starts of blocks, every later item,
    and none twice. -/
structure Walk (g : Nat) (dir : Nat → α) (i : Nat) (l : List Nat) : Prop where
  bounds : ∀ x ∈ l, i ≤ x ∧ x < 2 ^ g
  starts : ∀ x ∈ l, IsStart g dir x
  covers : ∀ j, i ≤ j → j < 2 ^ g → dir j ∈ l.map dir
  nodup : (l.map dir).Nodup

theorem Aligned.walk_visits (h : Aligned g dir depth) {i : Nat} (hstart : IsStart g dir i) :
    Walk g dir i (visits (2 ^ g) g dir depth i) := by
  induction hn : 2 ^ g - i using Nat.strong_induction_on generalizing i with
  | _ n ih =>
    by_cases hi : i < 2 ^ g
    · have hpos : 0 < 2 ^ (g - depth (dir i)) := Nat.pow_pos (by decide)
      have hnext := ih (2 ^ g - (i + 2 ^ (g - depth (dir i)))) (by omega)
        (h.isStart_next hi hstart) rfl
      rw [visits_of_lt hi]
      refine ⟨?_, ?_, ?_, ?_⟩
      · intro x hx
        rcases List.mem_cons.mp hx with rfl | hx
        · exact ⟨Nat.le_refl _, hi⟩
        · have := hnext.bounds x hx
          exact ⟨by omega, this.2⟩
      · intro x hx
        rcases List.mem_cons.mp hx with rfl | hx
        · exact hstart
        · exact hnext.starts x hx
      · intro j hle hj
        rw [List.map_cons, List.mem_cons]
        by_cases hlt : j < i + 2 ^ (g - depth (dir i))
        · exact Or.inl (h.dir_eq_of_lt_next hi hstart hle hlt hj)
        · exact Or.inr (hnext.covers j (by omega) hj)
      · rw [List.map_cons, List.nodup_cons]
        refine ⟨fun hmem => ?_, hnext.nodup⟩
        obtain ⟨x, hx, heq⟩ := List.mem_map.mp hmem
        have hb := hnext.bounds x hx
        exact h.dir_ne_of_next_le hi hb.1 hb.2 heq
    · rw [visits_of_ge (by omega)]
      exact ⟨by simp, by simp, fun j hle hj => by omega, by simp⟩

theorem Aligned.toFinset_visits [DecidableEq α] (h : Aligned g dir depth) :
    ((visits (2 ^ g) g dir depth 0).map dir).toFinset = items g dir := by
  have hwalk := h.walk_visits (isStart_zero g dir)
  ext x
  rw [List.mem_toFinset, mem_items]
  constructor
  · intro hx
    obtain ⟨i, hi, rfl⟩ := List.mem_map.mp hx
    exact ⟨i, (hwalk.bounds i hi).2, rfl⟩
  · rintro ⟨i, hi, rfl⟩
    exact hwalk.covers i (Nat.zero_le i) hi

/-- As many visits as items. -/
theorem Aligned.length_visits [DecidableEq α] (h : Aligned g dir depth) :
    (visits (2 ^ g) g dir depth 0).length = (items g dir).card := by
  have hwalk := h.walk_visits (isStart_zero g dir)
  rw [← h.toFinset_visits, List.toFinset_card_of_nodup hwalk.nodup, List.length_map]

/-- As long as every index is the start of a block, the walk takes them one by one. -/
theorem Aligned.getElem?_visits (h : Aligned g dir depth) {n i : Nat} (hn : n ≤ 2 ^ g)
    (hstarts : ∀ k, i ≤ k → k < n → IsStart g dir k) (k : Nat) (hk : i + k < n) :
    (visits (2 ^ g) g dir depth i)[k]? = some (i + k) := by
  induction k generalizing i with
  | zero => rw [visits_of_lt (by omega), List.getElem?_cons_zero, Nat.add_zero]
  | succ k ih =>
    have hi : i < 2 ^ g := by omega
    have hnext : 2 ^ (g - depth (dir i)) = 1 := by
      have hpos : 0 < 2 ^ (g - depth (dir i)) := Nat.pow_pos (by decide)
      by_contra hne
      have hsame := h.dir_eq_of_lt_next hi (hstarts i (Nat.le_refl i) (by omega))
        (Nat.le_succ i) (by omega) (by omega)
      exact hstarts (i + 1) (Nat.le_succ i) (by omega) i rfl (by omega) hsame.symm
    rw [visits_of_lt hi, List.getElem?_cons_succ, hnext,
      ih (fun m hm => hstarts m (by omega)) (by omega)]
    congr 1
    omega

/-! ### The first index of a block -/

/-- The first index of the block of `i`. -/
def blockStart (g : Nat) (dir : Nat → α) (depth : α → Nat) (i : Nat) : Nat :=
  i / 2 ^ (g - depth (dir i)) * 2 ^ (g - depth (dir i))

theorem Aligned.isLeast_blockStart (h : Aligned g dir depth) {i : Nat} (hi : i < 2 ^ g) :
    IsLeast {j | j < 2 ^ g ∧ dir j = dir i} (blockStart g dir depth i) := by
  have hpos : 0 < 2 ^ (g - depth (dir i)) := Nat.pow_pos (by decide)
  have hle : blockStart g dir depth i ≤ i := Nat.div_mul_le_self i _
  constructor
  · refine ⟨Nat.lt_of_le_of_lt hle hi, (h.eq_iff i hi _ (Nat.lt_of_le_of_lt hle hi)).mpr ?_⟩
    exact Nat.mul_div_cancel _ hpos
  · rintro j ⟨hj, heq⟩
    rw [h.eq_iff i hi j hj] at heq
    rw [blockStart, ← heq]
    exact Nat.div_mul_le_self j _

/-- The first index of a block is its own. -/
theorem Aligned.blockStart_self (h : Aligned g dir depth) {i : Nat} (hi : i < 2 ^ g) :
    dir (blockStart g dir depth i) = dir i ∧ blockStart g dir depth i < 2 ^ g ∧
      ∀ k < blockStart g dir depth i, dir k ≠ dir i := by
  obtain ⟨⟨hlt, heq⟩, hleast⟩ := h.isLeast_blockStart hi
  refine ⟨heq, hlt, fun k hk hsame => ?_⟩
  have := hleast ⟨Nat.lt_trans hk hlt, hsame⟩
  omega

/-! ### Refinement of a directory -/

/-- The second directory is a later one: deeper, and with smaller blocks. -/
structure Finer (g : Nat) (dir : Nat → α) (g' : Nat) (dir' : Nat → α) : Prop where
  le : g ≤ g'
  eq_of_eq : ∀ i < 2 ^ g', ∀ j < 2 ^ g', dir' i = dir' j →
    dir (i / 2 ^ (g' - g)) = dir (j / 2 ^ (g' - g))

theorem Finer.refl (g : Nat) (dir : Nat → α) : Finer g dir g dir where
  le := Nat.le_refl g
  eq_of_eq i _ j _ h := by
    rw [Nat.sub_self, pow_zero, Nat.div_one, Nat.div_one]
    exact h

theorem div_pow_lt {g g' i : Nat} (hle : g ≤ g') (hi : i < 2 ^ g') : i / 2 ^ (g' - g) < 2 ^ g := by
  apply Nat.div_lt_of_lt_mul
  rwa [← pow_add, Nat.sub_add_cancel hle]

theorem Finer.trans {g' g'' : Nat} {dir' dir'' : Nat → α} (h : Finer g dir g' dir')
    (h' : Finer g' dir' g'' dir'') : Finer g dir g'' dir'' where
  le := Nat.le_trans h.le h'.le
  eq_of_eq i hi j hj heq := by
    have hmid := h'.eq_of_eq i hi j hj heq
    have hold := h.eq_of_eq _ (div_pow_lt h'.le hi) _ (div_pow_lt h'.le hj) hmid
    have hsum : g'' - g = g'' - g' + (g' - g) := by
      have := h.le
      have := h'.le
      omega
    rw [hsum, pow_add, ← Nat.div_div_eq_div_mul, ← Nat.div_div_eq_div_mul]
    exact hold

/-- The first index of a block stays the first index of a block. -/
theorem Finer.isStart {g' : Nat} {dir' : Nat → α} (h : Finer g dir g' dir') {i : Nat}
    (hi : i < 2 ^ g) (hstart : IsStart g dir i) : IsStart g' dir' (i * 2 ^ (g' - g)) := by
  have hpos : 0 < 2 ^ (g' - g) := Nat.pow_pos (by decide)
  intro k hk hlt heq
  have hold := h.eq_of_eq k (by omega) _ hlt heq
  rw [Nat.mul_div_cancel _ hpos] at hold
  cases i with
  | zero => omega
  | succ i =>
    have hdiv : k / 2 ^ (g' - g) = i := by
      rw [Nat.div_eq_iff hpos]
      rw [Nat.succ_mul] at hk
      omega
    rw [hdiv] at hold
    exact hstart i rfl hi hold

end StorageEngine.Directory
