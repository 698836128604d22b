/-
  StorageEngine/Sharding/EngineShardSet.lean
  ==========================================
  **The shard of a key** (`sharding/engine_shard_set.cpp`, `Shard`).
-/
import Mathlib.Data.Nat.Basic

namespace StorageEngine.Sharding

abbrev ShardId := UInt16

/-- `util::isPowerOfTwo`. -/
def isPowerOfTwo (n : UInt32) : Bool := 0 < n && n &&& (n - 1) == 0

/-- `Shard`, from the number of shards and the hash of the key. -/
def shard (size : UInt32) (hash : UInt64) : ShardId :=
  if isPowerOfTwo size then (hash &&& (size - 1).toUInt64).toUInt16
  else (hash % size.toUInt64).toUInt16

theorem isPowerOfTwo_toNat {n : UInt32} (h : isPowerOfTwo n = true) : n.toNat.isPowerOfTwo := by
  unfold isPowerOfTwo at h
  rw [Bool.and_eq_true, decide_eq_true_eq, beq_iff_eq] at h
  obtain ⟨hpos, hand⟩ := h
  have hpos' : 0 < n.toNat := by simpa using UInt32.lt_iff_toNat_lt.mp hpos
  have hone : (1 : UInt32) ≤ n := UInt32.le_iff_toNat_le.mpr hpos'
  refine (Nat.and_sub_one_eq_zero_iff_isPowerOfTwo (Nat.ne_of_gt hpos')).mp ?_
  have hbits := congrArg UInt32.toNat hand
  rwa [UInt32.toNat_and, UInt32.toNat_sub_of_le _ _ hone] at hbits

/-- The mask of a power of two is the remainder. -/
theorem and_mask_eq_mod {size : UInt32} (h : isPowerOfTwo size = true) (hash : UInt64) :
    hash &&& (size - 1).toUInt64 = hash % size.toUInt64 := by
  obtain ⟨k, hk⟩ := isPowerOfTwo_toNat h
  have hone : (1 : UInt32) ≤ size := by
    refine UInt32.le_iff_toNat_le.mpr ?_
    rw [hk]
    exact Nat.one_le_two_pow
  apply UInt64.toNat.inj
  rw [UInt64.toNat_and, UInt64.toNat_mod, UInt32.toNat_toUInt64, UInt32.toNat_toUInt64,
    UInt32.toNat_sub_of_le _ _ hone, hk]
  exact Nat.and_two_pow_sub_one_eq_mod _ _

/-- **Both paths of `Shard` are the remainder.** -/
theorem shard_eq_mod (size : UInt32) (hash : UInt64) :
    shard size hash = (hash % size.toUInt64).toUInt16 := by
  unfold shard
  split
  · rename_i h
    rw [and_mask_eq_mod h]
  · rfl

/-- **A key's shard exists.** -/
theorem shard_lt {size : UInt32} (hsize : 0 < size) (hash : UInt64) :
    (shard size hash).toNat < size.toNat := by
  have hpos : 0 < size.toNat := by simpa using UInt32.lt_iff_toNat_lt.mp hsize
  rw [shard_eq_mod, UInt64.toNat_toUInt16, UInt64.toNat_mod, UInt32.toNat_toUInt64]
  exact Nat.lt_of_le_of_lt (Nat.mod_le _ _) (Nat.mod_lt _ hpos)

end StorageEngine.Sharding
