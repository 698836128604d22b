/-
  StorageEngine/DashTable/CompactKey.lean
  =======================================
  **Keys and their expiries** (`sharding/DashTable/compact_obj.cpp`, class `CompactKey`).

  A key without an expiry is a string, one with an expiry a string and a time.  The two
  strings are at the same place, so that `SetExpireTime` moves a string to itself; what is
  then left of it is up to the standard library.
-/
import StorageEngine.DashTable.CompactObj

namespace StorageEngine.DashTable

open StorageEngine.Redis

namespace CompactObj

variable (o : CompactObj)

/-- `CompactKey::operator==(std::string_view)`: the string is read without a look at the tag. -/
def equalsView (x : Bytes) : Option Bool :=
  match o.u with
  | .str s | .ttlStr s _ => some (s == x)
  | .int _ | .none => none

/-- The value that `ClearExpireTime` returns. -/
def clearExpireTimeReturns : Bool := o.tag = .ttlStr

end CompactObj

/-! ### Sequences of expiry operations -/

inductive KeyOp where
  | setExpireTime (absMs : UInt64)
  | clearExpireTime
deriving DecidableEq, Repr

namespace KeyOp

/-- An operation on a key. -/
def apply (selfMove : Bytes → Bytes) (o : CompactObj) : KeyOp → CompactObj
  | setExpireTime absMs => o.setExpireTime selfMove absMs
  | clearExpireTime => o.clearExpireTime

/-- The expiry that an operation leaves. -/
def expiry : KeyOp → Option UInt64
  | setExpireTime absMs => some absMs
  | clearExpireTime => none

/-- The operations one after the other on a new key. -/
def run (selfMove : Bytes → Bytes) (s : Bytes) (ops : List KeyOp) : CompactObj :=
  ops.foldl (apply selfMove) (.ofString s)

/-- The expiry after the operations: that of the last one. -/
def lastExpiry (ops : List KeyOp) : Option UInt64 := ops.getLast?.bind expiry

/-- No operation sets an expiry. -/
def NeverSet (ops : List KeyOp) : Prop := ∀ op ∈ ops, op.expiry = none

end KeyOp

/-- The key shows a string and an expiry. -/
structure Shows (hashInt : Int64 → UInt64) (hashStr : Bytes → UInt64) (o : CompactObj) (s : Bytes)
    (expiry : Option UInt64) : Prop where
  toString : o.toString = some s
  hashCode : o.hashCode hashInt hashStr = some (hashStr s)
  equal : ∀ x, o.equalsView x = some true ↔ x = s
  hasExpire : o.hasExpire = expiry.isSome
  getExpireTime : o.getExpireTime = some (expiry.getD 0)
  cleared : o.clearExpireTimeReturns = expiry.isSome

/-- After the operations the key still is the string, with the expiry of the last one. -/
def Preserves (hashInt : Int64 → UInt64) (hashStr : Bytes → UInt64) (selfMove : Bytes → Bytes)
    (s : Bytes) (ops : List KeyOp) : Prop :=
  Shows hashInt hashStr (KeyOp.run selfMove s ops) s (KeyOp.lastExpiry ops)

/-! ### What is left of the string -/

/-- A key with a string and an expiry. -/
def keyOf (s : Bytes) : Option UInt64 → CompactObj
  | none => ⟨.str, .str s⟩
  | some expMs => ⟨.ttlStr, .ttlStr s expMs⟩

theorem shows_keyOf_iff {hashInt : Int64 → UInt64} {hashStr : Bytes → UInt64} {s s' : Bytes}
    (expiry : Option UInt64) : Shows hashInt hashStr (keyOf s' expiry) s expiry ↔ s' = s := by
  constructor
  · intro h
    have hstr := h.toString
    cases expiry with
    | none => exact Option.some.inj hstr
    | some expMs => exact Option.some.inj hstr
  · rintro rfl
    have hequal : ∀ x, some (s' == x) = some true ↔ x = s' := by
      intro x
      rw [Option.some_inj, beq_iff_eq]
      exact eq_comm
    cases expiry with
    | none => exact ⟨rfl, rfl, hequal, rfl, rfl, rfl⟩
    | some expMs => exact ⟨rfl, rfl, hequal, rfl, rfl, rfl⟩

namespace KeyOp

theorem lastExpiry_append (ops : List KeyOp) (op : KeyOp) :
    lastExpiry (ops ++ [op]) = op.expiry := by
  unfold lastExpiry
  rw [List.getLast?_concat, Option.bind_some]

theorem lastExpiry_of_neverSet {ops : List KeyOp} (h : NeverSet ops) : lastExpiry ops = none := by
  unfold lastExpiry
  cases hlast : ops.getLast? with
  | none => rfl
  | some op => exact h op (List.mem_of_getLast? hlast)

/-- An operation moves the string to itself if it sets the first expiry. -/
theorem apply_keyOf (selfMove : Bytes → Bytes) (s : Bytes) (before : Option UInt64) (op : KeyOp) :
    apply selfMove (keyOf s before) op =
      keyOf (if before = none ∧ op.expiry ≠ none then selfMove s else s) op.expiry := by
  cases before with
  | none =>
    cases op with
    | setExpireTime absMs => rfl
    | clearExpireTime => rfl
  | some expMs =>
    cases op with
    | setExpireTime absMs => rfl
    | clearExpireTime => rfl

/-- **The string after the operations** is the first one, moved to itself some times: not at all
    exactly if no expiry was set. -/
theorem run_eq (selfMove : Bytes → Bytes) (s : Bytes) (ops : List KeyOp) :
    ∃ n, run selfMove s ops = keyOf (selfMove^[n] s) (lastExpiry ops) ∧ (n = 0 ↔ NeverSet ops) := by
  induction ops using List.reverseRecOn with
  | nil => exact ⟨0, rfl, iff_of_true rfl (by simp [NeverSet])⟩
  | append_singleton ops op ih =>
    obtain ⟨n, hrun, hn⟩ := ih
    have hstep : run selfMove s (ops ++ [op]) = apply selfMove (run selfMove s ops) op := by
      unfold run
      rw [List.foldl_append, List.foldl_cons, List.foldl_nil]
    rw [hstep, hrun, apply_keyOf, lastExpiry_append]
    have hset : NeverSet (ops ++ [op]) ↔ NeverSet ops ∧ op.expiry = none := by
      unfold NeverSet
      rw [List.forall_mem_append, List.forall_mem_singleton]
    rw [hset, ← hn]
    by_cases hfirst : lastExpiry ops = none ∧ op.expiry ≠ none
    · refine ⟨n + 1, ?_, iff_of_false (Nat.succ_ne_zero n) fun h => hfirst.2 h.2⟩
      rw [if_pos hfirst, Function.iterate_succ_apply']
    · refine ⟨n, by rw [if_neg hfirst], ?_⟩
      refine (and_iff_left_of_imp fun hzero => ?_).symm
      by_contra hop
      exact hfirst ⟨lastExpiry_of_neverSet (hn.mp hzero), hop⟩

theorem iterate_const (c s : Bytes) {n : Nat} (hn : n ≠ 0) : (fun _ => c)^[n] s = c := by
  obtain ⟨m, rfl⟩ := Nat.exists_eq_succ_of_ne_zero hn
  rw [Function.iterate_succ_apply']

end KeyOp

open KeyOp

theorem preserves_of_neverSet (hashInt : Int64 → UInt64) (hashStr : Bytes → UInt64)
    (selfMove : Bytes → Bytes) (s : Bytes) {ops : List KeyOp} (h : NeverSet ops) :
    Preserves hashInt hashStr selfMove s ops := by
  obtain ⟨n, hrun, hn⟩ := run_eq selfMove s ops
  obtain rfl := hn.mpr h
  unfold Preserves
  rw [hrun]
  exact (shows_keyOf_iff _).mpr rfl

/-- With a library that leaves some string `c` behind: the key is kept exactly if it was `c`, or
    no expiry was set. -/
theorem preserves_const_iff (hashInt : Int64 → UInt64) (hashStr : Bytes → UInt64)
    (c s : Bytes) (ops : List KeyOp) :
    Preserves hashInt hashStr (fun _ => c) s ops ↔ s = c ∨ NeverSet ops := by
  by_cases hnever : NeverSet ops
  · exact iff_of_true (preserves_of_neverSet hashInt hashStr _ s hnever) (Or.inr hnever)
  · obtain ⟨n, hrun, hn⟩ := run_eq (fun _ => c) s ops
    unfold Preserves
    rw [hrun, shows_keyOf_iff, iterate_const c s (mt hn.mp hnever), or_iff_left hnever]
    exact eq_comm

/-- **When expiry operations preserve the key**: whatever a string is after it was moved to
    itself, exactly if no expiry is set; and with a library that leaves it empty, exactly if
    no expiry is set or the key is the empty string. -/
theorem preserves_iff (hashInt : Int64 → UInt64) (hashStr : Bytes → UInt64) (s : Bytes)
    (ops : List KeyOp) :
    ((∀ selfMove, Preserves hashInt hashStr selfMove s ops) ↔ NeverSet ops) ∧
      (Preserves hashInt hashStr (fun _ => []) s ops ↔ s = [] ∨ NeverSet ops) := by
  refine ⟨⟨?_, ?_⟩, preserves_const_iff hashInt hashStr [] s ops⟩
  · intro hall
    have hother := (preserves_const_iff hashInt hashStr (0 :: s) s ops).mp (hall _)
    exact hother.resolve_left (List.cons_ne_self 0 s).symm
  · intro hnever selfMove
    exact preserves_of_neverSet hashInt hashStr selfMove s hnever

/-- A key that gets an expiry is lost. -/
theorem not_preserves_setExpireTime :
    KeyOp.run (fun _ => []) (text "k") [.setExpireTime 5] = keyOf [] (some 5) ∧
      ¬ Preserves (fun _ => 0) (fun _ => 1) (fun _ => []) (text "k") [.setExpireTime 5] := by
  refine ⟨rfl, ?_⟩
  intro h
  exact absurd h.toString (by decide +kernel)

end StorageEngine.DashTable
