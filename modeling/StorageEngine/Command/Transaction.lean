/-
  StorageEngine/Command/Transaction.lean
  ======================================
  **Transactions** (`transaction_layer/transaction.cpp`, class `Transaction`, and
  `detail/tx_base.hpp`, class `ShardArgs`).

  A transaction belongs to the shard of the command's first argument.  Its callback is put
  in that shard's queue, runs there once, and reaches the slice through the shard that
  owns it.
-/
import StorageEngine.Sharding.DbSlice

namespace StorageEngine.Command

open StorageEngine.Redis StorageEngine.Sharding

structure Transaction where
  fullArgs : List Bytes
  uniqueShardId : ShardId
  timeNowMs : UInt64
deriving DecidableEq, Repr

/-- The first argument, or the empty string. -/
def firstArg (args : List Bytes) : Bytes := if 1 < args.length then args.getD 1 [] else []

/-- What a callback does to the slices of the namespace when a shard runs it for a transaction,
    and what it returns. -/
abbrev Callback (α : Type) := Transaction → ShardId → Namespace → Namespace × α

namespace Transaction

/-- `InitByArgs`. -/
def initByArgs (size : UInt32) (hash : Bytes → UInt64) (timeNowMs : UInt64) (args : List Bytes) :
    Transaction where
  fullArgs := args
  uniqueShardId := shard size (hash (firstArg args))
  timeNowMs := timeNowMs

/-- The task that `Scheduling` adds to the queue of the transaction's shard. -/
def runTask {α : Type} (tx : Transaction) (cb : Callback α) (ns : Namespace) : Namespace × α :=
  cb tx (ns tx.uniqueShardId).owner ns

end Transaction

/-! ### The arguments of a shard -/

/-- `ShardArgs`: the arguments of the command, and the positions that are the shard's. -/
structure ShardArgs where
  slice : List Bytes
  index : List Nat
deriving DecidableEq, Repr

/-- The keys that an iteration visits from a position of the index and an offset to it.  The
    increment goes to the next position as soon as the offset position is not below the
    current one, so that no offset is ever used. -/
def ShardArgs.keysFrom (slice : List Bytes) : List Nat → Nat → List Bytes
  | [], _ => []
  | i :: index, delta =>
    slice.getD (i + delta) [] ::
      if _h : i ≤ i + (delta + 1) then keysFrom slice index 0
      else keysFrom slice (i :: index) (delta + 1)
termination_by index => index.length

/-- The keys of a range-for over the arguments. -/
def ShardArgs.keys (a : ShardArgs) : List Bytes := ShardArgs.keysFrom a.slice a.index 0

/-- The same iteration with its accesses to the arguments, if they are all in range. -/
def ShardArgs.readFrom (slice : List Bytes) : List Nat → Nat → Option (List Bytes)
  | [], _ => some []
  | i :: index, delta =>
    slice[i + delta]?.bind fun key =>
      (if _h : i ≤ i + (delta + 1) then readFrom slice index 0
        else readFrom slice (i :: index) (delta + 1)).map (key :: ·)
termination_by index => index.length

def ShardArgs.read (a : ShardArgs) : Option (List Bytes) := ShardArgs.readFrom a.slice a.index 0

/-- `GetShardArgs`. -/
def Transaction.getShardArgs (tx : Transaction) (_sid : ShardId) : ShardArgs := ⟨tx.fullArgs, [1]⟩

theorem ShardArgs.keysFrom_cons (slice : List Bytes) (i : Nat) (index : List Nat) (delta : Nat) :
    keysFrom slice (i :: index) delta = slice.getD (i + delta) [] :: keysFrom slice index 0 := by
  rw [keysFrom, dif_pos (Nat.le_add_right _ _)]

/-- Every position of the index is visited once. -/
theorem ShardArgs.keys_eq (a : ShardArgs) : a.keys = a.index.map fun i => a.slice.getD i [] := by
  have hfrom : ∀ index, keysFrom a.slice index 0 = index.map fun i => a.slice.getD i [] := by
    intro index
    induction index with
    | nil => rw [keysFrom, List.map_nil]
    | cons i index ih => rw [keysFrom_cons, ih, Nat.add_zero, List.map_cons]
  exact hfrom a.index

theorem ShardArgs.readFrom_cons (slice : List Bytes) (i : Nat) (index : List Nat) (delta : Nat) :
    readFrom slice (i :: index) delta =
      slice[i + delta]?.bind fun key => (readFrom slice index 0).map (key :: ·) := by
  rw [readFrom]
  simp only [Nat.le_add_right, dite_true]

/-- A shard reads the command's first argument. -/
theorem Transaction.read_getShardArgs (tx : Transaction) (sid : ShardId) :
    (tx.getShardArgs sid).read = tx.fullArgs[1]?.map fun key => [key] := by
  unfold ShardArgs.read
  rw [show (tx.getShardArgs sid).index = [1] from rfl, ShardArgs.readFrom_cons, ShardArgs.readFrom]
  show tx.fullArgs[1]?.bind _ = _
  cases tx.fullArgs[1]? <;> rfl

/-- Whatever the command's keys are, a shard gets the first one. -/
theorem Transaction.keys_getShardArgs (tx : Transaction) (sid : ShardId) :
    (tx.getShardArgs sid).keys = [tx.fullArgs.getD 1 []] :=
  ShardArgs.keys_eq _

end StorageEngine.Command
