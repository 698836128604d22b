/-
  StorageEngine/Net/UringProactor.lean
  ====================================
  **Submitting what is pending** (`net/base/uring_proactor.cpp`, `SubmitPendingOps`).

  The loop takes operations out of a bounded queue, which other threads fill, and puts each
  into an entry of the submission ring.  An operation for which the ring has no entry goes
  back to the end of the queue that is being drained.

  Whether a call ends and loses nothing is decided by numbers: of the operations that the
  others enqueue, and of the entries that the ring has.  The queue is as long as a counter that
  goes up with the ones, down with the others and never above the capacity.
-/
import StorageEngine.WhileLoop
import Mathlib.Algebra.BigOperators.Intervals
import Mathlib.Algebra.Order.Group.Multiset
import Mathlib.Tactic.Abel

namespace StorageEngine.Net

open StorageEngine.WhileLoop

/-! ### The loop -/

/-- `PendingOp`; pointers and coroutine handles are numbers. -/
structure PendingOp where
  fd : Int
  opType : Int
  buf : Nat
  len : Nat
  offset : Int
  handle : Nat
  awaitable : Nat
deriving DecidableEq, Repr

/-- What an entry of the ring is prepared for. -/
inductive Prep where
  | accept (fd : Int)
  | read (fd : Int) (buf len : Nat) (offset : Int)
  | write (fd : Int) (buf len : Nat) (offset : Int)
  | close (fd : Int)
  | untouched
deriving DecidableEq, Repr

/-- The `switch` on the type of the operation. -/
def PendingOp.prep (op : PendingOp) : Prep :=
  if op.opType = 0 then .accept op.fd
  else if op.opType = 1 then .read op.fd op.buf op.len op.offset
  else if op.opType = 2 then .write op.fd op.buf op.len op.offset
  else if op.opType = 3 then .close op.fd
  else .untouched

/-- An entry of the ring, with the copy of the operation that its completion gets. -/
structure Sqe where
  prep : Prep
  data : PendingOp
deriving DecidableEq, Repr

/-- `pending_ops_` and the entries that the call has filled.  `enqueued` is a record, for the
    statements below, of what other threads have put into the queue since the call began. -/
structure Proactor where
  pendingOps : List PendingOp
  sqes : List Sqe := []
  enqueued : List PendingOp := []
deriving DecidableEq

/-- What happens around a round of the loop: the operations that other threads try to enqueue
    before the `try_dequeue`, the answers of the ring to the two calls of `io_uring_get_sqe`, and
    the operations that others try to enqueue before the operation goes back. -/
structure Round where
  before : List PendingOp := []
  first : Bool
  second : Bool
  between : List PendingOp := []

/-- The ring has an entry, at once or after `io_uring_submit`. -/
def Round.granted (r : Round) : Bool := r.first || r.second

section

variable (capacity : Nat)

/-- What the queue takes of the operations that are enqueued one after the other. -/
def taken (queue ops : List PendingOp) : List PendingOp := ops.take (capacity - queue.length)

def Proactor.enqueueAll (s : Proactor) (ops : List PendingOp) : Proactor :=
  let ops := taken capacity s.pendingOps ops
  { s with pendingOps := s.pendingOps ++ ops, enqueued := s.enqueued ++ ops }

/-- `try_enqueue`, whose result the loop does not look at. -/
def Proactor.tryEnqueue (s : Proactor) (op : PendingOp) : Proactor :=
  if s.pendingOps.length < capacity then { s with pendingOps := s.pendingOps ++ [op] } else s

/-- A round of the loop, among the rounds `env` of the environment. -/
def submitRound (env : Nat → Round) : Nat × Proactor → (Nat × Proactor) ⊕ Proactor
  | (i, s) =>
    let s := s.enqueueAll capacity (env i).before
    match s.pendingOps with
    | [] => .inr s
    | op :: rest =>
      let s := { s with pendingOps := rest }
      if (env i).granted then .inl (i + 1, { s with sqes := s.sqes ++ [⟨op.prep, op⟩] })
      else .inl (i + 1, (s.enqueueAll capacity (env i).between).tryEnqueue capacity op)

/-- `SubmitPendingOps`, in a number of rounds that may or may not be enough. -/
def submitPendingOps (env : Nat → Round) (fuel : Nat) (ops : List PendingOp) : Option Proactor :=
  run (submitRound capacity env) fuel (0, { pendingOps := ops })

/-! ### What a call is for -/

/-- Every operation that was there or has come is in one entry of the ring or in the queue. -/
def Accounted (ops : List PendingOp) (s : Proactor) : Prop :=
  (↑(s.sqes.map Sqe.data) + ↑s.pendingOps : Multiset PendingOp) = ↑ops + ↑s.enqueued

/-- The call ends, and loses nothing. -/
def Submits (env : Nat → Round) (ops : List PendingOp) : Prop :=
  ∃ fuel s, submitPendingOps capacity env fuel ops = some s ∧ Accounted ops s

/-- The call comes to a round in a state. -/
def ReachesRound (env : Nat → Round) (ops : List PendingOp) (i : Nat) (s : Proactor) : Prop :=
  Reaches (submitRound capacity env) (0, { pendingOps := ops }) (i, s)

/-- An operation that the ring has no entry for finds room in the queue. -/
def Room (s : Proactor) (r : Round) : Prop :=
  let s := s.enqueueAll capacity r.before
  r.granted = false → ∀ op rest, s.pendingOps = op :: rest →
    rest.length + (taken capacity rest r.between).length < capacity

/-! ### What the others do -/

/-- The operations that others try to enqueue between the `try_dequeue` of a round and that of
    the next. -/
def demandOf (env : Nat → Round) (i : Nat) : Nat :=
  (if (env i).granted = true then 0 else (env i).between.length) + (env (i + 1)).before.length

/-- What others try to enqueue between the `try_dequeue` of one round and that of another. -/
def demand (env : Nat → Round) (i j : Nat) : Nat := ∑ k ∈ Finset.Ico i j, demandOf env k

/-- The rounds from one to another in which the ring has an entry. -/
def supply (env : Nat → Round) (i j : Nat) : Nat :=
  ((Finset.Ico i j).filter fun k => (env k).granted = true).card

/-- By the numbers alone, at most `x` operations wait at the `try_dequeue` of a round: of the
    `start` operations and of all that came, or of a queue that was full in an earlier round and
    of what came since, the ring has had entries for all but `x`. -/
def WaitAtMost (env : Nat → Round) (start i x : Nat) : Prop :=
  start + (env 0).before.length + demand env 0 i ≤ x + supply env 0 i ∨
    ∃ j ≤ i, capacity + demand env j i ≤ x + supply env j i

instance (env : Nat → Round) (start i x : Nat) : Decidable (WaitAtMost capacity env start i x) :=
  inferInstanceAs (Decidable (_ ∨ ∃ j ≤ i, _))

/-- The ring catches up with the others in some round; and in every round before it without an
    entry for an operation, the others leave room for this operation. -/
def CatchesUp (env : Nat → Round) (start : Nat) : Prop :=
  ∃ n, WaitAtMost capacity env start n 0 ∧ ∀ i < n, (env i).granted = false →
    WaitAtMost capacity env start i (capacity - (env i).between.length)

end

variable {capacity : Nat} {env : Nat → Round} {ops : List PendingOp}

/-! ### One round -/

/-- What a round does: it leaves with an empty queue, places an operation, or puts it back. -/
theorem submitRound_cases (capacity : Nat) (env : Nat → Round) (i : Nat) (s : Proactor) :
    let t := s.enqueueAll capacity (env i).before
    (t.pendingOps = [] ∧ submitRound capacity env (i, s) = .inr t) ∨
    ∃ op rest, t.pendingOps = op :: rest ∧
      (((env i).granted = true ∧ submitRound capacity env (i, s) =
        .inl (i + 1, { t with pendingOps := rest, sqes := t.sqes ++ [⟨op.prep, op⟩] })) ∨
      ((env i).granted = false ∧ submitRound capacity env (i, s) = .inl (i + 1,
        ({ t with pendingOps := rest }.enqueueAll capacity (env i).between).tryEnqueue
          capacity op))) := by
  intro t
  unfold submitRound
  dsimp only
  cases hqueue : (s.enqueueAll capacity (env i).before).pendingOps with
  | nil => exact Or.inl ⟨rfl, rfl⟩
  | cons op rest =>
    refine Or.inr ⟨op, rest, rfl, ?_⟩
    cases hgranted : (env i).granted with
    | true => exact Or.inl ⟨rfl, rfl⟩
    | false => exact Or.inr ⟨rfl, rfl⟩

/-- The balance of a call: what is placed, pending and lost is what was there and has come. -/
def Balance (ops : List PendingOp) (lost : Multiset PendingOp) (s : Proactor) : Prop :=
  (↑(s.sqes.map Sqe.data) + ↑s.pendingOps + lost : Multiset PendingOp) = ↑ops + ↑s.enqueued

theorem Balance.enqueueAll {lost : Multiset PendingOp} {s : Proactor} (h : Balance ops lost s)
    (more : List PendingOp) : Balance ops lost (s.enqueueAll capacity more) := by
  unfold Balance at h ⊢
  unfold Proactor.enqueueAll
  dsimp only
  rw [← Multiset.coe_add, ← Multiset.coe_add, ← add_assoc, ← add_assoc, ← h]
  abel

theorem accounted_iff {lost : Multiset PendingOp} {s : Proactor} (h : Balance ops lost s) :
    Accounted ops s ↔ lost = 0 := by
  unfold Balance at h
  unfold Accounted
  rw [← h]
  exact left_eq_add

variable {lost : Multiset PendingOp} {s : Proactor} {op : PendingOp} {rest : List PendingOp}

/-- While an operation is in nobody's hands but the loop's, it counts as lost. -/
theorem Balance.dequeue (h : Balance ops lost s) (hqueue : s.pendingOps = op :: rest) :
    Balance ops (lost + {op}) { s with pendingOps := rest } := by
  unfold Balance at h ⊢
  rw [hqueue] at h
  rw [← h, ← Multiset.cons_coe, ← Multiset.singleton_add]
  abel

theorem Balance.place (h : Balance ops (lost + {op}) s) (prep : Prep) :
    Balance ops lost { s with sqes := s.sqes ++ [⟨prep, op⟩] } := by
  have hmap : (↑((s.sqes ++ [(⟨prep, op⟩ : Sqe)]).map Sqe.data) : Multiset PendingOp) =
      ↑(s.sqes.map Sqe.data) + {op} := by
    rw [List.map_append, ← Multiset.coe_add]
    rfl
  unfold Balance at h ⊢
  rw [hmap, ← h]
  abel

theorem Balance.putBack (h : Balance ops (lost + {op}) s) :
    Balance ops lost { s with pendingOps := s.pendingOps ++ [op] } := by
  have hqueue : (↑(s.pendingOps ++ [op]) : Multiset PendingOp) = ↑s.pendingOps + {op} := by
    rw [← Multiset.coe_add]
    rfl
  unfold Balance at h ⊢
  rw [hqueue, ← h]
  abel

/-- A round loses an operation exactly when there is no room for it. -/
theorem balance_round {i j : Nat} {s' : Proactor} (h : Balance ops lost s)
    (hround : submitRound capacity env (i, s) = .inl (j, s')) :
    ∃ more, Balance ops (lost + more) s' ∧ (more = 0 ↔ Room capacity s (env i)) := by
  have hcome : Balance ops lost (s.enqueueAll capacity (env i).before) := h.enqueueAll _
  rcases submitRound_cases capacity env i s with
    ⟨-, hleave⟩ | ⟨op, rest, hqueue, ⟨hgranted, hnext⟩ | ⟨hrefused, hnext⟩⟩
  · rw [hleave] at hround
    cases hround
  · rw [hnext] at hround
    cases hround
    refine ⟨0, ?_, iff_of_true rfl ?_⟩
    · rw [add_zero]
      exact (hcome.dequeue hqueue).place op.prep
    · intro hfalse
      rw [hgranted] at hfalse
      cases hfalse
  · rw [hnext] at hround
    cases hround
    have hback := @Balance.enqueueAll capacity _ _ _ (hcome.dequeue hqueue) (env i).between
    have hroom : (∀ op' rest', op :: rest = op' :: rest' →
        rest'.length + (taken capacity rest' (env i).between).length < capacity) ↔
        (rest ++ taken capacity rest (env i).between).length < capacity := by
      rw [List.length_append]
      constructor
      · intro hall
        exact hall op rest rfl
      · intro hlt op' rest' heq
        obtain ⟨-, rfl⟩ := List.cons.inj heq
        exact hlt
    unfold Room
    dsimp only
    rw [hqueue, hroom]
    by_cases hlt : (rest ++ taken capacity rest (env i).between).length < capacity
    · refine ⟨0, ?_, iff_of_true rfl fun _ => hlt⟩
      unfold Proactor.tryEnqueue
      rw [if_pos, add_zero]
      · exact hback.putBack
      · exact hlt
    · refine ⟨{op}, ?_, iff_of_false (Multiset.singleton_ne_zero op) fun h => hlt (h hrefused)⟩
      unfold Proactor.tryEnqueue
      rw [if_neg]
      · exact hback
      · exact hlt

/-! ### A call -/

theorem balance_leave {i : Nat} {r : Proactor} (h : Balance ops lost s)
    (hleave : submitRound capacity env (i, s) = .inr r) : Balance ops lost r := by
  rcases submitRound_cases capacity env i s with
    ⟨-, hr⟩ | ⟨op, rest, -, ⟨-, hnext⟩ | ⟨-, hnext⟩⟩
  · rw [hr] at hleave
    cases hleave
    exact h.enqueueAll _
  · rw [hnext] at hleave
    cases hleave
  · rw [hnext] at hleave
    cases hleave

/-- What is lost stays lost. -/
theorem balance_ends {i : Nat} {r : Proactor} (h : Balance ops lost s)
    (hends : Ends (submitRound capacity env) (i, s) r) : ∃ more, Balance ops (lost + more) r := by
  obtain ⟨⟨j, t⟩, hreach, hleave⟩ := hends.reaches
  have hinv : ∃ more, Balance ops (lost + more) t := by
    apply hreach.inv (I := fun x => ∃ more, Balance ops (lost + more) x.2)
    · rintro ⟨k, u⟩ ⟨l, v⟩ ⟨more, hu⟩ hround
      obtain ⟨again, hv, -⟩ := balance_round hu hround
      refine ⟨more + again, ?_⟩
      rw [← add_assoc]
      exact hv
    · refine ⟨0, ?_⟩
      rw [add_zero]
      exact h
  obtain ⟨more, ht⟩ := hinv
  exact ⟨more, balance_leave ht hleave⟩

theorem balance_start (ops : List PendingOp) : Balance ops 0 { pendingOps := ops } := by
  unfold Balance
  simp

/-- A call that ends, and loses nothing, has found room. -/
theorem room_of_submits {i : Nat} {r : Proactor}
    (hends : Ends (submitRound capacity env) (0, { pendingOps := ops }) r)
    (haccounted : Accounted ops r) (hreach : ReachesRound capacity env ops i s) :
    Room capacity s (env i) := by
  have hlost : ∃ lost, Balance ops lost s := by
    apply hreach.inv (I := fun x => ∃ lost, Balance ops lost x.2) ?_ ⟨0, balance_start ops⟩
    rintro ⟨j, t⟩ ⟨k, u⟩ ⟨lost, ht⟩ hround
    obtain ⟨more, hu, -⟩ := balance_round ht hround
    exact ⟨_, hu⟩
  obtain ⟨lost, hs⟩ := hlost
  rw [ends_iff_of_reaches hreach] at hends
  cases hround : submitRound capacity env (i, s) with
  | inr r' =>
    rcases submitRound_cases capacity env i s with
      ⟨hempty, -⟩ | ⟨op, rest, -, ⟨-, hnext⟩ | ⟨-, hnext⟩⟩
    · intro _ op rest hqueue
      rw [hempty] at hqueue
      cases hqueue
    · rw [hnext] at hround
      cases hround
    · rw [hnext] at hround
      cases hround
  | inl next =>
    obtain ⟨j, t⟩ := next
    obtain ⟨more, ht, hmore⟩ := balance_round hs hround
    rw [ends_iff_of_continue hround] at hends
    obtain ⟨again, hr⟩ := balance_ends ht hends
    have hnone := (accounted_iff hr).mp haccounted
    apply hmore.mp
    apply Multiset.le_zero.mp
    calc more ≤ lost + more := Multiset.le_add_left more lost
      _ ≤ lost + more + again := Multiset.le_add_right (lost + more) again
      _ = 0 := hnone

theorem next_round {i j : Nat} {s' : Proactor}
    (hround : submitRound capacity env (i, s) = .inl (j, s')) : j = i + 1 := by
  rcases submitRound_cases capacity env i s with
    ⟨-, hleave⟩ | ⟨op, rest, -, ⟨-, hnext⟩ | ⟨-, hnext⟩⟩
  · rw [hleave] at hround
    cases hround
  · rw [hnext] at hround
    cases hround
    rfl
  · rw [hnext] at hround
    cases hround
    rfl

/-- A call comes to every round before one that it comes to. -/
theorem reachesRound_of_le {i j : Nat} (hreach : ReachesRound capacity env ops i s) (hle : j ≤ i) :
    ∃ t, ReachesRound capacity env ops j t := by
  have hinv : ReachesRound capacity env ops i s ∧
      ∀ j ≤ i, ∃ t, ReachesRound capacity env ops j t := by
    apply hreach.inv (I := fun x => ReachesRound capacity env ops x.1 x.2 ∧
      ∀ j ≤ x.1, ∃ t, ReachesRound capacity env ops j t)
    · rintro ⟨k, t⟩ ⟨l, u⟩ ⟨ht, hbefore⟩ hround
      have hu := ht.tail hround
      obtain rfl := next_round hround
      refine ⟨hu, fun j hj => ?_⟩
      rcases Nat.lt_or_ge j (k + 1) with hlt | hge
      · exact hbefore j (Nat.le_of_lt_succ hlt)
      · obtain rfl : j = k + 1 := Nat.le_antisymm hj hge
        exact ⟨u, hu⟩
    · refine ⟨Reaches.refl _, fun j hj => ?_⟩
      obtain rfl : j = 0 := Nat.le_zero.mp hj
      exact ⟨_, Reaches.refl _⟩
  exact hinv.2 j hle

/-! ### The length of the queue -/

/-- The operations that wait at the `try_dequeue` of a round. -/
def waiting (capacity : Nat) (env : Nat → Round) (i : Nat) (s : Proactor) : Nat :=
  (s.enqueueAll capacity (env i).before).pendingOps.length

theorem waiting_of_leave {i : Nat} {r : Proactor}
    (hleave : submitRound capacity env (i, s) = .inr r) : waiting capacity env i s = 0 := by
  rcases submitRound_cases capacity env i s with
    ⟨hempty, -⟩ | ⟨op, rest, -, ⟨-, hnext⟩ | ⟨-, hnext⟩⟩
  · exact List.length_eq_zero_iff.mpr hempty
  · rw [hnext] at hleave
    cases hleave
  · rw [hnext] at hleave
    cases hleave

theorem waiting_pos {i : Nat} {x : Nat × Proactor}
    (hround : submitRound capacity env (i, s) = .inl x) : 0 < waiting capacity env i s := by
  rcases submitRound_cases capacity env i s with ⟨-, hleave⟩ | ⟨op, rest, hqueue, -⟩
  · rw [hleave] at hround
    cases hround
  · unfold waiting
    rw [hqueue]
    exact Nat.succ_pos _

theorem length_enqueueAll (hfits : s.pendingOps.length ≤ capacity) (more : List PendingOp) :
    (s.enqueueAll capacity more).pendingOps.length =
      min (s.pendingOps.length + more.length) capacity := by
  unfold Proactor.enqueueAll taken
  simp only [List.length_append, List.length_take]
  omega

theorem length_tryEnqueue (hfits : s.pendingOps.length ≤ capacity) (op : PendingOp) :
    (s.tryEnqueue capacity op).pendingOps.length = min (s.pendingOps.length + 1) capacity := by
  unfold Proactor.tryEnqueue
  split
  · rw [List.length_append, List.length_singleton]
    omega
  · omega

/-- A round makes the queue longer by what the others enqueue, shorter by an entry of the ring,
    and never longer than its capacity: an operation that goes back leaves it as it was. -/
theorem waiting_round {i j : Nat} {s' : Proactor} (hfits : s.pendingOps.length ≤ capacity)
    (hround : submitRound capacity env (i, s) = .inl (j, s')) :
    s'.pendingOps.length ≤ capacity ∧ waiting capacity env (i + 1) s' + supply env i (i + 1) =
      min (waiting capacity env i s + demandOf env i) (capacity + supply env i (i + 1)) := by
  have hlength := length_enqueueAll hfits (env i).before
  have hsupply : supply env i (i + 1) = if (env i).granted = true then 1 else 0 := by
    unfold supply
    rw [Nat.Ico_succ_singleton, Finset.filter_singleton]
    split <;> rfl
  unfold waiting demandOf
  rcases submitRound_cases capacity env i s with
    ⟨-, hleave⟩ | ⟨op, rest, hqueue, ⟨hgranted, hnext⟩ | ⟨hrefused, hnext⟩⟩
  · rw [hleave] at hround
    cases hround
  · rw [hnext] at hround
    cases hround
    rw [hqueue, List.length_cons] at hlength ⊢
    have hrest : rest.length ≤ capacity := by omega
    refine ⟨hrest, ?_⟩
    rw [length_enqueueAll (by exact hrest), hsupply, if_pos hgranted, if_pos hgranted]
    dsimp only
    omega
  · rw [hnext] at hround
    cases hround
    rw [hqueue, List.length_cons] at hlength ⊢
    have hrest : rest.length ≤ capacity := by omega
    have hmore := length_enqueueAll (s := { s.enqueueAll capacity (env i).before with
      pendingOps := rest }) hrest (env i).between
    have hback := @length_tryEnqueue capacity _ (hmore ▸ Nat.min_le_right _ _) op
    rw [hmore] at hback
    have hbound := hback ▸ Nat.min_le_right _ _
    refine ⟨hbound, ?_⟩
    rw [length_enqueueAll hbound, hback, hsupply, if_neg (by simp [hrefused]),
      if_neg (by simp [hrefused])]
    dsimp only
    omega

/-! ### The numbers -/

variable {start i x : Nat}

theorem supply_succ {j : Nat} (hle : j ≤ i) :
    supply env j (i + 1) = supply env j i + supply env i (i + 1) := by
  unfold supply
  rw [Finset.card_filter, Finset.card_filter, Finset.card_filter,
    Finset.sum_Ico_consecutive _ hle (Nat.le_succ i)]

theorem demand_succ {j : Nat} (hle : j ≤ i) :
    demand env j (i + 1) = demand env j i + demandOf env i := Finset.sum_Ico_succ_top hle _

theorem WaitAtMost.mono {y : Nat} (h : WaitAtMost capacity env start i x) (hle : x ≤ y) :
    WaitAtMost capacity env start i y := by
  rcases h with h | ⟨j, hj, h⟩
  · exact Or.inl (by omega)
  · exact Or.inr ⟨j, hj, by omega⟩

/-- The bound of the next round: the queue is no longer than its capacity, and what waited
    before is changed by what comes and goes. -/
theorem waitAtMost_succ : WaitAtMost capacity env start (i + 1) x ↔ capacity ≤ x ∨
    start + (env 0).before.length + demand env 0 i + demandOf env i ≤
      x + supply env 0 i + supply env i (i + 1) ∨
    ∃ j ≤ i, capacity + demand env j i + demandOf env i ≤
      x + supply env j i + supply env i (i + 1) := by
  unfold WaitAtMost
  rw [demand_succ (Nat.zero_le i), supply_succ (Nat.zero_le i), ← Nat.add_assoc, ← Nat.add_assoc]
  constructor
  · rintro (h | ⟨j, hj, h⟩)
    · exact Or.inr (Or.inl h)
    · rcases Nat.lt_or_ge j (i + 1) with hlt | hge
      · rw [demand_succ (Nat.le_of_lt_succ hlt), supply_succ (Nat.le_of_lt_succ hlt)] at h
        exact Or.inr (Or.inr ⟨j, Nat.le_of_lt_succ hlt, by omega⟩)
      · obtain rfl : j = i + 1 := Nat.le_antisymm hj hge
        unfold demand supply at h
        simp only [Finset.Ico_self, Finset.sum_empty, Finset.filter_empty,
          Finset.card_empty] at h
        exact Or.inl h
  · rintro (h | h | ⟨j, hj, h⟩)
    · refine Or.inr ⟨i + 1, Nat.le_refl _, ?_⟩
      unfold demand supply
      simp only [Finset.Ico_self, Finset.sum_empty, Finset.filter_empty, Finset.card_empty]
      exact h
    · exact Or.inl h
    · refine Or.inr ⟨j, Nat.le_succ_of_le hj, ?_⟩
      rw [demand_succ hj, supply_succ hj]
      omega

/-- The step from one round to the next, as long as something waits. -/
theorem waitAtMost_step {w w' : Nat} (hw : ∀ x, w ≤ x ↔ WaitAtMost capacity env start i x)
    (hpos : 0 < w) (hstep : w' + supply env i (i + 1) =
      min (w + demandOf env i) (capacity + supply env i (i + 1))) :
    w' ≤ x ↔ WaitAtMost capacity env start (i + 1) x := by
  have hnone : ¬ WaitAtMost capacity env start i 0 := fun h => by
    have := (hw 0).mpr h
    omega
  have hmin : w' ≤ x ↔ capacity ≤ x ∨ w + demandOf env i ≤ x + supply env i (i + 1) := by
    omega
  have hbefore : w + demandOf env i ≤ x + supply env i (i + 1) ↔
      start + (env 0).before.length + demand env 0 i + demandOf env i ≤
        x + supply env 0 i + supply env i (i + 1) ∨
      ∃ j ≤ i, capacity + demand env j i + demandOf env i ≤
        x + supply env j i + supply env i (i + 1) := by
    rcases Nat.lt_or_ge (x + supply env i (i + 1)) (demandOf env i) with hlt | hge
    · refine iff_of_false (by omega) fun h => hnone ?_
      rcases h with h | ⟨j, hj, h⟩
      · exact Or.inl (by omega)
      · exact Or.inr ⟨j, hj, by omega⟩
    · have hiff := hw (x + supply env i (i + 1) - demandOf env i)
      rw [Nat.le_sub_iff_add_le hge] at hiff
      rw [hiff]
      unfold WaitAtMost
      constructor
      · rintro (h | ⟨j, hj, h⟩)
        · exact Or.inl (by omega)
        · exact Or.inr ⟨j, hj, by omega⟩
      · rintro (h | ⟨j, hj, h⟩)
        · exact Or.inl (by omega)
        · exact Or.inr ⟨j, hj, by omega⟩
  rw [waitAtMost_succ, ← hbefore]
  exact hmin

theorem waitAtMost_zero :
    WaitAtMost capacity env start 0 x ↔ min (start + (env 0).before.length) capacity ≤ x := by
  unfold WaitAtMost demand supply
  simp only [Nat.le_zero, exists_eq_left, Finset.Ico_self, Finset.sum_empty, Finset.filter_empty,
    Finset.card_empty, Nat.add_zero]
  omega

/-- **The numbers give the length of the queue** in every round that a call comes to. -/
theorem waiting_le_iff (hops : ops.length ≤ capacity) (hreach : ReachesRound capacity env ops i s) :
    s.pendingOps.length ≤ capacity ∧
      ∀ x, waiting capacity env i s ≤ x ↔ WaitAtMost capacity env ops.length i x := by
  apply hreach.inv (I := fun y => y.2.pendingOps.length ≤ capacity ∧
    ∀ x, waiting capacity env y.1 y.2 ≤ x ↔ WaitAtMost capacity env ops.length y.1 x)
  · rintro ⟨j, t⟩ ⟨k, u⟩ ⟨hfits, hwait⟩ hround
    obtain ⟨hfits', hstep⟩ := waiting_round hfits hround
    obtain rfl := next_round hround
    refine ⟨hfits', fun x => waitAtMost_step hwait ?_ hstep⟩
    exact waiting_pos hround
  · refine ⟨hops, fun x => ?_⟩
    rw [waitAtMost_zero]
    unfold waiting
    rw [length_enqueueAll hops]

/-! ### The condition -/

/-- **An operation finds room** exactly when the numbers say so. -/
theorem room_iff (hops : ops.length ≤ capacity) (hreach : ReachesRound capacity env ops i s)
    (hpos : 0 < waiting capacity env i s) : Room capacity s (env i) ↔
    ((env i).granted = false →
      WaitAtMost capacity env ops.length i (capacity - (env i).between.length)) := by
  obtain ⟨hfits, hwait⟩ := waiting_le_iff hops hreach
  have hlength := length_enqueueAll hfits (env i).before
  rw [← hwait]
  unfold Room taken
  unfold waiting at hpos ⊢
  simp only [List.length_take]
  cases hqueue : (s.enqueueAll capacity (env i).before).pendingOps with
  | nil =>
    rw [hqueue] at hpos
    exact absurd hpos (Nat.lt_irrefl 0)
  | cons op rest =>
    rw [hqueue, List.length_cons] at hlength
    refine imp_congr_right fun _ => ?_
    rw [List.length_cons]
    constructor
    · intro hroom
      have := hroom op rest rfl
      omega
    · rintro hle op' rest' heq
      obtain ⟨-, rfl⟩ := List.cons.inj heq
      omega

/-- A call that catches up leaves before the others have, with nothing lost. -/
theorem submits_of_catchesUp (hops : ops.length ≤ capacity)
    (h : CatchesUp capacity env ops.length) : Submits capacity env ops := by
  obtain ⟨n, hdrained, hroom⟩ := h
  have hstart : ReachesRound capacity env ops 0 { pendingOps := ops } := Reaches.refl _
  have hends : ∃ r, Ends (submitRound capacity env) (0, { pendingOps := ops }) r ∧
      Accounted ops r := by
    apply exists_ends (I := fun x => x.1 ≤ n ∧ ReachesRound capacity env ops x.1 x.2 ∧
      Balance ops 0 x.2) (fun x => n - x.1) ?_ ?_
      ⟨Nat.zero_le n, hstart, balance_start ops⟩
    · rintro ⟨i, t⟩ ⟨j, u⟩ ⟨hle, ht, hbalance⟩ hround
      have hpos := waiting_pos hround
      have hu := ht.tail hround
      have hlt : i < n := by
        apply Nat.lt_of_le_of_ne hle
        rintro rfl
        exact Nat.not_le_of_lt hpos (((waiting_le_iff hops ht).2 0).mpr hdrained)
      obtain ⟨more, hmore, hiff⟩ := balance_round hbalance hround
      rw [hiff.mpr ((room_iff hops ht hpos).mpr (hroom i hlt)), add_zero] at hmore
      obtain rfl := next_round hround
      dsimp only
      exact ⟨⟨hlt, hu, hmore⟩, by omega⟩
    · rintro ⟨i, t⟩ r ⟨-, -, hbalance⟩ hleave
      exact (accounted_iff (balance_leave hbalance hleave)).mpr rfl
  obtain ⟨r, ⟨fuel, hrun⟩, haccounted⟩ := hends
  exact ⟨fuel, r, hrun, haccounted⟩

/-- A call that ends and loses nothing has caught up in its last round. -/
theorem catchesUp_of_submits (hops : ops.length ≤ capacity) (h : Submits capacity env ops) :
    CatchesUp capacity env ops.length := by
  obtain ⟨fuel, r, hrun, haccounted⟩ := h
  have hends : Ends (submitRound capacity env) (0, { pendingOps := ops }) r := ⟨fuel, hrun⟩
  obtain ⟨⟨n, s⟩, hreach, hleave⟩ := hends.reaches
  refine ⟨n, ((waiting_le_iff hops hreach).2 0).mp ?_, ?_⟩
  · exact Nat.le_of_eq (waiting_of_leave hleave)
  · intro i hlt hrefused
    obtain ⟨t, ht⟩ := reachesRound_of_le hreach (Nat.le_of_lt hlt)
    rcases Nat.eq_zero_or_pos (waiting capacity env i t) with hnone | hpos
    · exact (((waiting_le_iff hops ht).2 0).mp (Nat.le_of_eq hnone)).mono (Nat.zero_le _)
    · exact (room_iff hops ht hpos).mp (room_of_submits hends haccounted ht) hrefused

/-- **`SubmitPendingOps`** ends and loses nothing exactly when the ring catches up with the
    others, and these leave room for what goes back to the queue. -/
theorem submits_iff (hops : ops.length ≤ capacity) :
    Submits capacity env ops ↔ CatchesUp capacity env ops.length :=
  ⟨catchesUp_of_submits hops, submits_of_catchesUp hops⟩

/-- The ring has no entry in two rounds, in one of which another operation comes between, and
    has placed all four at the seventh. -/
theorem submits_busy :
    let op (i : Nat) : PendingOp := ⟨i, 1, 0, 16, 0, i, i⟩
    let busy (i : Nat) : Round :=
      { before := if i = 2 then [op 4] else [], first := i % 2 = 1, second := 3 < i,
        between := if i = 0 then [op 3] else [] }
    Submits 4 busy [op 1, op 2] := by
  intro op busy
  exact (submits_iff (by decide)).mpr ⟨6, by decide, by decide⟩

/-- A ring without entries keeps the loop going forever; and an operation that is put back
    behind one that came meanwhile finds the queue full, and is gone. -/
theorem not_submits_saturated :
    let op (i : Nat) : PendingOp := ⟨i, 1, 0, 16, 0, i, i⟩
    let saturated (i : Nat) : Round :=
      { first := 0 < i, second := false, between := if i = 0 then [op 3] else [] }
    ¬ Submits 1024 (fun _ => { first := false, second := false }) [op 1] ∧
    ∃ s, submitPendingOps 2 saturated 4 [op 1, op 2] = some s ∧
      s.sqes.map Sqe.data = [op 2, op 3] ∧ s.pendingOps = [] ∧ ¬ Accounted [op 1, op 2] s := by
  intro op saturated
  constructor
  · rintro ⟨fuel, r, hrun, -⟩
    apply not_ends_of_inv (I := fun x : Nat × Proactor => x.2 = { pendingOps := [op 1] }) ?_ rfl
      ⟨fuel, hrun⟩
    rintro ⟨i, s⟩ rfl
    exact ⟨(i + 1, { pendingOps := [op 1] }), rfl, rfl⟩
  · refine ⟨⟨[], [op 2, op 3].map fun op => ⟨op.prep, op⟩, [op 3]⟩, by decide, rfl, rfl, ?_⟩
    unfold Accounted
    decide

end StorageEngine.Net
