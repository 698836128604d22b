/-
  StorageEngine/Net/ThreadEvent.lean
  ==================================
  **The event that a task queue waits for** (`net/util/synchronization.hpp`, class
  `ThreadEvent`, as `TryAdd`, `Shutdown` and `Run` of `task_queue.hpp` use it).

  The event is a signed counter: a notification adds one, a wait takes one away, and
  `notifyAll` stores the largest number.  One more notification turns that number into the
  smallest one.  A notification does not take the lock of the event: it may come between the
  moment when a wait finds nothing and the moment when it blocks, and then nobody hears it.
  Every access to the counter is a step here, and so is every notification and the block.
-/
import StorageEngine.StepMachine
import Mathlib.Algebra.Order.Ring.Int

namespace StorageEngine.Net

open StorageEngine.StepMachine

/-! ### The counter -/

/-- `flag_` of a `ThreadEvent`; the additions to an `std::atomic<int32_t>` wrap around.  `passed`
    says that a wait, which has the lock, has found its predicate true and not yet taken one
    away. -/
structure ThreadEvent where
  flag : Int32 := 0
  passed : Bool := false
deriving DecidableEq

inductive EventOp where
  /-- The predicate of a wait is true. -/
  | pass
  /-- `fetch_sub`, the end of a wait. -/
  | take
  /-- The `fetch_add` of a `notify`. -/
  | add
  /-- The store of a `notifyAll`. -/
  | max
  | reset
deriving DecidableEq, Repr

namespace ThreadEvent

/-- The predicate of `cv_.wait`. -/
def ready (e : ThreadEvent) : Bool := 0 < e.flag

def step (e : ThreadEvent) : EventOp → Option ThreadEvent
  | .pass => if e.passed = false ∧ e.ready then some { e with passed := true } else none
  | .take => if e.passed then some ⟨e.flag - 1, false⟩ else none
  | .add => some { e with flag := e.flag + 1 }
  | .max => some { e with flag := Int32.maxValue }
  | .reset => some { e with flag := 0 }

end ThreadEvent

/-- The counter is never negative, and after a `notifyAll` the predicate is true for as many
    waits as it has been set to, until a reset. -/
structure Counts (ops : List EventOp) : Prop where
  nonneg : ∀ before after e, ops = before ++ after → run ThreadEvent.step {} before = some e →
    0 ≤ e.flag
  ready : ∀ before between after e, ops = before ++ .max :: (between ++ after) →
    run ThreadEvent.step {} (before ++ .max :: between) = some e →
    .reset ∉ between → between.count .take < 2 ^ 31 - 1 → e.ready = true

/-- A notification does not find the largest number, and a wait whose predicate was true does not
    find that a reset has taken away everything since. -/
def InRange (e : ThreadEvent) : EventOp → Prop
  | .add => e.flag ≠ Int32.maxValue
  | .take => e.passed = true → e.flag ≠ 0
  | _ => True

/-! ### Its accesses -/

theorem toInt_lt_of_ne {flag : Int32} (h : flag ≠ Int32.maxValue) : flag.toInt < 2 ^ 31 - 1 := by
  have hlt := Int32.toInt_lt flag
  have hne : flag.toInt ≠ 2 ^ 31 - 1 := by
    intro heq
    apply h
    rw [← Int32.toInt_inj, heq]
    rfl
  omega

theorem toInt_add {flag : Int32} (h : flag ≠ Int32.maxValue) :
    (flag + 1).toInt = flag.toInt + 1 := by
  have hlt := toInt_lt_of_ne h
  have hle := Int32.le_toInt flag
  rw [Int32.toInt_add, show (1 : Int32).toInt = 1 from rfl]
  apply Int.bmod_eq_of_le <;> omega

theorem toInt_take {flag : Int32} (h : 0 < flag.toInt) : (flag - 1).toInt = flag.toInt - 1 := by
  have hlt := Int32.toInt_lt flag
  rw [Int32.toInt_sub, show (1 : Int32).toInt = 1 from rfl]
  apply Int.bmod_eq_of_le <;> omega

theorem toInt_pos_of_ne {flag : Int32} (hnonneg : 0 ≤ flag.toInt) (h : flag ≠ 0) :
    0 < flag.toInt := by
  have hne : flag.toInt ≠ 0 := by
    intro heq
    apply h
    rw [← Int32.toInt_inj, heq]
    rfl
  omega

theorem ready_iff {e : ThreadEvent} : e.ready = true ↔ 0 < e.flag.toInt := by
  unfold ThreadEvent.ready
  rw [decide_eq_true_eq, Int32.lt_iff_toInt_lt]
  rfl

/-- One access: the counter stays non-negative, and only a wait or a reset makes it smaller, a
    wait by one. -/
theorem event_step_spec {e e' : ThreadEvent} {op : EventOp} (hnonneg : 0 ≤ e.flag.toInt)
    (hrange : InRange e op) (hstep : e.step op = some e') :
    0 ≤ e'.flag.toInt ∧
      (op ≠ .reset → e.flag.toInt ≤ e'.flag.toInt + ([op].count .take : Nat)) := by
  cases op with
  | pass =>
    simp only [ThreadEvent.step] at hstep
    split at hstep
    · cases hstep
      refine ⟨hnonneg, ?_⟩
      intro _
      show e.flag.toInt ≤ e.flag.toInt + _
      omega
    · cases hstep
  | take =>
    simp only [ThreadEvent.step] at hstep
    split at hstep
    · rename_i hpassed
      cases hstep
      have hpos := toInt_pos_of_ne hnonneg (hrange hpassed)
      have hminus := toInt_take hpos
      refine ⟨by rw [hminus]; omega, ?_⟩
      intro _
      rw [hminus, List.count_singleton_self]
      omega
    · cases hstep
  | add =>
    cases hstep
    have hplus := toInt_add hrange
    refine ⟨by rw [hplus]; omega, ?_⟩
    intro _
    rw [hplus]
    omega
  | max =>
    cases hstep
    have hlt := Int32.toInt_lt e.flag
    have hmax : Int32.maxValue.toInt = 2 ^ 31 - 1 := rfl
    refine ⟨by rw [hmax]; omega, ?_⟩
    intro _
    rw [hmax]
    omega
  | reset =>
    cases hstep
    exact ⟨Int.le_refl 0, fun h => absurd rfl h⟩

/-- A run without a reset takes away one for each of its waits at most. -/
theorem flag_run {e e' : ThreadEvent} {ops : List EventOp} (hnonneg : 0 ≤ e.flag.toInt)
    (hrange : Along ThreadEvent.step InRange e ops) (hrun : run ThreadEvent.step e ops = some e') :
    0 ≤ e'.flag.toInt ∧
      (.reset ∉ ops → e.flag.toInt ≤ e'.flag.toInt + (ops.count .take : Nat)) := by
  induction ops generalizing e with
  | nil =>
    cases hrun
    refine ⟨hnonneg, ?_⟩
    intro _
    simp
  | cons op ops ih =>
    obtain ⟨hfirst, hrest⟩ := along_cons.mp hrange
    obtain ⟨t, ht, htail⟩ := run_cons_eq_some.mp hrun
    obtain ⟨hpos, hone⟩ := event_step_spec hnonneg hfirst ht
    obtain ⟨hend, hmany⟩ := ih hpos (hrest t ht) htail
    refine ⟨hend, ?_⟩
    intro hreset
    have hop : op ≠ .reset := fun h => hreset (h ▸ List.mem_cons_self)
    have htail' := hmany fun h => hreset (List.mem_cons_of_mem _ h)
    have hcount : ([op] ++ ops).count .take = [op].count .take + ops.count .take :=
      List.count_append
    rw [List.singleton_append] at hcount
    have hfirst' := hone hop
    rw [hcount, Int.natCast_add]
    omega

/-- An access out of range makes the counter negative. -/
theorem neg_of_not_inRange {e e' : ThreadEvent} {op : EventOp} (hrange : ¬ InRange e op)
    (hstep : e.step op = some e') : e'.flag < 0 := by
  cases op with
  | pass | max | reset => exact absurd trivial hrange
  | add =>
    cases hstep
    rw [show (ThreadEvent.mk (e.flag + 1) e.passed).flag = e.flag + 1 from rfl, not_not.mp hrange]
    decide
  | take =>
    simp only [ThreadEvent.step] at hstep
    obtain ⟨hpassed, hzero⟩ := not_forall.mp hrange
    rw [if_pos hpassed] at hstep
    cases hstep
    rw [show (ThreadEvent.mk (e.flag - 1) false).flag = e.flag - 1 from rfl, not_not.mp hzero]
    decide

theorem step_isSome_of_not_inRange {e : ThreadEvent} {op : EventOp} (hrange : ¬ InRange e op) :
    ∃ e', e.step op = some e' := by
  cases op with
  | pass | max | reset => exact absurd trivial hrange
  | add => exact ⟨_, rfl⟩
  | take =>
    obtain ⟨hpassed, -⟩ := not_forall.mp hrange
    exact ⟨_, if_pos hpassed⟩

/-- The event is a counter, in a run of its accesses, exactly when all of them are in range. -/
theorem counts_iff (ops : List EventOp) : Counts ops ↔ Along ThreadEvent.step InRange {} ops := by
  constructor
  · rintro ⟨hnonneg, -⟩ before op after e heq hrun
    by_contra hrange
    obtain ⟨e', hstep⟩ := step_isSome_of_not_inRange hrange
    have hnext : run ThreadEvent.step {} (before ++ [op]) = some e' :=
      run_append_eq_some.mpr ⟨e, hrun, run_cons_eq_some.mpr ⟨e', hstep, rfl⟩⟩
    have hle := hnonneg (before ++ [op]) after e' (by rw [heq]; simp) hnext
    exact absurd hle (Int32.not_le.mpr (neg_of_not_inRange hrange hstep))
  · intro hrange
    refine ⟨?_, ?_⟩
    · rintro before after e rfl hrun
      have hzero : 0 ≤ (ThreadEvent.mk 0 false).flag.toInt := by decide
      exact Int32.le_iff_toInt_le.mpr (flag_run hzero (along_append.mp hrange).1 hrun).1
    · rintro before between after e rfl hrun hreset hwaits
      rw [← List.cons_append, ← List.append_assoc] at hrange
      have hpart := (along_append.mp hrange).1
      obtain ⟨t, ht, htail⟩ := run_append_eq_some.mp hrun
      have hbefore := (along_append.mp hpart).2 t ht
      obtain ⟨u, hu, hall⟩ := run_cons_eq_some.mp htail
      have hbetween := (along_cons.mp hbefore).2 u hu
      cases hu
      have hmax : (ThreadEvent.mk Int32.maxValue t.passed).flag.toInt = 2 ^ 31 - 1 := rfl
      have hleft := (flag_run (by omega) hbetween hall).2 hreset
      apply ready_iff.mpr
      omega

/-! ### Closing the queue -/

/-- Where `Run` is: about to look at the predicate, or at the block behind it, or blocked; about to
    take one away; about to look at `is_closed_`; or out of its loop. -/
inductive RunPc where
  | checking
  | parking
  | parked
  | taking
  | looking
  | left
deriving DecidableEq, Repr

/-- A task queue as its event sees it, with the numbers of `notify_one` and `notify_all` calls that
    are still to come behind their accesses, and whether a `Shutdown` has come to its end. -/
structure Closing where
  flag : Int32 := 0
  toNotify : Nat := 0
  toBroadcast : Nat := 0
  isClosed : Bool := false
  shutDown : Bool := false
  pc : RunPc := .checking
deriving DecidableEq

inductive ClosingStep where
  /-- The `fetch_add` of a `TryAdd` that has enqueued a task. -/
  | add
  /-- Its `notify_one`. -/
  | notifyOne
  /-- `Shutdown` stores `is_closed_`. -/
  | store
  /-- It stores the largest number. -/
  | max
  /-- Its `notify_all`. -/
  | notifyAll
  /-- `Run` looks at the predicate. -/
  | check
  /-- `Run` blocks. -/
  | park
  /-- `Run` wakes up by itself. -/
  | wake
  /-- The `fetch_sub` of `Run`. -/
  | take
  /-- `Run` looks at `is_closed_`, and takes a task if there is one. -/
  | look
deriving DecidableEq, Repr

/-- A notification wakes up a `Run` that is blocked, and nobody otherwise. -/
def RunPc.woken : RunPc → RunPc
  | .parked => .checking
  | pc => pc

/-- The steps that `Run` takes by itself. -/
def ClosingStep.own : ClosingStep → Bool
  | .check | .park | .take | .look => true
  | _ => false

namespace Closing

def step (s : Closing) : ClosingStep → Option Closing
  | .add => some { s with flag := s.flag + 1, toNotify := s.toNotify + 1 }
  | .notifyOne =>
    if 0 < s.toNotify then some { s with toNotify := s.toNotify - 1, pc := s.pc.woken } else none
  | .store => some { s with isClosed := true }
  | .max =>
    if s.isClosed then some { s with flag := Int32.maxValue, toBroadcast := s.toBroadcast + 1 }
    else none
  | .notifyAll =>
    if 0 < s.toBroadcast then
      some { s with toBroadcast := s.toBroadcast - 1, shutDown := true, pc := s.pc.woken }
    else none
  | .check =>
    if s.pc = .checking then some { s with pc := if 0 < s.flag then .taking else .parking }
    else none
  | .park => if s.pc = .parking then some { s with pc := .parked } else none
  | .wake => if s.pc = .parked then some { s with pc := .checking } else none
  | .take => if s.pc = .taking then some { s with flag := s.flag - 1, pc := .looking } else none
  | .look =>
    if s.pc = .looking then some { s with pc := if s.isClosed then .left else .checking } else none

/-- A `TryAdd` does not find the largest number. -/
def Room (s : Closing) (a : ClosingStep) : Prop := a = .add → s.flag ≠ Int32.maxValue

/-- And the `notify_all` of a `Shutdown` does not come when `Run` has looked at the predicate and
    is about to block. -/
def Heard (s : Closing) (a : ClosingStep) : Prop :=
  s.Room a ∧ (a = .notifyAll → 0 < s.toBroadcast → s.pc ≠ .parking)

/-- `Run` leaves its loop, whatever the other threads do as long as they find room: it is not
    blocked, and it has left after three steps of its own. -/
def GetsOut (s : Closing) : Prop :=
  ∀ as s', Along step Room s as → run step s as = some s' →
    (s'.pc ≠ .left → ∃ a, a.own = true ∧ (s'.step a).isSome) ∧
      (3 ≤ as.countP ClosingStep.own → s'.pc = .left)

/-- In every state of a run the counter is not negative, and `Run` gets to see a `Shutdown` that has
    come to its end. -/
def Sees (steps : List ClosingStep) : Prop :=
  ∀ before after s, steps = before ++ after → run step {} before = some s →
    0 ≤ s.flag ∧ (s.shutDown = true → s.GetsOut)

/-! ### The invariant -/

/-- The counter is positive where `Run` is about to take one away, and also, once `Shutdown` has
    stored the largest number, where it is about to look at it.  A `Shutdown` that was heard has
    left nobody blocked. -/
structure Inv (s : Closing) : Prop where
  nonneg : 0 ≤ s.flag.toInt
  taking : s.pc = .taking → 0 < s.flag.toInt
  closed : 0 < s.toBroadcast ∨ s.shutDown = true →
    s.isClosed = true ∧ (s.pc ≠ .looking → s.pc ≠ .left → 0 < s.flag.toInt)
  awake : s.shutDown = true → s.pc ≠ .parking ∧ s.pc ≠ .parked

theorem inv_start : Inv {} where
  nonneg := by decide
  taking h := by cases h
  closed h := by simp at h
  awake h := by cases h

variable {s s' : Closing} {a : ClosingStep}

theorem Inv.room (h : s.Inv) (hroom : s.Room .add) : 0 < (s.flag + 1).toInt := by
  have hplus := toInt_add (hroom rfl)
  have hnonneg := h.nonneg
  omega

theorem woken_ne_parked (pc : RunPc) : pc.woken ≠ .parked := by cases pc <;> simp [RunPc.woken]

theorem woken_eq_iff {pc pc' : RunPc} (h : pc' ≠ .checking) (h' : pc' ≠ .parked) :
    pc.woken = pc' ↔ pc = pc' := by
  cases pc with
  | parked => exact iff_of_false (Ne.symm h) (Ne.symm h')
  | _ => exact Iff.rfl

/-- A notification, of whichever kind. -/
theorem Inv.wake (h : s.Inv) {t : Closing} (hflag : t.flag = s.flag)
    (hclosed : t.isClosed = s.isClosed) (hpc : t.pc = s.pc.woken)
    (hmax : 0 < t.toBroadcast ∨ t.shutDown = true →
      0 < s.toBroadcast ∨ s.shutDown = true)
    (hawake : t.shutDown = true → s.pc ≠ .parking) : t.Inv where
  nonneg := by
    rw [hflag]
    exact h.nonneg
  taking htaking := by
    rw [hflag]
    rw [hpc, woken_eq_iff (by simp) (by simp)] at htaking
    exact h.taking htaking
  closed ht := by
    obtain ⟨hstored, hpos⟩ := h.closed (hmax ht)
    rw [hflag, hclosed, hpc]
    refine ⟨hstored, fun hlooking hleft => hpos ?_ ?_⟩
    · exact fun heq => hlooking ((woken_eq_iff (by simp) (by simp)).mpr heq)
    · exact fun heq => hleft ((woken_eq_iff (by simp) (by simp)).mpr heq)
  awake hshut := by
    rw [hpc]
    refine ⟨fun heq => hawake hshut ?_, woken_ne_parked _⟩
    exact (woken_eq_iff (by simp) (by simp)).mp heq

theorem inv_step (h : s.Inv) (hheard : s.Heard a) (hstep : s.step a = some s') : s'.Inv := by
  obtain ⟨hroom, hall⟩ := hheard
  cases a with
  | add =>
    cases hstep
    have hpos := h.room hroom
    exact ⟨Int.le_of_lt hpos, fun _ => hpos, fun hmax => ⟨(h.closed hmax).1, fun _ _ => hpos⟩,
      h.awake⟩
  | notifyOne =>
    obtain ⟨-, hstep⟩ := Option.ite_none_right_eq_some.mp hstep
    cases hstep
    exact h.wake rfl rfl rfl id fun hshut => (h.awake hshut).1
  | store =>
    cases hstep
    exact ⟨h.nonneg, h.taking, fun hmax => ⟨rfl, (h.closed hmax).2⟩, h.awake⟩
  | max =>
    obtain ⟨hclosed, hstep⟩ := Option.ite_none_right_eq_some.mp hstep
    cases hstep
    have hpos : 0 < Int32.maxValue.toInt := by decide
    exact ⟨Int.le_of_lt hpos, fun _ => hpos, fun _ => ⟨hclosed, fun _ _ => hpos⟩, h.awake⟩
  | notifyAll =>
    obtain ⟨hsent, hstep⟩ := Option.ite_none_right_eq_some.mp hstep
    cases hstep
    exact h.wake rfl rfl rfl (fun _ => Or.inl hsent) fun _ => hall rfl hsent
  | check =>
    obtain ⟨hpc, hstep⟩ := Option.ite_none_right_eq_some.mp hstep
    cases hstep
    have hmax : 0 < s.toBroadcast ∨ s.shutDown = true → 0 < s.flag.toInt :=
      fun hmax => (h.closed hmax).2 (by rw [hpc]; simp) (by rw [hpc]; simp)
    have hlt : (0 : Int32) < s.flag ↔ 0 < s.flag.toInt := Int32.lt_iff_toInt_lt
    refine ⟨h.nonneg, ?_, fun ht => ⟨(h.closed ht).1, fun _ _ => hmax ht⟩, ?_⟩
    · intro htaking
      by_contra hzero
      rw [show (ite _ _ _ : RunPc) = .parking from if_neg (hlt.not.mpr hzero)] at htaking
      cases htaking
    · intro hshut
      rw [show (ite _ _ _ : RunPc) = .taking from if_pos (hlt.mpr (hmax (Or.inr hshut)))]
      simp
  | park =>
    obtain ⟨hpc, hstep⟩ := Option.ite_none_right_eq_some.mp hstep
    cases hstep
    refine ⟨h.nonneg, nofun, fun ht => ⟨(h.closed ht).1, fun _ _ => ?_⟩, ?_⟩
    · exact (h.closed ht).2 (by rw [hpc]; simp) (by rw [hpc]; simp)
    · exact fun hshut => absurd hpc (h.awake hshut).1
  | wake =>
    obtain ⟨hpc, hstep⟩ := Option.ite_none_right_eq_some.mp hstep
    cases hstep
    refine ⟨h.nonneg, nofun, fun ht => ⟨(h.closed ht).1, fun _ _ => ?_⟩, fun _ => by simp⟩
    exact (h.closed ht).2 (by rw [hpc]; simp) (by rw [hpc]; simp)
  | take =>
    obtain ⟨hpc, hstep⟩ := Option.ite_none_right_eq_some.mp hstep
    cases hstep
    have hpos := h.taking hpc
    have hminus := toInt_take hpos
    refine ⟨by rw [hminus]; omega, nofun, fun ht => ⟨(h.closed ht).1, ?_⟩, fun _ => by simp⟩
    exact fun hne => absurd rfl hne
  | look =>
    obtain ⟨-, hstep⟩ := Option.ite_none_right_eq_some.mp hstep
    cases hstep
    refine ⟨h.nonneg, ?_, ?_, ?_⟩
    · intro htaking
      dsimp only at htaking
      split at htaking <;> cases htaking
    · intro ht
      obtain ⟨hclosed, -⟩ := h.closed ht
      refine ⟨hclosed, fun _ hleft => absurd ?_ hleft⟩
      exact if_pos hclosed
    · intro hshut
      rw [show (ite _ _ _ : RunPc) = .left from if_pos (h.closed (Or.inr hshut)).1]
      simp

/-! ### Getting out -/

/-- How many steps `Run` has to go. -/
def rank : RunPc → Nat
  | .checking | .parking | .parked => 3
  | .taking => 2
  | .looking => 1
  | .left => 0

/-- Once a `Shutdown` has come to its end, only `Run` itself changes where it is, and goes on. -/
theorem Inv.shut_step (h : s.Inv) (hshut : s.shutDown = true) (hroom : s.Room a)
    (hstep : s.step a = some s') :
    s'.Inv ∧ s'.shutDown = true ∧ rank s'.pc + [a].countP ClosingStep.own = rank s.pc := by
  obtain ⟨hparking, hparked⟩ := h.awake hshut
  obtain ⟨hclosed, hpos⟩ := h.closed (Or.inr hshut)
  refine ⟨inv_step h ⟨hroom, fun _ _ => hparking⟩ hstep, ?_⟩
  have hwoken : s.pc.woken = s.pc := by
    cases hpc : s.pc with
    | parked => exact absurd hpc hparked
    | _ => rfl
  cases a with
  | add | store =>
    cases hstep
    exact ⟨hshut, rfl⟩
  | max =>
    simp only [step, if_pos hclosed] at hstep
    cases hstep
    exact ⟨hshut, rfl⟩
  | notifyOne =>
    simp only [step, hwoken] at hstep
    split at hstep
    · cases hstep
      exact ⟨hshut, rfl⟩
    · cases hstep
  | notifyAll =>
    simp only [step, hwoken] at hstep
    split at hstep
    · cases hstep
      exact ⟨rfl, rfl⟩
    · cases hstep
  | check =>
    obtain ⟨hpc, hstep⟩ := Option.ite_none_right_eq_some.mp hstep
    cases hstep
    have hflag : (0 : Int32) < s.flag :=
      Int32.lt_iff_toInt_lt.mpr (hpos (by rw [hpc]; simp) (by rw [hpc]; simp))
    refine ⟨hshut, ?_⟩
    rw [show (ite _ _ _ : RunPc) = .taking from if_pos hflag, hpc]
    rfl
  | park =>
    simp only [step, if_neg hparking] at hstep
    cases hstep
  | wake =>
    simp only [step, if_neg hparked] at hstep
    cases hstep
  | take =>
    obtain ⟨hpc, hstep⟩ := Option.ite_none_right_eq_some.mp hstep
    cases hstep
    rw [hpc]
    exact ⟨hshut, rfl⟩
  | look =>
    obtain ⟨hpc, hstep⟩ := Option.ite_none_right_eq_some.mp hstep
    cases hstep
    refine ⟨hshut, ?_⟩
    rw [show (ite _ _ _ : RunPc) = .left from if_pos hclosed, hpc]
    rfl

theorem Inv.shut_run (h : s.Inv) (hshut : s.shutDown = true) {as : List ClosingStep}
    (hroom : Along step Room s as) (hrun : run step s as = some s') :
    s'.Inv ∧ s'.shutDown = true ∧ rank s'.pc + as.countP ClosingStep.own = rank s.pc := by
  induction as generalizing s with
  | nil =>
    cases hrun
    exact ⟨h, hshut, rfl⟩
  | cons a as ih =>
    obtain ⟨hfirst, hrest⟩ := along_cons.mp hroom
    obtain ⟨t, ht, htail⟩ := run_cons_eq_some.mp hrun
    obtain ⟨hinv, hshut', hone⟩ := h.shut_step hshut hfirst ht
    obtain ⟨hinv', hshut'', hmany⟩ := ih hinv hshut' (hrest t ht) htail
    have hcount : ([a] ++ as).countP ClosingStep.own =
        [a].countP ClosingStep.own + as.countP ClosingStep.own := List.countP_append
    rw [List.singleton_append] at hcount
    exact ⟨hinv', hshut'', by omega⟩

/-- A `Run` that is not blocked and has not left has a step of its own. -/
theorem own_enabled (hleft : s.pc ≠ .left) (hparked : s.pc ≠ .parked) :
    ∃ a, a.own = true ∧ (s.step a).isSome := by
  cases hpc : s.pc with
  | checking => exact ⟨.check, rfl, by simp [step, hpc]⟩
  | parking => exact ⟨.park, rfl, by simp [step, hpc]⟩
  | parked => exact absurd hpc hparked
  | taking => exact ⟨.take, rfl, by simp [step, hpc]⟩
  | looking => exact ⟨.look, rfl, by simp [step, hpc]⟩
  | left => exact absurd hpc hleft

theorem Inv.getsOut (h : s.Inv) (hshut : s.shutDown = true) : s.GetsOut := by
  intro as s' hroom hrun
  obtain ⟨hinv, hshut', hrank⟩ := h.shut_run hshut hroom hrun
  refine ⟨fun hleft => own_enabled hleft (hinv.awake hshut').2, fun hthree => ?_⟩
  have hle : rank s.pc ≤ 3 := by cases s.pc <;> simp [rank]
  have hzero : rank s'.pc = 0 := by omega
  cases hpc : s'.pc with
  | left => rfl
  | checking | parking | parked | taking | looking =>
    rw [hpc] at hzero
    cases hzero

/-- A `Run` that a `Shutdown` has not woken up from its way to the block stays there. -/
theorem not_getsOut (hpc : s.pc = .parking) : ¬ s.GetsOut := by
  intro hout
  have hpark : s.step .park = some { s with pc := .parked } := if_pos hpc
  have hrun : run step s [.park] = some { s with pc := .parked } :=
    run_cons_eq_some.mpr ⟨_, hpark, rfl⟩
  have hroom : Along step Room s [.park] :=
    along_cons.mpr ⟨nofun, fun _ _ => along_nil _ _⟩
  obtain ⟨a, hown, henabled⟩ := (hout [.park] _ hroom hrun).1 (by simp)
  cases a <;> simp [ClosingStep.own, step] at hown henabled

theorem sees_iff (steps : List ClosingStep) : Sees steps ↔ Along step Heard {} steps := by
  constructor
  · rintro hsees before a after s heq hrun
    have hnext : ∀ s', s.step a = some s' → 0 ≤ s'.flag ∧ (s'.shutDown = true → s'.GetsOut) := by
      intro s' hstep
      refine hsees (before ++ [a]) after s' (by rw [heq]; simp) ?_
      exact run_append_eq_some.mpr ⟨s, hrun, run_cons_eq_some.mpr ⟨s', hstep, rfl⟩⟩
    refine ⟨?_, ?_⟩
    · rintro rfl hfull
      have hneg := (hnext _ rfl).1
      rw [show (Closing.mk _ _ _ _ _ _).flag = s.flag + 1 from rfl, hfull] at hneg
      exact absurd hneg (by decide)
    · rintro rfl hsent hpc
      have hstep : s.step .notifyAll = _ := if_pos hsent
      refine not_getsOut ?_ ((hnext _ hstep).2 rfl)
      show s.pc.woken = _
      rw [hpc]
      rfl
  · rintro hheard before after s rfl hrun
    have h : s.Inv := inv_run (fun _ _ _ => inv_step) inv_start (along_append.mp hheard).1 hrun
    exact ⟨Int32.le_iff_toInt_le.mpr h.nonneg, h.getsOut⟩

end Closing

/-- **The event counts, and its queue can be closed**, exactly when no notification finds the
    largest number and no `Shutdown` notifies a `Run` that is about to block. -/
theorem counts_and_sees_iff (ops : List EventOp) (steps : List ClosingStep) :
    (Counts ops ↔ Along ThreadEvent.step InRange {} ops) ∧
      (Closing.Sees steps ↔ Along Closing.step Closing.Heard {} steps) :=
  ⟨counts_iff ops, Closing.sees_iff steps⟩

/-- A notification after `notifyAll`: the counter is the smallest number, and a `Run` that looks at
    the predicate blocks.  And, without any task, a `Shutdown` while `Run` is about to block: nobody
    hears the `notify_all`. -/
theorem not_counts_notified :
    (run ThreadEvent.step {} [.max, .add]).map (fun e => (e.flag, e.ready)) =
      some (Int32.minValue, false) ∧
    ¬ Counts [.max, .add] ∧
    (run Closing.step {} [.store, .max, .notifyAll, .add, .check, .notifyOne, .park]).map
      Closing.pc = some .parked ∧
    (run Closing.step {} [.check, .store, .max, .notifyAll, .park]).map
      (fun s => (s.flag, s.shutDown, s.pc)) = some (Int32.maxValue, true, .parked) ∧
    ¬ Closing.Sees [.check, .store, .max, .notifyAll, .park] := by
  refine ⟨by decide, ?_, by decide, by decide, ?_⟩
  · intro hcounts
    have hneg := hcounts.nonneg [.max, .add] [] ⟨Int32.minValue, false⟩ rfl (by decide)
    exact absurd hneg (by decide)
  · intro hsees
    have hstate := hsees [.check, .store, .max, .notifyAll] [.park]
      ⟨Int32.maxValue, 0, 0, true, true, .parking⟩ rfl (by decide)
    exact Closing.not_getsOut rfl (hstate.2 rfl)

end StorageEngine.Net
