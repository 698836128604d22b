/-
  StorageEngine/Sharding/RunBlocking.lean
  =======================================
  **Running a function on the shards** (`EngineShardSet::RunBlockingInParallel`, and
  `UringProactorPool::AwaitOnAll`, where every proactor is selected).

  The caller counts the selected proactors, puts a task into the queue of each, and waits for
  a latch in its own frame; a task calls the function and counts the latch down.  Nobody looks
  at the result of `DispatchBrief`, so that a full queue loses the task.  Callers are the
  threads of the proactors, inside a task, and other threads; any number of calls go on at the
  same time, between other tasks.
-/
import StorageEngine.StepMachine
import Mathlib.Data.List.Nodup
import Mathlib.Data.List.Perm.Subperm
import Mathlib.Logic.Function.Basic

namespace StorageEngine.Sharding

open StorageEngine.StepMachine

/-- A thread that calls. -/
inductive Caller where
  | proactor (i : Nat)
  | outside (n : Nat)
deriving DecidableEq, Repr

/-- A task of a proactor: one of a call, with `&func` and `&latch` of the `no`-th call of `c`, or
    another one. -/
inductive PoolTask (T : Type) where
  | shard (c : Caller) (no : Nat)
  | other (t : T)

/-- What the thread of a proactor is at: nothing, a task, or `latch.count_down()` after the
    function has returned. -/
inductive Running (T : Type) where
  | idle
  | task (t : PoolTask T)
  | counting (c : Caller) (no : Nat)

/-- The frame of a call: `pred`, the rounds of the second loop that are done, and the latch, with
    the shards on which the function has run, those that have counted down, and those whose task
    was refused. -/
structure ShardCall where
  pred : Nat → Bool
  next : Nat
  latch : Nat
  executed : List Nat := []
  counted : List Nat := []
  refused : List Nat := []

/-- The proactors that `pred` selects. -/
def ShardCall.selected (size : Nat) (k : ShardCall) : List Nat := (List.range size).filter k.pred

/-- After the first loop. -/
def ShardCall.new (size : Nat) (pred : Nat → Bool) : ShardCall :=
  { pred := pred, next := 0, latch := ((List.range size).filter pred).length }

/-- The pool and the calls.  `fault` says that a task has used the frame of a call that is over,
    or that a latch was counted down below zero. -/
structure Pool (T : Type) where
  queue : Nat → List (PoolTask T)
  running : Nat → Running T
  call : Caller → Option ShardCall
  no : Caller → Nat
  returned : List (Caller × ShardCall)
  fault : Bool

inductive PoolAction (T : Type) where
  | begin (c : Caller) (pred : Nat → Bool)
  /-- A round of the second loop; the queue may refuse. -/
  | next (c : Caller) (accepted : Bool)
  /-- `latch.wait()` returns. -/
  | wait (c : Caller)
  | post (i : Nat) (t : T)
  /-- The next step of the thread of a proactor. -/
  | advance (i : Nat)

namespace Pool

variable {T : Type}

def start : Pool T := ⟨fun _ => [], fun _ => .idle, fun _ => none, fun _ => 0, [], false⟩

def push (s : Pool T) (i : Nat) (t : PoolTask T) : Pool T :=
  { s with queue := Function.update s.queue i (s.queue i ++ [t]) }

def setRunning (s : Pool T) (i : Nat) (r : Running T) : Pool T :=
  { s with running := Function.update s.running i r }

def setCall (s : Pool T) (c : Caller) (k : Option ShardCall) : Pool T :=
  { s with call := Function.update s.call c k }

def failed (s : Pool T) : Pool T := { s with fault := true }

/-- A proactor takes a task off its queue. -/
def take (s : Pool T) (i : Nat) (t : PoolTask T) (rest : List (PoolTask T)) : Pool T :=
  { s with queue := Function.update s.queue i rest }.setRunning i (.task t)

/-- A call returns. -/
def finish (s : Pool T) (c : Caller) (k : ShardCall) : Pool T :=
  { s with
    no := Function.update s.no c (s.no c + 1)
    returned := s.returned ++ [(c, k)] }.setCall c none

/-- The thread of a proactor calls while it is at a task. -/
def mayCall (s : Pool T) : Caller → Bool
  | .proactor i =>
    match s.running i with
    | .task (.other _) => true
    | _ => false
  | .outside _ => true

/-- The next step of the thread of a proactor.  Inside a call it has none. -/
def advance (s : Pool T) (i : Nat) : Option (Pool T) :=
  match s.running i with
  | .idle =>
    match s.queue i with
    | [] => none
    | t :: rest => some (s.take i t rest)
  | .task (.other _) =>
    match s.call (.proactor i) with
    | some _ => none
    | none => some (s.setRunning i .idle)
  | .task (.shard c no) =>
    match s.call c with
    | some k =>
      if no = s.no c then
        some ((s.setRunning i (.counting c no)).setCall c
          (some { k with executed := k.executed ++ [i] }))
      else some s.failed
    | none => some s.failed
  | .counting c no =>
    match s.call c with
    | some k =>
      if no = s.no c ∧ 0 < k.latch then
        some ((s.setRunning i .idle).setCall c
          (some { k with latch := k.latch - 1, counted := k.counted ++ [i] }))
      else some s.failed
    | none => some s.failed

def step (size capacity : Nat) (s : Pool T) : PoolAction T → Option (Pool T)
  | .begin c pred =>
    match s.call c with
    | some _ => none
    | none => if s.mayCall c then some (s.setCall c (some (.new size pred))) else none
  | .next c accepted =>
    match s.call c with
    | none => none
    | some k =>
      if k.next < size then
        if k.pred k.next then
          if accepted then
            if (s.queue k.next).length < capacity then
              some ((s.push k.next (.shard c (s.no c))).setCall c
                (some { k with next := k.next + 1 }))
            else none
          else some (s.setCall c
            (some { k with next := k.next + 1, refused := k.refused ++ [k.next] }))
        else some (s.setCall c (some { k with next := k.next + 1 }))
      else none
  | .wait c =>
    match s.call c with
    | none => none
    | some k => if k.next = size ∧ k.latch = 0 then some (s.finish c k) else none
  | .post i t => if (s.queue i).length < capacity then some (s.push i (.other t)) else none
  | .advance i => s.advance i

end Pool

/-! ### The frame of a call -/

namespace ShardCall

variable {size : Nat} {k : ShardCall} {held counting : Nat → Prop}

theorem mem_selected {i : Nat} : i ∈ k.selected size ↔ i < size ∧ k.pred i = true := by
  simp [selected]

/-- The call, for the proactors `held` that have a task of it and those that are `counting` down:
    the rounds so far have put every selected proactor in one place. -/
structure Inv (size : Nat) (k : ShardCall) (held counting : Nat → Prop) : Prop where
  next_le : k.next ≤ size
  latch : k.latch + k.counted.length = (k.selected size).length
  counted_nodup : k.counted.Nodup
  executed_nodup : k.executed.Nodup
  sent : ∀ i, (i < k.next ∧ k.pred i = true) ↔ i ∈ k.refused ∨ held i ∨ i ∈ k.counted
  held_apart : ∀ i, held i → i ∉ k.refused ∧ i ∉ k.counted
  refused_apart : ∀ i ∈ k.refused, i ∉ k.counted
  executed : ∀ i, i ∈ k.executed ↔ i ∈ k.counted ∨ counting i

theorem inv_new (size : Nat) (pred : Nat → Bool) (hheld : ∀ i, ¬ held i)
    (hcounting : ∀ i, ¬ counting i) :
    (new size pred).Inv size held counting where
  next_le := Nat.zero_le _
  latch := rfl
  counted_nodup := List.nodup_nil
  executed_nodup := List.nodup_nil
  sent i := by simp [new, hheld i]
  held_apart i h := absurd h (hheld i)
  refused_apart i h := absurd h List.not_mem_nil
  executed i := by simp [new, hcounting i]

/-- The frame only depends on who has a task. -/
theorem Inv.congr (h : k.Inv size held counting) {held' counting' : Nat → Prop}
    (hheld : ∀ i, held' i ↔ held i) (hcounting : ∀ i, counting' i ↔ counting i) :
    k.Inv size held' counting' := by
  have hh : held' = held := funext fun i => propext (hheld i)
  have hc : counting' = counting := funext fun i => propext (hcounting i)
  rw [hh, hc]
  exact h

theorem Inv.mem_selected_of_sent (h : k.Inv size held counting) {i : Nat} (hi : i < k.next)
    (hpred : k.pred i = true) : i ∈ k.selected size :=
  mem_selected.mpr ⟨Nat.lt_of_lt_of_le hi h.next_le, hpred⟩

theorem Inv.selected_of_held (h : k.Inv size held counting) {i : Nat} (hi : held i) :
    i ∈ k.selected size := by
  obtain ⟨hlt, hpred⟩ := (h.sent i).mpr (Or.inr (Or.inl hi))
  exact h.mem_selected_of_sent hlt hpred

theorem Inv.counted_subset (h : k.Inv size held counting) : k.counted ⊆ k.selected size := by
  intro i hi
  obtain ⟨hlt, hpred⟩ := (h.sent i).mpr (Or.inr (Or.inr hi))
  exact h.mem_selected_of_sent hlt hpred

/-- As long as a selected proactor has not counted down, the latch is not at zero. -/
theorem Inv.latch_pos (h : k.Inv size held counting) {i : Nat} (hi : i ∈ k.selected size)
    (hnot : i ∉ k.counted) : 0 < k.latch := by
  have hnodup : (i :: k.counted).Nodup := List.nodup_cons.mpr ⟨hnot, h.counted_nodup⟩
  have hsub : i :: k.counted ⊆ k.selected size := List.cons_subset.mpr ⟨hi, h.counted_subset⟩
  have hlength := (hnodup.subperm hsub).length_le
  have hlatch := h.latch
  rw [List.length_cons] at hlength
  omega

/-- The rounds that put no task into a queue. -/
theorem Inv.pass (h : k.Inv size held counting) (hnext : k.next < size)
    (hpred : ¬ k.pred k.next = true) :
    { k with next := k.next + 1 }.Inv size held counting := by
  refine ⟨hnext, h.latch, h.counted_nodup, h.executed_nodup, ?_, h.held_apart,
    h.refused_apart, h.executed⟩
  intro i
  rw [← h.sent i]
  constructor
  · rintro ⟨hlt, hi⟩
    rcases Nat.lt_succ_iff_lt_or_eq.mp hlt with hlt | rfl
    · exact ⟨hlt, hi⟩
    · exact absurd hi hpred
  · rintro ⟨hlt, hi⟩
    exact ⟨Nat.lt_succ_of_lt hlt, hi⟩

/-- The next proactor is in none of the places. -/
theorem Inv.next_fresh (h : k.Inv size held counting) :
    k.next ∉ k.refused ∧ ¬ held k.next ∧ k.next ∉ k.counted := by
  have hnot := mt (h.sent k.next).mpr fun hlt => Nat.lt_irrefl _ hlt.1
  rw [not_or, not_or] at hnot
  exact hnot

theorem Inv.refuse (h : k.Inv size held counting) (hnext : k.next < size)
    (hpred : k.pred k.next = true) :
    { k with next := k.next + 1, refused := k.refused ++ [k.next] }.Inv size held counting := by
  obtain ⟨-, hheld, hcounted⟩ := h.next_fresh
  refine ⟨hnext, h.latch, h.counted_nodup, h.executed_nodup, ?_, ?_, ?_, h.executed⟩
  · intro i
    have hsent := h.sent i
    simp only [List.mem_append, List.mem_singleton, Nat.lt_succ_iff_lt_or_eq]
    constructor
    · rintro ⟨hlt | rfl, hi⟩
      · rcases hsent.mp ⟨hlt, hi⟩ with hr | hplace
        · exact Or.inl (Or.inl hr)
        · exact Or.inr hplace
      · exact Or.inl (Or.inr rfl)
    · rintro ((hr | rfl) | hplace)
      · obtain ⟨hlt, hi⟩ := hsent.mpr (Or.inl hr)
        exact ⟨Or.inl hlt, hi⟩
      · exact ⟨Or.inr rfl, hpred⟩
      · obtain ⟨hlt, hi⟩ := hsent.mpr (Or.inr hplace)
        exact ⟨Or.inl hlt, hi⟩
  · intro i hi
    obtain ⟨hr, hc⟩ := h.held_apart i hi
    refine ⟨?_, hc⟩
    rw [List.mem_append, List.mem_singleton, not_or]
    refine ⟨hr, ?_⟩
    rintro rfl
    exact hheld hi
  · intro i hi
    rcases List.mem_append.mp hi with hi | hi
    · exact h.refused_apart i hi
    · rw [List.mem_singleton.mp hi]
      exact hcounted

theorem Inv.push (h : k.Inv size held counting) (hnext : k.next < size)
    (hpred : k.pred k.next = true) :
    { k with next := k.next + 1 }.Inv size (fun i => held i ∨ i = k.next) counting := by
  obtain ⟨hrefused, -, hcounted⟩ := h.next_fresh
  refine ⟨hnext, h.latch, h.counted_nodup, h.executed_nodup, ?_, ?_, h.refused_apart, h.executed⟩
  · intro i
    have hsent := h.sent i
    simp only [Nat.lt_succ_iff_lt_or_eq]
    constructor
    · rintro ⟨hlt | rfl, hi⟩
      · rcases hsent.mp ⟨hlt, hi⟩ with hr | hh | hc
        · exact Or.inl hr
        · exact Or.inr (Or.inl (Or.inl hh))
        · exact Or.inr (Or.inr hc)
      · exact Or.inr (Or.inl (Or.inr rfl))
    · rintro (hr | (hh | rfl) | hc)
      · obtain ⟨hlt, hi⟩ := hsent.mpr (Or.inl hr)
        exact ⟨Or.inl hlt, hi⟩
      · obtain ⟨hlt, hi⟩ := hsent.mpr (Or.inr (Or.inl hh))
        exact ⟨Or.inl hlt, hi⟩
      · exact ⟨Or.inr rfl, hpred⟩
      · obtain ⟨hlt, hi⟩ := hsent.mpr (Or.inr (Or.inr hc))
        exact ⟨Or.inl hlt, hi⟩
  · rintro i (hi | rfl)
    · exact h.held_apart i hi
    · exact ⟨hrefused, hcounted⟩

/-- The function has run on proactor `j`. -/
theorem Inv.execute (h : k.Inv size held counting) {j : Nat} (hj : held j) (hnot : ¬ counting j) :
    { k with executed := k.executed ++ [j] }.Inv size held (fun i => counting i ∨ i = j) := by
  refine ⟨h.next_le, h.latch, h.counted_nodup, ?_, h.sent, h.held_apart, h.refused_apart, ?_⟩
  · refine List.nodup_append.mpr ⟨h.executed_nodup, List.nodup_singleton j, ?_⟩
    rintro i hi _ hj' rfl
    obtain rfl := List.mem_singleton.mp hj'
    rcases (h.executed i).mp hi with hc | hc
    · exact (h.held_apart i hj).2 hc
    · exact hnot hc
  · intro i
    rw [List.mem_append, List.mem_singleton, h.executed i, or_assoc]

/-- Proactor `j` counts down. -/
theorem Inv.count (h : k.Inv size held counting) {j : Nat} (hj : held j) (hcounting : counting j) :
    { k with latch := k.latch - 1, counted := k.counted ++ [j] }.Inv size (fun i => held i ∧ i ≠ j)
      (fun i => counting i ∧ i ≠ j) := by
  obtain ⟨hrefused, hnot⟩ := h.held_apart j hj
  have hpos := h.latch_pos (h.selected_of_held hj) hnot
  have hlatch := h.latch
  refine ⟨h.next_le, ?_, ?_, h.executed_nodup, ?_, ?_, ?_, ?_⟩
  · show k.latch - 1 + (k.counted ++ [j]).length = _
    rw [List.length_append, List.length_singleton]
    have hselected : (k.selected size).length = (({ k with
      latch := k.latch - 1, counted := k.counted ++ [j] } : ShardCall).selected size).length := rfl
    omega
  · refine List.nodup_append.mpr ⟨h.counted_nodup, List.nodup_singleton j, ?_⟩
    rintro i hi _ hj' rfl
    obtain rfl := List.mem_singleton.mp hj'
    exact hnot hi
  · intro i
    rw [h.sent i, List.mem_append, List.mem_singleton]
    by_cases hij : i = j
    · subst hij
      simp [hj]
    · simp [hij]
  · rintro i ⟨hi, hij⟩
    obtain ⟨hr, hc⟩ := h.held_apart i hi
    refine ⟨hr, ?_⟩
    rw [List.mem_append, List.mem_singleton, not_or]
    exact ⟨hc, hij⟩
  · intro i hi
    rw [List.mem_append, List.mem_singleton, not_or]
    refine ⟨h.refused_apart i hi, ?_⟩
    rintro rfl
    exact hrefused hi
  · intro i
    rw [h.executed i, List.mem_append, List.mem_singleton]
    by_cases hij : i = j
    · subst hij
      simp [hcounting]
    · simp [hij]

/-- What `latch.wait()` knows: every selected proactor has run the function and counted down. -/
theorem Inv.done (h : k.Inv size held counting) (hcounting : ∀ i, counting i → held i)
    (hlatch : k.latch = 0) : k.executed.Perm (k.selected size) ∧ ∀ i, ¬ held i := by
  have hall : ∀ i ∈ k.selected size, i ∈ k.counted := by
    intro i hi
    by_contra hnot
    exact absurd (h.latch_pos hi hnot) (by omega)
  have hnone : ∀ i, ¬ held i := fun i hi => (h.held_apart i hi).2 (hall i (h.selected_of_held hi))
  refine ⟨?_, hnone⟩
  refine (List.perm_ext_iff_of_nodup h.executed_nodup (List.nodup_range.filter _)).mpr ?_
  intro i
  rw [h.executed i]
  constructor
  · rintro (hc | hc)
    · exact h.counted_subset hc
    · exact absurd (hcounting i hc) (hnone i)
  · exact fun hi => Or.inl (hall i hi)

/-- The frame later on in the same call. -/
structure Later (k k' : ShardCall) : Prop where
  pred : k'.pred = k.pred
  refused : k.refused <+: k'.refused

end ShardCall

/-! ### The steps -/

variable {T : Type}

/-- The call that a task belongs to. -/
def PoolTask.owner : PoolTask T → Option (Caller × Nat)
  | shard c no => some (c, no)
  | other _ => none

def Running.owner : Running T → Option (Caller × Nat)
  | idle => none
  | task t => t.owner
  | counting c no => some (c, no)

/-- The steps that are left to the task of a proactor. -/
def Running.steps : Running T → Nat
  | idle => 0
  | counting _ _ => 1
  | task _ => 2

namespace Pool

/-- The calls that have a task at a proactor. -/
def owners (s : Pool T) (i : Nat) : List (Caller × Nat) :=
  (s.running i).owner.toList ++ (s.queue i).filterMap PoolTask.owner

variable {size capacity : Nat} {s s' : Pool T}

/-- What a step can do. -/
inductive Moves (size capacity : Nat) (s : Pool T) : PoolAction T → Pool T → Prop
  | begin {c : Caller} {pred : Nat → Bool} (hcall : s.call c = none) (hmay : s.mayCall c = true) :
    Moves size capacity s (.begin c pred) (s.setCall c (some (.new size pred)))
  | pass {c : Caller} {accepted : Bool} {k : ShardCall} (hcall : s.call c = some k)
      (hnext : k.next < size) (hpred : ¬ k.pred k.next = true) :
    Moves size capacity s (.next c accepted) (s.setCall c (some { k with next := k.next + 1 }))
  | push {c : Caller} {k : ShardCall} (hcall : s.call c = some k) (hnext : k.next < size)
      (hpred : k.pred k.next = true) (hroom : (s.queue k.next).length < capacity) :
    Moves size capacity s (.next c true)
      ((s.push k.next (.shard c (s.no c))).setCall c (some { k with next := k.next + 1 }))
  | refuse {c : Caller} {k : ShardCall} (hcall : s.call c = some k) (hnext : k.next < size)
      (hpred : k.pred k.next = true) :
    Moves size capacity s (.next c false)
      (s.setCall c (some { k with next := k.next + 1, refused := k.refused ++ [k.next] }))
  | wait {c : Caller} {k : ShardCall} (hcall : s.call c = some k) (hnext : k.next = size)
      (hlatch : k.latch = 0) :
    Moves size capacity s (.wait c) (s.finish c k)
  | post {i : Nat} {t : T} (hroom : (s.queue i).length < capacity) :
    Moves size capacity s (.post i t) (s.push i (.other t))
  | take {i : Nat} {t : PoolTask T} {rest : List (PoolTask T)} (hrunning : s.running i = .idle)
      (hqueue : s.queue i = t :: rest) :
    Moves size capacity s (.advance i) (s.take i t rest)
  | finished {i : Nat} {t : T} (hrunning : s.running i = .task (.other t))
      (hcall : s.call (.proactor i) = none) :
    Moves size capacity s (.advance i) (s.setRunning i .idle)
  | execute {i : Nat} {c : Caller} {k : ShardCall}
      (hrunning : s.running i = .task (.shard c (s.no c))) (hcall : s.call c = some k) :
    Moves size capacity s (.advance i)
      ((s.setRunning i (.counting c (s.no c))).setCall c
        (some { k with executed := k.executed ++ [i] }))
  | count {i : Nat} {c : Caller} {k : ShardCall} (hrunning : s.running i = .counting c (s.no c))
      (hcall : s.call c = some k) (hlatch : 0 < k.latch) :
    Moves size capacity s (.advance i)
      ((s.setRunning i .idle).setCall c
        (some { k with latch := k.latch - 1, counted := k.counted ++ [i] }))
  /-- The frame of a call that is over, or a latch at zero. -/
  | fault {i : Nat} {c : Caller} {no : Nat} (howner : (c, no) ∈ s.owners i)
      (hbad : ∀ k, s.call c = some k → no = s.no c → s.running i = .counting c no ∧ k.latch = 0) :
    Moves size capacity s (.advance i) s.failed

theorem moves_of_advance {i : Nat} (h : s.advance i = some s') :
    Moves size capacity s (.advance i) s' := by
  unfold advance at h
  cases hrunning : s.running i with
  | idle =>
    rw [hrunning] at h
    dsimp only at h
    split at h
    · cases h
    · rename_i t rest hqueue
      obtain rfl := Option.some.inj h
      exact .take hrunning hqueue
  | task t =>
    cases t with
    | other t =>
      rw [hrunning] at h
      dsimp only at h
      split at h
      · cases h
      · rename_i hcall
        obtain rfl := Option.some.inj h
        exact .finished hrunning hcall
    | shard c no =>
      have howner : (c, no) ∈ s.owners i := by
        simp [owners, hrunning, Running.owner, PoolTask.owner]
      rw [hrunning] at h
      dsimp only at h
      split at h
      · rename_i k hcall
        split at h
        · rename_i hno
          subst hno
          obtain rfl := Option.some.inj h
          exact .execute hrunning hcall
        · rename_i hno
          obtain rfl := Option.some.inj h
          exact .fault howner fun _ _ heq => absurd heq hno
      · rename_i hcall
        obtain rfl := Option.some.inj h
        refine .fault howner fun k hk => ?_
        rw [hcall] at hk
        cases hk
  | counting c no =>
    have howner : (c, no) ∈ s.owners i := by simp [owners, hrunning, Running.owner]
    rw [hrunning] at h
    dsimp only at h
    split at h
    · rename_i k hcall
      split at h
      · rename_i hlive
        obtain ⟨rfl, hlatch⟩ := hlive
        obtain rfl := Option.some.inj h
        exact .count hrunning hcall hlatch
      · rename_i hbad
        obtain rfl := Option.some.inj h
        refine .fault howner fun k' hk' heq => ⟨hrunning, ?_⟩
        rw [hcall] at hk'
        obtain rfl := Option.some.inj hk'
        exact Nat.eq_zero_of_not_pos fun hpos => hbad ⟨heq, hpos⟩
    · rename_i hcall
      obtain rfl := Option.some.inj h
      refine .fault howner fun k hk => ?_
      rw [hcall] at hk
      cases hk

theorem moves_of_step {a : PoolAction T} (h : step size capacity s a = some s') :
    Moves size capacity s a s' := by
  cases a with
  | begin c pred =>
    rw [step] at h
    split at h
    · cases h
    · rename_i hcall
      obtain ⟨hmay, h⟩ := Option.ite_none_right_eq_some.mp h
      obtain rfl := Option.some.inj h
      exact .begin hcall hmay
  | next c accepted =>
    rw [step] at h
    split at h
    · cases h
    · rename_i k hcall
      obtain ⟨hnext, h⟩ := Option.ite_none_right_eq_some.mp h
      split at h
      · rename_i hpred
        cases accepted with
        | true =>
          rw [if_pos rfl] at h
          obtain ⟨hroom, h⟩ := Option.ite_none_right_eq_some.mp h
          obtain rfl := Option.some.inj h
          exact .push hcall hnext hpred hroom
        | false =>
          rw [if_neg Bool.false_ne_true] at h
          obtain rfl := Option.some.inj h
          exact .refuse hcall hnext hpred
      · rename_i hpred
        obtain rfl := Option.some.inj h
        exact .pass hcall hnext hpred
  | wait c =>
    rw [step] at h
    split at h
    · cases h
    · rename_i k hcall
      obtain ⟨⟨hnext, hlatch⟩, h⟩ := Option.ite_none_right_eq_some.mp h
      obtain rfl := Option.some.inj h
      exact .wait hcall hnext hlatch
  | post i t =>
    rw [step] at h
    obtain ⟨hroom, h⟩ := Option.ite_none_right_eq_some.mp h
    obtain rfl := Option.some.inj h
    exact .post hroom
  | advance i => exact moves_of_advance h

/-! ### The invariant -/

/-- The function has returned on proactor `i` for the call of `c`, and the latch is next. -/
def counting (s : Pool T) (c : Caller) (i : Nat) : Prop := s.running i = .counting c (s.no c)

theorem owners_push (s : Pool T) (j : Nat) (t : PoolTask T) (i : Nat) :
    (s.push j t).owners i = if i = j then s.owners i ++ t.owner.toList else s.owners i := by
  unfold owners push
  dsimp only
  by_cases hij : i = j
  · subst hij
    cases h : t.owner <;> simp [h]
  · simp [hij]

theorem owners_setRunning {i : Nat} {r : Running T} (h : r.owner = (s.running i).owner) (j : Nat) :
    (s.setRunning i r).owners j = s.owners j := by
  unfold owners setRunning
  dsimp only
  by_cases hij : j = i
  · subst hij
    simp [h]
  · simp [hij]

theorem owners_take {i : Nat} {t : PoolTask T} {rest : List (PoolTask T)}
    (hrunning : s.running i = .idle) (hqueue : s.queue i = t :: rest)
    (j : Nat) : (s.take i t rest).owners j = s.owners j := by
  unfold owners take setRunning
  dsimp only
  by_cases hij : j = i
  · subst hij
    cases h : t.owner <;> simp [hrunning, hqueue, Running.owner, h]
  · simp [hij]

theorem owner_mem {i : Nat} {x : Caller × Nat} (h : (s.running i).owner = some x) :
    x ∈ s.owners i := by
  simp [owners, h]

structure Inv (size : Nat) (s : Pool T) : Prop where
  nodup : ∀ i, (s.owners i).Nodup
  alive : ∀ i x, x ∈ s.owners i → x.2 = s.no x.1 ∧ s.call x.1 ≠ none
  call : ∀ c k, s.call c = some k → k.Inv size (fun i => (c, s.no c) ∈ s.owners i) (s.counting c)
  mayCall : ∀ c, s.call c ≠ none → s.mayCall c = true
  self : ∀ i k, s.call (.proactor i) = some k → i ∉ k.counted
  returned : ∀ x ∈ s.returned, x.2.executed.Perm (x.2.selected size)
  fault : s.fault = false

theorem inv_start (size : Nat) : (start : Pool T).Inv size where
  nodup _ := List.nodup_nil
  alive _ _ h := absurd h List.not_mem_nil
  call _ _ h := nomatch h
  mayCall _ h := absurd rfl h
  self _ _ h := nomatch h
  returned _ h := absurd h List.not_mem_nil
  fault := rfl

/-- Two states in which the proactors look alike to the calls. -/
structure SameTasks (s s' : Pool T) : Prop where
  owners : ∀ i, s'.owners i = s.owners i
  counting : ∀ c i, s'.counting c i ↔ s.counting c i
  mayCall : ∀ c, s.call c ≠ none → s'.mayCall c = s.mayCall c

/-- A step of the other tasks. -/
theorem Inv.same (h : s.Inv size) (hsame : SameTasks s s') (hcall : s'.call = s.call)
    (hno : s'.no = s.no) (hreturned : s'.returned = s.returned)
    (hfault : s'.fault = s.fault) : s'.Inv size := by
  refine ⟨?_, ?_, ?_, ?_, ?_, ?_, hfault.trans h.fault⟩
  · intro i
    rw [hsame.owners]
    exact h.nodup i
  · intro i x hx
    rw [hsame.owners] at hx
    rw [hno, hcall]
    exact h.alive i x hx
  · intro c k hk
    rw [hcall] at hk
    refine (h.call c k hk).congr ?_ (hsame.counting c)
    intro i
    rw [hno, hsame.owners]
  · intro c hc
    rw [hcall] at hc
    rw [hsame.mayCall c hc]
    exact h.mayCall c hc
  · intro i k hk
    rw [hcall] at hk
    exact h.self i k hk
  · rw [hreturned]
    exact h.returned

/-- A step of the call of `c`, which the other calls do not notice. -/
structure StepsCall (c : Caller) (k : ShardCall) (s s' : Pool T) : Prop where
  call : s'.call = Function.update s.call c (some k)
  no : s'.no = s.no
  returned : s'.returned = s.returned
  fault : s'.fault = s.fault
  nodup : ∀ i, (s'.owners i).Nodup
  owners : ∀ i x, x ≠ (c, s.no c) → (x ∈ s'.owners i ↔ x ∈ s.owners i)
  counting : ∀ c', c' ≠ c → ∀ i, s'.counting c' i ↔ s.counting c' i
  mayCall : ∀ c', s.mayCall c' = true → s'.mayCall c' = true

theorem Inv.steps (h : s.Inv size) {c : Caller} {k : ShardCall} (hsteps : StepsCall c k s s')
    (hmay : s.mayCall c = true)
    (hk : k.Inv size (fun i => (c, s.no c) ∈ s'.owners i) (s'.counting c))
    (hself : ∀ i, c = .proactor i → i ∉ k.counted) : s'.Inv size := by
  have hcall : ∀ c', c' ≠ c → s'.call c' = s.call c' := fun c' hne => by
    rw [hsteps.call, Function.update_of_ne hne]
  have hcaller : s'.call c = some k := by
    rw [hsteps.call, Function.update_self]
  refine ⟨hsteps.nodup, ?_, ?_, ?_, ?_, ?_, hsteps.fault.trans h.fault⟩
  · intro i x hx
    rw [hsteps.no]
    by_cases hxc : x = (c, s.no c)
    · subst hxc
      exact ⟨rfl, by rw [hcaller]; nofun⟩
    · obtain ⟨hno, halive⟩ := h.alive i x ((hsteps.owners i x hxc).mp hx)
      have hne : x.1 ≠ c := by
        intro heq
        refine hxc (Prod.ext heq ?_)
        rw [hno, heq]
      rw [hcall x.1 hne]
      exact ⟨hno, halive⟩
  · intro c' k' hk'
    by_cases hne : c' = c
    · subst hne
      rw [hcaller] at hk'
      obtain rfl := Option.some.inj hk'
      rw [hsteps.no]
      exact hk
    · rw [hcall c' hne] at hk'
      refine (h.call c' k' hk').congr ?_ (hsteps.counting c' hne)
      intro i
      rw [hsteps.no]
      exact hsteps.owners i _ fun heq => hne (Prod.mk.inj heq).1
  · intro c' hc'
    by_cases hne : c' = c
    · subst hne
      exact hsteps.mayCall _ hmay
    · rw [hcall c' hne] at hc'
      exact hsteps.mayCall c' (h.mayCall c' hc')
  · intro i k' hk'
    by_cases hne : Caller.proactor i = c
    · rw [hne, hcaller] at hk'
      obtain rfl := Option.some.inj hk'
      exact hself i hne.symm
    · rw [hcall _ hne] at hk'
      exact h.self i k' hk'
  · rw [hsteps.returned]
    exact h.returned

/-- A step of a call that only changes its frame. -/
theorem Inv.setCall (h : s.Inv size) {c : Caller} {k : ShardCall} (hmay : s.mayCall c = true)
    (hk : k.Inv size (fun i => (c, s.no c) ∈ s.owners i) (s.counting c))
    (hself : ∀ i, c = .proactor i → i ∉ k.counted) : (s.setCall c (some k)).Inv size :=
  h.steps ⟨rfl, rfl, rfl, rfl, h.nodup, fun _ _ _ => Iff.rfl, fun _ _ _ => Iff.rfl,
    fun _ hc => hc⟩ hmay hk
    hself

/-- A proactor whose thread is not at another task does not call. -/
theorem mayCall_setRunning {i : Nat} {r : Running T} (h : s.mayCall (.proactor i) = false)
    {c : Caller} (hc : s.mayCall c = true) : (s.setRunning i r).mayCall c = true := by
  cases c with
  | outside n => rfl
  | proactor j =>
    by_cases hij : j = i
    · subst hij
      rw [h] at hc
      cases hc
    · have hsame : (s.setRunning i r).running j = s.running j := Function.update_of_ne hij _ _
      simpa only [mayCall, hsame] using hc

theorem Inv.push (h : s.Inv size) {c : Caller} {k : ShardCall} (hcall : s.call c = some k)
    (hnext : k.next < size) (hpred : k.pred k.next = true) :
    ((s.push k.next (.shard c (s.no c))).setCall c (some { k with next := k.next + 1 })).Inv
      size := by
  have hk := h.call c k hcall
  have hmem : ∀ i x, x ∈ (s.push k.next (.shard c (s.no c))).owners i ↔
      x ∈ s.owners i ∨ i = k.next ∧ x = (c, s.no c) := by
    intro i x
    rw [owners_push]
    split
    · rename_i heq
      simp [heq, PoolTask.owner]
    · rename_i hne
      simp [hne]
  refine h.steps ⟨rfl, rfl, rfl, rfl, ?_, ?_, fun _ _ _ => Iff.rfl, ?_⟩
    (h.mayCall c (by rw [hcall]; nofun)) ?_ ?_
  · intro i
    show ((s.push k.next (.shard c (s.no c))).owners i).Nodup
    rw [owners_push]
    split
    · rename_i heq
      subst heq
      refine List.nodup_append.mpr ⟨h.nodup _, List.nodup_singleton _, ?_⟩
      rintro x hx _ hx' rfl
      obtain rfl := List.mem_singleton.mp hx'
      exact hk.next_fresh.2.1 hx
    · exact h.nodup i
  · intro i x hne
    refine (hmem i x).trans ?_
    simp [hne]
  · intro c' hc'
    cases c' with
    | proactor j => exact hc'
    | outside n => rfl
  · refine (hk.push hnext hpred).congr ?_ fun _ => Iff.rfl
    intro i
    refine (hmem i _).trans ?_
    simp
  · intro i hi
    subst hi
    exact h.self i k hcall

/-- The thread of a proactor moves on in a task of a call. -/
theorem Inv.running (h : s.Inv size) {i : Nat} {c : Caller} {r : Running T} {k k' : ShardCall}
    (hcall : s.call c = some k) (howner : (s.running i).owner = some (c, s.no c))
    (hmay : s.mayCall (.proactor i) = false)
    (hnodup : ∀ j, ((s.setRunning i r).owners j).Nodup)
    (howners : ∀ j x, x ≠ (c, s.no c) → (x ∈ (s.setRunning i r).owners j ↔ x ∈ s.owners j))
    (hother : ∀ c', c' ≠ c → r ≠ .counting c' (s.no c'))
    (hk : k'.Inv size (fun j => (c, s.no c) ∈ (s.setRunning i r).owners j)
      ((s.setRunning i r).counting c))
    (hself : ∀ j, c = .proactor j → j ∉ k'.counted) :
    ((s.setRunning i r).setCall c (some k')).Inv size := by
  refine h.steps ⟨rfl, rfl, rfl, rfl, hnodup, howners, ?_, ?_⟩
    (h.mayCall c (by rw [hcall]; nofun)) hk hself
  · intro c' hne j
    by_cases hij : j = i
    · subst hij
      refine iff_of_false ?_ ?_
      · intro hr
        refine hother c' hne ?_
        have hself' : (s.setRunning j r).running j = r := Function.update_self _ _ _
        exact hself'.symm.trans hr
      · intro hr
        rw [show s.running j = .counting c' (s.no c') from hr] at howner
        exact hne (Prod.mk.inj (Option.some.inj howner)).1
    · have hsame : (s.setRunning i r).running j = s.running j := Function.update_of_ne hij _ _
      unfold Pool.counting
      show (s.setRunning i r).running j = _ ↔ _
      rw [hsame]
      rfl
  · exact fun c' hc' => mayCall_setRunning hmay hc'

theorem Inv.execute (h : s.Inv size) {i : Nat} {c : Caller} {k : ShardCall}
    (hrunning : s.running i = .task (.shard c (s.no c))) (hcall : s.call c = some k) :
    ((s.setRunning i (.counting c (s.no c))).setCall c
      (some { k with executed := k.executed ++ [i] })).Inv size := by
  have howner : (s.running i).owner = some (c, s.no c) := by rw [hrunning]; rfl
  have howners : ∀ j, (s.setRunning i (.counting c (s.no c))).owners j = s.owners j :=
    owners_setRunning howner.symm
  refine h.running hcall howner (by simp [Pool.mayCall, hrunning]) ?_ ?_ ?_ ?_ ?_
  · intro j
    rw [howners]
    exact h.nodup j
  · intro j x _
    rw [howners]
  · rintro c' hne ⟨⟩
    exact hne rfl
  · have hnot : ¬ s.counting c i := by
      unfold Pool.counting
      rw [hrunning]
      nofun
    refine ((h.call c k hcall).execute (owner_mem howner) hnot).congr ?_ ?_
    · intro j
      rw [howners]
    · intro j
      by_cases hij : j = i
      · subst hij
        exact iff_of_true (Function.update_self _ _ _) (Or.inr rfl)
      · have hsame : (s.setRunning i (.counting c (s.no c))).running j = s.running j :=
          Function.update_of_ne hij _ _
        unfold Pool.counting
        rw [hsame]
        exact (or_iff_left hij).symm
  · rintro j rfl
    exact h.self j k hcall

theorem Inv.count (h : s.Inv size) {i : Nat} {c : Caller} {k : ShardCall}
    (hrunning : s.running i = .counting c (s.no c)) (hcall : s.call c = some k) :
    ((s.setRunning i .idle).setCall c
      (some { k with latch := k.latch - 1, counted := k.counted ++ [i] })).Inv size := by
  have howner : (s.running i).owner = some (c, s.no c) := by rw [hrunning]; rfl
  have hself : s.owners i = (c, s.no c) :: (s.setRunning i .idle).owners i := by
    simp [owners, setRunning, hrunning, Running.owner]
  have hne : ∀ j, j ≠ i → (s.setRunning i .idle).owners j = s.owners j := by
    intro j hij
    simp [owners, setRunning, hij]
  have hnodup := h.nodup i
  rw [hself, List.nodup_cons] at hnodup
  refine h.running hcall howner (by simp [Pool.mayCall, hrunning]) ?_ ?_ (fun _ _ => nofun) ?_ ?_
  · intro j
    by_cases hij : j = i
    · subst hij
      exact hnodup.2
    · rw [hne j hij]
      exact h.nodup j
  · intro j x hx
    by_cases hij : j = i
    · subst hij
      rw [hself, List.mem_cons]
      exact (or_iff_right hx).symm
    · rw [hne j hij]
  · refine ((h.call c k hcall).count (owner_mem howner) hrunning).congr ?_ ?_
    · intro j
      by_cases hij : j = i
      · subst hij
        exact iff_of_false hnodup.1 fun hj => hj.2 rfl
      · rw [hne j hij]
        exact (and_iff_left hij).symm
    · intro j
      by_cases hij : j = i
      · subst hij
        refine iff_of_false ?_ fun hj => hj.2 rfl
        unfold Pool.counting setRunning
        simp
      · have hsame : (s.setRunning i .idle).running j = s.running j := Function.update_of_ne hij _ _
        unfold Pool.counting
        rw [hsame]
        exact (and_iff_left hij).symm
  · rintro j rfl
    -- inside its own call the thread is at the task that calls
    have hmay := h.mayCall (.proactor j) (by rw [hcall]; nofun)
    rw [List.mem_append, List.mem_singleton, not_or]
    refine ⟨h.self j k hcall, ?_⟩
    rintro rfl
    simp [Pool.mayCall, hrunning] at hmay

theorem Inv.finish (h : s.Inv size) {c : Caller} {k : ShardCall} (hcall : s.call c = some k)
    (hlatch : k.latch = 0) : (s.finish c k).Inv size := by
  obtain ⟨hperm, hnone⟩ := (h.call c k hcall).done (fun i hi => owner_mem (by rw [hi]; rfl)) hlatch
  have hother : ∀ i x, x ∈ s.owners i → x.1 ≠ c := by
    intro i x hx heq
    obtain ⟨hno, -⟩ := h.alive i x hx
    refine hnone i ?_
    rw [← heq, ← hno]
    exact hx
  have hcall' : ∀ c', c' ≠ c → (s.finish c k).call c' = s.call c' := fun c' hne =>
    Function.update_of_ne hne _ _
  have hno' : ∀ c', c' ≠ c → (s.finish c k).no c' = s.no c' := fun c' hne =>
    Function.update_of_ne hne _ _
  have hself : (s.finish c k).call c = none := Function.update_self _ _ _
  refine ⟨h.nodup, ?_, ?_, ?_, ?_, ?_, h.fault⟩
  · intro i x hx
    have hne := hother i x hx
    rw [hcall' _ hne, hno' _ hne]
    exact h.alive i x hx
  · intro c' k' hk'
    by_cases hne : c' = c
    · rw [hne, hself] at hk'
      cases hk'
    · rw [hcall' c' hne] at hk'
      refine (h.call c' k' hk').congr ?_ ?_
      · intro i
        rw [hno' c' hne]
        exact Iff.rfl
      · intro i
        unfold Pool.counting
        rw [hno' c' hne]
        exact Iff.rfl
  · intro c' hc'
    by_cases hne : c' = c
    · rw [hne, hself] at hc'
      exact absurd rfl hc'
    · rw [hcall' c' hne] at hc'
      have hmay := h.mayCall c' hc'
      cases c' <;> exact hmay
  · intro i k' hk'
    by_cases hne : Caller.proactor i = c
    · rw [hne, hself] at hk'
      cases hk'
    · rw [hcall' _ hne] at hk'
      exact h.self i k' hk'
  · intro x hx
    rcases List.mem_append.mp hx with hx | hx
    · exact h.returned x hx
    · obtain rfl := List.mem_singleton.mp hx
      exact hperm

/-- The other tasks of a proactor. -/
theorem sameTasks_push (s : Pool T) (i : Nat) (t : T) : SameTasks s (s.push i (.other t)) where
  owners j := by
    rw [owners_push]
    split
    · exact List.append_nil _
    · rfl
  counting _ _ := Iff.rfl
  mayCall c _ := by cases c <;> rfl

theorem sameTasks_of_running {i : Nat} (hrunning : ∀ j, j ≠ i → s'.running j = s.running j)
    (howners : ∀ j, s'.owners j = s.owners j) (hno : s'.no = s.no)
    (hcounting : ∀ c, s'.running i ≠ .counting c (s.no c) ∧ s.running i ≠ .counting c (s.no c))
    (hcall : s.call (.proactor i) = none) : SameTasks s s' where
  owners := howners
  counting c j := by
    unfold Pool.counting
    rw [hno]
    by_cases hij : j = i
    · subst hij
      exact iff_of_false (hcounting c).1 (hcounting c).2
    · rw [hrunning j hij]
  mayCall c hc := by
    cases c with
    | outside n => rfl
    | proactor j =>
      have hij : j ≠ i := by
        rintro rfl
        exact hc hcall
      simp only [Pool.mayCall, hrunning j hij]

theorem Inv.moves (h : s.Inv size) {a : PoolAction T} (hmoves : Moves size capacity s a s') :
    s'.Inv size := by
  cases hmoves with
  | @begin c pred hcall hmay =>
    refine h.setCall hmay (ShardCall.inv_new size pred ?_ ?_) fun _ _ => List.not_mem_nil
    · exact fun i hi => (h.alive i _ hi).2 hcall
    · exact fun i hi => (h.alive i _ (owner_mem (by rw [hi]; rfl))).2 hcall
  | @pass c _ k hcall hnext hpred =>
    refine h.setCall (h.mayCall c (by rw [hcall]; nofun)) ((h.call c k hcall).pass hnext hpred) ?_
    rintro i rfl
    exact h.self i k hcall
  | push hcall hnext hpred hroom => exact h.push hcall hnext hpred
  | @refuse c k hcall hnext hpred =>
    refine h.setCall (h.mayCall c (by rw [hcall]; nofun)) ((h.call c k hcall).refuse hnext hpred) ?_
    rintro i rfl
    exact h.self i k hcall
  | wait hcall hnext hlatch => exact h.finish hcall hlatch
  | post hroom => exact h.same (sameTasks_push s _ _) rfl rfl rfl rfl
  | @take i t rest hrunning hqueue =>
    have hcall : s.call (.proactor i) = none := by
      by_contra hc
      have hmay := h.mayCall _ hc
      simp [Pool.mayCall, hrunning] at hmay
    refine h.same (sameTasks_of_running (i := i) ?_ (owners_take hrunning hqueue) rfl ?_ hcall)
      rfl rfl rfl rfl
    · exact fun j hij => Function.update_of_ne hij _ _
    · intro c
      rw [hrunning]
      refine ⟨?_, nofun⟩
      have hat : (s.take i t rest).running i = .task t := Function.update_self _ _ _
      rw [hat]
      nofun
  | @finished i t hrunning hcall =>
    have howner : (.idle : Running T).owner = (s.running i).owner := by rw [hrunning]; rfl
    refine h.same (sameTasks_of_running (i := i) ?_ (owners_setRunning howner) rfl ?_ hcall)
      rfl rfl rfl rfl
    · exact fun j hij => Function.update_of_ne hij _ _
    · intro c
      rw [hrunning]
      refine ⟨?_, nofun⟩
      have hat : (s.setRunning i .idle).running i = .idle := Function.update_self _ _ _
      rw [hat]
      nofun
  | execute hrunning hcall => exact h.execute hrunning hcall
  | count hrunning hcall hlatch => exact h.count hrunning hcall
  | @fault i c no howner hbad =>
    obtain ⟨hno, halive⟩ := h.alive i _ howner
    obtain ⟨k, hk⟩ := Option.ne_none_iff_exists'.mp halive
    dsimp only at hno hk
    subst hno
    obtain ⟨-, hlatch⟩ := hbad k hk rfl
    have hinv := h.call c k hk
    exact absurd (hinv.latch_pos (hinv.selected_of_held howner) (hinv.held_apart i howner).2)
      (by omega)

theorem inv_step {a : PoolAction T} (h : s.Inv size) (hstep : step size capacity s a = some s') :
    s'.Inv size :=
  h.moves (moves_of_step hstep)

theorem inv_run_from {as : List (PoolAction T)} (h : s.Inv size)
    (hrun : run (step size capacity) s as = some s') : s'.Inv size := by
  refine @inv_run _ _ _ (Inv size) (fun _ _ => True) ?_ _ _ _ h (fun _ _ _ _ _ _ => trivial) hrun
  exact fun _ _ _ h _ hstep => inv_step h hstep

/-! ### Calls that do not return -/

/-- A queue has refused a task of the call, or the caller waits for itself. -/
def Stuck (size : Nat) (s : Pool T) (c : Caller) : Prop :=
  ∃ k, s.call c = some k ∧ (k.refused ≠ [] ∨ ∃ i ∈ k.selected size, c = .proactor i)

/-- A call goes on until its latch is at zero. -/
theorem call_of_moves {a : PoolAction T} (hmoves : Moves size capacity s a s') {c : Caller}
    {k : ShardCall} (hcall : s.call c = some k) : k.latch = 0 ∨ ∃ k', s'.call c = some k' ∧
    k.Later k' := by
  have hsame : ∃ k', s.call c = some k' ∧ k.Later k' := ⟨k, hcall, rfl, List.prefix_rfl⟩
  have hupdate : ∀ {c₁ : Caller} {k₁ k₁' : ShardCall}, s.call c₁ = some k₁ → k₁.Later k₁' →
      ∃ k', Function.update s.call c₁ (some k₁') c = some k' ∧ k.Later k' := by
    intro c₁ k₁ k₁' hcall₁ hlater
    by_cases hc : c = c₁
    · subst hc
      rw [hcall] at hcall₁
      obtain rfl := Option.some.inj hcall₁
      exact ⟨k₁', Function.update_self _ _ _, hlater⟩
    · rw [Function.update_of_ne hc]
      exact hsame
  cases hmoves with
  | @begin c₁ pred hnone hmay =>
    refine Or.inr ?_
    have hc : c ≠ c₁ := by
      rintro rfl
      rw [hcall] at hnone
      cases hnone
    exact ⟨k, (Function.update_of_ne hc _ _).trans hcall, rfl, List.prefix_rfl⟩
  | pass hcall₁ => exact Or.inr (hupdate hcall₁ ⟨rfl, List.prefix_rfl⟩)
  | push hcall₁ => exact Or.inr (hupdate hcall₁ ⟨rfl, List.prefix_rfl⟩)
  | refuse hcall₁ => exact Or.inr (hupdate hcall₁ ⟨rfl, List.prefix_append _ _⟩)
  | @wait c₁ k₁ hcall₁ hnext hlatch =>
    by_cases hc : c = c₁
    · subst hc
      rw [hcall] at hcall₁
      obtain rfl := Option.some.inj hcall₁
      exact Or.inl hlatch
    · exact Or.inr ⟨k, (Function.update_of_ne hc _ _).trans hcall, rfl, List.prefix_rfl⟩
  | execute _ hcall₁ => exact Or.inr (hupdate hcall₁ ⟨rfl, List.prefix_rfl⟩)
  | count _ hcall₁ => exact Or.inr (hupdate hcall₁ ⟨rfl, List.prefix_rfl⟩)
  | post | take | finished | fault => exact Or.inr hsame

theorem Inv.latch_of_stuck (h : s.Inv size) {c : Caller} {k : ShardCall} (hcall : s.call c = some k)
    (hstuck : k.refused ≠ [] ∨ ∃ i ∈ k.selected size, c = .proactor i) : 0 < k.latch := by
  have hk := h.call c k hcall
  rcases hstuck with hrefused | ⟨i, hi, rfl⟩
  · obtain ⟨i, hi⟩ := List.exists_mem_of_ne_nil _ hrefused
    obtain ⟨hlt, hpred⟩ := (hk.sent i).mpr (Or.inl hi)
    exact hk.latch_pos (hk.mem_selected_of_sent hlt hpred) (hk.refused_apart i hi)
  · exact hk.latch_pos hi (h.self i k hcall)

theorem stuck_step {c : Caller} (h : s.Stuck size c) (hinv : s.Inv size) {a : PoolAction T}
    (hmoves : Moves size capacity s a s') : s'.Stuck size c := by
  obtain ⟨k, hcall, hstuck⟩ := h
  have hpos := hinv.latch_of_stuck hcall hstuck
  rcases call_of_moves hmoves hcall with hzero | ⟨k', hcall', hlater⟩
  · exact absurd hzero (Nat.ne_of_gt hpos)
  · refine ⟨k', hcall', ?_⟩
    rcases hstuck with hrefused | hself
    · refine Or.inl fun hnil => hrefused ?_
      rw [← List.prefix_nil, ← hnil]
      exact hlater.refused
    · refine Or.inr ?_
      unfold ShardCall.selected at hself ⊢
      rw [hlater.pred]
      exact hself

theorem stuck_run {c : Caller} {as : List (PoolAction T)} (h : s.Stuck size c) (hinv : s.Inv size)
    (hrun : run (step size capacity) s as = some s') : s'.Stuck size c := by
  have hboth : s'.Inv size ∧ s'.Stuck size c := by
    refine @inv_run _ _ _ (fun s => Inv size s ∧ Stuck size s c)
      (fun _ _ => True) ?_ _ _ _ ⟨hinv, h⟩
      (fun _ _ _ _ _ _ => trivial) hrun
    rintro t a t' ⟨ht, hstuck⟩ - hstep
    exact ⟨inv_step ht hstep, stuck_step hstuck ht (moves_of_step hstep)⟩
  exact hboth.2

/-- What a call promises: a call that has returned has run the function once on each shard that it
    selects, one that goes on has run it at most once; no task outlives its call, and no latch is
    counted down below zero.  A call that a queue has refused, or that waits for its own thread,
    goes on for ever. -/
structure Joins (size capacity : Nat) (s : Pool T) : Prop where
  returned : ∀ x ∈ s.returned, x.2.executed.Perm (x.2.selected size)
  meanwhile : ∀ c k, s.call c = some k → k.executed.Nodup ∧ k.executed ⊆ k.selected size
  tasks : ∀ i x, x ∈ s.owners i → x.2 = s.no x.1 ∧ ∃ k, s.call x.1 = some k ∧ i ∈ k.selected size
  defined : s.fault = false
  never : ∀ c, s.Stuck size c → ∀ bs s', run (step size capacity) s bs = some s' → s'.Stuck size c

theorem Inv.joins (h : s.Inv size) (capacity : Nat) : s.Joins size capacity where
  returned := h.returned
  meanwhile c k hcall := by
    have hk := h.call c k hcall
    refine ⟨hk.executed_nodup, ?_⟩
    intro i hi
    rcases (hk.executed i).mp hi with hcounted | hcounting
    · exact hk.counted_subset hcounted
    · exact hk.selected_of_held (owner_mem (by rw [hcounting]; rfl))
  tasks i x hx := by
    obtain ⟨hno, halive⟩ := h.alive i x hx
    obtain ⟨k, hk⟩ := Option.ne_none_iff_exists'.mp halive
    refine ⟨hno, k, hk, (h.call x.1 k hk).selected_of_held ?_⟩
    rw [← hno]
    exact hx
  defined := h.fault
  never _ hstuck _ _ hrun := stuck_run hstuck h hrun

/-- The action is not a call from the thread of a proactor. -/
def FromOutside : PoolAction T → Prop
  | .begin (.proactor _) _ => False
  | _ => True

instance decidableFromOutside : ∀ a : PoolAction T, Decidable (FromOutside a)
  | .begin (.proactor _) _ => isFalse id
  | .begin (.outside _) _ => isTrue trivial
  | .next _ _ => isTrue trivial
  | .wait _ => isTrue trivial
  | .post _ _ => isTrue trivial
  | .advance _ => isTrue trivial

/-- No thread of a proactor is inside a call. -/
def Free (s : Pool T) : Prop := ∀ i, s.call (.proactor i) = none

theorem Free.outside (h : s.Free) {c : Caller} {k : ShardCall}
    (hcall : s.call c = some k) (i : Nat) :
    Caller.proactor i ≠ c := by
  rintro rfl
  rw [h i] at hcall
  cases hcall

theorem Free.update (h : s.Free) {c : Caller} (hc : ∀ i, Caller.proactor i ≠ c)
    {k : Option ShardCall} (hcall : s'.call = Function.update s.call c k) : s'.Free := by
  intro i
  rw [hcall, Function.update_of_ne (hc i)]
  exact h i

theorem free_step {a : PoolAction T} (h : s.Free) (houtside : FromOutside a)
    (hstep : step size capacity s a = some s') : s'.Free := by
  cases moves_of_step hstep with
  | @begin c pred hcall hmay =>
    cases c with
    | proactor i => exact absurd houtside id
    | outside n => exact h.update (by simp) rfl
  | pass hcall => exact h.update (h.outside hcall) rfl
  | push hcall => exact h.update (h.outside hcall) rfl
  | refuse hcall => exact h.update (h.outside hcall) rfl
  | wait hcall => exact h.update (h.outside hcall) rfl
  | execute _ hcall => exact h.update (h.outside hcall) rfl
  | count _ hcall => exact h.update (h.outside hcall) rfl
  | post | take | finished | fault => exact h

/-- What the proactors leave of the calls when they work: the loop of the caller stands where it
    stood. -/
structure Works (s s' : Pool T) : Prop where
  call : ∀ c k, s.call c = some k →
    ∃ k', s'.call c = some k' ∧ k'.pred = k.pred ∧ k'.next = k.next ∧ k'.refused = k.refused
  free : s.Free → s'.Free
  no : s'.no = s.no

theorem Works.refl (s : Pool T) : Works s s := ⟨fun _ k h => ⟨k, h, rfl, rfl, rfl⟩, id, rfl⟩

theorem Works.trans {s'' : Pool T} (h : Works s s') (h' : Works s' s'') : Works s s'' := by
  refine ⟨?_, fun hfree => h'.free (h.free hfree), h'.no.trans h.no⟩
  intro c k hk
  obtain ⟨k', hk', hpred, hnext, hrefused⟩ := h.call c k hk
  obtain ⟨k'', hk'', hpred', hnext', hrefused'⟩ := h'.call c k' hk'
  exact ⟨k'', hk'', hpred'.trans hpred, hnext'.trans hnext, hrefused'.trans hrefused⟩

/-- The frame of one call changes, its loop does not. -/
theorem Works.setCall {c : Caller} {k k' : ShardCall} (hcall : s.call c = some k)
    (hcalls : s'.call = Function.update s.call c (some k')) (hno : s'.no = s.no)
    (hsame : k'.pred = k.pred ∧ k'.next = k.next ∧ k'.refused = k.refused) : Works s s' := by
  refine ⟨?_, ?_, hno⟩
  · intro c₁ k₁ hk₁
    rw [hcalls]
    by_cases hc : c₁ = c
    · subst hc
      rw [hcall] at hk₁
      obtain rfl := Option.some.inj hk₁
      exact ⟨k', Function.update_self _ _ _, hsame⟩
    · exact ⟨k₁, (Function.update_of_ne hc _ _).trans hk₁, rfl, rfl, rfl⟩
  · exact fun hfree => hfree.update (hfree.outside hcall) hcalls

theorem Works.of_call (hcall : s'.call = s.call) (hno : s'.no = s.no) : Works s s' := by
  refine ⟨fun c k hk => ⟨k, by rw [hcall]; exact hk, rfl, rfl, rfl⟩, fun hfree i => ?_, hno⟩
  rw [hcall]
  exact hfree i

/-- The steps of a proactor until it is idle. -/
def weight (s : Pool T) (i : Nat) : Nat := 3 * (s.queue i).length + (s.running i).steps

/-- The proactors other than `i` stay as they are. -/
def Others (i : Nat) (s s' : Pool T) : Prop :=
  ∀ j, j ≠ i → s'.queue j = s.queue j ∧ s'.running j = s.running j

/-- A proactor whose thread is not inside a call always has a step, until it is idle. -/
theorem exists_advance (h : s.Inv size) (hfree : s.Free) {i : Nat} (hbusy : 0 < s.weight i) :
    ∃ s', s.advance i = some s' ∧ s'.weight i < s.weight i ∧ Works s s' ∧ Others i s s' := by
  have hlive : ∀ {c : Caller} {no : Nat}, (s.running i).owner = some (c, no) →
      no = s.no c ∧ ∃ k, s.call c = some k := by
    intro c no howner
    obtain ⟨hno, halive⟩ := h.alive i (c, no) (owner_mem howner)
    exact ⟨hno, Option.ne_none_iff_exists'.mp halive⟩
  unfold advance
  cases hrunning : s.running i with
  | idle =>
    cases hqueue : s.queue i with
    | nil => simp [weight, hrunning, hqueue, Running.steps] at hbusy
    | cons t rest =>
      refine ⟨_, rfl, ?_, .of_call rfl rfl, ?_⟩
      · simp [weight, take, setRunning, hrunning, hqueue, Running.steps]
        omega
      · intro j hij
        exact ⟨Function.update_of_ne hij _ _, Function.update_of_ne hij _ _⟩
  | task t =>
    cases t with
    | other t =>
      refine ⟨s.setRunning i .idle, by rw [hfree i], ?_, .of_call rfl rfl, ?_⟩
      · simp [weight, setRunning, hrunning, Running.steps]
      · exact fun j hij => ⟨rfl, Function.update_of_ne hij _ _⟩
    | shard c no =>
      obtain ⟨rfl, k, hk⟩ := hlive (by rw [hrunning]; rfl)
      dsimp only
      rw [hk]
      refine ⟨_, if_pos rfl, ?_, .setCall hk rfl rfl ⟨rfl, rfl, rfl⟩, ?_⟩
      · simp [weight, Pool.setCall, setRunning, hrunning, Running.steps]
      · exact fun j hij => ⟨rfl, Function.update_of_ne hij _ _⟩
  | counting c no =>
    have hmem : (c, no) ∈ s.owners i := owner_mem (by rw [hrunning]; rfl)
    obtain ⟨rfl, k, hk⟩ := hlive (by rw [hrunning]; rfl)
    have hinv := h.call c k hk
    have hpos := hinv.latch_pos (hinv.selected_of_held hmem) (hinv.held_apart i hmem).2
    dsimp only
    rw [hk]
    refine ⟨_, if_pos ⟨rfl, hpos⟩, ?_, .setCall hk rfl rfl ⟨rfl, rfl, rfl⟩, ?_⟩
    · simp [weight, Pool.setCall, setRunning, hrunning, Running.steps]
    · exact fun j hij => ⟨rfl, Function.update_of_ne hij _ _⟩

/-- One proactor works until it is idle. -/
theorem exists_drain (capacity : Nat) (h : s.Inv size) (hfree : s.Free) (i : Nat) :
    ∃ bs s', run (step size capacity) s bs = some s' ∧ s'.weight i = 0 ∧ Works s s' ∧
    Others i s s' := by
  induction hn : s.weight i using Nat.strongRecOn generalizing s with
  | ind n ih =>
    rcases Nat.eq_zero_or_pos n with hzero | hpos
    · exact ⟨[], s, rfl, hn.trans hzero, .refl s, fun _ _ => ⟨rfl, rfl⟩⟩
    · obtain ⟨t, hstep, hless, hworks, hothers⟩ := exists_advance h hfree (hn ▸ hpos)
      have hstep' : step size capacity s (.advance i) = some t := hstep
      obtain ⟨bs, s', hrun, hidle, hworks', hothers'⟩ :=
        ih _ (hn ▸ hless) (inv_step h hstep') (hworks.free hfree) rfl
      refine ⟨.advance i :: bs, s', run_cons_eq_some.mpr ⟨t, hstep', hrun⟩, hidle,
        hworks.trans hworks', ?_⟩
      intro j hij
      obtain ⟨hq, hr⟩ := hothers j hij
      obtain ⟨hq', hr'⟩ := hothers' j hij
      exact ⟨hq'.trans hq, hr'.trans hr⟩

/-- All of the first `n` proactors work until they are idle. -/
theorem exists_drain_all (capacity : Nat) (h : s.Inv size) (hfree : s.Free) (n : Nat) :
    ∃ bs s', run (step size capacity) s bs = some s' ∧ (∀ i < n, s'.weight i = 0) ∧ Works s s' := by
  induction n with
  | zero => exact ⟨[], s, rfl, fun i hi => absurd hi (Nat.not_lt_zero i), .refl s⟩
  | succ n ih =>
    obtain ⟨bs, t, hrun, hidle, hworks⟩ := ih
    have hinv := inv_run_from h hrun
    obtain ⟨bs', s', hrun', hidle', hworks', hothers⟩ :=
      exists_drain capacity hinv (hworks.free hfree) n
    refine ⟨bs ++ bs', s', run_append_eq_some.mpr ⟨t, hrun, hrun'⟩, ?_, hworks.trans hworks'⟩
    intro i hi
    rcases Nat.lt_succ_iff_lt_or_eq.mp hi with hlt | rfl
    · obtain ⟨hq, hr⟩ := hothers i (Nat.ne_of_lt hlt)
      unfold weight
      rw [hq, hr]
      exact hidle i hlt
    · exact hidle'

/-- The second loop can end with every task in its queue. -/
theorem exists_dispatch (hcapacity : 0 < capacity) (h : s.Inv size) (hfree : s.Free) {c : Caller}
    {k : ShardCall} (hcall : s.call c = some k) (hrefused : k.refused = []) :
    ∃ bs s' k', run (step size capacity) s bs = some s' ∧ s'.Free ∧ s'.call c = some k' ∧
      k'.next = size ∧ k'.refused = [] := by
  have hle := (h.call c k hcall).next_le
  induction hn : size - k.next generalizing s k with
  | zero => exact ⟨[], s, k, rfl, hfree, hcall, by omega, hrefused⟩
  | succ n ih =>
    have hnext : k.next < size := by omega
    obtain ⟨bs, t, hrun, hidle, hworks, -⟩ := exists_drain capacity h hfree k.next
    obtain ⟨k₁, hk₁, -, hnext₁, hrefused₁⟩ := hworks.call c k hcall
    have hinv := inv_run_from h hrun
    have hfree₁ := hworks.free hfree
    have hroom : (t.queue k₁.next).length < capacity := by
      rw [hnext₁]
      unfold weight at hidle
      omega
    have hround : ∃ t', step size capacity t (.next c true) = some t' ∧ t'.Free ∧
        ∃ k', t'.call c = some k' ∧ k'.next = k₁.next + 1 ∧ k'.refused = k₁.refused := by
      have hne := hfree₁.outside hk₁
      have hnext' : k₁.next < size := by omega
      simp only [step, hk₁, if_pos hnext', if_true, if_pos hroom]
      split
      · exact ⟨_, rfl, hfree₁.update hne rfl, _, Function.update_self _ _ _, rfl, rfl⟩
      · exact ⟨_, rfl, hfree₁.update hne rfl, _, Function.update_self _ _ _, rfl, rfl⟩
    obtain ⟨t', hstep, hfree', k', hk', hnext', hrefused'⟩ := hround
    have hinv' := inv_step hinv hstep
    obtain ⟨bs', s', k'', hrun', hlast⟩ :=
      ih hinv' hfree' hk' (by rw [hrefused', hrefused₁, hrefused])
      (hinv'.call c k' hk').next_le (by omega)
    refine ⟨bs ++ .next c true :: bs', s', k'', run_append_eq_some.mpr ⟨t, hrun, ?_⟩, hlast⟩
    exact run_cons_eq_some.mpr ⟨t', hstep, hrun'⟩

/-- With nothing refused and all proactors idle, the latch is at zero. -/
theorem Inv.latch_zero (h : s.Inv size) {c : Caller} {k : ShardCall} (hcall : s.call c = some k)
    (hnext : k.next = size) (hrefused : k.refused = []) (hidle : ∀ i < size, s.weight i = 0) :
    k.latch = 0 := by
  have hk := h.call c k hcall
  have hcounted : k.selected size ⊆ k.counted := by
    intro i hi
    obtain ⟨hlt, hpred⟩ := ShardCall.mem_selected.mp hi
    rcases (hk.sent i).mp ⟨hnext ▸ hlt, hpred⟩ with hr | hheld | hc
    · rw [hrefused] at hr
      cases hr
    · have hnone := hidle i hlt
      unfold weight at hnone
      have hqueue : s.queue i = [] := List.length_eq_zero_iff.mp (by omega)
      have hrunning : s.running i = .idle := by
        cases hr : s.running i with
        | idle => rfl
        | task | counting => simp [hr, Running.steps] at hnone
      simp [owners, hqueue, hrunning, Running.owner] at hheld
    · exact hc
  have hlength := ((List.nodup_range.filter _).subperm hcounted).length_le
  have hlatch := hk.latch
  unfold ShardCall.selected at hlatch
  omega

/-- **A call returns** in some way of going on exactly when no queue has refused it a task so far,
    as long as no thread of a proactor calls. -/
theorem returns_iff (hcapacity : 0 < capacity) {as : List (PoolAction T)}
    (hrun : run (step size capacity) start as = some s)
    (houtside : Along (step size capacity) (fun _ a => FromOutside a) start as) {c : Caller}
    {k : ShardCall} (hcall : s.call c = some k) :
    (∃ bs s', run (step size capacity) s bs = some s' ∧ s'.call c = none) ↔ k.refused = [] := by
  have hinv := inv_run_from (inv_start size) hrun
  constructor
  · rintro ⟨bs, s', hlater, hreturned⟩
    by_contra hne
    obtain ⟨k', hk', -⟩ := stuck_run ⟨k, hcall, Or.inl hne⟩ hinv hlater
    rw [hreturned] at hk'
    cases hk'
  · intro hrefused
    have hfree : s.Free := by
      refine @inv_run _ _ _ Free (fun _ a => FromOutside a) ?_ _ _ _ (fun _ => rfl) houtside hrun
      exact fun _ _ _ h ha hstep => free_step h ha hstep
    obtain ⟨bs, t, k₁, hdispatch, hfree₁, hk₁, hnext, hrefused₁⟩ :=
      exists_dispatch hcapacity hinv hfree hcall hrefused
    have hinv₁ := inv_run_from hinv hdispatch
    obtain ⟨bs', u, hdrain, hidle, hworks⟩ := exists_drain_all capacity hinv₁ hfree₁ size
    obtain ⟨k₂, hk₂, -, hnext₂, hrefused₂⟩ := hworks.call c k₁ hk₁
    have hinv₂ := inv_run_from hinv₁ hdrain
    have hlatch := hinv₂.latch_zero hk₂ (hnext₂.trans hnext) (hrefused₂.trans hrefused₁) hidle
    have hwait : step size capacity u (.wait c) = some (u.finish c k₂) := by
      simp only [step, hk₂]
      exact if_pos ⟨hnext₂.trans hnext, hlatch⟩
    refine ⟨bs ++ (bs' ++ [.wait c]), u.finish c k₂, ?_, Function.update_self _ _ _⟩
    refine run_append_eq_some.mpr ⟨t, hdispatch, run_append_eq_some.mpr ⟨u, hdrain, ?_⟩⟩
    exact run_cons_eq_some.mpr ⟨_, hwait, rfl⟩

/-- A call for two proactors whose second task finds the queue full. -/
theorem returns_iff_full : ∃ (s : Pool Nat) (k : ShardCall),
    run (step 2 1) start [.post 1 7, .begin (.outside 0) (fun _ => true), .next (.outside 0) true,
      .next (.outside 0) false] = some s ∧ s.call (.outside 0) = some k ∧
    ((∃ bs s', run (step 2 1) s bs = some s' ∧ s'.call (.outside 0) = none) ↔ k.refused = []) ∧
    k.refused = [1] := by
  have hcheck : (run (step 2 1) (start : Pool Nat) [.post 1 7, .begin (.outside 0) (fun _ => true),
      .next (.outside 0) true, .next (.outside 0) false]).bind (fun s =>
        (s.call (.outside 0)).map ShardCall.refused) = some [1] := by decide
  obtain ⟨s, hrun, hcall⟩ := Option.bind_eq_some_iff.mp hcheck
  obtain ⟨k, hk, hrefused⟩ := Option.map_eq_some_iff.mp hcall
  exact ⟨s, k, hrun, hk, returns_iff Nat.one_pos hrun (by decide) hk, hrefused⟩

end Pool

end StorageEngine.Sharding
