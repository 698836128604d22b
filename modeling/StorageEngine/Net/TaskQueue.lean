/-
  StorageEngine/Net/TaskQueue.lean
  ================================
  **The task queue of a thread** (`net/util/task_queue.hpp`, class `TaskQueue`, with the
  `ThreadEvent` of `synchronization.hpp` and `mpmc_bounded_queue.h`).

  A producer reserves a cell of the bounded queue, publishes its task there and then
  adds a token to the event; the consumer takes a token and a task.  A token may come
  from a later cell than the one at the head: if the head is reserved and not yet
  published, the consumer finds nothing, and its token is spent.
-/
import StorageEngine.SlotStore
import StorageEngine.StepMachine

namespace StorageEngine.Net

open StorageEngine.StepMachine

/-! ### The bounded queue -/

/-- `mpmc_bounded_queue`.  The positions only grow; the cell of a position is the position
    modulo the size, which the source writes as a mask. -/
structure MpmcQueue (T : Type) where
  size : Nat
  sequence : Nat → Nat
  storage : Nat → Option T
  enqueuePos : Nat
  dequeuePos : Nat

namespace MpmcQueue

variable {T : Type} (q : MpmcQueue T)

def new (size : Nat) : MpmcQueue T where
  size := size
  sequence := id
  storage := fun _ => none
  enqueuePos := 0
  dequeuePos := 0

/-- `pos & buffer_mask_`. -/
def cell (pos : Nat) : Nat := pos % q.size

/-- The cell at the enqueue position is available. -/
def Available : Prop := q.sequence (q.cell q.enqueuePos) = q.enqueuePos

/-- `try_enqueue`, up to the exchange of the position. -/
def reserve : MpmcQueue T := { q with enqueuePos := q.enqueuePos + 1 }

/-- `try_enqueue`, from the exchange on: the task and the sequence number are stored. -/
def publish (pos : Nat) (t : T) : MpmcQueue T :=
  { q with
    storage := Function.update q.storage (q.cell pos) (some t)
    sequence := Function.update q.sequence (q.cell pos) (pos + 1) }

/-- The cell at the dequeue position holds a task. -/
def HeadPublished : Prop := q.sequence (q.cell q.dequeuePos) = q.dequeuePos + 1

/-- The cell at the dequeue position is behind: `try_dequeue` fails. -/
def HeadBehind : Prop := q.sequence (q.cell q.dequeuePos) < q.dequeuePos + 1

instance : Decidable q.Available := inferInstanceAs (Decidable (_ = _))

instance : Decidable q.HeadPublished := inferInstanceAs (Decidable (_ = _))

instance : Decidable q.HeadBehind := inferInstanceAs (Decidable (_ < _))

/-- What a `try_dequeue` that succeeds takes. -/
def head : Option T := q.storage (q.cell q.dequeuePos)

/-- What it leaves: the cell is free for the position one lap later. -/
def dequeue : MpmcQueue T :=
  { q with
    dequeuePos := q.dequeuePos + 1
    storage := Function.update q.storage (q.cell q.dequeuePos) none
    sequence := Function.update q.sequence (q.cell q.dequeuePos) (q.dequeuePos + q.size) }

/-- The tasks in the queue, reserved or published. -/
def queued : Nat := q.enqueuePos - q.dequeuePos

end MpmcQueue

/-! ### Producers and the consumer -/

/-- A `TryAdd` in progress: a cell is reserved for the task, or it is published and the event
    is still to be notified. -/
inductive TryAdd (T : Type) where
  | reserved (pos : Nat) (t : T)
  | published
deriving DecidableEq, Repr

/-- `Run`: before `wait` has returned, with the token it took, and with a task. -/
inductive Consumer (T : Type) where
  | waiting
  | holding
  | executing (t : Option T)
deriving DecidableEq, Repr

/-- The queue, the flag of its event, the `TryAdd` of every producer that is in one, and the
    consumer. -/
structure TaskQueue (P T : Type) where
  queue : MpmcQueue T
  flag : Nat
  producers : P → Option (TryAdd T)
  consumer : Consumer T

inductive QueueAction (P T : Type) where
  /-- A producer begins a `TryAdd` and gets a cell.  One that finds the queue full changes
      nothing. -/
  | reserve (p : P) (t : T)
  | publish (p : P)
  | notify (p : P)
  /-- `wait` returns. -/
  | wait
  | tryDequeue
  | execute
deriving DecidableEq, Repr

namespace TaskQueue

variable {P T : Type} [DecidableEq P]

def new (size : Nat) : TaskQueue P T := ⟨.new size, 0, fun _ => none, .waiting⟩

def step (s : TaskQueue P T) : QueueAction P T → Option (TaskQueue P T)
  | .reserve p t =>
    if s.producers p = none ∧ s.queue.Available then
      some { s with
        queue := s.queue.reserve
        producers := Function.update s.producers p (some (.reserved s.queue.enqueuePos t)) }
    else none
  | .publish p =>
    match s.producers p with
    | some (.reserved pos t) =>
      some { s with
        queue := s.queue.publish pos t
        producers := Function.update s.producers p (some .published) }
    | _ => none
  | .notify p =>
    match s.producers p with
    | some .published =>
      some { s with flag := s.flag + 1, producers := Function.update s.producers p none }
    | _ => none
  | .wait =>
    match s.consumer with
    | .waiting =>
      if 0 < s.flag then some { s with flag := s.flag - 1, consumer := .holding } else none
    | _ => none
  | .tryDequeue =>
    match s.consumer with
    | .holding =>
      if s.queue.HeadPublished then
        some { s with queue := s.queue.dequeue, consumer := .executing s.queue.head }
      else if s.queue.HeadBehind then some { s with consumer := .waiting }
      else none
    | _ => none
  | .execute =>
    match s.consumer with
    | .executing _ => some { s with consumer := .waiting }
    | _ => none

/-- What a step can do, with the guard under which it does it. -/
inductive Stepped (s : TaskQueue P T) : QueueAction P T → TaskQueue P T → Prop where
  | reserve (p : P) (t : T) (idle : s.producers p = none) (room : s.queue.Available) :
      Stepped s (.reserve p t) { s with
        queue := s.queue.reserve
        producers := Function.update s.producers p (some (.reserved s.queue.enqueuePos t)) }
  | publish (p : P) {pos : Nat} {t : T} (place : s.producers p = some (.reserved pos t)) :
      Stepped s (.publish p) { s with
        queue := s.queue.publish pos t
        producers := Function.update s.producers p (some .published) }
  | notify (p : P) (place : s.producers p = some .published) :
      Stepped s (.notify p)
        { s with flag := s.flag + 1, producers := Function.update s.producers p none }
  | wait (waiting : s.consumer = .waiting) (token : 0 < s.flag) :
      Stepped s .wait { s with flag := s.flag - 1, consumer := .holding }
  | dequeued (holding : s.consumer = .holding) (head : s.queue.HeadPublished) :
      Stepped s .tryDequeue
        { s with queue := s.queue.dequeue, consumer := .executing s.queue.head }
  | missed (holding : s.consumer = .holding) (head : ¬ s.queue.HeadPublished) :
      Stepped s .tryDequeue { s with consumer := .waiting }
  | execute {t : Option T} (executing : s.consumer = .executing t) :
      Stepped s .execute { s with consumer := .waiting }

theorem stepped_of_step {s s' : TaskQueue P T} {a : QueueAction P T} (h : s.step a = some s') :
    Stepped s a s' := by
  cases a with
  | reserve p t =>
    simp only [step] at h
    split at h
    · rename_i hguard
      obtain rfl := Option.some.inj h
      exact .reserve p t hguard.1 hguard.2
    · cases h
  | publish p =>
    simp only [step] at h
    split at h
    · rename_i hp
      obtain rfl := Option.some.inj h
      exact .publish p hp
    · cases h
  | notify p =>
    simp only [step] at h
    split at h
    · rename_i hp
      obtain rfl := Option.some.inj h
      exact .notify p hp
    · cases h
  | wait =>
    simp only [step] at h
    split at h
    · rename_i hc
      split at h
      · rename_i hflag
        obtain rfl := Option.some.inj h
        exact .wait hc hflag
      · cases h
    · cases h
  | tryDequeue =>
    simp only [step] at h
    split at h
    · rename_i hc
      split at h
      · rename_i hhead
        obtain rfl := Option.some.inj h
        exact .dequeued hc hhead
      · rename_i hhead
        split at h
        · obtain rfl := Option.some.inj h
          exact .missed hc hhead
        · cases h
    · cases h
  | execute =>
    simp only [step] at h
    split at h
    · rename_i hc
      obtain rfl := Option.some.inj h
      exact .execute hc
    · cases h

/-! ### The cells -/

/-- A producer has reserved the position and not yet published its task. -/
def ReservedAt (s : TaskQueue P T) (pos : Nat) : Prop :=
  ∃ p t, s.producers p = some (.reserved pos t)

/-- The cells of one lap: those from the dequeue to the enqueue position are published, or
    reserved by one producer; the others are free. -/
structure Cells (s : TaskQueue P T) : Prop where
  two_le : 2 ≤ s.queue.size
  le : s.queue.dequeuePos ≤ s.queue.enqueuePos
  lap : s.queue.enqueuePos ≤ s.queue.dequeuePos + s.queue.size
  free : ∀ pos, s.queue.enqueuePos ≤ pos → pos < s.queue.dequeuePos + s.queue.size →
    s.queue.sequence (s.queue.cell pos) = pos
  busy : ∀ pos, s.queue.dequeuePos ≤ pos → pos < s.queue.enqueuePos →
    (s.ReservedAt pos ∧ s.queue.sequence (s.queue.cell pos) = pos) ∨
      (¬ s.ReservedAt pos ∧ s.queue.sequence (s.queue.cell pos) = pos + 1)
  reserved : ∀ pos, s.ReservedAt pos → s.queue.dequeuePos ≤ pos ∧ pos < s.queue.enqueuePos
  single : ∀ p p' pos t t', s.producers p = some (.reserved pos t) →
    s.producers p' = some (.reserved pos t') → p = p'

omit [DecidableEq P] in
theorem Cells.new {size : Nat} (h : 2 ≤ size) : (TaskQueue.new size : TaskQueue P T).Cells where
  two_le := h
  le := Nat.le_refl _
  lap := Nat.zero_le _
  free := by
    intro pos _ hlt
    exact Nat.mod_eq_of_lt (by simpa [TaskQueue.new, MpmcQueue.new] using hlt)
  busy := by
    intro pos _ hlt
    exact absurd hlt (Nat.not_lt_zero _)
  reserved := by
    rintro pos ⟨p, t, h⟩
    cases h
  single := by
    intro p p' pos t t' h
    cases h

/-- Two positions of one lap have different cells. -/
theorem cell_inj {q : MpmcQueue T} {a b : Nat} (ha : q.dequeuePos ≤ a)
    (ha' : a < q.dequeuePos + q.size) (hb : q.dequeuePos ≤ b) (hb' : b < q.dequeuePos + q.size)
    (h : q.cell a = q.cell b) : a = b := by
  rcases Nat.le_total a b with hle | hle
  · have hmod : (b - a) % q.size = 0 := Nat.sub_mod_eq_zero_of_mod_eq h.symm
    rw [Nat.mod_eq_of_lt (by omega)] at hmod
    omega
  · have hmod : (a - b) % q.size = 0 := Nat.sub_mod_eq_zero_of_mod_eq h
    rw [Nat.mod_eq_of_lt (by omega)] at hmod
    omega

section StepCells

variable {s : TaskQueue P T} (h : s.Cells)

include h

omit [DecidableEq P] in
/-- A reservation does not overtake the consumer. -/
theorem Cells.lt_lap (havailable : s.queue.Available) :
    s.queue.enqueuePos < s.queue.dequeuePos + s.queue.size := by
  refine Nat.lt_of_le_of_ne h.lap ?_
  intro heq
  have htwo := h.two_le
  have hcell : s.queue.cell s.queue.enqueuePos = s.queue.cell s.queue.dequeuePos := by
    rw [heq]
    exact Nat.add_mod_right _ _
  unfold MpmcQueue.Available at havailable
  rw [hcell] at havailable
  rcases h.busy _ (Nat.le_refl _) (by omega) with ⟨-, hseq⟩ | ⟨-, hseq⟩ <;> omega

theorem Cells.reserve {p : P} {t : T} (hidle : s.producers p = none)
    (havailable : s.queue.Available) :
    Cells { s with
      queue := s.queue.reserve
      producers := Function.update s.producers p (some (.reserved s.queue.enqueuePos t)) } := by
  have hlap := h.lt_lap havailable
  have hres : ∀ pos, ReservedAt { s with
      queue := s.queue.reserve
      producers := Function.update s.producers p (some (.reserved s.queue.enqueuePos t)) } pos ↔
        pos = s.queue.enqueuePos ∨ s.ReservedAt pos := by
    intro pos
    constructor
    · rintro ⟨p', t', hp'⟩
      by_cases heq : p' = p
      · subst heq
        simp only [Function.update_self, Option.some.injEq, TryAdd.reserved.injEq] at hp'
        exact Or.inl hp'.1.symm
      · simp only [Function.update_of_ne heq] at hp'
        exact Or.inr ⟨p', t', hp'⟩
    · rintro (rfl | ⟨p', t', hp'⟩)
      · exact ⟨p, t, Function.update_self _ _ _⟩
      · refine ⟨p', t', ?_⟩
        have hne : p' ≠ p := by
          rintro rfl
          rw [hidle] at hp'
          cases hp'
        exact (Function.update_of_ne hne _ _).trans hp'
  refine ⟨h.two_le, Nat.le_succ_of_le h.le, hlap, ?_, ?_, ?_, ?_⟩
  · intro pos hle hlt
    exact h.free pos (Nat.le_of_succ_le hle) hlt
  · intro pos hle hlt
    rw [hres]
    rcases Nat.lt_succ_iff_lt_or_eq.mp hlt with hlt | rfl
    · rcases h.busy pos hle hlt with ⟨hr, hseq⟩ | ⟨hr, hseq⟩
      · exact Or.inl ⟨Or.inr hr, hseq⟩
      · refine Or.inr ⟨?_, hseq⟩
        rintro (rfl | hr')
        · exact Nat.lt_irrefl _ hlt
        · exact hr hr'
    · exact Or.inl ⟨Or.inl rfl, havailable⟩
  · intro pos hr
    rcases (hres pos).mp hr with rfl | hr
    · exact ⟨h.le, Nat.lt_succ_self _⟩
    · exact ⟨(h.reserved pos hr).1, Nat.lt_succ_of_lt (h.reserved pos hr).2⟩
  · intro p₁ p₂ pos t₁ t₂ h₁ h₂
    have hold : ∀ p' t', p' ≠ p → Function.update s.producers p
        (some (.reserved s.queue.enqueuePos t)) p' = some (.reserved pos t') →
        s.producers p' = some (.reserved pos t') ∧ pos < s.queue.enqueuePos := by
      intro p' t' hne hp'
      rw [Function.update_of_ne hne] at hp'
      exact ⟨hp', (h.reserved pos ⟨p', t', hp'⟩).2⟩
    have hnew : ∀ t', Function.update s.producers p
        (some (.reserved s.queue.enqueuePos t)) p = some (.reserved pos t') →
        pos = s.queue.enqueuePos := by
      intro t' hp'
      simp only [Function.update_self, Option.some.injEq, TryAdd.reserved.injEq] at hp'
      exact hp'.1.symm
    by_cases hp₁ : p₁ = p <;> by_cases hp₂ : p₂ = p
    · rw [hp₁, hp₂]
    · subst hp₁
      exact absurd (hnew t₁ h₁) (Nat.ne_of_lt (hold p₂ t₂ hp₂ h₂).2)
    · subst hp₂
      exact absurd (hnew t₂ h₂) (Nat.ne_of_lt (hold p₁ t₁ hp₁ h₁).2)
    · exact h.single p₁ p₂ pos t₁ t₂ (hold p₁ t₁ hp₁ h₁).1 (hold p₂ t₂ hp₂ h₂).1

theorem Cells.publish {p : P} {pos : Nat} {t : T}
    (hp : s.producers p = some (.reserved pos t)) :
    Cells { s with
      queue := s.queue.publish pos t
      producers := Function.update s.producers p (some .published) } := by
  obtain ⟨hlo, hhi⟩ := h.reserved pos ⟨p, t, hp⟩
  have hlap := h.lap
  have hres : ∀ pos', ReservedAt { s with
      queue := s.queue.publish pos t
      producers := Function.update s.producers p (some .published) } pos' ↔
        pos' ≠ pos ∧ s.ReservedAt pos' := by
    intro pos'
    constructor
    · rintro ⟨p', t', hp'⟩
      have hne : p' ≠ p := by
        rintro rfl
        simp at hp'
      simp only [Function.update_of_ne hne] at hp'
      refine ⟨?_, p', t', hp'⟩
      rintro rfl
      exact hne (h.single p' p pos' t' t hp' hp)
    · rintro ⟨hne, p', t', hp'⟩
      refine ⟨p', t', (Function.update_of_ne ?_ _ _).trans hp'⟩
      rintro rfl
      rw [hp] at hp'
      cases hp'
      exact hne rfl
  have hseq : ∀ pos', s.queue.dequeuePos ≤ pos' → pos' < s.queue.dequeuePos + s.queue.size →
      pos' ≠ pos → (s.queue.publish pos t).sequence ((s.queue.publish pos t).cell pos') =
        s.queue.sequence (s.queue.cell pos') := by
    intro pos' hle hlt hne
    refine Function.update_of_ne ?_ _ _
    intro hcell
    exact hne (cell_inj hle hlt hlo (Nat.lt_of_lt_of_le hhi hlap) hcell)
  refine ⟨h.two_le, h.le, h.lap, ?_, ?_, ?_, ?_⟩
  · intro pos' hle hlt
    have hle' : s.queue.enqueuePos ≤ pos' := hle
    rw [hseq pos' (Nat.le_trans h.le hle') hlt (by omega)]
    exact h.free pos' hle hlt
  · intro pos' hle hlt
    rw [hres]
    by_cases hne : pos' = pos
    · subst hne
      exact Or.inr ⟨fun hr => hr.1 rfl, Function.update_self _ _ _⟩
    · rw [hseq pos' hle (Nat.lt_of_lt_of_le hlt hlap) hne, and_iff_right hne]
      exact h.busy pos' hle hlt
  · intro pos' hr
    exact h.reserved pos' ((hres pos').mp hr).2
  · intro p₁ p₂ pos' t₁ t₂ h₁ h₂
    have hold : ∀ p' t', Function.update s.producers p (some .published) p' =
        some (.reserved pos' t') → s.producers p' = some (.reserved pos' t') := by
      intro p' t' hp'
      rwa [Function.update_of_ne] at hp'
      rintro rfl
      simp at hp'
    exact h.single p₁ p₂ pos' t₁ t₂ (hold p₁ t₁ h₁) (hold p₂ t₂ h₂)

theorem Cells.notify {p : P} (hp : s.producers p = some .published) (flag : Nat) :
    Cells { s with flag := flag, producers := Function.update s.producers p none } := by
  have hprod : ∀ p' pos t, Function.update s.producers p none p' = some (.reserved pos t) ↔
      s.producers p' = some (.reserved pos t) := by
    intro p' pos t
    by_cases heq : p' = p
    · rw [heq, Function.update_self, hp]
      simp
    · rw [Function.update_of_ne heq]
  have hres : ∀ pos, ReservedAt
      { s with flag := flag, producers := Function.update s.producers p none } pos ↔
        s.ReservedAt pos :=
    fun pos => exists_congr fun p' => exists_congr fun t => hprod p' pos t
  refine ⟨h.two_le, h.le, h.lap, h.free, ?_, ?_, ?_⟩
  · intro pos hle hlt
    rw [hres]
    exact h.busy pos hle hlt
  · intro pos hr
    exact h.reserved pos ((hres pos).mp hr)
  · intro p₁ p₂ pos t₁ t₂ h₁ h₂
    exact h.single p₁ p₂ pos t₁ t₂ ((hprod _ _ _).mp h₁) ((hprod _ _ _).mp h₂)

omit [DecidableEq P] in
theorem Cells.dequeue (hhead : s.queue.HeadPublished) (c : Consumer T) :
    Cells { s with queue := s.queue.dequeue, consumer := c } := by
  have htwo := h.two_le
  have hlap := h.lap
  have hle := h.le
  unfold MpmcQueue.HeadPublished at hhead
  have hlt : s.queue.dequeuePos < s.queue.enqueuePos := by
    refine Nat.lt_of_le_of_ne hle fun heq => ?_
    have := h.free s.queue.dequeuePos (Nat.le_of_eq heq.symm) (by omega)
    omega
  have hseq : ∀ pos, s.queue.dequeuePos < pos → pos < s.queue.dequeuePos + s.queue.size →
      s.queue.dequeue.sequence (s.queue.dequeue.cell pos) =
        s.queue.sequence (s.queue.cell pos) := by
    intro pos hgt hlt'
    refine Function.update_of_ne ?_ _ _
    intro hcell
    have := cell_inj (Nat.le_of_lt hgt) hlt' (Nat.le_refl _) (by omega) hcell
    omega
  refine ⟨h.two_le, hlt, Nat.le_trans hlap (by simp only [MpmcQueue.dequeue]; omega), ?_, ?_, ?_,
    h.single⟩
  · intro pos hle' hlt'
    have hle'' : s.queue.enqueuePos ≤ pos := hle'
    have hlt'' : pos < s.queue.dequeuePos + 1 + s.queue.size := hlt'
    by_cases heq : pos = s.queue.dequeuePos + s.queue.size
    · have hcell : s.queue.dequeue.cell pos = s.queue.cell s.queue.dequeuePos := by
        rw [heq]
        exact Nat.add_mod_right _ _
      rw [hcell, heq]
      exact Function.update_self _ _ _
    · rw [hseq pos (by omega) (by omega)]
      exact h.free pos hle' (by omega)
  · intro pos hle' hlt'
    have hle'' : s.queue.dequeuePos + 1 ≤ pos := hle'
    have hlt'' : pos < s.queue.enqueuePos := hlt'
    rw [hseq pos (by omega) (by omega)]
    exact h.busy pos (by omega) hlt'
  · intro pos hr
    have hr' : s.ReservedAt pos := hr
    obtain ⟨hlo, hhi⟩ := h.reserved pos hr'
    refine ⟨Nat.lt_of_le_of_ne hlo fun heq => ?_, hhi⟩
    subst heq
    rcases h.busy _ hlo hhi with ⟨-, hs⟩ | ⟨hnot, -⟩
    · omega
    · exact hnot hr'

omit [DecidableEq P] in
/-- **Why a `try_dequeue` fails**: the head is published, or the queue is empty, or the head is
    reserved by a `TryAdd` that is still in progress. -/
theorem Cells.head_cases :
    s.queue.HeadPublished ∨
      (s.queue.HeadBehind ∧
        (s.queue.queued = 0 ∨ s.ReservedAt s.queue.dequeuePos)) := by
  have htwo := h.two_le
  unfold MpmcQueue.HeadPublished MpmcQueue.HeadBehind MpmcQueue.queued
  rcases Nat.lt_or_ge s.queue.dequeuePos s.queue.enqueuePos with hlt | hge
  · rcases h.busy _ (Nat.le_refl _) hlt with ⟨hr, hseq⟩ | ⟨-, hseq⟩
    · exact Or.inr ⟨by omega, Or.inr hr⟩
    · exact Or.inl hseq
  · have := h.free s.queue.dequeuePos hge (by omega)
    exact Or.inr ⟨by omega, Or.inl (by omega)⟩

end StepCells

theorem step_cells (s : TaskQueue P T) (a : QueueAction P T) (s' : TaskQueue P T) (h : s.Cells)
    (hstep : s.step a = some s') : s'.Cells := by
  cases stepped_of_step hstep with
  | reserve p t idle room => exact h.reserve idle room
  | publish p place => exact h.publish place
  | notify p place => exact h.notify place _
  | dequeued holding head => exact h.dequeue head _
  | wait waiting token => exact { h with }
  | missed holding head => exact { h with }
  | execute executing => exact { h with }

/-! ### Tokens and tasks -/

variable [Fintype P]

/-- The number of `TryAdd`s in progress. -/
def inProgress (s : TaskQueue P T) : Nat := SlotStore.gather Finset.univ s.producers fun _ _ => 1

/-- The tokens that are not spent: those of the event, and the one the consumer holds. -/
def tokens (s : TaskQueue P T) : Nat :=
  s.flag + match s.consumer with
    | .holding => 1
    | _ => 0

/-- The positions that are dequeued or have a token, now or with the end of a `TryAdd`. -/
def covered (s : TaskQueue P T) : Nat := s.queue.dequeuePos + s.tokens + s.inProgress

/-- No `TryAdd` is in progress, and the consumer waits without a token. -/
def Quiet (s : TaskQueue P T) : Prop :=
  (∀ p, s.producers p = none) ∧ s.consumer = .waiting ∧ s.flag = 0

/-- A `try_dequeue` finds the head published. -/
def FindsHead (s : TaskQueue P T) (a : QueueAction P T) : Prop :=
  a = .tryDequeue → s.queue.HeadPublished

omit [DecidableEq P] [Fintype P] in
theorem findsHead_of_ne {s : TaskQueue P T} {a : QueueAction P T} (h : a ≠ .tryDequeue) :
    FindsHead s a := fun heq => absurd heq h

omit [DecidableEq P] in
theorem inProgress_eq_zero {s : TaskQueue P T} (h : ∀ p, s.producers p = none) :
    s.inProgress = 0 := by
  apply SlotStore.gather_eq_zero
  intro p _ e he
  rw [h p] at he
  cases he

/-- **What a step does to the tokens**: a reservation adds a position and its cover, a
    `try_dequeue` that finds nothing uncovers a position, and every other step leaves both
    numbers as they are. -/
theorem step_account {s s' : TaskQueue P T} {a : QueueAction P T} (h : s.step a = some s') :
    (a ≠ .tryDequeue ∧ s'.queue.enqueuePos = s.queue.enqueuePos + 1 ∧
        s'.covered = s.covered + 1) ∨
      (FindsHead s a ∧ s'.queue.enqueuePos = s.queue.enqueuePos ∧ s'.covered = s.covered) ∨
      (a = .tryDequeue ∧ ¬ s.queue.HeadPublished ∧
        s'.queue.enqueuePos = s.queue.enqueuePos ∧ s.covered = s'.covered + 1) := by
  cases stepped_of_step h with
  | reserve p t idle room =>
    have hput := SlotStore.gather_put (g := fun _ (_ : TryAdd T) => 1)
      (e := .reserved s.queue.enqueuePos t) (Finset.mem_univ p) idle
    refine Or.inl ⟨by simp, rfl, ?_⟩
    simp only [covered, inProgress, hput]
    simp only [tokens, MpmcQueue.reserve]
    omega
  | publish p place =>
    have htake := SlotStore.gather_take (g := fun _ (_ : TryAdd T) => 1) (Finset.mem_univ p) place
    have hput := SlotStore.gather_put (g := fun _ (_ : TryAdd T) => 1) (e := .published)
      (Finset.mem_univ p) (Function.update_self p none s.producers)
    rw [Function.update_idem] at hput
    refine Or.inr (Or.inl ⟨findsHead_of_ne (by simp), rfl, ?_⟩)
    simp only [covered, inProgress, hput, htake]
    rfl
  | notify p place =>
    have htake := SlotStore.gather_take (g := fun _ (_ : TryAdd T) => 1) (Finset.mem_univ p) place
    refine Or.inr (Or.inl ⟨findsHead_of_ne (by simp), rfl, ?_⟩)
    simp only [covered, inProgress, ← htake]
    simp only [tokens]
    omega
  | wait waiting token =>
    refine Or.inr (Or.inl ⟨findsHead_of_ne (by simp), rfl, ?_⟩)
    simp only [covered, inProgress, tokens, waiting]
    omega
  | dequeued holding head =>
    refine Or.inr (Or.inl ⟨fun _ => head, rfl, ?_⟩)
    simp only [covered, inProgress, tokens, holding, MpmcQueue.dequeue]
    omega
  | missed holding head =>
    refine Or.inr (Or.inr ⟨rfl, head, rfl, ?_⟩)
    simp only [covered, inProgress, tokens, holding]
    omega
  | execute executing =>
    refine Or.inr (Or.inl ⟨findsHead_of_ne (by simp), rfl, ?_⟩)
    simp only [covered, inProgress, tokens, executing]

/-- No position is covered twice, and a step leaves every position covered exactly if they were
    all covered and it does not fail to dequeue. -/
theorem step_covered (s : TaskQueue P T) (a : QueueAction P T) (s' : TaskQueue P T)
    (hs : s.covered ≤ s.queue.enqueuePos) (hstep : s.step a = some s') :
    s'.covered ≤ s'.queue.enqueuePos ∧
      (s'.covered = s'.queue.enqueuePos ↔ s.covered = s.queue.enqueuePos ∧ FindsHead s a) := by
  rcases step_account hstep with ⟨hne, henq, hcov⟩ | ⟨hfinds, henq, hcov⟩ | ⟨rfl, hhead, henq, hcov⟩
  · refine ⟨by omega, ?_⟩
    rw [and_iff_left (findsHead_of_ne hne)]
    omega
  · refine ⟨by omega, ?_⟩
    rw [and_iff_left hfinds]
    omega
  · refine ⟨by omega, iff_of_false (by omega) ?_⟩
    rintro ⟨-, hfinds⟩
    exact hhead (hfinds rfl)

theorem run_covered {size : Nat} {s : TaskQueue P T} {as : List (QueueAction P T)}
    (hrun : run step (new size) as = some s) :
    s.covered ≤ s.queue.enqueuePos ∧
      (s.covered = s.queue.enqueuePos ↔ Along step FindsHead (new size) as) := by
  have hnew : (new size : TaskQueue P T).covered = 0 := by
    rw [covered, inProgress_eq_zero fun _ => rfl]
    rfl
  obtain ⟨hle, hiff⟩ := run_iff step_covered (by rw [hnew]; rfl) hrun
  exact ⟨hle, hiff.trans (and_iff_right (by rw [hnew]; rfl))⟩

/-- A consumer with a token finds the head published, or reserved by a `TryAdd` that is still in
    progress: the queue is never empty then, and the consumer never spins. -/
theorem run_head_cases {size : Nat} (hsize : 2 ≤ size) {s : TaskQueue P T}
    {as : List (QueueAction P T)} (hrun : run step (new size) as = some s)
    (hholding : s.consumer = .holding) :
    s.queue.HeadPublished ∨ (s.queue.HeadBehind ∧ s.ReservedAt s.queue.dequeuePos) := by
  have hcells : s.Cells :=
    inv_run (C := fun _ _ => True) (fun s a s' h _ => step_cells s a s' h) (.new hsize)
      (fun _ _ _ _ _ _ => trivial) hrun
  rcases hcells.head_cases with hhead | ⟨hbehind, hempty | hreserved⟩
  · exact Or.inl hhead
  · have hle := (run_covered hrun).1
    have htoken : 1 ≤ s.tokens := by simp [tokens, hholding]
    unfold covered at hle
    unfold MpmcQueue.queued at hempty
    omega
  · exact Or.inr ⟨hbehind, hreserved⟩

/-- **When no task is stranded.**  In every state that a run reaches, the tasks in the queue are
    no more than the tokens and the `TryAdd`s in progress exactly if every `try_dequeue` so
    far has found the head published; and if no `TryAdd` is in progress and the consumer
    waits without a token, the queue is empty exactly then. -/
theorem queued_le_tokens_iff (size : Nat) (s : TaskQueue P T) (as : List (QueueAction P T))
    (hrun : run step (new size) as = some s) :
    (s.queue.queued ≤ s.tokens + s.inProgress ↔ Along step FindsHead (new size) as) ∧
      (s.Quiet → (s.queue.queued = 0 ↔ Along step FindsHead (new size) as)) := by
  obtain ⟨hle, hiff⟩ := run_covered hrun
  rw [← hiff]
  unfold covered at hle ⊢
  unfold MpmcQueue.queued
  refine ⟨by omega, ?_⟩
  rintro ⟨hidle, hwaiting, hflag⟩
  have hprogress := inProgress_eq_zero hidle
  have htokens : s.tokens = 0 := by simp [tokens, hwaiting, hflag]
  omega

/-- One task that is added and executed. -/
theorem queued_le_tokens_single :
    ∃ s : TaskQueue Bool Nat,
      run step (new 128)
          [.reserve true 7, .publish true, .notify true, .wait, .tryDequeue, .execute] = some s ∧
        ((s.queue.queued ≤ s.tokens + s.inProgress ↔ Along step FindsHead (new 128)
            [.reserve true 7, .publish true, .notify true, .wait, .tryDequeue, .execute]) ∧
          (s.Quiet → (s.queue.queued = 0 ↔ Along step FindsHead (new 128)
            [.reserve true 7, .publish true, .notify true, .wait, .tryDequeue, .execute]))) :=
  ⟨_, rfl, queued_le_tokens_iff 128 _ _ rfl⟩

/-- The second of two producers is faster than the first: the consumer spends its token on the
    first cell, which is not published, and the second task stays behind. -/
theorem stranded_task :
    ∃ s : TaskQueue Bool Nat,
      run step (new 128)
          [.reserve false 1, .reserve true 2, .publish true, .notify true, .wait, .tryDequeue,
            .publish false, .notify false, .wait, .tryDequeue, .execute] = some s ∧
        s.Quiet ∧ s.queue.queued = 1 :=
  ⟨_, rfl, ⟨fun p => by cases p <;> rfl, rfl, rfl⟩, rfl⟩

end TaskQueue

end StorageEngine.Net
