/-
  StorageEngine/Net/BoundedQueue.lean
  ===================================
  **The bounded queue, access by access** (`net/util/lock_free_queues/mpmc_bounded_queue.h`).

  Any number of threads call `try_enqueue` and `try_dequeue`, and every load, exchange and
  store is a step of its own.  A thread first loads a position and the sequence number of
  its cell, then takes the position by an exchange, which may fail for no reason, then
  works on the cell and at last hands it on by a new sequence number.  The threads see one
  order of the steps, and the positions do not overflow.
-/
import StorageEngine.Net.TaskQueue

namespace StorageEngine.Net

open StorageEngine.StepMachine

/-! ### The calls -/

/-- Where a thread stands. -/
inductive QueuePc (T : Type) where
  | idle
  /-- `try_enqueue`, at the head of its loop. -/
  | enqueue (t : T)
  | enqueueAt (t : T) (pos : Nat)
  | enqueueSeen (t : T) (pos seq : Nat)
  /-- The position is taken. -/
  | storing (t : T) (pos : Nat)
  | publishing (pos : Nat)
  /-- `try_dequeue`, at the head of its loop. -/
  | dequeue
  | dequeueAt (pos : Nat)
  | dequeueSeen (pos seq : Nat)
  /-- The position is taken. -/
  | loading (pos : Nat)
  | releasing (pos : Nat) (t : Option T)

namespace QueuePc

variable {T : Type}

/-- The position that the thread is filling. -/
def fills : QueuePc T → Option Nat
  | storing _ pos | publishing pos => some pos
  | _ => none

/-- The position that the thread is emptying. -/
def drains : QueuePc T → Option Nat
  | loading pos | releasing pos _ => some pos
  | _ => none

end QueuePc

/-- The position whose cell the thread works on. -/
def QueuePc.holds {T : Type} (pc : QueuePc T) : Option Nat := pc.fills <|> pc.drains

/-- The queue, and its threads.  Two records stand beside, for the statements below: what was
    given a position, in order, and what was taken from which position. -/
structure BoundedQueue (C T : Type) where
  queue : MpmcQueue T
  pc : C → QueuePc T
  enqueued : List T
  dequeued : List (Nat × Option T)

inductive BoundedQueueAction (C T : Type) where
  | tryEnqueue (c : C) (t : T)
  | tryDequeue (c : C)
  /-- The thread's next access; an exchange succeeds only if it is not disturbed. -/
  | next (c : C) (undisturbed : Bool)

namespace BoundedQueue

variable {C T : Type} [DecidableEq C]

def new (size : Nat) : BoundedQueue C T := ⟨.new size, fun _ => .idle, [], []⟩

/-- A thread goes on. -/
def goto (s : BoundedQueue C T) (c : C) (pc : QueuePc T) : BoundedQueue C T :=
  { s with pc := Function.update s.pc c pc }

/-- The position of `try_enqueue` is exchanged. -/
def takeEnqueue (s : BoundedQueue C T) (t : T) : BoundedQueue C T :=
  { s with queue := s.queue.reserve, enqueued := s.enqueued ++ [t] }

/-- The data is constructed in its cell. -/
def store (s : BoundedQueue C T) (pos : Nat) (t : T) : BoundedQueue C T :=
  { s with
    queue := { s.queue with
      storage := Function.update s.queue.storage (s.queue.cell pos) (some t) } }

/-- The sequence number of a cell is stored. -/
def setSequence (s : BoundedQueue C T) (pos seq : Nat) : BoundedQueue C T :=
  { s with
    queue := { s.queue with
      sequence := Function.update s.queue.sequence (s.queue.cell pos) seq } }

/-- The position of `try_dequeue` is exchanged. -/
def takeDequeue (s : BoundedQueue C T) : BoundedQueue C T :=
  { s with queue := { s.queue with dequeuePos := s.queue.dequeuePos + 1 } }

/-- The data is moved out of its cell and destroyed there. -/
def unload (s : BoundedQueue C T) (pos : Nat) : BoundedQueue C T :=
  { s with
    queue := { s.queue with
      storage := Function.update s.queue.storage (s.queue.cell pos) none } }

/-- `try_dequeue` returns what it has taken. -/
def yield (s : BoundedQueue C T) (pos : Nat) (t : Option T) : BoundedQueue C T :=
  { s with dequeued := s.dequeued ++ [(pos, t)] }

/-- The next access of a thread. -/
def next (s : BoundedQueue C T) (c : C) (undisturbed : Bool) : Option (BoundedQueue C T) :=
  match s.pc c with
  | .idle => none
  | .enqueue t => some (s.goto c (.enqueueAt t s.queue.enqueuePos))
  | .enqueueAt t pos => some (s.goto c (.enqueueSeen t pos (s.queue.sequence (s.queue.cell pos))))
  | .enqueueSeen t pos seq =>
    if seq = pos then
      if s.queue.enqueuePos = pos ∧ undisturbed then some ((s.takeEnqueue t).goto c
        (.storing t pos))
      else some (s.goto c (.enqueue t))
    else if seq < pos then some (s.goto c .idle)
    else some (s.goto c (.enqueue t))
  | .storing t pos => some ((s.store pos t).goto c (.publishing pos))
  | .publishing pos => some ((s.setSequence pos (pos + 1)).goto c .idle)
  | .dequeue => some (s.goto c (.dequeueAt s.queue.dequeuePos))
  | .dequeueAt pos => some (s.goto c (.dequeueSeen pos (s.queue.sequence (s.queue.cell pos))))
  | .dequeueSeen pos seq =>
    if seq = pos + 1 then
      if s.queue.dequeuePos = pos ∧ undisturbed then some (s.takeDequeue.goto c (.loading pos))
      else some (s.goto c .dequeue)
    else if seq < pos + 1 then some (s.goto c .idle)
    else some (s.goto c .dequeue)
  | .loading pos =>
    some ((s.unload pos).goto c (.releasing pos (s.queue.storage (s.queue.cell pos))))
  | .releasing pos t =>
    some (((s.setSequence pos (pos + s.queue.size)).yield pos t).goto c .idle)

def step (s : BoundedQueue C T) : BoundedQueueAction C T → Option (BoundedQueue C T)
  | .tryEnqueue c t =>
    match s.pc c with
    | .idle => some (s.goto c (.enqueue t))
    | _ => none
  | .tryDequeue c =>
    match s.pc c with
    | .idle => some (s.goto c .dequeue)
    | _ => none
  | .next c undisturbed => s.next c undisturbed

/-! ### The positions -/

/-- A thread holds the position. -/
def Held (f : QueuePc T → Option Nat) (pc : C → QueuePc T) (pos : Nat) : Prop :=
  ∃ c, f (pc c) = some pos

/-- No two threads hold one position. -/
def OneHolds (f : QueuePc T → Option Nat) (pc : C → QueuePc T) : Prop :=
  ∀ c c' pos, f (pc c) = some pos → f (pc c') = some pos → c = c'

/-- A thread fills the cell of the position. -/
def Filling (s : BoundedQueue C T) (pos : Nat) : Prop := Held QueuePc.fills s.pc pos

/-- A thread empties the cell of the position. -/
def Draining (s : BoundedQueue C T) (pos : Nat) : Prop := Held QueuePc.drains s.pc pos

/-- What a thread knows.  A sequence number that lets it take a position is still in the cell as
    long as nobody has taken that position. -/
def Knows (s : BoundedQueue C T) : QueuePc T → Prop
  | .enqueueAt _ pos => pos ≤ s.queue.enqueuePos
  | .enqueueSeen _ pos seq =>
    pos ≤ s.queue.enqueuePos ∧
      (seq = pos → s.queue.enqueuePos = pos → s.queue.sequence (s.queue.cell pos) = pos)
  | .storing t pos => s.enqueued[pos]? = some t
  | .publishing pos => s.queue.storage (s.queue.cell pos) = s.enqueued[pos]?
  | .dequeueAt pos => pos ≤ s.queue.dequeuePos
  | .dequeueSeen pos seq =>
    pos ≤ s.queue.dequeuePos ∧
      (seq = pos + 1 → s.queue.dequeuePos = pos → s.queue.sequence (s.queue.cell pos) = pos + 1)
  | .loading pos => s.queue.storage (s.queue.cell pos) = s.enqueued[pos]?
  | .releasing pos t => t = s.enqueued[pos]?
  | _ => True

/-- The state of the cells, by their positions: free ahead of the enqueue position; being filled
    or full between the two; being emptied, or released for the next lap, behind the dequeue
    position. -/
structure Inv (s : BoundedQueue C T) : Prop where
  two_le : 2 ≤ s.queue.size
  le : s.queue.dequeuePos ≤ s.queue.enqueuePos
  lap : s.queue.enqueuePos ≤ s.queue.dequeuePos + s.queue.size
  length : s.enqueued.length = s.queue.enqueuePos
  free : ∀ pos, s.queue.enqueuePos ≤ pos → pos < s.queue.dequeuePos + s.queue.size →
    (∀ p, p + s.queue.size = pos → ¬ s.Draining p) → s.queue.sequence (s.queue.cell pos) = pos
  filling : ∀ pos, s.Filling pos → s.queue.dequeuePos ≤ pos ∧ pos < s.queue.enqueuePos ∧
    s.queue.sequence (s.queue.cell pos) = pos
  full : ∀ pos, s.queue.dequeuePos ≤ pos → pos < s.queue.enqueuePos → ¬ s.Filling pos →
    s.queue.sequence (s.queue.cell pos) = pos + 1 ∧
      s.queue.storage (s.queue.cell pos) = s.enqueued[pos]?
  draining : ∀ pos, s.Draining pos → pos < s.queue.dequeuePos ∧
    s.queue.enqueuePos ≤ pos + s.queue.size ∧ s.queue.sequence (s.queue.cell pos) = pos + 1
  released : ∀ pos, pos < s.queue.dequeuePos → ¬ s.Draining pos →
    pos + s.queue.size ≤ s.queue.sequence (s.queue.cell pos) ∧ (pos, s.enqueued[pos]?) ∈ s.dequeued
  oneFills : OneHolds QueuePc.fills s.pc
  oneDrains : OneHolds QueuePc.drains s.pc
  knows : ∀ c, s.Knows (s.pc c)
  taken : ∀ x ∈ s.dequeued, x.1 < s.queue.dequeuePos ∧ ¬ s.Draining x.1 ∧ x.2 = s.enqueued[x.1]?
  once : (s.dequeued.map Prod.fst).Nodup

/-- What a step can do: a thread that has not taken a position looks around, or one of the six
    accesses that change something. -/
inductive Access (s : BoundedQueue C T) (c : C) : BoundedQueue C T → Prop where
  | look {pc : QueuePc T} (fills : (s.pc c).fills = none) (drains : (s.pc c).drains = none)
      (fills' : pc.fills = none) (drains' : pc.drains = none)
      (knows : s.Inv → s.Knows pc) : Access s c (s.goto c pc)
  | takeEnqueue {t : T} {pos : Nat} (seen : s.pc c = .enqueueSeen t pos pos)
      (head : s.queue.enqueuePos = pos) : Access s c ((s.takeEnqueue t).goto c (.storing t pos))
  | store {t : T} {pos : Nat} (at_ : s.pc c = .storing t pos) :
      Access s c ((s.store pos t).goto c (.publishing pos))
  | publish {pos : Nat} (at_ : s.pc c = .publishing pos) :
      Access s c ((s.setSequence pos (pos + 1)).goto c .idle)
  | takeDequeue {pos : Nat} (seen : s.pc c = .dequeueSeen pos (pos + 1))
      (head : s.queue.dequeuePos = pos) : Access s c (s.takeDequeue.goto c (.loading pos))
  | unload {pos : Nat} (at_ : s.pc c = .loading pos) :
      Access s c ((s.unload pos).goto c (.releasing pos (s.queue.storage (s.queue.cell pos))))
  | release {pos : Nat} {t : Option T} (at_ : s.pc c = .releasing pos t) :
      Access s c (((s.setSequence pos (pos + s.queue.size)).yield pos t).goto c .idle)

theorem access_of_next {s s' : BoundedQueue C T} {c : C} {undisturbed : Bool}
    (h : s.next c undisturbed = some s') : s.Access c s' := by
  unfold next at h
  cases hpc : s.pc c with
  | idle =>
    rw [hpc] at h
    cases h
  | enqueue t =>
    rw [hpc] at h
    obtain rfl := Option.some.inj h
    exact .look (by rw [hpc]; rfl) (by rw [hpc]; rfl) rfl rfl fun _ => Nat.le_refl _
  | enqueueAt t pos =>
    rw [hpc] at h
    obtain rfl := Option.some.inj h
    refine .look (by rw [hpc]; rfl) (by rw [hpc]; rfl) rfl rfl fun hinv => ⟨?_, fun hseq _ => hseq⟩
    have hknows := hinv.knows c
    rw [hpc] at hknows
    exact hknows
  | enqueueSeen t pos seq =>
    rw [hpc] at h
    dsimp only at h
    have hlook : ∀ {pc : QueuePc T}, pc.fills = none → pc.drains = none → s.Knows pc →
        s.Access c (s.goto c pc) :=
      fun hf hd hk => .look (by rw [hpc]; rfl) (by rw [hpc]; rfl) hf hd fun _ => hk
    split at h
    · rename_i hseq
      subst hseq
      split at h
      · rename_i htake
        obtain rfl := Option.some.inj h
        exact .takeEnqueue hpc htake.1
      · obtain rfl := Option.some.inj h
        exact hlook rfl rfl trivial
    · split at h
      all_goals
        obtain rfl := Option.some.inj h
        exact hlook rfl rfl trivial
  | storing t pos =>
    rw [hpc] at h
    obtain rfl := Option.some.inj h
    exact .store hpc
  | publishing pos =>
    rw [hpc] at h
    obtain rfl := Option.some.inj h
    exact .publish hpc
  | dequeue =>
    rw [hpc] at h
    obtain rfl := Option.some.inj h
    exact .look (by rw [hpc]; rfl) (by rw [hpc]; rfl) rfl rfl fun _ => Nat.le_refl _
  | dequeueAt pos =>
    rw [hpc] at h
    obtain rfl := Option.some.inj h
    refine .look (by rw [hpc]; rfl) (by rw [hpc]; rfl) rfl rfl fun hinv => ⟨?_, fun hseq _ => hseq⟩
    have hknows := hinv.knows c
    rw [hpc] at hknows
    exact hknows
  | dequeueSeen pos seq =>
    rw [hpc] at h
    dsimp only at h
    have hlook : ∀ {pc : QueuePc T}, pc.fills = none → pc.drains = none → s.Knows pc →
        s.Access c (s.goto c pc) :=
      fun hf hd hk => .look (by rw [hpc]; rfl) (by rw [hpc]; rfl) hf hd fun _ => hk
    split at h
    · rename_i hseq
      subst hseq
      split at h
      · rename_i htake
        obtain rfl := Option.some.inj h
        exact .takeDequeue hpc htake.1
      · obtain rfl := Option.some.inj h
        exact hlook rfl rfl trivial
    · split at h
      all_goals
        obtain rfl := Option.some.inj h
        exact hlook rfl rfl trivial
  | loading pos =>
    rw [hpc] at h
    obtain rfl := Option.some.inj h
    exact .unload hpc
  | releasing pos t =>
    rw [hpc] at h
    obtain rfl := Option.some.inj h
    exact .release hpc

theorem access_of_step {s s' : BoundedQueue C T} {a : BoundedQueueAction C T}
    (h : s.step a = some s') :
    ∃ c, s.Access c s' := by
  cases a with
  | tryEnqueue c t =>
    rw [step] at h
    split at h
    · rename_i hpc
      obtain rfl := Option.some.inj h
      exact ⟨c, .look (by rw [hpc]; rfl) (by rw [hpc]; rfl) rfl rfl fun _ => trivial⟩
    · cases h
  | tryDequeue c =>
    rw [step] at h
    split at h
    · rename_i hpc
      obtain rfl := Option.some.inj h
      exact ⟨c, .look (by rw [hpc]; rfl) (by rw [hpc]; rfl) rfl rfl fun _ => trivial⟩
    · cases h
  | next c undisturbed => exact ⟨c, access_of_next h⟩

/-! ### The steps -/

section Steps

variable {s : BoundedQueue C T} {c : C} {pc : QueuePc T}

section Holding

variable {f : QueuePc T → Option Nat} {pcs : C → QueuePc T} {pos p : Nat}

theorem update_same (hsame : f pc = f (pcs c)) (c' : C) :
    f (Function.update pcs c pc c') = f (pcs c') := by
  by_cases heq : c' = c
  · rw [heq, Function.update_self, hsame]
  · rw [Function.update_of_ne heq]

theorem held_keep (hsame : f pc = f (pcs c)) : Held f (Function.update pcs c pc) p ↔
    Held f pcs p := by
  unfold Held
  simp only [update_same hsame]

theorem OneHolds.keep (hone : OneHolds f pcs) (hsame : f pc = f (pcs c)) :
    OneHolds f (Function.update pcs c pc) := by
  unfold OneHolds
  simp only [update_same hsame]
  exact hone

theorem held_enter (hnone : f (pcs c) = none) (hnew : f pc = some pos) :
    Held f (Function.update pcs c pc) p ↔ pos = p ∨ Held f pcs p := by
  constructor
  · rintro ⟨c', hc'⟩
    by_cases heq : c' = c
    · rw [heq, Function.update_self, hnew] at hc'
      exact Or.inl (Option.some.inj hc')
    · rw [Function.update_of_ne heq] at hc'
      exact Or.inr ⟨c', hc'⟩
  · rintro (rfl | ⟨c', hc'⟩)
    · exact ⟨c, by rw [Function.update_self, hnew]⟩
    · refine ⟨c', ?_⟩
      rw [Function.update_of_ne, hc']
      rintro rfl
      rw [hnone] at hc'
      cases hc'

theorem OneHolds.enter (hone : OneHolds f pcs) (hnew : f pc = some pos) (hfree : ¬ Held f pcs pos) :
    OneHolds f (Function.update pcs c pc) := by
  intro c₁ c₂ q h₁ h₂
  by_cases heq₁ : c₁ = c
  · by_cases heq₂ : c₂ = c
    · rw [heq₁, heq₂]
    · rw [heq₁, Function.update_self, hnew] at h₁
      rw [Function.update_of_ne heq₂, ← h₁] at h₂
      exact absurd ⟨c₂, h₂⟩ hfree
  · rw [Function.update_of_ne heq₁] at h₁
    by_cases heq₂ : c₂ = c
    · rw [heq₂, Function.update_self, hnew] at h₂
      rw [← h₂] at h₁
      exact absurd ⟨c₁, h₁⟩ hfree
    · rw [Function.update_of_ne heq₂] at h₂
      exact hone c₁ c₂ q h₁ h₂

theorem held_leave (hone : OneHolds f pcs) (hold : f (pcs c) = some pos) (hnone : f pc = none) :
    Held f (Function.update pcs c pc) p ↔ Held f pcs p ∧ pos ≠ p := by
  constructor
  · rintro ⟨c', hc'⟩
    by_cases heq : c' = c
    · rw [heq, Function.update_self, hnone] at hc'
      cases hc'
    · rw [Function.update_of_ne heq] at hc'
      refine ⟨⟨c', hc'⟩, ?_⟩
      rintro rfl
      exact heq (hone c' c pos hc' hold)
  · rintro ⟨⟨c', hc'⟩, hne⟩
    refine ⟨c', ?_⟩
    rw [Function.update_of_ne, hc']
    rintro rfl
    exact hne (Option.some.inj (hold.symm.trans hc'))

theorem OneHolds.leave (hone : OneHolds f pcs) (hnone : f pc = none) :
    OneHolds f (Function.update pcs c pc) := by
  have hkept : ∀ {c' q}, f (Function.update pcs c pc c') = some q → f (pcs c') = some q := by
    intro c' q hq
    by_cases heq : c' = c
    · rw [heq, Function.update_self, hnone] at hq
      cases hq
    · rwa [Function.update_of_ne heq] at hq
  exact fun c₁ c₂ q h₁ h₂ => hone c₁ c₂ q (hkept h₁) (hkept h₂)

end Holding

/-- What the others know carries over, and the thread that goes on knows what it needs. -/
theorem knows_update {u : BoundedQueue C T} (h : ∀ c, s.Knows (s.pc c)) (hc : u.Knows pc)
    (hothers : ∀ c', c' ≠ c → s.Knows (s.pc c') → u.Knows (s.pc c')) (c' : C) :
    u.Knows (Function.update s.pc c pc c') := by
  by_cases heq : c' = c
  · rw [heq, Function.update_self]
    exact hc
  · rw [Function.update_of_ne heq]
    exact hothers c' heq (h c')

omit [DecidableEq C] in
/-- Two positions less than a lap apart have different cells. -/
theorem cell_ne {p q : Nat} (hne : p ≠ q) (hp : p < q + s.queue.size) (hq : q < p + s.queue.size) :
    s.queue.cell p ≠ s.queue.cell q := by
  intro heq
  rcases Nat.lt_or_gt_of_ne hne with hlt | hgt
  · have hmod : (q - p) % s.queue.size = 0 := Nat.sub_mod_eq_zero_of_mod_eq heq.symm
    rw [Nat.mod_eq_of_lt (by omega)] at hmod
    omega
  · have hmod : (p - q) % s.queue.size = 0 := Nat.sub_mod_eq_zero_of_mod_eq heq
    rw [Nat.mod_eq_of_lt (by omega)] at hmod
    omega

omit [DecidableEq C] in
theorem cell_lap (p : Nat) : s.queue.cell (p + s.queue.size) = s.queue.cell p :=
  Nat.add_mod_right _ _

/-- A thread that holds no position goes on. -/
theorem Inv.look (h : s.Inv) (hf : (s.pc c).fills = none) (hd : (s.pc c).drains = none)
    (hf' : pc.fills = none) (hd' : pc.drains = none) (hknows : s.Knows pc) : (s.goto c pc).Inv := by
  have hfilling : ∀ p, (s.goto c pc).Filling p ↔ s.Filling p :=
    fun p => held_keep (hf'.trans hf.symm)
  have hdraining : ∀ p, (s.goto c pc).Draining p ↔ s.Draining p :=
    fun p => held_keep (hd'.trans hd.symm)
  refine ⟨h.two_le, h.le, h.lap, h.length, ?_, ?_, ?_, ?_, ?_, h.oneFills.keep (hf'.trans hf.symm),
    h.oneDrains.keep (hd'.trans hd.symm), knows_update h.knows hknows fun _ _ hk => hk, ?_, h.once⟩
  · intro pos hge hlt hno
    exact h.free pos hge hlt fun p hp hdrain => hno p hp ((hdraining p).mpr hdrain)
  · exact fun pos hpos => h.filling pos ((hfilling pos).mp hpos)
  · exact fun pos hge hlt hno => h.full pos hge hlt fun hfill => hno ((hfilling pos).mpr hfill)
  · exact fun pos hpos => h.draining pos ((hdraining pos).mp hpos)
  · exact fun pos hlt hno => h.released pos hlt fun hdrain => hno ((hdraining pos).mpr hdrain)
  · intro x hx
    obtain ⟨hlt, hno, heq⟩ := h.taken x hx
    exact ⟨hlt, fun hdrain => hno ((hdraining _).mp hdrain), heq⟩

omit [DecidableEq C] in
/-- The enqueue position may be taken when its cell shows its number. -/
theorem Inv.free_head (h : s.Inv)
    (hseq : s.queue.sequence (s.queue.cell s.queue.enqueuePos) = s.queue.enqueuePos) :
    s.queue.enqueuePos < s.queue.dequeuePos + s.queue.size ∧
      ∀ p, p + s.queue.size = s.queue.enqueuePos → ¬ s.Draining p := by
  have htwo := h.two_le
  constructor
  · by_contra hge
    have heq : s.queue.enqueuePos = s.queue.dequeuePos + s.queue.size :=
      Nat.le_antisymm h.lap (by omega)
    have hcell : s.queue.cell s.queue.enqueuePos = s.queue.cell s.queue.dequeuePos := by
      rw [heq, cell_lap]
    rw [hcell] at hseq
    by_cases hfill : s.Filling s.queue.dequeuePos
    · have := (h.filling _ hfill).2.2
      omega
    · have := (h.full _ (Nat.le_refl _) (by omega) hfill).1
      omega
  · intro p hp hdrain
    have := (h.draining p hdrain).2.2
    rw [← hp, cell_lap] at hseq
    omega

theorem Inv.takeEnqueue (h : s.Inv) {t : T} {pos : Nat} (hpc : s.pc c = .enqueueSeen t pos pos)
    (hpos : s.queue.enqueuePos = pos) : ((s.takeEnqueue t).goto c (.storing t pos)).Inv := by
  have hknown := h.knows c
  rw [hpc] at hknown
  have hseq : s.queue.sequence (s.queue.cell pos) = pos := hknown.2 rfl hpos
  subst hpos
  obtain ⟨hlap, hnodrain⟩ := h.free_head hseq
  have hle := h.le
  have hlength := h.length
  have hnone : (s.pc c).fills = none := by rw [hpc]; rfl
  have hsame : (QueuePc.storing t s.queue.enqueuePos).drains = (s.pc c).drains := by rw [hpc]; rfl
  have hfilling : ∀ p, (s.goto c (.storing t s.queue.enqueuePos)).Filling p ↔
      s.queue.enqueuePos = p ∨ s.Filling p := fun p => held_enter hnone rfl
  have hdraining : ∀ p, (s.goto c (.storing t s.queue.enqueuePos)).Draining p ↔ s.Draining p :=
    fun p => held_keep hsame
  have hold : ∀ p, p < s.queue.enqueuePos → (s.enqueued ++ [t])[p]? = s.enqueued[p]? := by
    intro p hp
    exact List.getElem?_append_left (by omega)
  have hnew : (s.enqueued ++ [t])[s.queue.enqueuePos]? = some t := by
    rw [← hlength]
    simp
  refine ⟨h.two_le, Nat.le_succ_of_le hle, hlap, ?_, ?_, ?_, ?_, ?_, ?_, ?_, ?_, ?_, ?_, h.once⟩
  · simp [BoundedQueue.takeEnqueue, goto, MpmcQueue.reserve, hlength]
  · intro p hge hlt hno
    refine h.free p (Nat.le_of_succ_le hge) hlt fun q hq hdrain =>
      hno q hq ((hdraining q).mpr hdrain)
  · intro p hp
    rcases (hfilling p).mp hp with rfl | hp
    · exact ⟨hle, Nat.lt_succ_self _, hseq⟩
    · obtain ⟨hge, hlt, hp⟩ := h.filling p hp
      exact ⟨hge, Nat.lt_succ_of_lt hlt, hp⟩
  · intro p hge hlt hno
    have hne : s.queue.enqueuePos ≠ p := fun heq => hno ((hfilling p).mpr (Or.inl heq))
    have hlt' : p < s.queue.enqueuePos := by
      change p < s.queue.enqueuePos + 1 at hlt
      omega
    obtain ⟨hfull, hstored⟩ := h.full p hge hlt' fun hp => hno ((hfilling p).mpr (Or.inr hp))
    exact ⟨hfull, hstored.trans (hold p hlt').symm⟩
  · intro p hp
    obtain ⟨hlt, hwithin, hp'⟩ := h.draining p ((hdraining p).mp hp)
    refine ⟨hlt, ?_, hp'⟩
    have hne : p + s.queue.size ≠ s.queue.enqueuePos :=
      fun heq => hnodrain p heq ((hdraining p).mp hp)
    show s.queue.enqueuePos + 1 ≤ p + s.queue.size
    omega
  · intro p hlt hno
    obtain ⟨hp, hmem⟩ := h.released p hlt fun hdrain => hno ((hdraining p).mpr hdrain)
    refine ⟨hp, ?_⟩
    change (p, (s.enqueued ++ [t])[p]?) ∈ s.dequeued
    rw [hold p (Nat.lt_of_lt_of_le hlt hle)]
    exact hmem
  · refine h.oneFills.enter rfl ?_
    intro hfill
    exact absurd (h.filling _ hfill).2.1 (Nat.lt_irrefl _)
  · exact h.oneDrains.keep hsame
  · refine knows_update (s := s) h.knows hnew ?_
    intro c' _ hk
    have hfills := fun p hp => h.filling p ⟨c', hp⟩
    have hdrains := fun p hp => h.draining p ⟨c', hp⟩
    cases hpc' : s.pc c' with
    | enqueueAt t' p =>
      rw [hpc'] at hk
      exact Nat.le_succ_of_le hk
    | enqueueSeen t' p seq =>
      rw [hpc'] at hk
      refine ⟨Nat.le_succ_of_le hk.1, fun _ hp => ?_⟩
      have hp' : s.queue.enqueuePos + 1 = p := hp
      have hle' := hk.1
      omega
    | storing t' p =>
      rw [hpc'] at hk hfills
      exact (hold p (hfills p rfl).2.1).trans hk
    | publishing p =>
      rw [hpc'] at hk hfills
      exact hk.trans (hold p (hfills p rfl).2.1).symm
    | loading p =>
      rw [hpc'] at hk hdrains
      exact hk.trans (hold p (Nat.lt_of_lt_of_le (hdrains p rfl).1 hle)).symm
    | releasing p x =>
      rw [hpc'] at hk hdrains
      exact hk.trans (hold p (Nat.lt_of_lt_of_le (hdrains p rfl).1 hle)).symm
    | idle | enqueue t' | dequeue => trivial
    | dequeueAt p | dequeueSeen p seq =>
      rw [hpc'] at hk
      exact hk
  · intro x hx
    obtain ⟨hlt, hno, heq⟩ := h.taken x hx
    exact ⟨hlt, fun hdrain => hno ((hdraining _).mp hdrain),
      heq.trans (hold _ (Nat.lt_of_lt_of_le hlt hle)).symm⟩

omit [DecidableEq C] in
/-- What a thread knows carries over if the positions are the same, the data of its own cell
    too, and the numbers at the two heads if they admit a thread. -/
theorem Inv.knows_frame (h : s.Inv) {u : BoundedQueue C T} (c' : C)
    (henqueue : u.queue.enqueuePos = s.queue.enqueuePos)
    (hdequeue : u.queue.dequeuePos = s.queue.dequeuePos) (hsize : u.queue.size = s.queue.size)
    (henqueued : u.enqueued = s.enqueued)
    (hstorage : ∀ p, (s.pc c').fills = some p ∨ (s.pc c').drains = some p →
      u.queue.storage (s.queue.cell p) = s.queue.storage (s.queue.cell p))
    (hfree : s.queue.sequence (s.queue.cell s.queue.enqueuePos) = s.queue.enqueuePos →
      u.queue.sequence (s.queue.cell s.queue.enqueuePos) = s.queue.enqueuePos)
    (hfull : s.queue.sequence (s.queue.cell s.queue.dequeuePos) = s.queue.dequeuePos + 1 →
      u.queue.sequence (s.queue.cell s.queue.dequeuePos) = s.queue.dequeuePos + 1) :
    u.Knows (s.pc c') := by
  have hk := h.knows c'
  have hcell : ∀ p, u.queue.cell p = s.queue.cell p := by
    intro p
    unfold MpmcQueue.cell
    rw [hsize]
  cases hpc : s.pc c' with
  | idle | enqueue t | dequeue => trivial
  | enqueueAt t p =>
    rw [hpc] at hk
    exact hk.trans_eq henqueue.symm
  | enqueueSeen t p seq =>
    rw [hpc] at hk
    refine ⟨hk.1.trans_eq henqueue.symm, fun hseq hp => ?_⟩
    obtain rfl := henqueue.symm.trans hp
    rw [hcell]
    exact hfree (hk.2 hseq rfl)
  | storing t p =>
    rw [hpc] at hk
    exact (congrArg (fun l : List T => l[p]?) henqueued).trans hk
  | publishing p =>
    rw [hpc] at hk hstorage
    show u.queue.storage (u.queue.cell p) = u.enqueued[p]?
    rw [hcell, henqueued, hstorage p (Or.inl rfl)]
    exact hk
  | dequeueAt p =>
    rw [hpc] at hk
    exact hk.trans_eq hdequeue.symm
  | dequeueSeen p seq =>
    rw [hpc] at hk
    refine ⟨hk.1.trans_eq hdequeue.symm, fun hseq hp => ?_⟩
    obtain rfl := hdequeue.symm.trans hp
    rw [hcell]
    exact hfull (hk.2 hseq rfl)
  | loading p =>
    rw [hpc] at hk hstorage
    show u.queue.storage (u.queue.cell p) = u.enqueued[p]?
    rw [hcell, henqueued, hstorage p (Or.inr rfl)]
    exact hk
  | releasing p x =>
    rw [hpc] at hk
    exact hk.trans (congrArg (fun l : List T => l[p]?) henqueued).symm

/-- The data is stored. -/
theorem Inv.store (h : s.Inv) {t : T} {pos : Nat} (hpc : s.pc c = .storing t pos) :
    ((s.store pos t).goto c (.publishing pos)).Inv := by
  have hfills : (s.pc c).fills = some pos := by rw [hpc]; rfl
  have hsame : (QueuePc.publishing pos : QueuePc T).fills = (s.pc c).fills := hfills.symm
  have hsame' : (QueuePc.publishing pos : QueuePc T).drains = (s.pc c).drains := by rw [hpc]; rfl
  obtain ⟨hge, hlt, -⟩ := h.filling pos ⟨c, hfills⟩
  have hlap := h.lap
  have hknown := h.knows c
  rw [hpc] at hknown
  have hfilling : ∀ p, (s.goto c (.publishing pos)).Filling p ↔ s.Filling p :=
    fun p => held_keep hsame
  have hdraining : ∀ p, (s.goto c (.publishing pos)).Draining p ↔ s.Draining p :=
    fun p => held_keep hsame'
  have hstorage : ∀ p, s.queue.cell p ≠ s.queue.cell pos →
      Function.update s.queue.storage (s.queue.cell pos) (some t) (s.queue.cell p) =
        s.queue.storage (s.queue.cell p) := fun p hp => Function.update_of_ne hp _ _
  refine ⟨h.two_le, h.le, hlap, h.length, ?_, ?_, ?_, ?_, ?_, h.oneFills.keep hsame,
    h.oneDrains.keep hsame', ?_, ?_, h.once⟩
  · intro p hge hlt hno
    exact h.free p hge hlt fun q hq hdrain => hno q hq ((hdraining q).mpr hdrain)
  · exact fun p hp => h.filling p ((hfilling p).mp hp)
  · intro p hge' hlt' hno
    change s.queue.dequeuePos ≤ p at hge'
    change p < s.queue.enqueuePos at hlt'
    obtain ⟨hseq, hstored⟩ := h.full p hge' hlt' fun hp => hno ((hfilling p).mpr hp)
    have hne : p ≠ pos := by
      rintro rfl
      exact hno ((hfilling p).mpr ⟨c, hfills⟩)
    exact ⟨hseq, (hstorage p (cell_ne hne (by omega) (by omega))).trans hstored⟩
  · exact fun p hp => h.draining p ((hdraining p).mp hp)
  · exact fun p hlt hno => h.released p hlt fun hdrain => hno ((hdraining p).mpr hdrain)
  · refine knows_update (s := s) h.knows ?_ ?_
    · show Function.update s.queue.storage (s.queue.cell pos) (some t) (s.queue.cell pos) =
          s.enqueued[pos]?
      rw [Function.update_self]
      exact hknown.symm
    · intro c' hne _
      refine h.knows_frame c' rfl rfl rfl rfl ?_ id id
      rintro p (hp | hp)
      · obtain ⟨hge', hlt', -⟩ := h.filling p ⟨c', hp⟩
        have hnepos : p ≠ pos := by
          rintro rfl
          exact hne (h.oneFills c' c p hp hfills)
        exact hstorage p (cell_ne hnepos (by omega) (by omega))
      · obtain ⟨hlt', hwithin, -⟩ := h.draining p ⟨c', hp⟩
        exact hstorage p (cell_ne (by omega) (by omega) (by omega))
  · intro x hx
    obtain ⟨hlt, hno, heq⟩ := h.taken x hx
    exact ⟨hlt, fun hdrain => hno ((hdraining _).mp hdrain), heq⟩

/-- A full cell is handed on to the consumers. -/
theorem Inv.publish (h : s.Inv) {pos : Nat} (hpc : s.pc c = .publishing pos) :
    ((s.setSequence pos (pos + 1)).goto c .idle).Inv := by
  have htwo := h.two_le
  have hlap := h.lap
  have hfills : (s.pc c).fills = some pos := by rw [hpc]; rfl
  have hsame : (QueuePc.idle : QueuePc T).drains = (s.pc c).drains := by rw [hpc]; rfl
  obtain ⟨hge, hlt, hseq⟩ := h.filling pos ⟨c, hfills⟩
  have hknown := h.knows c
  rw [hpc] at hknown
  have hfilling : ∀ p, (s.goto c .idle).Filling p ↔ s.Filling p ∧ pos ≠ p :=
    fun p => held_leave h.oneFills hfills rfl
  have hdraining : ∀ p, (s.goto c .idle).Draining p ↔ s.Draining p := fun p => held_keep hsame
  have hsequence : ∀ p, s.queue.cell p ≠ s.queue.cell pos →
      Function.update s.queue.sequence (s.queue.cell pos) (pos + 1) (s.queue.cell p) =
        s.queue.sequence (s.queue.cell p) := fun p hp => Function.update_of_ne hp _ _
  refine ⟨htwo, h.le, hlap, h.length, ?_, ?_, ?_, ?_, ?_, h.oneFills.leave rfl,
    h.oneDrains.keep hsame, ?_, ?_, h.once⟩
  · intro p hge' hlt' hno
    have hold := h.free p hge' hlt' fun q hq hdrain => hno q hq ((hdraining q).mpr hdrain)
    change s.queue.enqueuePos ≤ p at hge'
    change p < s.queue.dequeuePos + s.queue.size at hlt'
    exact (hsequence p (cell_ne (by omega) (by omega) (by omega))).trans hold
  · intro p hp
    obtain ⟨hp, hne⟩ := (hfilling p).mp hp
    obtain ⟨hge', hlt', hseq'⟩ := h.filling p hp
    exact ⟨hge', hlt', (hsequence p (cell_ne hne.symm (by omega) (by omega))).trans hseq'⟩
  · intro p hge' hlt' hno
    change s.queue.dequeuePos ≤ p at hge'
    change p < s.queue.enqueuePos at hlt'
    by_cases heq : pos = p
    · subst heq
      exact ⟨Function.update_self _ _ _, hknown⟩
    · obtain ⟨hseq', hstored⟩ := h.full p hge' hlt' fun hp => hno ((hfilling p).mpr ⟨hp, heq⟩)
      exact ⟨(hsequence p (cell_ne (Ne.symm heq) (by omega) (by omega))).trans hseq', hstored⟩
  · intro p hp
    obtain ⟨hlt', hwithin, hseq'⟩ := h.draining p ((hdraining p).mp hp)
    exact ⟨hlt', hwithin, (hsequence p (cell_ne (by omega) (by omega) (by omega))).trans hseq'⟩
  · intro p hlt' hno
    obtain ⟨hle, hmem⟩ := h.released p hlt' fun hdrain => hno ((hdraining p).mpr hdrain)
    refine ⟨?_, hmem⟩
    show p + s.queue.size ≤ Function.update s.queue.sequence (s.queue.cell pos) (pos + 1)
        (s.queue.cell p)
    by_cases hcell : s.queue.cell p = s.queue.cell pos
    · rw [hcell, hseq] at hle
      rw [hcell, Function.update_self]
      omega
    · rw [hsequence p hcell]
      exact hle
  · refine knows_update (s := s) h.knows trivial ?_
    intro c' _ _
    refine h.knows_frame c' rfl rfl rfl rfl (fun _ _ => rfl) ?_ ?_
    · intro hfree
      refine (hsequence _ ?_).trans hfree
      intro hcell
      rw [hcell, hseq] at hfree
      omega
    · intro hfull
      refine (hsequence _ ?_).trans hfull
      intro hcell
      have hat : pos = s.queue.dequeuePos + 1 := by
        rw [hcell, hseq] at hfull
        exact hfull
      exact cell_ne (by omega) (by omega) (by omega) hcell
  · intro x hx
    obtain ⟨hlt, hno, heq⟩ := h.taken x hx
    exact ⟨hlt, fun hdrain => hno ((hdraining _).mp hdrain), heq⟩

omit [DecidableEq C] in
/-- The dequeue position may be taken when its cell shows the next number. -/
theorem Inv.full_head (h : s.Inv)
    (hseq : s.queue.sequence (s.queue.cell s.queue.dequeuePos) = s.queue.dequeuePos + 1) :
    s.queue.dequeuePos < s.queue.enqueuePos ∧ ¬ s.Filling s.queue.dequeuePos := by
  have htwo := h.two_le
  have hle := h.le
  constructor
  · by_contra hempty
    have heq : s.queue.dequeuePos = s.queue.enqueuePos := by omega
    have hfree := h.free s.queue.dequeuePos (by omega) (by omega) ?_
    · omega
    · intro p hp hdrain
      have := (h.draining p hdrain).2.2
      rw [← hp, cell_lap] at hseq
      omega
  · intro hfill
    have := (h.filling _ hfill).2.2
    omega

theorem Inv.takeDequeue (h : s.Inv) {pos : Nat} (hpc : s.pc c = .dequeueSeen pos (pos + 1))
    (hpos : s.queue.dequeuePos = pos) : (s.takeDequeue.goto c (.loading pos)).Inv := by
  have hknown := h.knows c
  rw [hpc] at hknown
  have hseq : s.queue.sequence (s.queue.cell pos) = pos + 1 := hknown.2 rfl hpos
  subst hpos
  obtain ⟨hlt, hnofill⟩ := h.full_head hseq
  have hlap := h.lap
  have hnone : (s.pc c).drains = none := by rw [hpc]; rfl
  have hsame : (QueuePc.loading s.queue.dequeuePos : QueuePc T).fills = (s.pc c).fills := by
    rw [hpc]; rfl
  have hfilling : ∀ p, (s.goto c (.loading s.queue.dequeuePos)).Filling p ↔ s.Filling p :=
    fun p => held_keep hsame
  have hdraining : ∀ p, (s.goto c (.loading s.queue.dequeuePos)).Draining p ↔
      s.queue.dequeuePos = p ∨ s.Draining p := fun p => held_enter hnone rfl
  refine ⟨h.two_le, hlt, ?_, h.length, ?_, ?_, ?_, ?_, ?_, h.oneFills.keep hsame, ?_,
    ?_, ?_, h.once⟩
  · show s.queue.enqueuePos ≤ s.queue.dequeuePos + 1 + s.queue.size
    omega
  · intro p hge' hlt' hno
    change s.queue.enqueuePos ≤ p at hge'
    change p < s.queue.dequeuePos + 1 + s.queue.size at hlt'
    have hne : s.queue.dequeuePos + s.queue.size ≠ p :=
      fun heq => hno _ heq ((hdraining _).mpr (Or.inl rfl))
    exact h.free p hge' (by omega) fun q hq hdrain => hno q hq ((hdraining q).mpr (Or.inr hdrain))
  · intro p hp
    have hp' := (hfilling p).mp hp
    obtain ⟨hge', hlt', hseq'⟩ := h.filling p hp'
    have hne : s.queue.dequeuePos ≠ p := by
      rintro rfl
      exact hnofill hp'
    exact ⟨Nat.lt_of_le_of_ne hge' hne, hlt', hseq'⟩
  · intro p hge' hlt' hno
    exact h.full p (Nat.le_of_succ_le hge') hlt' fun hp => hno ((hfilling p).mpr hp)
  · intro p hp
    rcases (hdraining p).mp hp with rfl | hp
    · exact ⟨Nat.lt_succ_self _, hlap, hseq⟩
    · obtain ⟨hlt', hwithin, hseq'⟩ := h.draining p hp
      exact ⟨Nat.lt_succ_of_lt hlt', hwithin, hseq'⟩
  · intro p hlt' hno
    change p < s.queue.dequeuePos + 1 at hlt'
    have hne : s.queue.dequeuePos ≠ p := fun heq => hno ((hdraining p).mpr (Or.inl heq))
    exact h.released p (by omega) fun hdrain => hno ((hdraining p).mpr (Or.inr hdrain))
  · refine h.oneDrains.enter rfl ?_
    intro hdrain
    exact absurd (h.draining _ hdrain).1 (Nat.lt_irrefl _)
  · refine knows_update (s := s) h.knows ?_ ?_
    · exact (h.full _ (Nat.le_refl _) hlt hnofill).2
    · intro c' _ hk
      cases hpc' : s.pc c' with
      | dequeueAt p =>
        rw [hpc'] at hk
        exact Nat.le_succ_of_le hk
      | dequeueSeen p seq =>
        rw [hpc'] at hk
        refine ⟨Nat.le_succ_of_le hk.1, fun _ hp => ?_⟩
        have hp' : s.queue.dequeuePos + 1 = p := hp
        have hle' := hk.1
        omega
      | idle | enqueue t' | dequeue => trivial
      | enqueueAt t p | enqueueSeen t p seq | storing t p | publishing p | loading p
        | releasing p x =>
        rw [hpc'] at hk
        exact hk
  · intro x hx
    obtain ⟨hlt', hno, heq⟩ := h.taken x hx
    refine ⟨Nat.lt_succ_of_lt hlt', ?_, heq⟩
    intro hdrain
    rcases (hdraining _).mp hdrain with heq' | hdrain
    · omega
    · exact hno hdrain

/-- The data is moved out of its cell. -/
theorem Inv.unload (h : s.Inv) {pos : Nat} (hpc : s.pc c = .loading pos) :
    ((s.unload pos).goto c (.releasing pos (s.queue.storage (s.queue.cell pos)))).Inv := by
  have hdrains : (s.pc c).drains = some pos := by rw [hpc]; rfl
  have hsame : (QueuePc.releasing pos (s.queue.storage (s.queue.cell pos))).drains =
      (s.pc c).drains :=
    hdrains.symm
  have hsame' : (QueuePc.releasing pos (s.queue.storage (s.queue.cell pos))).fills =
      (s.pc c).fills := by
    rw [hpc]
    rfl
  obtain ⟨hlt, hwithin, -⟩ := h.draining pos ⟨c, hdrains⟩
  have hlap := h.lap
  have hle := h.le
  have hknown := h.knows c
  rw [hpc] at hknown
  have hfilling : ∀ p, (s.goto c (.releasing pos (s.queue.storage (s.queue.cell pos)))).Filling p ↔
      s.Filling p := fun p => held_keep hsame'
  have hdraining :
      ∀ p, (s.goto c (.releasing pos (s.queue.storage (s.queue.cell pos)))).Draining p ↔
      s.Draining p := fun p => held_keep hsame
  have hstorage : ∀ p, s.queue.cell p ≠ s.queue.cell pos →
      Function.update s.queue.storage (s.queue.cell pos) none (s.queue.cell p) =
        s.queue.storage (s.queue.cell p) := fun p hp => Function.update_of_ne hp _ _
  refine ⟨h.two_le, hle, hlap, h.length, ?_, ?_, ?_, ?_, ?_, h.oneFills.keep hsame',
    h.oneDrains.keep hsame, ?_, ?_, h.once⟩
  · intro p hge hlt hno
    exact h.free p hge hlt fun q hq hdrain => hno q hq ((hdraining q).mpr hdrain)
  · exact fun p hp => h.filling p ((hfilling p).mp hp)
  · intro p hge' hlt' hno
    change s.queue.dequeuePos ≤ p at hge'
    change p < s.queue.enqueuePos at hlt'
    obtain ⟨hseq, hstored⟩ := h.full p hge' hlt' fun hp => hno ((hfilling p).mpr hp)
    exact ⟨hseq, (hstorage p (cell_ne (by omega) (by omega) (by omega))).trans hstored⟩
  · exact fun p hp => h.draining p ((hdraining p).mp hp)
  · exact fun p hlt hno => h.released p hlt fun hdrain => hno ((hdraining p).mpr hdrain)
  · refine knows_update (s := s) h.knows hknown ?_
    intro c' hne _
    refine h.knows_frame c' rfl rfl rfl rfl ?_ id id
    rintro p (hp | hp)
    · obtain ⟨hge', hlt', -⟩ := h.filling p ⟨c', hp⟩
      exact hstorage p (cell_ne (by omega) (by omega) (by omega))
    · obtain ⟨hlt', hwithin', -⟩ := h.draining p ⟨c', hp⟩
      have hnepos : p ≠ pos := by
        rintro rfl
        exact hne (h.oneDrains c' c p hp hdrains)
      exact hstorage p (cell_ne hnepos (by omega) (by omega))
  · intro x hx
    obtain ⟨hlt, hno, heq⟩ := h.taken x hx
    exact ⟨hlt, fun hdrain => hno ((hdraining _).mp hdrain), heq⟩

/-- An empty cell is handed on to the producers of the next lap. -/
theorem Inv.release (h : s.Inv) {pos : Nat} {t : Option T} (hpc : s.pc c = .releasing pos t) :
    (((s.setSequence pos (pos + s.queue.size)).yield pos t).goto c .idle).Inv := by
  have htwo := h.two_le
  have hle := h.le
  have hlap := h.lap
  have hdrains : (s.pc c).drains = some pos := by rw [hpc]; rfl
  have hsame : (QueuePc.idle : QueuePc T).fills = (s.pc c).fills := by rw [hpc]; rfl
  obtain ⟨hlt, hwithin, hseq⟩ := h.draining pos ⟨c, hdrains⟩
  have hknown := h.knows c
  rw [hpc] at hknown
  have hfilling : ∀ p, (s.goto c .idle).Filling p ↔ s.Filling p := fun p => held_keep hsame
  have hdraining : ∀ p, (s.goto c .idle).Draining p ↔ s.Draining p ∧ pos ≠ p :=
    fun p => held_leave h.oneDrains hdrains rfl
  have hsequence : ∀ p, s.queue.cell p ≠ s.queue.cell pos →
      Function.update s.queue.sequence (s.queue.cell pos) (pos + s.queue.size) (s.queue.cell p) =
        s.queue.sequence (s.queue.cell p) := fun p hp => Function.update_of_ne hp _ _
  refine ⟨htwo, hle, hlap, h.length, ?_, ?_, ?_, ?_, ?_, h.oneFills.keep hsame,
    h.oneDrains.leave rfl, ?_, ?_, ?_⟩
  · intro p hge' hlt' hno
    change s.queue.enqueuePos ≤ p at hge'
    change p < s.queue.dequeuePos + s.queue.size at hlt'
    show Function.update s.queue.sequence (s.queue.cell pos) (pos + s.queue.size) (s.queue.cell p) =
        p
    by_cases heq : pos + s.queue.size = p
    · rw [← heq, cell_lap, Function.update_self]
    · have hcell : s.queue.cell p ≠ s.queue.cell pos := by
        rw [← cell_lap (s := s) pos]
        exact cell_ne (Ne.symm heq) (by omega) (by omega)
      rw [hsequence p hcell]
      refine h.free p hge' hlt' fun q hq hdrain => hno q hq ((hdraining q).mpr ⟨hdrain, ?_⟩)
      rintro rfl
      exact heq hq
  · intro p hp
    obtain ⟨hge', hlt', hseq'⟩ := h.filling p ((hfilling p).mp hp)
    exact ⟨hge', hlt', (hsequence p (cell_ne (by omega) (by omega) (by omega))).trans hseq'⟩
  · intro p hge' hlt' hno
    change s.queue.dequeuePos ≤ p at hge'
    change p < s.queue.enqueuePos at hlt'
    obtain ⟨hseq', hstored⟩ := h.full p hge' hlt' fun hp => hno ((hfilling p).mpr hp)
    exact ⟨(hsequence p (cell_ne (by omega) (by omega) (by omega))).trans hseq', hstored⟩
  · intro p hp
    obtain ⟨hp, hne⟩ := (hdraining p).mp hp
    obtain ⟨hlt', hwithin', hseq'⟩ := h.draining p hp
    exact ⟨hlt', hwithin', (hsequence p (cell_ne hne.symm (by omega) (by omega))).trans hseq'⟩
  · intro p hlt' hno
    show p + s.queue.size ≤
        Function.update s.queue.sequence (s.queue.cell pos) (pos + s.queue.size) (s.queue.cell p) ∧
      (p, s.enqueued[p]?) ∈ s.dequeued ++ [(pos, t)]
    by_cases heq : pos = p
    · subst heq
      rw [Function.update_self]
      refine ⟨Nat.le_refl _, List.mem_append_right _ ?_⟩
      rw [hknown]
      exact List.mem_singleton_self _
    · obtain ⟨hle', hmem⟩ := h.released p hlt' fun hdrain => hno ((hdraining p).mpr ⟨hdrain, heq⟩)
      refine ⟨?_, List.mem_append_left _ hmem⟩
      by_cases hcell : s.queue.cell p = s.queue.cell pos
      · rw [hcell, hseq] at hle'
        rw [hcell, Function.update_self]
        omega
      · rw [hsequence p hcell]
        exact hle'
  · refine knows_update (s := s) h.knows trivial ?_
    intro c' _ _
    refine h.knows_frame c' rfl rfl rfl rfl (fun _ _ => rfl) ?_ ?_
    · intro hfree
      refine (hsequence _ ?_).trans hfree
      intro hcell
      have hat : pos + 1 = s.queue.enqueuePos := by
        rw [hcell, hseq] at hfree
        exact hfree
      exact cell_ne (by omega) (by omega) (by omega) hcell
    · intro hfull
      refine (hsequence _ ?_).trans hfull
      intro hcell
      rw [hcell, hseq] at hfull
      omega
  · intro x hx
    rcases List.mem_append.mp hx with hold | hnew
    · obtain ⟨hlt', hno, heq⟩ := h.taken x hold
      exact ⟨hlt', fun hdrain => hno ((hdraining _).mp hdrain).1, heq⟩
    · obtain rfl := List.mem_singleton.mp hnew
      exact ⟨hlt, fun hdrain => ((hdraining _).mp hdrain).2 rfl, hknown⟩
  · show ((s.dequeued ++ [(pos, t)]).map Prod.fst).Nodup
    rw [List.map_append, List.map_singleton, List.nodup_append]
    refine ⟨h.once, List.nodup_singleton _, ?_⟩
    rintro q hq _ hq' rfl
    obtain ⟨x, hx, rfl⟩ := List.mem_map.mp hq
    obtain heq := List.mem_singleton.mp hq'
    exact (h.taken x hx).2.1 (heq ▸ ⟨c, hdrains⟩)

theorem Inv.access (h : s.Inv) {s' : BoundedQueue C T} (haccess : s.Access c s') : s'.Inv := by
  cases haccess with
  | look hf hd hf' hd' hknows => exact h.look hf hd hf' hd' (hknows h)
  | takeEnqueue hseen hhead => exact h.takeEnqueue hseen hhead
  | store hat => exact h.store hat
  | publish hat => exact h.publish hat
  | takeDequeue hseen hhead => exact h.takeDequeue hseen hhead
  | unload hat => exact h.unload hat
  | release hat => exact h.release hat

end Steps

theorem inv_step (s : BoundedQueue C T) (a : BoundedQueueAction C T)
    (s' : BoundedQueue C T) (h : s.Inv) (hstep : s.step a = some s') : s'.Inv := by
  obtain ⟨c, haccess⟩ := access_of_step hstep
  exact h.access haccess

omit [DecidableEq C] in
theorem inv_new {size : Nat} (hsize : 2 ≤ size) : (new size : BoundedQueue C T).Inv where
  two_le := hsize
  le := Nat.le_refl 0
  lap := Nat.zero_le _
  length := rfl
  free := by
    intro pos _ hlt _
    exact Nat.mod_eq_of_lt (by simpa [new, MpmcQueue.new] using hlt)
  filling := by
    rintro pos ⟨c, hc⟩
    cases hc
  full := fun pos _ hlt _ => absurd hlt (Nat.not_lt_zero _)
  draining := by
    rintro pos ⟨c, hc⟩
    cases hc
  released := fun pos hlt _ => absurd hlt (Nat.not_lt_zero _)
  oneFills := by
    intro c c' pos hc
    cases hc
  oneDrains := by
    intro c c' pos hc
    cases hc
  knows := fun _ => trivial
  taken := fun x hx => absurd hx List.not_mem_nil
  once := List.nodup_nil

/-! ### What the queue guarantees -/

section Guarantees

variable {s : BoundedQueue C T}

omit [DecidableEq C] in
/-- Two threads that work on cells work on different ones. -/
theorem Inv.exclusive (h : s.Inv) {c c' : C} (hne : c ≠ c') {p q : Nat}
    (hp : (s.pc c).holds = some p) (hq : (s.pc c').holds = some q) : s.queue.cell p ≠
      s.queue.cell q := by
  have hle := h.le
  have hlap := h.lap
  have hholds : ∀ {c p}, (s.pc c).holds = some p → (s.pc c).fills = some p ∨
      (s.pc c).drains = some p := by
    intro c p hp
    unfold QueuePc.holds at hp
    cases hf : (s.pc c).fills with
    | none =>
      rw [hf] at hp
      exact Or.inr hp
    | some p' =>
      rw [hf] at hp
      exact Or.inl hp
  rcases hholds hp with hfp | hdp
  · obtain ⟨hge, hlt, -⟩ := h.filling p ⟨c, hfp⟩
    rcases hholds hq with hfq | hdq
    · obtain ⟨hge', hlt', -⟩ := h.filling q ⟨c', hfq⟩
      refine cell_ne ?_ (by omega) (by omega)
      rintro rfl
      exact hne (h.oneFills c c' p hfp hfq)
    · obtain ⟨hlt', hwithin, -⟩ := h.draining q ⟨c', hdq⟩
      exact cell_ne (by omega) (by omega) (by omega)
  · obtain ⟨hlt, hwithin, -⟩ := h.draining p ⟨c, hdp⟩
    rcases hholds hq with hfq | hdq
    · obtain ⟨hge', hlt', -⟩ := h.filling q ⟨c', hfq⟩
      exact cell_ne (by omega) (by omega) (by omega)
    · obtain ⟨hlt', hwithin', -⟩ := h.draining q ⟨c', hdq⟩
      refine cell_ne ?_ (by omega) (by omega)
      rintro rfl
      exact hne (h.oneDrains c c' p hdp hdq)

omit [DecidableEq C] in
/-- The number in the cell of a position that was given away is not below it. -/
theorem Inv.le_sequence (h : s.Inv) {pos : Nat} (hlt : pos < s.queue.enqueuePos) :
    pos ≤ s.queue.sequence (s.queue.cell pos) ∧
      (pos < s.queue.dequeuePos → pos + 1 ≤ s.queue.sequence (s.queue.cell pos)) := by
  have htwo := h.two_le
  by_cases hbehind : pos < s.queue.dequeuePos
  · by_cases hdrain : s.Draining pos
    · have := (h.draining pos hdrain).2.2
      omega
    · have := (h.released pos hbehind hdrain).1
      omega
  · by_cases hfill : s.Filling pos
    · have := (h.filling pos hfill).2.2
      omega
    · have := (h.full pos (by omega) hlt hfill).1
      omega

/-- The results are the data that was given the position, each once, and nothing else is missing
    in the cells; threads at work are on different cells; a `try_enqueue` fails only when the
    queue is full or the consumer of the lap before is not done, and a `try_dequeue` only when
    it is empty or the producer of the head is not done. -/
structure Exact (s : BoundedQueue C T) : Prop where
  bounded : s.enqueued.length ≤ s.queue.dequeuePos + s.queue.size
  results : ∀ x ∈ s.dequeued, x.1 < s.queue.dequeuePos ∧ ∃ t, x.2 = some t ∧
    s.enqueued[x.1]? = some t
  once : (s.dequeued.map Prod.fst).Nodup
  taken : ∀ pos < s.queue.dequeuePos, s.Draining pos ∨ (pos, s.enqueued[pos]?) ∈ s.dequeued
  kept : ∀ pos, s.queue.dequeuePos ≤ pos → pos < s.enqueued.length →
    s.Filling pos ∨ s.queue.storage (s.queue.cell pos) = s.enqueued[pos]?
  exclusive : ∀ c c' p q, c ≠ c' → (s.pc c).holds = some p → (s.pc c').holds = some q →
    s.queue.cell p ≠ s.queue.cell q
  fails_full : ∀ c t pos, s.pc c = .enqueueAt t pos → s.queue.sequence (s.queue.cell pos) < pos →
    pos = s.queue.enqueuePos ∧ (s.queue.enqueuePos = s.queue.dequeuePos + s.queue.size ∨
      ∃ p, p + s.queue.size = pos ∧ s.Draining p)
  fails_empty : ∀ c pos, s.pc c = .dequeueAt pos → s.queue.sequence (s.queue.cell pos) < pos + 1 →
    pos = s.queue.dequeuePos ∧ (s.queue.dequeuePos = s.queue.enqueuePos ∨ s.Filling pos)

omit [DecidableEq C] in
theorem Inv.exact (h : s.Inv) : Exact s where
  bounded := h.length ▸ h.lap
  results := by
    intro x hx
    obtain ⟨hlt, -, heq⟩ := h.taken x hx
    have hlength : x.1 < s.enqueued.length := by
      rw [h.length]
      exact Nat.lt_of_lt_of_le hlt h.le
    refine ⟨hlt, s.enqueued[x.1], ?_, List.getElem?_eq_getElem hlength⟩
    rw [heq, List.getElem?_eq_getElem hlength]
  once := h.once
  taken := by
    intro pos hlt
    by_cases hdrain : s.Draining pos
    · exact Or.inl hdrain
    · exact Or.inr (h.released pos hlt hdrain).2
  kept := by
    intro pos hge hlt
    by_cases hfill : s.Filling pos
    · exact Or.inl hfill
    · exact Or.inr (h.full pos hge (h.length ▸ hlt) hfill).2
  exclusive := fun c c' p q hne hp hq => h.exclusive hne hp hq
  fails_full := by
    intro c t pos hpc hbelow
    have hknown := h.knows c
    rw [hpc] at hknown
    have hle : pos ≤ s.queue.enqueuePos := hknown
    have hat : pos = s.queue.enqueuePos := by
      by_contra hne
      have := (h.le_sequence (Nat.lt_of_le_of_ne hle hne)).1
      omega
    refine ⟨hat, ?_⟩
    by_cases hlap : s.queue.enqueuePos = s.queue.dequeuePos + s.queue.size
    · exact Or.inl hlap
    · right
      by_contra hno
      push Not at hno
      have := h.free pos hat.ge (hat ▸ Nat.lt_of_le_of_ne h.lap hlap) hno
      omega
  fails_empty := by
    intro c pos hpc hbelow
    have hknown := h.knows c
    rw [hpc] at hknown
    have hle : pos ≤ s.queue.dequeuePos := hknown
    have hat : pos = s.queue.dequeuePos := by
      by_contra hne
      have hlt := Nat.lt_of_le_of_ne hle hne
      have := (h.le_sequence (Nat.lt_of_lt_of_le hlt h.le)).2 hlt
      omega
    refine ⟨hat, ?_⟩
    by_cases hempty : s.queue.dequeuePos = s.queue.enqueuePos
    · exact Or.inl hempty
    · right
      by_contra hno
      have hlt := Nat.lt_of_le_of_ne h.le hempty
      have := (h.full pos hat.ge (hat ▸ hlt) hno).1
      omega

/-- **The bounded queue under any number of producers and consumers**: after every run of steps,
    in any interleaving, the queue is exact. -/
theorem exact_of_run {size : Nat} (hsize : 2 ≤ size) {as : List (BoundedQueueAction C T)}
    {s : BoundedQueue C T} (hrun : run step (new size) as = some s) : Exact s := by
  have hinv : s.Inv := by
    refine @inv_run _ _ _ Inv (fun _ _ => True) ?_ _ _ _ (inv_new hsize) ?_ hrun
    · exact fun s a s' h _ hstep => inv_step s a s' h hstep
    · exact fun _ _ _ _ _ _ => trivial
  exact hinv.exact

/-- Two producers and a consumer: the second producer takes its position first. -/
theorem exact_of_run_crossing : ∃ s : BoundedQueue (Fin 3) Nat,
    run step (new 2) [.tryEnqueue 0 7, .tryEnqueue 1 8, .next 0 true, .next 1 true, .next 0 true,
      .next 1 true, .next 1 true, .next 0 true, .next 1 true, .next 1 true, .tryDequeue 2,
      .next 2 true, .next 2 true, .next 2 true, .next 2 true, .next 2 true] = some s ∧
    Exact s ∧ s.enqueued = [8] ∧ s.dequeued = [(0, some 8)] := by
  have hrun :
      (run step (new 2 : BoundedQueue (Fin 3) Nat) [.tryEnqueue 0 7, .tryEnqueue 1 8, .next 0 true,
        .next 1 true, .next 0 true, .next 1 true, .next 1 true, .next 0 true, .next 1 true,
        .next 1 true, .tryDequeue 2, .next 2 true, .next 2 true, .next 2 true, .next 2 true,
        .next 2 true]).map
      (fun s => (s.enqueued, s.dequeued)) = some ([8], [(0, some 8)]) := by decide +kernel
  obtain ⟨s, hs, hrecords⟩ := Option.map_eq_some_iff.mp hrun
  obtain ⟨henqueued, hdequeued⟩ := Prod.mk.inj hrecords
  exact ⟨s, hs, exact_of_run (Nat.le_refl 2) hs, henqueued, hdequeued⟩

end Guarantees

end BoundedQueue

end StorageEngine.Net
