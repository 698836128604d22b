/-
  StorageEngine/Net/AsyncScope.lean
  =================================
  **A scope of coroutines that is joined** (`net/cppcoro/async_scope.hpp`).

  A coroutine spawns others into a scope, and these may spawn more; in the end it joins the
  scope.  A counter has one for the coroutine that is going to join and one for each that was
  spawned.  Whoever takes the last one off has to see to it that the join returns: either the
  joining coroutine, which then does not suspend, or a coroutine at its end, which resumes it.
-/
import Mathlib.Data.Set.Card
import StorageEngine.StepMachine

namespace StorageEngine.Net

open StorageEngine.StepMachine

/-! ### The accesses -/

/-- Where a coroutine stands.  The last four places are those of a join: before the continuation is
    stored, before the counter is decremented, and behind it. -/
inductive ScopePc (T : Type) where
  | absent
  /-- In `on_work_started`, behind the assertion; whoever spawns it is inside of `spawn`. -/
  | starting
  | running
  | spawning (t : T)
  /-- In `on_work_finished`, with the last one taken off. -/
  | resuming
  | done
  | storing
  | decrementing
  | suspended
  | joined
deriving DecidableEq, Repr

namespace ScopePc

variable {T : Type}

/-- The counter has one for the coroutine. -/
def Counted : ScopePc T → Prop
  | running | spawning _ | storing | decrementing => True
  | _ => False

end ScopePc

/-- The scope and its coroutines, those that are spawned and, as `none`, the one that joins it.
    `fault` says that the assertion has failed, or that something was resumed that is not a
    suspended coroutine. -/
structure AsyncScope (T : Type) where
  count : Nat
  continuation : Option (Option T)
  pc : Option T → ScopePc T
  fault : Bool

inductive ScopeAction (T : Type) where
  | spawn (c : Option T) (t : T)
  /-- The awaitable of a coroutine has ended. -/
  | finish (t : T)
  | join
  | next (c : Option T)
deriving DecidableEq, Repr

namespace AsyncScope

variable {T : Type} [DecidableEq T]

def new : AsyncScope T := ⟨1, none, fun c => if c = none then .running else .absent, false⟩

def goto (s : AsyncScope T) (c : Option T) (pc : ScopePc T) : AsyncScope T :=
  { s with pc := Function.update s.pc c pc }

def failed (s : AsyncScope T) : AsyncScope T := { s with fault := true }

/-- `m_continuation.resume()`. -/
def resume (s : AsyncScope T) : AsyncScope T :=
  match s.continuation with
  | some c => if s.pc c = .suspended then s.goto c .joined else s.failed
  | none => s.failed

/-- The next access of a coroutine. -/
def advance (s : AsyncScope T) (c : Option T) : Option (AsyncScope T) :=
  match s.pc c with
  | .spawning t => some (({ s with count := s.count + 1 }.goto (some t) .running).goto c .running)
  | .resuming => some (s.resume.goto c .done)
  | .storing => some ({ s with continuation := some c }.goto c .decrementing)
  | .decrementing =>
    some ({ s with count := s.count - 1 }.goto c (if 1 < s.count then .suspended else .joined))
  | _ => none

def step (s : AsyncScope T) : ScopeAction T → Option (AsyncScope T)
  | .spawn c t =>
    if s.pc c = .running ∧ s.pc (some t) = .absent then
      if s.count ≠ 0 then some ((s.goto (some t) .starting).goto c (.spawning t)) else some s.failed
    else none
  | .finish t =>
    if s.pc (some t) = .running then
      some ({ s with count := s.count - 1 }.goto (some t)
        (if s.count = 1 then .resuming else .done))
    else none
  | .join =>
    if s.pc none = .running ∨ s.pc none = .joined then
      some (s.goto none (if s.count = 0 then .joined else .storing))
    else none
  | .next c => s.advance c

/-! ### The counter -/

/-- The coroutines that are counted. -/
def counted (s : AsyncScope T) : Set (Option T) := {c | (s.pc c).Counted}

/-- What the counter, the continuation and the coroutines have to do with each other. -/
structure Inv (s : AsyncScope T) : Prop where
  counts : s.counted.encard = s.count
  /-- One coroutine spawns the one that is starting. -/
  spawning : ∀ c t, s.pc c = .spawning t → s.pc (some t) = .starting ∧
    ∀ c', s.pc c' = .spawning t → c' = c
  starting : ∀ t, s.pc (some t) = .starting → ∃ c, s.pc c = .spawning t
  joins : ∀ c, s.pc c = .storing ∨ s.pc c = .decrementing ∨ s.pc c = .suspended ∨
    s.pc c = .joined → c = none
  owner : s.pc none ≠ .absent ∧ s.pc none ≠ .starting ∧ s.pc none ≠ .resuming ∧ s.pc none ≠ .done
  stored : s.pc none = .decrementing ∨ s.pc none = .suspended ∨ s.pc none = .joined →
    s.continuation = some none
  /-- Whoever took the last one off finds the join suspended. -/
  resuming : ∀ c, s.pc c = .resuming →
    s.count = 0 ∧ s.pc none = .suspended ∧ ∀ c', s.pc c' = .resuming → c' = c
  resumed : s.pc none = .suspended → s.count = 0 → ∃ c, s.pc c = .resuming
  joined : s.pc none = .joined → s.count = 0
  fault : s.fault = false

variable {s s' : AsyncScope T} {c : Option T} {t : T}

omit [DecidableEq T] in
theorem mem_counted : c ∈ s.counted ↔ (s.pc c).Counted := Iff.rfl

theorem counted_goto_of_counted (pc : ScopePc T) (hpc : pc.Counted) :
    (s.goto c pc).counted = insert c s.counted := by
  ext c'
  change (Function.update s.pc c pc c').Counted ↔ c' = c ∨ (s.pc c').Counted
  by_cases heq : c' = c
  · rw [heq, Function.update_self]
    exact iff_of_true hpc (.inl rfl)
  · rw [Function.update_of_ne heq]
    exact (or_iff_right heq).symm

theorem counted_goto_of_not (pc : ScopePc T) (hpc : ¬ pc.Counted) :
    (s.goto c pc).counted = s.counted \ {c} := by
  ext c'
  change (Function.update s.pc c pc c').Counted ↔ (s.pc c').Counted ∧ ¬ c' = c
  by_cases heq : c' = c
  · rw [heq, Function.update_self]
    exact iff_of_false hpc fun h => h.2 rfl
  · rw [Function.update_of_ne heq]
    exact (and_iff_left heq).symm

omit [DecidableEq T] in
/-- A counted coroutine is counted. -/
theorem Inv.count_ne_zero (h : s.Inv) (hc : (s.pc c).Counted) : s.count ≠ 0 := by
  intro hzero
  have hcounts := h.counts
  rw [hzero, Nat.cast_zero, Set.encard_eq_zero] at hcounts
  exact Set.notMem_empty c (hcounts ▸ hc)

omit [DecidableEq T] in
theorem Inv.not_resuming (h : s.Inv) (hc : (s.pc c).Counted) (c' : Option T) :
    s.pc c' ≠ .resuming :=
  fun hresuming => h.count_ne_zero hc (h.resuming c' hresuming).1

omit [DecidableEq T] in
/-- The last one off is taken off by the coroutine that it was counted for. -/
theorem Inv.sole (h : s.Inv) (hone : s.count = 1) {c' : Option T} (hc : (s.pc c).Counted)
    (hc' : (s.pc c').Counted) : c' = c := by
  have hcounts := h.counts
  rw [hone, Nat.cast_one] at hcounts
  exact Set.encard_le_one_iff.mp hcounts.le c' c hc' hc

/-- A counted coroutine is taken off. -/
theorem Inv.counts_sub (h : s.Inv) (hc : (s.pc c).Counted) (pc : ScopePc T) (hpc : ¬ pc.Counted) :
    (s.goto c pc).counted.encard = ↑(s.count - 1) := by
  have hadd := Set.encard_sdiff_singleton_add_one (a := c) (s := s.counted) hc
  obtain ⟨n, hn⟩ := Nat.exists_eq_succ_of_ne_zero (h.count_ne_zero hc)
  rw [h.counts, hn, Nat.cast_succ] at hadd
  rw [counted_goto_of_not pc hpc, hn, Nat.succ_sub_one]
  exact WithTop.add_right_cancel ENat.one_ne_top hadd

/-! ### What the accesses keep -/

omit [DecidableEq T] in
theorem inv_new : (new : AsyncScope T).Inv := by
  have hset : (new : AsyncScope T).counted = {none} := by
    ext c
    cases c with
    | none => exact iff_of_true trivial rfl
    | some t => exact iff_of_false id nofun
  refine ⟨?_, ?_, ?_, ?_, ?_, ?_, ?_, ?_, ?_, rfl⟩
  · rw [hset, Set.encard_singleton]
    rfl
  all_goals grind [new]

/-- A coroutine that is not counted gets ready to be, by one that is. -/
theorem spawn_inv (h : s.Inv) (hrun : s.pc c = .running) (habsent : s.pc (some t) = .absent) :
    ((s.goto (some t) .starting).goto c (.spawning t)).Inv := by
  have hcounted : (s.pc c).Counted := hrun ▸ trivial
  have hresuming := h.not_resuming hcounted
  have hcounts : ((s.goto (some t) .starting).goto c (.spawning t)).counted.encard = s.count := by
    have hnot : some t ∉ s.counted := by
      rw [mem_counted, habsent]
      exact id
    rw [counted_goto_of_counted (.spawning t) trivial, counted_goto_of_not .starting id,
      Set.sdiff_singleton_eq_self hnot, Set.insert_eq_of_mem (mem_counted.mpr hcounted), h.counts]
  obtain ⟨-, h2, h3, h4, h5, h6, h7, h8, h9, h10⟩ := h
  refine ⟨hcounts, ?_, ?_, ?_, ?_, ?_, ?_, ?_, ?_, h10⟩
  all_goals simp only [goto, Function.update_apply]
  all_goals grind

/-- The spawned coroutine is counted and runs. -/
theorem started_inv (h : s.Inv) (hspawn : s.pc c = .spawning t) :
    (({ s with count := s.count + 1 }.goto (some t) .running).goto c .running).Inv := by
  have hcounted : (s.pc c).Counted := hspawn ▸ trivial
  have hresuming := h.not_resuming hcounted
  have hstarting := (h.spawning c t hspawn).1
  have hcounts :
      (({ s with count := s.count + 1 }.goto (some t) .running).goto c .running).counted.encard
      = ↑(s.count + 1) := by
    have hnot : some t ∉ s.counted := by
      rw [mem_counted, hstarting]
      exact id
    rw [counted_goto_of_counted .running trivial, counted_goto_of_counted .running trivial]
    change (insert c (insert (some t) s.counted)).encard = _
    rw [Set.insert_eq_of_mem (Set.mem_insert_of_mem _ (mem_counted.mpr hcounted)),
      Set.encard_insert_of_notMem hnot, h.counts, Nat.cast_succ]
  have hne := h.count_ne_zero hcounted
  obtain ⟨-, h2, h3, h4, h5, h6, h7, h8, h9, h10⟩ := h
  refine ⟨hcounts, ?_, ?_, ?_, ?_, ?_, ?_, ?_, ?_, h10⟩
  all_goals simp only [goto, Function.update_apply]
  all_goals grind

/-- A coroutine ends.  When it takes the last one off, then the join is suspended: a join that has
    not taken its own one off would be counted, and one that has returned has found none. -/
theorem finish_inv (h : s.Inv) (hrun : s.pc (some t) = .running) :
    ({ s with count := s.count - 1 }.goto (some t)
      (if s.count = 1 then .resuming else .done)).Inv := by
  have hcounted : (s.pc (some t)).Counted := hrun ▸ trivial
  have hne := h.count_ne_zero hcounted
  have hresuming := h.not_resuming hcounted
  have hsuspended (hone : s.count = 1) : s.pc none = .suspended := by
    have hnone : ¬ (s.pc none).Counted := fun hnone => by simpa using h.sole hone hcounted hnone
    have howner := h.owner
    have hjoined := h.joined
    cases hpc : s.pc none <;> simp_all [ScopePc.Counted]
  have hsole (hone : s.count = 1) (c' : Option T) : (s.pc c').Counted → c' = some t :=
    h.sole hone hcounted
  have hcounts :=
    h.counts_sub hcounted (if s.count = 1 then .resuming else .done) (by split <;> exact id)
  obtain ⟨-, h2, h3, h4, h5, h6, h7, h8, h9, h10⟩ := h
  refine ⟨hcounts, ?_, ?_, ?_, ?_, ?_, ?_, ?_, ?_, h10⟩
  all_goals simp only [goto, Function.update_apply]
  all_goals grind

/-- The join begins. -/
theorem join_inv (h : s.Inv) (hrun : s.pc none = .running) : (s.goto none .storing).Inv := by
  have hcounted : (s.pc none).Counted := hrun ▸ trivial
  have hresuming := h.not_resuming hcounted
  have hcounts : (s.goto none .storing).counted.encard = s.count := by
    rw [counted_goto_of_counted .storing trivial, Set.insert_eq_of_mem (mem_counted.mpr hcounted),
      h.counts]
  obtain ⟨-, h2, h3, h4, h5, h6, h7, h8, h9, h10⟩ := h
  refine ⟨hcounts, ?_, ?_, ?_, ?_, ?_, ?_, ?_, ?_, h10⟩
  all_goals simp only [goto, Function.update_apply]
  all_goals grind

theorem stored_inv (h : s.Inv) (hstoring : s.pc none = .storing) :
    ({ s with continuation := some none }.goto none .decrementing).Inv := by
  have hcounted : (s.pc none).Counted := hstoring ▸ trivial
  have hresuming := h.not_resuming hcounted
  have hcounts :
      ({ s with continuation := some none }.goto none .decrementing).counted.encard =
        (s.count : ℕ∞) := by
    rw [counted_goto_of_counted .decrementing trivial]
    change (insert none s.counted).encard = _
    rw [Set.insert_eq_of_mem (mem_counted.mpr hcounted), h.counts]
  obtain ⟨-, h2, h3, h4, h5, h6, h7, h8, h9, h10⟩ := h
  refine ⟨hcounts, ?_, ?_, ?_, ?_, ?_, ?_, ?_, ?_, h10⟩
  all_goals simp only [goto, Function.update_apply]
  all_goals grind

/-- The join takes its own one off, and is suspended if it was not the last. -/
theorem decremented_inv (h : s.Inv) (hdecrementing : s.pc none = .decrementing) :
    ({ s with count := s.count - 1 }.goto none
      (if 1 < s.count then .suspended else .joined)).Inv := by
  have hcounted : (s.pc none).Counted := hdecrementing ▸ trivial
  have hne := h.count_ne_zero hcounted
  have hresuming := h.not_resuming hcounted
  have hcounts :=
    h.counts_sub hcounted (if 1 < s.count then .suspended else .joined) (by split <;> exact id)
  obtain ⟨-, h2, h3, h4, h5, h6, h7, h8, h9, h10⟩ := h
  refine ⟨hcounts, ?_, ?_, ?_, ?_, ?_, ?_, ?_, ?_, h10⟩
  all_goals simp only [goto, Function.update_apply]
  all_goals grind

/-- The coroutine that took the last one off resumes the join. -/
theorem resumed_inv (h : s.Inv) (hresuming : s.pc c = .resuming) : (s.resume.goto c .done).Inv := by
  obtain ⟨hzero, hsuspended, hone⟩ := h.resuming c hresuming
  have heq : s.resume = s.goto none .joined := by
    unfold resume
    rw [h.stored (.inr (.inl hsuspended))]
    exact if_pos hsuspended
  rw [heq]
  have hcounts : ((s.goto none .joined).goto c .done).counted.encard = s.count := by
    have hnone : none ∉ s.counted := by
      rw [mem_counted, hsuspended]
      exact id
    have hc : c ∉ s.counted := by
      rw [mem_counted, hresuming]
      exact id
    rw [counted_goto_of_not .done id, counted_goto_of_not .joined id,
      Set.sdiff_singleton_eq_self hnone, Set.sdiff_singleton_eq_self hc, h.counts]
  obtain ⟨-, h2, h3, h4, h5, h6, h7, h8, h9, h10⟩ := h
  refine ⟨hcounts, ?_, ?_, ?_, ?_, ?_, ?_, ?_, ?_, h10⟩
  all_goals simp only [goto, Function.update_apply]
  all_goals grind

theorem inv_step {a : ScopeAction T} (h : s.Inv) (hstep : s.step a = some s') : s'.Inv := by
  cases a with
  | spawn c t =>
    obtain ⟨⟨hrun, habsent⟩, hstep⟩ := Option.ite_none_right_eq_some.mp hstep
    rw [if_pos (h.count_ne_zero (c := c) (hrun ▸ trivial))] at hstep
    obtain rfl := Option.some.inj hstep
    exact spawn_inv h hrun habsent
  | finish t =>
    obtain ⟨hrun, hstep⟩ := Option.ite_none_right_eq_some.mp hstep
    obtain rfl := Option.some.inj hstep
    exact finish_inv h hrun
  | join =>
    obtain ⟨hrun, hstep⟩ := Option.ite_none_right_eq_some.mp hstep
    obtain rfl := Option.some.inj hstep
    rcases hrun with hrun | hjoined
    · rw [if_neg (h.count_ne_zero (c := none) (hrun ▸ trivial))]
      exact join_inv h hrun
    · rw [if_pos (h.joined hjoined)]
      have heq : s.goto none .joined = s := by
        unfold goto
        rw [← hjoined, Function.update_eq_self]
      rwa [heq]
  | next c =>
    change s.advance c = some s' at hstep
    unfold advance at hstep
    split at hstep
    case h_1 t hspawn =>
      obtain rfl := Option.some.inj hstep
      exact started_inv h hspawn
    case h_2 hresuming =>
      obtain rfl := Option.some.inj hstep
      exact resumed_inv h hresuming
    case h_3 hstoring =>
      obtain rfl := Option.some.inj hstep
      obtain rfl := h.joins c (.inl hstoring)
      exact stored_inv h hstoring
    case h_4 hdecrementing =>
      obtain rfl := Option.some.inj hstep
      obtain rfl := h.joins c (.inr (.inl hdecrementing))
      exact decremented_inv h hdecrementing
    case h_5 => exact absurd hstep (by simp)

/-! ### What a scope promises -/

/-- The coroutine `t` has been spawned, and has not yet ended or resumed the join. -/
def Live (s : AsyncScope T) (t : T) : Prop := s.pc (some t) ≠ .absent ∧ s.pc (some t) ≠ .done

/-- What a scope promises: no assertion fails, and nothing is resumed but the suspended join; the
    counter is exact; a join that has returned has left nobody behind, and the scope has been
    joined as its destructor asserts; and whenever a join is suspended, somebody is left to resume
    it, and at most one will. -/
structure Promises (s : AsyncScope T) : Prop where
  asserts : s.fault = false
  exact : s.counted.encard = s.count
  joined : s.pc none = .joined → s.continuation = some none ∧ ∀ t, ¬ s.Live t
  wakes : s.pc none = .suspended → ∃ t, s.Live t
  once : ∀ t t', s.pc (some t) = .resuming → s.pc (some t') = .resuming → t' = t

theorem inv_of_run {as : List (ScopeAction T)} (hrun : run step new as = some s) : s.Inv := by
  refine inv_run (C := fun _ _ => True) ?_ inv_new ?_ hrun
  · intro s a s' h _ hstep
    exact inv_step h hstep
  · exact fun _ _ _ _ _ _ => trivial

omit [DecidableEq T] in
/-- When the counter is zero, then a coroutine that is live is about to resume the join. -/
theorem Inv.resuming_of_live (h : s.Inv) (hzero : s.count = 0) (hlive : s.Live t) :
    s.pc (some t) = .resuming := by
  have hcounted (c : Option T) : ¬ (s.pc c).Counted := fun hc => h.count_ne_zero hc hzero
  have hjoins := h.joins (some t)
  cases hpc : s.pc (some t) with
  | absent => exact absurd hpc hlive.1
  | done => exact absurd hpc hlive.2
  | starting =>
    obtain ⟨c, hspawn⟩ := h.starting t hpc
    exact absurd (hspawn ▸ trivial) (hcounted c)
  | running => exact absurd (hpc ▸ trivial) (hcounted (some t))
  | spawning t' => exact absurd (hpc ▸ trivial) (hcounted (some t))
  | storing => exact absurd (hpc ▸ trivial) (hcounted (some t))
  | decrementing => exact absurd (hpc ▸ trivial) (hcounted (some t))
  | suspended => simp [hpc] at hjoins
  | joined => simp [hpc] at hjoins
  | resuming => rfl

omit [DecidableEq T] in
/-- Somebody is left to resume a suspended join: who is counted, or who took the last one off. -/
theorem Inv.exists_live (h : s.Inv) (hsuspended : s.pc none = .suspended) : ∃ t, s.Live t := by
  have hexists : ∃ c, (s.pc c).Counted ∨ s.pc c = .resuming := by
    by_cases hzero : s.count = 0
    · obtain ⟨c, hc⟩ := h.resumed hsuspended hzero
      exact ⟨c, .inr hc⟩
    · have hne : s.counted.encard ≠ 0 := by
        rw [h.counts]
        exact Nat.cast_ne_zero.mpr hzero
      obtain ⟨c, hc⟩ := Set.nonempty_of_encard_ne_zero hne
      exact ⟨c, .inl hc⟩
  obtain ⟨c, hc⟩ := hexists
  cases c with
  | none =>
    rw [hsuspended] at hc
    rcases hc with hc | hc
    · exact hc.elim
    · cases hc
  | some t =>
    refine ⟨t, ?_, ?_⟩
    all_goals
      intro hpc
      rw [hpc] at hc
      rcases hc with hc | hc
      · exact hc.elim
      · cases hc

/-- A coroutine spawns another one while the join is suspended already; the second one ends last,
    and resumes it. -/
def lateSpawn : List (ScopeAction (Fin 2)) :=
  [.spawn none 0, .next none, .join, .next none, .next none, .spawn (some 0) 1, .next (some 0),
   .finish 0, .finish 1, .next (some 1)]

end AsyncScope

end StorageEngine.Net
