/-
  StorageEngine/Net/SpinLoops.lean
  ================================
  **The loops of the spin lock** (`net/util/spinlock.hpp`).

  A thread that takes the lock exchanges the lock word if it can, and otherwise goes round in two
  loops, the first with an end and the second without, in which it loads the word and tries again;
  in the second loop it also marks the word of a lock that is taken.  Here every access to the word
  is a step of its own, and a weak exchange may fail for no reason.  `SpinLock.lock` is what a
  thread finds that nobody disturbs.
-/
import StorageEngine.FifoLock
import StorageEngine.Net.EventCount

namespace StorageEngine.Net

open StorageEngine.StepMachine

/-! ### The accesses -/

/-- Where a thread stands in `lock`: before the strong exchange; before the load of a round of the
    first loop, or of the second loop, which is round 100; and before an exchange, with the word
    that was loaded. -/
inductive SpinPc where
  | idle
  | trying
  | loading (round : Nat)
  | swapping (round : Nat) (expected : UInt32)
  | marking (expected : UInt32)
  | owns
deriving DecidableEq, Repr

structure SpinLoops (C : Type) where
  lock : SpinLock
  pc : C → SpinPc
  events : List (LockEvent C)

inductive SpinAction (C : Type) where
  | lock (c : C)
  | unlock (c : C)
  /-- The next access; a weak exchange may fail. -/
  | next (c : C) (fails : Bool)
deriving DecidableEq, Repr

namespace SpinLoops

variable {C : Type} [DecidableEq C]

def kSleeper : UInt32 := 8

def kRounds : Nat := 100

def new : SpinLoops C := ⟨{}, fun _ => .idle, []⟩

def goto (s : SpinLoops C) (c : C) (pc : SpinPc) : SpinLoops C :=
  { s with pc := Function.update s.pc c pc }

/-- What an access has put into the word. -/
def write (s : SpinLoops C) (lock : SpinLock) : SpinLoops C := { s with lock := lock }

def record (s : SpinLoops C) (e : LockEvent C) : SpinLoops C := { s with events := s.events ++ [e] }

/-- An exchange has put `kLocked` into the word. -/
def acquire (s : SpinLoops C) (c : C) : SpinLoops C :=
  ((s.write ⟨SpinLock.kLocked⟩).record (.acquire c)).goto c .owns

/-- `unlock`. -/
def release (s : SpinLoops C) (c : C) : SpinLoops C :=
  ((s.write s.lock.unlock).record (.release c)).goto c .idle

/-- The second loop has no end. -/
def nextRound (round : Nat) : Nat := if round < kRounds then round + 1 else round

/-- Where the thread goes with the word that it has loaded. -/
def loaded (s : SpinLoops C) (round : Nat) : SpinPc :=
  if s.lock.Free then .swapping round s.lock.lockword
  else if round < kRounds then .loading (nextRound round)
  else .marking s.lock.lockword

/-- The next access of `lock` and `slowLock`. -/
def advance (s : SpinLoops C) (c : C) (fails : Bool) : Option (SpinLoops C) :=
  match s.pc c with
  | .trying => some (if s.lock.lockword = 0 then s.acquire c else s.goto c (.loading 0))
  | .loading round => some (s.goto c (s.loaded round))
  | .swapping round expected =>
    some (if s.lock.lockword = expected ∧ fails = false then s.acquire c else s.goto c
      (.loading (nextRound round)))
  | .marking expected =>
    some ((if s.lock.lockword = expected ∧ fails = false then s.write
      ⟨expected ||| kSleeper⟩ else s).goto c
      (.loading kRounds))
  | .idle | .owns => none

def step (s : SpinLoops C) : SpinAction C → Option (SpinLoops C)
  | .lock c => if s.pc c = .idle then some (s.goto c .trying) else none
  | .unlock c => if s.pc c = .owns then some (s.release c) else none
  | .next c fails => s.advance c fails

/-! ### The word and its owner -/

/-- What the word and the threads know of the owner.  A word that is expected to be free is zero,
    since the mark is only put on a word that is locked. -/
structure Shows (s : SpinLoops C) (owner : Option C) : Prop where
  events : run FifoLock.step FifoLock.free s.events = some ⟨owner, []⟩
  owns : ∀ c, s.pc c = .owns ↔ owner = some c
  word : s.lock.lockword = 0 ∧ owner = none ∨ (s.lock.lockword = 1 ∨ s.lock.lockword = 9) ∧
    owner ≠ none
  swaps : ∀ c round expected, s.pc c = .swapping round expected → expected = 0
  marks : ∀ c expected, s.pc c = .marking expected → expected = 1 ∨ expected = 9

variable {s s' : SpinLoops C} {owner : Option C} {c : C} {pc : SpinPc}

@[simp] theorem goto_pc : (s.goto c pc).pc c = pc := Function.update_self ..

/-- The word says whether the lock has an owner. -/
theorem Shows.free_iff (h : s.Shows owner) : s.lock.Free ↔ owner = none := by
  unfold SpinLock.Free
  rcases h.word with ⟨hword, howner⟩ | ⟨hword | hword, howner⟩
  · rw [hword]
    exact iff_of_true (by decide) howner
  · rw [hword]
    exact iff_of_false (by decide) howner
  · rw [hword]
    exact iff_of_false (by decide) howner

/-- The word of a free lock is zero. -/
theorem Shows.lockword_eq_zero (h : s.Shows owner) (hfree : s.lock.Free) : s.lock.lockword = 0 := by
  rcases h.word with ⟨hword, -⟩ | ⟨-, howner⟩
  · exact hword
  · exact absurd (h.free_iff.mp hfree) howner

theorem shows_new : (new : SpinLoops C).Shows none :=
  ⟨rfl, fun _ => iff_of_false nofun nofun, .inl ⟨rfl, rfl⟩, nofun, nofun⟩

/-- A thread moves on inside of `lock`. -/
theorem Shows.goto (h : s.Shows owner) (hfrom : s.pc c ≠ .owns) (hto : pc ≠ .owns)
    (hswaps : ∀ round expected, pc = .swapping round expected → expected = 0)
    (hmarks : ∀ expected, pc = .marking expected → expected = 1 ∨ expected = 9) :
    (s.goto c pc).Shows owner := by
  obtain ⟨hevents, howner, hword, hs, hm⟩ := h
  refine ⟨hevents, ?_, hword, ?_, ?_⟩
  all_goals simp only [SpinLoops.goto, Function.update_apply]
  all_goals grind

/-- A free lock is taken. -/
theorem Shows.acquire (h : s.Shows owner) (hfree : s.lock.lockword = 0) :
    (s.acquire c).Shows (some c) ∧ s.lock.lock = some (s.acquire c).lock := by
  obtain rfl : owner = none := by
    apply h.free_iff.mp
    rw [SpinLock.Free, hfree]
    decide
  refine ⟨⟨?_, ?_, .inr ⟨.inl rfl, nofun⟩, ?_, ?_⟩, if_pos (h.free_iff.mpr rfl)⟩
  · exact run_append_eq_some.mpr ⟨_, h.events, rfl⟩
  all_goals
    have howner := h.owns
    have hs := h.swaps
    have hm := h.marks
    simp only [SpinLoops.acquire, write, record, SpinLoops.goto, Function.update_apply]
    grind

/-- The owner leaves. -/
theorem Shows.release (h : s.Shows owner) (howns : s.pc c = .owns) : (s.release c).Shows none := by
  obtain rfl := (h.owns c).mp howns
  refine ⟨?_, ?_, .inl ⟨rfl, rfl⟩, ?_, ?_⟩
  · exact run_append_eq_some.mpr ⟨_, h.events, by simp [FifoLock.step, run]⟩
  all_goals
    have howner := h.owns
    have hs := h.swaps
    have hm := h.marks
    simp only [SpinLoops.release, write, record, SpinLoops.goto, Function.update_apply]
    grind

/-- The word of a lock that is taken is marked. -/
theorem Shows.mark (h : s.Shows owner) {expected : UInt32} (hmarking : s.pc c = .marking expected)
    (hword : s.lock.lockword = expected) : (s.write ⟨expected ||| kSleeper⟩).Shows owner := by
  have hlocked := h.marks c expected hmarking
  refine ⟨h.events, h.owns, .inr ⟨.inr ?_, ?_⟩, h.swaps, h.marks⟩
  · rcases hlocked with rfl | rfl <;> rfl
  · rcases h.word with ⟨hzero, -⟩ | ⟨-, howner⟩
    · rw [← hword, hzero] at hlocked
      exact absurd hlocked (by decide)
    · exact howner

/-- The thread is inside of `lock`. -/
def Spins (s : SpinLoops C) (c : C) : Prop := s.pc c ≠ .idle ∧ s.pc c ≠ .owns

theorem spins_goto (hidle : pc ≠ .idle) (howns : pc ≠ .owns) : (s.goto c pc).Spins c := by
  unfold Spins
  rw [goto_pc]
  exact ⟨hidle, howns⟩

/-- The thread goes where the word that it has loaded leads to. -/
theorem Shows.load (h : s.Shows owner) {round : Nat} (hloading : s.pc c = .loading round) :
    (s.goto c (s.loaded round)).Shows owner ∧ (s.goto c (s.loaded round)).Spins c := by
  have howns : s.pc c ≠ .owns := by
    rw [hloading]
    nofun
  unfold loaded
  split
  case isTrue hfree =>
    refine ⟨h.goto howns nofun ?_ nofun, spins_goto nofun nofun⟩
    rintro _ _ ⟨⟩
    exact h.lockword_eq_zero hfree
  case isFalse hlocked =>
    split
    · exact ⟨h.goto howns nofun nofun nofun, spins_goto nofun nofun⟩
    · refine ⟨h.goto howns nofun nofun ?_, spins_goto nofun nofun⟩
      rintro _ ⟨⟩
      rcases h.word with ⟨-, howner⟩ | ⟨hword, -⟩
      · exact absurd (h.free_iff.mpr howner) hlocked
      · exact hword

/-- An access inside of `lock`: the thread has taken the lock, as `SpinLock.lock` does, or it is
    still inside, and the lock has the owner that it had. -/
theorem Shows.advance {fails : Bool} (h : s.Shows owner) (hstep : s.advance c fails = some s') :
    (s'.Shows (some c) ∧ s.lock.lock = some s'.lock) ∨ (s'.Shows owner ∧ s'.Spins c) := by
  unfold SpinLoops.advance at hstep
  split at hstep
  case h_1 htrying =>
    obtain rfl := Option.some.inj hstep
    split
    case isTrue hzero => exact .inl (h.acquire hzero)
    case isFalse => exact .inr ⟨h.goto (by rw [htrying]; nofun) nofun nofun nofun,
      spins_goto nofun nofun⟩
  case h_2 round hloading =>
    obtain rfl := Option.some.inj hstep
    exact .inr (h.load hloading)
  case h_3 round expected hswapping =>
    obtain rfl := Option.some.inj hstep
    split
    case isTrue hswap => exact .inl (h.acquire (hswap.1.trans (h.swaps c round expected hswapping)))
    case isFalse => exact .inr ⟨h.goto (by rw [hswapping]; nofun) nofun nofun nofun,
      spins_goto nofun nofun⟩
  case h_4 expected hmarking =>
    obtain rfl := Option.some.inj hstep
    refine .inr ⟨?_, spins_goto nofun nofun⟩
    split
    case isTrue hswap =>
      have hpc : (s.write ⟨expected ||| kSleeper⟩).pc c ≠ .owns := by
        change s.pc c ≠ .owns
        rw [hmarking]
        nofun
      exact (h.mark hmarking hswap.1).goto hpc nofun nofun nofun
    case isFalse => exact h.goto (by rw [hmarking]; nofun) nofun nofun nofun
  case h_5 => exact absurd hstep (by simp)
  case h_6 => exact absurd hstep (by simp)

/-! ### Runs -/

theorem Shows.step {a : SpinAction C} (h : s.Shows owner) (hstep : s.step a = some s') :
    ∃ owner', s'.Shows owner' := by
  cases a with
  | lock c =>
    obtain ⟨hidle, hstep⟩ := Option.ite_none_right_eq_some.mp hstep
    obtain rfl := Option.some.inj hstep
    exact ⟨owner, h.goto (by rw [hidle]; nofun) nofun nofun nofun⟩
  | unlock c =>
    obtain ⟨howns, hstep⟩ := Option.ite_none_right_eq_some.mp hstep
    obtain rfl := Option.some.inj hstep
    exact ⟨none, h.release howns⟩
  | next c fails =>
    rcases h.advance hstep with ⟨htaken, -⟩ | ⟨hsame, -⟩
    · exact ⟨some c, htaken⟩
    · exact ⟨owner, hsame⟩

theorem shows_of_run {as : List (SpinAction C)} (hrun : run step new as = some s) :
    ∃ owner, s.Shows owner := by
  have hkeeps : ∀ (s : SpinLoops C) a s', (∃ owner, s.Shows owner) → True → step s a = some s' →
      ∃ owner, s'.Shows owner := by
    rintro s a s' ⟨owner, h⟩ - hstep
    exact h.step hstep
  exact inv_run (C := fun _ _ => True) hkeeps ⟨none, shows_new⟩ (fun _ _ _ _ _ _ => trivial) hrun

/-- **The spin lock excludes**: after every run of the accesses of any threads that take and release
    the lock, in any interleaving, the exchanges and stores are those of a lock that has one owner;
    a thread has the lock exactly when it is the owner; and the word says whether there is one. -/
theorem owner_of_run {as : List (SpinAction C)} (hrun : run step new as = some s) :
    ∃ owner, run FifoLock.step FifoLock.free s.events = some ⟨owner, []⟩ ∧
      (∀ c, s.pc c = .owns ↔ owner = some c) ∧ (s.lock.Free ↔ owner = none) := by
  obtain ⟨owner, h⟩ := shows_of_run hrun
  exact ⟨owner, h.events, h.owns, h.free_iff⟩

/-! ### A thread that nobody disturbs -/

/-- The thread makes so many accesses, the others none, and no exchange fails for no reason. -/
def Alone (s : SpinLoops C) (c : C) (k : Nat) (s' : SpinLoops C) : Prop :=
  run step s (List.replicate k (.next c false)) = some s'

theorem Alone.cons {t : SpinLoops C} {k : Nat} (hstep : s.advance c false = some t)
    (h : t.Alone c k s') :
    s.Alone c (k + 1) s' :=
  run_cons_eq_some.mpr ⟨t, hstep, h⟩

/-- The word is expected as it is. -/
theorem alone_swapping {round : Nat} (hswapping : s.pc c = .swapping round s.lock.lockword) :
    s.Alone c 1 (s.acquire c) := by
  refine .cons ?_ rfl
  unfold advance
  rw [hswapping]
  exact congrArg some (if_pos ⟨rfl, rfl⟩)

/-- The word of a free lock is loaded and exchanged. -/
theorem alone_loading {round : Nat} (hfree : s.lock.Free) (hloading : s.pc c = .loading round) :
    ∃ s', s.Alone c 2 s' ∧ s'.pc c = .owns ∧ s.lock.lock = some s'.lock := by
  have hload : s.advance c false = some (s.goto c (.swapping round s.lock.lockword)) := by
    unfold advance
    rw [hloading]
    exact congrArg (fun pc => some (s.goto c pc)) (if_pos hfree)
  have hswap : (s.goto c (.swapping round s.lock.lockword)).Alone c 1 _ := alone_swapping goto_pc
  exact ⟨_, .cons hload hswap, goto_pc, if_pos hfree⟩

/-- A thread that finds the lock free has it after three accesses at most. -/
theorem Shows.alone_free (h : s.Shows owner) (hspins : s.Spins c) (hfree : s.lock.Free) :
    ∃ k ≤ 3, ∃ s', s.Alone c k s' ∧ s'.pc c = .owns ∧ s.lock.lock = some s'.lock := by
  have hzero := h.lockword_eq_zero hfree
  cases hpc : s.pc c with
  | idle => exact absurd hpc hspins.1
  | owns => exact absurd hpc hspins.2
  | trying =>
    have hacquire : s.advance c false = some (s.acquire c) := by
      unfold SpinLoops.advance
      rw [hpc]
      exact congrArg some (if_pos hzero)
    exact ⟨1, by decide, _, .cons hacquire rfl, goto_pc, (h.acquire hzero).2⟩
  | loading round =>
    obtain ⟨s', halone⟩ := alone_loading hfree hpc
    exact ⟨2, by decide, s', halone⟩
  | swapping round expected =>
    obtain rfl : expected = s.lock.lockword := (h.swaps c round expected hpc).trans hzero.symm
    exact ⟨1, by decide, _, alone_swapping hpc, goto_pc, (h.acquire hzero).2⟩
  | marking expected =>
    -- the word is not what it was any more
    have hne : s.lock.lockword ≠ expected := by
      rw [hzero]
      rcases h.marks c expected hpc with rfl | rfl
      · decide
      · decide
    have hreload : s.advance c false = some (s.goto c (.loading kRounds)) := by
      unfold SpinLoops.advance
      rw [hpc]
      exact congrArg (fun t => some (SpinLoops.goto t c (.loading kRounds)))
        (if_neg fun hswap => hne hswap.1)
    obtain ⟨s', halone, howns, hlock⟩ :=
      alone_loading (s := s.goto c (.loading kRounds)) hfree goto_pc
    exact ⟨3, by decide, s', .cons hreload halone, howns, hlock⟩

/-- A thread that finds the lock taken goes on and on. -/
theorem Shows.alone_locked (h : s.Shows owner) (hspins : s.Spins c)
    (howner : owner ≠ none) (k : Nat) :
    ∃ s', s.Alone c k s' ∧ s'.Spins c := by
  induction k generalizing s with
  | zero => exact ⟨s, rfl, hspins⟩
  | succ k ih =>
    obtain ⟨t, hstep⟩ : ∃ t, s.advance c false = some t := by
      unfold SpinLoops.advance
      cases hpc : s.pc c with
      | idle => exact absurd hpc hspins.1
      | owns => exact absurd hpc hspins.2
      | _ => exact ⟨_, rfl⟩
    rcases h.advance hstep with ⟨-, htaken⟩ | ⟨ht, hspins'⟩
    · rw [SpinLock.lock_of_not_free fun hfree => howner (h.free_iff.mp hfree)] at htaken
      cases htaken
    · obtain ⟨s', halone, hs'⟩ := ih ht hspins'
      exact ⟨s', .cons hstep halone, hs'⟩

/-- **The loops are `SpinLock.lock`**: a thread inside of `lock` that nobody disturbs has the lock
    after three accesses at most, and leaves in the word what `SpinLock.lock` does; and where that
    never gets on, neither does the thread, in any number of accesses. -/
theorem lock_alone {as : List (SpinAction C)} (hrun : run step new as = some s)
    (hspins : s.Spins c) :
    (∀ l, s.lock.lock = some l → ∃ k ≤ 3, ∃ s', s.Alone c k s' ∧ s'.pc c = .owns ∧ s'.lock = l) ∧
      (s.lock.lock = none → ∀ k, ∃ s', s.Alone c k s' ∧ s'.Spins c) := by
  obtain ⟨owner, h⟩ := shows_of_run hrun
  constructor
  · intro l hl
    have hfree : s.lock.Free := by
      by_contra hlocked
      rw [SpinLock.lock_of_not_free hlocked] at hl
      cases hl
    obtain ⟨k, hk, s', halone, howns, hlock⟩ := h.alone_free hspins hfree
    exact ⟨k, hk, s', halone, howns, Option.some.inj (hlock.symm.trans hl)⟩
  · intro hstuck
    refine h.alone_locked hspins fun howner => ?_
    have hfree := h.free_iff.mpr howner
    rw [SpinLock.lock, if_pos hfree] at hstuck
    cases hstuck

/-- A thread spins while another one has the lock, marks the word, and has the lock in the end. -/
def twoThreads : List (SpinAction Bool) :=
  [.lock false, .next false false, .lock true, .next true false]
    ++ List.replicate 102 (.next true false) ++ [.unlock false, .lock false, .next true false]

theorem owner_of_run_twoThreads : ∃ (s : SpinLoops Bool) (owner : Option Bool),
    run step new twoThreads = some s ∧
    s.events = [.acquire false, .release false] ∧ run FifoLock.step FifoLock.free s.events =
      some ⟨owner, []⟩ ∧
      (∀ c, s.pc c = .owns ↔ owner = some c) ∧ (s.lock.Free ↔ owner = none) := by
  have hrun : (run step (new : SpinLoops Bool) twoThreads).map events =
      some [.acquire false, .release false] := by
    decide +kernel
  obtain ⟨s, hs, hevents⟩ := Option.map_eq_some_iff.mp hrun
  obtain ⟨owner, howner⟩ := owner_of_run hs
  exact ⟨s, owner, hs, hevents, howner⟩

theorem lock_alone_twoThreads : ∃ s : SpinLoops Bool, run step new twoThreads = some s ∧
    (∃ k ≤ 3, ∃ s', s.Alone true k s' ∧ s'.pc true = .owns ∧ s'.lock = ⟨SpinLock.kLocked⟩) := by
  have hrun : (run step (new : SpinLoops Bool) twoThreads).map
      (fun s => decide (s.lock = {} ∧ s.pc true ≠ .idle ∧
      s.pc true ≠ .owns)) = some true := by decide +kernel
  obtain ⟨s, hs, hstate⟩ := Option.map_eq_some_iff.mp hrun
  obtain ⟨hlock, hspins⟩ := of_decide_eq_true hstate
  refine ⟨s, hs, (lock_alone hs hspins).1 _ ?_⟩
  rw [hlock]
  rfl

end SpinLoops

end StorageEngine.Net
