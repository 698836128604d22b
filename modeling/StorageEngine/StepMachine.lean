/-
  StorageEngine/StepMachine.lean
  ==============================
  **Runs of a step machine.**

  A machine is a partial step function on states and actions: `none` says that the
  action is not possible in the state.  A run takes a list of actions one after the
  other.  A condition on single steps extends to a run by asking for it at every step,
  in the state the run has then; an invariant that the steps under the condition keep
  holds in every state that such a run reaches.
-/
import Mathlib.Data.List.Basic

namespace StorageEngine.StepMachine

variable {S A : Type*} (step : S → A → Option S)

/-- The state after a list of actions. -/
def run : S → List A → Option S
  | s, [] => some s
  | s, a :: as => (step s a).bind fun s' => run s' as

/-- Every action of the list is taken in a state that `C` admits it in. -/
def Along (C : S → A → Prop) (s : S) (as : List A) : Prop :=
  ∀ before a after t, as = before ++ a :: after → run step s before = some t → C t a

variable {step}

@[simp] theorem run_nil (s : S) : run step s [] = some s := rfl

theorem run_cons_eq_some {s s' : S} {a : A} {as : List A} :
    run step s (a :: as) = some s' ↔ ∃ t, step s a = some t ∧ run step t as = some s' := by
  rw [run, Option.bind_eq_some_iff]

theorem run_append_eq_some {s s' : S} {as bs : List A} :
    run step s (as ++ bs) = some s' ↔ ∃ t, run step s as = some t ∧ run step t bs = some s' := by
  induction as generalizing s with
  | nil => simp
  | cons a as ih =>
    simp only [List.cons_append, run_cons_eq_some, ih]
    constructor
    · rintro ⟨u, hu, t, ht, hrest⟩
      exact ⟨t, ⟨u, hu, ht⟩, hrest⟩
    · rintro ⟨t, ⟨u, hu, ht⟩, hrest⟩
      exact ⟨u, hu, t, ht, hrest⟩

theorem along_nil (C : S → A → Prop) (s : S) : Along step C s [] := by
  intro before a after t h
  exact absurd h (by simp)

/-- A condition along a list of actions, action by action. -/
theorem along_cons {C : S → A → Prop} {s : S} {a : A} {as : List A} :
    Along step C s (a :: as) ↔ C s a ∧ ∀ t, step s a = some t → Along step C t as := by
  constructor
  · intro h
    refine ⟨h [] a as s rfl rfl, ?_⟩
    rintro t ht before b after u rfl hu
    exact h (a :: before) b after u rfl (run_cons_eq_some.mpr ⟨t, ht, hu⟩)
  · rintro ⟨hfirst, hrest⟩ before b after u heq hu
    cases before with
    | nil =>
      obtain ⟨rfl, rfl⟩ := List.cons.inj heq
      rw [run_nil] at hu
      exact Option.some.inj hu ▸ hfirst
    | cons b' before =>
      obtain ⟨rfl, rfl⟩ := List.cons.inj heq
      obtain ⟨t, ht, hu⟩ := run_cons_eq_some.mp hu
      exact hrest t ht before b after u rfl hu

/-- A condition along a list of actions is decided by taking them. -/
instance decidableAlong {C : S → A → Prop} [∀ s a, Decidable (C s a)] :
    ∀ (as : List A) (s : S), Decidable (Along step C s as)
  | [], s => isTrue (along_nil C s)
  | a :: as, s =>
    match h : step s a with
    | none => decidable_of_iff (C s a) (by simp [along_cons, h])
    | some t =>
      have := decidableAlong (C := C) as t
      decidable_of_iff (C s a ∧ Along step C t as) (by simp [along_cons, h])

theorem along_append {C : S → A → Prop} {s : S} {as bs : List A} :
    Along step C s (as ++ bs) ↔
      Along step C s as ∧ ∀ t, run step s as = some t → Along step C t bs := by
  induction as generalizing s with
  | nil => simp [along_nil]
  | cons a as ih =>
    simp only [List.cons_append, along_cons, ih, run_cons_eq_some]
    constructor
    · rintro ⟨hfirst, hrest⟩
      exact ⟨⟨hfirst, fun t ht => (hrest t ht).1⟩, fun u ⟨t, ht, hu⟩ => (hrest t ht).2 u hu⟩
    · rintro ⟨⟨hfirst, hrest⟩, hlast⟩
      exact ⟨hfirst, fun t ht => ⟨hrest t ht, fun u hu => hlast u ⟨t, ht, hu⟩⟩⟩

/-- **The invariant rule.** -/
theorem inv_run {Inv : S → Prop} {C : S → A → Prop}
    (hstep : ∀ s a s', Inv s → C s a → step s a = some s' → Inv s') {s s' : S} {as : List A}
    (hs : Inv s) (hC : Along step C s as) (hrun : run step s as = some s') : Inv s' := by
  induction as generalizing s with
  | nil =>
    rw [run_nil] at hrun
    exact Option.some.inj hrun ▸ hs
  | cons a as ih =>
    obtain ⟨t, ht, hrun⟩ := run_cons_eq_some.mp hrun
    obtain ⟨hfirst, hrest⟩ := along_cons.mp hC
    exact ih (hstep s a t hs hfirst ht) (hrest t ht) hrun

/-- Two conditions that agree as long as an invariant holds, and keep it, hold along the same
    runs. -/
theorem along_congr {Inv : S → Prop} {C D : S → A → Prop}
    (hiff : ∀ s a, Inv s → (C s a ↔ D s a))
    (hstep : ∀ s a s', Inv s → D s a → step s a = some s' → Inv s') {s : S} {as : List A}
    (hs : Inv s) : Along step C s as ↔ Along step D s as := by
  induction as generalizing s with
  | nil => exact iff_of_true (along_nil C s) (along_nil D s)
  | cons a as ih =>
    rw [along_cons, along_cons, hiff s a hs]
    apply and_congr_right
    intro hD
    apply forall_congr'
    intro t
    apply imp_congr_right
    intro ht
    exact ih (hstep s a t hs hD ht)

/-- The same along a run that is made to the end, where only the steps taken count. -/
theorem along_congr_of_run {I : S → Prop} {C D : S → A → Prop}
    (hiff : ∀ s a s', I s → step s a = some s' → (C s a ↔ D s a))
    (hstep : ∀ s a s', I s → D s a → step s a = some s' → I s') {s s' : S} {as : List A}
    (hs : I s) (hrun : run step s as = some s') : Along step C s as ↔ Along step D s as := by
  induction as generalizing s with
  | nil => exact iff_of_true (along_nil C s) (along_nil D s)
  | cons a as ih =>
    obtain ⟨t, ht, htail⟩ := run_cons_eq_some.mp hrun
    rw [along_cons, along_cons, hiff s a t hs ht]
    apply and_congr_right
    intro hD
    apply forall_congr'
    intro u
    apply imp_congr_right
    intro hu
    obtain rfl : t = u := Option.some.inj (ht.symm.trans hu)
    exact ih (hstep s a t hs hD ht) htail

/-- **The exactness rule.**  If a step ends in `P` exactly when it starts there and is taken
    under the condition, then a run ends in `P` exactly when it starts there and takes every
    step under the condition. -/
theorem run_iff {Inv P : S → Prop} {C : S → A → Prop}
    (hstep : ∀ s a s', Inv s → step s a = some s' → Inv s' ∧ (P s' ↔ P s ∧ C s a))
    {s s' : S} {as : List A} (hs : Inv s) (hrun : run step s as = some s') :
    Inv s' ∧ (P s' ↔ P s ∧ Along step C s as) := by
  induction as generalizing s with
  | nil =>
    obtain rfl := Option.some.inj hrun
    exact ⟨hs, (and_iff_left (along_nil C s)).symm⟩
  | cons a as ih =>
    obtain ⟨t, ht, htail⟩ := run_cons_eq_some.mp hrun
    obtain ⟨hinv, hfirst⟩ := hstep s a t hs ht
    obtain ⟨hinv', hrest⟩ := ih hinv htail
    refine ⟨hinv', ?_⟩
    rw [hrest, hfirst, along_cons, and_assoc]
    apply and_congr_right
    intro _
    apply and_congr_right
    intro _
    constructor
    · intro h u hu
      rw [ht] at hu
      exact Option.some.inj hu ▸ h
    · intro h
      exact h t ht

/-- **The simulation rule under a condition.** -/
theorem run_map_along {S' A' : Type*} {step' : S' → A' → Option S'} {f : S → S'} {g : A → A'}
    {Inv : S → Prop} {C : S → A → Prop}
    (hsim : ∀ s a s', Inv s → C s a → step s a = some s' →
      Inv s' ∧ step' (f s) (g a) = some (f s'))
    {s s' : S} {as : List A} (hs : Inv s) (hC : Along step C s as)
    (hrun : run step s as = some s') :
    Inv s' ∧ run step' (f s) (as.map g) = some (f s') := by
  induction as generalizing s with
  | nil =>
    obtain rfl := Option.some.inj hrun
    exact ⟨hs, rfl⟩
  | cons a as ih =>
    obtain ⟨t, ht, htail⟩ := run_cons_eq_some.mp hrun
    obtain ⟨hfirst, hrest⟩ := along_cons.mp hC
    obtain ⟨hinv, hstep⟩ := hsim s a t hs hfirst ht
    obtain ⟨hinv', hrun'⟩ := ih hinv (hrest t ht) htail
    exact ⟨hinv', run_cons_eq_some.mpr ⟨f t, hstep, hrun'⟩⟩

/-- **The simulation rule.**  If every step of a machine is a step of another one between the
    images of its states, then every run is one. -/
theorem run_map {S' A' : Type*} {step' : S' → A' → Option S'} {f : S → S'} {g : A → A'}
    {Inv : S → Prop}
    (hsim : ∀ s a s', Inv s → step s a = some s' → Inv s' ∧ step' (f s) (g a) = some (f s'))
    {s s' : S} {as : List A} (hs : Inv s) (hrun : run step s as = some s') :
    Inv s' ∧ run step' (f s) (as.map g) = some (f s') :=
  run_map_along (C := fun _ _ => True) (fun s a s' hinv _ => hsim s a s' hinv) hs
    (fun _ _ _ _ _ _ => trivial) hrun

/-- **The forward simulation rule.**  If every step between related states is matched by the
    actions of another machine that it stands for, none or several of them, then so is every
    run. -/
theorem run_rel_along {S' A' : Type*} {step' : S' → A' → Option S'} {g : A → List A'}
    {R : S → S' → Prop} {C : S → A → Prop}
    (hsim : ∀ s a t u, R s u → C s a → step s a = some t → ∃ u',
      run step' u (g a) = some u' ∧ R t u')
    {s s' : S} {u : S'} {as : List A} (hR : R s u) (hC : Along step C s as)
    (hrun : run step s as = some s') : ∃ u', run step' u (as.flatMap g) = some u' ∧ R s' u' := by
  induction as generalizing s u with
  | nil =>
    obtain rfl := Option.some.inj hrun
    exact ⟨u, rfl, hR⟩
  | cons a as ih =>
    obtain ⟨t, ht, htail⟩ := run_cons_eq_some.mp hrun
    obtain ⟨hfirst, hrest⟩ := along_cons.mp hC
    obtain ⟨v, hv, hRt⟩ := hsim s a t u hR hfirst ht
    obtain ⟨u', hu', hR'⟩ := ih hRt (hrest t ht) htail
    exact ⟨u', run_append_eq_some.mpr ⟨v, hv, hu'⟩, hR'⟩

end StorageEngine.StepMachine
