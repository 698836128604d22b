/-
  StorageEngine/WhileLoop.lean
  ============================
  **Loops that may not end.**

  A round of a loop goes on with another state or leaves with a result.  A loop ends with a
  result if some number of rounds is enough to reach it.
-/
import Mathlib.Data.List.Basic

namespace StorageEngine.WhileLoop

variable {S R : Type*} (round : S → S ⊕ R)

/-- The result of a loop, if it needs at most the given number of rounds. -/
def run : Nat → S → Option R
  | 0, _ => none
  | fuel + 1, s =>
    match round s with
    | .inl s' => run fuel s'
    | .inr r => some r

def Ends (s : S) (r : R) : Prop := ∃ fuel, run round fuel s = some r

/-- The states at the beginnings of the rounds. -/
inductive Reaches : S → S → Prop
  | refl (s : S) : Reaches s s
  | head {s t u : S} : round s = .inl t → Reaches t u → Reaches s u

variable {round} {s s' : S} {r : R}

theorem reaches_cases (h : Reaches round s s') :
    s = s' ∨ ∃ t, round s = .inl t ∧ Reaches round t s' := by
  cases h with
  | refl => exact Or.inl rfl
  | head hround hreach => exact Or.inr ⟨_, hround, hreach⟩

theorem Reaches.tail {t u : S} (h : Reaches round s t) (hround : round t = .inl u) :
    Reaches round s u := by
  induction h with
  | refl s => exact .head hround (.refl u)
  | head hfirst _ ih => exact .head hfirst (ih hround)

/-- **The invariant rule.** -/
theorem Reaches.inv {I : S → Prop} (hround : ∀ t u, I t → round t = .inl u → I u)
    (hs : I s) (h : Reaches round s s') : I s' := by
  induction h with
  | refl => exact hs
  | head hfirst _ ih => exact ih (hround _ _ hs hfirst)

theorem ends_of_leave (h : round s = .inr r) : Ends round s r := by
  refine ⟨1, ?_⟩
  rw [run, h]

theorem ends_iff_of_continue (h : round s = .inl s') : Ends round s r ↔ Ends round s' r := by
  constructor
  · rintro ⟨fuel, hrun⟩
    cases fuel with
    | zero => cases hrun
    | succ fuel =>
      rw [run, h] at hrun
      exact ⟨fuel, hrun⟩
  · rintro ⟨fuel, hrun⟩
    refine ⟨fuel + 1, ?_⟩
    rw [run, h]
    exact hrun

theorem ends_iff_of_reaches (h : Reaches round s s') : Ends round s r ↔ Ends round s' r := by
  induction h with
  | refl => exact Iff.rfl
  | head hfirst _ ih => exact (ends_iff_of_continue hfirst).trans ih

/-- A loop that ends leaves in a round that it reaches. -/
theorem Ends.reaches (h : Ends round s r) : ∃ t, Reaches round s t ∧ round t = .inr r := by
  obtain ⟨fuel, hrun⟩ := h
  induction fuel generalizing s with
  | zero => cases hrun
  | succ fuel ih =>
    rw [run] at hrun
    cases hround : round s with
    | inl t =>
      rw [hround] at hrun
      obtain ⟨u, hreach, hleave⟩ := ih hrun
      exact ⟨u, .head hround hreach, hleave⟩
    | inr r' =>
      rw [hround] at hrun
      cases hrun
      exact ⟨s, .refl s, hround⟩

/-- More rounds than needed change nothing. -/
theorem run_mono {fuel fuel' : Nat} (h : run round fuel s = some r) (hle : fuel ≤ fuel') :
    run round fuel' s = some r := by
  induction fuel generalizing s fuel' with
  | zero => cases h
  | succ fuel ih =>
    cases fuel' with
    | zero => omega
    | succ fuel' =>
      rw [run] at h ⊢
      cases hround : round s with
      | inl t =>
        rw [hround] at h
        exact ih h (Nat.le_of_succ_le_succ hle)
      | inr r' =>
        rw [hround] at h
        exact h

/-- **The variant rule.**  A loop under an invariant, in which every round that goes on makes a
    number smaller, ends within that number of rounds, with what its last round ensures. -/
theorem run_of_variant {I : S → Prop} {Q : R → Prop} (variant : S → Nat)
    (hround : ∀ t u, I t → round t = .inl u → I u ∧ variant u < variant t)
    (hleave : ∀ t r, I t → round t = .inr r → Q r) (hs : I s) :
    ∃ r, run round (variant s + 1) s = some r ∧ Q r := by
  induction hn : variant s using Nat.strongRecOn generalizing s with
  | ind n ih =>
    cases hfirst : round s with
    | inl t =>
      obtain ⟨hinv, hlt⟩ := hround s t hs hfirst
      obtain ⟨r, hrun, hr⟩ := ih (variant t) (hn ▸ hlt) hinv rfl
      refine ⟨r, ?_, hr⟩
      rw [run, hfirst]
      exact run_mono hrun (hn ▸ hlt)
    | inr r =>
      refine ⟨r, ?_, hleave s r hs hfirst⟩
      rw [run, hfirst]

theorem exists_ends {I : S → Prop} {Q : R → Prop} (variant : S → Nat)
    (hround : ∀ t u, I t → round t = .inl u → I u ∧ variant u < variant t)
    (hleave : ∀ t r, I t → round t = .inr r → Q r) (hs : I s) : ∃ r, Ends round s r ∧ Q r := by
  obtain ⟨r, hrun, hr⟩ := run_of_variant variant hround hleave hs
  exact ⟨r, ⟨_, hrun⟩, hr⟩

/-- A loop under an invariant under which every round goes on never ends. -/
theorem not_ends_of_inv {I : S → Prop} (hround : ∀ t, I t → ∃ u, round t = .inl u ∧ I u)
    (hs : I s) : ¬ Ends round s r := by
  rintro ⟨fuel, hrun⟩
  induction fuel generalizing s with
  | zero => cases hrun
  | succ fuel ih =>
    obtain ⟨u, hnext, hu⟩ := hround s hs
    rw [run, hnext] at hrun
    exact ih hu hrun

/-- **A round that changes nothing is repeated forever.** -/
theorem not_ends_of_fixed (h : round s = .inl s) : ¬ Ends round s r := by
  apply not_ends_of_inv (I := (· = s)) ?_ rfl
  rintro t rfl
  exact ⟨t, h, rfl⟩

end StorageEngine.WhileLoop
