/-
  StorageEngine/Report.lean
  =========================
  **What a fold reports on the way.**

  A loop over a list takes a state from element to element with `step`; at each element
  it calls back with what `tell` says of the state it is in.  `reports` collects the
  calls.  They are read off with an invariant that may mention the elements still to
  come, and a loop that stands still wherever it is silent is silent altogether exactly
  when it is silent on every element in the state it starts in.
-/
import Mathlib.Data.List.Basic

namespace StorageEngine.Report

variable {S A E F : Type*} (step : S → A → S) (tell : S → A → List E)

/-- The calls of the loop from a state on. -/
def reports : S → List A → List E
  | _, [] => []
  | s, a :: as => tell s a ++ reports (step s a) as

variable {step tell}

@[simp] theorem reports_nil (s : S) : reports step tell s [] = [] := rfl

@[simp] theorem reports_cons (s : S) (a : A) (as : List A) :
    reports step tell s (a :: as) = tell s a ++ reports step tell (step s a) as := rfl

/-- The invariant rule: `I` speaks of the elements still to come and of the state. -/
theorem forall_reports {I : List A → S → Prop} {Q : E → Prop}
    (hstep : ∀ s a as, I (a :: as) s → (∀ e ∈ tell s a, Q e) ∧ I as (step s a))
    {s : S} {as : List A} (h : I as s) : ∀ e ∈ reports step tell s as, Q e := by
  induction as generalizing s with
  | nil => simp
  | cons a as ih =>
    obtain ⟨htell, hnext⟩ := hstep s a as h
    intro e he
    rcases List.mem_append.mp he with he | he
    · exact htell e he
    · exact ih hnext e he

theorem reports_append (s : S) (as bs : List A) : reports step tell s (as ++ bs) =
    reports step tell s as ++ reports step tell (as.foldl step s) bs := by
  induction as generalizing s with
  | nil => rfl
  | cons a as ih =>
    rw [List.cons_append, reports_cons, ih, reports_cons, List.append_assoc, List.foldl_cons]

/-- The calls of a counted loop are those of its rounds. -/
theorem mem_reports_range {step : S → Nat → S} {tell : S → Nat → List E} {s : S} {n : Nat} {e : E} :
    e ∈ reports step tell s (List.range n) ↔
      ∃ i < n, e ∈ tell ((List.range i).foldl step s) i := by
  induction n with
  | zero => simp
  | succ n ih =>
    rw [List.range_succ, reports_append, List.mem_append, ih, reports_cons, reports_nil,
      List.append_nil, Nat.exists_lt_succ_right]

/-- A log that each step extends by what it tells ends up with the reports. -/
theorem log_foldl {log : S → List F} {f : E → List F}
    (hstep : ∀ s a, log (step s a) = log s ++ (tell s a).flatMap f) (s : S) (as : List A) :
    log (as.foldl step s) = log s ++ (reports step tell s as).flatMap f := by
  induction as generalizing s with
  | nil => simp
  | cons a as ih =>
    rw [List.foldl_cons, ih, hstep, reports_cons, List.flatMap_append, List.append_assoc]

/-- A loop that stays in `s` wherever it is silent there. -/
theorem reports_eq_nil_iff {s : S} {as : List A} (hidle : ∀ a ∈ as, tell s a = [] → step s a = s) :
    reports step tell s as = [] ↔ ∀ a ∈ as, tell s a = [] := by
  induction as with
  | nil => simp
  | cons a as ih =>
    rw [reports_cons, List.append_eq_nil_iff, List.forall_mem_cons]
    refine and_congr_right fun hsilent => ?_
    rw [hidle a List.mem_cons_self hsilent]
    exact ih fun b hb => hidle b (List.mem_cons_of_mem a hb)

/-- … and is still in `s` when it ends. -/
theorem foldl_eq_of_silent {s : S} {as : List A} (hidle : ∀ a ∈ as, tell s a = [] → step s a = s)
    (hsilent : ∀ a ∈ as, tell s a = []) : as.foldl step s = s := by
  induction as with
  | nil => rfl
  | cons a as ih =>
    rw [List.foldl_cons, hidle a List.mem_cons_self (hsilent a List.mem_cons_self)]
    exact ih (fun b hb => hidle b (List.mem_cons_of_mem a hb))
      fun b hb => hsilent b (List.mem_cons_of_mem a hb)

end StorageEngine.Report
