/-
  StorageEngine/KeyedQueues.lean
  ==============================
  **Single-key operations on queues.**

  An operation reads and writes the value of one key.  A list of operations can be run one
  after the other on one store; or each operation can be put in the queue of the place
  that its key is routed to, and every place runs its own queue on its own store, in any
  order among the places.  The second way gives what the first gives: the value of a key
  depends on the operations with that key only, and these are all in one queue, in the
  order of the list.
-/
import Mathlib.Data.List.Perm.Basic
import Mathlib.Logic.Function.Basic
import StorageEngine.StepMachine

namespace StorageEngine.KeyedQueues

open StorageEngine.StepMachine

/-- What operations do to the value of their key, and what they return. -/
structure Keyed (Op K V R : Type*) where
  key : Op → K
  apply : Op → Option V → Option V × R

variable {Op K V R P : Type*}

/-! ### Routing -/

section Routing

variable [DecidableEq P] (M : Keyed Op K V R) (route : K → P)

/-- The operations that are routed to a place. -/
def sent (p : P) (ops : List Op) : List Op := ops.filter fun op => route (M.key op) = p

theorem sent_append (p : P) (ops ops' : List Op) :
    sent M route p (ops ++ ops') = sent M route p ops ++ sent M route p ops' :=
  List.filter_append _ _

theorem sent_singleton (p : P) (op : Op) :
    sent M route p [op] = if route (M.key op) = p then [op] else [] := by
  by_cases hp : route (M.key op) = p <;> simp [sent, hp]

theorem sent_cons (p : P) (op : Op) (ops : List Op) :
    sent M route p (op :: ops) = (if route (M.key op) = p then [op] else []) ++
      sent M route p ops := by
  rw [← sent_singleton, ← sent_append]
  rfl

variable {M route}

theorem mem_sent {p : P} {op : Op} {ops : List Op} :
    op ∈ sent M route p ops ↔ op ∈ ops ∧ route (M.key op) = p := by
  simp [sent]

end Routing

variable [DecidableEq K] [DecidableEq P]

/-! ### One store -/

namespace Keyed

variable (M : Keyed Op K V R)

def exec (store : K → Option V) (op : Op) : (K → Option V) × R :=
  let (v, r) := M.apply op (store (M.key op))
  (Function.update store (M.key op) v, r)

/-- The store after a list of operations. -/
def after (store : K → Option V) (ops : List Op) : K → Option V :=
  ops.foldl (fun st op => (M.exec st op).1) store

/-- The value of a key after the operations with that key. -/
def valueAfter (v : Option V) (ops : List Op) : Option V :=
  ops.foldl (fun v op => (M.apply op v).1) v

@[simp] theorem after_nil (store : K → Option V) : M.after store [] = store := rfl

theorem after_append (store : K → Option V) (ops ops' : List Op) :
    M.after store (ops ++ ops') = M.after (M.after store ops) ops' :=
  List.foldl_append

theorem exec_fst (store : K → Option V) (op : Op) :
    (M.exec store op).1 = Function.update store (M.key op) (M.apply op (store (M.key op))).1 := rfl

theorem exec_snd (store : K → Option V) (op : Op) :
    (M.exec store op).2 = (M.apply op (store (M.key op))).2 := rfl

/-- The value of a key depends on the operations with that key. -/
theorem after_apply (store : K → Option V) (ops : List Op) (k : K) :
    M.after store ops k = M.valueAfter (store k) (ops.filter fun op => M.key op = k) := by
  induction ops generalizing store with
  | nil => rfl
  | cons op ops ih =>
    show M.after (M.exec store op).1 ops k = _
    rw [ih, exec_fst]
    by_cases hk : M.key op = k
    · rw [List.filter_cons_of_pos (by simpa using hk), ← hk, Function.update_self]
      rfl
    · rw [List.filter_cons_of_neg (by simpa using hk), Function.update_of_ne (Ne.symm hk)]

end Keyed

/-! ### Queues -/

/-- The operations still to be put in a queue, the queues and stores of the places, and the
    operations that were run, with what they returned. -/
structure Queues (Op K V R P : Type*) where
  pending : List Op
  queues : P → List Op
  stores : P → K → Option V
  results : List (Op × R)

inductive QueueStep (P : Type*) where
  | route
  | run (p : P)

section Run

variable (M : Keyed Op K V R) (route : K → P)

def start (stores : P → K → Option V) (ops : List Op) : Queues Op K V R P :=
  ⟨ops, fun _ => [], stores, []⟩

def step (s : Queues Op K V R P) : QueueStep P → Option (Queues Op K V R P)
  | .route =>
    match s.pending with
    | [] => none
    | op :: rest =>
      let p := route (M.key op)
      some { s with
        pending := rest
        queues := Function.update s.queues p (s.queues p ++ [op]) }
  | .run p =>
    match s.queues p with
    | [] => none
    | op :: rest =>
      let (store, r) := M.exec (s.stores p) op
      some { s with
        queues := Function.update s.queues p rest
        stores := Function.update s.stores p store
        results := s.results ++ [(op, r)] }

/-- The operations with results, in the order in which they were run. -/
def ran (s : Queues Op K V R P) : List Op := s.results.map Prod.fst

end Run

/-! ### Every order of the places -/

section Orders

variable {M : Keyed Op K V R} {route : K → P}

/-- Every place has run, in their order, the first ones of the operations routed to it, and
    the others are in its queue or still to come; its store and the results are those of
    running them. -/
structure Inv (M : Keyed Op K V R) (route : K → P) (stores : P → K → Option V)
    (ops : List Op) (s : Queues Op K V R P) : Prop where
  split : ∀ p, sent M route p (ran s) ++ s.queues p ++ sent M route p s.pending =
    sent M route p ops
  stored : ∀ p, s.stores p = M.after (stores p) (sent M route p (ran s))
  returned : ∀ before op r rest, s.results = before ++ (op, r) :: rest →
    r = (M.exec (M.after (stores (route (M.key op)))
      (sent M route (route (M.key op)) (before.map Prod.fst))) op).2

theorem inv_start (stores : P → K → Option V) (ops : List Op) :
    Inv M route stores ops (start stores ops) where
  split := fun _ => rfl
  stored := fun _ => rfl
  returned := fun before op r rest h => by simp [start] at h

variable {stores : P → K → Option V} {ops : List Op} {s s' : Queues Op K V R P}

theorem inv_route (h : Inv M route stores ops s)
    (hstep : step M route s .route = some s') :
    Inv M route stores ops s' := by
  rw [step] at hstep
  split at hstep
  · cases hstep
  · rename_i op rest hpending
    obtain rfl := Option.some.inj hstep
    refine ⟨fun p => ?_, h.stored, h.returned⟩
    rw [← h.split p, hpending, sent_cons]
    show sent M route p (ran s) ++ Function.update s.queues (route (M.key op)) _ p ++ _ = _
    by_cases hp : route (M.key op) = p
    · subst hp
      rw [Function.update_self, if_pos rfl]
      simp only [List.append_assoc]
    · rw [Function.update_of_ne (Ne.symm hp), if_neg hp, List.nil_append]

theorem inv_runPlace (h : Inv M route stores ops s) {p : P}
    (hstep : step M route s (.run p) = some s') :
    Inv M route stores ops s' := by
  rw [step] at hstep
  split at hstep
  · cases hstep
  · rename_i op rest hqueue
    obtain rfl := Option.some.inj hstep
    have hroute : route (M.key op) = p := by
      have hmem : op ∈ sent M route p ops := by
        rw [← h.split p, hqueue]
        simp
      exact (mem_sent.mp hmem).2
    have hran : ∀ q, sent M route q (ran s ++ [op]) =
        sent M route q (ran s) ++ if p = q then [op] else [] := fun q => by
      rw [sent_append, sent_singleton, hroute]
    refine ⟨fun q => ?_, fun q => ?_, fun before op' r rest' heq => ?_⟩
    · show sent M route q ((s.results ++ [_]).map Prod.fst) ++ Function.update s.queues p rest q ++
        _ = _
      rw [List.map_append, ← h.split q]
      show sent M route q (ran s ++ [op]) ++ _ ++ _ = _
      rw [hran]
      by_cases hq : p = q
      · subst hq
        rw [Function.update_self, if_pos rfl, hqueue]
        simp only [List.append_assoc, List.cons_append, List.nil_append]
      · rw [Function.update_of_ne (Ne.symm hq), if_neg hq, List.append_nil]
    · show Function.update s.stores p _ q = M.after _ (sent M route q ((s.results ++ [_]).map _))
      rw [List.map_append]
      show _ = M.after _ (sent M route q (ran s ++ [op]))
      rw [hran]
      by_cases hq : p = q
      · subst hq
        rw [Function.update_self, if_pos rfl, M.after_append, ← h.stored]
        rfl
      · rw [Function.update_of_ne (Ne.symm hq), if_neg hq, List.append_nil, h.stored]
    · -- the last result is the new one, the others were there before
      rcases List.eq_nil_or_concat rest' with rfl | ⟨rest', x, rfl⟩
      · obtain ⟨rfl, hlast⟩ := List.append_inj' heq rfl
        obtain ⟨rfl, rfl⟩ := Prod.mk.inj (List.cons.inj hlast).1
        rw [hroute, h.stored p]
        rfl
      · rw [List.concat_eq_append, ← List.cons_append, ← List.append_assoc] at heq
        exact h.returned before op' r rest' (List.append_inj' heq rfl).1

theorem inv_of_run {steps : List (QueueStep P)}
    (hrun : run (step M route) (start stores ops) steps = some s) :
    Inv M route stores ops s := by
  refine inv_run (C := fun _ _ => True) ?_ (inv_start stores ops) ?_ hrun
  · intro s a s' h _ hstep
    cases a with
    | route => exact inv_route h hstep
    | run p => exact inv_runPlace h hstep
  · intro _ _ _ _ _ _
    trivial

/-- A store that begins with every key at its place. -/
def joined (route : K → P) (stores : P → K → Option V) : K → Option V := fun k => stores (route k) k

/-- What is routed to a place decides the values of the keys that are. -/
theorem after_sent (ops : List Op) (k : K) :
    M.after (stores (route k)) (sent M route (route k) ops) k =
      M.after (joined route stores) ops k := by
  rw [M.after_apply, M.after_apply, sent, List.filter_filter]
  congr 1
  refine List.filter_congr fun op _ => ?_
  by_cases hk : M.key op = k <;> simp [hk]

/-- **Results.**  An operation returns what it returns when the list is run in order. -/
theorem result_sequential {steps : List (QueueStep P)}
    (hrun : run (step M route) (start stores ops) steps = some s) {op : Op} {r : R}
    (hmem : (op, r) ∈ s.results) :
    ∃ before rest, ops = before ++ op :: rest ∧
      r = (M.exec (M.after (joined route stores) before) op).2 := by
  have h := inv_of_run hrun
  obtain ⟨earlier, later, hsplit⟩ := List.append_of_mem hmem
  have hr := h.returned earlier op r later hsplit
  have hsent := h.split (route (M.key op))
  unfold ran at hsent
  rw [hsplit, List.map_append, List.map_cons, sent_append, sent_cons, if_pos rfl] at hsent
  simp only [List.append_assoc, List.cons_append, List.nil_append] at hsent
  obtain ⟨before, tail, rfl, hbefore, htail⟩ := List.filter_eq_append_iff.mp hsent.symm
  obtain ⟨skipped, rest, rfl, hskipped, -, -⟩ := List.filter_eq_cons_iff.mp htail
  refine ⟨before ++ skipped, rest, by simp, ?_⟩
  have hsame : sent M route (route (M.key op)) (before ++ skipped) =
      sent M route (route (M.key op)) (earlier.map Prod.fst) := by
    rw [sent_append, ← hbefore]
    show _ ++ skipped.filter _ = _
    rw [List.filter_eq_nil_iff.mpr hskipped, List.append_nil]
    rfl
  rw [hr, M.exec_snd, M.exec_snd, ← after_sent (before ++ skipped), hsame]

/-- Nothing is left to be run. -/
def Done (s : Queues Op K V R P) : Prop := s.pending = [] ∧ ∀ p, s.queues p = []

theorem sent_ran_of_done (h : Inv M route stores ops s) (hdone : Done s) (p : P) :
    sent M route p (ran s) = sent M route p ops := by
  have hsplit := h.split p
  rw [hdone.1, hdone.2 p, List.append_nil] at hsplit
  simpa [sent] using hsplit

/-- **Contents.**  When all is run, every key has at its place the value that it has when the
    list is run in order; elsewhere nothing has changed. -/
theorem stores_sequential {steps : List (QueueStep P)}
    (hrun : run (step M route) (start stores ops) steps = some s) (hdone : Done s) (p : P) (k : K) :
    s.stores p k = if route k = p then M.after (joined route stores) ops k else stores p k := by
  have h := inv_of_run hrun
  rw [h.stored p, sent_ran_of_done h hdone]
  by_cases hp : route k = p
  · subst hp
    rw [if_pos rfl, after_sent]
  · rw [if_neg hp, M.after_apply, sent, List.filter_filter, List.filter_eq_nil_iff.mpr]
    · rfl
    · rintro op - hop
      simp only [Bool.and_eq_true, decide_eq_true_eq] at hop
      exact hp (hop.1 ▸ hop.2)

/-- **Completeness.**  When all is run, every operation has been run as often as it is in the
    list. -/
theorem ran_perm [DecidableEq Op] {steps : List (QueueStep P)}
    (hrun : run (step M route) (start stores ops) steps = some s) (hdone : Done s) :
    (ran s).Perm ops := by
  have h := inv_of_run hrun
  refine List.perm_iff_count.mpr fun op => ?_
  have hcount : ∀ l : List Op, (sent M route (route (M.key op)) l).count op = l.count op :=
    fun l => List.count_filter (by simp)
  rw [← hcount (ran s), ← hcount ops, sent_ran_of_done h hdone]

end Orders

end StorageEngine.KeyedQueues
