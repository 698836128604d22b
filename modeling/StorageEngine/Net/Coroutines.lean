/-
  StorageEngine/Net/Coroutines.lean
  =================================
  **Coroutines that wait for the proactor** (`net/base/socket.hpp`, `uring_proactor.cpp`).

  `co_await socket.AsyncRead(..)` suspends a coroutine with an awaitable in its frame and
  hands the proactor two pointers: its handle and the awaitable.  Whoever ends the
  operation writes a result through the second pointer and resumes through the first; the
  awaitable is gone with the `co_await`, and its address may be used again.
-/
import StorageEngine.Net.UringProactor

namespace StorageEngine.Net

/-- `-EBUSY`, for an operation that finds the queue full. -/
def ebusy : Int := -16

/-- `SubmitAccept`, `SubmitRead` and `SubmitWrite`, called by an awaitable with itself and the
    handle that it was suspended with. -/
structure PendingOp.Valid (op : PendingOp) : Prop where
  opType : op.opType = 0 ∨ op.opType = 1 ∨ op.opType = 2
  handle : op.handle ≠ 0
  awaitable : op.awaitable ≠ 0

instance (op : PendingOp) : Decidable op.Valid :=
  decidable_of_iff (_ ∧ _ ∧ _) ⟨fun h => ⟨h.1, h.2.1, h.2.2⟩, fun h => ⟨h.1, h.2, h.3⟩⟩

/-- The result that an awaitable begins with: `fd_` is -1, `result_` is 0. -/
def PendingOp.fresh (op : PendingOp) : Int := if op.opType = 0 then -1 else 0

/-- The coroutines, by their handles.  `results` are the result fields of the awaitables that
    exist, by their addresses.  Three records stand beside, for the statements below: what a
    coroutine has submitted, what was answered to it, by the ring or by a full queue, and what
    its `co_await`s have returned. -/
structure Coroutines where
  suspended : Nat → Option PendingOp
  results : Nat → Option Int
  submitted : Nat → List PendingOp
  answers : Nat → List (Prep × Int)
  returned : Nat → List (PendingOp × Int)

namespace Coroutines

def new : Coroutines := ⟨fun _ => none, fun _ => none, fun _ => [], fun _ => [], fun _ => []⟩

/-- A coroutine comes to a `co_await`. -/
def await (c : Coroutines) (op : PendingOp) : Coroutines :=
  { c with
    suspended := Function.update c.suspended op.handle (some op)
    results := Function.update c.results op.awaitable (some op.fresh)
    submitted := Function.update c.submitted op.handle (c.submitted op.handle ++ [op]) }

/-- An operation of a coroutine is done. -/
def answer (c : Coroutines) (handle : Nat) (prep : Prep) (res : Int) : Coroutines :=
  { c with answers := Function.update c.answers handle (c.answers handle ++ [(prep, res)]) }

/-- The result is written into the awaitable; `none`, when the pointer dangles. -/
def setResult (c : Coroutines) (op : PendingOp) (res : Int) : Option Coroutines :=
  if op.awaitable = 0 then some c
  else (c.results op.awaitable).map fun _ =>
    if op.opType = 0 ∨ op.opType = 1 ∨ op.opType = 2 then
      { c with results := Function.update c.results op.awaitable (some res) }
    else c

/-- `resume`: the coroutine returns from its `co_await`, with what is in its awaitable.  `none`,
    when it is not suspended. -/
def resume (c : Coroutines) (handle : Nat) : Option Coroutines :=
  if handle = 0 then some c
  else (c.suspended handle).bind fun op => (c.results op.awaitable).map fun res =>
    { c with
      suspended := Function.update c.suspended handle none
      results := Function.update c.results op.awaitable none
      returned := Function.update c.returned handle (c.returned handle ++ [(op, res)]) }

/-- An operation that finds the queue full ends in the `co_await` itself. -/
def refuse (c : Coroutines) (op : PendingOp) : Option Coroutines :=
  (((c.await op).answer op.handle op.prep ebusy).setResult op ebusy).bind fun c =>
    c.resume op.handle

/-! ### What is under way -/

/-- The handles of the operations that wait for an answer, and of those that have one. -/
def handles (waiting : Multiset PendingOp) (answered : Multiset (Sqe × Int)) : Multiset Nat :=
  waiting.map PendingOp.handle + answered.map fun x => x.1.data.handle

/-- An operation is under way: it waits for an answer, or its answer is. -/
def UnderWay (waiting : Multiset PendingOp) (answered : Multiset (Sqe × Int))
    (op : PendingOp) : Prop :=
  op ∈ waiting ∨ ∃ x ∈ answered, x.1.data = op

/-- What the coroutines and the operations under way have to do with each other.  A coroutine is
    suspended on an operation exactly when the operation is under way, once; and what its
    `co_await`s have returned is, one for one, what it was answered, but for an answer that is
    under way. -/
structure Inv (c : Coroutines) (waiting : Multiset PendingOp)
    (answered : Multiset (Sqe × Int)) : Prop where
  once : (handles waiting answered).Nodup
  suspended : ∀ h op, c.suspended h = some op ↔ UnderWay waiting answered op ∧ op.handle = h
  valid : ∀ op, UnderWay waiting answered op → op.Valid
  live : ∀ op, UnderWay waiting answered op → (c.results op.awaitable).isSome
  apart : ∀ op op', UnderWay waiting answered op → UnderWay waiting answered op' →
    op.awaitable = op'.awaitable → op = op'
  prepared : ∀ x ∈ answered, x.1.prep = x.1.data.prep
  submitted : ∀ h, c.submitted h = (c.returned h).map Prod.fst ++ (c.suspended h).toList
  outstanding : ∀ x ∈ answered, c.answers x.1.data.handle =
    (c.returned x.1.data.handle).map (fun y => (y.1.prep, y.2)) ++ [(x.1.prep, x.2)]
  settled : ∀ h, (∀ x ∈ answered, x.1.data.handle ≠ h) →
    c.answers h = (c.returned h).map fun y => (y.1.prep, y.2)

variable {c : Coroutines} {waiting : Multiset PendingOp} {answered : Multiset (Sqe × Int)}
    {op : PendingOp}

theorem inv_new : Inv new 0 0 where
  once := Multiset.nodup_zero
  suspended := by
    intro h op
    constructor
    · intro hnone
      cases hnone
    · rintro ⟨hop | ⟨x, hx, -⟩, -⟩
      · exact absurd hop (Multiset.notMem_zero op)
      · exact absurd hx (Multiset.notMem_zero x)
  valid := by
    rintro op (hop | ⟨x, hx, -⟩)
    · exact absurd hop (Multiset.notMem_zero op)
    · exact absurd hx (Multiset.notMem_zero x)
  live := by
    rintro op (hop | ⟨x, hx, -⟩)
    · exact absurd hop (Multiset.notMem_zero op)
    · exact absurd hx (Multiset.notMem_zero x)
  apart := by
    rintro op op' (hop | ⟨x, hx, -⟩)
    · exact absurd hop (Multiset.notMem_zero op)
    · exact absurd hx (Multiset.notMem_zero x)
  prepared := fun x hx => absurd hx (Multiset.notMem_zero x)
  submitted := fun _ => rfl
  outstanding := fun x hx => absurd hx (Multiset.notMem_zero x)
  settled := fun _ _ => rfl

theorem underWay_await :
    UnderWay (op ::ₘ waiting) answered = fun op' => op' = op ∨ UnderWay waiting answered op' := by
  funext op'
  unfold UnderWay
  rw [Multiset.mem_cons, or_assoc]

theorem handles_await :
    handles (op ::ₘ waiting) answered = op.handle ::ₘ handles waiting answered := by
  unfold handles
  rw [Multiset.map_cons, Multiset.cons_add]

/-- The handles under way are those of the operations under way. -/
theorem mem_handles {h : Nat} :
    h ∈ handles waiting answered ↔ ∃ op, UnderWay waiting answered op ∧ op.handle = h := by
  unfold handles UnderWay
  rw [Multiset.mem_add, Multiset.mem_map, Multiset.mem_map]
  constructor
  · rintro (⟨op, hop, rfl⟩ | ⟨x, hx, rfl⟩)
    · exact ⟨op, Or.inl hop, rfl⟩
    · exact ⟨x.1.data, Or.inr ⟨x, hx, rfl⟩, rfl⟩
  · rintro ⟨op, hop | ⟨x, hx, rfl⟩, rfl⟩
    · exact Or.inl ⟨op, hop, rfl⟩
    · exact Or.inr ⟨x, hx, rfl⟩

/-- An operation that has its answer is under way all the same. -/
theorem underWay_answer {sqe : Sqe} {res : Int} (hdata : sqe.data = op) :
    UnderWay waiting ((sqe, res) ::ₘ answered) = UnderWay (op ::ₘ waiting) answered := by
  funext op'
  unfold UnderWay
  rw [Multiset.mem_cons, or_assoc, eq_iff_iff]
  constructor
  · rintro (hwaiting | ⟨x, hx, rfl⟩)
    · exact Or.inr (Or.inl hwaiting)
    · rcases Multiset.mem_cons.mp hx with rfl | hx
      · exact Or.inl hdata
      · exact Or.inr (Or.inr ⟨x, hx, rfl⟩)
  · rintro (rfl | hwaiting | ⟨x, hx, rfl⟩)
    · exact Or.inr ⟨(sqe, res), Multiset.mem_cons_self _ _, hdata⟩
    · exact Or.inl hwaiting
    · exact Or.inr ⟨x, Multiset.mem_cons_of_mem hx, rfl⟩

theorem handles_answer {sqe : Sqe} {res : Int} (hdata : sqe.data = op) :
    handles waiting ((sqe, res) ::ₘ answered) = handles (op ::ₘ waiting) answered := by
  unfold handles
  rw [Multiset.map_cons, Multiset.map_cons, Multiset.add_cons, Multiset.cons_add]
  dsimp only
  rw [hdata]

/-! ### The operations -/

/-- A coroutine that runs has nothing under way. -/
theorem Inv.handle_ne (hinv : c.Inv waiting answered) {h : Nat} (hrunning : c.suspended h = none) :
    ∀ op, UnderWay waiting answered op → op.handle ≠ h := by
  intro op hop heq
  rw [(hinv.suspended h op).mpr ⟨hop, heq⟩] at hrunning
  cases hrunning

theorem Inv.await (hinv : c.Inv waiting answered) (hvalid : op.Valid)
    (hrunning : c.suspended op.handle = none)
    (hfresh : c.results op.awaitable = none) : (c.await op).Inv (op ::ₘ waiting) answered := by
  have hne := hinv.handle_ne hrunning
  have hapart : ∀ op', UnderWay waiting answered op' → op'.awaitable ≠ op.awaitable := by
    intro op' hop' heq
    have hlive := hinv.live op' hop'
    rw [heq, hfresh] at hlive
    cases hlive
  refine ⟨?_, ?_, ?_, ?_, ?_, hinv.prepared, ?_, hinv.outstanding, hinv.settled⟩
  · rw [handles_await, Multiset.nodup_cons]
    refine ⟨?_, hinv.once⟩
    intro hmem
    obtain ⟨op', hop', heq⟩ := mem_handles.mp hmem
    exact hne op' hop' heq
  · intro h op'
    rw [underWay_await]
    change Function.update c.suspended op.handle (some op) h = some op' ↔ _
    by_cases heq : h = op.handle
    · rw [heq, Function.update_self]
      constructor
      · rintro ⟨⟩
        exact ⟨Or.inl rfl, rfl⟩
      · rintro ⟨rfl | hop', hhandle⟩
        · rfl
        · exact absurd hhandle (hne op' hop')
    · rw [Function.update_of_ne heq, hinv.suspended h op']
      constructor
      · rintro ⟨hop', hhandle⟩
        exact ⟨Or.inr hop', hhandle⟩
      · rintro ⟨rfl | hop', hhandle⟩
        · exact absurd hhandle.symm heq
        · exact ⟨hop', hhandle⟩
  · rw [underWay_await]
    rintro op' (rfl | hop')
    · exact hvalid
    · exact hinv.valid op' hop'
  · rw [underWay_await]
    change ∀ op' : PendingOp, _ →
      (Function.update c.results op.awaitable (some op.fresh) op'.awaitable).isSome
    rintro op' (rfl | hop')
    · rw [Function.update_self]
      rfl
    · rw [Function.update_of_ne (hapart op' hop')]
      exact hinv.live op' hop'
  · rw [underWay_await]
    rintro op₁ op₂ (rfl | hop₁) (rfl | hop₂) heq
    · rfl
    · exact absurd heq.symm (hapart op₂ hop₂)
    · exact absurd heq (hapart op₁ hop₁)
    · exact hinv.apart op₁ op₂ hop₁ hop₂ heq
  · intro h
    change Function.update c.submitted op.handle (c.submitted op.handle ++ [op]) h =
      (c.returned h).map Prod.fst ++ (Function.update c.suspended op.handle (some op) h).toList
    by_cases heq : h = op.handle
    · rw [heq, Function.update_self, Function.update_self, hinv.submitted, hrunning]
      simp
    · rw [Function.update_of_ne heq, Function.update_of_ne heq]
      exact hinv.submitted h

theorem Inv.answer {sqe : Sqe} {res : Int} (hinv : c.Inv (sqe.data ::ₘ waiting) answered)
    (hprep : sqe.prep = sqe.data.prep) :
    (c.answer sqe.data.handle sqe.prep res).Inv waiting ((sqe, res) ::ₘ answered) := by
  have hunder :
      UnderWay waiting ((sqe, res) ::ₘ answered) = UnderWay (sqe.data ::ₘ waiting) answered :=
    underWay_answer rfl
  have honce := hinv.once
  rw [handles_await, Multiset.nodup_cons] at honce
  have hne : ∀ x ∈ answered, x.1.data.handle ≠ sqe.data.handle := by
    intro x hx heq
    exact honce.1 (mem_handles.mpr ⟨x.1.data, Or.inr ⟨x, hx, rfl⟩, heq⟩)
  refine ⟨?_, ?_, ?_, ?_, ?_, ?_, hinv.submitted, ?_, ?_⟩
  · rw [handles_answer rfl]
    exact hinv.once
  · rw [hunder]
    exact hinv.suspended
  · rw [hunder]
    exact hinv.valid
  · rw [hunder]
    exact hinv.live
  · rw [hunder]
    exact hinv.apart
  · intro x hx
    rcases Multiset.mem_cons.mp hx with rfl | hx
    · exact hprep
    · exact hinv.prepared x hx
  · intro x hx
    change Function.update c.answers sqe.data.handle _ x.1.data.handle = _
    rcases Multiset.mem_cons.mp hx with rfl | hx
    · rw [Function.update_self, hinv.settled _ hne]
      rfl
    · rw [Function.update_of_ne (hne x hx)]
      exact hinv.outstanding x hx
  · intro h hnone
    have hh : h ≠ sqe.data.handle := fun heq => hnone _ (Multiset.mem_cons_self _ _) heq.symm
    change Function.update c.answers sqe.data.handle _ h = _
    rw [Function.update_of_ne hh]
    exact hinv.settled h fun x hx => hnone x (Multiset.mem_cons_of_mem hx)

/-- The result of an operation that is under way is written into its own awaitable. -/
theorem Inv.setResult (hinv : c.Inv waiting answered) (hop : UnderWay waiting answered op)
    (res : Int) :
    ∃ c', c.setResult op res = some c' ∧ c'.Inv waiting answered ∧
      c'.results = Function.update c.results op.awaitable (some res) := by
  have hvalid := hinv.valid op hop
  obtain ⟨old, hold⟩ := Option.isSome_iff_exists.mp (hinv.live op hop)
  refine ⟨{ c with results := Function.update c.results op.awaitable (some res) }, ?_, ?_, rfl⟩
  · rw [Coroutines.setResult, if_neg hvalid.awaitable, hold]
    dsimp only [Option.map_some]
    rw [if_pos hvalid.opType]
  · refine ⟨hinv.once, hinv.suspended, hinv.valid, ?_, hinv.apart, hinv.prepared, hinv.submitted,
      hinv.outstanding, hinv.settled⟩
    intro op' hop'
    dsimp only
    by_cases heq : op'.awaitable = op.awaitable
    · rw [heq, Function.update_self]
      rfl
    · rw [Function.update_of_ne heq]
      exact hinv.live op' hop'

/-- The coroutine whose answer is in its awaitable returns with it. -/
theorem Inv.resume {sqe : Sqe} {res : Int} (hinv : c.Inv waiting ((sqe, res) ::ₘ answered))
    (hwritten : c.results sqe.data.awaitable = some res) :
    ∃ c', c.resume sqe.data.handle = some c' ∧ c'.Inv waiting answered ∧
      c'.results = Function.update c.results sqe.data.awaitable none := by
  have hunder : UnderWay waiting ((sqe, res) ::ₘ answered) = _ := underWay_answer rfl
  rw [underWay_await] at hunder
  have hop : UnderWay waiting ((sqe, res) ::ₘ answered) sqe.data := by
    rw [hunder]
    exact Or.inl rfl
  have hsub : ∀ op, UnderWay waiting answered op →
      UnderWay waiting ((sqe, res) ::ₘ answered) op := by
    intro op hop
    rw [hunder]
    exact Or.inr hop
  have hsuspended : c.suspended sqe.data.handle = some sqe.data :=
    (hinv.suspended _ _).mpr ⟨hop, rfl⟩
  have honce := hinv.once
  rw [handles_answer rfl, handles_await, Multiset.nodup_cons] at honce
  have hne : ∀ op, UnderWay waiting answered op → op.handle ≠ sqe.data.handle :=
    fun op hop heq => honce.1 (mem_handles.mpr ⟨op, hop, heq⟩)
  refine ⟨_, by rw [Coroutines.resume, if_neg (hinv.valid _ hop).handle, hsuspended,
    Option.bind_some, hwritten, Option.map_some], ?_, rfl⟩
  refine ⟨honce.2, ?_, fun op hop => hinv.valid op (hsub op hop), ?_,
    fun op op' hop hop' => hinv.apart op op' (hsub op hop) (hsub op' hop'),
    fun x hx => hinv.prepared x (Multiset.mem_cons_of_mem hx), ?_, ?_, ?_⟩
  · intro h op
    dsimp only
    by_cases heq : h = sqe.data.handle
    · rw [heq, Function.update_self]
      refine iff_of_false ?_ ?_
      · rintro ⟨⟩
      · rintro ⟨hop, hhandle⟩
        exact hne op hop hhandle
    · rw [Function.update_of_ne heq, hinv.suspended h op, hunder]
      constructor
      · rintro ⟨rfl | hop, hhandle⟩
        · exact absurd hhandle.symm heq
        · exact ⟨hop, hhandle⟩
      · rintro ⟨hop, hhandle⟩
        exact ⟨Or.inr hop, hhandle⟩
  · intro op' hop'
    dsimp only
    have hapart : op'.awaitable ≠ sqe.data.awaitable := by
      intro heq
      exact hne op' hop'
        (congrArg PendingOp.handle (hinv.apart op' sqe.data (hsub op' hop') hop heq))
    rw [Function.update_of_ne hapart]
    exact hinv.live op' (hsub op' hop')
  · intro h
    dsimp only
    by_cases heq : h = sqe.data.handle
    · rw [heq, Function.update_self, Function.update_self, hinv.submitted, hsuspended]
      simp
    · rw [Function.update_of_ne heq, Function.update_of_ne heq]
      exact hinv.submitted h
  · intro x hx
    dsimp only
    rw [Function.update_of_ne (hne x.1.data (Or.inr ⟨x, hx, rfl⟩))]
    exact hinv.outstanding x (Multiset.mem_cons_of_mem hx)
  · intro h hnone
    dsimp only
    by_cases heq : h = sqe.data.handle
    · have hout := hinv.outstanding _ (Multiset.mem_cons_self _ _)
      dsimp only at hout
      rw [heq, Function.update_self, hout, hinv.prepared _ (Multiset.mem_cons_self _ _)]
      simp
    · rw [Function.update_of_ne heq]
      apply hinv.settled h
      intro x hx
      rcases Multiset.mem_cons.mp hx with rfl | hx
      · exact fun h' => heq h'.symm
      · exact hnone x hx

/-- A coroutine that is refused has returned, and the others notice nothing. -/
theorem Inv.refuse (hinv : c.Inv waiting answered) (hvalid : op.Valid)
    (hrunning : c.suspended op.handle = none) (hfresh : c.results op.awaitable = none) :
    ∃ c', c.refuse op = some c' ∧ c'.Inv waiting answered ∧
      ∀ a, a ≠ op.awaitable → c'.results a = c.results a := by
  have hawait := hinv.await hvalid hrunning hfresh
  have hanswer := @Inv.answer _ _ _ ⟨op.prep, op⟩ ebusy hawait rfl
  have hunder : UnderWay waiting ((⟨op.prep, op⟩, ebusy) ::ₘ answered) op :=
    Or.inr ⟨_, Multiset.mem_cons_self _ _, rfl⟩
  obtain ⟨c₁, hset, hinv₁, hresults₁⟩ := hanswer.setResult hunder ebusy
  have hwritten : c₁.results op.awaitable = some ebusy := by
    rw [hresults₁, Function.update_self]
  obtain ⟨c₂, hresume, hinv₂, hresults₂⟩ := hinv₁.resume hwritten
  refine ⟨c₂, ?_, hinv₂, ?_⟩
  · rw [Coroutines.refuse, hset]
    exact hresume
  · intro a hne
    rw [hresults₂, hresults₁, Function.update_of_ne hne, Function.update_of_ne hne]
    exact Function.update_of_ne hne _ _

end Coroutines

end StorageEngine.Net
