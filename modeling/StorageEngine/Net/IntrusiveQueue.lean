/-
  StorageEngine/Net/IntrusiveQueue.lean
  =====================================
  **The queue of many producers and one consumer**
  (`net/util/lock_free_queues/mpsc_intrusive_queue.h`).

  An item is a node, and carries the link to the item behind it.  A producer first exchanges
  the tail, which is when its item gets its place, and only then writes the link that leads to
  it; until then the chain is cut before the item.  The consumer follows the links from the
  head, and to take the last item it pushes a node of its own, the stub.  Every access to a
  shared word is a step of its own; the threads see one order of the steps.
-/
import Mathlib.Data.Fintype.Option
import StorageEngine.FifoQueue
import StorageEngine.LinkedChain

namespace StorageEngine.Net

open StorageEngine.StepMachine StorageEngine.LinkedChain

/-! ### The accesses -/

inductive QueueNode (T : Type) where
  | stub
  | item (t : T)
deriving DecidableEq, Repr

namespace QueueNode

variable {T : Type}

def item? : QueueNode T → Option T
  | stub => none
  | item t => some t

end QueueNode

/-- Where a thread stands in `Push`: before `item.next` is reset, before the exchange of the tail,
    and before the link of the previous tail is written. -/
inductive PushPc (T : Type) where
  | idle
  | clearing (node : QueueNode T)
  | exchanging (node : QueueNode T)
  | linking (prev node : QueueNode T)
deriving DecidableEq, Repr

def PushPc.node {T : Type} : PushPc T → Option (QueueNode T)
  | .idle => none
  | .clearing node | .exchanging node | .linking _ node => some node

/-- Where the consumer stands in `PopWeak`: before the link of the head is loaded; before the tail
    is loaded, with a stub at the head and nothing behind it; before the link of the node is
    loaded that the stub was skipped for; before the tail is loaded, with nothing behind the
    head; and in `Push(stub())`, or behind it. -/
inductive PopPc where
  | idle
  | begun
  | atStub
  | skipped
  | atLast
  | pushing
deriving DecidableEq, Repr

/-- The queue and its threads.  `push` says where they stand in `Push`, the producers, and the
    consumer as `none`; `weak`, that the consumer has called `PopWeak` and not `Pop`; `fault`, that
    the stub was returned for an item.  `events` is a record of what the accesses have decided. -/
structure IntrusiveQueue (C T : Type) where
  head : QueueNode T
  tail : QueueNode T
  next : QueueNode T → Option (QueueNode T)
  push : Option C → PushPc T
  pop : PopPc
  weak : Bool
  fault : Bool
  events : List (FifoEvent T)

inductive IntrusiveAction (C T : Type) where
  | push (c : C) (t : T)
  | popWeak
  | pop
  | empty
  /-- The next access of a producer, or of the consumer. -/
  | next (c : Option C)
deriving DecidableEq, Repr

namespace IntrusiveQueue

variable {C T : Type} [DecidableEq C] [DecidableEq T]

def new : IntrusiveQueue C T :=
  ⟨.stub, .stub, fun _ => none, fun _ => .idle, .idle, false, false, []⟩

/-- A thread goes on in its `Push`. -/
def goto (s : IntrusiveQueue C T) (c : Option C) (pc : PushPc T) : IntrusiveQueue C T :=
  { s with push := Function.update s.push c pc }

/-- The consumer goes on in its `PopWeak`. -/
def popTo (s : IntrusiveQueue C T) (pc : PopPc) : IntrusiveQueue C T := { s with pop := pc }

def record (s : IntrusiveQueue C T) (e : FifoEvent T) : IntrusiveQueue C T :=
  { s with events := s.events ++ [e] }

/-- `MPSC_intrusive_store_next`. -/
def storeNext (s : IntrusiveQueue C T) (node : QueueNode T) (link : Option (QueueNode T)) :
    IntrusiveQueue C T :=
  { s with next := Function.update s.next node link }

/-- The exchange of the tail, by which an item gets its place. -/
def exchange (s : IntrusiveQueue C T) (node : QueueNode T) : IntrusiveQueue C T :=
  { s with tail := node, events := s.events ++ (node.item?.map FifoEvent.push).toList }

/-- The next access of a `Push`. -/
def pushNext (s : IntrusiveQueue C T) (c : Option C) : Option (IntrusiveQueue C T) :=
  match s.push c with
  | .idle => none
  | .clearing node => some ((s.storeNext node none).goto c (.exchanging node))
  | .exchanging node => some ((s.exchange node).goto c (.linking s.tail node))
  | .linking prev node => some ((s.storeNext prev (some node)).goto c .idle)

/-- `head_ = next; return {head, false}`. -/
def take (s : IntrusiveQueue C T) (link : QueueNode T) : IntrusiveQueue C T :=
  match s.head with
  | .stub => { s with fault := true }
  | .item t => ({ s with head := link }.record (.pop t)).popTo .idle

/-- `{nullptr, false}` is returned, after which `Pop` tries again. -/
def fail (s : IntrusiveQueue C T) : IntrusiveQueue C T := s.popTo (if s.weak then .idle else .begun)

/-- `PopWeak` from the load of `head.next` on. -/
def loadNext (s : IntrusiveQueue C T) : IntrusiveQueue C T :=
  match s.next s.head with
  | some link => s.take link
  | none => s.popTo .atLast

/-- The next access of the consumer. -/
def popNext (s : IntrusiveQueue C T) : Option (IntrusiveQueue C T) :=
  match s.pop with
  | .idle => none
  | .begun =>
    if s.head = .stub then
      match s.next s.head with
      | none => some (s.popTo .atStub)
      | some link => some ({ s with head := link }.popTo .skipped)
    else some s.loadNext
  | .atStub =>
    if s.tail = s.head then some ((s.record (.isEmpty true)).popTo .idle) else some s.fail
  | .skipped => some s.loadNext
  | .atLast =>
    if s.tail = s.head then some ((s.goto none (.clearing .stub)).popTo .pushing) else some s.fail
  | .pushing =>
    if s.push none = .idle then
      match s.next s.head with
      | some link => some (s.take link)
      | none => some s.fail
    else s.pushNext none

/-- `Empty`. -/
def empty (s : IntrusiveQueue C T) : Bool := decide (s.head = .stub ∧ s.next s.head = none)

def step (s : IntrusiveQueue C T) : IntrusiveAction C T → Option (IntrusiveQueue C T)
  | .push c t =>
    if s.push (some c) = .idle then some (s.goto (some c) (.clearing (.item t))) else none
  | .popWeak => if s.pop = .idle then some ({ s with weak := true }.popTo .begun) else none
  | .pop => if s.pop = .idle then some ({ s with weak := false }.popTo .begun) else none
  | .empty =>
    if s.pop = .idle then some (if s.empty then s else s.record (.isEmpty false)) else none
  | .next none => s.popNext
  | .next (some c) => s.pushNext (some c)

/-- Nobody pushes the item, and each push of it was answered by a pop. -/
def Outside (s : IntrusiveQueue C T) (t : T) : Prop :=
  (∀ c, (s.push c).node ≠ some (.item t)) ∧
    (s.events.filterMap FifoQueue.pushed).count t = (s.events.filterMap FifoQueue.popped).count t

/-- An item is pushed by whoever has it. -/
def Offers (s : IntrusiveQueue C T) : IntrusiveAction C T → Prop
  | .push _ t => s.Outside t
  | _ => True

instance [Fintype C] (s : IntrusiveQueue C T) : ∀ a, Decidable (s.Offers a)
  | .push _ t => inferInstanceAs (Decidable ((∀ c, (s.push c).node ≠ some (.item t)) ∧
      (s.events.filterMap FifoQueue.pushed).count t =
        (s.events.filterMap FifoQueue.popped).count t))
  | .popWeak | .pop | .empty | .next _ => isTrue trivial

/-! ### The chain of the queue -/

def items (nodes : List (QueueNode T)) : List T := nodes.filterMap QueueNode.item?

/-- A link is about to be written. -/
def Pending (push : Option C → PushPc T) (prev node : QueueNode T) : Prop :=
  ∃ c, push c = .linking prev node

/-- What a thread in `Push` knows of the nodes from the head on. -/
def Knows (next : QueueNode T → Option (QueueNode T)) (nodes : List (QueueNode T)) : PushPc T → Prop
  | .idle => True
  | .clearing node => node ∉ nodes
  | .exchanging node => node ∉ nodes ∧ next node = none
  | .linking prev node => [prev, node] <:+: nodes ∧ next prev = none

/-- No two threads push one node. -/
def Once (push : Option C → PushPc T) : Prop :=
  ∀ c c' node, (push c).node = some node → (push c').node = some node → c' = c

/-- What the consumer knows of the head. -/
def PopKnows (head : QueueNode T) : PopPc → Prop
  | .idle | .begun => True
  | .atStub => head = .stub
  | .skipped | .atLast | .pushing => head ≠ .stub

/-- The nodes from the head on are a trail that ends at the tail, and a link that is missing is
    about to be written by the thread that has exchanged the tail. -/
structure Shows (s : IntrusiveQueue C T) (rest : List (QueueNode T)) : Prop where
  tail : (s.head :: rest).getLast? = some s.tail
  nodup : (s.head :: rest).Nodup
  trail : Trail s.next (Pending s.push) (s.head :: rest)
  knows : ∀ c, Knows s.next (s.head :: rest) (s.push c)
  once : Once s.push
  stub : ∀ c, (s.push c).node = some .stub → c = none
  waits : s.pop ≠ .pushing → s.push none = .idle
  pops : PopKnows s.head s.pop
  fault : s.fault = false

/-- The events so far lead to the items from the head on. -/
def Inv (s : IntrusiveQueue C T) : Prop :=
  ∃ rest, FifoQueue.Leads none s.events (items (s.head :: rest)) ∧ s.Shows rest

section Threads

variable {push : Option C → PushPc T} {pc : PushPc T} {c : Option C}
    {next : QueueNode T → Option (QueueNode T)}
  {nodes : List (QueueNode T)} {prev node behind : QueueNode T}

omit [DecidableEq T] in
theorem Once.update (h : Once push)
    (hpc : ∀ node, pc.node = some node → ∀ c', c' ≠ c → (push c').node ≠ some node) :
    Once (Function.update push c pc) := by
  intro a b node ha hb
  by_cases hac : a = c
  · by_cases hbc : b = c
    · rw [hac, hbc]
    · rw [hac, Function.update_self] at ha
      rw [Function.update_of_ne hbc] at hb
      exact absurd hb (hpc node ha b hbc)
  · rw [Function.update_of_ne hac] at ha
    by_cases hbc : b = c
    · rw [hbc, Function.update_self] at hb
      exact absurd ha (hpc node hb a hac)
    · rw [Function.update_of_ne hbc] at hb
      exact h a b node ha hb

omit [DecidableEq T] in
theorem pending_update (hc : ∀ prev node, push c ≠ .linking prev node)
    (h : Pending push prev node) :
    Pending (Function.update push c pc) prev node := by
  obtain ⟨c', hc'⟩ := h
  refine ⟨c', ?_⟩
  rw [Function.update_of_ne]
  · exact hc'
  · rintro rfl
    exact hc prev node hc'

theorem update_eq_none (h : next node = none) (other : QueueNode T) :
    Function.update next other none node = none := by
  by_cases heq : node = other
  · rw [heq, Function.update_self]
  · rw [Function.update_of_ne heq]
    exact h

theorem Knows.clear (h : Knows next nodes pc) (other : QueueNode T) :
    Knows (Function.update next other none) nodes pc := by
  cases pc with
  | idle => trivial
  | clearing node => exact h
  | exchanging node => exact ⟨h.1, update_eq_none h.2 other⟩
  | linking prev node => exact ⟨h.1, update_eq_none h.2 other⟩

omit [DecidableEq T] in
theorem Knows.snoc (h : Knows next nodes pc) (hne : pc.node ≠ some node) :
    Knows next (nodes ++ [node]) pc := by
  have hnotMem : ∀ {x}, x ∉ nodes → pc.node = some x → x ∉ nodes ++ [node] := by
    intro x hx hnode hmem
    rcases List.mem_append.mp hmem with hmem | hmem
    · exact hx hmem
    · rw [List.mem_singleton.mp hmem] at hnode
      exact hne hnode
  cases pc with
  | idle => trivial
  | clearing node => exact hnotMem h rfl
  | exchanging node => exact ⟨hnotMem h.1 rfl, h.2⟩
  | linking prev node => exact ⟨h.1.trans (List.prefix_append ..).isInfix, h.2⟩

/-- A link is written by the thread that pushes the node behind it. -/
theorem Knows.link (h : Knows next nodes pc) (hnodup : nodes.Nodup) (hin : [prev, node] <:+: nodes)
    (hne : pc.node ≠ some node) : Knows (Function.update next prev (some node)) nodes pc := by
  cases pc with
  | idle => trivial
  | clearing node => exact h
  | exchanging other =>
    refine ⟨h.1, ?_⟩
    rw [Function.update_of_ne]
    · exact h.2
    · rintro rfl
      exact h.1 (hin.subset (by simp))
  | linking before other =>
    refine ⟨h.1, ?_⟩
    rw [Function.update_of_ne]
    · exact h.2
    · rintro rfl
      exact hne (congrArg some (infix_unique hnodup h.1 hin))

omit [DecidableEq T] in
/-- The head is used up behind which there is a link. -/
theorem Knows.tail (h : Knows next (node :: nodes) pc) (hlink : next node = some behind) :
    Knows next nodes pc := by
  have hnotMem : ∀ {x}, x ∉ node :: nodes → x ∉ nodes :=
    fun hx hmem => hx (List.mem_cons_of_mem node hmem)
  cases pc with
  | idle => trivial
  | clearing node => exact hnotMem h
  | exchanging node => exact ⟨hnotMem h.1, h.2⟩
  | linking prev other =>
    refine ⟨?_, h.2⟩
    rcases List.infix_cons_iff.mp h.1 with hfront | hbehind
    · obtain ⟨rfl, -⟩ := List.cons_prefix_cons.mp hfront
      have hnone := h.2
      rw [hlink] at hnone
      cases hnone
    · exact hbehind

end Threads

section Steps

variable {s s' : IntrusiveQueue C T} {rest : List (QueueNode T)} {c : Option C}
    {prev node behind : QueueNode T}

omit [DecidableEq C] in
theorem inv_new : (new : IntrusiveQueue C T).Inv := by
  refine ⟨[], FifoQueue.leads_nil, rfl, List.nodup_singleton _, rfl, fun _ => trivial, ?_, ?_,
    fun _ => rfl, trivial, rfl⟩
  · exact fun _ _ _ hc => nomatch hc
  · exact fun _ hc => nomatch hc

omit [DecidableEq C] [DecidableEq T] in
theorem Shows.record (h : s.Shows rest) (e : FifoEvent T) : (s.record e).Shows rest :=
  ⟨h.tail, h.nodup, h.trail, h.knows, h.once, h.stub, h.waits, h.pops, h.fault⟩

omit [DecidableEq C] [DecidableEq T] in
theorem Shows.popTo {pc : PopPc} (h : s.Shows rest) (hwaits : pc ≠ .pushing → s.push none = .idle)
    (hpops : PopKnows s.head pc) : (s.popTo pc).Shows rest :=
  ⟨h.tail, h.nodup, h.trail, h.knows, h.once, h.stub, hwaits, hpops, h.fault⟩

omit [DecidableEq T] in
/-- `Push` is called. -/
theorem Shows.begin (h : s.Shows rest) (hidle : s.push c = .idle) (hnode : node ∉ s.head :: rest)
    (hnobody : ∀ c', (s.push c').node ≠ some node) (hstub : node = .stub → c = none)
    (hwaits : s.pop ≠ .pushing → c ≠ none) : (s.goto c (.clearing node)).Shows rest where
  tail := h.tail
  nodup := h.nodup
  trail := h.trail.congr (fun _ _ => rfl) fun _ _ _ hpending =>
    pending_update (by rw [hidle]; exact fun _ _ => nofun) hpending
  knows := (Function.forall_update_iff _ fun _ pc => Knows s.next (s.head :: rest) pc).mpr
    ⟨hnode, fun c' _ => h.knows c'⟩
  once := h.once.update (by rintro _ ⟨⟩ c' -; exact hnobody c')
  stub :=
    (Function.forall_update_iff _ fun c (pc : PushPc T) => pc.node = some .stub → c = none).mpr
    ⟨fun heq => hstub (Option.some.inj heq), fun c' _ => h.stub c'⟩
  waits := by
    intro hpop
    have hne := hwaits hpop
    rw [show (s.goto c (.clearing node)).push none = Function.update s.push c
      (.clearing node) none from rfl, Function.update_of_ne (Ne.symm hne)]
    exact h.waits hpop
  pops := h.pops
  fault := h.fault

omit [DecidableEq T] in
/-- A thread goes on in its `Push`, with the same node, or returns. -/
theorem Shows.goOn {t : IntrusiveQueue C T} {rest' : List (QueueNode T)} {pc : PushPc T}
    (h : s.Shows rest) (hhead : t.head = s.head) (hpush : t.push = Function.update s.push c pc)
    (hpop : t.pop = s.pop) (hfault : t.fault = s.fault) (hmoving : s.push c ≠ .idle)
    (hnode : ∀ node, pc.node = some node → (s.push c).node = some node)
    (htail : (s.head :: rest').getLast? = some t.tail) (hnodup : (s.head :: rest').Nodup)
    (htrail : Trail t.next (Pending t.push) (s.head :: rest'))
    (hpc : Knows t.next (s.head :: rest') pc)
    (hknows : ∀ c', c' ≠ c → Knows t.next (s.head :: rest') (s.push c')) : t.Shows rest' := by
  rw [← hhead] at htail hnodup htrail hpc hknows
  refine ⟨htail, hnodup, htrail, ?_, ?_, ?_, ?_, ?_, hfault.trans h.fault⟩
  · rw [hpush]
    exact (Function.forall_update_iff _ fun _ pc => Knows t.next (t.head :: rest') pc).mpr
      ⟨hpc, hknows⟩
  · rw [hpush]
    exact h.once.update fun node hnode' c' hc' heq => hc' (h.once c c' node (hnode node hnode') heq)
  · rw [hpush]
    exact (Function.forall_update_iff _ fun c (pc : PushPc T) => pc.node = some .stub →
      c = none).mpr
      ⟨fun heq => h.stub c (hnode _ heq), fun c' _ => h.stub c'⟩
  · intro hne
    rw [hpop] at hne
    have hc : c ≠ none := by
      rintro rfl
      exact hmoving (h.waits hne)
    rw [hpush, Function.update_of_ne (Ne.symm hc)]
    exact h.waits hne
  · rw [hhead, hpop]
    exact h.pops

/-- `item.next` is reset. -/
theorem Shows.clear (h : s.Shows rest) (hpc : s.push c = .clearing node) :
    ((s.storeNext node none).goto c (.exchanging node)).Shows rest := by
  have hnotMem : node ∉ s.head :: rest := by
    have hknows := h.knows c
    rw [hpc] at hknows
    exact hknows
  have hlinking : ∀ prev node, s.push c ≠ .linking prev node := by
    rw [hpc]
    exact fun _ _ => nofun
  refine h.goOn (c := c) rfl rfl rfl rfl ?_ ?_ h.tail h.nodup ?_ ⟨hnotMem,
    Function.update_self ..⟩ ?_
  · rw [hpc]
    nofun
  · rintro _ ⟨⟩
    rw [hpc]
    rfl
  · refine h.trail.congr (fun x hx => Function.update_of_ne ?_ _ _) fun _ _ _ =>
      pending_update hlinking
    rintro rfl
    exact hnotMem hx
  · exact fun c' _ => (h.knows c').clear node

omit [DecidableEq T] in
/-- The tail is exchanged. -/
theorem Shows.exchange (h : s.Shows rest) (hpc : s.push c = .exchanging node) :
    ((s.exchange node).goto c (.linking s.tail node)).Shows (rest ++ [node]) := by
  obtain ⟨hnotMem, hnone⟩ : node ∉ s.head :: rest ∧ s.next node = none := by
    have hknows := h.knows c
    rw [hpc] at hknows
    exact hknows
  have hlinking : ∀ prev node, s.push c ≠ .linking prev node := by
    rw [hpc]
    exact fun _ _ => nofun
  obtain ⟨before, hbefore⟩ := List.getLast?_eq_some_iff.mp h.tail
  have hlast : [s.tail, node] <:+: s.head :: (rest ++ [node]) := by
    rw [← List.cons_append, hbefore]
    exact ⟨before, [], by simp⟩
  refine h.goOn (c := c) rfl rfl rfl rfl ?_ ?_ ?_ ?_ ?_ ⟨hlast, ?_⟩ ?_
  · rw [hpc]
    nofun
  · rintro _ ⟨⟩
    rw [hpc]
    rfl
  · rw [← List.cons_append, List.getLast?_concat]
    rfl
  · rw [← List.cons_append]
    exact List.nodup_append.mpr ⟨h.nodup, List.nodup_singleton node,
      fun x hx y hy heq => hnotMem (List.mem_singleton.mp hy ▸ heq ▸ hx)⟩
  · rw [← List.cons_append]
    refine Trail.snoc (h.trail.congr (fun _ _ => rfl) fun _ _ _ => pending_update hlinking)
      h.tail hnone ?_
    exact ⟨c, Function.update_self ..⟩
  · exact h.trail.next_last h.tail
  · intro c' hc'
    rw [← List.cons_append]
    refine (h.knows c').snoc fun heq => hc' (h.once c c' node ?_ heq)
    rw [hpc]
    rfl

/-- The link of the previous tail is written. -/
theorem Shows.link (h : s.Shows rest) (hpc : s.push c = .linking prev node) :
    ((s.storeNext prev (some node)).goto c .idle).Shows rest := by
  obtain ⟨hin, -⟩ : [prev, node] <:+: s.head :: rest ∧ s.next prev = none := by
    have hknows := h.knows c
    rw [hpc] at hknows
    exact hknows
  refine h.goOn (c := c) rfl rfl rfl rfl ?_ nofun h.tail h.nodup ?_ trivial ?_
  · rw [hpc]
    nofun
  · refine h.trail.link h.nodup hin ?_
    rintro x y hx ⟨c', hc'⟩
    refine ⟨c', ?_⟩
    rw [← hc']
    refine Function.update_of_ne ?_ _ _
    rintro rfl
    rw [hpc] at hc'
    cases hc'
    exact hx rfl
  · intro c' hc'
    refine (h.knows c').link h.nodup hin fun heq => hc' (h.once c c' node ?_ heq)
    rw [hpc]
    rfl

omit [DecidableEq C] [DecidableEq T] in
/-- The head goes on along a link. -/
theorem Shows.advance (h : s.Shows rest) (hlink : s.next s.head = some behind) :
    ∃ rest', rest = behind :: rest' ∧ ∀ pc, (pc ≠ .pushing → s.push none = .idle) →
    PopKnows behind pc →
      ({ s with head := behind }.popTo pc).Shows rest' := by
  obtain ⟨rest', rfl⟩ := h.trail.next_eq_some hlink
  refine ⟨rest', rfl, fun pc hwaits hpops => ?_⟩
  refine ⟨?_, h.nodup.of_cons, h.trail.tail, fun c => (h.knows c).tail hlink, h.once, h.stub,
    hwaits, hpops, h.fault⟩
  rw [← List.getLast?_cons_cons (a := s.head)]
  exact h.tail

omit [DecidableEq C] [DecidableEq T] in
/-- The head is the only node if it is the tail. -/
theorem Shows.rest_eq_nil (h : s.Shows rest) (hlast : s.tail = s.head) : rest = [] := by
  cases rest with
  | nil => rfl
  | cons behind rest =>
    have htail := h.tail
    rw [hlast, List.getLast?_cons_cons] at htail
    exact absurd (List.mem_of_getLast? htail) (List.nodup_cons.mp h.nodup).1

omit [DecidableEq C] [DecidableEq T] in
theorem Shows.tail_eq (h : s.Shows []) : s.tail = s.head := (Option.some.inj h.tail).symm

omit [DecidableEq T] in
theorem items_item (t : T) (nodes : List (QueueNode T)) :
    items (.item t :: nodes) = t :: items nodes := rfl

omit [DecidableEq T] in
theorem items_snoc (nodes : List (QueueNode T)) (node : QueueNode T) :
    items (nodes ++ [node]) = items nodes ++ node.item?.toList := by
  unfold items
  rw [List.filterMap_append]
  cases node <;> rfl

theorem inv_pushNext (h : s.Inv) (hstep : s.pushNext c = some s') : s'.Inv := by
  obtain ⟨rest, hleads, h⟩ := h
  rw [pushNext] at hstep
  split at hstep
  · cases hstep
  · rename_i node hpc
    obtain rfl := Option.some.inj hstep
    exact ⟨rest, hleads, h.clear hpc⟩
  · rename_i node hpc
    obtain rfl := Option.some.inj hstep
    refine ⟨rest ++ [node], ?_, h.exchange hpc⟩
    change FifoQueue.Leads none (s.events ++ _) (items (s.head :: (rest ++ [node])))
    rw [← List.cons_append, items_snoc]
    cases node with
    | stub =>
      simp only [QueueNode.item?, Option.map_none, Option.toList_none, List.append_nil]
      exact hleads
    | item t => exact hleads.push nofun
  · rename_i prev node hpc
    obtain rfl := Option.some.inj hstep
    exact ⟨rest, hleads, h.link hpc⟩

omit [DecidableEq C] in
/-- The head is taken. -/
theorem inv_take (hleads : FifoQueue.Leads none s.events (items (s.head :: rest)))
    (h : s.Shows rest) (hhead : s.head ≠ .stub) (hpush : s.push none = .idle)
    (hlink : s.next s.head = some behind) :
    (s.take behind).Inv := by
  obtain ⟨rest', rfl, hshows⟩ := h.advance hlink
  rw [take]
  split
  · rename_i hstub
    exact absurd hstub hhead
  · rename_i t hitem
    rw [hitem, items_item] at hleads
    exact ⟨rest', hleads.pop, (hshows .idle (fun _ => hpush) trivial).record _⟩

omit [DecidableEq C] in
theorem inv_fail (hleads : FifoQueue.Leads none s.events (items (s.head :: rest)))
    (h : s.Shows rest) (hpush : s.push none = .idle) : s.fail.Inv := by
  refine ⟨rest, hleads, h.popTo (fun _ => hpush) ?_⟩
  split <;> trivial

omit [DecidableEq C] in
/-- The link of an item at the head is loaded. -/
theorem inv_loadNext (hleads : FifoQueue.Leads none s.events (items (s.head :: rest)))
    (h : s.Shows rest) (hhead : s.head ≠ .stub) (hpush : s.push none = .idle) : s.loadNext.Inv := by
  rw [loadNext]
  split
  · rename_i behind hlink
    exact inv_take hleads h hhead hpush hlink
  · exact ⟨rest, hleads, h.popTo (fun _ => hpush) hhead⟩

omit [DecidableEq C] in
/-- The stub at the head is skipped. -/
theorem inv_skip (hleads : FifoQueue.Leads none s.events (items (s.head :: rest)))
    (h : s.Shows rest) (hstub : s.head = .stub) (hpush : s.push none = .idle)
    (hlink : s.next s.head = some behind) :
    ({ s with head := behind }.popTo .skipped).Inv := by
  obtain ⟨rest', rfl, hshows⟩ := h.advance hlink
  rw [hstub] at hleads
  refine ⟨rest', hleads, hshows .skipped (fun _ => hpush) ?_⟩
  rintro rfl
  exact (List.nodup_cons.mp h.nodup).1 (by simp [hstub])

omit [DecidableEq C] in
/-- The queue is empty: the stub is the head and the tail. -/
theorem inv_isEmpty (hleads : FifoQueue.Leads none s.events (items (s.head :: rest)))
    (h : s.Shows rest) (hstub : s.head = .stub) (hpush : s.push none = .idle)
    (hlast : s.tail = s.head) :
    ((s.record (.isEmpty true)).popTo .idle).Inv := by
  obtain rfl := h.rest_eq_nil hlast
  refine ⟨[], hleads.isEmpty (iff_of_true rfl ?_), (h.record _).popTo (fun _ => hpush) trivial⟩
  rw [hstub]
  rfl

/-- The last item is at the head, and the stub is going to be pushed behind it. -/
theorem inv_pushStub (hleads : FifoQueue.Leads none s.events (items (s.head :: rest)))
    (h : s.Shows rest) (hhead : s.head ≠ .stub) (hpush : s.push none = .idle)
    (hlast : s.tail = s.head) :
    ((s.goto none (.clearing .stub)).popTo .pushing).Inv := by
  obtain rfl := h.rest_eq_nil hlast
  have hpushing : (s.popTo .pushing).Shows [] := h.popTo (fun hne => absurd rfl hne) hhead
  refine ⟨[], hleads, hpushing.begin hpush ?_ ?_ (fun _ => rfl) (fun hne => absurd rfl hne)⟩
  · exact fun hmem => hhead (List.mem_singleton.mp hmem).symm
  · intro c hc
    rw [h.stub c hc] at hc
    change (s.push none).node = _ at hc
    rw [hpush] at hc
    cases hc

theorem inv_popNext (h : s.Inv) (hstep : s.popNext = some s') : s'.Inv := by
  obtain ⟨rest, hleads, h⟩ := h
  have hpops := h.pops
  have hwaits := h.waits
  rw [popNext] at hstep
  cases hpc : s.pop with
  | idle =>
    rw [hpc] at hstep
    cases hstep
  | begun =>
    rw [hpc] at hstep hpops hwaits
    have hpush := hwaits nofun
    dsimp only at hstep
    split at hstep
    · rename_i hstub
      split at hstep
      · obtain rfl := Option.some.inj hstep
        exact ⟨rest, hleads, h.popTo (fun _ => hpush) hstub⟩
      · rename_i behind hlink
        obtain rfl := Option.some.inj hstep
        exact inv_skip hleads h hstub hpush hlink
    · rename_i hhead
      obtain rfl := Option.some.inj hstep
      exact inv_loadNext hleads h hhead hpush
  | atStub =>
    rw [hpc] at hstep hpops hwaits
    have hpush := hwaits nofun
    dsimp only at hstep
    split at hstep
    · rename_i hlast
      obtain rfl := Option.some.inj hstep
      exact inv_isEmpty hleads h hpops hpush hlast
    · obtain rfl := Option.some.inj hstep
      exact inv_fail hleads h hpush
  | skipped =>
    rw [hpc] at hstep hpops hwaits
    obtain rfl := Option.some.inj hstep
    exact inv_loadNext hleads h hpops (hwaits nofun)
  | atLast =>
    rw [hpc] at hstep hpops hwaits
    have hpush := hwaits nofun
    dsimp only at hstep
    split at hstep
    · rename_i hlast
      obtain rfl := Option.some.inj hstep
      exact inv_pushStub hleads h hpops hpush hlast
    · obtain rfl := Option.some.inj hstep
      exact inv_fail hleads h hpush
  | pushing =>
    rw [hpc] at hstep hpops
    dsimp only at hstep
    split at hstep
    · rename_i hidle
      split at hstep
      · rename_i behind hlink
        obtain rfl := Option.some.inj hstep
        exact inv_take hleads h hpops hidle hlink
      · obtain rfl := Option.some.inj hstep
        exact inv_fail hleads h hidle
    · exact inv_pushNext ⟨rest, hleads, h⟩ hstep

omit [DecidableEq T] in
theorem mem_items {t : T} {nodes : List (QueueNode T)} : t ∈ items nodes ↔ .item t ∈ nodes := by
  unfold items
  rw [List.mem_filterMap]
  constructor
  · rintro ⟨node, hnode, hitem⟩
    cases node with
    | stub => cases hitem
    | item t' =>
      obtain rfl := Option.some.inj hitem
      exact hnode
  · exact fun hmem => ⟨.item t, hmem, rfl⟩

/-- The link behind the node is still to be written, by the thread whose node is next. -/
def Cut (s : IntrusiveQueue C T) (node : QueueNode T) : Prop :=
  ∃ c behind, s.push c = .linking node behind

omit [DecidableEq C] [DecidableEq T] in
/-- A node without a link is the last one, or the chain is cut behind it. -/
theorem Shows.cut_iff (h : s.Shows rest) : s.Cut s.head ↔ s.next s.head = none ∧ rest ≠ [] := by
  constructor
  · rintro ⟨c, behind, hpc⟩
    obtain ⟨hin, hnone⟩ : [s.head, behind] <:+: s.head :: rest ∧ s.next s.head = none := by
      have hknows := h.knows c
      rw [hpc] at hknows
      exact hknows
    refine ⟨hnone, ?_⟩
    rintro rfl
    exact absurd hin.length_le (by simp)
  · rintro ⟨hnone, hrest⟩
    obtain ⟨behind, rest', rfl⟩ := List.exists_cons_of_ne_nil hrest
    rcases h.trail.1 with hlink | ⟨-, c, hpc⟩
    · rw [hnone] at hlink
      cases hlink
    · exact ⟨c, behind, hpc⟩

omit [DecidableEq C] in
omit [DecidableEq T] in
/-- An item at the head, or one behind the stub. -/
theorem Shows.items_eq_nil (h : s.Shows rest) : items (s.head :: rest) = [] ↔ s.head = .stub ∧
    rest = [] := by
  constructor
  · intro hitems
    have hstub : ∀ node ∈ s.head :: rest, node = .stub := by
      intro node hnode
      cases node with
      | stub => rfl
      | item t =>
        have hmem := mem_items.mpr hnode
        rw [hitems] at hmem
        cases hmem
    refine ⟨hstub _ (by simp), List.eq_nil_iff_forall_not_mem.mpr fun node hnode => ?_⟩
    have heq := hstub node (List.mem_cons_of_mem _ hnode)
    rw [← hstub s.head (by simp)] at heq
    exact (List.nodup_cons.mp h.nodup).1 (heq ▸ hnode)
  · rintro ⟨hhead, rfl⟩
    rw [hhead]
    rfl

omit [DecidableEq C] in
/-- `Empty` is right, unless the chain is cut behind the stub at the head. -/
theorem Shows.empty_iff (h : s.Shows rest) :
    s.empty = true ↔ items (s.head :: rest) = [] ∨ s.head = .stub ∧ s.Cut .stub := by
  unfold empty
  rw [decide_eq_true_iff, h.items_eq_nil]
  constructor
  · rintro ⟨hhead, hnone⟩
    by_cases hrest : rest = []
    · exact .inl ⟨hhead, hrest⟩
    · exact .inr ⟨hhead, hhead ▸ h.cut_iff.mpr ⟨hnone, hrest⟩⟩
  · rintro (⟨hhead, rfl⟩ | ⟨hhead, hcut⟩)
    · exact ⟨hhead, h.trail⟩
    · exact ⟨hhead, (h.cut_iff.mp (hhead ▸ hcut)).1⟩

theorem inv_step {a : IntrusiveAction C T} (h : s.Inv) (hoffers : s.Offers a)
    (hstep : s.step a = some s') :
    s'.Inv := by
  cases a with
  | push c t =>
    obtain ⟨rest, hleads, h⟩ := h
    obtain ⟨hnobody, hcount⟩ := hoffers
    rw [step] at hstep
    split at hstep
    · rename_i hidle
      obtain rfl := Option.some.inj hstep
      refine ⟨rest, hleads, h.begin hidle (fun hmem => ?_) hnobody nofun fun _ => nofun⟩
      exact hleads.notMem_iff.mpr hcount (mem_items.mpr hmem)
    · cases hstep
  | popWeak | pop =>
    obtain ⟨rest, hleads, h⟩ := h
    rw [step] at hstep
    split at hstep
    · rename_i hidle
      obtain rfl := Option.some.inj hstep
      have hpush := h.waits (by rw [hidle]; nofun)
      exact ⟨rest, hleads, h.tail, h.nodup, h.trail, h.knows, h.once, h.stub, fun _ => hpush,
        trivial, h.fault⟩
    · cases hstep
  | empty =>
    rw [step] at hstep
    split at hstep
    · obtain rfl := Option.some.inj hstep
      split
      · exact h
      · rename_i hempty
        obtain ⟨rest, hleads, h⟩ := h
        refine ⟨rest, hleads.isEmpty (iff_of_false nofun fun hnil => ?_), h.record _⟩
        exact hempty (h.empty_iff.mpr (.inl hnil))
    · cases hstep
  | next c =>
    cases c with
    | none => exact inv_popNext h hstep
    | some c => exact inv_pushNext h hstep

theorem inv_of_run {as : List (IntrusiveAction C T)} (hoffers : Along step Offers new as)
    (hrun : run step new as = some s) : s.Inv :=
  inv_run (fun _ _ _ h hoffers hstep => inv_step h hoffers hstep) inv_new hoffers hrun

end Steps

/-! ### The queue as a queue -/

/-- What the queue promises: its accesses are those of a queue; what was popped is what was pushed,
    in the order in which the tail was exchanged, but for what is left; the stub is never taken for
    an item; and `Empty` is right, unless the chain is cut behind the stub. -/
structure Promises (s : IntrusiveQueue C T) (queue : List T) : Prop where
  leads : FifoQueue.Leads none s.events queue
  order : s.events.filterMap FifoQueue.pushed = s.events.filterMap FifoQueue.popped ++ queue
  nodup : queue.Nodup
  fault : s.fault = false
  empty : s.empty = true ↔ queue = [] ∨ s.head = .stub ∧ s.Cut .stub

/-- **The queue of many producers and one consumer is a queue**, in every interleaving of the
    accesses of any number of threads, as long as an item is only pushed by whoever has it. -/
theorem queue_of_run {as : List (IntrusiveAction C T)} {s : IntrusiveQueue C T}
    (hoffers : Along step Offers new as) (hrun : run step new as = some s) : ∃ queue,
      s.Promises queue := by
  obtain ⟨rest, hleads, h⟩ := inv_of_run hoffers hrun
  refine ⟨items (s.head :: rest), hleads, hleads.order.1, ?_, h.fault, h.empty_iff⟩
  refine h.nodup.filterMap ?_
  intro a b t ha hb
  cases a with
  | stub => cases ha
  | item t' =>
    cases b with
    | stub => cases hb
    | item t'' =>
      obtain rfl := Option.some.inj ha
      obtain rfl := Option.some.inj hb
      rfl

/-- The first producer has exchanged the tail, but not written the link, when the second one is
    done: the consumer gets nothing, and later the item of the first producer. -/
def cutBetween : List (IntrusiveAction Bool Nat) :=
  [.push false 7, .next (some false), .next (some false), .push true 8, .next (some true),
   .next (some true), .next (some true), .popWeak, .next none, .next none, .next (some false), .pop,
   .next none, .next none]

theorem queue_of_run_cutBetween : ∃ s queue, run step new cutBetween = some s ∧
    s.events = [.push 7, .push 8, .pop 7] ∧ s.Promises queue := by
  have hrun : (run step new cutBetween).map events = some [.push 7, .push 8, .pop 7] := by
    decide +kernel
  obtain ⟨s, hs, hevents⟩ := Option.map_eq_some_iff.mp hrun
  obtain ⟨queue, hpromises⟩ := queue_of_run (by decide +kernel) hs
  exact ⟨s, queue, hs, hevents, hpromises⟩

section Alone

variable {s s' t : IntrusiveQueue C T} {rest : List (QueueNode T)} {k : Nat}

/-- The consumer makes so many accesses, and the producers none. -/
def Alone (s : IntrusiveQueue C T) (k : Nat) (s' : IntrusiveQueue C T) : Prop :=
  run step s (List.replicate k (.next none)) = some s'

theorem Alone.cons (hstep : s.popNext = some t) (h : t.Alone k s') : s.Alone (k + 1) s' :=
  run_cons_eq_some.mpr ⟨t, hstep, h⟩

/-- `{nullptr, false}`. -/
def Fails (s s' : IntrusiveQueue C T) : Prop := s'.pop = (if s.weak then .idle else .begun) ∧
    s'.events = s.events

/-- An item is returned. -/
def Returns (s : IntrusiveQueue C T) (t : T) (s' : IntrusiveQueue C T) : Prop :=
  s'.pop = .idle ∧ s'.events = s.events ++ [.pop t]

/-- The last item is taken, with the stub pushed behind it. -/
theorem alone_last {t : T} (h : s.Shows []) (hhead : s.head = .item t) (hpop : s.pop = .atLast) :
    ∃ s', s.Alone 5 s' ∧ s.Returns t s' := by
  have hlast := h.tail_eq
  have hpush := h.waits (by rw [hpop]; nofun)
  let s1 := (s.goto none (.clearing .stub)).popTo .pushing
  let s2 := (s1.storeNext .stub none).goto none (.exchanging .stub)
  let s3 := (s2.exchange .stub).goto none (.linking s.tail .stub)
  let s4 := (s3.storeNext s.tail (some .stub)).goto none .idle
  have h1 : s.popNext = some s1 := by
    rw [popNext, hpop]
    exact if_pos hlast
  have h2 : s1.popNext = some s2 := by
    simp [popNext, pushNext, s1, s2, popTo, goto]
  have h3 : s2.popNext = some s3 := by
    simp [popNext, pushNext, s1, s2, s3, popTo, goto, storeNext]
  have h4 : s3.popNext = some s4 := by
    simp [popNext, pushNext, s1, s2, s3, s4, popTo, goto, storeNext, exchange]
  have h5 : s4.popNext = some (s4.take .stub) := by
    simp [popNext, s1, s2, s3, s4, popTo, goto, storeNext, exchange, hlast]
  refine ⟨s4.take .stub, .cons h1 (.cons h2 (.cons h3 (.cons h4 (.cons h5 rfl)))), ?_⟩
  have hhead4 : s4.head = .item t := hhead
  rw [take, hhead4]
  refine ⟨rfl, ?_⟩
  simp [s1, s2, s3, s4, popTo, goto, storeNext, exchange, record, QueueNode.item?]

/-- From the load of the link of an item at the head on. -/
theorem alone_loadNext {t : T} (h : s.Shows rest) (hhead : s.head = .item t)
    (hpush : s.push none = .idle) (hload : s.popNext = some s.loadNext) :
    ∃ k s', k ≤ 6 ∧ s.Alone k s' ∧ (s.Cut (.item t) → s.Fails s') ∧
    (¬ s.Cut (.item t) → s.Returns t s') := by
  rw [← hhead, h.cut_iff]
  rw [loadNext] at hload
  cases hlink : s.next s.head with
  | some behind =>
    rw [hlink] at hload
    refine ⟨1, s.take behind, by decide, .cons hload rfl, fun ⟨hnone, _⟩ => (nomatch hnone),
      fun _ => ?_⟩
    rw [take, hhead]
    exact ⟨rfl, rfl⟩
  | none =>
    rw [hlink] at hload
    have hshows : (s.popTo .atLast).Shows rest := h.popTo (fun _ => hpush) (by rw [hhead]; nofun)
    by_cases hrest : rest = []
    · subst hrest
      obtain ⟨s', halone, hreturns⟩ := alone_last hshows hhead rfl
      exact ⟨6, s', Nat.le_refl 6, .cons hload halone, fun hcut => absurd rfl hcut.2,
        fun _ => hreturns⟩
    · have hfail : (s.popTo .atLast).popNext = some (s.popTo .atLast).fail :=
        if_neg fun hlast => hrest (hshows.rest_eq_nil hlast)
      exact ⟨2, _, by decide, .cons hload (.cons hfail rfl), fun _ => ⟨rfl, rfl⟩,
        fun hcut => absurd ⟨rfl, hrest⟩ hcut⟩

/-- The stub is at the head, and no link leads on: the tail says whether the queue is empty. -/
theorem alone_stub (h : s.Shows rest) (hpop : s.pop = .begun) (hpush : s.push none = .idle)
    (hstub : s.head = .stub) (hlink : s.next s.head = none) : ∃ s', s.Alone 2 s' ∧
      (rest = [] → s'.pop = .idle ∧ s'.events = s.events ++ [.isEmpty true]) ∧
      (rest ≠ [] → s.Fails s') := by
  have hload : s.popNext = some (s.popTo .atStub) := by
    simp [popNext, hpop, hstub, hstub ▸ hlink]
  have hshows : (s.popTo .atStub).Shows rest := h.popTo (fun _ => hpush) hstub
  by_cases hrest : rest = []
  · subst hrest
    exact ⟨_, .cons hload (.cons (if_pos hshows.tail_eq) rfl), fun _ => ⟨rfl, rfl⟩,
      fun hne => absurd rfl hne⟩
  · have hfail : (s.popTo .atStub).popNext = some (s.popTo .atStub).fail :=
      if_neg fun hlast => hrest (hshows.rest_eq_nil hlast)
    exact ⟨_, .cons hload (.cons hfail rfl), fun hnil => absurd hnil hrest, fun _ => ⟨rfl, rfl⟩⟩

/-- The stub at the head is skipped, and the item behind it is tried. -/
theorem alone_skip (h : s.Shows rest) (hpop : s.pop = .begun) (hpush : s.push none = .idle)
    (hstub : s.head = .stub) {behind : QueueNode T}
    (hlink : s.next s.head = some behind) : ∃ t k s', rest.head? = some (.item t) ∧ k ≤ 7 ∧
      s.Alone k s' ∧ (s.Cut (.item t) → s.Fails s') ∧ (¬ s.Cut (.item t) → s.Returns t s') := by
  have hskip : s.popNext = some ({ s with head := behind }.popTo .skipped) := by
    simp [popNext, hpop, hstub, hstub ▸ hlink]
  obtain ⟨rest', rfl, hshows⟩ := h.advance hlink
  cases behind with
  | stub => exact absurd List.mem_cons_self (hstub ▸ (List.nodup_cons.mp h.nodup).1)
  | item t =>
    obtain ⟨k, s', hk, halone, hanswer⟩ :=
      alone_loadNext (hshows .skipped (fun _ => hpush) nofun) rfl hpush rfl
    exact ⟨t, k + 1, s', rfl, Nat.succ_le_succ hk, .cons hskip halone, hanswer⟩

end Alone

/-- **An undisturbed consumer** gets an answer within eight accesses, from every state that a run
    reaches: that the queue is empty, if it is; else the oldest item, if the chain is cut neither
    behind the head nor behind the item; and if it is, nothing, but then a producer is in the
    middle of its `Push`. -/
theorem popWeak_alone {as : List (IntrusiveAction C T)} {s : IntrusiveQueue C T}
    (hoffers : Along step Offers new as) (hrun : run step new as = some s) (hidle : s.pop = .idle)
    {queue : List T} (hqueue : FifoQueue.Leads none s.events queue) (weak : Bool) :
    ∃ k s' s'', step s (if weak then .popWeak else .pop) = some s' ∧ s'.Alone k s'' ∧ k ≤ 7 ∧
      (queue = [] → s''.pop = .idle ∧ s''.events = s.events ++ [.isEmpty true]) ∧
      ∀ t, queue.head? = some t → (s.Cut s.head ∨ s.Cut (.item t) → s'.Fails s'') ∧
        (¬ (s.Cut s.head ∨ s.Cut (.item t)) → s'.Returns t s'') := by
  obtain ⟨rest, hleads, h⟩ := inv_of_run hoffers hrun
  obtain rfl := hqueue.unique hleads
  have hpush := h.waits (by rw [hidle]; nofun)
  let s1 := { s with weak := weak }.popTo .begun
  have hcall : step s (if weak then .popWeak else .pop) = some s1 := by
    cases weak <;> exact if_pos hidle
  have h1 : s1.Shows rest :=
    ⟨h.tail, h.nodup, h.trail, h.knows, h.once, h.stub, fun _ => hpush, trivial, h.fault⟩
  by_cases hstub : s.head = .stub
  · cases hlink : s.next s.head with
    | none =>
      obtain ⟨s'', halone, hempty, hfails⟩ := alone_stub h1 rfl hpush hstub hlink
      refine ⟨2, s1, s'', hcall, halone, by decide, fun hnil => hempty (h.items_eq_nil.mp hnil).2,
        fun t hhead => ?_⟩
      have hrest : rest ≠ [] := by
        rintro rfl
        rw [hstub] at hhead
        cases hhead
      exact ⟨fun _ => hfails hrest, fun hcut => absurd (.inl (h.cut_iff.mpr ⟨hlink, hrest⟩)) hcut⟩
    | some behind =>
      obtain ⟨t, k, s'', hfirst, hk, halone, hfails, hreturns⟩ :=
        alone_skip h1 rfl hpush hstub hlink
      obtain ⟨rest', rfl⟩ := List.head?_eq_some_iff.mp hfirst
      have hcut : ¬ s.Cut s.head := by
        rw [h.cut_iff, hlink]
        exact fun hcut => nomatch hcut.1
      refine ⟨k, s1, s'', hcall, halone, hk, ?_, ?_⟩
      · rw [hstub]
        exact fun hnil => nomatch hnil
      · rw [hstub]
        rintro t ⟨⟩
        rw [← hstub, or_iff_right hcut]
        exact ⟨hfails, hreturns⟩
  · cases hitem : s.head with
    | stub => exact absurd hitem hstub
    | item t0 =>
      obtain ⟨k, s'', hk, halone, hfails, hreturns⟩ := alone_loadNext h1 hitem hpush (if_neg hstub)
      refine ⟨k, s1, s'', hcall, halone, Nat.le_succ_of_le hk, fun hnil => (nomatch hnil), ?_⟩
      rintro t ⟨⟩
      rw [or_self]
      exact ⟨hfails, hreturns⟩

theorem popWeak_alone_cutBetween : ∃ s s' s'' : IntrusiveQueue Bool Nat, ∃ k,
    run step new cutBetween = some s ∧ step s .popWeak = some s' ∧ s'.Alone k s'' ∧
    s'.Returns 8 s'' := by
  have hrun : (run step new cutBetween).map (fun s => decide
      (s.events = [.push 7, .push 8, .pop 7] ∧ s.pop = .idle ∧ ∀ c, s.push c = .idle)) =
        some true := by
    decide +kernel
  obtain ⟨s, hs, hstate⟩ := Option.map_eq_some_iff.mp hrun
  obtain ⟨hevents, hidle, hpush⟩ := of_decide_eq_true hstate
  have hcut : ∀ node, ¬ s.Cut node := by
    rintro node ⟨c, behind, hpc⟩
    rw [hpush c] at hpc
    cases hpc
  have hqueue : FifoQueue.Leads none s.events [8] := by
    rw [hevents]
    rfl
  obtain ⟨k, s', s'', hcall, halone, -, -, hanswer⟩ :=
    popWeak_alone (by decide +kernel) hs hidle hqueue true
  refine ⟨s, s', s'', k, hs, hcall, halone, (hanswer 8 rfl).2 ?_⟩
  exact fun hblocked => hblocked.elim (hcut _) (hcut _)

end IntrusiveQueue

end StorageEngine.Net
