/-
  StorageEngine/Sharding/ShardQueues.lean
  =======================================
  **Commands on the shards** (`Transaction::Scheduling`, the queues of
  `sharding/engine_shard.hpp`, and the callbacks of `SET`, `GET` and `DEL`).

  A list of commands is scheduled in order: each command becomes a task in the queue of
  its transaction's shard.  The shards run their queues in any order among each other, and
  while commands are still being scheduled.
-/
import StorageEngine.KeyedQueues
import StorageEngine.Command.GenericFamily

namespace StorageEngine.Sharding

open StorageEngine.Redis StorageEngine.Command StorageEngine.StepMachine StorageEngine.KeyedQueues

/-- A `SET` without options, a `GET`, or a `DEL` of one key. -/
inductive Cmd where
  | set (key value : Bytes)
  | get (key : Bytes)
  | del (key : Bytes)
deriving DecidableEq, Repr

namespace Cmd

def key : Cmd → Bytes
  | set key _ => key
  | get key => key
  | del key => key

/-- The arguments, as the parser gives them. -/
def args : Cmd → List Bytes
  | set key value => [text "SET", key, value]
  | get key => [text "GET", key]
  | del key => [text "DEL", key]

def callback : Cmd → Callback Result
  | set key value => cmdSet key value
  | get key => cmdGet key
  | del _ => cmdDel

end Cmd

/-- A scheduled command: its position in the list, and its transaction. -/
structure Task where
  op : Cmd × Nat
  tx : Transaction
deriving DecidableEq, Repr

/-- The commands still to be scheduled, with their positions in the list, the queues of the
    shards, the slices, and the commands that were run, with what their callbacks returned. -/
structure System where
  pending : List (Cmd × Nat)
  queues : ShardId → List Task
  ns : Namespace
  results : List ((Cmd × Nat) × Result)

inductive SystemStep where
  /-- The next command is scheduled, at some time. -/
  | schedule (now : UInt64)
  /-- A shard runs the next task of its queue. -/
  | run (sid : ShardId)
deriving DecidableEq, Repr

namespace System

variable (size : UInt32) (hash : Bytes → UInt64)

def start (cmds : List Cmd) : System := ⟨cmds.zipIdx, fun _ => [], Namespace.new, []⟩

def step (s : System) : SystemStep → Option System
  | .schedule now =>
    match s.pending with
    | [] => none
    | op :: rest =>
      let tx := Transaction.initByArgs size hash now op.1.args
      some { s with
        pending := rest
        queues := Function.update s.queues tx.uniqueShardId
          (s.queues tx.uniqueShardId ++ [⟨op, tx⟩]) }
  | .run sid =>
    match s.queues sid with
    | [] => none
    | task :: rest =>
      let (ns, r) := task.tx.runTask task.op.1.callback s.ns
      some { s with
        queues := Function.update s.queues sid rest
        ns := ns
        results := s.results ++ [(task.op, r)] }

/-- Nothing is left to be run. -/
def Done (s : System) : Prop := s.pending = [] ∧ ∀ sid, s.queues sid = []

end System

/-! ### One map -/

/-- The list of commands run on one map. -/
def sequential (cmds : List Cmd) : Finmap fun _ : Bytes => Bytes :=
  cmds.foldl (fun m c =>
    match c with
    | .set key value => m.insert key value
    | .get _ => m
    | .del key => m.erase key) ∅

def Cmd.Writes (c : Cmd) (key : Bytes) : Prop :=
  match c with
  | .set k _ => k = key
  | .get _ => False
  | .del k => k = key

/-- The value of the last `SET` of a key that no `DEL` of the key follows. -/
def LastSet (cmds : List Cmd) (key value : Bytes) : Prop :=
  ∃ before after, cmds = before ++ .set key value :: after ∧ ∀ c ∈ after, ¬ c.Writes key

/-- What a command returns behind other ones. -/
def Expected (cmds : List Cmd) (r : Result) : Cmd → Prop
  | .set _ _ => r = .status (.ok ())
  | .get key => (∀ value, LastSet cmds key value → r = .string (.ok value)) ∧
      ((¬ ∃ value, LastSet cmds key value) → r = .string (.error .keyNotFound))
  | .del key => ((∃ value, LastSet cmds key value) → r = .count 1) ∧
      ((¬ ∃ value, LastSet cmds key value) → r = .count 0)

theorem sequential_concat (cmds : List Cmd) (c : Cmd) :
    sequential (cmds ++ [c]) =
      match c with
      | .set key value => (sequential cmds).insert key value
      | .get _ => sequential cmds
      | .del key => (sequential cmds).erase key := by
  rw [sequential, List.foldl_append]
  cases c <;> rfl

theorem lastSet_concat {cmds : List Cmd} {c : Cmd} {key value : Bytes} :
    LastSet (cmds ++ [c]) key value ↔
      c = .set key value ∨ (¬ c.Writes key ∧ LastSet cmds key value) := by
  constructor
  · rintro ⟨before, after, heq, hafter⟩
    rcases List.eq_nil_or_concat after with rfl | ⟨after, c', rfl⟩
    · obtain ⟨-, hlast⟩ := List.append_inj' heq rfl
      exact Or.inl (List.cons.inj hlast).1
    · rw [List.concat_eq_append, ← List.cons_append, ← List.append_assoc] at heq
      obtain ⟨rfl, hlast⟩ := List.append_inj' heq rfl
      obtain rfl := (List.cons.inj hlast).1
      refine Or.inr ⟨hafter c (by simp), before, after, rfl, fun d hd => hafter d ?_⟩
      simp [hd]
  · rintro (rfl | ⟨hwrites, before, after, rfl, hafter⟩)
    · exact ⟨cmds, [], rfl, fun d hd => absurd hd List.not_mem_nil⟩
    · refine ⟨before, after ++ [c], by simp, fun d hd => ?_⟩
      rcases List.mem_append.mp hd with hd | hd
      · exact hafter d hd
      · rw [List.mem_singleton.mp hd]
        exact hwrites

/-- The map holds the value of the last `SET`. -/
theorem lookup_sequential (cmds : List Cmd) (key value : Bytes) :
    (sequential cmds).lookup key = some value ↔ LastSet cmds key value := by
  induction cmds using List.reverseRecOn with
  | nil =>
    refine iff_of_false (by simp [sequential]) ?_
    rintro ⟨before, after, heq, -⟩
    simp at heq
  | append_singleton cmds c ih =>
    rw [sequential_concat, lastSet_concat, ← ih]
    cases c with
    | get k => simp [Cmd.Writes]
    | set k v =>
      by_cases hk : k = key
      · subst hk
        simp [Cmd.Writes, Finmap.lookup_insert]
      · simp [Cmd.Writes, hk, Finmap.lookup_insert_of_ne _ (Ne.symm hk)]
    | del k =>
      by_cases hk : k = key
      · subst hk
        simp [Cmd.Writes]
      · simp [Cmd.Writes, hk, Finmap.lookup_erase_ne (Ne.symm hk)]

/-! ### Commands as operations on one key -/

/-- A string, as the entry of a key without an expiry. -/
def stringEntry (value : Bytes) : Entry := ⟨none, .str value⟩

/-- What the callbacks do to the entry of their key, and what they return. -/
def keyed : Keyed (Cmd × Nat) Bytes Entry Result where
  key := fun op => op.1.key
  apply := fun op e =>
    match op.1 with
    | .set _ value => (some (stringEntry value), .status (.ok ()))
    | .get _ =>
      match e with
      | none => (e, .string (.error .keyNotFound))
      | some e' => (e, readString e'.value)
    | .del _ => (none, .count (if e.isSome then 1 else 0))

/-- The store behind a list of commands holds the strings of the map. -/
theorem after_eq_sequential (ops : List (Cmd × Nat)) (key : Bytes) :
    keyed.after (fun _ => none) ops key =
      ((sequential (ops.map Prod.fst)).lookup key).map stringEntry := by
  induction ops using List.reverseRecOn with
  | nil => rfl
  | append_singleton ops op ih =>
    obtain ⟨c, i⟩ := op
    rw [keyed.after_append, List.map_append, List.map_singleton, sequential_concat]
    show (keyed.exec _ (c, i)).1 key = _
    rw [keyed.exec_fst]
    cases c with
    | get k =>
      have hsame : (keyed.apply (.get k, i) (keyed.after (fun _ => none) ops k)).1 =
          keyed.after (fun _ => none) ops k := by
        simp only [keyed]
        split <;> rfl
      show Function.update (keyed.after (fun _ => none) ops) k
        (keyed.apply (.get k, i) (keyed.after (fun _ => none) ops k)).1 key = _
      rw [hsame, Function.update_eq_self, ih]
    | set k v =>
      show Function.update (keyed.after (fun _ => none) ops) k (some (stringEntry v)) key = _
      by_cases hk : key = k
      · rw [hk, Function.update_self, Finmap.lookup_insert]
        rfl
      · rw [Function.update_of_ne hk, Finmap.lookup_insert_of_ne _ hk, ih]
    | del k =>
      show Function.update (keyed.after (fun _ => none) ops) k none key = _
      by_cases hk : key = k
      · rw [hk, Function.update_self, Finmap.lookup_erase]
        rfl
      · rw [Function.update_of_ne hk, Finmap.lookup_erase_ne hk, ih]

/-- A command returns what is expected of it behind the others. -/
theorem expected_exec (ops : List (Cmd × Nat)) (op : Cmd × Nat) :
    Expected (ops.map Prod.fst) (keyed.exec (keyed.after (fun _ => none) ops) op).2 op.1 := by
  obtain ⟨c, i⟩ := op
  rw [keyed.exec_snd, after_eq_sequential]
  have hnone : ∀ key, (¬ ∃ value, LastSet (ops.map Prod.fst) key value) →
      (sequential (ops.map Prod.fst)).lookup key = none := by
    intro key hno
    cases hlookup : (sequential (ops.map Prod.fst)).lookup key with
    | none => rfl
    | some value => exact absurd ⟨value, (lookup_sequential _ _ _).mp hlookup⟩ hno
  cases c with
  | set k v => exact rfl
  | get k =>
    refine ⟨fun value hlast => ?_, fun hno => ?_⟩
    · rw [show keyed.key (.get k, i) = k from rfl, (lookup_sequential _ _ _).mpr hlast]
      rfl
    · rw [show keyed.key (.get k, i) = k from rfl, hnone k hno]
      rfl
  | del k =>
    refine ⟨?_, fun hno => ?_⟩
    · rintro ⟨value, hlast⟩
      rw [show keyed.key (.del k, i) = k from rfl, (lookup_sequential _ _ _).mpr hlast]
      rfl
    · rw [show keyed.key (.del k, i) = k from rfl, hnone k hno]
      rfl

/-! ### The system runs the queues -/

/-- The entries of a slice. -/
def DbSlice.entries (db : DbSlice) : Bytes → Option Entry := fun key => db.prime.lookup key

section Task

variable {tx : Transaction} {c : Cmd} {ns : Namespace}

/-- **A task touches the slice of its transaction's shard only**, and there does what its
    command does to one key. -/
theorem runTask_spec (howner : ∀ sid, (ns sid).owner = sid) (hargs : tx.fullArgs = c.args)
    (i : Nat) :
    ∃ db, (tx.runTask c.callback ns).1 = Function.update ns tx.uniqueShardId db ∧
      db.owner = tx.uniqueShardId ∧
      db.entries = (keyed.exec (ns tx.uniqueShardId).entries (c, i)).1 ∧
      (tx.runTask c.callback ns).2 = (keyed.exec (ns tx.uniqueShardId).entries (c, i)).2 := by
  have hown := howner tx.uniqueShardId
  cases c with
  | set key value =>
    refine ⟨(SetCmd.set tx.timeNowMs {} value key (ns tx.uniqueShardId)).1, ?_, ?_, ?_, ?_⟩
    · unfold Transaction.runTask
      rw [hown]
      rfl
    · rw [SetCmd.set_owner, hown]
    · funext k
      show (SetCmd.set _ _ _ _ _).1.prime.lookup k =
        Function.update (ns tx.uniqueShardId).entries key (some (stringEntry value)) k
      rw [SetCmd.lookup_set, Function.update_apply]
      rfl
    · show Result.status (SetCmd.set _ _ _ _ _).2 = _
      rw [SetCmd.set_status]
      rfl
  | get key =>
    have htask : tx.runTask (Cmd.get key).callback ns =
        (ns, (keyed.apply (.get key, i) ((ns tx.uniqueShardId).entries key)).2) := by
      show cmdGet key tx _ ns = _
      unfold cmdGet
      rw [hown]
      dsimp only
      rw [DbSlice.entry_findReadOnly]
      simp only [keyed, DbSlice.entries]
      cases (ns tx.uniqueShardId).prime.lookup key <;> rfl
    have hsame : (keyed.apply (.get key, i) ((ns tx.uniqueShardId).entries key)).1 =
        (ns tx.uniqueShardId).entries key := by
      simp only [keyed]
      split <;> rfl
    rw [htask]
    refine ⟨ns tx.uniqueShardId, (Function.update_eq_self _ _).symm, hown, ?_, rfl⟩
    rw [keyed.exec_fst]
    show _ = Function.update (ns tx.uniqueShardId).entries key
      (keyed.apply (.get key, i) ((ns tx.uniqueShardId).entries key)).1
    rw [hsame, Function.update_eq_self]
  | del key =>
    have hkey : tx.fullArgs.getD 1 [] = key := by rw [hargs]; rfl
    have htask := runTask_del hown
    rw [hkey] at htask
    rw [show (Cmd.del key).callback = cmdDel from rfl, htask]
    by_cases hmem : key ∈ (ns tx.uniqueShardId).prime
    · rw [if_pos hmem]
      refine ⟨_, rfl, by rw [DbSlice.del_owner, hown], ?_, ?_⟩
      · funext k
        rw [show (keyed.exec (ns tx.uniqueShardId).entries (Cmd.del key, i)).1 =
          Function.update (ns tx.uniqueShardId).entries key none from rfl, Function.update_apply]
        exact DbSlice.lookup_del key k
      · show _ = Result.count (if ((ns tx.uniqueShardId).prime.lookup key).isSome then 1 else 0)
        rw [if_pos (Finmap.lookup_isSome.mpr hmem)]
    · rw [if_neg hmem]
      have hnone := Finmap.lookup_eq_none.mpr hmem
      refine ⟨ns tx.uniqueShardId, (Function.update_eq_self _ _).symm, hown, ?_, ?_⟩
      · exact (Function.update_eq_self_iff.mpr hnone.symm).symm
      · show _ = Result.count (if ((ns tx.uniqueShardId).prime.lookup key).isSome then 1 else 0)
        rw [hnone]
        rfl

end Task

namespace System

variable {size : UInt32} {hash : Bytes → UInt64}

/-- Every slice belongs to the shard with its id, and every task is the one of its command, in
    the queue of the shard of its key. -/
structure Inv (size : UInt32) (hash : Bytes → UInt64) (s : System) : Prop where
  owned : ∀ sid, (s.ns sid).owner = sid
  tasks : ∀ sid, ∀ task ∈ s.queues sid, task.tx.fullArgs = task.op.1.args ∧
    task.tx.uniqueShardId = sid ∧ shard size (hash task.op.1.key) = sid

theorem inv_start (cmds : List Cmd) : Inv size hash (start cmds) where
  owned := fun _ => rfl
  tasks := fun _ _ hmem => absurd hmem List.not_mem_nil

/-- The system as queues of operations on keys. -/
def queued (s : System) : Queues (Cmd × Nat) Bytes Entry Result ShardId where
  pending := s.pending
  queues := fun sid => (s.queues sid).map Task.op
  stores := fun sid => (s.ns sid).entries
  results := s.results

def queueStep : SystemStep → QueueStep ShardId
  | .schedule _ => .route
  | .run sid => .run sid

theorem initByArgs_shard (size : UInt32) (hash : Bytes → UInt64) (now : UInt64) (c : Cmd) :
    (Transaction.initByArgs size hash now c.args).uniqueShardId = shard size (hash c.key) := by
  cases c <;> rfl

theorem queued_update (queues : ShardId → List Task) (sid : ShardId) (tasks : List Task) :
    (fun p => (Function.update queues sid tasks p).map Task.op) =
      Function.update (fun p => (queues p).map Task.op) sid (tasks.map Task.op) :=
  funext fun p => Function.apply_update (fun _ => List.map Task.op) queues sid tasks p

theorem entries_update (ns : Namespace) (sid : ShardId) (db : DbSlice) :
    (fun p => (Function.update ns sid db p).entries) =
      Function.update (fun p => (ns p).entries) sid db.entries :=
  funext fun p => Function.apply_update (fun _ => DbSlice.entries) ns sid db p

/-- What a shard does when it runs a task. -/
theorem step_run {s s' : System} {sid : ShardId} (h : Inv size hash s)
    (hstep : step size hash s (.run sid) = some s') :
    ∃ task rest db r, s.queues sid = task :: rest ∧ shard size (hash task.op.1.key) = sid ∧
      db.owner = sid ∧ db.entries = (keyed.exec (s.ns sid).entries task.op).1 ∧
      r = (keyed.exec (s.ns sid).entries task.op).2 ∧
      s' = ⟨s.pending, Function.update s.queues sid rest, Function.update s.ns sid db,
        s.results ++ [(task.op, r)]⟩ := by
  rw [step] at hstep
  split at hstep
  · cases hstep
  · rename_i task rest hqueue
    obtain ⟨hargs, huniq, hroute⟩ := h.tasks sid task (hqueue ▸ List.mem_cons_self)
    obtain ⟨db, hns, hown, hentries, hres⟩ := runTask_spec h.owned hargs task.op.2
    rw [huniq] at hns hown hentries hres
    refine ⟨task, rest, db, _, hqueue, hroute, hown, hentries, hres, ?_⟩
    rw [← hns]
    exact (Option.some.inj hstep).symm

/-- A step of the system is a step of the queues. -/
theorem step_queued (s : System) (a : SystemStep) (s' : System) (h : Inv size hash s)
    (hstep : step size hash s a = some s') :
    Inv size hash s' ∧ KeyedQueues.step keyed (fun key => shard size (hash key)) s.queued
      (queueStep a) = some s'.queued := by
  cases a with
  | schedule now =>
    rw [step] at hstep
    split at hstep
    · cases hstep
    · rename_i op rest hpending
      obtain rfl := Option.some.inj hstep
      have hsid := initByArgs_shard size hash now op.1
      refine ⟨⟨h.owned, fun sid task hmem => ?_⟩, ?_⟩
      · dsimp only at hmem
        rw [hsid] at hmem
        by_cases hp : sid = shard size (hash op.1.key)
        · subst hp
          rw [Function.update_self] at hmem
          rcases List.mem_append.mp hmem with hmem | hmem
          · exact h.tasks _ task hmem
          · rw [List.mem_singleton.mp hmem]
            exact ⟨rfl, hsid, rfl⟩
        · rw [Function.update_of_ne hp] at hmem
          exact h.tasks sid task hmem
      · rw [queueStep, KeyedQueues.step]
        simp only [queued, hpending]
        rw [hsid, queued_update, List.map_append]
        rfl
  | run sid =>
    obtain ⟨task, rest, db, r, hqueue, -, hown, hentries, rfl, rfl⟩ := step_run h hstep
    refine ⟨⟨fun p => ?_, fun p t hmem => ?_⟩, ?_⟩
    · dsimp only
      by_cases hp : p = sid
      · rw [hp, Function.update_self, hown]
      · rw [Function.update_of_ne hp]
        exact h.owned p
    · dsimp only at hmem
      by_cases hp : p = sid
      · subst hp
        rw [Function.update_self] at hmem
        exact h.tasks p t (hqueue ▸ List.mem_cons_of_mem _ hmem)
      · rw [Function.update_of_ne hp] at hmem
        exact h.tasks p t hmem
    · rw [queueStep, KeyedQueues.step]
      simp only [queued, hqueue, List.map_cons]
      rw [queued_update, entries_update, hentries]

/-- A run of the system is a run of the queues. -/
theorem run_queued {cmds : List Cmd} {steps : List SystemStep} {s : System}
    (hrun : run (step size hash) (start cmds) steps = some s) :
    Inv size hash s ∧ run (KeyedQueues.step keyed fun key => shard size (hash key))
      (KeyedQueues.start (fun _ _ => none) cmds.zipIdx) (steps.map queueStep) = some s.queued :=
  run_map (f := queued) (g := queueStep) step_queued (inv_start cmds) hrun

/-! ### Every order of the shards -/

/-- **What the shards compute is what one map computes.** -/
structure Sequential (size : UInt32) (hash : Bytes → UInt64) (cmds : List Cmd) (s : System) :
    Prop where
  /-- Every key has a shard. -/
  inRange : ∀ key, (shard size (hash key)).toNat < size.toNat
  /-- The two ways of computing it agree. -/
  mask : ∀ key, isPowerOfTwo size = true →
    hash key &&& (size - 1).toUInt64 = hash key % size.toUInt64
  /-- A shard that runs a command changes its own slice only, which is the one of the key. -/
  ownSlice : ∀ sid s', step size hash s (.run sid) = some s' →
    (∀ p, p ≠ sid → s'.ns p = s.ns p) ∧
      ∃ op r, s'.results = s.results ++ [(op, r)] ∧ shard size (hash op.1.key) = sid
  /-- A command that was run has returned what it returns in the list. -/
  returned : ∀ c i r, ((c, i), r) ∈ s.results →
    cmds[i]? = some c ∧ Expected (cmds.take i) r c
  /-- When nothing is left, every command was run once. -/
  complete : s.Done → (s.results.map Prod.fst).Perm cmds.zipIdx
  /-- When nothing is left, the slices hold what the map holds, each key at its shard. -/
  contents : s.Done → ∀ sid key, (s.ns sid).prime.lookup key =
    if shard size (hash key) = sid then ((sequential cmds).lookup key).map stringEntry else none

theorem ownSlice_of_inv {s s' : System} (h : Inv size hash s) {sid : ShardId}
    (hstep : step size hash s (.run sid) = some s') :
    (∀ p, p ≠ sid → s'.ns p = s.ns p) ∧
      ∃ op r, s'.results = s.results ++ [(op, r)] ∧ shard size (hash op.1.key) = sid := by
  obtain ⟨task, rest, db, r, -, hroute, -, -, -, rfl⟩ := step_run h hstep
  exact ⟨fun p hp => Function.update_of_ne hp _ _, task.op, r, rfl, hroute⟩

/-- The commands before a position of the list. -/
theorem zipIdx_split {cmds : List Cmd} {before rest : List (Cmd × Nat)} {c : Cmd} {i : Nat}
    (heq : cmds.zipIdx = before ++ (c, i) :: rest) :
    cmds[i]? = some c ∧ before.map Prod.fst = cmds.take i := by
  have hfst : cmds = before.map Prod.fst ++ c :: rest.map Prod.fst := by
    have hmap := congrArg (List.map Prod.fst) heq
    rwa [List.zipIdx_map_fst, List.map_append, List.map_cons] at hmap
  have hlen : before.length = i := by
    have hget : cmds.zipIdx[before.length]? = (before ++ (c, i) :: rest)[before.length]? := by
      rw [heq]
    rw [List.getElem?_append_right (Nat.le_refl _), Nat.sub_self, List.getElem?_cons_zero,
      List.getElem?_zipIdx] at hget
    obtain ⟨x, -, hx⟩ := Option.map_eq_some_iff.mp hget
    rw [← (Prod.mk.inj hx).2, Nat.zero_add]
  have hlen' : (before.map Prod.fst).length = i := by rw [List.length_map, hlen]
  constructor
  · rw [hfst, ← hlen', List.getElem?_append_right (Nat.le_refl _), Nat.sub_self,
      List.getElem?_cons_zero]
  · rw [hfst, ← hlen', List.take_left]

/-- **Sharded execution is sequential execution**, in every state of every run. -/
theorem sharded_sequential (hsize : 0 < size) {cmds : List Cmd} {steps : List SystemStep}
    {s : System} (hrun : run (step size hash) (start cmds) steps = some s) :
    Sequential size hash cmds s := by
  obtain ⟨hinv, hqueued⟩ := run_queued hrun
  refine ⟨fun key => shard_lt hsize _, fun key hpow => and_mask_eq_mod hpow _, fun sid s' =>
    ownSlice_of_inv hinv, ?_, ?_, ?_⟩
  · intro c i r hmem
    obtain ⟨before, rest, hsplit, hr⟩ := result_sequential hqueued hmem
    obtain ⟨hget, hbefore⟩ := zipIdx_split hsplit
    refine ⟨hget, ?_⟩
    rw [hr, ← hbefore]
    exact expected_exec before (c, i)
  · rintro ⟨hpending, hqueues⟩
    exact ran_perm hqueued ⟨hpending, fun sid => by simp [queued, hqueues]⟩
  · rintro ⟨hpending, hqueues⟩ sid key
    have hstore := stores_sequential hqueued ⟨hpending, fun p => by simp [queued, hqueues]⟩ sid key
    refine hstore.trans ?_
    split
    · show keyed.after (fun _ => none) cmds.zipIdx key = _
      rw [after_eq_sequential, List.zipIdx_map_fst]
    · rfl

/-- Two shards; the second runs its `GET` before the first has run its `SET`. -/
theorem sharded_sequential_two :
    ∃ s, run (step 2 fun key => (key.headD 0).toUInt64)
        (start [.set (text "a") (text "1"), .get (text "b"), .get (text "a")])
        [.schedule 0, .schedule 0, .run 0, .schedule 0, .run 1, .run 1] = some s ∧
      s.pending = [] ∧ s.results.length = 3 ∧
      Sequential 2 (fun key => (key.headD 0).toUInt64)
        [.set (text "a") (text "1"), .get (text "b"), .get (text "a")] s := by
  have hsome : ((run (step 2 fun key => (key.headD 0).toUInt64)
      (start [.set (text "a") (text "1"), .get (text "b"), .get (text "a")])
      [.schedule 0, .schedule 0, .run 0, .schedule 0, .run 1, .run 1]).map
        fun s => (s.pending, s.results.length)) = some ([], 3) := by decide +kernel
  obtain ⟨s, hs, hfields⟩ := Option.map_eq_some_iff.mp hsome
  obtain ⟨hpending, hlength⟩ := Prod.mk.inj hfields
  exact ⟨s, hs, hpending, hlength, sharded_sequential (by decide) hs⟩

end System

end StorageEngine.Sharding
