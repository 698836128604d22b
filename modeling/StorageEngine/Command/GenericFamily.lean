/-
  StorageEngine/Command/GenericFamily.lean
  ========================================
  **`DEL` and `EXISTS`** (`command_layer/generic_family.cpp`).

  Both loop over the arguments that the transaction gives them for the shard, and the
  transaction gives them the first key only, on the shard of that key.
-/
import StorageEngine.Command.CommandRegistry
import StorageEngine.Command.StringFamily

namespace StorageEngine.Command

open StorageEngine.Redis StorageEngine.Sharding

/-- The body of `OpDel`'s loop. -/
def opDelKey (acc : DbSlice × UInt32) (key : Bytes) : DbSlice × UInt32 :=
  match acc.1.findMutable key with
  | none => acc
  | some k => (acc.1.del (some k), acc.2 + 1)

def opDel (db : DbSlice) (keys : ShardArgs) : DbSlice × UInt32 := keys.keys.foldl opDelKey (db, 0)

/-- The callback of `CmdDel`. -/
def cmdDel : Callback Result := fun tx es ns =>
  let (db, res) := opDel (ns es) (tx.getShardArgs es)
  (Function.update ns es db, .count res)

/-- The loop of `CmdExists`. -/
def opExists (db : DbSlice) (keys : ShardArgs) : UInt32 :=
  keys.keys.foldl (fun res key => res + if (db.findReadOnly key).isSome then 1 else 0) 0

/-- The callback of `CmdExists`. -/
def cmdExists : Callback Result := fun tx es ns =>
  (ns, .count (opExists (ns es) (tx.getShardArgs es)))

/-- The callback of `CmdExpire`, with `UpdateExpire`. -/
def cmdExpire (key : Bytes) (sec : UInt64) : Callback (OpResult Unit) := fun _ es ns =>
  let db := ns es
  match db.findMutable key with
  | none => (ns, .error .keyNotFound)
  | some k => (Function.update ns es (db.addExpire (some k) sec), .ok ())

/-- The callback of `CmdTtl`. -/
def cmdTtl (key : Bytes) : Callback (OpResult Int) := fun tx es ns =>
  let db := ns es
  match db.entry (db.findReadOnly key) with
  | none => (ns, .error .keyNotFound)
  | some e =>
    match e.expire with
    | none => (ns, .error .skipped)
    | some ttlTime => (ns, .ok (ttlTime - tx.timeNowMs).toInt64.toInt)

/-- What the continuations of the commands send. -/
def Result.reply : Result → Option Reply
  | .status (.ok _) => some (.status (text "OK"))
  | .string (.ok s) => some (.str s)
  | .status (.error _) | .string (.error _) => some .error
  | .count n => some (.int n.toNat)
  | .fatal => none

/-- A command is run: its transaction is made and scheduled, and its callback is run. -/
def runCommand {α : Type} (size : UInt32) (hash : Bytes → UInt64) (now : UInt64)
    (cb : Callback α) (args : List Bytes) (ns : Namespace) : Namespace × α :=
  (Transaction.initByArgs size hash now args).runTask cb ns

/-! ### One key -/

theorem opDel_single (db : DbSlice) {keys : ShardArgs} {key : Bytes} (hkeys : keys.keys = [key]) :
    opDel db keys = if key ∈ db.prime then (db.del (some key), 1) else (db, 0) := by
  unfold opDel
  rw [hkeys, List.foldl_cons, List.foldl_nil]
  unfold opDelKey
  rw [DbSlice.findMutable_eq]
  by_cases hmem : key ∈ db.prime
  · rw [if_pos hmem, if_pos hmem]
    rfl
  · rw [if_neg hmem, if_neg hmem]

theorem opExists_single (db : DbSlice) {keys : ShardArgs} {key : Bytes}
    (hkeys : keys.keys = [key]) : opExists db keys = if key ∈ db.prime then 1 else 0 := by
  unfold opExists
  rw [hkeys, List.foldl_cons, List.foldl_nil, DbSlice.findReadOnly_eq]
  by_cases hmem : key ∈ db.prime
  · rw [if_pos hmem, if_pos hmem]
    rfl
  · rw [if_neg hmem, if_neg hmem]
    rfl

section Task

variable {tx : Transaction} {ns : Namespace}

/-- The task of a `DEL` works on the slice of its own shard and on the first key. -/
theorem runTask_del (howner : (ns tx.uniqueShardId).owner = tx.uniqueShardId) :
    tx.runTask cmdDel ns =
      if tx.fullArgs.getD 1 [] ∈ (ns tx.uniqueShardId).prime then
        (Function.update ns tx.uniqueShardId
          ((ns tx.uniqueShardId).del (some (tx.fullArgs.getD 1 []))), .count 1)
      else (ns, .count 0) := by
  unfold Transaction.runTask cmdDel
  rw [howner]
  dsimp only
  rw [opDel_single _ (tx.keys_getShardArgs _)]
  split
  · rfl
  · rw [Function.update_eq_self]

theorem runTask_exists (howner : (ns tx.uniqueShardId).owner = tx.uniqueShardId) :
    tx.runTask cmdExists ns =
      (ns, .count (if tx.fullArgs.getD 1 [] ∈ (ns tx.uniqueShardId).prime then 1 else 0)) := by
  unfold Transaction.runTask cmdExists
  rw [howner, opExists_single _ (tx.keys_getShardArgs _)]

end Task

/-! ### The store -/

/-- The contents of the store: the slice with an id belongs to the shard with that id, and
    every key is in the slice of its shard. -/
structure Store (size : UInt32) (hash : Bytes → UInt64) where
  ns : Namespace
  owned : ∀ sid, (ns sid).owner = sid
  routed : ∀ sid key, key ∈ (ns sid).prime → sid = shard size (hash key)

namespace Store

variable {size : UInt32} {hash : Bytes → UInt64} (st : Store size hash)

/-- The key is in the store. -/
def Present (key : Bytes) : Prop := key ∈ (st.ns (shard size (hash key))).prime

instance (key : Bytes) : Decidable (st.Present key) := by
  unfold Present
  infer_instance

variable {st}

theorem mem_prime_iff {sid : ShardId} {key : Bytes} :
    key ∈ (st.ns sid).prime ↔ sid = shard size (hash key) ∧ st.Present key := by
  constructor
  · intro hmem
    have hsid := st.routed sid key hmem
    exact ⟨hsid, by unfold Present; rwa [← hsid]⟩
  · rintro ⟨rfl, hpresent⟩
    exact hpresent

/-- `DEL` removes its first key, and counts it. -/
theorem runCommand_del (now : UInt64) (name key : Bytes) (rest : List Bytes) :
    (∀ sid k, ((runCommand size hash now cmdDel (name :: key :: rest) st.ns).1 sid).prime.lookup k =
      if k = key then none else (st.ns sid).prime.lookup k) ∧
    (runCommand size hash now cmdDel (name :: key :: rest) st.ns).2 =
      .count (if st.Present key then 1 else 0) := by
  have htask : runCommand size hash now cmdDel (name :: key :: rest) st.ns =
      if st.Present key then
        (Function.update st.ns (shard size (hash key))
          ((st.ns (shard size (hash key))).del (some key)), .count 1)
      else (st.ns, .count 0) := runTask_del (st.owned _)
  rw [htask]
  by_cases hpresent : st.Present key
  · rw [if_pos hpresent, if_pos hpresent]
    refine ⟨fun sid k => ?_, rfl⟩
    dsimp only
    by_cases hsid : sid = shard size (hash key)
    · subst hsid
      rw [Function.update_self, DbSlice.lookup_del]
    · rw [Function.update_of_ne hsid]
      by_cases hk : k = key
      · rw [if_pos hk, hk]
        exact Finmap.lookup_eq_none.mpr fun hmem => hsid (mem_prime_iff.mp hmem).1
      · rw [if_neg hk]
  · rw [if_neg hpresent, if_neg hpresent]
    refine ⟨fun sid k => ?_, rfl⟩
    by_cases hk : k = key
    · rw [if_pos hk, hk]
      exact Finmap.lookup_eq_none.mpr fun hmem => hpresent (mem_prime_iff.mp hmem).2
    · rw [if_neg hk]

/-- `EXISTS` looks for its first key. -/
theorem runCommand_exists (now : UInt64) (name key : Bytes) (rest : List Bytes) :
    runCommand size hash now cmdExists (name :: key :: rest) st.ns =
      (st.ns, .count (if st.Present key then 1 else 0)) :=
  runTask_exists (st.owned _)

/-! ### All keys -/

/-- After a `DEL` none of its keys is in any slice, every other key is where it was, and the
    reply is the number of different keys that were present. -/
def DelCovers (st : Store size hash) (keys : List Bytes) (out : Namespace × Result) : Prop :=
  (∀ key ∈ keys, ∀ sid, (out.1 sid).prime.lookup key = none) ∧
    (∀ key, key ∉ keys → ∀ sid, (out.1 sid).prime.lookup key = (st.ns sid).prime.lookup key) ∧
    out.2.reply = some (.int (keys.toFinset.filter st.Present).card)

/-- An `EXISTS` changes nothing, and the reply is the number of its arguments that are
    present. -/
def ExistsCovers (st : Store size hash) (keys : List Bytes) (out : Namespace × Result) : Prop :=
  out.1 = st.ns ∧ out.2.reply = some (.int (keys.countP fun key => st.Present key))

theorem toNat_count (b : Prop) [Decidable b] :
    (Result.count (if b then 1 else 0)).reply = some (.int (if b then 1 else 0)) := by
  by_cases hb : b <;> simp [Result.reply, hb]

theorem delCovers_iff (now : UInt64) (name key : Bytes) (rest : List Bytes) :
    DelCovers st (key :: rest) (runCommand size hash now cmdDel (name :: key :: rest) st.ns) ↔
      ∀ k ∈ rest, st.Present k → k = key := by
  obtain ⟨hlookup, hcount⟩ := st.runCommand_del now name key rest
  constructor
  · rintro ⟨hgone, -, -⟩ k hk hpresent
    by_contra hne
    have hnone := hgone k (List.mem_cons_of_mem _ hk) (shard size (hash k))
    rw [hlookup, if_neg hne] at hnone
    exact Finmap.lookup_eq_none.mp hnone hpresent
  · intro hfirst
    refine ⟨?_, ?_, ?_⟩
    · intro k hk sid
      rw [hlookup]
      split
      · rfl
      · rename_i hne
        refine Finmap.lookup_eq_none.mpr fun hmem => hne ?_
        rcases List.mem_cons.mp hk with rfl | hrest
        · rfl
        · exact hfirst k hrest (mem_prime_iff.mp hmem).2
    · intro k hk sid
      rw [hlookup, if_neg]
      rintro rfl
      exact hk List.mem_cons_self
    · rw [hcount, toNat_count]
      have hset : (key :: rest).toFinset.filter st.Present =
          if st.Present key then {key} else ∅ := by
        ext k
        rw [Finset.mem_filter, List.mem_toFinset, List.mem_cons]
        by_cases hpresent : st.Present key
        · rw [if_pos hpresent, Finset.mem_singleton]
          constructor
          · rintro ⟨rfl | hrest, hk⟩
            · rfl
            · exact hfirst k hrest hk
          · rintro rfl
            exact ⟨Or.inl rfl, hpresent⟩
        · rw [if_neg hpresent]
          refine iff_of_false ?_ (Finset.notMem_empty k)
          rintro ⟨rfl | hrest, hk⟩
          · exact hpresent hk
          · exact hpresent (hfirst k hrest hk ▸ hk)
      rw [hset]
      split <;> simp

theorem existsCovers_iff (now : UInt64) (name key : Bytes) (rest : List Bytes) :
    ExistsCovers st (key :: rest)
        (runCommand size hash now cmdExists (name :: key :: rest) st.ns) ↔
      ∀ k ∈ rest, ¬ st.Present k := by
  rw [st.runCommand_exists now name key rest, ExistsCovers, toNat_count, List.countP_cons]
  have hone : (if st.Present key then (1 : Int) else 0) =
      ((if decide (st.Present key) = true then 1 else 0 : Nat) : Int) := by
    by_cases hpresent : st.Present key <;> simp [hpresent]
  rw [hone]
  have hzero : rest.countP (fun k => decide (st.Present k)) = 0 ↔ ∀ k ∈ rest, ¬ st.Present k := by
    simp
  rw [← hzero]
  constructor
  · rintro ⟨-, hreply⟩
    have := Reply.int.inj (Option.some.inj hreply)
    omega
  · intro hnone
    exact ⟨rfl, by rw [hnone, Nat.zero_add]⟩

/-- **When `DEL` and `EXISTS` cover all their keys**: a `DEL` exactly when every key of it that
    is present is its first one, an `EXISTS` exactly when none of its keys behind the first
    is present. -/
theorem covers_iff (st : Store size hash) (now : UInt64) (key : Bytes) (rest : List Bytes) :
    (DelCovers st (key :: rest)
        (runCommand size hash now cmdDel (text "DEL" :: key :: rest) st.ns) ↔
      ∀ k ∈ key :: rest, st.Present k → k = key) ∧
    (ExistsCovers st (key :: rest)
        (runCommand size hash now cmdExists (text "EXISTS" :: key :: rest) st.ns) ↔
      ∀ k ∈ rest, ¬ st.Present k) := by
  refine ⟨?_, existsCovers_iff now _ key rest⟩
  rw [delCovers_iff, List.forall_mem_cons]
  exact (and_iff_right fun _ => rfl).symm

/-- One shard that holds the keys `a` and `b`. -/
def twoKeys : Store 1 fun _ => 0 where
  ns := fun sid => ⟨sid, if sid = 0 then
    (Finmap.insert (text "a") ⟨none, .str (text "1")⟩ ∅).insert (text "b") ⟨none, .str (text "2")⟩
    else ∅⟩
  owned := fun _ => rfl
  routed := fun sid key hmem => by
    by_cases hsid : sid = 0
    · rw [hsid]
      decide
    · rw [if_neg hsid] at hmem
      exact absurd hmem Finmap.notMem_empty

/-- `DEL a b` leaves `b`, and `EXISTS a b` counts one. -/
theorem twoKeys_not_covered :
    ¬ DelCovers twoKeys [text "a", text "b"]
      (runCommand 1 (fun _ => 0) 0 cmdDel [text "DEL", text "a", text "b"] twoKeys.ns) ∧
    ¬ ExistsCovers twoKeys [text "a", text "b"]
      (runCommand 1 (fun _ => 0) 0 cmdExists [text "EXISTS", text "a", text "b"] twoKeys.ns) := by
  constructor
  · rintro ⟨hgone, -, -⟩
    have hb := hgone (text "b") (by simp) 0
    revert hb
    decide +kernel
  · rintro ⟨-, hreply⟩
    revert hreply
    decide +kernel

end Store

end StorageEngine.Command
