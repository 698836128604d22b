/-
  StorageEngine/Command/Invoke.lean
  =================================
  **Commands of any size** (`CommandId::Invoke`, the coroutines of `cmd_support.hpp` and the
  handlers of `string_family.cpp` and `generic_family.cpp`).

  The registered arity of a command is looked at by nobody: a handler gets whatever the
  client has sent, and indexes it.  Here the handlers are run to their ends, with every
  `args[i]` an access that may be out of range, and every `co_await` one that goes through
  the context of the coroutine's promise, if the promise has got one.
-/
import StorageEngine.Command.GenericFamily

namespace StorageEngine.Command

open StorageEngine.Redis StorageEngine.Sharding

/-! ### The coroutines -/

/-- How a handler ends: with an access past the end of its arguments, with one through a pointer
    that was never set, still in a loop, with the end of the process, or with the slices that
    it leaves and what it has replied. -/
inductive Ending where
  | outOfRange
  | undefined
  | running
  | fatal
  | ended (ns : Namespace) (reply : Option Reply)

/-- The parameters of a command's coroutine.  A context is the transaction that it leads to. -/
inductive CoroParams where
  /-- `(CmdArgList, CommandContext*)`. -/
  | cmdArgs (args : List Bytes) (cmdCntx : Transaction)
  /-- `(std::string_view, int64_t, CommandContext*)`. -/
  | keyAndSec (key : Bytes) (sec : UInt64) (cmdCntx : Transaction)
  /-- `(std::string_view, CommandContext*)`. -/
  | key (key : Bytes) (cmdCntx : Transaction)

/-- The promise of a coroutine, with its `cmd_cntx_` if that was ever set. -/
structure Coro where
  cmdCntx : Option Transaction

namespace Coro

/-- The promise is constructed from the parameters of the coroutine where a constructor takes
    them, and only `Coro(CmdArgList, CommandContext*)` does; otherwise it is `Coro()`, which
    leaves `cmd_cntx_` unset. -/
def ofParams : CoroParams → Coro
  | .cmdArgs _ cmdCntx => ⟨some cmdCntx⟩
  | .keyAndSec _ _ _ | .key _ _ => ⟨none⟩

/-- `co_await cmd::SingleHopT(cb)` and what the coroutine does behind it.  `await_suspend`
    schedules the callback on the transaction that `cmd_cntx_` leads to. -/
def awaitHop {α : Type} (p : Coro) (cb : Callback α) (ns : Namespace)
    (resume : Namespace × α → Ending) : Ending :=
  match p.cmdCntx with
  | none => .undefined
  | some tx => resume (tx.runTask cb ns)

end Coro

/-! ### The handlers -/

/-- The white space that `std::atoi` skips. -/
def isSpace (c : UInt8) : Bool := c.toNat == 32 || (9 ≤ c.toNat && c.toNat ≤ 13)

/-- `std::atoi`, as an `int64_t`: the number is first bounded to 64 bits and then cut to 32. -/
def atoi (s : Bytes) : UInt64 :=
  let s := s.dropWhile isSpace
  let negative := s.head? == some 45
  let s := if negative || s.head? == some 43 then s.drop 1 else s
  let n := (s.takeWhile isDigit).foldl (fun (acc : Nat) c => acc * 10 + (c.toNat - 48)) 0
  let long : Int := if negative then max (-(n : Int)) (-2 ^ 63) else min n (2 ^ 63 - 1)
  UInt64.ofInt (Int.bmod long (2 ^ 32))

/-- What `CmdExpire` and `CmdTtl` send. -/
def statusReply : OpResult Unit → Reply
  | .ok _ => .status (text "OK")
  | .error _ => .error

def numberReply : OpResult Int → Reply
  | .ok n => .int n
  | .error _ => .error

/-- The end of `CmdSet`, `CmdGet`, `CmdDel` and `CmdExists`. -/
def ending (out : Namespace × Result) : Ending :=
  match out.2.reply with
  | none => .fatal
  | some r => .ended out.1 (some r)

section

variable (size : UInt32) (hash : Bytes → UInt64) (now : UInt64) (fuel : Nat) (args : List Bytes)
  (ns : Namespace)

/-- The promise of `CmdSet`, `CmdGet`, `CmdDel` and `CmdExists`. -/
def argsCoro : Coro := Coro.ofParams (.cmdArgs args (Transaction.initByArgs size hash now args))

/-- `CmdSet`, with the number of rounds that its loop may take. -/
def handleSet : Ending :=
  match args with
  | [] => .outOfRange
  | _ :: rest =>
    let ((key, value), parser) := CmdArgParser.nextTwo { args := rest }
    match WhileLoop.run parseSetParamsRound fuel (parser, {}) with
    | none => .running
    | some (.params p) =>
      (argsCoro size hash now args).awaitHop (cmdSetWith p key value) ns ending
    | some _ => .fatal

/-- `CmdGet`. -/
def handleGet : Ending :=
  match args[1]? with
  | none => .outOfRange
  | some key => (argsCoro size hash now args).awaitHop (cmdGet key) ns ending

/-- `CmdDel` and `CmdExists`: the arguments are read by the callback. -/
def handleKeys (cb : Callback Result) : Ending :=
  let tx := Transaction.initByArgs size hash now args
  match (tx.getShardArgs tx.uniqueShardId).read with
  | none => .outOfRange
  | some _ => (argsCoro size hash now args).awaitHop cb ns ending

/-- `GenericFamily::Expire`, and the coroutine `CmdExpire`. -/
def handleExpire : Ending :=
  match args[0]?, args[1]? with
  | some key, some sec =>
    let tx := Transaction.initByArgs size hash now args
    (Coro.ofParams (.keyAndSec key (atoi sec) tx)).awaitHop (cmdExpire key (atoi sec)) ns
      fun out => .ended out.1 (some (statusReply out.2))
  | _, _ => .outOfRange

/-- `GenericFamily::Ttl`, and the coroutine `CmdTtl`. -/
def handleTtl : Ending :=
  match args[0]? with
  | some key =>
    let tx := Transaction.initByArgs size hash now args
    (Coro.ofParams (.key key tx)).awaitHop (cmdTtl key) ns
      fun out => .ended out.1 (some (numberReply out.2))
  | none => .outOfRange

/-- `CommandId::Invoke`, to the end of the handler. -/
def Handler.run (h : Handler) : Ending :=
  match h with
  | .set => handleSet size hash now fuel args ns
  | .get => handleGet size hash now args ns
  | .delex => handleKeys size hash now args ns cmdDel
  | .exists => handleKeys size hash now args ns cmdExists
  | .ping => .ended ns (some (handlePing args))
  | .expire => handleExpire size hash now args ns
  | .ttl => handleTtl size hash now args ns
  | .clientInfo => .ended ns (some (handleClientInfo args))
  | .shutDown => .ended ns none

/-- The shard on which the callback of the command runs. -/
def home : ShardId := shard size (hash (firstArg args))

end

/-! ### When a handler replies with an error -/

section Errors

variable {size : UInt32} {hash : Bytes → UInt64} {now : UInt64} {fuel : Nat} {args : List Bytes}
  {ns ns' : Namespace}

theorem runCommand_eq {α : Type} (howned : ∀ sid, (ns sid).owner = sid) (cb : Callback α) :
    runCommand size hash now cb args ns =
      cb (Transaction.initByArgs size hash now args) (home size hash args) ns := by
  show cb _ (ns (home size hash args)).owner ns = _
  rw [howned]

/-- Where the coroutine has the arguments and the context for its parameters, its callback is run
    for the transaction of the command. -/
@[simp] theorem awaitHop_argsCoro {α : Type} (cb : Callback α) (resume : Namespace × α → Ending) :
    (argsCoro size hash now args).awaitHop cb ns resume =
      resume (runCommand size hash now cb args ns) := rfl

theorem ending_eq_error {out : Namespace × Result} :
    ending out = .ended ns' (some .error) ↔ out.1 = ns' ∧ out.2.reply = some .error := by
  unfold ending
  cases hreply : out.2.reply with
  | none => simp
  | some r => simp

theorem ending_ne_outOfRange (out : Namespace × Result) : ending out ≠ .outOfRange := by
  unfold ending
  cases out.2.reply <;> simp

theorem runCommand_set_status (p : SetCmd.SetParams) (key value : Bytes) :
    (runCommand size hash now (cmdSetWith p key value) args ns).2 = .status (.ok ()) :=
  congrArg Result.status (SetCmd.set_status _ _ _ _ _)

/-- A `SET` never replies with an error. -/
theorem handleSet_ne_error : handleSet size hash now fuel args ns ≠ .ended ns' (some .error) := by
  unfold handleSet
  cases args with
  | nil => simp
  | cons name rest =>
    dsimp only
    split
    · simp
    · rename_i p _
      intro herr
      rw [awaitHop_argsCoro] at herr
      obtain ⟨-, hreply⟩ := ending_eq_error.mp herr
      rw [runCommand_set_status] at hreply
      cases hreply
    · simp

theorem handleGet_eq_error (howned : ∀ sid, (ns sid).owner = sid) :
    handleGet size hash now args ns = .ended ns (some .error) ↔
      ∃ key, args[1]? = some key ∧ key ∉ (ns (home size hash args)).prime := by
  unfold handleGet
  cases hkey : args[1]? with
  | none => simp
  | some key =>
    dsimp only
    rw [awaitHop_argsCoro, ending_eq_error, runCommand_eq howned, cmdGet,
      DbSlice.entry_findReadOnly]
    cases hlookup : (ns (home size hash args)).prime.lookup key with
    | none => simpa [Result.reply] using Finmap.lookup_eq_none.mp hlookup
    | some e =>
      have hmem := Finmap.mem_of_lookup_eq_some hlookup
      cases hvalue : e.value <;> simp [Result.reply, readString, hvalue, hmem]

/-- A `DEL` or an `EXISTS` replies with a number. -/
theorem handleKeys_ne_error {cb : Callback Result}
    (hcb : ∀ tx es, ∃ n, (cb tx es ns).2 = .count n) :
    handleKeys size hash now args ns cb ≠ .ended ns' (some .error) := by
  unfold handleKeys
  dsimp only
  split
  · simp
  · intro herr
    obtain ⟨n, hn⟩ := hcb (Transaction.initByArgs size hash now args)
      (ns (home size hash args)).owner
    rw [awaitHop_argsCoro] at herr
    obtain ⟨-, hreply⟩ := ending_eq_error.mp herr
    rw [show (runCommand size hash now cb args ns).2 = .count n from hn] at hreply
    cases hreply

/-- `CmdExpire` has no context to schedule its callback with. -/
theorem handleExpire_eq :
    handleExpire size hash now args ns = if 1 < args.length then .undefined else .outOfRange := by
  unfold handleExpire
  match args with
  | [] => rfl
  | [_] => rfl
  | _ :: _ :: _ =>
    rw [if_pos (by simp)]
    rfl

/-- Nor has `CmdTtl`. -/
theorem handleTtl_eq :
    handleTtl size hash now args ns = if args = [] then .outOfRange else .undefined := by
  unfold handleTtl
  cases args with
  | nil => rfl
  | cons _ _ =>
    rw [if_neg (List.cons_ne_nil _ _)]
    rfl

theorem handleExpire_ne_ended (r : Option Reply) :
    handleExpire size hash now args ns ≠ .ended ns' r := by
  rw [handleExpire_eq]
  split <;> simp

theorem handleTtl_ne_ended (r : Option Reply) :
    handleTtl size hash now args ns ≠ .ended ns' r := by
  rw [handleTtl_eq]
  split <;> simp

/-- The commands that a handler answers with an error, leaving the slices alone. -/
def Handler.Errs (h : Handler) (args : List Bytes) (db : DbSlice) : Prop :=
  match h with
  | .get => ∃ key, args[1]? = some key ∧ key ∉ db.prime
  | .ping => handlePing args = .error
  | .clientInfo => handleClientInfo args = .error
  | .set | .delex | .exists | .expire | .ttl | .shutDown => False

theorem run_eq_error_iff (howned : ∀ sid, (ns sid).owner = sid) (h : Handler) :
    h.run size hash now fuel args ns = .ended ns (some .error) ↔
      h.Errs args (ns (home size hash args)) := by
  cases h with
  | set => exact iff_of_false handleSet_ne_error id
  | get => exact handleGet_eq_error howned
  | delex => exact iff_of_false (handleKeys_ne_error fun _ _ => ⟨_, rfl⟩) id
  | «exists» => exact iff_of_false (handleKeys_ne_error fun _ _ => ⟨_, rfl⟩) id
  | expire => exact iff_of_false (handleExpire_ne_ended _) id
  | ttl => exact iff_of_false (handleTtl_ne_ended _) id
  | ping => simp [Handler.run, Handler.Errs]
  | clientInfo => simp [Handler.run, Handler.Errs]
  | shutDown => simp [Handler.run, Handler.Errs]

end Errors

/-! ### The arity -/

/-- The number of elements of a command, its name among them, is not one that the arity
    admits: a positive arity is the number, a negative one the least number. -/
def CommandId.Violates (ci : CommandId) (count : Nat) : Prop :=
  (0 < ci.arity ∧ (count : Int) ≠ ci.arity) ∨ (ci.arity < 0 ∧ (count : Int) < -ci.arity)

/-- The positions that a handler reads are in range if there are this many arguments. -/
def Handler.needs : Handler → Nat
  | .get | .delex | .exists | .expire => 2
  | .set | .ttl => 1
  | .ping | .clientInfo | .shutDown => 0

theorem run_ne_outOfRange {h : Handler} {args : List Bytes} (hlen : h.needs ≤ args.length)
    (size : UInt32) (hash : Bytes → UInt64) (now : UInt64) (ns : Namespace) (fuel : Nat) :
    h.run size hash now fuel args ns ≠ .outOfRange := by
  have hkeys : ∀ cb, 2 ≤ args.length → handleKeys size hash now args ns cb ≠ .outOfRange := by
    intro cb htwo
    unfold handleKeys
    dsimp only
    rw [Transaction.read_getShardArgs]
    rw [show (Transaction.initByArgs size hash now args).fullArgs = args from rfl,
      List.getElem?_eq_getElem htwo]
    exact ending_ne_outOfRange _
  cases h with
  | set =>
    match args, hlen with
    | _ :: rest, _ =>
      simp only [Handler.run, handleSet]
      split
      · simp
      · exact ending_ne_outOfRange _
      · simp
  | get =>
    show handleGet size hash now args ns ≠ _
    unfold handleGet
    rw [List.getElem?_eq_getElem hlen]
    exact ending_ne_outOfRange _
  | delex => exact hkeys _ hlen
  | «exists» => exact hkeys _ hlen
  | expire =>
    show handleExpire size hash now args ns ≠ _
    have htwo : 1 < args.length := hlen
    rw [handleExpire_eq, if_pos htwo]
    simp
  | ttl =>
    show handleTtl size hash now args ns ≠ _
    rw [handleTtl_eq, if_neg (List.ne_nil_of_length_pos hlen)]
    simp
  | ping => simp [Handler.run]
  | clientInfo => simp [Handler.run]
  | shutDown => simp [Handler.run]

/-- A command does nothing but reply with an error. -/
def Harmless (run : Nat → Ending) (ns : Namespace) : Prop :=
  ∃ fuel, run fuel = .ended ns (some .error)

/-- The commands of a wrong size that do no harm. -/
def HarmlessWhen (h : Handler) (args : List Bytes) (db : DbSlice) : Prop :=
  match h with
  | .get => 2 < args.length ∧ args.getD 1 [] ∉ db.prime
  | .ping | .clientInfo => True
  | .set | .delex | .exists | .expire | .ttl | .shutDown => False

/-- A command of a wrong size does no harm, and one of the right size reads no argument that
    it does not have. -/
def SizeHandled (size : UInt32) (hash : Bytes → UInt64) (now : UInt64) (ns : Namespace)
    (ci : CommandId) (args : List Bytes) : Prop :=
  (ci.Violates args.length →
      Harmless (fun fuel => ci.handler.run size hash now fuel args ns) ns) ∧
    (¬ ci.Violates args.length →
      ∀ fuel, ci.handler.run size hash now fuel args ns ≠ .outOfRange)

theorem needs_le_of_not_violates {ci : CommandId} (hci : ci ∈ registry) {count : Nat}
    (h : ¬ ci.Violates count) : ci.handler.needs ≤ count := by
  simp only [registry, List.mem_cons, List.not_mem_nil, or_false] at hci
  unfold CommandId.Violates at h
  rcases hci with rfl | rfl | rfl | rfl | rfl | rfl | rfl | rfl | rfl <;>
    simp only [Handler.needs] at h ⊢ <;> omega

theorem harmless_iff {size : UInt32} {hash : Bytes → UInt64} {now : UInt64} {ns : Namespace}
    (howned : ∀ sid, (ns sid).owner = sid) {ci : CommandId} (hci : ci ∈ registry)
    {rest : List Bytes} (hviolates : ci.Violates (ci.name :: rest).length) :
    Harmless (fun fuel => ci.handler.run size hash now fuel (ci.name :: rest) ns) ns ↔
      HarmlessWhen ci.handler (ci.name :: rest) (ns (home size hash (ci.name :: rest))) := by
  have herrs : Harmless (fun fuel => ci.handler.run size hash now fuel (ci.name :: rest) ns) ns ↔
      ci.handler.Errs (ci.name :: rest) (ns (home size hash (ci.name :: rest))) :=
    (exists_congr fun fuel => run_eq_error_iff howned ci.handler).trans (exists_const Nat)
  refine herrs.trans ?_
  generalize ns (home size hash (ci.name :: rest)) = db
  simp only [registry, List.mem_cons, List.not_mem_nil, or_false] at hci
  unfold CommandId.Violates at hviolates
  rw [List.length_cons] at hviolates
  rcases hci with rfl | rfl | rfl | rfl | rfl | rfl | rfl | rfl | rfl
  case inr.inl =>
    -- `GET` without a key reads past the end
    cases rest with
    | nil => simp [Handler.Errs, HarmlessWhen]
    | cons key rest =>
      cases rest with
      | nil => simp at hviolates
      | cons _ _ => simp [Handler.Errs, HarmlessWhen]
  case inr.inr.inr.inl =>
    simp only at hviolates
    omega
  case inr.inr.inr.inr.inr.inr.inr.inl =>
    refine iff_of_true ?_ trivial
    have hshort : rest.length < 3 := by
      simp only at hviolates
      omega
    show handleClientInfo _ = _
    unfold handleClientInfo
    rw [if_neg]
    intro h
    have := congrArg List.length h
    simp only [List.length_cons, List.length_nil] at this
    omega
  all_goals exact Iff.rfl

/-- **When a command of the wrong size does no harm.**  Commands of the right size never read an
    argument that they do not have; of the others, a `GET` with too many arguments for a key
    that is not there and every `CLIENT` do no harm; never a `SET`, a `DEL`, an `EXISTS`, an
    `EXPIRE`, a `TTL` or a `SHUTDOWN`. -/
theorem sizeHandled_iff (size : UInt32) (hash : Bytes → UInt64) (now : UInt64) (ns : Namespace)
    (howned : ∀ sid, (ns sid).owner = sid) (name : Bytes) (rest : List Bytes) (ci : CommandId)
    (hfind : find name = some ci) :
    SizeHandled size hash now ns ci (name :: rest) ↔
      (ci.Violates (name :: rest).length →
        HarmlessWhen ci.handler (name :: rest) (ns (home size hash (name :: rest)))) := by
  obtain ⟨hci, rfl⟩ := find_some hfind
  constructor
  · rintro ⟨hharmless, -⟩ hviolates
    exact (harmless_iff howned hci hviolates).mp (hharmless hviolates)
  · intro h
    refine ⟨fun hviolates => (harmless_iff howned hci hviolates).mpr (h hviolates), ?_⟩
    intro hok fuel
    exact run_ne_outOfRange (needs_le_of_not_violates hci hok) size hash now ns fuel

/-- A `CLIENT` on its own, on an empty store. -/
theorem sizeHandled_client :
    find (text "CLIENT") = some ⟨text "CLIENT", -4, 0, 0, .clientInfo⟩ ∧
      SizeHandled 1 (fun _ => 0) 0 Namespace.new ⟨text "CLIENT", -4, 0, 0, .clientInfo⟩
        [text "CLIENT"] := by
  have hfind : find (text "CLIENT") = some ⟨text "CLIENT", -4, 0, 0, .clientInfo⟩ := by
    decide +kernel
  refine ⟨hfind, ?_⟩
  exact (sizeHandled_iff 1 (fun _ => 0) 0 Namespace.new (fun _ => rfl) (text "CLIENT") []
    ⟨text "CLIENT", -4, 0, 0, .clientInfo⟩ hfind).mpr fun _ => trivial

/-- A `GET` on its own reads the key that it does not have. -/
theorem not_sizeHandled_get :
    find (text "GET") = some ⟨text "GET", 2, 1, 1, .get⟩ ∧
      (∀ fuel, Handler.run 1 (fun _ => 0) 0 fuel [text "GET"] Namespace.new .get = .outOfRange) ∧
      ¬ SizeHandled 1 (fun _ => 0) 0 Namespace.new ⟨text "GET", 2, 1, 1, .get⟩ [text "GET"] := by
  have hrun : ∀ fuel,
      Handler.run 1 (fun _ => 0) 0 fuel [text "GET"] Namespace.new .get = .outOfRange :=
    fun _ => rfl
  refine ⟨by decide +kernel, hrun, ?_⟩
  rintro ⟨hharmless, -⟩
  obtain ⟨fuel, hfuel⟩ := hharmless (Or.inl ⟨by decide, by decide⟩)
  exact absurd ((hrun fuel).symm.trans hfuel) (by simp)

end StorageEngine.Command
