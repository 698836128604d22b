/-
  StorageEngine/Command/CommandRegistry.lean
  ==========================================
  **The registered commands** (`command_layer/command_registry.hpp`, and the `Register`
  functions of `string_family.cpp` and `generic_family.cpp`).

  A command is found by its name only: neither the number of its arguments nor the
  positions of its keys are looked at before its handler runs.
-/
import StorageEngine.Redis.ReplyBuilder

namespace StorageEngine.Command

open StorageEngine.Redis

/-- The handler of a command. -/
inductive Handler where
  | set
  | get
  | delex
  | ping
  | exists
  | expire
  | ttl
  | clientInfo
  | shutDown
deriving DecidableEq, Repr

structure CommandId where
  name : Bytes
  arity : Int
  firstKey : Int
  lastKey : Int
  handler : Handler
deriving DecidableEq, Repr

/-- What `RegisterStringFamily` and `GenericFamily::Register` enter. -/
def registry : List CommandId :=
  [⟨text "SET", -3, 1, 1, .set⟩,
   ⟨text "GET", 2, 1, 1, .get⟩,
   ⟨text "DEL", -2, 1, -1, .delex⟩,
   ⟨text "PING", -1, 0, 0, .ping⟩,
   ⟨text "EXISTS", -2, 1, -1, .exists⟩,
   ⟨text "EXPIRE", -3, 1, 1, .expire⟩,
   ⟨text "TTL", 2, 1, 1, .ttl⟩,
   ⟨text "CLIENT", -4, 0, 0, .clientInfo⟩,
   ⟨text "SHUTDOWN", 1, 0, 0, .shutDown⟩]

/-- `CommandRegistry::Find`. -/
def find (name : Bytes) : Option CommandId := registry.find? fun ci => ci.name = name

theorem find_some {name : Bytes} {ci : CommandId} (h : find name = some ci) :
    ci ∈ registry ∧ ci.name = name := by
  unfold find at h
  exact ⟨List.mem_of_find?_eq_some h, by simpa using List.find?_some h⟩

/-- What a handler does before it returns to its caller: it sends a reply, it suspends until
    a callback has run on a shard, or it does neither. -/
inductive Outcome where
  | replies (r : Reply)
  | suspends
  | silent
deriving DecidableEq, Repr

/-- `GenericFamily::Ping`. -/
def handlePing (args : List Bytes) : Reply :=
  if 1 < args.length then .error else .status (text "PONG")

/-- `GenericFamily::Client_Info`. -/
def handleClientInfo (args : List Bytes) : Reply :=
  if args = [text "CLIENT", text "SETINFO", text "LIB-NAME", text "redis-py"] then
    .status (text "OK")
  else .error

/-- `CommandId::Invoke`, up to its return.  `EXPIRE` and `TTL` get to their `co_await` like the
    others; what an await does with their promise is `Coro.awaitHop`'s. -/
def Handler.invoke (h : Handler) (args : List Bytes) : Outcome :=
  match h with
  | .ping => .replies (handlePing args)
  | .clientInfo => .replies (handleClientInfo args)
  | .shutDown => .silent
  | _ => .suspends

end StorageEngine.Command
