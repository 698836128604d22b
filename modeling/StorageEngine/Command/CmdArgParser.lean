/-
  StorageEngine/Command/CmdArgParser.lean
  =======================================
  **The cursor over the arguments of a command** (`command_layer/cmd_arg_parser.hpp`, class
  `CmdArgParser`), as far as `SET` uses it.

  Every access to the arguments goes through `SafeSV`, which compares the position with the
  number of arguments first; the bound of the access is that comparison.
-/
import StorageEngine.Redis.ReplyBuilder

namespace StorageEngine.Command

open StorageEngine.Redis

/-- `std::tolower` of an `unsigned char`. -/
def toLower (c : UInt8) : UInt8 := if 65 ≤ c.toNat ∧ c.toNat ≤ 90 then c + 32 else c

/-- `util::EqualsIgnoreCaseStd`. -/
def equalsIgnoreCaseStd (a b : Bytes) : Bool :=
  if a.length ≠ b.length then false
  else (a.zip b).all fun c => toLower c.1 == toLower c.2

inductive ErrorType where
  | noError
  | hasError
deriving DecidableEq, Repr

structure CmdArgParser where
  curI : Nat := 0
  args : List Bytes
  error : ErrorType := .noError
deriving DecidableEq, Repr

namespace CmdArgParser

variable (p : CmdArgParser)

def safeSV (i : Nat) : Bytes := if h : i < p.args.length then p.args[i] else []

def report : CmdArgParser := { p with error := .hasError, curI := p.args.length }

def hasNext : Bool := p.curI < p.args.length && p.error == .noError

def hasError : Bool := p.error == .hasError

/-- `Next<std::string_view, std::string_view>`. -/
def nextTwo : (Bytes × Bytes) × CmdArgParser :=
  if p.args.length ≤ p.curI + 1 then (([], []), p.report)
  else ((p.safeSV p.curI, p.safeSV (p.curI + 1)), { p with curI := p.curI + 2 })

/-- `Check`: whether the next argument is the tag, which is then skipped. -/
def check (tag : Bytes) : Bool × CmdArgParser :=
  if p.args.length ≤ p.curI then (false, p)
  else if equalsIgnoreCaseStd (p.safeSV p.curI) tag then (true, { p with curI := p.curI + 1 })
  else (false, p)

variable {p}

/-- `Check` at an argument. -/
theorem check_eq {tag : Bytes} (h : p.curI < p.args.length) :
    p.check tag = if equalsIgnoreCaseStd p.args[p.curI] tag then
      (true, { p with curI := p.curI + 1 }) else (false, p) := by
  unfold check safeSV
  rw [if_neg (Nat.not_le.mpr h), dif_pos h]

end CmdArgParser

end StorageEngine.Command
