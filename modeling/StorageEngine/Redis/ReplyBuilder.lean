/-
  StorageEngine/Redis/ReplyBuilder.lean
  =====================================
  **The texts of replies** (`redis/facade/reply_builder.hpp`, and the `Send` functions of
  `RedisSession` that call it).
-/
import StorageEngine.Redis.RespBuf

namespace StorageEngine.Redis

/-- The bytes of a string literal of the source. -/
def text (s : String) : Bytes := s.toUTF8.data.toList

def crlf : Bytes := [13, 10]

/-- `std::to_string` of an `int64_t`. -/
def toString64 (n : Int) : Bytes :=
  if n < 0 then text "-" ++ decimal n.natAbs else decimal n.natAbs

def buildNull : Bytes := text "$-1" ++ crlf

def buildSimpleString (s : Bytes) : Bytes := text "+" ++ s ++ crlf

def buildError (err : Bytes) : Bytes := text "-ERR " ++ err ++ crlf

def buildInteger (n : Int) : Bytes := text ":" ++ toString64 n ++ crlf

def buildBulkString (s : Bytes) : Bytes :=
  if s = [] then buildNull else text "$" ++ decimal s.length ++ crlf ++ s ++ crlf

/-- What a handler sends: `SendERROR`, `Send` of a number or a string, `SendStatus`. -/
inductive Reply where
  | error
  | int (n : Int)
  | str (s : Bytes)
  | status (s : Bytes)
deriving DecidableEq, Repr

/-- The text that is passed to `SendImp`. -/
def Reply.build : Reply → Bytes
  | .error => buildError (text "NULL")
  | .int n => buildInteger n
  | .str s => buildBulkString s
  | .status s => buildSimpleString s

end StorageEngine.Redis
