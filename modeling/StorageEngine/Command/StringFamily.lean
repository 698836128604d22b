/-
  StorageEngine/Command/StringFamily.lean
  =======================================
  **`SET` and `GET`** (`command_layer/string_family.cpp`).
-/
import StorageEngine.Command.Transaction
import StorageEngine.Command.CmdArgParser
import StorageEngine.WhileLoop

namespace StorageEngine.Command

open StorageEngine.Redis StorageEngine.Sharding

namespace SetCmd

/-- `SET_KEEP_EXPIRE = 1 << 2`. -/
def setKeepExpire : UInt16 := 4

/-- `SET_EXPIRE_AFTER_MS = 1 << 4`. -/
def setExpireAfterMs : UInt16 := 16

structure SetParams where
  flags : UInt16 := 0
  expireAfterMs : UInt64 := 0
deriving DecidableEq, Repr

section

variable (now : UInt64) (params : SetParams) (value : Bytes)

def setExisting (db : DbSlice) (it : DbSlice.Iterator) : DbSlice :=
  let atMs := if params.expireAfterMs ≠ 0 then params.expireAfterMs + now else 0
  let db :=
    if params.flags &&& setKeepExpire = 0 then
      if atMs ≠ 0 then db.addExpire it atMs else db.removeExpire it
    else db
  db.modify it fun e => { e with value := e.value.setString value }

def addNew (db : DbSlice) (it : DbSlice.Iterator) : DbSlice :=
  let db := db.modify it fun e => { e with value := e.value.assign (.str value) }
  if params.expireAfterMs ≠ 0 then db.addExpire it (params.expireAfterMs + now) else db

/-- `SetCmd::Set`; the status is `OK` in both cases. -/
def set (key : Bytes) (db : DbSlice) : DbSlice × OpResult Unit :=
  match db.addOrFind key with
  | (db, it, false) => (setExisting now params value db it, .ok ())
  | (db, it, true) => (addNew now params value db it, .ok ())

end

/-- A `SET` without options binds the key to the string, without an expiry. -/
theorem lookup_set (now : UInt64) (key value k : Bytes) (db : DbSlice) :
    (set now {} value key db).1.prime.lookup k =
      if k = key then some ⟨none, .str value⟩ else db.prime.lookup k := by
  unfold set DbSlice.addOrFind DbSlice.findInternal
  by_cases hmem : key ∈ db.prime
  · obtain ⟨e, he⟩ := Finmap.mem_iff.mp hmem
    rw [if_pos hmem]
    show ((db.removeExpire (some key)).modify (some key) _).prime.lookup k = _
    rw [DbSlice.lookup_modify, DbSlice.removeExpire, DbSlice.lookup_modify, DbSlice.lookup_modify,
      if_pos rfl, he]
    by_cases hk : k = key
    · rw [if_pos hk, if_pos hk]
      rfl
    · rw [if_neg hk, if_neg hk, if_neg hk]
  · rw [if_neg hmem]
    show (DbSlice.modify _ (some key) _).prime.lookup k = _
    rw [DbSlice.lookup_modify, Finmap.lookup_insert]
    by_cases hk : k = key
    · rw [if_pos hk, if_pos hk]
      rfl
    · rw [if_neg hk, if_neg hk, Finmap.lookup_insert_of_ne _ hk]

theorem set_owner (now : UInt64) (key value : Bytes) (db : DbSlice) :
    (set now {} value key db).1.owner = db.owner := by
  have howner : (db.addOrFind key).1.owner = db.owner := DbSlice.addOrFind_owner key
  unfold set
  split
  all_goals
    rename_i db' it heq
    rw [heq] at howner
    simpa [setExisting, addNew, DbSlice.removeExpire] using howner

theorem set_status (now : UInt64) (params : SetParams) (key value : Bytes) (db : DbSlice) :
    (set now params value key db).2 = .ok () := by
  unfold set
  split <;> rfl

end SetCmd

/-! ### The options of `SET` -/

/-- The variant that `ParseSetParams` returns. -/
inductive ParseResult where
  | params (p : SetCmd.SetParams)
  | errorReply
  | negativeExpire
deriving DecidableEq, Repr

/-- A round of the loop of `ParseSetParams`, on the parser and the parameters so far. -/
def parseSetParamsRound (s : CmdArgParser × SetCmd.SetParams) :
    (CmdArgParser × SetCmd.SetParams) ⊕ ParseResult :=
  if s.1.hasNext then
    let (found, parser) := s.1.check (text "EX")
    if found then
      if parser.hasError then .inr .errorReply
      else .inl (parser, { s.2 with flags := s.2.flags ||| SetCmd.setExpireAfterMs })
    else .inl (parser, s.2)
  else .inr (.params s.2)

section ParseSetParams

/-- A parser without an error, with the arguments that it has passed and those before it. -/
def parserAt (before rest : List Bytes) : CmdArgParser :=
  { curI := before.length, args := before ++ rest }

theorem nextTwo_eq (key value : Bytes) (opts : List Bytes) :
    CmdArgParser.nextTwo { args := key :: value :: opts } =
      ((key, value), parserAt [key, value] opts) := by
  simp [CmdArgParser.nextTwo, CmdArgParser.safeSV, parserAt]

/-- A round at the end of the arguments. -/
theorem parseSetParamsRound_nil (before : List Bytes) (sparams : SetCmd.SetParams) :
    parseSetParamsRound (parserAt before [], sparams) = .inr (.params sparams) := by
  simp [parseSetParamsRound, parserAt, CmdArgParser.hasNext]

/-- A round at an argument: only `EX` is passed, and at anything else the parser stays where
    it is. -/
theorem parseSetParamsRound_cons (before : List Bytes) (o : Bytes) (rest : List Bytes)
    (sparams : SetCmd.SetParams) :
    parseSetParamsRound (parserAt before (o :: rest), sparams) =
      .inl (if equalsIgnoreCaseStd o (text "EX") then
          (parserAt (before ++ [o]) rest,
            { sparams with flags := sparams.flags ||| SetCmd.setExpireAfterMs })
        else (parserAt before (o :: rest), sparams)) := by
  have hlt : (parserAt before (o :: rest)).curI < (parserAt before (o :: rest)).args.length := by
    simp [parserAt]
  have hget : (parserAt before (o :: rest)).args[(parserAt before (o :: rest)).curI] = o := by
    simp [parserAt]
  have hnext : (parserAt before (o :: rest)).hasNext := by simp [CmdArgParser.hasNext, parserAt]
  have hpass : { parserAt before (o :: rest) with curI := before.length + 1 } =
      parserAt (before ++ [o]) rest := by simp [parserAt]
  unfold parseSetParamsRound
  rw [if_pos hnext, CmdArgParser.check_eq hlt, hget]
  by_cases hex : equalsIgnoreCaseStd o (text "EX") = true
  · rw [if_pos hex, if_pos hex, ← hpass]
    rfl
  · rw [if_neg hex, if_neg hex]
    rfl

theorem parseSetParams_ends_from (before opts : List Bytes) (sparams : SetCmd.SetParams) :
    (∃ r, WhileLoop.Ends parseSetParamsRound (parserAt before opts, sparams) r ∧
        r ≠ .negativeExpire) ↔
      ∀ o ∈ opts, equalsIgnoreCaseStd o (text "EX") = true := by
  induction opts generalizing before sparams with
  | nil =>
    refine iff_of_true ⟨_, WhileLoop.ends_of_leave (parseSetParamsRound_nil _ _), ?_⟩ (by simp)
    intro h
    cases h
  | cons o rest ih =>
    have hround := parseSetParamsRound_cons before o rest sparams
    by_cases hex : equalsIgnoreCaseStd o (text "EX") = true
    · rw [if_pos hex] at hround
      rw [List.forall_mem_cons, and_iff_right hex, ← ih (before ++ [o])]
      exact exists_congr fun r => and_congr_left' (WhileLoop.ends_iff_of_continue hround)
    · rw [if_neg hex] at hround
      refine iff_of_false ?_ fun hall => hex (hall o List.mem_cons_self)
      rintro ⟨r, hends, -⟩
      exact WhileLoop.not_ends_of_fixed hround hends

/-- As long as only `EX` is ahead, a round passes one argument. -/
theorem parseSetParams_advances {before opts : List Bytes} {sparams : SetCmd.SetParams}
    (hex : ∀ o ∈ opts, equalsIgnoreCaseStd o (text "EX") = true)
    {s s' : CmdArgParser × SetCmd.SetParams}
    (hreach : WhileLoop.Reaches parseSetParamsRound (parserAt before opts, sparams) s)
    (hround : parseSetParamsRound s = .inl s') : s.1.curI < s'.1.curI := by
  induction opts generalizing before sparams with
  | nil =>
    rcases WhileLoop.reaches_cases hreach with rfl | ⟨t, ht, -⟩
    · rw [parseSetParamsRound_nil] at hround
      cases hround
    · rw [parseSetParamsRound_nil] at ht
      cases ht
  | cons o rest ih =>
    obtain ⟨ho, hrest⟩ := List.forall_mem_cons.mp hex
    have hcons := parseSetParamsRound_cons before o rest sparams
    rw [if_pos ho] at hcons
    rcases WhileLoop.reaches_cases hreach with rfl | ⟨t, ht, hreach'⟩
    · rw [hcons] at hround
      cases hround
      simp [parserAt]
    · rw [hcons] at ht
      cases ht
      exact ih hrest hreach'

end ParseSetParams

/-- The options of a `SET` are parsed to their end: the loop ends, with parameters or an error
    for a reply, and every round that stays in it moves the parser forward. -/
def OptionsParsed (parser : CmdArgParser) : Prop :=
  (∃ r, WhileLoop.Ends parseSetParamsRound (parser, {}) r ∧ r ≠ .negativeExpire) ∧
    ∀ s s', WhileLoop.Reaches parseSetParamsRound (parser, {}) s → parseSetParamsRound s = .inl s' →
      s.1.curI < s'.1.curI

/-- **When the options of `SET` are parsed to their end**: exactly when every argument behind
    the key and the value is `EX`, in any case. -/
theorem optionsParsed_iff (key value : Bytes) (opts : List Bytes) :
    OptionsParsed (CmdArgParser.nextTwo { args := key :: value :: opts }).2 ↔
      ∀ o ∈ opts, equalsIgnoreCaseStd o (text "EX") = true := by
  rw [nextTwo_eq]
  constructor
  · rintro ⟨hends, -⟩
    exact (parseSetParams_ends_from _ opts {}).mp hends
  · intro hex
    refine ⟨(parseSetParams_ends_from _ opts {}).mpr hex, ?_⟩
    intro s s' hreach hround
    exact parseSetParams_advances hex hreach hround

/-- `SET k v NX` keeps the thread that runs it in the loop. -/
theorem not_optionsParsed_nx :
    ¬ OptionsParsed (CmdArgParser.nextTwo { args := [text "k", text "v", text "NX"] }).2 := by
  rintro ⟨⟨r, hends, -⟩, -⟩
  exact WhileLoop.not_ends_of_fixed (by decide +kernel) hends

/-- What a callback of the commands returns: the status of a `SET`, the string of a `GET`, the
    number of a `DEL` or `EXISTS`; a value without a tag cannot be read and ends the
    process. -/
inductive Result where
  | status (r : OpResult Unit)
  | string (r : OpResult Bytes)
  | count (n : UInt32)
  | fatal
deriving DecidableEq

/-- The callback of `CmdSet` for a command with a key and a value only: no argument is left
    for `ParseSetParams`, which returns the default parameters. -/
def cmdSet (key value : Bytes) : Callback Result := fun tx es ns =>
  let (db, r) := SetCmd.set tx.timeNowMs {} value key (ns es)
  (Function.update ns es db, .status r)

/-- The callback of `CmdSet` with the parameters of its options. -/
def cmdSetWith (params : SetCmd.SetParams) (key value : Bytes) : Callback Result := fun tx es ns =>
  let (db, r) := SetCmd.set tx.timeNowMs params value key (ns es)
  (Function.update ns es db, .status r)

/-- `ReadString`, through `ToString`. -/
def readString : PrimeValue → Result
  | .str s => .string (.ok s)
  | .int ival => .string (.ok (toString64 ival.toInt))
  | .empty => .fatal

/-- The callback of `CmdGet`. -/
def cmdGet (key : Bytes) : Callback Result := fun _ es ns =>
  let db := ns es
  match db.entry (db.findReadOnly key) with
  | none => (ns, .string (.error .keyNotFound))
  | some e => (ns, readString e.value)

end StorageEngine.Command
