/-
  StorageEngine/Command/CmdArgCursor.lean
  =======================================
  **All calls of the argument parser** (`command_layer/cmd_arg_parser.hpp`, class
  `CmdArgParser`), and where they leave its cursor.

  An error moves the cursor to the end of the arguments.  The calls that convert several
  arguments, or skip any number of them, add to the cursor after that.
-/
import StorageEngine.Command.CmdArgParser
import StorageEngine.StepMachine

namespace StorageEngine.Command

open StorageEngine.Redis StorageEngine.StepMachine

/-- `std::from_chars` for an `int64_t`, when it stops at the end of the argument without an
    error. -/
def fromChars (arg : Bytes) : Option Int :=
  let negative := arg.head? == some 45
  let digits := if negative then arg.drop 1 else arg
  if digits = [] ∨ digits.all isDigit = false then none
  else
    let n := digits.foldl (fun (acc : Nat) c => acc * 10 + (c.toNat - 48)) 0
    let value : Int := if negative then -n else n
    if -2 ^ 63 ≤ value ∧ value < 2 ^ 63 then some value else none

/-- The types of the fields that `Convert` tells apart. -/
inductive Field where
  | text
  | number
deriving DecidableEq, Repr

/-- A converted field. -/
inductive FieldValue where
  | text (s : Bytes)
  | number (n : Int)
deriving DecidableEq, Repr

/-- A value that is initialised from nothing. -/
def Field.default : Field → FieldValue
  | .text => .text []
  | .number => .number 0

namespace CmdArgParser

variable (p : CmdArgParser)

def peek : Bytes := p.safeSV p.curI

def num (idx : Nat) : Int × CmdArgParser :=
  match fromChars (p.safeSV idx) with
  | some out => (out, p)
  | none => (0, p.report)

def convert : Field → Nat → FieldValue × CmdArgParser
  | .text, idx => (.text (p.safeSV idx), p)
  | .number, idx =>
    let (n, p) := p.num idx
    (.number n, p)

/-- `NextImpl`: every field is converted at its distance from the cursor as it is then. -/
def nextImpl (p : CmdArgParser) : Nat → List Field → List FieldValue × CmdArgParser
  | _, [] => ([], p)
  | shift, f :: fs =>
    let (v, p) := p.convert f (p.curI + shift)
    let (vs, p) := p.nextImpl (shift + 1) fs
    (v :: vs, p)

/-- `Next<T>`. -/
def next (f : Field) : FieldValue × CmdArgParser :=
  if p.args.length ≤ p.curI then (f.default, p.report)
  else { p with curI := p.curI + 1 }.convert f p.curI

/-- `Next<T, Ts...>`, with the further fields `fs`.  Their number is fixed in the program, and
    is nowhere near `2 ^ 63`. -/
def nextTuple (f : Field) (fs : List Field) : List FieldValue × CmdArgParser :=
  if p.args.length ≤ p.curI + fs.length then ((f :: fs).map Field.default, p.report)
  else
    let (vs, p) := p.nextImpl 0 (f :: fs)
    (vs, { p with curI := p.curI + (fs.length + 1) })

def nextOrDefault (f : Field) (default : FieldValue) : FieldValue × CmdArgParser :=
  if p.hasNext then p.next f else (default, p)

/-- `MapImpl`, for the tags and values of the cases. -/
def mapImpl {α : Type} (arg : Bytes) : List (Bytes × α) → Option α
  | [] => none
  | (tag, value) :: cases => if equalsIgnoreCaseStd arg tag then some value else mapImpl arg cases

def mapNext {α : Type} [Inhabited α] (cases : List (Bytes × α)) : α × CmdArgParser :=
  if p.args.length ≤ p.curI then (default, p.report)
  else
    let q := { p with curI := p.curI + 1 }
    match mapImpl (p.safeSV p.curI) cases with
    | some value => (value, q)
    | none => (default, q.report)

def tryMapNext {α : Type} (cases : List (Bytes × α)) : Option α × CmdArgParser :=
  if p.args.length ≤ p.curI then (none, p)
  else
    match mapImpl (p.safeSV p.curI) cases with
    | some value => (some value, { p with curI := p.curI + 1 })
    | none => (none, p)

/-- `Skip`: the sum is a `size_t`. -/
def skip (n : UInt64) : CmdArgParser :=
  let sum := (p.curI + n.toNat) % 2 ^ 64
  if p.args.length < sum then p.report else { p with curI := sum }

def tail : List Bytes := p.args.drop p.curI

def hasAtLeast (i : Nat) : Bool := p.error == .noError && i ≤ p.args.length - p.curI

def getCurrentIndex : Nat := p.curI

end CmdArgParser

/-- A call on the parser; the values of the cases of a map are of any type. -/
inductive Call (α : Type) where
  | peek
  | next (f : Field)
  | nextTuple (f g : Field) (fs : List Field)
  | nextOrDefault (f : Field) (default : FieldValue)
  | mapNext (cases : List (Bytes × α))
  | tryMapNext (cases : List (Bytes × α))
  | check (tag : Bytes)
  | skip (n : UInt64)
  | report

section Calls

variable {α : Type} [Inhabited α]

/-- The parser after a call. -/
def Call.after (p : CmdArgParser) : Call α → CmdArgParser
  | .peek => p
  | .next f => (p.next f).2
  | .nextTuple f g fs => (p.nextTuple f (g :: fs)).2
  | .nextOrDefault f default => (p.nextOrDefault f default).2
  | .mapNext cases => (p.mapNext cases).2
  | .tryMapNext cases => (p.tryMapNext cases).2
  | .check tag => (p.check tag).2
  | .skip n => p.skip n
  | .report => p.report

def callStep (p : CmdArgParser) (c : Call α) : Option CmdArgParser := some (c.after p)

/-! ### The cursor -/

/-- What a call does that keeps the cursor inside of the arguments. -/
structure Call.Inside (p : CmdArgParser) (c : Call α) : Prop where
  bounded : (c.after p).getCurrentIndex ≤ p.args.length
  forward : p.getCurrentIndex ≤ (c.after p).getCurrentIndex
  sticky : p.hasError = true → (c.after p).hasError = true
  ended : (c.after p).hasError = true →
    (c.after p).hasNext = false ∧ (c.after p).tail = []

/-- Enough arguments for a tuple are all converted, and the distance skipped does not wrap
    around. -/
def Call.Exact (p : CmdArgParser) : Call α → Prop
  | .nextTuple f g fs => p.curI + (fs.length + 1) < p.args.length →
      ∀ i, (f :: g :: fs)[i]? = some .number → (fromChars (p.safeSV (p.curI + i))).isSome = true
  | .skip n => p.curI + n.toNat < 2 ^ 64
  | _ => True

end Calls

namespace CmdArgParser

variable {p : CmdArgParser}

/-- The cursor is inside, and at the end after an error. -/
structure Inv (p : CmdArgParser) : Prop where
  bounded : p.curI ≤ p.args.length
  ended : p.error = .hasError → p.curI = p.args.length

theorem Inv.report (p : CmdArgParser) : p.report.Inv := ⟨Nat.le_refl _, fun _ => rfl⟩

theorem Inv.hasNext_tail (h : p.Inv) (herror : p.hasError = true) :
    p.hasNext = false ∧ p.tail = [] := by
  have hcur : p.curI = p.args.length := h.ended (eq_of_beq herror)
  constructor
  · unfold hasNext
    rw [hcur]
    simp
  · exact List.drop_eq_nil_of_le (Nat.le_of_eq hcur.symm)

/-- A parser that a call may leave behind: inside of the arguments, not before the cursor it
    started from, and with an error if there was one. -/
structure From (p q : CmdArgParser) : Prop where
  args : q.args = p.args
  inv : q.Inv
  forward : p.curI ≤ q.curI
  sticky : p.error = .hasError → q.error = .hasError

theorem From.refl (h : p.Inv) : From p p := ⟨rfl, h, Nat.le_refl _, id⟩

theorem From.report (h : p.Inv) : From p p.report :=
  ⟨rfl, Inv.report p, h.bounded, fun _ => rfl⟩

/-- Moving on, as long as there are arguments. -/
theorem From.advance (h : p.Inv) {n : Nat} (hn : p.curI + n ≤ p.args.length) :
    From p { p with curI := p.curI + n } := by
  refine ⟨rfl, ⟨hn, ?_⟩, Nat.le_add_right _ _, id⟩
  intro herror
  have hcur := h.ended herror
  show p.curI + n = p.args.length
  omega

theorem From.trans {q r : CmdArgParser} (hpq : From p q) (hqr : From q r) : From p r :=
  ⟨hqr.args.trans hpq.args, hqr.inv, Nat.le_trans hpq.forward hqr.forward,
    fun herror => hqr.sticky (hpq.sticky herror)⟩

theorem From.inside {α : Type} [Inhabited α] {c : Call α} (h : From p (c.after p)) :
    c.Inside p := by
  refine ⟨?_, h.forward, ?_, h.inv.hasNext_tail⟩
  · have hbounded := h.inv.bounded
    rwa [h.args] at hbounded
  · intro herror
    exact beq_iff_eq.mpr (h.sticky (eq_of_beq herror))

/-! ### Conversions -/

theorem From.convert (h : p.Inv) (f : Field) (idx : Nat) : From p (p.convert f idx).2 := by
  cases f with
  | text => exact From.refl h
  | number =>
    show From p (p.num idx).2
    unfold num
    cases fromChars (p.safeSV idx) with
    | some out => exact From.refl h
    | none => exact From.report h

/-- A field that is converted leaves the parser alone. -/
theorem convert_of {f : Field} {idx : Nat}
    (hok : f = .number → (fromChars (p.safeSV idx)).isSome = true) : (p.convert f idx).2 = p := by
  cases f with
  | text => rfl
  | number =>
    obtain ⟨out, hout⟩ := Option.isSome_iff_exists.mp (hok rfl)
    show (p.num idx).2 = p
    unfold num
    rw [hout]

theorem From.nextImpl (h : p.Inv) (shift : Nat) (fs : List Field) :
    From p (p.nextImpl shift fs).2 := by
  induction fs generalizing p shift with
  | nil => exact From.refl h
  | cons f fs ih =>
    have hfirst := From.convert h f (p.curI + shift)
    exact hfirst.trans (ih hfirst.inv (shift + 1))

theorem nextImpl_of {shift : Nat} {fs : List Field}
    (hok : ∀ i, fs[i]? = some .number →
      (fromChars (p.safeSV (p.curI + (shift + i)))).isSome = true) :
    (p.nextImpl shift fs).2 = p := by
  induction fs generalizing shift with
  | nil => rfl
  | cons f fs ih =>
    have hfirst : (p.convert f (p.curI + shift)).2 = p := by
      apply convert_of
      intro hf
      exact hok 0 (by rw [List.getElem?_cons_zero, hf])
    show ((p.convert f (p.curI + shift)).2.nextImpl (shift + 1) fs).2 = p
    rw [hfirst]
    apply ih
    intro i hi
    have := hok (i + 1) (by rwa [List.getElem?_cons_succ])
    rwa [Nat.add_assoc, Nat.add_comm 1 i]

/-- A conversion that fails has moved the cursor to the end, where the later ones leave it. -/
theorem curI_nextImpl_of_error {shift : Nat} {fs : List Field}
    (hfail : ∃ i, fs[i]? = some .number ∧ fromChars (p.safeSV (p.curI + (shift + i))) = none) :
    (p.nextImpl shift fs).2.curI = p.args.length := by
  induction fs generalizing shift with
  | nil =>
    obtain ⟨i, hi, -⟩ := hfail
    simp at hi
  | cons f fs ih =>
    show ((p.convert f (p.curI + shift)).2.nextImpl (shift + 1) fs).2.curI = p.args.length
    by_cases hfirst : f = .number ∧ fromChars (p.safeSV (p.curI + shift)) = none
    · obtain ⟨rfl, hnone⟩ := hfirst
      have hreport : (p.convert .number (p.curI + shift)).2 = p.report := by
        show (p.num _).2 = _
        unfold num
        rw [hnone]
      rw [hreport]
      have hfrom := From.nextImpl (Inv.report p) (shift + 1) fs
      have hbounded := hfrom.inv.bounded
      rw [hfrom.args] at hbounded
      exact Nat.le_antisymm hbounded hfrom.forward
    · have hsame : (p.convert f (p.curI + shift)).2 = p := by
        apply convert_of
        intro hf
        rw [Option.isSome_iff_ne_none]
        intro hnone
        exact hfirst ⟨hf, hnone⟩
      rw [hsame]
      apply ih
      obtain ⟨i, hi, hnone⟩ := hfail
      cases i with
      | zero =>
        rw [List.getElem?_cons_zero] at hi
        exact absurd ⟨Option.some.inj hi, hnone⟩ hfirst
      | succ i =>
        rw [List.getElem?_cons_succ] at hi
        exact ⟨i, hi, by rwa [Nat.add_assoc, Nat.add_comm 1 i]⟩

end CmdArgParser

/-! ### One call -/

namespace CmdArgParser

variable {p : CmdArgParser}

theorem From.next (h : p.Inv) (f : Field) : From p (p.next f).2 := by
  unfold CmdArgParser.next
  split
  · exact From.report h
  · rename_i hlt
    have hmove := From.advance h (show p.curI + 1 ≤ p.args.length by omega)
    exact hmove.trans (From.convert hmove.inv f p.curI)

theorem From.nextOrDefault (h : p.Inv) (f : Field) (default : FieldValue) :
    From p (p.nextOrDefault f default).2 := by
  unfold CmdArgParser.nextOrDefault
  split
  · exact From.next h f
  · exact From.refl h

theorem From.check (h : p.Inv) (tag : Bytes) : From p (p.check tag).2 := by
  unfold CmdArgParser.check
  split
  · exact From.refl h
  · rename_i hlt
    split
    · exact From.advance h (by omega)
    · exact From.refl h

section Maps

variable {α : Type} [Inhabited α]

theorem From.mapNext (h : p.Inv) (cases : List (Bytes × α)) : From p (p.mapNext cases).2 := by
  unfold CmdArgParser.mapNext
  split
  · exact From.report h
  · rename_i hlt
    have hmove := From.advance h (show p.curI + 1 ≤ p.args.length by omega)
    cases mapImpl (p.safeSV p.curI) cases with
    | some value => exact hmove
    | none => exact hmove.trans (From.report hmove.inv)

omit [Inhabited α] in
theorem From.tryMapNext (h : p.Inv) (cases : List (Bytes × α)) :
    From p (p.tryMapNext cases).2 := by
  unfold CmdArgParser.tryMapNext
  split
  · exact From.refl h
  · rename_i hlt
    cases mapImpl (p.safeSV p.curI) cases with
    | some value => exact From.advance h (by omega)
    | none => exact From.refl h

end Maps

/-- The parser after a tuple for which there are enough arguments. -/
theorem nextTuple_of_lt {f : Field} {fs : List Field} (hlt : p.curI + fs.length < p.args.length) :
    (p.nextTuple f fs).2 = { (p.nextImpl 0 (f :: fs)).2 with
      curI := (p.nextImpl 0 (f :: fs)).2.curI + (fs.length + 1) } := by
  unfold CmdArgParser.nextTuple
  rw [if_neg (Nat.not_le.mpr hlt)]

/-- The distance that wraps around leads back. -/
theorem curI_skip_lt (h : p.Inv) {n : UInt64} (hwrap : 2 ^ 64 ≤ p.curI + n.toNat)
    (hsize : p.curI < 2 ^ 64) : (p.skip n).curI < p.curI := by
  have hn := n.toNat_lt
  have hbounded := h.bounded
  have hsum : (p.curI + n.toNat) % 2 ^ 64 = p.curI + n.toNat - 2 ^ 64 := by omega
  unfold skip
  dsimp only
  rw [hsum, if_neg (by omega)]
  show p.curI + n.toNat - 2 ^ 64 < p.curI
  omega

end CmdArgParser

namespace Call

open CmdArgParser

variable {α : Type} [Inhabited α] {p : CmdArgParser}

/-- An exact call goes on from where the parser is. -/
theorem from_of_exact (h : p.Inv) {c : Call α} (hexact : c.Exact p) : From p (c.after p) := by
  cases c with
  | peek => exact From.refl h
  | next f => exact From.next h f
  | nextTuple f g fs =>
    by_cases hlt : p.curI + (fs.length + 1) < p.args.length
    · have hsame : (p.nextImpl 0 (f :: g :: fs)).2 = p := by
        apply nextImpl_of
        intro i hi
        rw [Nat.zero_add]
        exact hexact hlt i hi
      show From p (p.nextTuple f (g :: fs)).2
      rw [nextTuple_of_lt hlt, hsame]
      exact From.advance h hlt
    · show From p (p.nextTuple f (g :: fs)).2
      unfold CmdArgParser.nextTuple
      rw [if_pos (show p.args.length ≤ p.curI + (g :: fs).length from Nat.le_of_not_lt hlt)]
      exact From.report h
  | nextOrDefault f default => exact From.nextOrDefault h f default
  | mapNext cases => exact From.mapNext h cases
  | tryMapNext cases => exact From.tryMapNext h cases
  | check tag => exact From.check h tag
  | skip n =>
    have hsum : (p.curI + n.toNat) % 2 ^ 64 = p.curI + n.toNat := Nat.mod_eq_of_lt hexact
    show From p (p.skip n)
    unfold CmdArgParser.skip
    dsimp only
    rw [hsum]
    split
    · exact From.report h
    · rename_i hle
      exact From.advance h (Nat.le_of_not_lt hle)
  | report => exact From.report h

/-- A call that is not exact leads behind the end, or back. -/
theorem exact_of_inside (h : p.Inv) (hsize : p.args.length < 2 ^ 64) {c : Call α}
    (hinside : c.Inside p) : c.Exact p := by
  cases c with
  | nextTuple f g fs =>
    intro hlt
    by_contra hfail
    have hfail' : ∃ i, (f :: g :: fs)[i]? = some .number ∧
        fromChars (p.safeSV (p.curI + (0 + i))) = none := by
      by_contra hall
      apply hfail
      intro i hi
      rw [Option.isSome_iff_ne_none]
      intro hnone
      exact hall ⟨i, hi, by rwa [Nat.zero_add]⟩
    have hend := curI_nextImpl_of_error hfail'
    have hbounded : (p.nextTuple f (g :: fs)).2.curI ≤ p.args.length := hinside.bounded
    rw [nextTuple_of_lt hlt] at hbounded
    dsimp only at hbounded
    rw [hend] at hbounded
    omega
  | skip n =>
    by_contra hwrap
    have hbounded := h.bounded
    have hback := curI_skip_lt h (Nat.le_of_not_lt hwrap) (by omega)
    exact absurd hinside.forward (Nat.not_le.mpr hback)
  | _ => trivial

end Call

/-! ### Sequences of calls -/

/-- **The cursor of the parser** stays inside of the arguments, in a sequence of calls, exactly
    when every call is exact. -/
theorem inside_along_iff {α : Type} [Inhabited α] (args : List Bytes) (calls : List (Call α))
    (hsize : args.length < 2 ^ 64) :
    Along callStep (fun p c => Call.Inside p c) { args := args } calls ↔
      Along callStep (fun p c => Call.Exact p c) { args := args } calls := by
  have hstart : CmdArgParser.Inv { args := args } := ⟨Nat.zero_le _, fun h => by cases h⟩
  have hcall : ∀ (p : CmdArgParser) (c : Call α), p.Inv ∧ p.args.length < 2 ^ 64 →
      (c.Inside p ↔ c.Exact p) := by
    rintro p c ⟨h, hlength⟩
    exact ⟨Call.exact_of_inside h hlength, fun hexact => (Call.from_of_exact h hexact).inside⟩
  refine along_congr hcall ?_ ⟨hstart, hsize⟩
  rintro p c p' ⟨h, hlength⟩ hexact hstep
  cases hstep
  have hfrom := Call.from_of_exact h hexact
  exact ⟨hfrom.inv, by rw [hfrom.args]; exact hlength⟩

/-- A key, a value and what is left of three arguments. -/
theorem inside_along_set :
    Along callStep (fun p c => Call.Inside p c) { args := [[107], [118], [49]] }
      [(.nextTuple .text .text [] : Call Nat), .skip 1] :=
  (inside_along_iff [[107], [118], [49]] _ (show 3 < 2 ^ 64 by decide)).mpr
    (along_cons.mpr ⟨fun _ i hi => by
      rcases i with _ | _ | i <;> simp at hi,
      fun t ht => by
        cases ht
        exact along_cons.mpr ⟨show 2 + 1 < 2 ^ 64 by decide, fun _ _ => along_nil _ _⟩⟩)

/-- After one of the arguments x and 1, a distance of 2⁶⁴ - 1 takes the cursor back; a tuple of a
    number and a text leaves it at 4. -/
theorem not_inside_along_tuple :
    ¬ Along callStep (fun p c => Call.Inside p c) { args := [[120], [49]] }
      [(.next .text : Call Nat), .skip 18446744073709551615] ∧
    ¬ Along callStep (fun p c => Call.Inside p c) { args := [[120], [49]] }
      [(.nextTuple .number .text [] : Call Nat)] := by
  constructor
  · intro halong
    have hrest := (along_cons.mp halong).2 _ rfl
    have hforward := (along_cons.mp hrest).1.forward
    revert hforward
    decide
  · intro halong
    have hbounded := (along_cons.mp halong).1.bounded
    revert hbounded
    decide

end StorageEngine.Command
