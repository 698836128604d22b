/-
  StorageEngine/Redis/RespNumbers.lean
  ====================================
  **The numbers of the parser** (`redis/facade/resp_buf.hpp`, `RESP_Buf::ParseRESP`).

  The count and the lengths of a command are added up digit by digit in an `int64_t`, and
  nothing bounds the number of digits.  Here the parser is followed with the numbers that
  it computes, as they are before they are stored: they fit exactly as long as the numerals
  that it comes to are below `2 ^ 63`.  Where one does not, the sum overflows, and nothing is
  known of what the parser does.
-/
import StorageEngine.Redis.RespArray
import Mathlib.Data.List.TakeWhile

namespace StorageEngine.Redis

open StorageEngine.Net

/-! ### What is computed -/

/-- A number that the parser computes: `acc * 10 + (c - '0')`, a count or a length that has
    passed its checks with the digits it was read from, and `pos + len + 2`. -/
inductive Arith where
  | accumulate (exact : Int)
  | accept (ds : Bytes) (value : Int)
  | extent (exact : Nat)
deriving DecidableEq, Repr

/-- The number is in the range of its type, and what is accepted is what was sent. -/
def Arith.Exact : Arith → Prop
  | .accumulate x => -2 ^ 63 ≤ x ∧ x < 2 ^ 63
  | .accept ds value => value = numeral ds
  | .extent n => n < 2 ^ 64

instance (a : Arith) : Decidable a.Exact :=
  match a with
  | .accumulate x => inferInstanceAs (Decidable (-2 ^ 63 ≤ x ∧ x < 2 ^ 63))
  | .accept ds value => inferInstanceAs (Decidable (value = numeral ds))
  | .extent n => inferInstanceAs (Decidable (n < 2 ^ 64))

/-- The rounds of a digit loop. -/
def accumulated (acc : Int) : Bytes → List Arith
  | [] => []
  | c :: rest =>
    if isDigit c then
      .accumulate (acc * 10 + ((c.toNat : Int) - 48)) :: accumulated (addDigit acc c) rest
    else []

/-- A round of the element loop. -/
def elementArith (size : Nat) : Bytes → List Arith
  | [] => []
  | c :: rest =>
    if c ≠ 36 then []
    else
      let (len, after) := digits 0 rest
      accumulated 0 rest ++
        if len < 0 ∨ !startsCRLF after then []
        else
          [.accept (rest.takeWhile isDigit) len,
            .extent (size - (after.drop 2).length + len.toNat + 2)]

/-- The element loop. -/
def elementsArith (size : Nat) : Nat → Bytes → List Arith
  | 0, _ => []
  | n + 1, rest =>
    elementArith size rest ++
      match parseElement size rest with
      | .next _ rest => elementsArith size n rest
      | _ => []

/-- The numbers that `ParseRESP` computes. -/
def parseArith (b : TcpBuffer) : List Arith :=
  match b.readable with
  | [] => []
  | c :: rest =>
    if c ≠ 42 then []
    else
      let (numElements, after) := digits 0 rest
      accumulated 0 rest ++
        if numElements ≤ 0 ∨ !startsCRLF after then []
        else
          .accept (rest.takeWhile isDigit) numElements ::
            elementsArith b.writeIndex numElements.toNat (after.drop 2)

/-- No number leaves its range, and every accepted count and length is the one that was
    sent. -/
def NumbersExact (b : TcpBuffer) : Prop := ∀ a ∈ parseArith b, a.Exact

instance (b : TcpBuffer) : Decidable (NumbersExact b) :=
  inferInstanceAs (Decidable (∀ a ∈ parseArith b, a.Exact))

/-! ### What is sent -/

/-- Strings, each behind its length and before a line end.  The parser takes no digits for a
    zero. -/
inductive Framed : List Bytes → Bytes → Prop
  | nil : Framed [] []
  | cons {s ds : Bytes} {ss : List Bytes} {rest : Bytes} (hds : ∀ c ∈ ds, isDigit c = true)
      (hlen : numeral ds = s.length) (hrest : Framed ss rest) :
      Framed (s :: ss) (36 :: (ds ++ ([13, 10] ++ (s ++ ([13, 10] ++ rest)))))

/-- The count, and every length that stands where the parser looks for one, is below `2 ^ 63`:
    the length of a string of the array behind strings that are there as a whole. -/
structure NumbersFit (bytes : Bytes) : Prop where
  count : ∀ ds rest, (∀ c ∈ ds, isDigit c = true) → bytes = 42 :: (ds ++ rest) →
    numeral ds < 2 ^ 63
  length : ∀ ds ss strings ds' rest, (∀ c ∈ ds, isDigit c = true) → Framed ss strings →
    ss.length < numeral ds → (∀ c ∈ ds', isDigit c = true) →
    bytes = 42 :: (ds ++ ([13, 10] ++ (strings ++ (36 :: (ds' ++ rest))))) → numeral ds' < 2 ^ 63

/-! ### The digit loop -/

theorem digits_span (acc : Int) (bytes : Bytes) :
    digits acc bytes = ((bytes.takeWhile isDigit).foldl addDigit acc, bytes.dropWhile isDigit) := by
  induction bytes generalizing acc with
  | nil => rfl
  | cons c bytes ih =>
    rw [digits]
    by_cases hc : isDigit c = true
    · rw [if_pos hc, ih, List.takeWhile_cons_of_pos hc, List.dropWhile_cons_of_pos hc,
        List.foldl_cons]
    · rw [if_neg hc, List.takeWhile_cons_of_neg hc, List.dropWhile_cons_of_neg hc]
      rfl

theorem isDigit_takeWhile (bytes : Bytes) : ∀ c ∈ bytes.takeWhile isDigit, isDigit c = true :=
  fun _ hc => List.mem_takeWhile_imp hc

theorem takeWhile_line {ds : Bytes} (hds : ∀ c ∈ ds, isDigit c = true) (X : Bytes) :
    (ds ++ ([13, 10] ++ X)).takeWhile isDigit = ds := by
  rw [List.takeWhile_append_of_pos hds]
  exact List.append_nil ds

/-- More digits make no smaller number. -/
theorem numeral_le_takeWhile {ds : Bytes} (hds : ∀ c ∈ ds, isDigit c = true) (rest : Bytes) :
    numeral ds ≤ numeral ((ds ++ rest).takeWhile isDigit) := by
  rw [List.takeWhile_append_of_pos hds]
  unfold numeral
  rw [List.foldl_append]
  exact le_foldl_numeral _ _

/-- A property of numbers that the sums of a digit loop have exactly in their range, and that
    every count, length and extent has that is exact. -/
structure Arith.Ranged (P : Arith → Prop) : Prop where
  accumulate : ∀ x, P (.accumulate x) ↔ -2 ^ 63 ≤ x ∧ x < 2 ^ 63
  accept : ∀ ds, P (.accept ds (numeral ds))
  extent : ∀ n < 2 ^ 64, P (.extent n)

theorem ranged_exact : Arith.Ranged Arith.Exact where
  accumulate _ := Iff.rfl
  accept _ := rfl
  extent _ h := h

section Ranged

variable {P : Arith → Prop} (hP : Arith.Ranged P)
include hP

/-- The rounds of the loop stay in range as long as the number that is read does. -/
theorem accumulated_iff {n : Nat} (hn : n < 2 ^ 63) (bytes : Bytes) :
    (∀ a ∈ accumulated n bytes, P a) ↔
      (bytes.takeWhile isDigit).foldl (fun n c => n * 10 + (c.toNat - 48)) n < 2 ^ 63 := by
  induction bytes generalizing n with
  | nil => exact iff_of_true (by simp [accumulated]) hn
  | cons c bytes ih =>
    rw [accumulated]
    by_cases hc : isDigit c = true
    · rw [if_pos hc, List.takeWhile_cons_of_pos hc, List.foldl_cons, List.forall_mem_cons]
      have hdigit : 48 ≤ c.toNat := by
        unfold isDigit at hc
        rw [Bool.and_eq_true, decide_eq_true_eq] at hc
        exact hc.1
      have hsum : (n : Int) * 10 + ((c.toNat : Int) - 48) = (n * 10 + (c.toNat - 48) : Nat) := by
        push_cast [Nat.cast_sub hdigit]
        rfl
      by_cases hlt : n * 10 + (c.toNat - 48) < 2 ^ 63
      · have hadd : addDigit n c = (n * 10 + (c.toNat - 48) : Nat) := by
          unfold addDigit
          rw [hsum, wrap64_of_lt (by omega) (by omega)]
        rw [hadd, ih hlt]
        apply and_iff_right
        rw [hP.accumulate, hsum]
        omega
      · refine iff_of_false ?_ ?_
        · rintro ⟨hrange, -⟩
          obtain ⟨-, hhi⟩ := (hP.accumulate _).mp hrange
          rw [hsum] at hhi
          omega
        · have hle := le_foldl_numeral (bytes.takeWhile isDigit) (n * 10 + (c.toNat - 48))
          omega
    · rw [if_neg hc, List.takeWhile_cons_of_neg hc]
      exact iff_of_true (by simp) hn

theorem accumulated_zero_iff (bytes : Bytes) :
    (∀ a ∈ accumulated 0 bytes, P a) ↔ numeral (bytes.takeWhile isDigit) < 2 ^ 63 :=
  accumulated_iff hP (n := 0) (by decide) bytes

end Ranged

/-- A number below `2 ^ 63` is read as it was sent. -/
theorem digits_of_lt {bytes : Bytes} (h : numeral (bytes.takeWhile isDigit) < 2 ^ 63) :
    digits 0 bytes = ((numeral (bytes.takeWhile isDigit) : Int), bytes.dropWhile isDigit) := by
  rw [digits_span]
  exact congrArg (·, _) (foldl_addDigit (n := 0) (isDigit_takeWhile bytes) h)

/-! ### One string -/

section Element

variable {size : Nat} (hsize : size < 2 ^ 63 - 1)
include hsize

/-- A round behind a length that fits. -/
theorem parseElement_numeral {ds X : Bytes} (hds : ∀ c ∈ ds, isDigit c = true)
    (hlt : numeral ds < 2 ^ 63) (hfit : X.length ≤ size) :
    parseElement size (36 :: (ds ++ ([13, 10] ++ X))) =
      if X.length < numeral ds + 2 then .stop
      else if !startsCRLF (X.drop (numeral ds)) then .stored (X.take (numeral ds))
      else .next (X.take (numeral ds)) ((X.drop (numeral ds)).drop 2) := by
  have hvalue : ds.foldl addDigit 0 = (numeral ds : Int) := foldl_addDigit (n := 0) hds hlt
  have hdrop : List.drop 2 ([13, 10] ++ X) = X := rfl
  have hgo : ¬ ((numeral ds : Int) < 0 ∨ (!startsCRLF ([13, 10] ++ X)) = true) := by
    rintro (hneg | hfalse)
    · omega
    · cases hfalse
  unfold parseElement
  dsimp only
  rw [if_neg (show ¬ (36 : UInt8) ≠ 36 by decide), digits_line hds, hvalue]
  dsimp only
  rw [if_neg hgo, Int.toNat_natCast, hdrop, Nat.mod_eq_of_lt (by omega)]
  exact if_congr (by omega) rfl rfl

/-- A round that takes a string, if its length fits: the string is there with its length and
    its line end. -/
theorem parseElement_next_iff {bytes s rest : Bytes} (hfit : bytes.length ≤ size)
    (hlt : ∀ tail, bytes = 36 :: tail → numeral (tail.takeWhile isDigit) < 2 ^ 63) :
    parseElement size bytes = .next s rest ↔
      ∃ ds, (∀ c ∈ ds, isDigit c = true) ∧ numeral ds = s.length ∧
        bytes = 36 :: (ds ++ ([13, 10] ++ (s ++ ([13, 10] ++ rest)))) := by
  constructor
  · intro hnext
    have hgo : parseElement size bytes ≠ .stop := by
      rw [hnext]
      exact Round.noConfusion
    obtain ⟨ds, X, hds, rfl, -⟩ := (parseElement_ne_stop_iff hsize hfit).mp hgo
    have hvalue := hlt _ rfl
    simp only [List.length_cons, List.length_append] at hfit
    rw [takeWhile_line hds] at hvalue
    rw [parseElement_numeral hsize hds hvalue (by omega)] at hnext
    split at hnext
    · cases hnext
    · rename_i hlong
      split at hnext
      · cases hnext
      · rename_i hline
        obtain ⟨Y, hY⟩ := startsCRLF_iff.mp (by simpa using hline)
        cases hnext
        refine ⟨ds, hds, ?_, ?_⟩
        · rw [List.length_take]
          omega
        · have hX : X = X.take (numeral ds) ++ X.drop (numeral ds) :=
            (List.take_append_drop _ _).symm
          rw [hY]
          rw [hY] at hX
          exact congrArg (fun X => 36 :: (ds ++ ([13, 10] ++ X))) hX
  · rintro ⟨ds, hds, hlen, rfl⟩
    have hvalue := hlt _ rfl
    simp only [List.length_cons, List.length_append] at hfit
    rw [takeWhile_line hds] at hvalue
    rw [parseElement_numeral hsize hds hvalue
      (by simp only [List.length_append, List.length_cons]; omega),
        if_neg (by simp only [List.length_append, List.length_cons]; omega), hlen,
      List.drop_left' rfl, List.take_left' rfl]
    rfl

section Ranged

variable {P : Arith → Prop} (hP : Arith.Ranged P)
include hP

theorem elementArith_iff {bytes : Bytes} (hfit : bytes.length ≤ size) :
    (∀ a ∈ elementArith size bytes, P a) ↔
      ∀ tail, bytes = 36 :: tail → numeral (tail.takeWhile isDigit) < 2 ^ 63 := by
  cases bytes with
  | nil => exact iff_of_true (by simp [elementArith]) (by simp)
  | cons c tail =>
    unfold elementArith
    dsimp only
    by_cases hc : c = 36
    · subst hc
      rw [if_neg (show ¬ (36 : UInt8) ≠ 36 by decide), List.forall_mem_append,
        accumulated_zero_iff hP]
      constructor
      · rintro ⟨hlt, -⟩ _ heq
        cases heq
        exact hlt
      · intro hlt
        have hvalue := hlt tail rfl
        refine ⟨hvalue, ?_⟩
        rw [digits_of_lt hvalue]
        dsimp only
        split
        · simp
        · rw [List.forall_mem_cons, List.forall_mem_singleton]
          exact ⟨hP.accept _, hP.extent _ (by omega)⟩
    · rw [if_pos hc]
      refine iff_of_true (by simp) ?_
      intro _ heq
      cases heq
      exact absurd rfl hc

/-- The element loop stays in range exactly if every length does that stands behind strings
    that are there as a whole. -/
theorem elementsArith_iff (n : Nat) {bytes : Bytes} (hfit : bytes.length ≤ size) :
    (∀ a ∈ elementsArith size n bytes, P a) ↔
      ∀ ss strings ds rest, Framed ss strings → ss.length < n → (∀ c ∈ ds, isDigit c = true) →
        bytes = strings ++ (36 :: (ds ++ rest)) → numeral ds < 2 ^ 63 := by
  induction n generalizing bytes with
  | zero =>
    exact iff_of_true (by simp [elementsArith]) fun _ _ _ _ _ h => absurd h (Nat.not_lt_zero _)
  | succ n ih =>
    rw [elementsArith, List.forall_mem_append, elementArith_iff hsize hP hfit]
    constructor
    · rintro ⟨hlt, hmore⟩ ss strings ds rest hframed hless hds hbytes
      cases hframed with
      | nil =>
        rw [List.nil_append] at hbytes
        exact Nat.lt_of_le_of_lt (numeral_le_takeWhile hds rest) (hlt _ hbytes)
      | @cons s ds₀ ss strings hds₀ hlen hframed =>
        have hshape : bytes =
            36 ::
              (ds₀ ++ ([13, 10] ++ (s ++ ([13, 10] ++ (strings ++ (36 :: (ds ++ rest))))))) := by
          rw [hbytes]
          simp
        rw [(parseElement_next_iff hsize hfit hlt).mpr ⟨ds₀, hds₀, hlen, hshape⟩] at hmore
        refine (ih ?_).mp hmore ss strings ds rest hframed (Nat.lt_of_succ_lt_succ hless) hds rfl
        rw [hshape] at hfit
        simp only [List.length_cons, List.length_append] at hfit ⊢
        omega
    · intro hall
      have hlt : ∀ tail, bytes = 36 :: tail → numeral (tail.takeWhile isDigit) < 2 ^ 63 := by
        rintro tail rfl
        refine hall [] [] _ (tail.dropWhile isDigit) .nil (Nat.succ_pos n)
          (isDigit_takeWhile tail) ?_
        rw [List.takeWhile_append_dropWhile, List.nil_append]
      refine ⟨hlt, ?_⟩
      split
      · rename_i s rest' hnext
        obtain ⟨ds₀, hds₀, hlen, rfl⟩ := (parseElement_next_iff hsize hfit hlt).mp hnext
        simp only [List.length_cons, List.length_append] at hfit
        refine (ih (by omega)).mpr ?_
        rintro ss strings ds rest hframed hless hds rfl
        refine hall (s :: ss) _ ds rest (.cons hds₀ hlen hframed) (Nat.succ_lt_succ hless) hds ?_
        simp
      · simp

end Ranged

end Element

/-! ### The whole parser -/

/-- The numbers behind the asterisk: the count, and those of the element loop if the count has
    its line end. -/
theorem arrayArith_iff {P : Arith → Prop} (hP : Arith.Ranged P) (size : Nat) (tail : Bytes) :
    (∀ a ∈ accumulated 0 tail ++
        if (digits 0 tail).1 ≤ 0 ∨ !startsCRLF (digits 0 tail).2 then []
        else .accept (tail.takeWhile isDigit) (digits 0 tail).1 ::
          elementsArith size (digits 0 tail).1.toNat ((digits 0 tail).2.drop 2), P a) ↔
      numeral (tail.takeWhile isDigit) < 2 ^ 63 ∧
        ∀ X, tail.dropWhile isDigit = [13, 10] ++ X →
          ∀ a ∈ elementsArith size (numeral (tail.takeWhile isDigit)) X, P a := by
  rw [List.forall_mem_append, accumulated_zero_iff hP]
  apply and_congr_right
  intro hcount
  rw [digits_of_lt hcount]
  dsimp only
  by_cases hstop : (numeral (tail.takeWhile isDigit) : Int) ≤ 0 ∨
      (!startsCRLF (tail.dropWhile isDigit)) = true
  · rw [if_pos hstop]
    refine iff_of_true (by simp) ?_
    intro X hX
    rw [hX] at hstop
    rcases hstop with hzero | hfalse
    · rw [show numeral (tail.takeWhile isDigit) = 0 by omega, elementsArith]
      simp
    · cases hfalse
  · rw [if_neg hstop, List.forall_mem_cons, Int.toNat_natCast]
    obtain ⟨-, hline⟩ := not_or.mp hstop
    obtain ⟨Y, hY⟩ := startsCRLF_iff.mp (by simpa using hline)
    rw [hY]
    constructor
    · rintro ⟨-, hmore⟩ X hX
      obtain rfl := List.append_cancel_left hX
      exact hmore
    · intro hmore
      exact ⟨hP.accept _, hmore Y rfl⟩

/-- The same bound on the bytes: behind the asterisk stand the digits of the count, its line end
    and the strings. -/
theorem numbersFit_cons_iff (tail : Bytes) :
    NumbersFit (42 :: tail) ↔
      numeral (tail.takeWhile isDigit) < 2 ^ 63 ∧
        ∀ X, tail.dropWhile isDigit = [13, 10] ++ X →
          ∀ ss strings ds rest, Framed ss strings → ss.length < numeral (tail.takeWhile isDigit) →
            (∀ c ∈ ds, isDigit c = true) → X = strings ++ (36 :: (ds ++ rest)) →
            numeral ds < 2 ^ 63 := by
  constructor
  · rintro ⟨hcount, hlength⟩
    constructor
    · apply hcount _ (tail.dropWhile isDigit) (isDigit_takeWhile tail)
      rw [List.takeWhile_append_dropWhile]
    · rintro X hX ss strings ds rest hframed hless hds rfl
      apply hlength _ ss strings ds rest (isDigit_takeWhile tail) hframed hless hds
      rw [← hX, List.takeWhile_append_dropWhile]
  · rintro ⟨hcount, hlength⟩
    constructor
    · rintro ds rest hds heq
      obtain rfl := (List.cons.inj heq).2
      exact Nat.lt_of_le_of_lt (numeral_le_takeWhile hds rest) hcount
    · rintro ds ss strings ds' rest hds hframed hless hds' heq
      obtain rfl := (List.cons.inj heq).2
      rw [takeWhile_line hds, List.dropWhile_append_of_pos hds] at hlength
      exact hlength _ rfl ss strings ds' rest hframed hless hds' rfl

theorem parseArith_iff {P : Arith → Prop} (hP : Arith.Ranged P) {b : TcpBuffer} (hwf : b.WF)
    (hsize : b.writeIndex < 2 ^ 63 - 1) :
    (∀ a ∈ parseArith b, P a) ↔ NumbersFit b.readable := by
  have hfit : b.readable.length ≤ b.writeIndex := by
    rw [TcpBuffer.length_readable hwf]
    exact Nat.sub_le _ _
  unfold parseArith
  cases hbytes : b.readable with
  | nil => exact iff_of_true (by simp) ⟨by simp, by simp⟩
  | cons c tail =>
    rw [hbytes, List.length_cons] at hfit
    dsimp only
    by_cases hc : c = 42
    · subst hc
      rw [if_neg (show ¬ (42 : UInt8) ≠ 42 by decide), arrayArith_iff hP, numbersFit_cons_iff]
      apply and_congr_right
      intro _
      apply forall_congr'
      intro X
      apply imp_congr_right
      intro hX
      apply elementsArith_iff hsize hP
      have hlength := congrArg List.length hX
      have hle := (List.dropWhile_sublist isDigit (l := tail)).length_le
      simp only [List.length_append, List.length_cons] at hlength
      omega
    · rw [if_pos hc]
      refine iff_of_true (by simp) ⟨?_, ?_⟩
      · rintro _ _ _ heq
        exact absurd (List.cons.inj heq).1 hc
      · rintro _ _ _ _ _ _ _ _ _ heq
        exact absurd (List.cons.inj heq).1 hc

/-- **When the numbers of the parser are exact**: exactly when the count and every length that
    it comes to are below `2 ^ 63`. -/
theorem numbersExact_iff (b : TcpBuffer) (hwf : b.WF) (hsize : b.writeIndex < 2 ^ 63 - 1) :
    NumbersExact b ↔ NumbersFit b.readable :=
  parseArith_iff ranged_exact hwf hsize

/-- A whole command with small numbers. -/
theorem numbersExact_ping : NumbersExact (received (text "*1\r\n$4\r\nPING\r\n")) ∧
    NumbersFit (received (text "*1\r\n$4\r\nPING\r\n")).readable := by
  have hwf : (received (text "*1\r\n$4\r\nPING\r\n")).WF :=
    (TcpBuffer.readable_hasWritten (TcpBuffer.wf_new 32 8) (by decide +kernel)).1
  have hexact : NumbersExact (received (text "*1\r\n$4\r\nPING\r\n")) := by decide +kernel
  exact ⟨hexact, (numbersExact_iff _ hwf (by decide +kernel)).mp hexact⟩

/-- A count of `2 ^ 64 + 1`: where the sums wrap it is taken for one, and one string is returned
    for it and consumed. -/
theorem not_numbersExact_count :
    numeral (text "18446744073709551617") = 2 ^ 64 + 1 ∧
      parseRESP (received (text "*18446744073709551617\r\n$1\r\nx\r\n")) =
        ([text "x"], (received (text "*18446744073709551617\r\n$1\r\nx\r\n")).consume 30) ∧
      ¬ NumbersExact (received (text "*18446744073709551617\r\n$1\r\nx\r\n")) := by
  refine ⟨?_, ?_, ?_⟩
  · decide +kernel
  · decide +kernel
  · decide +kernel

/-! ### All or nothing -/

/-- No signed sum overflows: what the parser does is defined. -/
def Defined (b : TcpBuffer) : Prop :=
  ∀ a ∈ parseArith b, ∀ x, a = .accumulate x → -2 ^ 63 ≤ x ∧ x < 2 ^ 63

theorem defined_iff {b : TcpBuffer} (hwf : b.WF) (hsize : b.writeIndex < 2 ^ 63 - 1) :
    Defined b ↔ NumbersFit b.readable := by
  refine parseArith_iff ⟨?_, ?_, ?_⟩ hwf hsize
  · intro x
    simp
  · rintro _ _ ⟨⟩
  · rintro _ _ _ ⟨⟩

/-- The bytes begin with a positive count and a length, and there are that many bytes and two more
    behind the length. -/
def FirstStored (bytes : Bytes) : Prop :=
  ∃ ds ds' X, (∀ c ∈ ds, isDigit c = true) ∧ (∀ c ∈ ds', isDigit c = true) ∧
    bytes = 42 :: (ds ++ ([13, 10] ++ (36 :: (ds' ++ ([13, 10] ++ X))))) ∧
    0 < numeral ds ∧ numeral ds' + 2 ≤ X.length

section Fitting

variable {b : TcpBuffer} (hfits : NumbersFit b.readable)
include hfits

theorem count_of_fits {ds rest : Bytes} (hds : ∀ c ∈ ds, isDigit c = true)
    (hbytes : b.readable = 42 :: (ds ++ rest)) : ds.foldl addDigit 0 = (numeral ds : Int) :=
  foldl_addDigit (n := 0) hds (hfits.count ds rest hds hbytes)

/-- The first length. -/
theorem length_of_fits {ds ds' rest : Bytes} (hds : ∀ c ∈ ds, isDigit c = true)
    (hds' : ∀ c ∈ ds', isDigit c = true) (hpos : 0 < numeral ds)
    (hbytes : b.readable = 42 :: (ds ++ ([13, 10] ++ (36 :: (ds' ++ rest))))) :
    ds'.foldl addDigit 0 = (numeral ds' : Int) :=
  foldl_addDigit (n := 0) hds' (hfits.length ds [] [] ds' rest hds .nil hpos hds' hbytes)

/-- **When the parser returns something**: exactly when it has stored a first string; when it
    returns nothing, the buffer is as it was. -/
theorem parseRESP_cases (hwf : b.WF) (hsize : b.writeIndex < 2 ^ 63 - 1) :
    (¬ FirstStored b.readable ∧ parseRESP b = ([], b)) ∨
      (FirstStored b.readable ∧ (parseRESP b).1 ≠ []) := by
  have hfit : b.readable.length ≤ b.writeIndex := by
    rw [TcpBuffer.length_readable hwf]
    exact Nat.sub_le _ _
  by_cases hstored : FirstStored b.readable
  · obtain ⟨ds, ds', X, hds, hds', hbytes, hpos, hlen⟩ := hstored
    refine Or.inr ⟨⟨ds, ds', X, hds, hds', hbytes, hpos, hlen⟩, ?_⟩
    have hcount := count_of_fits hfits hds hbytes
    have hlength := length_of_fits hfits hds hds' hpos hbytes
    rw [hbytes] at hfit
    simp only [List.length_cons, List.length_append] at hfit
    have hgo : parseElement b.writeIndex (36 :: (ds' ++ ([13, 10] ++ X))) ≠ .stop :=
      fun hstop => (parseElement_line hsize hds' (by omega)).mp hstop ⟨by omega, by omega⟩
    rcases parseRESP_header hds hbytes (by omega) with ⟨hstop, -⟩ | ⟨-, hne⟩
    · exact absurd hstop hgo
    · exact hne
  · refine Or.inl ⟨hstored, ?_⟩
    by_cases hheader : ∃ ds Y, (∀ c ∈ ds, isDigit c = true) ∧
        b.readable = 42 :: (ds ++ ([13, 10] ++ Y)) ∧ 0 < ds.foldl addDigit 0
    · obtain ⟨ds, Y, hds, hbytes, hpos⟩ := hheader
      rcases parseRESP_header hds hbytes hpos with ⟨-, hnone⟩ | ⟨hgo, -⟩
      · exact hnone
      · rw [hbytes] at hfit
        simp only [List.length_cons, List.length_append] at hfit
        obtain ⟨ds', X, hds', rfl, hnonneg, hlen⟩ :=
          (parseElement_ne_stop_iff hsize (by omega)).mp hgo
        have hcount := count_of_fits hfits hds hbytes
        have hpos' : 0 < numeral ds := by omega
        have hlength := length_of_fits hfits hds hds' hpos' hbytes
        exact absurd ⟨ds, ds', X, hds, hds', hbytes, hpos', by omega⟩ hstored
    · exact parseRESP_noHeader hheader

end Fitting

/-- What the parser does is defined; something is returned only for a whole array, which is then
    consumed; on any other bytes nothing is returned and the buffer is left alone. -/
structure AllOrNothing (b : TcpBuffer) : Prop where
  defined : Defined b
  whole : (parseRESP b).1 ≠ [] →
    ∃ cmd arr X, IsArray cmd arr ∧ b.readable = arr ++ X ∧
      parseRESP b = (cmd, b.consume arr.length)
  nothing : ¬ BeginsWithArray b.readable → parseRESP b = ([], b)

/-- **When `ParseRESP` is all or nothing**: exactly when the count and every length that it comes
    to are below `2 ^ 63`, and the bytes begin with a whole array or the parser does not come
    as far as storing a first string. -/
theorem allOrNothing_iff (b : TcpBuffer) (hwf : b.WF) (hsize : b.writeIndex < 2 ^ 63 - 1) :
    AllOrNothing b ↔
      NumbersFit b.readable ∧ (BeginsWithArray b.readable ∨ ¬ FirstStored b.readable) := by
  constructor
  · rintro ⟨hdefined, hsome, -⟩
    have hfits := (defined_iff hwf hsize).mp hdefined
    refine ⟨hfits, ?_⟩
    rcases parseRESP_cases hfits hwf hsize with ⟨hnot, -⟩ | ⟨-, hne⟩
    · exact Or.inr hnot
    · obtain ⟨cmd, arr, X, harr, hbytes, -⟩ := hsome hne
      exact Or.inl ⟨cmd, arr, X, harr, hbytes⟩
  · rintro ⟨hfits, ⟨cmd, arr, X, harr, hbytes⟩ | hnot⟩
    · have hparse := parseRESP_array hwf (Nat.lt_of_lt_of_le hsize (Nat.sub_le _ _)) harr hbytes
      refine ⟨(defined_iff hwf hsize).mpr hfits, fun _ => ⟨cmd, arr, X, harr, hbytes, hparse⟩, ?_⟩
      intro hno
      exact absurd ⟨cmd, arr, X, harr, hbytes⟩ hno
    · rcases parseRESP_cases hfits hwf hsize with ⟨-, hnone⟩ | ⟨hstored, -⟩
      · refine ⟨(defined_iff hwf hsize).mpr hfits, fun hne => absurd ?_ hne, fun _ => hnone⟩
        rw [hnone]
      · exact absurd hstored hnot

/-- A whole command. -/
theorem allOrNothing_ping :
    BeginsWithArray (received (text "*1\r\n$4\r\nPING\r\n")).readable ∧
      AllOrNothing (received (text "*1\r\n$4\r\nPING\r\n")) := by
  have hwf : (received (text "*1\r\n$4\r\nPING\r\n")).WF :=
    (TcpBuffer.readable_hasWritten (TcpBuffer.wf_new 32 8) (by decide +kernel)).1
  have harray : BeginsWithArray (received (text "*1\r\n$4\r\nPING\r\n")).readable := by
    refine ⟨[text "PING"], text "*1\r\n$4\r\nPING\r\n", [], ⟨by simp, text "1",
      text "$4\r\nPING\r\n" ++ [], ⟨by decide +kernel, by decide +kernel, by decide +kernel⟩,
      .cons ⟨text "4", ⟨by decide +kernel, by decide +kernel, by decide +kernel⟩, ?_⟩ .nil, ?_⟩, ?_⟩
    · decide +kernel
    · decide +kernel
    · decide +kernel
  have hdefined : Defined (received (text "*1\r\n$4\r\nPING\r\n")) := by
    have hexact : NumbersExact (received (text "*1\r\n$4\r\nPING\r\n")) := by decide +kernel
    rintro _ ha x rfl
    exact hexact _ ha
  exact ⟨harray, (allOrNothing_iff _ hwf (by decide +kernel)).mpr
    ⟨(defined_iff hwf (by decide +kernel)).mp hdefined, Or.inl harray⟩⟩

/-- Half a command: its first string is returned, and stays in the buffer. -/
theorem not_allOrNothing_half :
    parseRESP (received (text "*2\r\n$3\r\nGET\r\n")) =
        ([text "GET"], received (text "*2\r\n$3\r\nGET\r\n")) ∧
      ¬ AllOrNothing (received (text "*2\r\n$3\r\nGET\r\n")) := by
  have hparse : parseRESP (received (text "*2\r\n$3\r\nGET\r\n")) =
      ([text "GET"], received (text "*2\r\n$3\r\nGET\r\n")) := by decide +kernel
  refine ⟨hparse, ?_⟩
  rintro ⟨-, hsome, -⟩
  rw [hparse] at hsome
  obtain ⟨cmd, arr, X, ⟨-, ds, bulks, -, -, rfl⟩, -, heq⟩ := hsome (by simp)
  -- an array has at least one byte, and to consume it would move an index
  have hindex := congrArg (fun out => (out.2.readIndex, out.2.writeIndex)) heq
  simp only [TcpBuffer.consume, TcpBuffer.moveReadIndex] at hindex
  split at hindex
  · have := congrArg Prod.fst hindex
    simp only [List.length_cons] at this
    omega
  · have := congrArg Prod.snd hindex
    revert this
    decide +kernel

end StorageEngine.Redis
