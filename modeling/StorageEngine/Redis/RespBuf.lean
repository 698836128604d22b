/-
  StorageEngine/Redis/RespBuf.lean
  ================================
  **Parsing commands** (`redis/facade/resp_buf.hpp`, `RESP_Buf::ParseRESP`).

  The parser walks a position through the readable bytes; here the bytes from the
  position to the end are passed along instead, so that `pos + n > size` is a test on
  their number.  It returns what it has collected as soon as something is missing, and
  only a complete array is consumed.

  The encoding side is the array of bulk strings of a command, and the main result says
  what the parser returns on any prefix of an encoded command followed by anything.
-/
import StorageEngine.Net.TcpBuffer
import Mathlib.Tactic

namespace StorageEngine.Redis

open StorageEngine.Net

abbrev Bytes := List UInt8

/-! ### The parser -/

/-- `std::isdigit`. -/
def isDigit (c : UInt8) : Bool := 48 ≤ c.toNat && c.toNat ≤ 57

/-- The value of an `int64_t` expression that is in range.  Outside of the range the source is
    undefined: what a wrapped value leads to is one of the outcomes that it may have, and a
    result that promises something shows that there is no such value. -/
def wrap64 (x : Int) : Int := x.bmod (2 ^ 64)

/-- `acc = acc * 10 + (c - '0')`. -/
def addDigit (acc : Int) (c : UInt8) : Int := wrap64 (acc * 10 + ((c.toNat : Int) - 48))

/-- The loop over the digits of a number. -/
def digits (acc : Int) : Bytes → Int × Bytes
  | [] => (acc, [])
  | c :: rest => if isDigit c then digits (addDigit acc c) rest else (acc, c :: rest)

/-- There are two more bytes, and they are `\r\n`. -/
def startsCRLF : Bytes → Bool
  | 13 :: 10 :: _ => true
  | _ => false

/-- One round of the element loop: it stops before storing a string, after storing it, or
    goes on. -/
inductive Round where
  | stop
  | stored (s : Bytes)
  | next (s rest : Bytes)
deriving DecidableEq, Repr

/-- The body of the element loop.  `size` is the write index, so that `size - rest.length`
    is the position; the sum with the length is one of `size_t`. -/
def parseElement (size : Nat) : Bytes → Round
  | [] => .stop
  | c :: rest =>
    if c ≠ 36 then .stop
    else
      let (len, rest) := digits 0 rest
      if len < 0 ∨ !startsCRLF rest then .stop
      else
        let rest := rest.drop 2
        let pos := size - rest.length
        if size < (pos + len.toNat + 2) % 2 ^ 64 then .stop
        else if !startsCRLF (rest.drop len.toNat) then .stored (rest.take len.toNat)
        else .next (rest.take len.toNat) ((rest.drop len.toNat).drop 2)

/-- The element loop, with the bytes behind the last element when it is complete. -/
def parseElements (size : Nat) : Nat → Bytes → List Bytes → List Bytes × Option Bytes
  | 0, rest, result => (result, some rest)
  | n + 1, rest, result =>
    match parseElement size rest with
    | .stop => (result, none)
    | .stored s => (result ++ [s], none)
    | .next s rest => parseElements size n rest (result ++ [s])

/-- `ParseRESP`. -/
def parseRESP (b : TcpBuffer) : List Bytes × TcpBuffer :=
  match b.readable with
  | [] => ([], b)
  | c :: rest =>
    if c ≠ 42 then ([], b)
    else
      let (numElements, rest) := digits 0 rest
      if numElements ≤ 0 ∨ !startsCRLF rest then ([], b)
      else
        match parseElements b.writeIndex numElements.toNat (rest.drop 2) [] with
        | (result, none) => (result, b)
        | (result, some rest) => (result, b.consume (b.readable.length - rest.length))

/-! ### The encoding of a command -/

/-- The decimal numeral of a number. -/
def decimal (n : Nat) : Bytes :=
  if n < 10 then [UInt8.ofNat (48 + n)] else decimal (n / 10) ++ [UInt8.ofNat (48 + n % 10)]

/-- `$len\r\n<bytes>\r\n`. -/
def bulk (s : Bytes) : Bytes := 36 :: (decimal s.length ++ ([13, 10] ++ (s ++ [13, 10])))

/-- `*n\r\n`. -/
def header (cmd : List Bytes) : Bytes := 42 :: (decimal cmd.length ++ [13, 10])

def encode (cmd : List Bytes) : Bytes := header cmd ++ cmd.flatMap bulk

/-- A command has a name, and its numbers are 64-bit integers. -/
structure WellFormed (cmd : List Bytes) : Prop where
  ne_nil : cmd ≠ []
  length_lt : cmd.length < 2 ^ 63
  arg_lt : ∀ s ∈ cmd, s.length < 2 ^ 63

/-! ### Numerals -/

theorem toNat_digit {d : Nat} (hd : d < 10) : (UInt8.ofNat (48 + d)).toNat = 48 + d := by
  rw [UInt8.toNat_ofNat']
  exact Nat.mod_eq_of_lt (by omega)

theorem isDigit_digit {d : Nat} (hd : d < 10) : isDigit (UInt8.ofNat (48 + d)) = true := by
  unfold isDigit
  rw [toNat_digit hd]
  simp
  omega

theorem decimal_of_lt {n : Nat} (h : n < 10) : decimal n = [UInt8.ofNat (48 + n)] := by
  rw [decimal, if_pos h]

theorem isDigit_decimal (n : Nat) : ∀ c ∈ decimal n, isDigit c = true := by
  induction n using Nat.strong_induction_on with
  | _ n ih =>
    intro c hc
    rw [decimal] at hc
    split at hc
    · rename_i hlt
      rw [List.mem_singleton] at hc
      rw [hc]
      exact isDigit_digit hlt
    · rename_i hge
      rcases List.mem_append.mp hc with hc | hc
      · exact ih (n / 10) (by omega) c hc
      · rw [List.mem_singleton] at hc
        rw [hc]
        exact isDigit_digit (Nat.mod_lt n (by decide))

theorem wrap64_of_lt {x : Int} (hlo : 0 ≤ x) (hhi : x < 2 ^ 63) : wrap64 x = x := by
  unfold wrap64
  exact Int.bmod_eq_of_le (by omega) (by omega)

/-- The digit loop reads a numeral of a 64-bit number back. -/
theorem foldl_decimal {n : Nat} (hn : n < 2 ^ 63) : (decimal n).foldl addDigit 0 = n := by
  induction n using Nat.strong_induction_on with
  | _ n ih =>
    rw [decimal]
    split
    · rename_i hlt
      rw [List.foldl_cons, List.foldl_nil, addDigit, toNat_digit hlt, wrap64_of_lt]
      · push_cast
        omega
      · push_cast
        omega
      · push_cast
        omega
    · rename_i hge
      have hprev := ih (n / 10) (by omega) (by omega)
      have hmod : n % 10 < 10 := Nat.mod_lt n (by decide)
      rw [List.foldl_append, hprev, List.foldl_cons, List.foldl_nil, addDigit, toNat_digit hmod,
        wrap64_of_lt]
      · push_cast
        omega
      · push_cast
        omega
      · push_cast
        omega

theorem digits_append (acc : Int) {ds : Bytes} (hds : ∀ c ∈ ds, isDigit c = true) (rest : Bytes) :
    digits acc (ds ++ rest) = digits (ds.foldl addDigit acc) rest := by
  induction ds generalizing acc with
  | nil => rfl
  | cons c ds ih =>
    rw [List.cons_append, digits, if_pos (hds c List.mem_cons_self), List.foldl_cons]
    exact ih _ fun c hc => hds c (List.mem_cons_of_mem _ hc)

/-- The loop stops in front of the line end, also when only its first byte is there. -/
theorem digits_crlf (acc : Int) (k : Nat) (rest : Bytes) :
    digits acc (([13, 10] ++ rest).take k) = (acc, ([13, 10] ++ rest).take k) := by
  cases k with
  | zero => rfl
  | succ k => rfl

/-! ### Prefixes -/

theorem take_append_of_le {l X : Bytes} {m : Nat} (h : l.length ≤ m) :
    (l ++ X).take m = l ++ X.take (m - l.length) := by
  rw [List.take_append, List.take_of_length_le h]

/-- The digit loop on a prefix of a numeral with its line end. -/
theorem digits_take {n : Nat} (hn : n < 2 ^ 63) (m : Nat) (X : Bytes) :
    (∃ v, digits 0 ((decimal n ++ ([13, 10] ++ X)).take m) =
      (v, ([13, 10] ++ X).take (m - (decimal n).length))) ∧
    ((decimal n).length ≤ m → digits 0 ((decimal n ++ ([13, 10] ++ X)).take m) =
      ((n : Int), ([13, 10] ++ X).take (m - (decimal n).length))) := by
  constructor
  · rw [List.take_append,
    digits_append 0 (fun c hc => isDigit_decimal n c (List.mem_of_mem_take hc)),
      digits_crlf]
    exact ⟨_, rfl⟩
  · intro h
    rw [take_append_of_le h, digits_append 0 (isDigit_decimal n), foldl_decimal hn, digits_crlf]

theorem startsCRLF_take (m : Nat) (X : Bytes) :
    startsCRLF (([13, 10] ++ X).take m) = decide (2 ≤ m) := by
  match m with
  | 0 => rfl
  | 1 => rfl
  | m + 2 => simp [startsCRLF]

/-- One round on a prefix of an encoded string followed by anything: the string is taken
    exactly when it is there with its line end. -/
theorem parseElement_take {size m : Nat} {s X : Bytes} (hs : s.length < 2 ^ 63)
    (hsize : size < 2 ^ 62) (hfit : ((bulk s ++ X).take m).length ≤ size) :
    parseElement size ((bulk s ++ X).take m) =
      if (bulk s).length ≤ m then .next s (X.take (m - (bulk s).length)) else .stop := by
  have hlen : (bulk s).length = (decimal s.length).length + s.length + 5 := by
    simp [bulk]
    omega
  cases m with
  | zero => rfl
  | succ m =>
    have hbytes : (bulk s ++ X).take (m + 1) =
        36 :: (decimal s.length ++ ([13, 10] ++ (s ++ ([13, 10] ++ X)))).take m := by
      simp [bulk]
    rw [hbytes] at hfit ⊢
    obtain ⟨⟨v, hdigits⟩, hvalue⟩ := digits_take hs m (s ++ ([13, 10] ++ X))
    unfold parseElement
    dsimp only
    rw [if_neg (show ¬ (36 : UInt8) ≠ 36 by decide)]
    by_cases hline : (decimal s.length).length + 2 ≤ m
    · -- the length is known; what is left decides
      rw [hvalue (by omega)]
      dsimp only
      rw [startsCRLF_take, decide_eq_true (by omega), if_neg (by simp)]
      set k := m - (decimal s.length).length - 2 with hk
      have hrest :
          (([13, 10] ++ (s ++ ([13, 10] ++ X))).take (m - (decimal s.length).length)).drop 2 =
          (s ++ ([13, 10] ++ X)).take k := by
        rw [List.drop_take]
        rfl
      have hlong : ((s ++ ([13, 10] ++ X)).take k).length ≤ size := by
        have := congrArg List.length hrest
        rw [List.length_drop] at this
        simp only [List.length_cons, List.length_take, List.length_append,
          List.length_nil] at hfit this ⊢
        omega
      rw [hrest, Int.toNat_natCast, Nat.mod_eq_of_lt (by omega)]
      by_cases hwhole : s.length + 2 ≤ k
      · have htake :
            (s ++ ([13, 10] ++ X)).take k = s ++ ([13, 10] ++ X.take (k - s.length - 2)) := by
          rw [take_append_of_le (by omega), take_append_of_le (by simp; omega)]
          rfl
        rw [htake] at hlong ⊢
        rw [if_neg, List.drop_left', List.take_left', if_neg, if_pos (by omega)]
        · congr 2
          simp only [List.cons_append, List.nil_append, List.drop_succ_cons, List.drop_zero]
          congr 1
          omega
        · simp [startsCRLF]
        · rfl
        · rfl
        · simp only [List.length_append, List.length_cons, List.length_nil] at hlong ⊢
          omega
      · have hshort : ((s ++ ([13, 10] ++ X)).take k).length ≤ k := by simp
        rw [if_pos (by omega), if_neg (by omega)]
    · -- the line end of the length is not there
      rw [hdigits]
      dsimp only
      rw [startsCRLF_take, decide_eq_false (by omega), if_pos (by simp), if_neg (by omega)]

/-- The number of strings that are wholly among the first `m` bytes. -/
def whole : List Bytes → Nat → Nat
  | [], _ => 0
  | s :: ss, m => if (bulk s).length ≤ m then whole ss (m - (bulk s).length) + 1 else 0

theorem parseElements_take {size : Nat} (hsize : size < 2 ^ 62) (ss : List Bytes)
    (hss : ∀ s ∈ ss, s.length < 2 ^ 63) (X : Bytes) (m : Nat) (result : List Bytes)
    (hfit : ((ss.flatMap bulk ++ X).take m).length ≤ size) :
    parseElements size ss.length ((ss.flatMap bulk ++ X).take m) result =
      if (ss.flatMap bulk).length ≤ m then
        (result ++ ss, some (X.take (m - (ss.flatMap bulk).length)))
      else (result ++ ss.take (whole ss m), none) := by
  induction ss generalizing m result with
  | nil => simp [parseElements]
  | cons s ss ih =>
    rw [List.flatMap_cons, List.append_assoc] at hfit ⊢
    rw [List.length_cons, parseElements, parseElement_take (hss s List.mem_cons_self) hsize hfit]
    by_cases hone : (bulk s).length ≤ m
    · rw [if_pos hone]
      dsimp only
      rw [ih (fun s hs => hss s (List.mem_cons_of_mem _ hs))]
      · rw [whole, if_pos hone]
        by_cases hall : (ss.flatMap bulk).length ≤ m - (bulk s).length
        · rw [if_pos hall, if_pos (by rw [List.length_append]; omega), List.length_append,
            Nat.sub_sub, List.append_assoc, List.singleton_append]
        · rw [if_neg hall, if_neg (by rw [List.length_append]; omega), List.append_assoc,
            List.take_succ_cons, List.singleton_append]
      · rw [take_append_of_le hone, List.length_append] at hfit
        omega
    · rw [if_neg hone, if_neg (by rw [List.length_append]; omega), whole, if_neg hone]
      simp

/-- **`ParseRESP` on a prefix of a stream** that starts with an encoded command: the
    command is returned and consumed when it is complete; otherwise nothing is consumed,
    and the strings that are complete are returned. -/
theorem parseRESP_take {b : TcpBuffer} {cmd : List Bytes} {X : Bytes} {m : Nat}
    (hcmd : WellFormed cmd) (hwf : b.WF) (hsize : b.writeIndex < 2 ^ 62)
    (hbytes : b.readable = (encode cmd ++ X).take m) :
    parseRESP b =
      if (encode cmd).length ≤ m then (cmd, b.consume (encode cmd).length)
      else if (header cmd).length ≤ m then
        (cmd.take (whole cmd (m - (header cmd).length)), b)
      else ([], b) := by
  have hhead : (header cmd).length = (decimal cmd.length).length + 3 := by simp [header]
  have hlen : (encode cmd).length = (header cmd).length + (cmd.flatMap bulk).length := by
    simp [encode]
  unfold parseRESP
  rw [hbytes]
  cases m with
  | zero =>
    rw [List.take_zero]
    dsimp only
    rw [if_neg (by omega), if_neg (by omega)]
  | succ m =>
    have hsplit : (encode cmd ++ X).take (m + 1) =
        42 :: (decimal cmd.length ++ ([13, 10] ++ (cmd.flatMap bulk ++ X))).take m := by
      simp [encode, header]
    obtain ⟨⟨v, hdigits⟩, hvalue⟩ := digits_take hcmd.length_lt m (cmd.flatMap bulk ++ X)
    rw [hsplit]
    dsimp only
    rw [if_neg (show ¬ (42 : UInt8) ≠ 42 by decide)]
    by_cases hline : (header cmd).length ≤ m + 1
    · have hpos : 0 < cmd.length := List.length_pos_of_ne_nil hcmd.ne_nil
      have hgo : ¬ ((cmd.length : Int) ≤ 0 ∨ (!true) = true) := by
        rintro (hle | hfalse)
        · omega
        · cases hfalse
      rw [hvalue (by omega)]
      dsimp only
      rw [startsCRLF_take, decide_eq_true (by omega), if_neg hgo, if_pos hline, Int.toNat_natCast]
      have hrest : (([13, 10] ++ (cmd.flatMap bulk ++ X)).take
          (m - (decimal cmd.length).length)).drop 2 =
          (cmd.flatMap bulk ++ X).take (m + 1 - (header cmd).length) := by
        rw [List.drop_take]
        simp only [List.cons_append, List.nil_append, List.drop_succ_cons, List.drop_zero]
        congr 1
        omega
      have hfit : ((cmd.flatMap bulk ++ X).take (m + 1 - (header cmd).length)).length ≤
          b.writeIndex := by
        have hread := TcpBuffer.length_readable hwf
        have hle : b.readableSize ≤ b.writeIndex := Nat.sub_le _ _
        have hdrop := congrArg List.length hrest
        rw [hbytes, hsplit] at hread
        rw [List.length_drop] at hdrop
        simp only [List.length_cons, List.length_take, List.length_append,
          List.length_nil] at hread hdrop ⊢
        omega
      rw [hrest, parseElements_take hsize cmd hcmd.arg_lt X _ [] hfit]
      by_cases hall : (cmd.flatMap bulk).length ≤ m + 1 - (header cmd).length
      · rw [if_pos hall, if_pos (by omega)]
        dsimp only
        rw [List.nil_append]
        congr 2
        have htake : (encode cmd ++ X).take (m + 1) =
            encode cmd ++ X.take (m + 1 - (encode cmd).length) := take_append_of_le (by omega)
        rw [← hsplit, htake, List.length_append, hlen, Nat.sub_sub]
        omega
      · rw [if_neg hall, if_neg (by omega)]
        rfl
    · rw [hdigits]
      dsimp only
      rw [startsCRLF_take, decide_eq_false (by omega), if_pos (by simp), if_neg (by omega),
        if_neg hline]

end StorageEngine.Redis
