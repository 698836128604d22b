/-
  StorageEngine/Redis/RespArray.lean
  ==================================
  **Whole arrays and parts of them** (`redis/facade/resp_buf.hpp`, `RESP_Buf::ParseRESP`).

  An array is well formed if its numerals have digits and say how many strings there are
  and how long each of them is.  The parser takes such an array as a whole.  On other
  bytes it may still return something: it keeps the strings that it has stored when a
  later byte is missing or wrong.
-/
import StorageEngine.Redis.ReplyBuilder

namespace StorageEngine.Redis

open StorageEngine.Net

/-! ### Well-formed arrays -/

/-- The number that a string of digits is the numeral of. -/
def numeral (ds : Bytes) : Nat := ds.foldl (fun n c => n * 10 + (c.toNat - 48)) 0

/-- The bytes are a numeral of the number. -/
structure IsNumeral (ds : Bytes) (n : Nat) : Prop where
  ne_nil : ds ≠ []
  digits : ∀ c ∈ ds, isDigit c = true
  value : numeral ds = n

/-- `$len\r\n<bytes>\r\n`. -/
def IsBulk (s bytes : Bytes) : Prop :=
  ∃ ds, IsNumeral ds s.length ∧ bytes = 36 :: (ds ++ ([13, 10] ++ (s ++ [13, 10])))

inductive IsBulks : List Bytes → Bytes → Prop
  | nil : IsBulks [] []
  | cons {s bytes : Bytes} {ss : List Bytes} {rest : Bytes} :
    IsBulk s bytes → IsBulks ss rest → IsBulks (s :: ss) (bytes ++ rest)

/-- `*n\r\n` and as many strings, at least one. -/
def IsArray (cmd : List Bytes) (bytes : Bytes) : Prop :=
  cmd ≠ [] ∧ ∃ ds bulks, IsNumeral ds cmd.length ∧ IsBulks cmd bulks ∧
    bytes = 42 :: (ds ++ ([13, 10] ++ bulks))

/-- The bytes begin with an array. -/
def BeginsWithArray (bytes : Bytes) : Prop :=
  ∃ cmd arr rest, IsArray cmd arr ∧ bytes = arr ++ rest

/-! ### The digit loop -/

theorem le_foldl_numeral (ds : Bytes) (n : Nat) :
    n ≤ ds.foldl (fun n c => n * 10 + (c.toNat - 48)) n := by
  induction ds generalizing n with
  | nil => exact Nat.le_refl n
  | cons c ds ih =>
    rw [List.foldl_cons]
    exact Nat.le_trans (by omega) (ih _)

/-- A number that fits into 64 bits is read as it is. -/
theorem foldl_addDigit {ds : Bytes} (hds : ∀ c ∈ ds, isDigit c = true) {n : Nat}
    (hlt : ds.foldl (fun n c => n * 10 + (c.toNat - 48)) n < 2 ^ 63) :
    ds.foldl addDigit n = (ds.foldl (fun n c => n * 10 + (c.toNat - 48)) n : Nat) := by
  induction ds generalizing n with
  | nil => rfl
  | cons c ds ih =>
    rw [List.foldl_cons] at hlt ⊢
    have hc : isDigit c = true := hds c List.mem_cons_self
    unfold isDigit at hc
    rw [Bool.and_eq_true, decide_eq_true_eq, decide_eq_true_eq] at hc
    have hle := le_foldl_numeral ds (n * 10 + (c.toNat - 48))
    have hstep : addDigit n c = ((n * 10 + (c.toNat - 48) : Nat) : Int) := by
      unfold addDigit
      rw [wrap64_of_lt]
      · push_cast [Nat.cast_sub hc.1]
        rfl
      · omega
      · omega
    rw [hstep, ih (fun c hc => hds c (List.mem_cons_of_mem _ hc)) hlt, List.foldl_cons]

/-- The loop on digits that a line end follows. -/
theorem digits_line {ds : Bytes} (hds : ∀ c ∈ ds, isDigit c = true) (X : Bytes) :
    digits 0 (ds ++ ([13, 10] ++ X)) = (ds.foldl addDigit 0, [13, 10] ++ X) := by
  rw [digits_append 0 hds]
  rfl

theorem digits_numeral {ds : Bytes} {n : Nat} (h : IsNumeral ds n) (hn : n < 2 ^ 63) (X : Bytes) :
    digits 0 (ds ++ ([13, 10] ++ X)) = ((n : Int), [13, 10] ++ X) := by
  obtain ⟨-, hds, rfl⟩ := h
  rw [digits_line hds]
  exact congrArg (·, _) (foldl_addDigit hds hn)

/-- The loop stops behind the digits. -/
theorem digits_eq (acc : Int) (bytes : Bytes) :
    ∃ ds rest, (∀ c ∈ ds, isDigit c = true) ∧ bytes = ds ++ rest ∧
      digits acc bytes = (ds.foldl addDigit acc, rest) := by
  induction bytes generalizing acc with
  | nil => exact ⟨[], [], by simp, rfl, rfl⟩
  | cons c bytes ih =>
    rw [digits]
    split
    · rename_i hc
      obtain ⟨ds, rest, hds, rfl, hdigits⟩ := ih (addDigit acc c)
      exact ⟨c :: ds, rest, List.forall_mem_cons.mpr ⟨hc, hds⟩, rfl, hdigits⟩
    · exact ⟨[], c :: bytes, by simp, rfl, rfl⟩

theorem startsCRLF_iff {bytes : Bytes} : startsCRLF bytes = true ↔ ∃ X, bytes = [13, 10] ++ X := by
  constructor
  · intro h
    unfold startsCRLF at h
    split at h
    · exact ⟨_, rfl⟩
    · cases h
  · rintro ⟨X, rfl⟩
    rfl

/-! ### Arrays are taken as a whole -/

theorem parseElement_bulk {size : Nat} (hsize : size < 2 ^ 63) {s bytes : Bytes}
    (h : IsBulk s bytes) (X : Bytes) (hfit : (bytes ++ X).length ≤ size) :
    parseElement size (bytes ++ X) = .next s X := by
  obtain ⟨ds, hds, rfl⟩ := h
  have hbytes : 36 :: (ds ++ ([13, 10] ++ (s ++ [13, 10]))) ++ X =
      36 :: (ds ++ ([13, 10] ++ (s ++ ([13, 10] ++ X)))) := by simp
  rw [hbytes] at hfit ⊢
  simp only [List.length_cons, List.length_append] at hfit
  unfold parseElement
  dsimp only
  rw [if_neg (show ¬ (36 : UInt8) ≠ 36 by decide), digits_numeral hds (by omega)]
  dsimp only
  rw [if_neg (by simp [startsCRLF]), Int.toNat_natCast]
  have hdrop : List.drop 2 ([13, 10] ++ (s ++ ([13, 10] ++ X))) = s ++ ([13, 10] ++ X) := rfl
  rw [hdrop, Nat.mod_eq_of_lt (by simp only [List.length_append, List.length_cons]; omega),
    if_neg (by simp only [List.length_append, List.length_cons]; omega), List.drop_left' rfl,
    List.take_left' rfl]
  rfl

theorem parseElements_bulks {size : Nat} (hsize : size < 2 ^ 63) {ss : List Bytes}
    {bytes : Bytes} (h : IsBulks ss bytes) (X : Bytes) (result : List Bytes)
    (hfit : (bytes ++ X).length ≤ size) :
    parseElements size ss.length (bytes ++ X) result = (result ++ ss, some X) := by
  induction h generalizing result with
  | nil => simp [parseElements]
  | @cons s bytes ss rest hbulk hrest ih =>
    rw [List.append_assoc] at hfit ⊢
    rw [List.length_cons, parseElements, parseElement_bulk hsize hbulk _ hfit]
    dsimp only
    rw [ih, List.append_assoc, List.singleton_append]
    rw [List.length_append] at hfit
    omega

/-- Every string takes more than five bytes. -/
theorem IsBulks.length_le {ss : List Bytes} {bytes : Bytes} (h : IsBulks ss bytes) :
    ss.length ≤ bytes.length := by
  induction h with
  | nil => exact Nat.le_refl 0
  | cons hbulk _ ih =>
    obtain ⟨ds, -, rfl⟩ := hbulk
    simp only [List.length_cons, List.length_append]
    omega

/-- **A whole array is returned and consumed.** -/
theorem parseRESP_array {b : TcpBuffer} (hwf : b.WF) (hsize : b.writeIndex < 2 ^ 63)
    {cmd : List Bytes} {arr X : Bytes} (h : IsArray cmd arr) (hbytes : b.readable = arr ++ X) :
    parseRESP b = (cmd, b.consume arr.length) := by
  obtain ⟨hne, ds, bulks, hds, hbulks, rfl⟩ := h
  have hlen := TcpBuffer.length_readable hwf
  have hle : b.readableSize ≤ b.writeIndex := Nat.sub_le _ _
  have hcount := hbulks.length_le
  have hpos : 0 < cmd.length := List.length_pos_of_ne_nil hne
  have hshape : 42 :: (ds ++ ([13, 10] ++ bulks)) ++ X =
      42 :: (ds ++ ([13, 10] ++ (bulks ++ X))) := by simp
  rw [hshape] at hbytes
  rw [hbytes] at hlen
  simp only [List.length_cons, List.length_append] at hlen
  have hgo : ¬ ((cmd.length : Int) ≤ 0 ∨ (!startsCRLF ([13, 10] ++ (bulks ++ X))) = true) := by
    rintro (hneg | hfalse)
    · omega
    · cases hfalse
  unfold parseRESP
  rw [hbytes]
  dsimp only
  rw [if_neg (show ¬ (42 : UInt8) ≠ 42 by decide), digits_numeral hds (by omega)]
  dsimp only
  rw [if_neg hgo, Int.toNat_natCast]
  have hdrop : List.drop 2 ([13, 10] ++ (bulks ++ X)) = bulks ++ X := rfl
  rw [hdrop, parseElements_bulks hsize hbulks X [] (by rw [List.length_append]; omega)]
  dsimp only
  rw [List.nil_append]
  congr 2
  simp only [List.length_cons, List.length_append]
  omega

/-! ### Encoded commands are arrays -/

theorem numeral_append (ds : Bytes) (c : UInt8) :
    numeral (ds ++ [c]) = numeral ds * 10 + (c.toNat - 48) := by
  simp [numeral]

theorem numeral_decimal (n : Nat) : numeral (decimal n) = n := by
  induction n using Nat.strong_induction_on with
  | _ n ih =>
    rw [decimal]
    split
    · rename_i hlt
      simp only [numeral, List.foldl_cons, List.foldl_nil, toNat_digit hlt]
      omega
    · rename_i hge
      rw [numeral_append, ih (n / 10) (by omega), toNat_digit (Nat.mod_lt n (by decide))]
      omega

theorem isNumeral_decimal (n : Nat) : IsNumeral (decimal n) n where
  ne_nil := by
    rw [decimal]
    split
    · exact List.cons_ne_nil _ _
    · exact List.append_ne_nil_of_right_ne_nil _ (List.cons_ne_nil _ _)
  digits := isDigit_decimal n
  value := numeral_decimal n

theorem isBulks_flatMap (ss : List Bytes) : IsBulks ss (ss.flatMap bulk) := by
  induction ss with
  | nil => exact .nil
  | cons s ss ih =>
    rw [List.flatMap_cons]
    exact .cons ⟨decimal s.length, isNumeral_decimal _, rfl⟩ ih

theorem isArray_encode {cmd : List Bytes} (hne : cmd ≠ []) : IsArray cmd (encode cmd) := by
  refine ⟨hne, decimal cmd.length, cmd.flatMap bulk, isNumeral_decimal _, isBulks_flatMap cmd, ?_⟩
  simp [encode, header]

/-- **Decoding an encoded command.**  Wherever the command lies in the buffer and whatever
    follows it, the parser returns its strings, and what is left to be read is what followed.
    A `std::vector<char>` has less than `2 ^ 63` bytes. -/
theorem parseRESP_encode {b : TcpBuffer} (hwf : b.WF) (hmax : b.buffer.length < 2 ^ 63)
    {cmd : List Bytes} (hne : cmd ≠ []) {tail : Bytes} (hbytes : b.readable = encode cmd ++ tail) :
    (parseRESP b).1 = cmd ∧ (parseRESP b).2.readable = tail := by
  have hsize : b.writeIndex < 2 ^ 63 := Nat.lt_of_le_of_lt hwf.write_le hmax
  rw [parseRESP_array hwf hsize (isArray_encode hne) hbytes]
  refine ⟨rfl, ?_⟩
  have hle : (encode cmd).length ≤ b.readableSize := by
    rw [← TcpBuffer.length_readable hwf, hbytes, List.length_append]
    exact Nat.le_add_right _ _
  show (b.moveReadIndex (encode cmd).length).readable = tail
  rw [(TcpBuffer.moveReadIndex_spec hwf hle).2, hbytes, List.drop_left]

/-- A new buffer into which the bytes were read. -/
def received (bytes : Bytes) : TcpBuffer := (TcpBuffer.new 32 8).hasWritten bytes

/-- A line end, the empty string, and the beginning of another command behind them. -/
theorem parseRESP_encode_lineEnd :
    (parseRESP (received (text "*2\r\n$2\r\n\r\n\r\n$0\r\n\r\n*1"))).1 = [text "\r\n", []] ∧
      (parseRESP (received (text "*2\r\n$2\r\n\r\n\r\n$0\r\n\r\n*1"))).2.readable = text "*1" := by
  have hwf : (received (text "*2\r\n$2\r\n\r\n\r\n$0\r\n\r\n*1")).WF :=
    (TcpBuffer.readable_hasWritten (TcpBuffer.wf_new 32 8) (by decide +kernel)).1
  refine parseRESP_encode hwf (by decide +kernel) (by simp) ?_
  have hencode : encode [text "\r\n", []] = text "*2\r\n$2\r\n\r\n\r\n$0\r\n\r\n" := by
    have hlen : (text "\r\n").length = 2 := by decide +kernel
    simp only [encode, header, bulk, List.flatMap_cons, List.flatMap_nil, List.length_cons,
      List.length_nil, hlen, Nat.zero_add, Nat.reduceAdd, decimal_of_lt (show 2 < 10 by decide),
      decimal_of_lt (show 0 < 10 by decide)]
    decide +kernel
  rw [hencode]
  decide +kernel

/-! ### Parts of arrays -/

/-- What was stored stays in the result. -/
theorem prefix_parseElements (size n : Nat) (rest : Bytes) (result : List Bytes) :
    ∃ more, (parseElements size n rest result).1 = result ++ more := by
  induction n generalizing rest result with
  | zero => exact ⟨[], (List.append_nil _).symm⟩
  | succ n ih =>
    rw [parseElements]
    split
    · exact ⟨[], (List.append_nil _).symm⟩
    · exact ⟨_, rfl⟩
    · rename_i s rest' _
      obtain ⟨more, hmore⟩ := ih rest' (result ++ [s])
      exact ⟨s :: more, by rw [hmore, List.append_assoc, List.singleton_append]⟩

theorem parseElements_first (size n : Nat) (rest : Bytes) :
    (parseElement size rest = .stop ∧ parseElements size (n + 1) rest [] = ([], none)) ∨
      (parseElement size rest ≠ .stop ∧ (parseElements size (n + 1) rest []).1 ≠ []) := by
  rw [parseElements]
  cases hround : parseElement size rest with
  | stop => exact Or.inl ⟨rfl, rfl⟩
  | stored s => exact Or.inr ⟨by simp, by simp⟩
  | next s rest' =>
    refine Or.inr ⟨by simp, ?_⟩
    obtain ⟨more, hmore⟩ := prefix_parseElements size n rest' ([] ++ [s])
    dsimp only
    rw [hmore]
    simp

theorem foldl_addDigit_lt (ds : Bytes) : ds.foldl addDigit 0 < 2 ^ 63 := by
  have hfrom : ∀ acc : Int, acc < 2 ^ 63 → ds.foldl addDigit acc < 2 ^ 63 := by
    induction ds with
    | nil => exact fun acc h => h
    | cons c ds ih =>
      intro acc _
      rw [List.foldl_cons]
      refine ih _ ?_
      unfold addDigit wrap64
      exact Int.lt_of_lt_of_le (Int.bmod_lt (by decide)) (by decide)
  exact hfrom 0 (by decide)

/-- A round behind a length with its line end. -/
theorem parseElement_line {size : Nat} (hsize : size < 2 ^ 63 - 1) {ds X : Bytes}
    (hds : ∀ c ∈ ds, isDigit c = true) (hfit : X.length ≤ size) :
    parseElement size (36 :: (ds ++ ([13, 10] ++ X))) = .stop ↔
      ¬ (0 ≤ ds.foldl addDigit 0 ∧ (ds.foldl addDigit 0).toNat + 2 ≤ X.length) := by
  have hlt := foldl_addDigit_lt ds
  have hdrop : List.drop 2 ([13, 10] ++ X) = X := rfl
  unfold parseElement
  dsimp only
  rw [if_neg (show ¬ (36 : UInt8) ≠ 36 by decide), digits_line hds]
  dsimp only
  by_cases hneg : ds.foldl addDigit 0 < 0
  · rw [if_pos (Or.inl hneg)]
    exact iff_of_true rfl fun h => absurd h.1 (by omega)
  · rw [if_neg (by simp [hneg, startsCRLF]), hdrop, Nat.mod_eq_of_lt (by omega)]
    by_cases hshort : size < size - X.length + (ds.foldl addDigit 0).toNat + 2
    · rw [if_pos hshort]
      exact iff_of_true rfl fun h => absurd h.2 (by omega)
    · rw [if_neg hshort]
      refine iff_of_false ?_ fun h => h ⟨by omega, by omega⟩
      split <;> simp

theorem parseElement_ne_stop_iff {size : Nat} (hsize : size < 2 ^ 63 - 1) {bytes : Bytes}
    (hfit : bytes.length ≤ size) :
    parseElement size bytes ≠ .stop ↔
      ∃ ds X, (∀ c ∈ ds, isDigit c = true) ∧ bytes = 36 :: (ds ++ ([13, 10] ++ X)) ∧
        0 ≤ ds.foldl addDigit 0 ∧ (ds.foldl addDigit 0).toNat + 2 ≤ X.length := by
  constructor
  · intro hgo
    cases bytes with
    | nil => exact absurd rfl hgo
    | cons c rest =>
      obtain rfl : c = 36 := by
        by_contra hc
        exact hgo (if_pos hc)
      obtain ⟨ds, rest', hds, rfl, hdigits⟩ := digits_eq 0 rest
      have hline : startsCRLF rest' = true := by
        by_contra hline
        apply hgo
        unfold parseElement
        dsimp only
        rw [if_neg (show ¬ (36 : UInt8) ≠ 36 by decide), hdigits]
        dsimp only
        rw [if_pos (Or.inr (by simpa using hline))]
      obtain ⟨X, rfl⟩ := startsCRLF_iff.mp hline
      simp only [List.length_cons, List.length_append] at hfit
      have hlen := not_not.mp (mt (parseElement_line hsize hds (by omega)).mpr hgo)
      exact ⟨ds, X, hds, rfl, hlen⟩
  · rintro ⟨ds, X, hds, rfl, hlen⟩ hstop
    simp only [List.length_cons, List.length_append] at hfit
    exact (parseElement_line hsize hds (by omega)).mp hstop hlen

/-- The parser behind a count with its line end. -/
theorem parseRESP_header {b : TcpBuffer} {ds Y : Bytes} (hds : ∀ c ∈ ds, isDigit c = true)
    (hbytes : b.readable = 42 :: (ds ++ ([13, 10] ++ Y))) (hpos : 0 < ds.foldl addDigit 0) :
    (parseElement b.writeIndex Y = .stop ∧ parseRESP b = ([], b)) ∨
      (parseElement b.writeIndex Y ≠ .stop ∧ (parseRESP b).1 ≠ []) := by
  obtain ⟨n, hn⟩ : ∃ n, (ds.foldl addDigit 0).toNat = n + 1 :=
    ⟨(ds.foldl addDigit 0).toNat - 1, by omega⟩
  have hgo : ¬ (ds.foldl addDigit 0 ≤ 0 ∨ (!startsCRLF ([13, 10] ++ Y)) = true) := by
    rintro (hle | hfalse)
    · omega
    · cases hfalse
  have hparse : ∀ result o, parseElements b.writeIndex (n + 1) Y [] = (result, o) →
      parseRESP b =
        (result, o.elim b fun rest => b.consume (b.readable.length - rest.length)) := by
    intro result o hres
    unfold parseRESP
    rw [hbytes]
    dsimp only
    rw [if_neg (show ¬ (42 : UInt8) ≠ 42 by decide), digits_line hds]
    dsimp only
    rw [if_neg hgo, hn, show List.drop 2 ([13, 10] ++ Y) = Y from rfl, hres]
    cases o with
    | none => rfl
    | some rest => rfl
  rcases parseElements_first b.writeIndex n Y with ⟨hstop, hnone⟩ | ⟨hgo', hsome⟩
  · exact Or.inl ⟨hstop, hparse _ _ hnone⟩
  · refine Or.inr ⟨hgo', ?_⟩
    rw [hparse _ _ rfl]
    exact hsome

/-- A parser that does not get behind the count returns nothing. -/
theorem parseRESP_noHeader {b : TcpBuffer}
    (h : ¬ ∃ ds Y, (∀ c ∈ ds, isDigit c = true) ∧ b.readable = 42 :: (ds ++ ([13, 10] ++ Y)) ∧
      0 < ds.foldl addDigit 0) : parseRESP b = ([], b) := by
  unfold parseRESP
  cases hbytes : b.readable with
  | nil => rfl
  | cons c rest =>
    dsimp only
    split
    · rfl
    · rename_i hc
      obtain rfl : c = 42 := not_not.mp hc
      obtain ⟨ds, rest', hds, rfl, hdigits⟩ := digits_eq 0 rest
      rw [hdigits]
      dsimp only
      rw [if_pos]
      by_contra hcond
      obtain ⟨hpos, hline⟩ := not_or.mp hcond
      obtain ⟨Y, rfl⟩ := startsCRLF_iff.mp (by simpa using hline)
      exact h ⟨ds, Y, hds, hbytes, by omega⟩

end StorageEngine.Redis
