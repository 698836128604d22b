/-
  StorageEngine/Redis/ReplyDecoder.lean
  =====================================
  **Reading the replies back.**

  What a client makes of the bytes of a session: a decoder of RESP2 replies, and the values
  that it gets for the texts of `redis/facade/reply_builder.hpp`.  Lengths and line ends keep
  the replies apart, whatever bytes a string has; only the empty string has no text of its
  own, since `BuildBulkString` sends the null reply for it.
-/
import StorageEngine.Redis.RespArray

namespace StorageEngine.Redis

/-! ### The decoder -/

/-- A reply as a client sees it. -/
inductive RespValue where
  | simple (s : Bytes)
  | error (s : Bytes)
  | int (n : Int)
  | bulk (s : Bytes)
  | null
deriving DecidableEq, Repr

/-- The bytes before the next line end, and those behind it. -/
def takeLine : Bytes → Option (Bytes × Bytes)
  | [] => none
  | c :: rest =>
    if startsCRLF (c :: rest) then some ([], rest.drop 1)
    else (takeLine rest).map fun out => (c :: out.1, out.2)

def readNat (line : Bytes) : Option Nat :=
  if line ≠ [] ∧ line.all isDigit then some (numeral line) else none

/-- A number with an optional sign. -/
def readInt : Bytes → Option Int
  | [] => none
  | c :: line =>
    if c = 45 then (readNat line).map fun (n : Nat) => -(n : Int)
    else (readNat (c :: line)).map fun (n : Nat) => (n : Int)

/-- The content of a bulk string behind its length: as many bytes, and a line end. -/
def readBulk (n : Nat) (rest : Bytes) : Option (RespValue × Bytes) :=
  if n ≤ rest.length ∧ startsCRLF (rest.drop n) then
    some (.bulk (rest.take n), (rest.drop n).drop 2)
  else none

/-- One reply, by its first byte and its first line. -/
def decodeReply : Bytes → Option (RespValue × Bytes)
  | [] => none
  | c :: rest =>
    (takeLine rest).bind fun (line, rest) =>
      if c = 43 then some (.simple line, rest)
      else if c = 45 then some (.error line, rest)
      else if c = 58 then (readInt line).map fun n => (.int n, rest)
      else if c = 36 then
        if line = [45, 49] then some (.null, rest)
        else (readNat line).bind fun n => readBulk n rest
      else none

/-- At most so many replies, to the end of the bytes. -/
def decodeUpTo : Nat → Bytes → Option (List RespValue)
  | 0, bytes => if bytes = [] then some [] else none
  | fuel + 1, bytes =>
    if bytes = [] then some []
    else (decodeReply bytes).bind fun (v, rest) => (decodeUpTo fuel rest).map (v :: ·)

/-- The replies of a stream; each takes at least one byte. -/
def decodeReplies (bytes : Bytes) : Option (List RespValue) := decodeUpTo bytes.length bytes

/-! ### What is sent -/

/-- The calls of a session that send something: `Send` of a string and of a number,
    `SendStatus("OK")`, `SendStatus("PONG")` and `SendERROR()`. -/
inductive Sent where
  | string (s : Bytes)
  | number (n : Int64)
  | ok
  | pong
  | error
deriving DecidableEq, Repr

namespace Sent

def reply : Sent → Reply
  | string s => .str s
  | number n => .int n.toInt
  | ok => .status (text "OK")
  | pong => .status (text "PONG")
  | error => .error

/-- What a call says. -/
def meaning : Sent → RespValue
  | string s => .bulk s
  | number n => .int n.toInt
  | ok => .simple (text "OK")
  | pong => .simple (text "PONG")
  | error => .error (text "ERR NULL")

/-- What a client makes of it: the empty string is sent as null. -/
def arrives : Sent → RespValue
  | string [] => .null
  | r => r.meaning

/-- The bytes of a sequence of calls. -/
def stream (rs : List Sent) : Bytes := rs.flatMap fun r => r.reply.build

end Sent

/-! ### Lines and numbers -/

theorem takeLine_append {line : Bytes} (h : ∀ c ∈ line, c ≠ 13) (rest : Bytes) :
    takeLine (line ++ (crlf ++ rest)) = some (line, rest) := by
  induction line with
  | nil => rfl
  | cons c line ih =>
    obtain ⟨hc, hline⟩ := List.forall_mem_cons.mp h
    have hstart : startsCRLF (c :: (line ++ (crlf ++ rest))) ≠ true := by
      intro hcrlf
      obtain ⟨X, hX⟩ := startsCRLF_iff.mp hcrlf
      exact hc (List.cons.inj hX).1
    rw [List.cons_append, takeLine, if_neg hstart, ih hline]
    rfl

theorem ne_of_isDigit {c : UInt8} (h : isDigit c = true) : c ≠ 13 ∧ c ≠ 45 := by
  constructor
  · rintro rfl
    cases h
  · rintro rfl
    cases h

theorem readNat_decimal (n : Nat) : readNat (decimal n) = some n := by
  have hnum := isNumeral_decimal n
  unfold readNat
  rw [if_pos ⟨hnum.ne_nil, List.all_eq_true.mpr hnum.digits⟩, hnum.value]

theorem readInt_toString64 (n : Int) : readInt (toString64 n) = some n := by
  unfold toString64
  split
  · rename_i hneg
    show readInt (45 :: decimal n.natAbs) = _
    rw [readInt, if_pos rfl, readNat_decimal, Option.map_some]
    congr 1
    omega
  · rename_i hpos
    have hnum := isNumeral_decimal n.natAbs
    cases hdec : decimal n.natAbs with
    | nil => exact absurd hdec hnum.ne_nil
    | cons c ds =>
      have hc := (ne_of_isDigit (hnum.digits c (hdec ▸ List.mem_cons_self))).2
      rw [readInt, if_neg hc, ← hdec, readNat_decimal, Option.map_some]
      congr 1
      omega

theorem toString64_no_cr (n : Int) : ∀ c ∈ toString64 n, c ≠ 13 := by
  have hdigits : ∀ c ∈ decimal n.natAbs, c ≠ 13 :=
    fun c hc => (ne_of_isDigit (isDigit_decimal _ c hc)).1
  unfold toString64
  split
  · show ∀ c ∈ 45 :: decimal n.natAbs, c ≠ 13
    exact List.forall_mem_cons.mpr ⟨by decide, hdigits⟩
  · exact hdigits

/-! ### One reply -/

theorem decodeReply_line (c : UInt8) {line : Bytes} (h : ∀ c ∈ line, c ≠ 13) (rest : Bytes) :
    decodeReply (c :: (line ++ (crlf ++ rest))) =
      if c = 43 then some (.simple line, rest)
      else if c = 45 then some (.error line, rest)
      else if c = 58 then (readInt line).map fun n => (.int n, rest)
      else if c = 36 then
        if line = [45, 49] then some (.null, rest)
        else (readNat line).bind fun n => readBulk n rest
      else none := by
  rw [decodeReply, takeLine_append h, Option.bind_some]

theorem readBulk_append (s rest : Bytes) :
    readBulk s.length (s ++ (crlf ++ rest)) = some (.bulk s, rest) := by
  unfold readBulk
  rw [List.drop_left, List.take_left, if_pos ⟨by simp, rfl⟩]
  rfl

/-- Every reply is read back, whatever follows it. -/
theorem decodeReply_build (r : Sent) (rest : Bytes) :
    decodeReply (r.reply.build ++ rest) = some (r.arrives, rest) := by
  cases r with
  | string s =>
    cases s with
    | nil =>
      show decodeReply (36 :: ([45, 49] ++ (crlf ++ rest))) = _
      rw [decodeReply_line 36 (by simp)]
      rfl
    | cons c s =>
      have hdigits := isDigit_decimal (c :: s).length
      have hminus : decimal (c :: s).length ≠ [45, 49] := by
        intro heq
        rw [heq] at hdigits
        exact absurd (hdigits 45 List.mem_cons_self) (by decide)
      have hbytes : (Sent.string (c :: s)).reply.build ++ rest =
          36 :: (decimal (c :: s).length ++ (crlf ++ (c :: s ++ (crlf ++ rest)))) := by
        show (text "$" ++ decimal (c :: s).length ++ crlf ++ (c :: s) ++ crlf) ++ rest = _
        rw [show text "$" = [36] by decide +kernel]
        simp only [List.append_assoc, List.cons_append, List.nil_append]
      rw [hbytes, decodeReply_line 36 fun d hd => (ne_of_isDigit (hdigits d hd)).1,
        if_neg (by decide), if_neg (by decide), if_neg (by decide), if_pos rfl, if_neg hminus,
        readNat_decimal, Option.bind_some, readBulk_append]
      rfl
  | number n =>
    have hbytes : (Sent.number n).reply.build ++ rest =
        58 :: (toString64 n.toInt ++ (crlf ++ rest)) := by
      show (text ":" ++ toString64 n.toInt ++ crlf) ++ rest = _
      rw [show text ":" = [58] by decide +kernel]
      simp only [List.append_assoc, List.cons_append, List.nil_append]
    rw [hbytes, decodeReply_line 58 (toString64_no_cr _), if_neg (by decide), if_neg (by decide),
      if_pos rfl, readInt_toString64]
    rfl
  | ok =>
    show decodeReply (43 :: ([79, 75] ++ (crlf ++ rest))) = _
    rw [decodeReply_line 43 (by simp)]
    rfl
  | pong =>
    show decodeReply (43 :: ([80, 79, 78, 71] ++ (crlf ++ rest))) = _
    rw [decodeReply_line 43 (by simp)]
    rfl
  | error =>
    show decodeReply (45 :: ([69, 82, 82, 32, 78, 85, 76, 76] ++ (crlf ++ rest))) = _
    rw [decodeReply_line 45 (by simp)]
    rfl

theorem build_ne_nil (r : Sent) : r.reply.build ≠ [] := by
  intro hnil
  have hdecode := decodeReply_build r []
  rw [hnil] at hdecode
  cases hdecode

/-! ### The stream -/

theorem decodeUpTo_stream (rs : List Sent) {fuel : Nat} (hfuel : rs.length ≤ fuel) :
    decodeUpTo fuel (Sent.stream rs) = some (rs.map Sent.arrives) := by
  induction rs generalizing fuel with
  | nil =>
    cases fuel with
    | zero => rfl
    | succ fuel => rfl
  | cons r rs ih =>
    obtain ⟨fuel, rfl⟩ := Nat.exists_eq_succ_of_ne_zero (by simp at hfuel; omega : fuel ≠ 0)
    have hbytes : Sent.stream (r :: rs) = r.reply.build ++ Sent.stream rs := rfl
    have hne : r.reply.build ++ Sent.stream rs ≠ [] :=
      List.append_ne_nil_of_left_ne_nil (build_ne_nil r) _
    rw [hbytes, decodeUpTo, if_neg hne, decodeReply_build, Option.bind_some]
    dsimp only
    rw [ih (Nat.le_of_succ_le_succ hfuel)]
    rfl

theorem length_le_stream (rs : List Sent) : rs.length ≤ (Sent.stream rs).length := by
  induction rs with
  | nil => exact Nat.le_refl 0
  | cons r rs ih =>
    have hpos := List.length_pos_of_ne_nil (build_ne_nil r)
    show rs.length + 1 ≤ (r.reply.build ++ Sent.stream rs).length
    rw [List.length_append]
    omega

/-- **The replies are read back one by one**, each with its value; the empty string alone comes
    back as null. -/
theorem decodeReplies_stream (rs : List Sent) :
    decodeReplies (Sent.stream rs) = some (rs.map Sent.arrives) :=
  decodeUpTo_stream rs (length_le_stream rs)

/-- The reply for an empty string. -/
theorem decodeReplies_empty_string :
    decodeReplies (Sent.stream [.string []]) = some [.null] ∧
      decodeReplies (Sent.stream [.string []]) ≠ some ([Sent.string []].map Sent.meaning) := by
  constructor
  · decide +kernel
  · decide +kernel

/-! ### Part of the stream -/

/-- A line end that is there stays there. -/
theorem takeLine_append_right {bytes : Bytes} {out : Bytes × Bytes} (h : takeLine bytes = some out)
    (more : Bytes) : takeLine (bytes ++ more) = some (out.1, out.2 ++ more) := by
  induction bytes generalizing out with
  | nil => cases h
  | cons c rest ih =>
    rw [takeLine] at h
    by_cases hcrlf : startsCRLF (c :: rest) = true
    · obtain ⟨X, hX⟩ := startsCRLF_iff.mp hcrlf
      obtain ⟨rfl, rfl⟩ := List.cons.inj hX
      rw [if_pos hcrlf] at h
      obtain rfl := Option.some.inj h
      rfl
    · rw [if_neg hcrlf] at h
      obtain ⟨out', hout', rfl⟩ := Option.map_eq_some_iff.mp h
      have hnot : startsCRLF (c :: (rest ++ more)) ≠ true := by
        intro hmore
        obtain ⟨X, hX⟩ := startsCRLF_iff.mp hmore
        cases rest with
        | nil => cases hout'
        | cons d rest =>
          obtain ⟨rfl, htail⟩ := List.cons.inj hX
          obtain ⟨rfl, -⟩ := List.cons.inj htail
          exact hcrlf rfl
      rw [List.cons_append, takeLine, if_neg hnot, ih hout']
      rfl

theorem readBulk_append_right {n : Nat} {bytes : Bytes} {out : RespValue × Bytes}
    (h : readBulk n bytes = some out) (more : Bytes) :
    readBulk n (bytes ++ more) = some (out.1, out.2 ++ more) := by
  unfold readBulk at h ⊢
  split at h
  · rename_i hbulk
    obtain ⟨hle, hcrlf⟩ := hbulk
    obtain rfl := Option.some.inj h
    obtain ⟨X, hX⟩ := startsCRLF_iff.mp hcrlf
    have hdrop : (bytes ++ more).drop n = [13, 10] ++ (X ++ more) := by
      rw [List.drop_append_of_le_length hle, hX, List.append_assoc]
    have hle' : n ≤ (bytes ++ more).length := by
      rw [List.length_append]
      exact Nat.le_add_right_of_le hle
    rw [hdrop, hX, List.take_append_of_le_length hle, if_pos ⟨hle', rfl⟩]
    rfl
  · cases h

/-- A reply that is read is read from more bytes, too. -/
theorem decodeReply_append_right {bytes : Bytes} {out : RespValue × Bytes}
    (h : decodeReply bytes = some out) (more : Bytes) :
    decodeReply (bytes ++ more) = some (out.1, out.2 ++ more) := by
  cases bytes with
  | nil => cases h
  | cons c rest =>
    rw [decodeReply] at h
    obtain ⟨⟨line, tail⟩, hline, h⟩ := Option.bind_eq_some_iff.mp h
    rw [List.cons_append, decodeReply, takeLine_append_right hline, Option.bind_some]
    dsimp only at h ⊢
    by_cases hplus : c = 43
    · rw [if_pos hplus] at h ⊢
      obtain rfl := Option.some.inj h
      rfl
    rw [if_neg hplus] at h ⊢
    by_cases hminus : c = 45
    · rw [if_pos hminus] at h ⊢
      obtain rfl := Option.some.inj h
      rfl
    rw [if_neg hminus] at h ⊢
    by_cases hcolon : c = 58
    · rw [if_pos hcolon] at h ⊢
      obtain ⟨n, hn, rfl⟩ := Option.map_eq_some_iff.mp h
      rw [hn]
      rfl
    rw [if_neg hcolon] at h ⊢
    by_cases hdollar : c = 36
    · rw [if_pos hdollar] at h ⊢
      by_cases hnull : line = [45, 49]
      · rw [if_pos hnull] at h ⊢
        obtain rfl := Option.some.inj h
        rfl
      · rw [if_neg hnull] at h ⊢
        obtain ⟨n, hn, hbulk⟩ := Option.bind_eq_some_iff.mp h
        rw [hn, Option.bind_some, readBulk_append_right hbulk]
    · rw [if_neg hdollar] at h
      cases h

theorem decodeUpTo_part {rs : List Sent} {bytes more : Bytes} {vs : List RespValue} {fuel : Nat}
    (hstream : bytes ++ more = Sent.stream rs) (h : decodeUpTo fuel bytes = some vs) :
    vs <+: rs.map Sent.arrives ∧ (vs.length = rs.length → more = []) := by
  induction fuel generalizing bytes rs vs with
  | zero =>
    rw [decodeUpTo] at h
    split at h
    · rename_i hnil
      obtain rfl := Option.some.inj h
      refine ⟨List.nil_prefix, fun hlen => ?_⟩
      obtain rfl := List.length_eq_zero_iff.mp hlen.symm
      exact (List.append_eq_nil_iff.mp hstream).2
    · cases h
  | succ fuel ih =>
    rw [decodeUpTo] at h
    split at h
    · obtain rfl := Option.some.inj h
      refine ⟨List.nil_prefix, fun hlen => ?_⟩
      obtain rfl := List.length_eq_zero_iff.mp hlen.symm
      exact (List.append_eq_nil_iff.mp hstream).2
    · rename_i hne
      obtain ⟨⟨v, rest⟩, hreply, h⟩ := Option.bind_eq_some_iff.mp h
      obtain ⟨vs', hvs', rfl⟩ := Option.map_eq_some_iff.mp h
      cases rs with
      | nil => exact absurd (List.append_eq_nil_iff.mp hstream).1 hne
      | cons r rs =>
        have hmore := decodeReply_append_right hreply more
        rw [hstream, show Sent.stream (r :: rs) = r.reply.build ++ Sent.stream rs from rfl,
          decodeReply_build] at hmore
        obtain ⟨hv, hrest⟩ := Prod.mk.inj (Option.some.inj hmore)
        obtain ⟨hpart, hall⟩ := ih hrest.symm hvs'
        refine ⟨?_, fun hlen => hall (Nat.succ.inj hlen)⟩
        rw [List.map_cons, hv]
        exact List.cons_prefix_cons.mpr ⟨rfl, hpart⟩

/-- **What a client has read so far** are the first of the replies, and all of them only when
    nothing of the stream is left. -/
theorem decodeReplies_part {rs : List Sent} {bytes more : Bytes} {vs : List RespValue}
    (hstream : bytes ++ more = Sent.stream rs) (h : decodeReplies bytes = some vs) :
    vs <+: rs.map Sent.arrives ∧ (vs.length = rs.length → more = []) :=
  decodeUpTo_part hstream h

end StorageEngine.Redis
