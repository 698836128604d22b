/-
  StorageEngine/Network/ReadLoop.lean
  ===================================
  **The read loop of a session** (`network/redis_server.hpp`, `RedisSession::DoRead`).

  Each completed read is stored behind the bytes that are still unread, and the buffer
  is parsed once.  A non-empty result is dispatched as a command.  The parser returns
  the complete strings of an incomplete command too, and it is called once for a read,
  whatever that contains; so what is dispatched depends on how the stream is cut.
-/
import StorageEngine.Redis.RespBuf

namespace StorageEngine.Network

open StorageEngine.Net StorageEngine.Redis

/-- The receive buffer and the commands that were looked up so far. -/
structure Reader where
  recvBuf : TcpBuffer
  dispatched : List (List Bytes)
deriving DecidableEq, Repr

namespace Reader

def start : Reader := ⟨TcpBuffer.initial, []⟩

/-- The loop body for a read of some bytes. -/
def onRead (s : Reader) (data : Bytes) : Reader :=
  let (com, b) := parseRESP (s.recvBuf.hasWritten data)
  if com = [] then { s with recvBuf := b } else ⟨b, s.dispatched ++ [com]⟩

def run (s : Reader) (reads : List Bytes) : Reader := reads.foldl onRead s

/-- Every read returns at least one byte and at most what it asked for. -/
def Fits : Reader → List Bytes → Prop
  | _, [] => True
  | s, data :: reads =>
    data ≠ [] ∧ data.length ≤ s.recvBuf.writableSize ∧ Fits (s.onRead data) reads

end Reader

/-! ### Positions in the stream of commands -/

/-- The number of commands whose last byte is among the first `n` bytes of the stream. -/
def done : List (List Bytes) → Nat → Nat
  | [], _ => 0
  | c :: cs, n => if (encode c).length ≤ n then done cs (n - (encode c).length) + 1 else 0

/-- The number of bytes of the command that is open after `n` bytes. -/
def openBytes : List (List Bytes) → Nat → Nat
  | [], n => n
  | c :: cs, n => if (encode c).length ≤ n then openBytes cs (n - (encode c).length) else n

/-- The number of bytes up to the end of a command's first string. -/
def firstString (cmd : List Bytes) : Nat := (header cmd).length + (bulk (cmd.headD [])).length

/-- A read that takes the stream from `n` to `n'` bytes completes at most one command, and
    if it completes none, the open command does not have its first string yet. -/
def CutOk (cmds : List (List Bytes)) (n n' : Nat) : Prop :=
  done cmds n' ≤ done cmds n + 1 ∧
    (done cmds n' = done cmds n → openBytes cmds n' < firstString (cmds.getD (done cmds n') []))

instance (cmds : List (List Bytes)) (n n' : Nat) : Decidable (CutOk cmds n n') := by
  unfold CutOk
  infer_instance

/-- The number of bytes of the first `i` reads. -/
def bytesRead (reads : List Bytes) (i : Nat) : Nat := (reads.take i).flatten.length

/-- The commands of the stream are dispatched, in order, each once, and each as soon as its
    last byte has been read. -/
def Delivers (s : Reader) (cmds : List (List Bytes)) (reads : List Bytes) : Prop :=
  (s.run reads).dispatched = cmds ∧
    ∀ i ≤ reads.length, cmds.take (done cmds (bytesRead reads i)) <+:
      (s.run (reads.take i)).dispatched

/-! ### Counting -/

section Counting

variable {c : List Bytes} {cs : List (List Bytes)} {n n' : Nat}

theorem done_cons_of_le (h : (encode c).length ≤ n) :
    done (c :: cs) n = done cs (n - (encode c).length) + 1 := by
  rw [done, if_pos h]

theorem done_cons_of_lt (h : n < (encode c).length) : done (c :: cs) n = 0 := by
  rw [done, if_neg (Nat.not_le_of_lt h)]

theorem done_le_length (cmds : List (List Bytes)) (n : Nat) : done cmds n ≤ cmds.length := by
  induction cmds generalizing n with
  | nil => exact Nat.le_refl 0
  | cons c cs ih =>
    rw [done]
    split
    · exact Nat.succ_le_succ (ih _)
    · exact Nat.zero_le _

/-- Behind the first command the conditions are those of the rest. -/
theorem cutOk_cons (h : (encode c).length ≤ n) (h' : (encode c).length ≤ n') :
    CutOk (c :: cs) n n' ↔ CutOk cs (n - (encode c).length) (n' - (encode c).length) := by
  unfold CutOk
  rw [done_cons_of_le h, done_cons_of_le h', openBytes, if_pos h', List.getD_cons_succ]
  constructor
  · rintro ⟨hone, hopen⟩
    exact ⟨by omega, fun heq => hopen (by omega)⟩
  · rintro ⟨hone, hopen⟩
    exact ⟨by omega, fun heq => hopen (by omega)⟩

theorem whole_lt {ss : List Bytes} {m : Nat} (h : m < (ss.flatMap bulk).length) :
    whole ss m < ss.length := by
  induction ss generalizing m with
  | nil => simp at h
  | cons s ss ih =>
    rw [List.flatMap_cons, List.length_append] at h
    rw [whole]
    split
    · exact Nat.succ_lt_succ (ih (by omega))
    · exact Nat.succ_pos _

theorem whole_pos_iff {ss : List Bytes} {m : Nat} (hss : ss ≠ []) :
    0 < whole ss m ↔ (bulk (ss.headD [])).length ≤ m := by
  cases ss with
  | nil => exact absurd rfl hss
  | cons s ss =>
    rw [whole, List.headD_cons]
    split
    · rename_i h
      exact ⟨fun _ => h, fun _ => Nat.succ_pos _⟩
    · rename_i h
      exact ⟨fun hf => absurd hf (Nat.lt_irrefl 0), fun hf => absurd hf h⟩

end Counting

/-! ### One read -/

/-- Everything complete is dispatched: the buffer holds the first `k` bytes of the commands
    that are left, and these are less than one command. -/
structure InSync (s : Reader) (rest : List (List Bytes)) (k : Nat) : Prop where
  wf : s.recvBuf.WF
  small : s.recvBuf.buffer.length < 2 ^ 62
  bytes : s.recvBuf.readable = (rest.flatMap encode).take k
  fresh : done rest k = 0

/-- What a command that has not come in whole is parsed to: nothing before its first string
    is complete, and less than the command from there on. -/
theorem incomplete_parse {c : List Bytes} (hc : WellFormed c) {m : Nat}
    (hlt : m < (encode c).length) :
    ((if (header c).length ≤ m then c.take (whole c (m - (header c).length)) else []) = [] ↔
      m < firstString c) ∧
    (if (header c).length ≤ m then c.take (whole c (m - (header c).length)) else []) ≠ c := by
  have hlen : (encode c).length = (header c).length + (c.flatMap bulk).length := by
    simp [encode]
  unfold firstString
  by_cases hhead : (header c).length ≤ m
  · rw [if_pos hhead, List.take_eq_nil_iff, or_iff_left hc.ne_nil]
    have hless := (whole_lt (by omega) : whole c (m - (header c).length) < c.length)
    have hpos := whole_pos_iff (m := m - (header c).length) hc.ne_nil
    refine ⟨by omega, fun heq => ?_⟩
    have := congrArg List.length heq
    rw [List.length_take] at this
    omega
  · rw [if_neg hhead]
    exact ⟨iff_of_true rfl (by omega), hc.ne_nil.symm⟩

/-- What a read can do to a reader that is in sync. -/
theorem onRead_cases {s : Reader} {c : List Bytes} {cs : List (List Bytes)} {k : Nat}
    (h : InSync s (c :: cs) k) (hc : WellFormed c) {data : Bytes}
    (hfit : data.length ≤ s.recvBuf.writableSize)
    (hdata : data <+: ((c :: cs).flatMap encode).drop k) :
    let m := k + data.length
    let s' := s.onRead data
    ((encode c).length ≤ m ∧ s'.dispatched = s.dispatched ++ [c] ∧ s'.recvBuf.WF ∧
      s'.recvBuf.buffer.length < 2 ^ 62 ∧
      s'.recvBuf.readable = (cs.flatMap encode).take (m - (encode c).length)) ∨
    (m < (encode c).length ∧ m < firstString c ∧ s'.dispatched = s.dispatched ∧
      InSync s' (c :: cs) m) ∨
    (m < (encode c).length ∧ firstString c ≤ m ∧
      ∃ com, com ≠ c ∧ s'.dispatched = s.dispatched ++ [com]) := by
  intro m s'
  obtain ⟨hwf, hbytes⟩ := TcpBuffer.readable_hasWritten h.wf hfit
  have hlength : (s.recvBuf.hasWritten data).buffer.length = s.recvBuf.buffer.length := by
    have := h.wf.write_le
    unfold TcpBuffer.writableSize at hfit
    exact TcpBuffer.length_overwrite (by omega)
  have hsmall := h.small
  have hwrite := hwf.write_le
  have hstream : (s.recvBuf.hasWritten data).readable = (encode c ++ cs.flatMap encode).take m := by
    rw [hbytes, h.bytes, List.prefix_iff_eq_take.mp hdata, ← List.take_add, List.flatMap_cons]
  have hparse := parseRESP_take hc hwf (by omega) hstream
  have hs' : s' = if (parseRESP (s.recvBuf.hasWritten data)).1 = [] then
      { s with recvBuf := (parseRESP (s.recvBuf.hasWritten data)).2 }
      else ⟨(parseRESP (s.recvBuf.hasWritten data)).2,
        s.dispatched ++ [(parseRESP (s.recvBuf.hasWritten data)).1]⟩ := rfl
  rw [hparse] at hs'
  by_cases hwhole : (encode c).length ≤ m
  · rw [if_pos hwhole, if_neg hc.ne_nil] at hs'
    have hlen := TcpBuffer.length_readable hwf
    have hle : (encode c).length ≤ (s.recvBuf.hasWritten data).readableSize := by
      rw [← hlen, hstream, take_append_of_le hwhole, List.length_append]
      exact Nat.le_add_right _ _
    obtain ⟨hwf', hbytes'⟩ := TcpBuffer.moveReadIndex_spec hwf hle
    refine Or.inl ⟨hwhole, by rw [hs'], by rw [hs']; exact hwf', ?_, ?_⟩
    · rw [hs']
      show ((s.recvBuf.hasWritten data).moveReadIndex _).buffer.length < _
      unfold TcpBuffer.moveReadIndex
      split <;> exact hlength ▸ hsmall
    · rw [hs']
      show ((s.recvBuf.hasWritten data).moveReadIndex _).readable = _
      rw [hbytes', hstream, take_append_of_le hwhole, List.drop_left]
  · have hlt : m < (encode c).length := Nat.lt_of_not_le hwhole
    have hpending : InSync { s with recvBuf := s.recvBuf.hasWritten data } (c :: cs) m :=
      ⟨hwf, hlength ▸ hsmall, by rw [List.flatMap_cons]; exact hstream, done_cons_of_lt hlt⟩
    rw [if_neg hwhole] at hs'
    obtain ⟨hnil, hother⟩ := incomplete_parse hc hlt
    rw [← apply_ite (fun com => (com, s.recvBuf.hasWritten data))] at hs'
    by_cases hfirst : m < firstString c
    · rw [if_pos (hnil.mpr hfirst)] at hs'
      exact Or.inr (Or.inl ⟨hlt, hfirst, by rw [hs'], hs' ▸ hpending⟩)
    · rw [if_neg fun h => hfirst (hnil.mp h)] at hs'
      exact Or.inr (Or.inr ⟨hlt, Nat.le_of_not_lt hfirst, _, hother, by rw [hs']⟩)

/-! ### Whole runs -/

@[simp] theorem bytesRead_zero (reads : List Bytes) : bytesRead reads 0 = 0 := rfl

@[simp] theorem bytesRead_cons (data : Bytes) (reads : List Bytes) (i : Nat) :
    bytesRead (data :: reads) (i + 1) = data.length + bytesRead reads i := by
  simp [bytesRead]

theorem dispatched_onRead (s : Reader) (data : Bytes) :
    s.dispatched <+: (s.onRead data).dispatched := by
  unfold Reader.onRead
  dsimp only
  split
  · exact List.prefix_rfl
  · exact List.prefix_append _ _

/-- Dispatched commands stay dispatched. -/
theorem dispatched_run (s : Reader) (reads : List Bytes) :
    s.dispatched <+: (s.run reads).dispatched := by
  induction reads generalizing s with
  | nil => exact List.prefix_rfl
  | cons data reads ih => exact (dispatched_onRead s data).trans (ih (s.onRead data))

/-- Delivery of the commands that are left, `k` bytes of which are in the buffer. -/
def DeliversFrom (s : Reader) (rest : List (List Bytes)) (k : Nat) (reads : List Bytes) : Prop :=
  (s.run reads).dispatched = s.dispatched ++ rest ∧
    ∀ i ≤ reads.length, s.dispatched ++ rest.take (done rest (k + bytesRead reads i)) <+:
      (s.run (reads.take i)).dispatched

def CutsOk (rest : List (List Bytes)) (k : Nat) (reads : List Bytes) : Prop :=
  ∀ i < reads.length, CutOk rest (k + bytesRead reads i) (k + bytesRead reads (i + 1))

theorem cutsOk_cons {rest : List (List Bytes)} {k : Nat} {data : Bytes} {reads : List Bytes} :
    CutsOk rest k (data :: reads) ↔
      CutOk rest k (k + data.length) ∧ CutsOk rest (k + data.length) reads := by
  unfold CutsOk
  rw [List.length_cons]
  constructor
  · intro h
    refine ⟨by simpa using h 0 (Nat.succ_pos _), fun i hi => ?_⟩
    have := h (i + 1) (Nat.succ_lt_succ hi)
    rwa [bytesRead_cons, bytesRead_cons, ← Nat.add_assoc, ← Nat.add_assoc] at this
  · rintro ⟨hfirst, hrest⟩ i hi
    cases i with
    | zero => simpa using hfirst
    | succ i =>
      rw [bytesRead_cons, bytesRead_cons, ← Nat.add_assoc, ← Nat.add_assoc]
      exact hrest i (by omega)

theorem deliversFrom_cons {s : Reader} {rest : List (List Bytes)} {k : Nat} {data : Bytes}
    {reads : List Bytes} (hfresh : done rest k = 0) :
    DeliversFrom s rest k (data :: reads) ↔
      ((s.onRead data).run reads).dispatched = s.dispatched ++ rest ∧
      ∀ i ≤ reads.length, s.dispatched ++
        rest.take (done rest (k + data.length + bytesRead reads i))
        <+: ((s.onRead data).run (reads.take i)).dispatched := by
  unfold DeliversFrom
  rw [List.length_cons]
  refine and_congr_right fun _ => ?_
  constructor
  · intro h i hi
    have := h (i + 1) (Nat.succ_le_succ hi)
    rwa [bytesRead_cons, ← Nat.add_assoc] at this
  · intro h i hi
    cases i with
    | zero =>
      rw [bytesRead_zero, Nat.add_zero, hfresh, List.take_zero, List.append_nil]
      exact List.prefix_rfl
    | succ i =>
      rw [bytesRead_cons, ← Nat.add_assoc]
      exact h i (by omega)

/-- Behind the first command, everything is about the rest. -/
theorem cutsOk_behind {c : List Bytes} {cs : List (List Bytes)} {m : Nat} {reads : List Bytes}
    (h : (encode c).length ≤ m) :
    CutsOk (c :: cs) m reads ↔ CutsOk cs (m - (encode c).length) reads := by
  unfold CutsOk
  refine forall₂_congr fun i _ => ?_
  rw [cutOk_cons (by omega) (by omega), Nat.sub_add_comm h, Nat.sub_add_comm h]

section Step

variable {s : Reader} {c : List Bytes} {cs : List (List Bytes)} {k : Nat} {data : Bytes}
    {reads : List Bytes}

/-- A read that dispatches nothing leaves the delivery to the reads behind it. -/
theorem deliversFrom_quiet {rest : List (List Bytes)} (hfresh : done rest k = 0)
    (hdisp : (s.onRead data).dispatched = s.dispatched) :
    DeliversFrom s rest k (data :: reads) ↔
      DeliversFrom (s.onRead data) rest (k + data.length) reads := by
  rw [deliversFrom_cons hfresh, DeliversFrom, hdisp]

/-- A read that dispatches the command it completes leaves the rest to the reads behind it. -/
theorem deliversFrom_behind (hfresh : done (c :: cs) k = 0)
    (hle : (encode c).length ≤ k + data.length)
    (hdisp : (s.onRead data).dispatched = s.dispatched ++ [c]) :
    DeliversFrom s (c :: cs) k (data :: reads) ↔
      DeliversFrom (s.onRead data) cs (k + data.length - (encode c).length) reads := by
  rw [deliversFrom_cons hfresh, DeliversFrom, hdisp, List.append_assoc, List.singleton_append]
  refine and_congr_right fun _ => forall₂_congr fun i _ => ?_
  rw [done_cons_of_le (by omega), Nat.sub_add_comm hle, List.take_succ_cons, List.append_assoc,
    List.singleton_append]

/-- A complete command that is still in the buffer is late already. -/
theorem not_deliversFrom_of_done {rest : List (List Bytes)} (hdone : done rest k ≠ 0) :
    ¬ DeliversFrom s rest k reads := by
  intro hdel
  have hlen := (hdel.2 0 (Nat.zero_le _)).length_le
  have hbound := done_le_length rest k
  rw [bytesRead_zero, Nat.add_zero] at hlen
  simp only [List.take_zero, Reader.run, List.foldl_nil, List.length_append,
    List.length_take] at hlen
  omega

/-- What is dispatched in the place of a command is never taken back. -/
theorem not_deliversFrom_of_other {com : List Bytes} (hfresh : done (c :: cs) k = 0)
    (hcom : com ≠ c) (hdisp : (s.onRead data).dispatched = s.dispatched ++ [com]) :
    ¬ DeliversFrom s (c :: cs) k (data :: reads) := by
  intro hdel
  have hkept := dispatched_run (s.onRead data) reads
  rw [((deliversFrom_cons hfresh).mp hdel).1, hdisp, List.prefix_append_right_inj] at hkept
  obtain ⟨tail, htail⟩ := hkept
  exact hcom (List.cons.inj htail).1

/-- A read that completes a command is cut well when it completes no second one. -/
theorem cutOk_of_complete (hfresh : done (c :: cs) k = 0)
    (hle : (encode c).length ≤ k + data.length) :
    CutOk (c :: cs) k (k + data.length) ↔
      done cs (k + data.length - (encode c).length) = 0 := by
  unfold CutOk
  rw [done_cons_of_le hle, hfresh]
  constructor
  · intro hcut
    have := hcut.1
    omega
  · intro hmore
    rw [hmore]
    exact ⟨Nat.le_refl _, fun hf => absurd hf (by decide)⟩

/-- A read that completes nothing is cut well before the first string is complete. -/
theorem cutOk_of_open (hfresh : done (c :: cs) k = 0)
    (hlt : k + data.length < (encode c).length) :
    CutOk (c :: cs) k (k + data.length) ↔ k + data.length < firstString c := by
  unfold CutOk
  rw [done_cons_of_lt hlt, hfresh, openBytes, if_neg (by omega)]
  exact ⟨fun hcut => hcut.2 rfl, fun hfirst => ⟨Nat.zero_le _, fun _ => hfirst⟩⟩

/-- With nothing left to be read, no command is open. -/
theorem InSync.rest_eq_nil {rest : List (List Bytes)} (h : InSync s rest k)
    (hstream : (rest.flatMap encode).drop k = []) : rest = [] := by
  cases rest with
  | nil => rfl
  | cons c cs =>
    have hlen := congrArg List.length hstream
    have hfresh := h.fresh
    rw [List.flatMap_cons] at hlen
    simp only [List.length_nil, List.length_drop, List.length_append] at hlen
    rw [done_cons_of_le (by omega)] at hfresh
    cases hfresh

end Step

/-- **From a reader in sync**, the commands that are left are delivered exactly when every
    read is cut well. -/
theorem deliversFrom_iff {s : Reader} {rest : List (List Bytes)} {k : Nat} {reads : List Bytes}
    (h : InSync s rest k) (hrest : ∀ c ∈ rest, WellFormed c)
    (hstream : reads.flatten = (rest.flatMap encode).drop k) (hfits : s.Fits reads) :
    DeliversFrom s rest k reads ↔ CutsOk rest k reads := by
  induction reads generalizing s rest k with
  | nil =>
    have hnil := h.rest_eq_nil hstream.symm
    subst hnil
    refine ⟨fun _ i hi => absurd hi (Nat.not_lt_zero i), fun _ => ⟨by simp [Reader.run], ?_⟩⟩
    intro i hi
    simp [Reader.run]
  | cons data reads ih =>
    obtain ⟨hne, hfit, hfits'⟩ := hfits
    rw [List.flatten_cons] at hstream
    cases rest with
    | nil =>
      simp only [List.flatMap_nil, List.drop_nil, List.append_eq_nil_iff] at hstream
      exact absurd hstream.1 hne
    | cons c cs =>
      have hdata : data <+: ((c :: cs).flatMap encode).drop k := hstream ▸ List.prefix_append _ _
      have hnext : reads.flatten = ((c :: cs).flatMap encode).drop (k + data.length) := by
        rw [← List.drop_drop, ← hstream, List.drop_left]
      rw [cutsOk_cons]
      rcases onRead_cases h (hrest c List.mem_cons_self) hfit hdata with
        ⟨hle, hdisp, hwf, hsmall, hbytes⟩ | ⟨hlt, hfirst, hdisp, hsync⟩ | ⟨hlt, hfirst, com,
          hcom, hdisp⟩
      · -- the command is complete, and dispatched
        rw [deliversFrom_behind h.fresh hle hdisp, cutOk_of_complete h.fresh hle, cutsOk_behind hle]
        by_cases hmore : done cs (k + data.length - (encode c).length) = 0
        · have hstream' : reads.flatten =
              (cs.flatMap encode).drop (k + data.length - (encode c).length) := by
            rw [hnext, List.flatMap_cons, List.drop_append, List.drop_eq_nil_of_le hle,
              List.nil_append]
          rw [and_iff_right hmore]
          exact ih ⟨hwf, hsmall, hbytes, hmore⟩ (fun c hc => hrest c (List.mem_cons_of_mem _ hc))
            hstream' hfits'
        · -- a second command is complete, and waits for the next read
          exact iff_of_false (not_deliversFrom_of_done hmore) fun hcut => hmore hcut.1
      · -- nothing is complete, and nothing is dispatched
        rw [deliversFrom_quiet h.fresh hdisp, cutOk_of_open h.fresh hlt, and_iff_right hfirst]
        exact ih hsync hrest hnext hfits'
      · -- an incomplete command is dispatched
        rw [cutOk_of_open h.fresh hlt]
        exact iff_of_false (not_deliversFrom_of_other h.fresh hcom hdisp)
          fun hcut => absurd hcut.1 (Nat.not_lt_of_le hfirst)

theorem done_zero (cmds : List (List Bytes)) : done cmds 0 = 0 := by
  cases cmds with
  | nil => rfl
  | cons c cs => exact done_cons_of_lt (by simp [encode, header])

theorem inSync_start (cmds : List (List Bytes)) : InSync Reader.start cmds 0 where
  wf := TcpBuffer.wf_new 1024 8
  small := by
    show (List.replicate (8 + 1024) (0 : UInt8)).length < 2 ^ 62
    rw [List.length_replicate]
    decide
  bytes := TcpBuffer.readable_new 1024 8
  fresh := done_zero cmds

/-- `PING`. -/
def ping : Bytes := [80, 73, 78, 71]

theorem encode_ping : encode [ping] =
    [42, 49, 13, 10, 36, 52, 13, 10, 80, 73, 78, 71, 13, 10] := by
  simp [encode, header, bulk, decimal_of_lt, ping]

theorem firstString_ping : firstString [ping] = 14 := by
  simp [firstString, header, bulk, decimal_of_lt, ping]

theorem wellFormed_ping : WellFormed [ping] :=
  ⟨by simp, by decide, by simp [ping]⟩

end StorageEngine.Network
