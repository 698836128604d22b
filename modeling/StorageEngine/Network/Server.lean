/-
  StorageEngine/Network/Server.lean
  =================================
  **The server and its clients** (`network/redis_server.hpp` together with the command and
  the sharding layers).

  Every client has a session, and the sessions share the slices, with their tables as they
  are.  Here a client waits for the reply to a command before it sends the next one, as the
  assertion of the read loop wants it.  Reads, callbacks, reply tasks and writes of all the
  sessions come in any order.  What the clients see is then what they would see if each
  command were carried out at one moment between its sending and its reply, with nothing
  else going on.  A command that crashes is a step of no run.
-/
import StorageEngine.Command.PrimeStore
import StorageEngine.Network.Session
import StorageEngine.Redis.ReplyDecoder

namespace StorageEngine.Network

open StorageEngine.Net StorageEngine.Redis StorageEngine.Command StorageEngine.Sharding
open StorageEngine.StepMachine

/-! ### One command by itself -/

section Serve

variable (shared : Bool) (hashInt : Int64 → UInt64) (hashStr : Bytes → UInt64)
  (selfMove : Bytes → Bytes) (fuel : Nat) (size : UInt32) (hash : Bytes → UInt64)

/-- What a command does to the slices, and its reply, when nothing else goes on.  There is no
    reply if the handler crashes, stays in a loop or sends nothing. -/
def serve (now : UInt64) (args : List Bytes) (ns : PrimeNamespace) :
    Option (PrimeNamespace × Reply) :=
  match args with
  | [] => none
  | name :: _ =>
    match find name with
    | none => some (ns, .error)
    | some ci =>
      match ci.handler.invoke args with
      | .replies r => some (ns, r)
      | .suspends =>
        match ci.handler.awaits shared hashInt hashStr selfMove fuel args with
        | .callback cb => (runCallback size hash now args cb ns).bind fun out =>
            out.2.reply.map fun r => (out.1, r)
        | _ => none
      | .silent => none

/-- The handler of the command comes to an undefined access or ends the process before it
    suspends. -/
def crashes (args : List Bytes) : Bool :=
  match args with
  | [] => false
  | name :: _ =>
    match find name with
    | none => false
    | some ci =>
      match ci.handler.awaits shared hashInt hashStr selfMove fuel args with
      | .crashes => true
      | _ => false

end Serve

/-- The reply that `DoRead` sends before it reads again, if it sends one. -/
def immediateReply (args : List Bytes) : Option Reply :=
  match args with
  | [] => none
  | name :: _ =>
    match find name with
    | none => some .error
    | some ci =>
      match ci.handler.invoke args with
      | .replies r => some r
      | _ => none

/-- The handler waits for a callback. -/
def suspends (args : List Bytes) : Bool :=
  match args with
  | [] => false
  | name :: _ =>
    match find name with
    | none => false
    | some ci => ci.handler.invoke args = .suspends

/-! ### The system -/

/-- A client and its session: the commands that the client has sent, the bytes of them that
    the session has not read, and the time of the session's transaction. -/
structure Connection where
  session : Session
  sent : List (List Bytes)
  wire : Bytes
  now : UInt64

/-- A record of a command that was carried out, with its reply. -/
structure Effect where
  client : Nat
  args : List Bytes
  now : UInt64
  reply : Reply

/-- The effect of a read: the reply that `DoRead` sends by itself. -/
def readEffects (c : Nat) (now : UInt64) (args : List Bytes) : List Effect :=
  (immediateReply args).toList.map fun r => ⟨c, args, now, r⟩

/-- `effects` is a record, for the statements below. -/
structure Server where
  connection : Nat → Connection
  ns : PrimeNamespace
  effects : List Effect

inductive ServerStep where
  /-- A client sends a command. -/
  | send (c : Nat) (cmd : List Bytes)
  /-- A session reads some of the bytes on the wire. -/
  | read (c n : Nat) (now : UInt64)
  /-- A shard runs a waiting callback of a session, and the continuation behind it.  Which one
      is left open; the order of the shard's queue is one of the possible ones. -/
  | shard (c i : Nat)
  /-- The proactor runs the next reply task of a session. -/
  | reply (c : Nat)
  /-- A write has taken `wr` bytes, or has failed. -/
  | written (c i wr : Nat)

namespace Connection

def start : Connection := ⟨Session.start, [], [], 0⟩

/-- The bytes that the client has got. -/
def received (k : Connection) : Bytes := k.session.writer.accepted

/-- The client has read a reply to every command. -/
def Answered (k : Connection) : Prop :=
  ∃ vs, decodeReplies k.received = some vs ∧ vs.length = k.sent.length

end Connection

namespace Server

def setConnection (s : Server) (c : Nat) (k : Connection) : Server :=
  { s with connection := Function.update s.connection c k }

/-- The commands of a client that were carried out. -/
def effectsOf (s : Server) (c : Nat) : List Effect := s.effects.filter fun e => e.client = c

section Step

variable (shared : Bool) (hashInt : Int64 → UInt64) (hashStr : Bytes → UInt64)
  (selfMove : Bytes → Bytes) (fuel : Nat) (size : UInt32) (hash : Bytes → UInt64)

def start : Server := ⟨fun _ => .start, PrimeNamespace.new shared hashInt hashStr, []⟩

/-- One step.  A callback reads the arguments of its command where the session has them. -/
def step (s : Server) : ServerStep → Option Server
  | .send c cmd =>
    let k := s.connection c
    some (s.setConnection c { k with sent := k.sent ++ [cmd], wire := k.wire ++ encode cmd })
  | .read c n now =>
    let k := s.connection c
    (k.session.step (.read (k.wire.take n))).bind fun session =>
      if crashes shared hashInt hashStr selfMove fuel session.com then none
      else some
        { s.setConnection c { k with session := session, wire := k.wire.drop n, now := now } with
          effects := s.effects ++ readEffects c now session.com }
  | .shard c i =>
    let k := s.connection c
    (serve shared hashInt hashStr selfMove fuel size hash k.now k.session.com s.ns).bind
        fun (ns, r) =>
      (k.session.step (.shard i r)).map fun session =>
        { s.setConnection c { k with session := session } with
          ns := ns, effects := s.effects ++ [⟨c, k.session.com, k.now, r⟩] }
  | .reply c =>
    let k := s.connection c
    (k.session.step .reply).map fun session => s.setConnection c { k with session := session }
  | .written c i wr =>
    let k := s.connection c
    (k.session.step (.written i wr)).map fun session =>
      s.setConnection c { k with session := session }

/-- A client sends a command when it has the replies to those before, and no read ends inside
    a command behind its first string. -/
def Waits (s : Server) : ServerStep → Prop
  | .send c cmd => (s.connection c).Answered ∧ WellFormed cmd
  | .read c n _ =>
    let k := s.connection c
    let cmd := k.sent.getLastD []
    k.wire.drop n = [] ∨ (encode cmd).length < firstString cmd + (k.wire.drop n).length
  | _ => True

/-- The commands that were carried out, one after the other and with nothing in between, have
    these replies and leave these slices. -/
inductive Sequential : List Effect → PrimeNamespace → Prop where
  | nil : Sequential [] (PrimeNamespace.new shared hashInt hashStr)
  | snoc {es : List Effect} {ns ns' : PrimeNamespace} {e : Effect} (h : Sequential es ns)
      (hserve : serve shared hashInt hashStr selfMove fuel size hash e.now e.args ns =
        some (ns', e.reply)) :
      Sequential (es ++ [e]) ns'

/-- **The state is one of a server that carries out one command at a time.**  The commands that
    took effect did so one after the other.  Those of a client are those that it has sent,
    in order, except perhaps the last; a client has got the first bytes of their replies.
    A client that has read a reply to every command has had every command carried out, and
    got its replies. -/
structure Linearized (s : Server) : Prop where
  sequential : Sequential shared hashInt hashStr selfMove fuel size hash s.effects s.ns
  inOrder : ∀ c, ∃ rest, (s.connection c).sent = (s.effectsOf c).map Effect.args ++ rest ∧
    rest.length ≤ 1
  received : ∀ c, (s.connection c).received <+: (s.effectsOf c).flatMap fun e => e.reply.build
  answered : ∀ c, (s.connection c).Answered →
    (s.connection c).sent = (s.effectsOf c).map Effect.args ∧
      (s.connection c).received = (s.effectsOf c).flatMap fun e => e.reply.build

end Step

end Server

/-! ### Replies -/

section Replies

variable {shared : Bool} {hashInt : Int64 → UInt64} {hashStr : Bytes → UInt64}
  {selfMove : Bytes → Bytes} {fuel : Nat} {size : UInt32} {hash : Bytes → UInt64} {now : UInt64}
  {args : List Bytes} {ns ns' : PrimeNamespace} {r : Reply}

/-- What the callbacks return is sent by one of the calls of a session. -/
theorem sent_of_result {x : Result} (h : x.reply = some r) : ∃ y : Sent, y.reply = r := by
  cases x with
  | status x =>
    cases x with
    | ok u =>
      obtain rfl := Option.some.inj h
      exact ⟨.ok, rfl⟩
    | error e =>
      obtain rfl := Option.some.inj h
      exact ⟨.error, rfl⟩
  | string x =>
    cases x with
    | ok s =>
      obtain rfl := Option.some.inj h
      exact ⟨.string s, rfl⟩
    | error e =>
      obtain rfl := Option.some.inj h
      exact ⟨.error, rfl⟩
  | count n =>
    obtain rfl := Option.some.inj h
    refine ⟨.number n.toUInt64.toInt64, congrArg Reply.int ?_⟩
    have hlt := n.toNat_lt
    rw [toInt_toInt64, UInt32.toNat_toUInt64, if_pos (by omega)]
  | fatal => cases h

/-- So is what the other handlers reply. -/
theorem sent_of_invoke {handler : Handler} (h : handler.invoke args = .replies r) :
    ∃ y : Sent, y.reply = r := by
  cases handler with
  | ping =>
    obtain rfl := Outcome.replies.inj h
    unfold handlePing
    split
    · exact ⟨.error, rfl⟩
    · exact ⟨.pong, rfl⟩
  | clientInfo =>
    obtain rfl := Outcome.replies.inj h
    unfold handleClientInfo
    split
    · exact ⟨.ok, rfl⟩
    · exact ⟨.error, rfl⟩
  | set | get | delex | «exists» | expire | ttl | shutDown => cases h

/-- The reply to any command is sent by one of the calls of a session. -/
theorem sent_of_serve
    (h : serve shared hashInt hashStr selfMove fuel size hash now args ns = some (ns', r)) :
    ∃ y : Sent, y.reply = r := by
  cases args with
  | nil => cases h
  | cons name rest =>
    unfold serve at h
    dsimp only at h
    split at h
    · obtain ⟨-, rfl⟩ := Prod.mk.inj (Option.some.inj h)
      exact ⟨.error, rfl⟩
    · split at h
      · rename_i hinvoke
        obtain ⟨-, rfl⟩ := Prod.mk.inj (Option.some.inj h)
        exact sent_of_invoke hinvoke
      · split at h
        · obtain ⟨out, -, hreply⟩ := Option.bind_eq_some_iff.mp h
          obtain ⟨r', hr', heq⟩ := Option.map_eq_some_iff.mp hreply
          obtain ⟨-, rfl⟩ := Prod.mk.inj heq
          exact sent_of_result hr'
        · cases h
      · cases h

/-- What `DoRead` replies by itself is sent by one of them. -/
theorem sent_of_immediate (h : immediateReply args = some r) : ∃ y : Sent, y.reply = r := by
  cases args with
  | nil => cases h
  | cons name rest =>
    unfold immediateReply at h
    dsimp only at h
    split at h
    · obtain rfl := Option.some.inj h
      exact ⟨.error, rfl⟩
    · split at h
      · rename_i hinvoke
        obtain rfl := Option.some.inj h
        exact sent_of_invoke hinvoke
      · cases h

/-- It is the reply to the command. -/
theorem serve_of_immediate (h : immediateReply args = some r) :
    serve shared hashInt hashStr selfMove fuel size hash now args ns = some (ns, r) := by
  cases args with
  | nil => cases h
  | cons name rest =>
    unfold immediateReply at h
    unfold serve
    dsimp only at h ⊢
    cases hfind : find name with
    | none =>
      rw [hfind] at h
      obtain rfl := Option.some.inj h
      rfl
    | some ci =>
      rw [hfind] at h
      dsimp only at h ⊢
      cases hhandler : ci.handler with
      | ping | clientInfo =>
        rw [hhandler] at h
        obtain rfl := Option.some.inj h
        rfl
      | set | get | delex | «exists» | expire | ttl | shutDown =>
        rw [hhandler] at h
        cases h

end Replies

/-! ### One connection -/

/-- What a read leaves behind it, if nothing was on its way. -/
theorem onRead_outcome {s : Session} (hhops : s.hops = []) (htasks : s.replyTasks = [])
    (data : Bytes) :
    (s.onRead data).writer = s.writer ∧
      (s.onRead data).com = (parseRESP (s.recvBuf.hasWritten data)).1 ∧
      (s.onRead data).recvBuf = (parseRESP (s.recvBuf.hasWritten data)).2 ∧
      (s.onRead data).replyTasks = (immediateReply (s.onRead data).com).toList.map Reply.build ∧
      ((s.onRead data).hops = [] ∧ suspends (s.onRead data).com = false ∨
        immediateReply (s.onRead data).com = none ∧ (s.onRead data).com ≠ [] ∧
        ∃ t, (s.onRead data).t = some t ∧ (s.onRead data).hops = [⟨(s.onRead data).com, t⟩]) := by
  unfold Session.onRead
  dsimp only
  cases hcom : (parseRESP (s.recvBuf.hasWritten data)).1 with
  | nil => exact ⟨rfl, rfl, rfl, htasks, Or.inl ⟨hhops, rfl⟩⟩
  | cons name rest =>
    dsimp only
    cases hfind : find name with
    | none =>
      refine ⟨rfl, rfl, rfl, ?_, Or.inl ⟨hhops, ?_⟩⟩
      · simp [Session.sendImp, immediateReply, hfind, htasks]
      · simp [Session.sendImp, suspends, hfind]
    | some ci =>
      simp only [Session.invoke]
      cases hinvoke : ci.handler.invoke (name :: rest) with
      | replies r =>
        refine ⟨rfl, rfl, rfl, ?_, Or.inl ⟨hhops, ?_⟩⟩
        · simp [Session.sendImp, immediateReply, hfind, hinvoke, htasks]
        · simp [Session.sendImp, suspends, hfind, hinvoke]
      | suspends =>
        refine ⟨rfl, rfl, rfl, ?_, Or.inr ⟨?_, List.cons_ne_nil _ _, s.created, rfl, ?_⟩⟩
        · simp [immediateReply, hfind, hinvoke, htasks]
        · simp [immediateReply, hfind, hinvoke]
        · simp [hhops]
      | silent =>
        refine ⟨rfl, rfl, rfl, ?_, Or.inl ⟨hhops, ?_⟩⟩
        · simp [immediateReply, hfind, hinvoke, htasks]
        · simp [suspends, hfind, hinvoke]

/-- Where a connection stands between two steps, with the commands of its client that were
    carried out. -/
inductive Phase (k : Connection) (es : List Effect) : Prop where
  /-- Every command was carried out, and its reply is in the send buffer or was written. -/
  | idle (hops : k.session.hops = []) (tasks : k.session.replyTasks = []) (wire : k.wire = [])
      (synced : InSync ⟨k.session.recvBuf, []⟩ [] 0) (sent : k.sent = es.map Effect.args)
  /-- A command is on the wire, and some of it in the receive buffer. -/
  | sending {cmd : List Bytes} {m : Nat} (wellFormed : WellFormed cmd) (hops : k.session.hops = [])
      (tasks : k.session.replyTasks = []) (wire : k.wire = (encode cmd).drop m)
      (synced : InSync ⟨k.session.recvBuf, []⟩ [cmd] m)
        (sent : k.sent = es.map Effect.args ++ [cmd])
      (written : k.session.writer.outstanding = [])
  /-- The handler of a command waits for its callback, or it has not replied and waits for
      nothing. -/
  | running {cmd : List Bytes}
      (hops : k.session.hops = [] ∧ suspends cmd = false ∧ immediateReply cmd = none ∨
        ∃ t, k.session.t = some t ∧ k.session.hops = [⟨cmd, t⟩]) (com : k.session.com = cmd)
      (tasks : k.session.replyTasks = []) (wire : k.wire = [])
      (synced : InSync ⟨k.session.recvBuf, []⟩ [] 0) (sent : k.sent = es.map Effect.args ++ [cmd])
      (written : k.session.writer.outstanding = [])
  /-- The reply to the last command waits for its task. -/
  | replying {text : Bytes} (nonempty : text ≠ []) (hops : k.session.hops = [])
      (tasks : k.session.replyTasks = [text]) (wire : k.wire = [])
      (synced : InSync ⟨k.session.recvBuf, []⟩ [] 0) (sent : k.sent = es.map Effect.args)
      (written : k.session.writer.outstanding = [])

/-- The texts of the replies. -/
def replyTexts (es : List Effect) : Bytes := es.flatMap fun e => e.reply.build

theorem replyTexts_snoc (es : List Effect) (e : Effect) :
    replyTexts (es ++ [e]) = replyTexts es ++ e.reply.build := by
  simp [replyTexts]

structure Connection.Inv (k : Connection) (es : List Effect) : Prop where
  writer : k.session.writer.Inv
  texts : k.session.writer.appended ++ k.session.replyTasks.flatten = replyTexts es
  phase : Phase k es

/-- The replies are what the calls of a session send. -/
def AllSent (es : List Effect) : Prop := ∀ e ∈ es, ∃ y : Sent, y.reply = e.reply

theorem AllSent.stream {es : List Effect} (h : AllSent es) :
    ∃ ys : List Sent, ys.length = es.length ∧ Sent.stream ys = replyTexts es := by
  induction es with
  | nil => exact ⟨[], rfl, rfl⟩
  | cons e es ih =>
    obtain ⟨ys, hlen, hstream⟩ := ih fun e he => h e (List.mem_cons_of_mem _ he)
    obtain ⟨y, hy⟩ := h e List.mem_cons_self
    refine ⟨y :: ys, congrArg (· + 1) hlen, ?_⟩
    show y.reply.build ++ Sent.stream ys = e.reply.build ++ replyTexts es
    rw [hy, hstream]

/-- The result of a write adds nothing to the send buffer, and belongs to a write that waits. -/
theorem step_written {s s' : Writer} {a : WriteStep} (hstep : s.step a = some s')
    (hresult : ∀ text, a ≠ .reply text) : s'.appended = s.appended ∧ s.outstanding ≠ [] := by
  have hbusy : ∀ {i : Nat} {w : Write}, s.outstanding[i]? = some w → s.outstanding ≠ [] := by
    rintro i w hw hnil
    rw [hnil] at hw
    simp at hw
  cases a with
  | reply text => exact absurd rfl (hresult text)
  | complete i wr =>
    rw [Writer.step] at hstep
    split at hstep
    · rename_i w hw
      split at hstep
      · obtain rfl := Option.some.inj hstep
        exact ⟨Writer.doWrite_appended _, hbusy hw⟩
      · cases hstep
    · cases hstep
  | fail i =>
    rw [Writer.step] at hstep
    split at hstep
    · rename_i w hw
      obtain rfl := Option.some.inj hstep
      exact ⟨Writer.doWrite_appended _, hbusy hw⟩
    · cases hstep

namespace Connection.Inv

variable {k : Connection} {es : List Effect}

theorem inv_start : Connection.start.Inv [] where
  writer := Writer.inv_start
  texts := rfl
  phase := .idle rfl rfl rfl (inSync_start []) rfl

/-- The client has got a part of the replies. -/
theorem received_append (h : k.Inv es) :
    k.received ++ (k.session.writer.sendBuf.readable ++ k.session.replyTasks.flatten) =
      replyTexts es := by
  rw [← List.append_assoc, ← h.texts]
  exact congrArg (· ++ _) h.writer.once

theorem sent_cases (h : k.Inv es) :
    k.sent = es.map Effect.args ∨ ∃ cmd, k.sent = es.map Effect.args ++ [cmd] := by
  cases h.phase with
  | idle _ _ _ _ hsent => exact Or.inl hsent
  | sending _ _ _ _ _ hsent _ => exact Or.inr ⟨_, hsent⟩
  | running _ _ _ _ _ hsent _ => exact Or.inr ⟨_, hsent⟩
  | replying _ _ _ _ _ hsent _ => exact Or.inl hsent

/-- A client that has all its answers has got all the texts, and its session rests. -/
theorem of_answered (h : k.Inv es) (hes : AllSent es) (hall : k.Answered) :
    k.sent = es.map Effect.args ∧ k.received = replyTexts es ∧
      k.session.writer.sendBuf.readable = [] ∧ k.session.replyTasks = [] := by
  obtain ⟨ys, hlen, hstream⟩ := hes.stream
  obtain ⟨vs, hvs, hcount⟩ := hall
  have hreceived := h.received_append
  rw [← hstream] at hreceived
  obtain ⟨hpart, hnone⟩ := decodeReplies_part hreceived hvs
  have hle := hpart.length_le
  rw [List.length_map] at hle
  rcases h.sent_cases with hsent | ⟨cmd, hsent⟩
  · rw [hsent, List.length_map] at hcount
    obtain ⟨hreadable, htasks⟩ := List.append_eq_nil_iff.mp (hnone (hcount.trans hlen.symm))
    rw [hreadable, htasks, List.append_nil, List.append_nil, hstream] at hreceived
    refine ⟨hsent, hreceived, hreadable, ?_⟩
    cases h.phase with
    | idle _ htasks' _ _ _ => exact htasks'
    | sending _ _ htasks' _ _ _ _ => exact htasks'
    | running _ _ htasks' _ _ _ _ => exact htasks'
    | replying hne _ htasks' _ _ _ _ =>
      rw [htasks'] at htasks
      exact absurd (by simpa using htasks) hne
  · rw [hsent, List.length_append, List.length_map, List.length_singleton] at hcount
    omega

/-- A client that has all its answers sends a command. -/
theorem send (h : k.Inv es) (hes : AllSent es) (hall : k.Answered) {cmd : List Bytes}
    (hcmd : WellFormed cmd) :
    Connection.Inv { k with sent := k.sent ++ [cmd], wire := k.wire ++ encode cmd } es := by
  obtain ⟨hsent, -, hreadable, htasks⟩ := h.of_answered hes hall
  refine ⟨h.writer, h.texts, ?_⟩
  have hwritten : k.session.writer.outstanding = [] := by
    have hwaiting := h.writer.waiting
    rw [if_pos] at hwaiting
    · exact hwaiting
    · rw [← TcpBuffer.length_readable h.writer.wf, hreadable]
      rfl
  cases h.phase with
  | idle hhops _ hwire hsynced _ =>
    refine .sending hcmd hhops htasks (m := 0) ?_ ⟨hsynced.wf, hsynced.small, ?_,
      done_zero _⟩ ?_ hwritten
    · rw [hwire]
      rfl
    · rw [hsynced.bytes]
      simp
    · rw [hsent]
  | sending _ _ _ _ _ hsent' _ =>
    rw [hsent] at hsent'
    exact absurd hsent' (by simp)
  | running _ _ _ _ _ hsent' _ =>
    rw [hsent] at hsent'
    exact absurd hsent' (by simp)
  | replying _ _ htasks' _ _ _ _ =>
    rw [htasks] at htasks'
    cases htasks'

/-- What a read of some bytes of an open command makes of the receive buffer: the command is
    whole and the buffer is empty, or nothing of the command is there yet. -/
theorem parse_sending {s : Session} {cmd : List Bytes} {m : Nat}
    (hsynced : InSync ⟨s.recvBuf, []⟩ [cmd] m) (hcmd : WellFormed cmd) {data : Bytes}
    (hfit : data.length ≤ s.recvBuf.writableSize) (hdata : data <+: (encode cmd).drop m)
    (hcut : (encode cmd).length ≤ m + data.length ∨ m + data.length < firstString cmd) :
    ((encode cmd).length ≤ m + data.length ∧ (parseRESP (s.recvBuf.hasWritten data)).1 = cmd ∧
        InSync ⟨(parseRESP (s.recvBuf.hasWritten data)).2, []⟩ [] 0) ∨
      ((parseRESP (s.recvBuf.hasWritten data)).1 = [] ∧
        InSync ⟨(parseRESP (s.recvBuf.hasWritten data)).2, []⟩ [cmd] (m + data.length)) := by
  have hstream : data <+: ([cmd].flatMap encode).drop m := by simpa using hdata
  have hread : Reader.onRead ⟨s.recvBuf, []⟩ data =
      if (parseRESP (s.recvBuf.hasWritten data)).1 = [] then ⟨(parseRESP
        (s.recvBuf.hasWritten data)).2, []⟩
      else ⟨(parseRESP (s.recvBuf.hasWritten data)).2,
        [(parseRESP (s.recvBuf.hasWritten data)).1]⟩ := rfl
  have hcases := onRead_cases hsynced hcmd hfit hstream
  dsimp only at hcases
  rw [hread] at hcases
  by_cases hnil : (parseRESP (s.recvBuf.hasWritten data)).1 = []
  · rw [if_pos hnil] at hcases
    rcases hcases with ⟨-, hdisp, -⟩ | ⟨-, -, -, hsynced'⟩ | ⟨-, -, com, -, hdisp⟩
    · cases hdisp
    · exact Or.inr ⟨hnil, hsynced'⟩
    · cases hdisp
  · rw [if_neg hnil] at hcases
    rcases hcases with ⟨hwhole, hdisp, hwf, hsmall, hbytes⟩ | ⟨-, -, hdisp, -⟩ | ⟨hopen, hfirst, -⟩
    · refine Or.inl ⟨hwhole, (List.cons.inj hdisp).1, hwf, hsmall, ?_, rfl⟩
      rw [hbytes]
      simp
    · cases hdisp
    · omega

/-- A session reads some bytes. -/
theorem read (h : k.Inv es) {n : Nat} {now : UInt64} (c : Nat) {session : Session}
    (hstep : k.session.step (.read (k.wire.take n)) = some session)
    (hcut : k.wire.drop n = [] ∨
      (encode (k.sent.getLastD [])).length < firstString (k.sent.getLastD []) +
        (k.wire.drop n).length) :
    Connection.Inv { k with session := session, wire := k.wire.drop n, now := now }
      (es ++ readEffects c now session.com) := by
  have hread : (k.wire.take n ≠ [] ∧ (k.wire.take n).length ≤ k.session.recvBuf.writableSize) ∧
      k.session.onRead (k.wire.take n) = session := by
    simpa [Session.step] using hstep
  obtain ⟨⟨hne, hfit⟩, rfl⟩ := hread
  have hwire : k.wire ≠ [] := by
    rintro hnil
    exact hne (by rw [hnil, List.take_nil])
  cases h.phase with
  | idle _ _ hnil _ _ => exact absurd hnil hwire
  | running _ _ _ hnil _ _ _ => exact absurd hnil hwire
  | replying _ _ _ hnil _ _ _ => exact absurd hnil hwire
  | @sending cmd m hcmd hhops htasks hwire' hsynced hsent hwritten =>
    obtain ⟨hwriter, hcom, hbuf, hnewTasks, hnewHops⟩ := onRead_outcome hhops htasks (k.wire.take n)
    have htexts := h.texts
    rw [htasks, List.flatten_nil, List.append_nil] at htexts
    rw [hsent, List.getLastD_concat] at hcut
    have hlength : (k.wire.drop n).length = (encode cmd).length - m - n := by
      rw [hwire', List.length_drop, List.length_drop]
    have htaken : (k.wire.take n).length = min n ((encode cmd).length - m) := by
      rw [hwire', List.length_take, List.length_drop]
    have hcut' : (encode cmd).length ≤ m + (k.wire.take n).length ∨
        m + (k.wire.take n).length < firstString cmd := by
      rw [htaken]
      rcases hcut with hnil | hlt
      · have hzero := congrArg List.length hnil
        rw [hlength, List.length_nil] at hzero
        omega
      · rw [hlength] at hlt
        omega
    have hdata : k.wire.take n <+: (encode cmd).drop m := hwire' ▸ List.take_prefix n k.wire
    have hparse := parse_sending hsynced hcmd hfit hdata hcut'
    rw [← hbuf, ← hcom, htaken] at hparse
    rcases hparse with ⟨hwhole, hcmd', hsynced'⟩ | ⟨hnil, hsynced'⟩
    · have hempty : k.wire.drop n = [] := by
        rw [← List.length_eq_zero_iff, hlength]
        omega
      rw [hcmd'] at hnewTasks hnewHops ⊢
      cases himm : immediateReply cmd with
      | some r =>
        rw [himm] at hnewTasks hnewHops
        obtain ⟨y, rfl⟩ := sent_of_immediate himm
        have heffects : readEffects c now cmd = [⟨c, cmd, now, y.reply⟩] := by
          simp [readEffects, himm]
        rw [heffects]
        refine ⟨hwriter ▸ h.writer, ?_,
          .replying (build_ne_nil y) ?_ hnewTasks hempty hsynced' ?_ ?_⟩
        · show (k.session.onRead (k.wire.take n)).writer.appended ++
            (k.session.onRead (k.wire.take n)).replyTasks.flatten = _
          rw [hwriter, hnewTasks, replyTexts_snoc, htexts]
          simp
        · rcases hnewHops with ⟨hnone, -⟩ | ⟨hnever, -⟩
          · exact hnone
          · cases hnever
        · rw [List.map_append]
          exact hsent
        · exact hwriter ▸ hwritten
      | none =>
        rw [himm] at hnewTasks
        have heffects : readEffects c now cmd = [] := by simp [readEffects, himm]
        rw [heffects, List.append_nil]
        refine ⟨hwriter ▸ h.writer, ?_, .running ?_ hcmd' hnewTasks hempty hsynced' hsent ?_⟩
        · show (k.session.onRead (k.wire.take n)).writer.appended ++
            (k.session.onRead (k.wire.take n)).replyTasks.flatten = _
          rw [hwriter, hnewTasks, htexts]
          simp
        · exact hnewHops.imp (fun hnone => ⟨hnone.1, hnone.2, himm⟩) fun hmore => hmore.2.2
        · exact hwriter ▸ hwritten
    · rw [hnil] at hnewTasks hnewHops ⊢
      have heffects : readEffects c now [] = [] := rfl
      rw [heffects, List.append_nil]
      refine ⟨hwriter ▸ h.writer, ?_, .sending hcmd ?_ hnewTasks ?_ hsynced' hsent ?_⟩
      · show (k.session.onRead (k.wire.take n)).writer.appended ++
          (k.session.onRead (k.wire.take n)).replyTasks.flatten = _
        rw [hwriter, hnewTasks, htexts]
        simp [immediateReply]
      · exact (hnewHops.resolve_right fun hmore => hmore.2.1 rfl).1
      · show k.wire.drop n = _
        rw [hwire', List.drop_drop]
        by_cases hn : n ≤ (encode cmd).length - m
        · rw [Nat.min_eq_left hn]
        · rw [List.drop_eq_nil_of_le (by omega), List.drop_eq_nil_of_le (by omega)]
      · exact hwriter ▸ hwritten

/-- A shard runs the callback of a session, whose arguments are those of the command that was
    sent. -/
theorem shard (h : k.Inv es) {i : Nat} {e : Effect} {session : Session}
    (hstep : k.session.step (.shard i e.reply) = some session)
    (hsent : ∃ y : Sent, y.reply = e.reply) (hargs : e.args = k.session.com) :
    Connection.Inv { k with session := session } (es ++ [e]) := by
  have hrun : i < k.session.hops.length ∧
      { k.session with hops := k.session.hops.eraseIdx i }.sendImp e.reply.build = session := by
    simpa [Session.step] using hstep
  obtain ⟨hi, rfl⟩ := hrun
  have hbusy : k.session.hops ≠ [] := List.length_pos_iff.mp (Nat.zero_lt_of_lt hi)
  cases h.phase with
  | idle hhops _ _ _ _ => exact absurd hhops hbusy
  | sending _ hhops _ _ _ _ _ => exact absurd hhops hbusy
  | replying _ hhops _ _ _ _ _ => exact absurd hhops hbusy
  | @running cmd hhops hcom htasks hwire hsynced hsent' hwritten =>
    obtain ⟨y, hy⟩ := hsent
    obtain ⟨t, ht, hhop⟩ := hhops.resolve_left fun hnone => hbusy hnone.1
    have htexts := h.texts
    rw [htasks, List.flatten_nil, List.append_nil] at htexts
    have htask : k.session.replyTasks ++ [e.reply.build] = [e.reply.build] := by rw [htasks]; rfl
    refine ⟨h.writer, ?_, .replying (hy ▸ build_ne_nil y) ?_ htask hwire hsynced ?_ hwritten⟩
    · show k.session.writer.appended ++ (k.session.replyTasks ++ [e.reply.build]).flatten = _
      rw [htask, replyTexts_snoc, htexts]
      simp
    · show k.session.hops.eraseIdx i = []
      rw [hhop, List.length_singleton] at hi
      rw [hhop, Nat.lt_one_iff.mp hi]
      rfl
    · rw [List.map_append, List.map_singleton, hargs, hcom]
      exact hsent'

theorem reply (h : k.Inv es) {session : Session} (hstep : k.session.step .reply = some session) :
    Connection.Inv { k with session := session } es := by
  rw [Session.step] at hstep
  cases h.phase with
  | idle _ htasks _ _ _ | sending _ _ htasks _ _ _ _ | running _ _ htasks _ _ _ _ =>
    rw [htasks] at hstep
    cases hstep
  | @replying text hne hhops htasks hwire hsynced hsent hwritten =>
    rw [htasks] at hstep
    obtain rfl := Option.some.inj hstep
    have htexts := h.texts
    rw [htasks] at htexts
    refine ⟨Writer.inv_sendTask h.writer hwritten text, ?_, .idle hhops rfl hwire hsynced hsent⟩
    show (k.session.writer.sendTask text).appended ++ [] = _
    unfold Writer.sendTask
    rw [Writer.doWrite_appended, ← htexts]
    simp

/-- Only an idle session has a write that waits. -/
theorem written (h : k.Inv es) {i wr : Nat} {session : Session}
    (hstep : k.session.step (.written i wr) = some session) :
    Connection.Inv { k with session := session } es := by
  rw [Session.step] at hstep
  obtain ⟨w, hw, rfl⟩ := Option.map_eq_some_iff.mp hstep
  have hresult : ∀ text, (if wr = 0 then WriteStep.fail i else .complete i wr) ≠ .reply text := by
    intro text
    split <;> simp
  have halone : Writer.Alone k.session.writer (if wr = 0 then .fail i else .complete i wr) := by
    split <;> trivial
  obtain ⟨happended, hbusy⟩ := step_written hw hresult
  cases h.phase with
  | idle hhops htasks hwire hsynced hsent =>
    refine ⟨Writer.inv_step _ _ w h.writer halone hw, ?_, .idle hhops htasks hwire hsynced hsent⟩
    rw [← h.texts]
    exact congrArg (· ++ _) happended
  | sending _ _ _ _ _ _ hwritten => exact absurd hwritten hbusy
  | running _ _ _ _ _ _ hwritten => exact absurd hwritten hbusy
  | replying _ _ _ _ _ _ hwritten => exact absurd hwritten hbusy

end Connection.Inv

/-! ### The server -/

namespace Server

section

variable {shared : Bool} {hashInt : Int64 → UInt64} {hashStr : Bytes → UInt64}
  {selfMove : Bytes → Bytes} {fuel : Nat} {size : UInt32} {hash : Bytes → UInt64} {s s' : Server}

/-- A read is a step if its handler does not crash. -/
theorem read_eq_some {c n : Nat} {now : UInt64}
    (hstep : step shared hashInt hashStr selfMove fuel size hash s (.read c n now) = some s') :
    ∃ session, (s.connection c).session.step (.read ((s.connection c).wire.take n)) = some session ∧
      { s.setConnection c { s.connection c with
          session := session, wire := (s.connection c).wire.drop n, now := now } with
        effects := s.effects ++ readEffects c now session.com } = s' := by
  obtain ⟨session, hsession, hchecked⟩ := Option.bind_eq_some_iff.mp hstep
  refine ⟨session, hsession, ?_⟩
  split at hchecked
  · cases hchecked
  · exact Option.some.inj hchecked

theorem allSent_of_sequential {es : List Effect} {ns : PrimeNamespace}
    (h : Sequential shared hashInt hashStr selfMove fuel size hash es ns) : AllSent es := by
  induction h with
  | nil => exact fun e he => absurd he List.not_mem_nil
  | snoc _ hserve ih =>
    intro e he
    rcases List.mem_append.mp he with hold | hnew
    · exact ih e hold
    · obtain rfl := List.mem_singleton.mp hnew
      exact sent_of_serve hserve

theorem allSent_effectsOf (h : AllSent s.effects) (c : Nat) : AllSent (s.effectsOf c) :=
  fun e he => h e (List.mem_of_mem_filter he)

variable (shared hashInt hashStr selfMove fuel size hash) in
structure Inv (s : Server) : Prop where
  sequential : Sequential shared hashInt hashStr selfMove fuel size hash s.effects s.ns
  connection : ∀ c, (s.connection c).Inv (s.effectsOf c)

theorem inv_start :
    Inv shared hashInt hashStr selfMove fuel size hash (start shared hashInt hashStr) where
  sequential := .nil
  connection := fun _ => .inv_start

/-- One connection changes, and its client alone has new effects. -/
theorem Inv.connections (h : Inv shared hashInt hashStr selfMove fuel size hash s) (c : Nat)
    {k : Connection} {es : List Effect} (hes : ∀ e ∈ es, e.client = c)
    (hk : k.Inv (s.effectsOf c ++ es)) (c' : Nat) :
    (Function.update s.connection c k c').Inv
      ((s.effects ++ es).filter fun e => e.client = c') := by
  rw [List.filter_append]
  by_cases hc : c' = c
  · have hall : es.filter (fun e => decide (e.client = c')) = es :=
      List.filter_eq_self.mpr fun e he => by simp [hes e he, hc]
    rw [hall, hc, Function.update_self]
    exact hk
  · have hnone : es.filter (fun e => decide (e.client = c')) = [] :=
      List.filter_eq_nil_iff.mpr fun e he => by simpa [hes e he] using Ne.symm hc
    rw [hnone, List.append_nil, Function.update_of_ne hc]
    exact h.connection c'

/-- A step of a session without an effect. -/
theorem Inv.setConnection (h : Inv shared hashInt hashStr selfMove fuel size hash s) (c : Nat)
    {k : Connection} (hk : k.Inv (s.effectsOf c)) : Inv shared hashInt hashStr selfMove fuel size
      hash (s.setConnection c k) := by
  refine ⟨h.sequential, fun c' => ?_⟩
  have hnone : ∀ e ∈ ([] : List Effect), e.client = c := by simp
  have hconnections := h.connections c hnone (by simpa using hk) c'
  rwa [List.append_nil] at hconnections

theorem inv_step (s : Server) (a : ServerStep) (s' : Server)
    (h : Inv shared hashInt hashStr selfMove fuel size hash s) (hwaits : s.Waits a)
    (hstep : step shared hashInt hashStr selfMove fuel size hash s a = some s') : Inv shared hashInt
      hashStr selfMove fuel size hash s' := by
  cases a with
  | send c cmd =>
    obtain rfl := Option.some.inj hstep
    obtain ⟨hall, hcmd⟩ := hwaits
    have hes := allSent_effectsOf (allSent_of_sequential h.sequential) c
    exact h.setConnection c ((h.connection c).send hes hall hcmd)
  | read c n now =>
    obtain ⟨session, hsession, rfl⟩ := read_eq_some hstep
    have hclient : ∀ e ∈ readEffects c now session.com, e.client = c := by
      intro e he
      obtain ⟨r, -, rfl⟩ := List.mem_map.mp he
      rfl
    refine ⟨?_, h.connections c hclient ((h.connection c).read c hsession hwaits)⟩
    show Sequential shared hashInt hashStr selfMove fuel size hash
        (s.effects ++ readEffects c now session.com) s.ns
    unfold readEffects
    cases himm : immediateReply session.com with
    | none => simpa using h.sequential
    | some r => exact .snoc h.sequential (serve_of_immediate himm)
  | shard c i =>
    obtain ⟨⟨ns, r⟩, hserve, hmap⟩ := Option.bind_eq_some_iff.mp hstep
    obtain ⟨session, hsession, rfl⟩ := Option.map_eq_some_iff.mp hmap
    refine ⟨.snoc h.sequential hserve, h.connections c (by simp) ?_⟩
    exact (h.connection c).shard hsession (sent_of_serve hserve) rfl
  | reply c =>
    obtain ⟨session, hsession, rfl⟩ := Option.map_eq_some_iff.mp hstep
    exact h.setConnection c ((h.connection c).reply hsession)
  | written c i wr =>
    obtain ⟨session, hsession, rfl⟩ := Option.map_eq_some_iff.mp hstep
    exact h.setConnection c ((h.connection c).written hsession)

theorem Inv.linearized (h : Inv shared hashInt hashStr selfMove fuel size hash s) :
    Linearized shared hashInt hashStr selfMove fuel size hash s where
  sequential := h.sequential
  inOrder := by
    intro c
    rcases (h.connection c).sent_cases with hsent | ⟨cmd, hsent⟩
    · exact ⟨[], by rw [hsent, List.append_nil], Nat.zero_le 1⟩
    · exact ⟨[cmd], hsent, Nat.le_refl 1⟩
  received := fun c => ⟨_, (h.connection c).received_append⟩
  answered := by
    intro c hall
    have hes := allSent_effectsOf (allSent_of_sequential h.sequential) c
    obtain ⟨hsent, hreceived, -⟩ := (h.connection c).of_answered hes hall
    exact ⟨hsent, hreceived⟩

/-- **Clients that wait for their replies see one command at a time.**  After every run of any
    number of clients, sessions and shards, in which a client sends a command when it has
    read the replies to those before, and no read ends inside a command behind its first
    string, what every client has sent and got is what it would be if the commands were
    carried out one after the other, with nothing in between. -/
theorem linearized_of_run (shared : Bool) (hashInt : Int64 → UInt64) (hashStr : Bytes → UInt64)
    (selfMove : Bytes → Bytes) (fuel : Nat) (size : UInt32) (hash : Bytes → UInt64)
    {steps : List ServerStep}
    (hwaits : Along (step shared hashInt hashStr selfMove fuel size hash) Waits
      (start shared hashInt hashStr) steps)
    (hrun : run (step shared hashInt hashStr selfMove fuel size hash)
      (start shared hashInt hashStr) steps = some s) :
    Linearized shared hashInt hashStr selfMove fuel size hash s :=
  (inv_run inv_step inv_start hwaits hrun).linearized

theorem connection_of_read {c c' n : Nat} {now : UInt64}
    (hstep : step shared hashInt hashStr selfMove fuel size hash s (.read c n now) = some s')
    (hc : c' ≠ c) : s'.connection c' = s.connection c' := by
  obtain ⟨session, -, rfl⟩ := read_eq_some hstep
  exact Function.update_of_ne hc _ _

/-- Two clients: the one sets a key, the other one asks for it; their steps alternate. -/
def setAndGet : List ServerStep :=
  [.send 0 [text "SET", text "k", text "v"], .send 1 [text "GET", text "k"], .read 0 40 0,
    .read 1 40 0, .shard 0 0, .shard 1 0, .reply 1, .reply 0, .written 1 0 7, .written 0 0 5]

theorem waits_setAndGet : Along (step true (fun _ => 0) (fun _ => 0) id 1 2 fun _ => 0) Waits
    (start true (fun _ => 0) fun _ => 0) setAndGet := by
  have hanswered : ∀ s : Server, ∀ c, (s.connection c).received = [] → (s.connection c).sent = [] →
      (s.connection c).Answered := fun s c hr hs => ⟨[], by rw [hr]; rfl, by rw [hs]; rfl⟩
  refine along_cons.mpr
    ⟨⟨hanswered _ _ rfl rfl, by decide +kernel, by decide, by decide +kernel⟩, ?_⟩
  intro s₁ h₁
  obtain rfl := Option.some.inj h₁
  refine along_cons.mpr
    ⟨⟨hanswered _ _ rfl rfl, by decide +kernel, by decide, by decide +kernel⟩, ?_⟩
  intro s₂ h₂
  obtain rfl := Option.some.inj h₂
  refine along_cons.mpr ⟨Or.inl (by decide +kernel), fun s₃ h₃ => ?_⟩
  refine along_cons.mpr ⟨Or.inl ?_, fun s₄ _ => ?_⟩
  · rw [connection_of_read h₃ (by decide)]
    decide +kernel
  · exact along_cons.mpr ⟨trivial, fun _ _ => along_cons.mpr ⟨trivial, fun _ _ => along_cons.mpr
      ⟨trivial, fun _ _ => along_cons.mpr ⟨trivial, fun _ _ => along_cons.mpr ⟨trivial, fun _ _ =>
        along_cons.mpr ⟨trivial, fun _ _ => along_nil _ _⟩⟩⟩⟩⟩⟩

theorem linearized_of_run_setAndGet : ∃ s,
    run (step true (fun _ => 0) (fun _ => 0) id 1 2 fun _ => 0) (start true (fun _ => 0) fun _ => 0)
      setAndGet = some s ∧
    Linearized true (fun _ => 0) (fun _ => 0) id 1 2 (fun _ => 0) s ∧
    (s.connection 0).received = text "+OK\r\n" ∧
    (s.connection 1).received = text "$1\r\nv\r\n" := by
  have hreceived : (run (step true (fun _ => 0) (fun _ => 0) id 1 2 fun _ => 0)
      (start true (fun _ => 0) fun _ => 0) setAndGet).map
      (fun s => ((s.connection 0).received, (s.connection 1).received)) =
        some (text "+OK\r\n", text "$1\r\nv\r\n") := by decide +kernel
  obtain ⟨s, hs, hbytes⟩ := Option.map_eq_some_iff.mp hreceived
  obtain ⟨hfirst, hsecond⟩ := Prod.mk.inj hbytes
  exact ⟨s, hs, linearized_of_run _ _ _ _ _ _ _ waits_setAndGet hs, hfirst, hsecond⟩

end

end Server

end StorageEngine.Network
