/-
  StorageEngine/Network/Dictionary.lean
  =====================================
  **What the clients see of the store.**

  Clients that send `SET` without options, `GET`, `DEL` and `EXISTS`, and wait for their
  replies, talk to one dictionary: neither the sessions nor the shards nor their tables can
  be told from the bytes that they get, as long as every new key finds its place.
-/
import StorageEngine.Network.Server

namespace StorageEngine.Network

open StorageEngine.Redis StorageEngine.Command StorageEngine.Sharding StorageEngine.StepMachine

variable {shared : Bool} {hashInt : Int64 → UInt64} {hashStr : Bytes → UInt64}
  {selfMove : Bytes → Bytes} {fuel : Nat} {size : UInt32} {hash : Bytes → UInt64} {now : UInt64}
  {ns ns' : PrimeNamespace} {rep : Reply}

/-! ### One request -/

/-- The request without the flags of its options. -/
def plain : Request → Request
  | .set key value _ => .set key value 0
  | r => r

theorem onDictionary_plain (r : Request) (d : Dictionary) :
    (plain r).onDictionary d = r.onDictionary d := by
  cases r <;> rfl

theorem placeable_plain (r : Request) :
    (plain r).Placeable shared hashInt hashStr fuel size hash ns ↔
      r.Placeable shared hashInt hashStr fuel size hash ns := by
  cases r <;> exact Iff.rfl

/-- No argument is left for the options of a `SET`. -/
theorem parse_no_options (key value : Bytes) {p : ParseResult}
    (h : WhileLoop.run parseSetParamsRound fuel
      ((CmdArgParser.nextTwo { args := [key, value] }).2, {}) = some p) : p = .params {} := by
  rw [nextTwo_eq] at h
  cases fuel with
  | zero => cases h
  | succ fuel =>
    have hround := parseSetParamsRound_nil [key, value] {}
    rw [WhileLoop.run, hround] at h
    exact (Option.some.inj h).symm

/-- A command whose handler suspends is served by a callback. -/
theorem callback_of_serve {name : Bytes} {args : List Bytes} {ci : CommandId}
    (hfind : find name = some ci) (hsuspends : ci.handler.invoke (name :: args) = .suspends)
    (h : serve shared hashInt hashStr selfMove fuel size hash now (name :: args) ns =
      some (ns', rep)) :
    ∃ cb x, ci.handler.awaits shared hashInt hashStr selfMove fuel (name :: args) = .callback cb ∧
      runCallback size hash now (name :: args) cb ns = some (ns', x) ∧ x.reply = some rep := by
  unfold serve at h
  simp only [hfind, hsuspends] at h
  split at h
  · rename_i cb hcb
    obtain ⟨⟨_, x⟩, hrun, hreply⟩ := Option.bind_eq_some_iff.mp h
    obtain ⟨r, hr, heq⟩ := Option.map_eq_some_iff.mp hreply
    obtain ⟨rfl, rfl⟩ := Prod.mk.inj heq
    exact ⟨cb, x, hcb, hrun, hr⟩
  · cases h

/-- The handler of a request runs its callback. -/
theorem serve_request {r : Request}
    (h : serve shared hashInt hashStr selfMove fuel size hash now r.args ns = some (ns', rep)) :
    ∃ x, runPrime shared hashInt hashStr selfMove fuel size hash ns (now, plain r) =
      some (ns', x) ∧ x.reply = some rep := by
  cases r with
  | set key value flags =>
    have hfind : find (text "SET") = some ⟨text "SET", -3, 1, 1, .set⟩ := rfl
    obtain ⟨cb, x, hcb, hrun, hreply⟩ := callback_of_serve hfind rfl h
    simp only [Handler.awaits] at hcb
    split at hcb
    · cases hcb
    · rename_i p hparse
      obtain rfl := ParseResult.params.inj (parse_no_options key value hparse)
      obtain rfl := Await.callback.inj hcb
      exact ⟨x, hrun, hreply⟩
    · cases hcb
  | get key =>
    have hfind : find (text "GET") = some ⟨text "GET", 2, 1, 1, .get⟩ := rfl
    obtain ⟨cb, x, hcb, hrun, hreply⟩ := callback_of_serve hfind rfl h
    obtain rfl := Await.callback.inj hcb
    exact ⟨x, hrun, hreply⟩
  | del key rest =>
    have hfind : find (text "DEL") = some ⟨text "DEL", -2, 1, -1, .delex⟩ := rfl
    obtain ⟨cb, x, hcb, hrun, hreply⟩ := callback_of_serve hfind rfl h
    obtain rfl := Await.callback.inj hcb
    exact ⟨x, hrun, hreply⟩
  | «exists» key rest =>
    have hfind : find (text "EXISTS") = some ⟨text "EXISTS", -2, 1, -1, .exists⟩ := rfl
    obtain ⟨cb, x, hcb, hrun, hreply⟩ := callback_of_serve hfind rfl h
    obtain rfl := Await.callback.inj hcb
    exact ⟨x, hrun, hreply⟩

def IsRequest (cmd : List Bytes) : Prop := ∃ r : Request, r.args = cmd

/-- A request is not replied to without its callback. -/
theorem immediateReply_request (r : Request) : immediateReply r.args = none := by
  cases r <;> rfl

namespace Server

/-! ### The requests of a run -/

/-- Every command that a client has sent is a request. -/
def Requests (s : Server) : Prop := ∀ c, ∀ cmd ∈ (s.connection c).sent, IsRequest cmd

theorem requests_step {s s' : Server} {a : ServerStep} (h : s.Requests)
    (ha : ∀ c cmd, a = .send c cmd → IsRequest cmd)
    (hstep : step shared hashInt hashStr selfMove fuel size hash s a = some s') :
    s'.Requests := by
  have hsame : ∀ {c k}, k.sent = (s.connection c).sent → ∀ c', ∀ cmd ∈
      (Function.update s.connection c k c').sent, IsRequest cmd := by
    intro c k hk c' cmd hcmd
    by_cases hc : c' = c
    · rw [hc, Function.update_self, hk] at hcmd
      exact h c cmd hcmd
    · rw [Function.update_of_ne hc] at hcmd
      exact h c' cmd hcmd
  cases a with
  | send c cmd =>
    obtain rfl := Option.some.inj hstep
    intro c' cmd' hcmd
    change cmd' ∈ (Function.update s.connection c _ c').sent at hcmd
    by_cases hc : c' = c
    · rw [hc, Function.update_self] at hcmd
      rcases List.mem_append.mp hcmd with hold | hnew
      · exact h c cmd' hold
      · obtain rfl := List.mem_singleton.mp hnew
        exact ha c cmd' rfl
    · rw [Function.update_of_ne hc] at hcmd
      exact h c' cmd' hcmd
  | read c n now =>
    obtain ⟨session, -, rfl⟩ := read_eq_some hstep
    exact hsame rfl
  | shard c i =>
    obtain ⟨out, -, hmap⟩ := Option.bind_eq_some_iff.mp hstep
    obtain ⟨session, -, rfl⟩ := Option.map_eq_some_iff.mp hmap
    exact hsame rfl
  | reply c =>
    obtain ⟨session, -, rfl⟩ := Option.map_eq_some_iff.mp hstep
    exact hsame rfl
  | written c i wr =>
    obtain ⟨session, -, rfl⟩ := Option.map_eq_some_iff.mp hstep
    exact hsame rfl

/-- What was carried out for the clients are requests. -/
theorem isRequest_of_mem {s : Server} (hinv : Inv shared hashInt hashStr selfMove fuel size hash s)
    (hreq : s.Requests) : ∀ e ∈ s.effects, IsRequest e.args := by
  intro e he
  obtain ⟨rest, hsent, -⟩ := hinv.linearized.inOrder e.client
  refine hreq e.client e.args ?_
  rw [hsent]
  exact List.mem_append_left _ (List.mem_map_of_mem (List.mem_filter.mpr ⟨he, by simp⟩))

variable (hashStr size hash) in
/-- The requests that were carried out have the replies of a dictionary, and the tables hold it. -/
def Answers (s : Server) : Prop :=
  ∃ rs d xs, rs.map Request.args = s.effects.map Effect.args ∧
    run stepDictionary (∅, []) rs = some (d, xs) ∧
    xs.map Result.reply = s.effects.map (fun e => some e.reply) ∧
    ∃ ns, Stored hashStr s.ns ns ∧ Divides size hash ns d

variable (shared hashInt hashStr fuel size hash) in
/-- The key of a `SET` that a shard runs finds its place. -/
def Places (s : Server) : ServerStep → Prop
  | .shard c _ =>
    let args := (s.connection c).session.com
    args.head? = some (text "SET") → FindsPlace shared hashInt hashStr fuel
      (s.ns (shard size (hash (firstArg args)))).prime (firstArg args)
  | _ => True

instance (s : Server) : ∀ a, Decidable (Places shared hashInt hashStr fuel size hash s a)
  | .shard _ _ => inferInstanceAs (Decidable (_ = _ → FindsPlace _ _ _ _ _ _))
  | .send _ _ | .read _ _ _ | .reply _ | .written _ _ _ => inferInstanceAs (Decidable True)

theorem Places.placeable {s : Server} {c i : Nat} {r : Request}
    (h : Places shared hashInt hashStr fuel size hash s (.shard c i))
    (hr : r.args = (s.connection c).session.com) :
    r.Placeable shared hashInt hashStr fuel size hash s.ns := by
  unfold Places at h
  dsimp only at h
  rw [← hr] at h
  cases r with
  | set key value flags => exact h rfl
  | get _ | del _ _ | «exists» _ _ => trivial

theorem answers_start : Answers hashStr size hash (start shared hashInt hashStr) :=
  ⟨[], ∅, [], rfl, rfl, rfl, _, stored_new, divides_new⟩

/-- One more request is answered by the dictionary. -/
theorem Answers.snoc {s s' : Server} (h : Answers hashStr size hash s) {e : Effect} {r : Request}
    (hr : r.args = e.args) (hplace : r.Placeable shared hashInt hashStr fuel size hash s.ns)
    (hserve : serve shared hashInt hashStr selfMove fuel size hash e.now e.args s.ns =
      some (s'.ns, e.reply)) (heffects : s'.effects = s.effects ++ [e]) :
    Answers hashStr size hash s' := by
  obtain ⟨rs, d, xs, hargs, hrun, hreplies, ns, hstored, hdivides⟩ := h
  rw [← hr] at hserve
  obtain ⟨x, hx, hreply⟩ := serve_request hserve
  obtain ⟨hstored', hresult⟩ := hstored.runPrime ((placeable_plain r).mpr hplace) hx
  obtain ⟨hdivides', hresult'⟩ := hdivides.runCommand e.now (plain r)
  rw [onDictionary_plain] at hdivides' hresult'
  refine ⟨rs ++ [r], _, xs ++ [(r.onDictionary d).2], ?_, ?_, ?_, _, hstored', hdivides'⟩
  · rw [heffects, List.map_append, List.map_append, hargs, List.map_singleton, hr]
    rfl
  · exact run_append_eq_some.mpr ⟨_, hrun, rfl⟩
  · rw [heffects, List.map_append, List.map_append, hreplies, List.map_singleton, ← hresult',
      ← hresult, hreply]
    rfl

theorem answers_step {s s' : Server} {a : ServerStep} (h : Answers hashStr size hash s)
    (hplaces : Places shared hashInt hashStr fuel size hash s a)
    (hrequests : ∀ e ∈ s'.effects, IsRequest e.args)
    (hstep : step shared hashInt hashStr selfMove fuel size hash s a = some s') :
    Answers hashStr size hash s' := by
  cases a with
  | send c cmd =>
    obtain rfl := Option.some.inj hstep
    exact h
  | read c n now =>
    obtain ⟨session, -, rfl⟩ := read_eq_some hstep
    -- What a read carries out by itself would be a request, and no request is replied to then.
    have hnone : readEffects c now session.com = [] := by
      unfold readEffects at hrequests ⊢
      cases himm : immediateReply session.com with
      | none => rfl
      | some r =>
        rw [himm] at hrequests
        obtain ⟨r', hr'⟩ := hrequests ⟨c, session.com, now, r⟩ (by simp)
        have hnever := immediateReply_request r'
        rw [hr', himm] at hnever
        cases hnever
    rw [hnone, List.append_nil]
    exact h
  | shard c i =>
    obtain ⟨⟨ns', r⟩, hserve, hmap⟩ := Option.bind_eq_some_iff.mp hstep
    obtain ⟨session, hsession, rfl⟩ := Option.map_eq_some_iff.mp hmap
    obtain ⟨r', hr'⟩ := hrequests ⟨c, (s.connection c).session.com, (s.connection c).now, r⟩
      (by simp)
    exact h.snoc (e := ⟨c, (s.connection c).session.com, (s.connection c).now, r⟩) hr'
      (hplaces.placeable hr') hserve rfl
  | reply c =>
    obtain ⟨session, -, rfl⟩ := Option.map_eq_some_iff.mp hstep
    exact h
  | written c i wr =>
    obtain ⟨session, -, rfl⟩ := Option.map_eq_some_iff.mp hstep
    exact h

/-- **The clients see one dictionary.**  If the clients send requests only, and wait for their
    replies, and every new key finds its place, then there is an order of all requests that were
    carried out, with those of a client in the order in which it has sent them, such that every
    client has got the first bytes of the replies that a dictionary gives in that order. -/
theorem clients_see_dictionary (shared : Bool) (hashInt : Int64 → UInt64)
    (hashStr : Bytes → UInt64) (selfMove : Bytes → Bytes) (fuel : Nat) (size : UInt32)
    (hash : Bytes → UInt64) {steps : List ServerStep} {s : Server}
    (hrequests : ∀ c cmd, .send c cmd ∈ steps → IsRequest cmd)
    (hwaits : Along (step shared hashInt hashStr selfMove fuel size hash)
      (fun s a => s.Waits a ∧ Places shared hashInt hashStr fuel size hash s a)
      (start shared hashInt hashStr) steps)
    (hrun : run (step shared hashInt hashStr selfMove fuel size hash)
      (start shared hashInt hashStr) steps = some s) :
    ∃ rs d xs, run stepDictionary (∅, []) rs = some (d, xs) ∧
      rs.map Request.args = s.effects.map Effect.args ∧
      xs.map Result.reply = s.effects.map (fun e => some e.reply) ∧
      ∀ c, (∃ rest, (s.connection c).sent = (s.effectsOf c).map Effect.args ++ rest ∧
          rest.length ≤ 1) ∧
        (s.connection c).received <+: (s.effectsOf c).flatMap fun e => e.reply.build := by
  have halong : Along (step shared hashInt hashStr selfMove fuel size hash)
      (fun s a => (s.Waits a ∧ Places shared hashInt hashStr fuel size hash s a) ∧
        ∀ c cmd, a = .send c cmd → IsRequest cmd) (start shared hashInt hashStr) steps := by
    rintro before a after t rfl ht
    refine ⟨hwaits before a after t rfl ht, ?_⟩
    rintro c cmd rfl
    exact hrequests c cmd (by simp)
  have hinv : Inv shared hashInt hashStr selfMove fuel size hash s ∧ s.Requests ∧
      Answers hashStr size hash s := by
    refine @inv_run _ _ _ (fun s => Inv shared hashInt hashStr selfMove fuel size hash s ∧
      s.Requests ∧ Answers hashStr size hash s) _ ?_ _ _ _
      ⟨inv_start, fun c cmd hcmd => absurd hcmd List.not_mem_nil, answers_start⟩ halong hrun
    rintro t a t' ⟨ht, hreq, hans⟩ ⟨⟨hwait, hplaces⟩, ha⟩ hstep
    have ht' := inv_step t a t' ht hwait hstep
    have hreq' := requests_step hreq ha hstep
    exact ⟨ht', hreq', answers_step hans hplaces (isRequest_of_mem ht' hreq') hstep⟩
  obtain ⟨hserver, -, rs, d, xs, hargs, hdict, hreplies, -⟩ := hinv
  exact ⟨rs, d, xs, hdict, hargs, hreplies, fun c =>
    ⟨hserver.linearized.inOrder c, hserver.linearized.received c⟩⟩

theorem clients_see_dictionary_setAndGet : ∃ s rs d xs,
    run (step true (fun _ => 0) (fun _ => 0) id 1 2 fun _ => 0) (start true (fun _ => 0) fun _ => 0)
      setAndGet = some s ∧
    run stepDictionary (∅, []) rs = some (d, xs) ∧
    rs.map Request.args = s.effects.map Effect.args ∧
    (s.connection 1).received = text "$1\r\nv\r\n" := by
  have hsome : (run (step true (fun _ => 0) (fun _ => 0) id 1 2 fun _ => 0)
      (start true (fun _ => 0) fun _ => 0) setAndGet).map (fun s => (s.connection 1).received) =
      some (text "$1\r\nv\r\n") := by decide +kernel
  obtain ⟨s, hs, hreceived⟩ := Option.map_eq_some_iff.mp hsome
  have hrequests : ∀ c cmd, .send c cmd ∈ setAndGet → IsRequest cmd := by
    intro c cmd hmem
    simp only [setAndGet, List.mem_cons, ServerStep.send.injEq, List.not_mem_nil, reduceCtorEq,
      or_false] at hmem
    rcases hmem with ⟨-, rfl⟩ | ⟨-, rfl⟩
    · exact ⟨.set (text "k") (text "v") 0, rfl⟩
    · exact ⟨.get (text "k"), rfl⟩
  have hplaces : Along (step true (fun _ => 0) (fun _ => 0) id 1 2 fun _ => 0)
      (Places true (fun _ => 0) (fun _ => 0) 1 2 fun _ => 0) (start true (fun _ => 0) fun _ => 0)
      setAndGet := by decide +kernel
  obtain ⟨rs, d, xs, hdict, hargs, -⟩ := clients_see_dictionary _ _ _ _ _ _ _ hrequests
    (fun before a after t heq ht =>
      ⟨waits_setAndGet before a after t heq ht, hplaces before a after t heq ht⟩) hs
  exact ⟨s, rs, d, xs, hs, hdict, hargs, hreceived⟩

end Server

end StorageEngine.Network
