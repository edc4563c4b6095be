import Embyr.WriteHandlers

/-!
# The Write stream

`run_write_session` (`grpc/write_stream.rs`) with everything that ends it: the client's stream
closes or breaks, a message lacks the current token, an error, a response that cannot be sent.

* `writeSession` — the session, with a record of each message it takes up.
* `write_stream_sequenced` — each message carries the token of the response before it.
-/

namespace Embyr

open Program

/-- What the client's stream gives: a message, or the status it breaks off with. -/
inductive Incoming where
  | message (message : WriteRequest)
  | failed (status : Status)

/-- A message that was taken up, the token it had to carry, the token of the response or the
status that ends the stream, and whether the response could be sent. -/
structure Turn where
  message : WriteRequest
  token : String
  outcome : Except Status String
  sent : Bool

section Session

variable (project : ProjectId) (identity : Option AuthContext) (sent : ℕ → Bool)

/-- The loop of `run_write_session`; `sent n` tells whether response `n` can be sent. -/
def writeLoop : ℕ → String → List Incoming → Prog Call.Answer Empty (List Turn)
  -- a broken stream ends the session as a closed one does; its status is only passed on
  | _, _, [] | _, _, .failed _ :: _ => .ok []
  | n, token, .message message :: incoming => do
    match ← (writeMessage project identity token message).attempt with
    | .error status => return [⟨message, token, .error status, sent n⟩]
    | .ok (next, _) =>
      if sent n then
        let turns ← writeLoop (n + 1) next incoming
        return ⟨message, token, .ok next, true⟩ :: turns
      else return [⟨message, token, .ok next, false⟩]

/-- `run_write_session`: the token of the handshake, which is response 0, and the turns. -/
def writeSession (incoming : List Incoming) : Prog Call.Answer Empty (String × List Turn) := do
  let token ← Prog.ask Call.newStreamToken
  if sent 0 then
    let turns ← writeLoop project identity sent 1 token incoming
    return (token, turns)
  else return (token, [])

end Session

/-- A turn after another: the earlier message carried its token and was answered with the token
of the later turn, and the answer was sent. -/
def Turn.Continues (earlier turn : Turn) : Prop :=
  earlier.message.streamToken = earlier.token ∧ earlier.outcome = .ok turn.token ∧
    earlier.sent = true

/-- The turns take up the first messages of the stream, one after the other. -/
structure Sequenced (token : String) (incoming : List Incoming) (turns : List Turn) : Prop where
  taken : turns.map (fun turn => .message turn.message) <+: incoming
  first : ∀ turn ∈ turns.head?, turn.token = token
  chain : turns.IsChain Turn.Continues

section Main

variable {project : ProjectId} {identity : Option AuthContext} {sent : ℕ → Bool}

theorem sequenced_nil {token : String} {incoming : List Incoming} :
    Sequenced token incoming [] :=
  ⟨List.nil_prefix, nofun, .nil⟩

/-- A message that is answered with a token carried the one before. -/
theorem writeMessage_yields_token (token : String) (message : WriteRequest) :
    (writeMessage project identity token message).Yields
      fun _ => message.streamToken = token := by
  intro _
  by_cases h : message.streamToken = token
  · exact .of_forall (fun _ => h) _
  · rw [if_pos h]
    trivial

/-- What one turn adds to the turns after it. -/
theorem Sequenced.cons {token next : String} {incoming : List Incoming} {turns : List Turn}
    {message : WriteRequest} {went : Bool} (h : Sequenced next incoming turns)
    (htoken : message.streamToken = token) (hsent : turns = [] ∨ went = true) :
    Sequenced token (.message message :: incoming) (⟨message, token, .ok next, went⟩ :: turns) := by
  refine ⟨(List.prefix_cons_inj _).mpr h.taken, fun turn hturn => ?_, ?_⟩
  · cases hturn
    rfl
  · refine List.isChain_cons.mpr ⟨fun turn hturn => ?_, h.chain⟩
    rcases hsent with rfl | rfl
    · cases hturn
    · exact ⟨htoken, congrArg Except.ok (h.first turn hturn).symm, rfl⟩

theorem writeLoop_yields (n : ℕ) (token : String) (incoming : List Incoming) :
    (writeLoop project identity sent n token incoming).Yields (Sequenced token incoming) := by
  induction incoming generalizing n token with
  | nil => exact sequenced_nil
  | cons first incoming ih =>
    cases first with
    | failed status => exact sequenced_nil
    | message message =>
      refine .bind (writeMessage_yields_token token message).attempt fun outcome houtcome => ?_
      rcases outcome with status | ⟨next, results⟩
      · refine ⟨(List.prefix_cons_inj _).mpr List.nil_prefix, fun turn hturn => ?_, .singleton _⟩
        cases hturn
        rfl
      · have htoken := houtcome _ rfl
        by_cases hsent : sent n = true
        · simp only [if_pos hsent]
          exact .bind (ih (n + 1) next) fun turns hturns => hturns.cons htoken (.inr rfl)
        · simp only [if_neg hsent]
          exact sequenced_nil.cons htoken (.inl rfl)

/-- The state a session leaves is that of its turns' messages, each handled once and in order. -/
theorem run_writeLoop {W : Type} (answer : (q : Call) → W → q.Answer × W) (n : ℕ) (token : String)
    (incoming : List Incoming) (w : W) :
    ∃ turns, (writeLoop project identity sent n token incoming).run answer w =
      (.ok turns, turns.foldl (fun w turn =>
        ((writeMessage project identity turn.token turn.message).run answer w).2) w) := by
  induction incoming generalizing n token w with
  | nil => exact ⟨[], rfl⟩
  | cons first incoming ih =>
    cases first with
    | failed status => exact ⟨[], rfl⟩
    | message message =>
      rw [writeLoop, Prog.run_bind, Prog.run_attempt]
      rcases hrun : (writeMessage project identity token message).run answer w with
        ⟨status | ⟨next, results⟩, w'⟩
      · refine ⟨[⟨message, token, .error status, sent n⟩], Prod.ext rfl ?_⟩
        exact (congrArg Prod.snd hrun).symm
      · by_cases hsent : sent n = true
        · obtain ⟨turns, hturns⟩ := ih (n + 1) next w'
          refine ⟨⟨message, token, .ok next, true⟩ :: turns, ?_⟩
          simp only [if_pos hsent, Prog.run_bind, hturns, List.foldl_cons, hrun]
          rfl
        · refine ⟨[⟨message, token, .ok next, false⟩], ?_⟩
          simp only [if_neg hsent, List.foldl_cons, hrun]
          rfl

/-- **The stream is sequenced.** Without the token in force a message is announced and refused.
The session handles the first messages of the stream, once each and in order, and nothing else.
Each had to carry the token of the handshake or of the response before, which was sent; so nothing
follows a wrong token, an error or a response that was not sent, and with distinct tokens an older
one is wrong. -/
theorem write_stream_sequenced (project : ProjectId) (identity : Option AuthContext)
    (sent : ℕ → Bool) (incoming : List Incoming) {W : Type}
    (answer : (q : Call) → W → q.Answer × W) (w : W) :
    (∀ token message, message.streamToken ≠ token →
      ∃ status, writeMessage project identity token message =
        .call (.received (writeNames message.writes)) fun _ => .error status) ∧
    ∃ token turns, (writeSession project identity sent incoming).run answer w =
        (.ok (token, turns), turns.foldl (fun w turn =>
          ((writeMessage project identity turn.token turn.message).run answer w).2)
            (answer .newStreamToken w).2) ∧
      Sequenced token incoming turns ∧ (sent 0 = false → turns = []) ∧
      ((turns.map Turn.token).Nodup → turns.Pairwise fun earlier turn =>
        turn.message.streamToken = earlier.token → turn.message.streamToken ≠ turn.token) := by
  refine ⟨fun token message h => ?_, ?_⟩
  · exact ⟨_, congrArg (Prog.call _) (funext fun _ => if_pos h)⟩
  · let asked := answer .newStreamToken w
    by_cases hsent : sent 0 = true
    · obtain ⟨turns, hturns⟩ :=
        @run_writeLoop project identity sent W answer 1 asked.1 incoming asked.2
      refine ⟨asked.1, turns, ?_, (writeLoop_yields 1 asked.1 incoming).run hturns, ?_⟩
      · change (if sent 0 = true then _ else _ : Prog Call.Answer Empty _).run answer asked.2 = _
        rw [if_pos hsent]
        exact Prog.run_bind_ok answer hturns
      · refine ⟨fun hlost => absurd hsent (by simp [hlost]), fun hnodup => ?_⟩
        exact (List.pairwise_map.mp hnodup).imp fun hne holder hcurrent =>
          hne (holder.symm.trans hcurrent)
    · refine ⟨asked.1, [], ?_, sequenced_nil, fun _ => rfl, fun _ => .nil⟩
      change (if sent 0 = true then _ else _ : Prog Call.Answer Empty _).run answer asked.2 = _
      rw [if_neg hsent]
      rfl

end Main

end Embyr
