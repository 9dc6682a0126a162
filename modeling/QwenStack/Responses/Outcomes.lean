import QwenStack.Responses.Handlers
import QwenStack.Responses.Indices
import QwenStack.Responses.Turns

/-!
# Tool calls of a streamed response — the outcomes for the circuit breaker

A request for a response is to leave one outcome at the breaker of its worker: a success if the last answer
of the upstream had a status of success and its body was read to the end, or to the calls of tools.

So it is for the two handlers of streams, and without tools for a response that is no stream, except that a
body which is no JSON is taken for a failure of the worker (`outcomes`).  With tools only the failures are
left there: a loop that returns a response leaves no outcome (`outcome_of_body`).
-/

namespace QwenStack.Responses

/-! ### What is read -/

/-- A status of success, and a body that was read to its end. -/
def Reply.readOut : Reply → Bool
  | .json _ | .notJson _ => true
  | _ => false

/-- The body is JSON as well. -/
def Reply.isJson : Reply → Bool
  | .json _ => true
  | _ => false

/-- A status of success, and a stream that was read to its end. -/
def Streamed.readOut : Streamed → Bool
  | .body b => b.error.isNone
  | _ => false

/-- A status of success, and a stream that was read to its end or to the calls of tools. -/
def Interception.readOut (ctx : Context) (s : Interception) : Answer → Bool
  | .stream events error => error.isNone || (s.send.start.run ctx events).2
  | _ => false

/-! ### The passthrough -/

namespace Forwarder
variable {ctx : Context}

theorem terminal_ingest (s : Forwarder) (e : Event) : (s.ingest ctx e).terminal = s.terminal := by
  rw [ingest]
  split <;> rfl

theorem terminal_readChunk (s : Forwarder) (events : List Event) :
    (s.readChunk ctx events).terminal = s.terminal := by
  have hfold : ∀ (events : List Event) (s : Forwarder),
      (events.foldl (forwardBlock ctx) s).terminal = s.terminal := by
    intro events
    induction events with
    | nil => exact fun _ => rfl
    | cons e events ih => exact fun s => (ih _).trans (terminal_ingest s _)
  exact hfold events _

/-- The stream is active until its end. -/
theorem terminal_chunks (chunks : List (List Event)) (s : Forwarder) :
    (chunks.foldl (readChunk ctx) s).terminal = s.terminal := by
  induction chunks generalizing s with
  | nil => rfl
  | cons events chunks ih => exact (ih _).trans (terminal_readChunk s events)

theorem drop_readBody (b : Body) : (readBody ctx b).terminal.drop = [b.error.isNone] := by
  have hactive : (b.chunks.foldl (readChunk ctx) {}).terminal = .active := terminal_chunks b.chunks {}
  rw [readBody, readEnd]
  split
  · next e he =>
    rw [he]
    cases (b.chunks.foldl (readChunk ctx) {}).terminal <;> rfl
  · next he =>
    rw [he]
    split
    · rw [terminal_ingest, hactive]
      rfl
    · rw [hactive]
      rfl

end Forwarder

/-- **The passthrough** leaves one outcome. -/
theorem recorded_passthrough (ctx : Context) (answer : Streamed) :
    (handleSimpleStreamingPassthrough ctx answer).recorded = [answer.readOut] := by
  cases answer with
  | unreachable e => rfl
  | refused status body => rfl
  | body b => exact Forwarder.drop_readBody b

/-! ### The loops -/

namespace Interception
variable {ctx : Context} {basePayload : Value} {s : Interception}

/-- Nothing is recorded while the loop goes on. -/
theorem recorded_of_goesOn {s' : Interception} {answers : List Answer} (hs : s.recorded = [])
    (h : s.run ctx basePayload answers = (s', true)) : s'.recorded = [] := by
  have hrun := run_rule ctx basePayload answers (P := fun _ s => s.recorded = []) (Q := fun _ => True)
    (fun past answer s s' _ hs hturn => by
      cases hturn with
      | resumed hrun hlimit hresume =>
        exact (callTools_recorded ..).trans hs)
    (fun _ _ _ _ _ _ _ => trivial) hs
  rw [h] at hrun
  exact hrun

/-- One outcome is, when it ends. -/
theorem recorded_of_ended {s' : Interception} {answer : Answer} (hs : s.recorded = [])
    (hturn : Turned ctx basePayload s answer (s', false)) :
    s'.recorded = [s.readOut ctx answer] := by
  have hone : ∀ outcome, s.recorded ++ [outcome] = [outcome] := fun outcome => by
    rw [hs, List.nil_append]
  cases hturn with
  | failed message hanswer =>
    rcases hanswer with ⟨e, rfl⟩ | ⟨status, body, rfl⟩ <;> exact hone false
  | exceeded hrun hlimit =>
    rw [readOut, hrun, Bool.or_true]
    exact hone true
  | @unresumed events error stream message hrun hlimit hresume =>
    rw [readOut, hrun, Bool.or_true]
    have hcalled : (called ctx s stream).recorded = s.recorded := callTools_recorded ..
    exact (congrArg (· ++ [true]) hcalled).trans (hone true)
  | broken hrun =>
    rw [readOut, hrun]
    exact hone false
  | completed hrun =>
    rw [complete_recorded]
    exact hone true

/-- **The streaming loop** leaves one outcome. -/
theorem recorded_run {ctx : Context} {payload : Value} {answers : List Answer}
    (hended : (runFrom ctx payload answers).2 = false) :
    ∃ past answer, past ++ [answer] <+: answers ∧ (runFrom ctx payload past).2 = true ∧
      (runFrom ctx payload (past ++ [answer])).2 = false ∧
      (runFrom ctx payload answers).1.recorded = [(runFrom ctx payload past).1.readOut ctx answer] := by
  rw [runFrom] at hended ⊢
  cases hrun : run ctx payload { currentPayload := payload } answers with
  | mk s' goesOn =>
    rw [hrun] at hended
    obtain rfl : goesOn = false := hended
    obtain ⟨past, answer, s, hle, hpast, hended, hturn⟩ := run_last hrun
    refine ⟨past, answer, hle, ?_⟩
    rw [runFrom, runFrom, hpast, hended]
    exact ⟨rfl, rfl, recorded_of_ended (recorded_of_goesOn rfl hpast) hturn⟩

end Interception

/-- With tools, an answer that is no JSON leaves one failure. -/
theorem recorded_withTools {ctx : Context} {payload : Value} {replies : List Reply}
    {handled : Handled (Except Failure Value)}
    (h : handleWithTools ctx payload replies = some handled) :
    ∃ past reply, past ++ [reply] <+: replies ∧ (ToolLoop.runFrom ctx payload past).2 = none ∧
      (ToolLoop.runFrom ctx payload (past ++ [reply])).2.isSome = true ∧
      (reply.isJson = false → handled.recorded = [false]) := by
  obtain ⟨result, hresult, rfl⟩ := Option.map_eq_some_iff.mp h
  cases hrun : ToolLoop.runFrom ctx payload replies with
  | mk s' result' =>
    rw [hrun] at hresult
    obtain rfl : result' = some result := hresult
    obtain ⟨past, reply, s, hle, hpast, hended, hturn⟩ := ToolLoop.run_last hrun
    refine ⟨past, reply, hle, congrArg Prod.snd hpast,
      congrArg Option.isSome (congrArg Prod.snd hended), fun hjson => ?_⟩
    cases hturn with
    | failed message hreply => rfl
    | exceeded _ hcall hlimit => cases hjson
    | unresumed hcall hlimit hresume => cases hjson
    | completed _ hcall => cases hjson

/-- **The outcomes**: one for each run that ends, for the answer that it ends with; a body that is no JSON is
a failure.  Of a loop with tools that is no stream, only those that end with an answer that is no JSON. -/
theorem outcomes (ctx : Context) (payload : Value) :
    (∀ reply, (handleWithoutTools ctx reply).recorded = [reply.isJson]) ∧
    (∀ replies handled, handleWithTools ctx payload replies = some handled →
      ∃ past reply, past ++ [reply] <+: replies ∧ (ToolLoop.runFrom ctx payload past).2 = none ∧
        (ToolLoop.runFrom ctx payload (past ++ [reply])).2.isSome = true ∧
        (reply.isJson = false → handled.recorded = [false])) ∧
    (∀ answer, (handleSimpleStreamingPassthrough ctx answer).recorded = [answer.readOut]) ∧
    ∀ answers, (Interception.runFrom ctx payload answers).2 = false →
      ∃ past answer, past ++ [answer] <+: answers ∧
        (Interception.runFrom ctx payload past).2 = true ∧
        (Interception.runFrom ctx payload (past ++ [answer])).2 = false ∧
        (Interception.runFrom ctx payload answers).1.recorded =
          [(Interception.runFrom ctx payload past).1.readOut ctx answer] := by
  refine ⟨fun reply => ?_, fun _ _ h => recorded_withTools h, recorded_passthrough ctx,
    fun _ hended => Interception.recorded_run hended⟩
  cases reply <;> rfl

/-- A body that was read to its end leaves a failure when it is no JSON, and with tools no outcome. -/
theorem outcome_of_body :
    (∃ reply, reply.readOut = true ∧ (handleWithoutTools plainContext reply).recorded = [false]) ∧
    ∃ reply, reply.readOut = true ∧
      (handleWithTools plainContext (.object []) [reply]).map Handled.recorded = some [] :=
  ⟨⟨.notJson [], rfl, rfl⟩, .json (.object []), rfl, rfl⟩

end QwenStack.Responses
