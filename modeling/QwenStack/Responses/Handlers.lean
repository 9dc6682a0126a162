import QwenStack.Responses.ToolLoop

/-!
# Tool calls of a streamed response — the handlers

`handle_non_streaming_response` of `non_streaming.rs`, `handle_simple_streaming_passthrough` of
`streaming.rs` and `BreakerTrackedStream` of `streaming_utils.rs`, from the request to the upstream on: what
is recorded for the circuit breaker, what is stored, and what the client gets.
-/

namespace QwenStack.Responses

/-! ### The tracked stream -/

/-- The state of a `BreakerTrackedStream`. -/
inductive Terminal where
  | active
  | completed
  | errored
  deriving DecidableEq, Repr

/-- What a poll of the stream gives. -/
inductive Polled where
  | chunk
  | error
  | ended
  deriving DecidableEq, Repr

namespace Terminal

/-- `poll_next`. -/
def pollNext : Terminal → Polled → Terminal
  | t, .chunk => t
  | _, .error => errored
  | active, .ended => completed
  | t, .ended => t

/-- `drop`: what is recorded. -/
def drop : Terminal → List Bool
  | completed => [true]
  | errored => [false]
  | active => []

end Terminal

/-! ### The passthrough -/

/-- The body of a stream: the events that each chunk completes, an unfinished block at the end, and the
error with which it breaks off. -/
structure Body where
  chunks : List (List Event)
  remaining : Option Event
  error : Option Str

/-- What a request for a stream is answered with. -/
inductive Streamed where
  | unreachable (error : Str)
  | refused (status body : Str)
  | body (b : Body)

/-- The forwarder of `handle_simple_streaming_passthrough`. -/
structure Forwarder where
  terminal : Terminal := .active
  accumulator : Accumulator := {}
  channel : List (Except Str Event) := []

namespace Forwarder
variable (ctx : Context) (s : Forwarder)

/-- What is accumulated, if anything is to be stored. -/
def ingest (e : Event) : Forwarder :=
  if Interception.persistNeeded ctx.request = true then
    { s with accumulator := s.accumulator.ingest ctx.types.toEventTypes e }
  else s

def forwardBlock (e : Event) : Forwarder :=
  let block := rewriteStreamingBlock ctx.types ctx.request ctx.previousResponseId e
  { s.ingest ctx block with channel := s.channel ++ [.ok block] }

def readChunk (events : List Event) : Forwarder :=
  events.foldl (forwardBlock ctx) { s with terminal := s.terminal.pollNext .chunk }

/-- The end of the body; what remains is accumulated as it came. -/
def readEnd (b : Body) : Forwarder :=
  match b.error with
  | some e =>
      { s with terminal := s.terminal.pollNext .error, channel := s.channel ++ [.error e] }
  | none =>
      let s := { s with terminal := s.terminal.pollNext .ended }
      match b.remaining with
      | some e => s.ingest ctx e
      | none => s

def readBody (b : Body) : Forwarder := (b.chunks.foldl (readChunk ctx) {}).readEnd ctx b

end Forwarder

/-- What a handler comes to: the outcomes for the breaker, what is stored, and what the client gets. -/
structure Handled (α : Type) where
  recorded : List Bool
  persisted : Option Value
  response : α

/-- A response with a status that is no success. -/
structure Failure where
  status : Str
  message : Str

/-- `handle_simple_streaming_passthrough`. -/
def handleSimpleStreamingPassthrough (ctx : Context) :
    Streamed → Handled (Except Failure (List (Except Str Event)))
  | .unreachable e =>
      { recorded := [false]
        persisted := none
        response := .error ⟨"502".toList, "Failed to forward request to OpenAI: ".toList ++ e⟩ }
  | .refused status body =>
      { recorded := [false], persisted := none, response := .error ⟨status, body⟩ }
  | .body b =>
      let s := Forwarder.readBody ctx b
      { recorded := s.terminal.drop
        persisted :=
          if Interception.persistNeeded ctx.request = true ∧ b.error = none then
            s.accumulator.finalResponse.map
              (patchResponseWithRequestMetadata ctx.request ctx.previousResponseId)
          else none
        response := .ok s.channel }

/-! ### Without a stream -/

/-- A response for the client, which is stored as well. -/
def respond (ctx : Context) (recorded : List Bool) (response : Value) :
    Handled (Except Failure Value) :=
  let response := patchResponseWithRequestMetadata ctx.request ctx.previousResponseId
    (maskToolsAsMcp ctx.request response)
  { recorded := recorded, persisted := some response, response := .ok response }

/-- `handle_non_streaming_response` without tools. -/
def handleWithoutTools (ctx : Context) : Reply → Handled (Except Failure Value)
  | .unreachable e =>
      { recorded := [false]
        persisted := none
        response := .error ⟨"502".toList, "Failed to forward request to OpenAI: ".toList ++ e⟩ }
  | .refused status body =>
      { recorded := [false], persisted := none, response := .error ⟨status, body⟩ }
  | .broken e | .notJson e =>
      { recorded := [false]
        persisted := none
        response := .error ⟨"500".toList, "Failed to parse upstream response: ".toList ++ e⟩ }
  | .json response => respond ctx [true] response

/-- `handle_non_streaming_response` with tools; there is no response while the loop goes on. -/
def handleWithTools (ctx : Context) (payload : Value) (replies : List Reply) :
    Option (Handled (Except Failure Value)) :=
  (ToolLoop.runFrom ctx payload replies).2.map fun
    | .ok response => respond ctx [] response
    | .error e =>
        { recorded := [false], persisted := none, response := .error ⟨"500".toList, e⟩ }

end QwenStack.Responses
