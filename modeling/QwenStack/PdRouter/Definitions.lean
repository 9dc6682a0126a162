import Mathlib.Data.List.Infix
import QwenStack.Health.Definitions

/-!
# PD router — Definitions

`gateway/src/routers/http/pd_router.rs`: a request goes to a prefill worker and a decode worker at the
same time, and the answer is that of decode.  `execute_dual_dispatch_internal` does one attempt,
`execute_dual_dispatch` wraps it, and both record outcomes with the circuit breakers of the workers.
The bytes of a streamed answer pass through a `BreakerTrackedStream` (`routers/streaming_utils.rs`),
which records the outcome of decode when it is dropped.

What the workers and the client do is an argument (`Attempt`).  The bodies of the responses are left
out, with the log probabilities that are merged into them, and so are the messages beside the codes of
the errors, the metrics and the retries, which are attempts again.
-/

namespace QwenStack.PdRouter
open Health (isSuccess)

abbrev Bytes := List UInt8

/-- `StatusCode::is_client_error`. -/
def isClientError (status : Nat) : Bool := decide (400 ≤ status ∧ status < 500)

/-- `StatusCode::is_server_error`. -/
def isServerError (status : Nat) : Bool := decide (500 ≤ status ∧ status < 600)

inductive Role where
  | prefill
  | decode
  deriving DecidableEq, Repr

/-- The calls of `record_outcome`, in order. -/
abbrev Outcomes := List (Role × Bool)

/-! ### What the workers and the client do -/

/-- What the task that forwards a stream meets. -/
inductive Item where
  | chunk (bytes : Bytes)
  | error
  /-- No chunk is ready, and the client is gone. -/
  | closed
  /-- No chunk is ready, and none comes. -/
  | pending
  deriving DecidableEq, Repr

/-- `reqwest::Response`; its body is read by `bytes`, or by `bytes_stream`. -/
structure HttpResponse where
  status : Nat
  bytes : Except Unit Bytes
  /-- The items before the stream ends. -/
  stream : List Item := []

/-- What an attempt reads of `PDRequestContext`. -/
structure PDRequestContext where
  isStream : Bool
  returnLogprob : Bool
  deriving DecidableEq, Repr

structure Attempt where
  context : PDRequestContext
  /-- The request is serialized, and the bootstrap fields are injected. -/
  serialized : Bool := true
  /-- `prepare_pd_worker_requests`. -/
  prepared : Bool := true
  /-- `prefill_request.send()`. -/
  prefill : Except Unit HttpResponse
  /-- `decode_request.send()`. -/
  decode : Except Unit HttpResponse
  /-- Decode answers before prefill. -/
  decodeFirst : Bool := false
  /-- The JSON text of a decode error, for the stream. -/
  errorPayload : Bytes := []
  /-- The number of chunks that the client takes. -/
  listening : Nat := 0

/-! ### Tracked streams -/

/-- `Terminal`. -/
inductive Terminal where
  | active
  | completed
  | errored
  deriving DecidableEq, Repr

/-- `mark_completed`. -/
def Terminal.markCompleted : Terminal → Terminal
  | .active => .completed
  | t => t

/-- `data: [DONE]`. -/
def doneMarker : Bytes := "data: [DONE]".toUTF8.toList

/-- The task of `create_streaming_response`: the stream when it is dropped, if the task ends. -/
def forward : Nat → Terminal → List Item → Option Terminal
  | _, t, [] => some t.markCompleted
  | listening, t, .chunk bytes :: items =>
      let isDone := decide (doneMarker <:+: bytes)
      let t := if isDone = true then t.markCompleted else t
      match listening with
      | 0 => some t
      | listening + 1 => if isDone = true then some t else forward listening t items
  | _, _, .error :: _ => some .errored
  | _, t, .closed :: _ => some t
  | _, _, .pending :: _ => none

/-- The `Drop` of `BreakerTrackedStream`. -/
def Terminal.outcomes : Terminal → Outcomes
  | .completed => [(.decode, true)]
  | .errored => [(.decode, false)]
  | .active => []

/-- What the stream records: nothing while the task runs. -/
def streamOutcomes (listening : Nat) (terminal : Terminal) (stream : List Item) : Outcomes :=
  match forward listening terminal stream with
  | some terminal => terminal.outcomes
  | none => []

/-! ### Responses -/

structure Response where
  status : Nat
  /-- The code of an error. -/
  code : Option Str := none
  /-- The extension `BreakerOutcomesRecorded`. -/
  outcomesRecorded : Bool := false
  /-- The tracked stream behind the body. -/
  tracked : Option (Terminal × List Item) := none
  deriving DecidableEq, Repr

/-- `create_error`. -/
def createError (status : Nat) (code : String) : Response :=
  { status := status, code := some code.toList }

/-- The error that stands for a worker's: its status if it is one of five, else 500. -/
def mapError (status : Nat) (badRequest notFound internalError unavailable badGateway other : String) :
    Response :=
  if status = 400 then createError 400 badRequest
  else if status = 404 then createError 404 notFound
  else if status = 500 then createError 500 internalError
  else if status = 503 then createError 503 unavailable
  else if status = 502 then createError 502 badGateway
  else createError 500 other

/-- `process_prefill_response`: the status, and the body if it was asked for and read. -/
def processPrefillResponse (prefillResult : Except Unit HttpResponse) (returnLogprob : Bool) :
    Except Response (Nat × Option Bytes) :=
  match prefillResult with
  | .error _ => .error (createError 502 "prefill_server_error")
  | .ok prefillResponse =>
      if isSuccess prefillResponse.status = false then
        .error (mapError prefillResponse.status "prefill_bad_request" "prefill_not_found"
          "prefill_internal_error" "prefill_unavailable" "prefill_bad_gateway" "prefill_error")
      else if returnLogprob = true then
        .ok (prefillResponse.status, match prefillResponse.bytes with
          | .ok body => some body
          | .error _ => none)
      else .ok (prefillResponse.status, none)

/-- `create_streaming_response`. -/
def createStreamingResponse (stream : List Item) (status : Nat) : Response where
  status := status
  tracked := some (if isSuccess status || isClientError status then .active else .errored, stream)

/-- `data: {'error': ...}`. -/
def sseData (errorPayload : Bytes) : Bytes :=
  "data: \x7b'error': ".toUTF8.toList ++ errorPayload ++ "\x7d".toUTF8.toList

/-- `handle_decode_error_response`. -/
def handleDecodeErrorResponse (res : HttpResponse) (context : PDRequestContext)
    (errorPayload : Bytes) : Response :=
  if context.isStream = true then
    createStreamingResponse [.chunk (sseData errorPayload)] res.status
  else
    match res.bytes with
    | .ok _ => mapError res.status "decode_bad_request" "decode_not_found" "decode_internal_error"
        "decode_unavailable" "decode_bad_gateway" "decode_error"
    | .error _ => mapError res.status "decode_read_failed" "decode_read_failed" "decode_read_failed"
        "decode_read_failed" "decode_read_failed" "decode_read_failed"

/-- `process_non_streaming_response`; every way to make the body keeps the status. -/
def processNonStreamingResponse (res : HttpResponse) (status : Nat) : Response :=
  match res.bytes with
  | .ok _ => { status := status }
  | .error _ => createError 500 "read_response_failed"

/-! ### The dispatch -/

/-- `prefill_failed`. -/
@[simp] def prefillFailed : Except Unit HttpResponse → Bool
  | .ok resp => !isSuccess resp.status
  | .error _ => true

/-- `execute_dual_dispatch_internal`: the outcomes it records, and the response. -/
def executeDualDispatchInternal (a : Attempt) : Outcomes × Response :=
  if a.prepared = false then ([], createError 500 "pd_request_preparation_failed")
  else
    let decodeEarly := if a.decodeFirst = true then some a.decode else none
    if prefillFailed a.prefill = true then
      let prefillOk := match a.prefill with
        | .ok r => isClientError r.status
        | .error _ => false
      let response := match processPrefillResponse a.prefill false with
        | .error errorResponse => errorResponse
        | .ok _ => createError 502 "prefill_server_error"
      ([(.prefill, prefillOk)], { response with outcomesRecorded := true })
    else
      let decodeResult := match decodeEarly with
        | some dr => dr
        | none => a.decode
      let prefillOk := match a.prefill with
        | .ok r => isSuccess r.status || isClientError r.status
        | .error _ => false
      match decodeResult with
      | .ok res =>
          if isSuccess res.status = false then
            let decodeOk := isSuccess res.status || isClientError res.status
            let response := handleDecodeErrorResponse res a.context a.errorPayload
            ((.prefill, prefillOk) :: if a.context.isStream = true then [] else [(.decode, decodeOk)],
              { response with outcomesRecorded := true })
          else
            match processPrefillResponse a.prefill a.context.returnLogprob with
            | .error errorResponse => ([], errorResponse)
            | .ok _ =>
                if a.context.isStream = true then ([], createStreamingResponse res.stream res.status)
                else if a.context.returnLogprob = true then
                  ([], processNonStreamingResponse res res.status)
                else
                  match res.bytes with
                  | .ok _ => ([], { status := res.status })
                  | .error _ => ([], createError 500 "read_response_failed")
      | .error _ =>
          ([(.decode, false), (.prefill, prefillOk)],
            { createError 502 "decode_server_error" with outcomesRecorded := true })

/-- The outcomes of one attempt of `execute_dual_dispatch`, with the one of the tracked stream. -/
def Attempt.outcomes (a : Attempt) : Outcomes :=
  if a.serialized = false then []
  else
    let (outcomes, response) := executeDualDispatchInternal a
    let notError := isSuccess response.status || isClientError response.status
    let outer := if response.outcomesRecorded = true then []
      else (.prefill, notError) :: if a.context.isStream = true then [] else [(.decode, notError)]
    let dropped := match response.tracked with
      | some (terminal, stream) => streamOutcomes a.listening terminal stream
      | none => []
    outcomes ++ outer ++ dropped

end QwenStack.PdRouter
