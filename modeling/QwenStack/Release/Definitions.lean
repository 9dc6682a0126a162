import QwenStack.Harmony.ResponsesStream

/-!
# Worker streams — Definitions

`gateway/src/routers/grpc`: `regular/streaming.rs`, `harmony/streaming.rs`, `common/response_collection.rs`,
`regular/processor.rs` and `harmony/processor.rs`: a request is answered from one stream of a worker, or
from two, that of the prefill and that of the decode.  A stream that is dropped aborts the request at its
worker, unless it was marked as completed.

What is done with a message of a stream, and after its end, is a parameter (`Processor`).  It may fail at
each of them: an answer cannot be parsed, or the client is gone.  Kept of a request is what came of it and
which of its streams were marked (`Fates`).
-/

namespace QwenStack.Release
open Grpc (ErrorResponse)

/-! ### Streams -/

/-- `ProtoResponseVariant`. -/
inductive Variant (κ γ : Type) where
  | chunk (chunk : κ)
  | complete (complete : γ)
  | error (message : Str)
  | none

/-- What `next` gives until the end of the stream; each may be an error of the transport instead. -/
abbrev ProtoStream (κ γ : Type) := List (Except Str (Variant κ γ))

/-- `ExecutionResult`. -/
inductive ExecutionResult (κ γ : Type) where
  | single (stream : ProtoStream κ γ)
  | dual (prefill decode : ProtoStream κ γ)
  | embedding

/-- What came of a request, and whether each of the streams it has was marked. -/
structure Fates (ε ρ : Type) where
  result : Except ε ρ
  prefill : Option Bool := none
  stream : Option Bool := none

/-- The request failed, and nothing is marked of the streams it has. -/
def Fates.failed {ε ρ : Type} (e : ε) (hasPrefill : Bool) : Fates ε ρ where
  result := .error e
  prefill := if hasPrefill = true then some false else none
  stream := some false

/-- What a processor does with the messages of a stream. -/
structure Processor (σ κ γ ρ : Type) where
  start : Except Str σ
  chunk : σ → κ → Except Str σ
  complete : σ → γ → Except Str σ
  /-- A message that says nothing. -/
  nothing : σ → σ := fun s => s
  /-- What is left to be done after the end of the stream. -/
  conclude : σ → Except Str ρ

/-- How the errors of a stream are reported. -/
structure Texts where
  transport : Str
  server : Str

/-- The end of an expression that may fail. -/
def succeeds {ε ρ : Type} : Except ε ρ → Bool
  | .ok _ => true
  | .error _ => false

section Processing
variable {σ κ γ ρ : Type}

namespace Processor
variable (P : Processor σ κ γ ρ) (texts : Texts)

/-- The messages of a stream. -/
def read (s : σ) : ProtoStream κ γ → Except Str σ
  | [] => .ok s
  | .error e :: _ => .error (texts.transport ++ e)
  | .ok (.error message) :: _ => .error (texts.server ++ message)
  | .ok .none :: rest => read (P.nothing s) rest
  | .ok (.chunk chunk) :: rest =>
      match P.chunk s chunk with
      | .error e => .error e
      | .ok s => read s rest
  | .ok (.complete complete) :: rest =>
      match P.complete s complete with
      | .error e => .error e
      | .ok s => read s rest

/-- A stream, from its first message to its end. -/
def readStream (stream : ProtoStream κ γ) : Except Str σ :=
  match P.start with
  | .error e => .error e
  | .ok s => P.read texts s stream

/-- A stream that is marked when all is done. -/
def process (stream : ProtoStream κ γ) : Fates Str ρ :=
  match P.readStream texts stream with
  | .error e => .failed e false
  | .ok s =>
      match P.conclude s with
      | .error e => .failed e false
      | .ok r => { result := .ok r, stream := some true }

end Processor

/-! ### `regular/streaming.rs` -/

/-- The errors of a worker are passed on as they are. -/
def regularTexts : Texts := ⟨"Stream error: ".toList, []⟩

/-- `process_streaming_chunks`. -/
def processStreamingChunks (P : Processor σ κ γ ρ) (stream : ProtoStream κ γ) : Fates Str ρ :=
  P.process regularTexts stream

/-- `process_generate_streaming`. -/
def processGenerateStreaming (P : Processor σ κ γ ρ) (stream : ProtoStream κ γ) : Fates Str ρ :=
  P.process regularTexts stream

/-- `process_generate_streaming_with_input_logprobs`. -/
def processGenerateStreamingWithInputLogprobs (P : Option γ → Processor σ κ γ ρ)
    (inputTokenLogprobs : Option γ) (stream : ProtoStream κ γ) : Fates Str ρ :=
  (P inputTokenLogprobs).process regularTexts stream

/-- The first answer of a prefill stream; what comes after it is not read. -/
def awaitPrefill : ProtoStream κ γ → Except Str (Option γ)
  | [] => .ok none
  | .error e :: _ => .error ("Prefill stream error: ".toList ++ e)
  | .ok (.complete complete) :: _ => .ok (some complete)
  | .ok (.error message) :: _ => .error ("Prefill error: ".toList ++ message)
  | .ok _ :: rest => awaitPrefill rest

/-- The prefill stream is read only if its log probabilities are wanted. -/
def inputLogprobs (wanted : Bool) (prefill : ProtoStream κ γ) : Except Str (Option γ) :=
  if wanted = true then awaitPrefill prefill else .ok none

/-- The prefill stream is marked with the decode stream. -/
def Fates.withPrefill (f : Fates Str ρ) : Fates Str ρ :=
  { f with prefill := some (succeeds f.result) }

/-- `process_dual_streaming_chunks`. -/
def processDualStreamingChunks (logprobs : Bool) (P : Processor σ κ γ ρ)
    (prefill decode : ProtoStream κ γ) : Fates Str ρ :=
  match inputLogprobs logprobs prefill with
  | .error e => .failed e true
  | .ok _ => (processStreamingChunks P decode).withPrefill

/-- `process_generate_streaming_dual`. -/
def processGenerateStreamingDual (returnLogprob : Bool) (P : Option γ → Processor σ κ γ ρ)
    (prefill decode : ProtoStream κ γ) : Fates Str ρ :=
  match inputLogprobs returnLogprob prefill with
  | .error e => .failed e true
  | .ok inputTokenLogprobs =>
      (processGenerateStreamingWithInputLogprobs P inputTokenLogprobs decode).withPrefill

/-- `process_streaming_response`. -/
def processStreamingResponse (logprobs : Bool) (P : Processor σ κ γ ρ) :
    ExecutionResult κ γ → Fates Str ρ
  | .single stream => processStreamingChunks P stream
  | .dual prefill decode => processDualStreamingChunks logprobs P prefill decode
  | .embedding => { result := .error "Embeddings not supported in streaming mode".toList }

/-- `process_streaming_generate`. -/
def processStreamingGenerate (returnLogprob : Bool) (P : Processor σ κ γ ρ)
    (dualP : Option γ → Processor σ κ γ ρ) : ExecutionResult κ γ → Fates Str ρ
  | .single stream => processGenerateStreaming P stream
  | .dual prefill decode => processGenerateStreamingDual returnLogprob dualP prefill decode
  | .embedding => { result := .error "Embeddings not supported in streaming generate".toList }

/-! ### `harmony/streaming.rs` -/

def decodeTexts : Texts := ⟨"Decode stream error: ".toList, "Server error: ".toList⟩

/-- `process_single_stream`. -/
def processSingleStream (P : Processor σ κ γ ρ) (stream : ProtoStream κ γ) : Fates Str ρ :=
  P.process ⟨"Stream error: ".toList, "Server error: ".toList⟩ stream

/-- The answers of a prefill stream, to its end; an error of the worker is none of them. -/
def prefillCompletes : ProtoStream κ γ → Except Str (List γ)
  | [] => .ok []
  | .error e :: _ => .error ("Prefill stream error: ".toList ++ e)
  | .ok (.complete complete) :: rest => (prefillCompletes rest).map (complete :: ·)
  | .ok _ :: rest => prefillCompletes rest

/-- `process_dual_stream`: both are marked before the usage is sent. -/
def processDualStream (P : List γ → Processor σ κ γ ρ) (prefill decode : ProtoStream κ γ) :
    Fates Str ρ :=
  match prefillCompletes prefill with
  | .error e => .failed e true
  | .ok completes =>
      match (P completes).readStream decodeTexts decode with
      | .error e => .failed e true
      | .ok s => { result := (P completes).conclude s, prefill := some true, stream := some true }

/-- `process_streaming_chat_response` of a Harmony model. -/
def processStreamingChatResponse (P : Processor σ κ γ ρ) (dualP : List γ → Processor σ κ γ ρ) :
    ExecutionResult κ γ → Fates Str ρ
  | .single stream => processSingleStream P stream
  | .dual prefill decode => processDualStream dualP prefill decode
  | .embedding => { result := .error "Embeddings not supported in Harmony streaming".toList }

/-- `process_decode_stream_with_tool_lookup`: the stream is marked before its result is made. -/
def processDecodeStreamWithToolLookup (P : Processor σ κ γ ρ) (decode : ProtoStream κ γ) : Fates Str ρ :=
  match P.readStream decodeTexts decode with
  | .error e => .failed e false
  | .ok s => { result := P.conclude s, stream := some true }

/-- `process_responses_dual_stream_mixed`: the prefill stream is marked whatever comes of the other. -/
def processResponsesDualStreamMixed (P : Processor σ κ γ ρ) (prefill decode : ProtoStream κ γ) :
    Fates Str ρ :=
  match prefillCompletes prefill with
  | .error e => .failed e true
  | .ok _ => { processDecodeStreamWithToolLookup P decode with prefill := some true }

/-- `process_responses_iteration_stream`. -/
def processResponsesIterationStream (P : Processor σ κ γ ρ) : ExecutionResult κ γ → Fates Str ρ
  | .single stream => processDecodeStreamWithToolLookup P stream
  | .dual prefill decode => processResponsesDualStreamMixed P prefill decode
  | .embedding => { result := .error "Embeddings not supported in Responses API streaming".toList }

/-! ### `common/response_collection.rs` -/

/-- `collect_stream_responses`. -/
def collectStreamResponses (workerName : Str) : ProtoStream κ γ → Except ErrorResponse (List γ)
  | [] => .ok []
  | .error e :: _ =>
      .error (Harmony.internalError "worker_stream_failed".toList
        (workerName ++ " stream failed: ".toList ++ e))
  | .ok (.error message) :: _ =>
      .error (Harmony.internalError "worker_generation_failed".toList
        (workerName ++ " generation failed: ".toList ++ message))
  | .ok (.complete complete) :: rest => (collectStreamResponses workerName rest).map (complete :: ·)
  | .ok _ :: rest => collectStreamResponses workerName rest

/-- The end of a collection: there has to be an answer. -/
def someResponse (responses : List γ) : Except ErrorResponse (List γ) :=
  if responses.isEmpty = true then
    .error (Harmony.internalError "no_responses_from_server".toList "No responses from server".toList)
  else .ok responses

/-- `collect_responses`; the streams are marked once they are read. -/
def collectResponses (merge : List γ → List γ → List γ) : ExecutionResult κ γ → Fates ErrorResponse (List γ)
  | .single stream =>
      match collectStreamResponses "Single".toList stream with
      | .error e => .failed e false
      | .ok responses => { result := someResponse responses, stream := some true }
  | .dual prefill decode =>
      match collectStreamResponses "Prefill".toList prefill with
      | .error e => .failed e true
      | .ok prefillResponses =>
          match collectStreamResponses "Decode".toList decode with
          | .error e => .failed e true
          | .ok decodeResponses =>
              { result := someResponse (merge prefillResponses decodeResponses)
                prefill := some true
                stream := some true }
  | .embedding =>
      { result := .error (Harmony.internalError "invalid_execution_mode".toList
          "Embedding result encountered in response collection".toList) }

/-- A request that is not streamed: what is made of its answers. -/
def processCollected (merge : List γ → List γ → List γ) (make : List γ → Except ErrorResponse ρ)
    (result : ExecutionResult κ γ) : Fates ErrorResponse ρ :=
  let collected := collectResponses merge result
  { collected with
    result := match collected.result with
      | .error e => .error e
      | .ok responses => make responses }

end Processing

/-! ### The responses of a Harmony model -/

section Harmony
open Harmony

variable {σ : Type} (p : ContentParser σ) (start : Except Str σ) (uuid callUuid : Nat → Str)
  (mcpToolNames : List Str)

/-- What is made of the answers of a response that is not streamed, the first of them. -/
def responsesIteration (drawn : Nat) (requestId model : Str) (created : Int)
    (responses : List GenerateComplete) : Except ErrorResponse ResponsesIterationResult :=
  match responses with
  | [] =>
      .error (internalError "no_responses_from_server".toList "No responses from server".toList)
  | complete :: _ =>
      processResponsesIteration p start callUuid drawn requestId model created complete

end Harmony

end QwenStack.Release
