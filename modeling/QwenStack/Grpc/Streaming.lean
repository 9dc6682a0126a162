import QwenStack.Grpc.Emitter
import QwenStack.Support.BTreeMap

/-!
# Responses over chat — the streams

`gateway/src/routers/grpc/regular/responses/streaming.rs`: without MCP tools the stream of one chat is
turned into that of the response; with them the tool loop asks for one stream after another, shows what
comes, and puts each together again to see what is called.

A stream is the list of its blocks.  Kept with a run are the responses that `persist_response_if_needed` is
called with.
-/

namespace QwenStack.Grpc
open Harmony (ToolCall FunctionCallResponse ToolCallDelta)

/-! ### What a stream adds up to -/

/-- `StreamingResponseAccumulator`. -/
structure StreamingResponseAccumulator where
  responseId : Str := []
  model : Str := []
  createdAt : Int := 0
  contentBuffer : Str := []
  reasoningBuffer : Str := []
  toolCalls : List ToolCall := []
  finishReason : Option Str := none
  usage : Option Usage := none

/-- A call before its first delta. -/
def emptyCall : ToolCall := ⟨[], "function".toList, ⟨[], some []⟩⟩

/-- A delta is added to a call; its id and its name are, too. -/
def pushDelta (delta : ToolCallDelta) (call : ToolCall) : ToolCall where
  id := call.id ++ delta.id.getD []
  toolType := call.toolType
  function := {
    name := call.function.name ++ (delta.function.bind (·.name)).getD []
    arguments := some (call.function.arguments.getD [] ++ (delta.function.bind (·.arguments)).getD []) }

/-- The calls up to an index. -/
def padCalls (index : Nat) (calls : List ToolCall) : List ToolCall :=
  calls ++ List.replicate (index + 1 - calls.length) emptyCall

namespace StreamingResponseAccumulator
variable (acc : StreamingResponseAccumulator)

def processToolCall (delta : ToolCallDelta) : StreamingResponseAccumulator :=
  { acc with toolCalls := (padCalls delta.index acc.toolCalls).modify delta.index (pushDelta delta) }

def processChoice (choice : ChunkChoice) : StreamingResponseAccumulator :=
  let acc := { acc with
    contentBuffer := acc.contentBuffer ++ choice.text
    reasoningBuffer := acc.reasoningBuffer ++ choice.delta.reasoningContent.getD [] }
  let acc := (choice.delta.toolCalls.getD []).foldl processToolCall acc
  { acc with finishReason := choice.finishReason.or acc.finishReason }

/-- `process_chunk`. -/
def processChunk (chunk : ChatChunk) : StreamingResponseAccumulator :=
  let acc := if acc.responseId = [] then
      { acc with responseId := chunk.id, model := chunk.model, createdAt := chunk.created }
    else acc
  let acc := match chunk.choices with
    | [] => acc
    | choice :: _ => acc.processChoice choice
  { acc with usage := chunk.usage.or acc.usage }

/-- A call as it is stored: its call id stays empty. -/
def storedCall (call : ToolCall) : OutputItem :=
  .functionToolCall call.id [] call.function.name (call.function.arguments.getD []) none
    "in_progress".toList

/-- `finalize`. -/
def finalize : ResponsesResponse where
  id := acc.responseId
  model := acc.model
  createdAt := acc.createdAt
  status := statusOf acc.finishReason
  output := messageItems acc.responseId (some acc.contentBuffer) ++
    reasoningItems acc.responseId (some acc.reasoningBuffer) ++ acc.toolCalls.map storedCall
  usage := acc.usage

end StreamingResponseAccumulator

/-- `ChatResponseAccumulator`; the calls are read in the order of their indices only. -/
structure ChatResponseAccumulator where
  id : Str := []
  model : Str := []
  content : Str := []
  reasoningContent : Option Str := none
  toolCalls : BTreeMap Nat ToolCall := .empty
  finishReason : Option Str := none
  usage : Option Usage := none

/-- A delta of a call: its id and its name replace what there was. -/
def applyDelta (delta : ToolCallDelta) (call : ToolCall) : ToolCall where
  id := delta.id.getD call.id
  toolType := call.toolType
  function := {
    name := (delta.function.bind (·.name)).getD call.function.name
    arguments := call.function.arguments.map (· ++ (delta.function.bind (·.arguments)).getD []) }

namespace ChatResponseAccumulator
variable (acc : ChatResponseAccumulator)

def processToolCall (delta : ToolCallDelta) : ChatResponseAccumulator :=
  let call := (acc.toolCalls.get delta.index).getD emptyCall
  { acc with toolCalls := acc.toolCalls.insert delta.index (applyDelta delta call) }

def processChoice (choice : ChunkChoice) : ChatResponseAccumulator :=
  let acc := { acc with
    content := acc.content ++ choice.text
    reasoningContent := match choice.delta.reasoningContent with
      | some reasoning => some (acc.reasoningContent.getD [] ++ reasoning)
      | none => acc.reasoningContent }
  let acc := (choice.delta.toolCalls.getD []).foldl processToolCall acc
  { acc with finishReason := choice.finishReason.or acc.finishReason }

/-- `process_chunk`. -/
def processChunk (chunk : ChatChunk) : ChatResponseAccumulator :=
  let acc := { acc with
    id := if chunk.id = [] then acc.id else chunk.id
    model := if chunk.model = [] then acc.model else chunk.model }
  let acc := match chunk.choices with
    | [] => acc
    | choice :: _ => acc.processChoice choice
  { acc with usage := chunk.usage.or acc.usage }

/-- The calls, if there are any. -/
def calls : Option (List ToolCall) :=
  if acc.toolCalls.entries.isEmpty = true then none else some (acc.toolCalls.entries.map Prod.snd)

/-- `finalize`. -/
def finalize : ChatCompletionResponse where
  id := acc.id
  model := acc.model
  choices := [{
    message := {
      content := if acc.content = [] then none else some acc.content
      toolCalls := acc.calls
      reasoningContent := acc.reasoningContent }
    finishReason := acc.finishReason }]
  usage := acc.usage

end ChatResponseAccumulator

/-! ### One chat -/

/-- The error of a stream that breaks. -/
def readError (e : Str) : Halt := .failed ("Stream read error: ".toList ++ e)

/-- The usage, with the reasoning tokens if they are to be shown. -/
def usageJson (withReasoning : Bool) (u : Usage) : Value :=
  .ofMembers ([("input_tokens", .integer u.promptTokens), ("output_tokens", .integer u.completionTokens),
      ("total_tokens", .integer u.totalTokens)] ++
    match withReasoning, u.reasoningTokens with
    | true, some tokens =>
        [("output_tokens_details", .ofMembers [("reasoning_tokens", .integer tokens)])]
    | _, _ => [])

/-- The stream of a response, with what is stored of it. -/
structure Streamed where
  client : Client
  persisted : List ResponsesResponse := []

/-- The stream of a chat while it is turned. -/
structure Transform where
  accumulator : StreamingResponseAccumulator := {}
  client : Client

section Transforming
variable (uuid : Nat → Str)

/-- A block of the chat; the result is how the stream ended. -/
def Transform.step (s : Transform) : Frame → Transform × Option (Option Halt)
  | .chunk chunk =>
      let (client, halt) := s.client.processChunk uuid chunk
      ({ accumulator := s.accumulator.processChunk chunk, client := client }, halt.map some)
  | .error event => ({ s with client := s.client.send (.passed event true) }, none)
  | .other event => ({ s with client := s.client.send (.passed event false) }, none)
  | .done => (s, some none)
  | .broken e => (s, some (some (readError e)))

/-- The first events of a response. -/
def Client.begin (emitter : Emitter) : Client :=
  ((Client.mk emitter []).emit (·.emitCreated)).emit (·.emitInProgress)

/-- `process_and_transform_sse_stream`, with what it returns. -/
def processAndTransformSseStream (emitter : Emitter) (body : List Frame) : Streamed × Option Halt :=
  match Until.runUntil (Transform.step uuid) { client := .begin emitter } body with
  | (s, some (some halt)) => ({ client := s.client }, some halt)
  | (s, _) =>
      let usage := s.accumulator.usage.map (usageJson true)
      ({ client := s.client.emit (·.emitCompleted usage), persisted := [s.accumulator.finalize] }, none)

/-- The end of the task that streams: an error is sent, and `[DONE]`, unless it panicked. -/
def Streamed.finish (kind : Str) : Streamed × Option Halt → Streamed
  | (s, none) => { s with client := s.client.send .done }
  | (s, some (.failed message)) =>
      { s with client := (s.client.send (.failure message kind)).send .done }
  | (s, some .panic) => s

/-- `convert_chat_stream_to_responses_stream`. -/
def convertChatStreamToResponsesStream (emitter : Emitter) (body : List Frame) : Streamed :=
  Streamed.finish "stream_error".toList (processAndTransformSseStream uuid emitter body)

end Transforming

/-! ### The tool loop -/

/-- The stream of a turn while it is put together. -/
structure Accumulation where
  accumulator : ChatResponseAccumulator := {}
  client : Client

/-- A block of the chat; the result is how the stream ended. -/
def Accumulation.step (uuid : Nat → Str) (s : Accumulation) : Frame → Accumulation × Option (Option Halt)
  | .chunk chunk =>
      match s.client.processChunk uuid chunk with
      | (client, none) =>
          ({ accumulator := s.accumulator.processChunk chunk, client := client }, none)
      | (client, some halt) => ({ s with client := client }, some (some halt))
  | .error _ => (s, none)
  | .other _ => (s, none)
  | .done => (s, some none)
  | .broken e => (s, some (some (readError e)))

/-- `convert_and_accumulate_stream`. -/
def convertAndAccumulateStream (uuid : Nat → Str) (client : Client) (body : List Frame) :
    Client × Except Halt ChatCompletionResponse :=
  match Until.runUntil (Accumulation.step uuid) { client := client } body with
  | (s, some (some halt)) => (s.client, .error halt)
  | (s, _) => (s.client, .ok s.accumulator.finalize)

/-- How the loop ends: with the final answer, at the limit, with calls for the caller, or not in order. -/
inductive LoopEnd where
  | final | limit | functionCalls
  | halted (halt : Halt)
  deriving DecidableEq, Repr

/-- What the loop returns. -/
def LoopEnd.halt : LoopEnd → Option Halt
  | .halted halt => some halt
  | _ => none

/-- The streaming loop between its turns. -/
structure StreamLoop where
  loop : ToolLoop
  client : Client
  mcpListToolsEmitted : Bool := false

namespace Client
variable (uuid : Nat → Str) (c : Client)

/-- The events of the list of tools. -/
def emitMcpListTools (serverLabel : Str) (mcpTools : List McpTool) : Client :=
  let (outputIndex, itemId, c) := c.allocate uuid .mcpListTools
  let c := c.emit (·.emitOutputItemAdded outputIndex
    (.mcpListTools itemId serverLabel "in_progress".toList []))
  let c := c.emit (·.emitMcpListToolsInProgress outputIndex)
  let c := c.emit (·.emitMcpListToolsCompleted outputIndex mcpTools)
  let c := c.emit (·.emitOutputItemDone outputIndex
    (.mcpListTools itemId serverLabel "completed".toList mcpTools))
  c.update (·.completeOutputItem outputIndex)

/-- The events of a call that ended. -/
def emitCallEnd (outputIndex : Nat) (itemId serverLabel : Str) (call : ExtractedToolCall) (output : Str)
    (error : Option Str) : Client :=
  let c := match error with
    | none =>
        let c := c.emit (·.emitMcpCallCompleted outputIndex itemId)
        c.emit (·.emitOutputItemDone outputIndex (.mcpCall itemId none call.name (some serverLabel)
          "completed".toList call.arguments (some output) none))
    | some err =>
        let c := c.emit (·.emitMcpCallFailed outputIndex itemId err)
        c.emit (·.emitOutputItemDone outputIndex (.mcpCall itemId none call.name (some serverLabel)
          "failed".toList call.arguments none (some err)))
  c.update (·.completeOutputItem outputIndex)

/-- The events of a call of an MCP tool. -/
def emitMcpCall (serverLabel : Str) (call : ExtractedToolCall) (output : Str) (error : Option Str) :
    Client :=
  let (outputIndex, itemId, c) := c.allocate uuid .mcpCall
  let c := c.emit (·.emitOutputItemAdded outputIndex
    (.mcpCall itemId none call.name (some serverLabel) "in_progress".toList [] none none))
  let c := c.emit (·.emitMcpCallInProgress outputIndex itemId)
  let c := c.emit (·.emitMcpCallArgumentsDelta outputIndex itemId call.arguments)
  let c := c.emit (·.emitMcpCallArgumentsDone outputIndex itemId call.arguments)
  c.emitCallEnd outputIndex itemId serverLabel call output error

/-- The events of a call that is left to the caller. -/
def emitFunctionCall (call : ExtractedToolCall) : Client :=
  let (outputIndex, itemId, c) := c.allocate uuid .functionCall
  let c := c.emit (·.emitOutputItemAdded outputIndex
    (.functionCall "function_tool_call".toList itemId call.callId call.name "in_progress".toList []))
  let c := c.emit (·.emitFunctionCallArgumentsDelta outputIndex itemId call.arguments)
  let c := c.emit (·.emitFunctionCallArgumentsDone outputIndex itemId call.arguments)
  let c := c.emit (·.emitOutputItemDone outputIndex
    (.functionCall "function_tool_call".toList itemId call.callId call.name "completed".toList
      call.arguments))
  c.update (·.completeOutputItem outputIndex)

/-- The reasoning of the final answer, if it has any. -/
def emitReasoning (reasoning : Option Str) : Client :=
  match reasoning with
  | none => c
  | some reasoning => if reasoning = [] then c else c.emitReasoningItem uuid (some reasoning)

end Client

/-- The reasoning of a chat response. -/
def ChatCompletionResponse.reasoning (response : ChatCompletionResponse) : Option Str :=
  response.choices.head?.bind fun choice => choice.message.reasoningContent

namespace StreamLoop
variable (ctx : LoopContext) (callTool : List (Str × Str) → CallResult) (s : StreamLoop)

/-- The tools are listed once. -/
def listTools : StreamLoop :=
  if s.mcpListToolsEmitted = true then s
  else
    { s with
      client := s.client.emitMcpListTools ctx.uuid s.loop.state.serverLabel ctx.mcpTools
      mcpListToolsEmitted := true }

/-- A tool is called, and the call is shown. -/
def execute (call : ExtractedToolCall) : StreamLoop :=
  let (output, _, error) := (callTool (s.loop.callsWith call)).outcome
  { s with
    client := s.client.emitMcpCall ctx.uuid s.loop.state.serverLabel call output error
    loop := s.loop.execute ctx callTool call }

/-- The calls that are left to the caller are shown. -/
def handBack (calls : List ExtractedToolCall) : StreamLoop :=
  { s with client := calls.foldl (Client.emitFunctionCall ctx.uuid) s.client }

/-- The final answer. -/
def final (response : ChatCompletionResponse) : StreamLoop :=
  let client := s.client.emitReasoning ctx.uuid response.reasoning
  { s with client := client.emit (·.emitCompleted (response.usage.map (usageJson false))) }

/-- A turn after the stream of the model. -/
def afterAnswer (response : ChatCompletionResponse) : StreamLoop × Option LoopEnd :=
  let toolCalls := extractAllToolCallsFromChat response
  if toolCalls = [] then (s.final ctx response, some .final)
  else if ctx.limit < s.loop.state.totalCalls + (ctx.mcpToolCalls toolCalls).length then
    (s, some .limit)
  else
    let s := (ctx.mcpToolCalls toolCalls).foldl (execute ctx callTool) s
    if ctx.functionToolCalls toolCalls ≠ [] then
      (s.handBack ctx (ctx.functionToolCalls toolCalls), some .functionCalls)
    else ({ s with loop := s.loop.next ctx }, none)

/-- A turn of `execute_tool_loop_streaming_internal`. -/
def turn (world : World (List Frame)) : StreamLoop × Option LoopEnd :=
  let s := { s with loop := s.loop.iterate }
  if defaultMaxIterations < s.loop.state.iteration then
    (s, some (.halted (.failed ("Tool loop exceeded maximum iterations (".toList ++
      ((toString defaultMaxIterations).toList ++ ")".toList)))))
  else
    let s := s.listTools ctx
    match s.loop.chatRequest ctx with
    | .error e => (s, some (.halted (.failed ("Failed to convert request: ".toList ++ e))))
    | .ok request =>
        let s := { s with loop := s.loop.ask request }
        match convertAndAccumulateStream ctx.uuid s.client (world.chat s.loop.asked) with
        | (client, .error halt) => ({ s with client := client }, some (.halted halt))
        | (client, .ok response) =>
            { s with client := client }.afterAnswer ctx world.callTool response

/-- The loop before its first turn. -/
def start (emitter : Emitter) (modifiedRequest : ResponsesRequest) : StreamLoop where
  loop := ToolLoop.start ctx modifiedRequest
  client := .begin emitter

end StreamLoop

/-- `execute_tool_loop_streaming_internal`, for as many turns. -/
def executeToolLoopStreamingInternal (ctx : LoopContext) (world : World (List Frame)) (turns : Nat)
    (emitter : Emitter) (modifiedRequest : ResponsesRequest) : StreamLoop × Option LoopEnd :=
  Until.loop (fun s => s.turn ctx world) turns (StreamLoop.start ctx emitter modifiedRequest)

/-- `execute_tool_loop_streaming`; nothing is stored. -/
def executeToolLoopStreaming (ctx : LoopContext) (world : World (List Frame)) (turns : Nat)
    (emitter : Emitter) (modifiedRequest : ResponsesRequest) : Option Streamed :=
  match executeToolLoopStreamingInternal ctx world turns emitter modifiedRequest with
  | (_, none) => none
  | (s, some loopEnd) =>
      some (Streamed.finish "tool_loop_error".toList ({ client := s.client }, loopEnd.halt))

end QwenStack.Grpc
