import QwenStack.Grpc.Streaming

/-!
# Harmony — responses

`gateway/src/routers/grpc/harmony/streaming.rs` (`process_responses_iteration_stream`), `processor.rs`
(`process_responses_iteration`) and `harmony/responses/`: the model is asked for a response, its tokens are
read by channel, the MCP tools that it calls are called, and it is asked again with what they gave.

What the pipeline gives may depend on all requests so far, and what a tool gives on all calls so far.  The
parser, the reading of JSON and the ids are parameters; the ids of calls and those of items are drawn
apart.  The client stays connected.
-/

namespace QwenStack.Harmony
open Grpc

/-! ### Calls of tools -/

inductive ToolCallMode where
  | mcp | function
  deriving DecidableEq, Repr

namespace ToolCallMode

def outputItemType : ToolCallMode → OutputItemType
  | .mcp => .mcpCall
  | .function => .functionCall

def emitsStatusEvents (mode : ToolCallMode) : Bool := mode = .mcp

def emitArgumentsDelta (outputIndex : Nat) (itemId delta : Str) (e : Emitter) :
    ToolCallMode → Event × Emitter
  | .mcp => e.emitMcpCallArgumentsDelta outputIndex itemId delta
  | .function => e.emitFunctionCallArgumentsDelta outputIndex itemId delta

def emitArgumentsDone (outputIndex : Nat) (itemId arguments : Str) (e : Emitter) :
    ToolCallMode → Event × Emitter
  | .mcp => e.emitMcpCallArgumentsDone outputIndex itemId arguments
  | .function => e.emitFunctionCallArgumentsDone outputIndex itemId arguments

/-- The item of a call; the type is that of the mode. -/
def item (mode : ToolCallMode) (serverLabel : Option Str) (itemId callId name arguments status : Str) :
    Item :=
  match mode with
  | .mcp => .mcpCall itemId (some callId) name serverLabel status arguments none none
  | .function => .functionCall "function_call".toList itemId callId name status arguments

end ToolCallMode

/-- A call whose item is open. -/
structure Tracked where
  outputIndex : Nat
  itemId : Str
  mode : ToolCallMode
  deriving DecidableEq, Repr

/-! ### The stream of an answer -/

/-- A message of a worker. -/
inductive DecodeMessage where
  | chunk (tokenIds : List Nat)
  | complete (finishReason : Str) (matchedStop : Option Value) (promptTokens completionTokens : Nat)
  | error (message : Str)
  | none

/-- What the pipeline gives to be read; each message may be an error of the transport instead. -/
inductive ExecutionResult where
  | single (stream : List (Except Str DecodeMessage))
  | dual (prefill decode : List (Except Str DecodeMessage))
  | embedding

/-- What an answer comes to. -/
inductive ResponsesIterationResult where
  | toolCallsFound (toolCalls : List ToolCall) (analysis : Option Str) (partialText : Str)
      (usage : Usage) (requestId : Str)
  | completed (response : ResponsesResponse) (usage : Usage)

/-- The state of `process_decode_stream_with_tool_lookup`; the reasoning item is emitted once there is
any analysis. -/
structure Decode (σ : Type) where
  parser : HarmonyParserAdapter σ
  client : Client
  hasAnalysis : Bool := false
  accumulatedFinalText : Str := []
  accumulatedToolCalls : Option (List ToolCall) := none
  message : Option (Nat × Str) := none
  hasEmittedContentPartAdded : Bool := false
  toolCallTracking : List (Nat × Tracked) := []
  finishReason : Str := "stop".toList
  matchedStop : Option Value := none
  promptTokens : Nat := 0
  completionTokens : Nat := 0
  reasoningTokenCount : Nat := 0
  chunkCount : Nat := 0

namespace Decode
variable {σ : Type} (p : ContentParser σ) (uuid callUuid : Nat → Str) (mcpToolNames : List Str)
  (d : Decode σ)

/-- The reasoning is shown once, without its text. -/
def processAnalysis (analysisDelta : Option Str) : Decode σ :=
  match analysisDelta with
  | none => d
  | some _ =>
      if d.hasAnalysis = true then d
      else { d with client := d.client.emitReasoningItem uuid none, hasAnalysis := true }

/-- The message is opened with its first text. -/
def openMessage : Decode σ × Nat × Str :=
  match d.message with
  | some (outputIndex, itemId) => (d, outputIndex, itemId)
  | none =>
      let (outputIndex, itemId, client) := d.client.allocate uuid .message
      let client := client.emit (·.emitOutputItemAdded outputIndex (.message itemId none))
      ({ d with client := client, message := some (outputIndex, itemId) }, outputIndex, itemId)

/-- The text of the final channel. -/
def processFinal (finalDelta : Option Str) : Decode σ :=
  let text := finalDelta.getD []
  if text = [] then d
  else
    let (d, outputIndex, itemId) := d.openMessage uuid
    let client := if d.hasEmittedContentPartAdded = true then d.client
      else d.client.emit (·.emitContentPartAdded outputIndex itemId 0)
    { d with
      client := client.emit (·.emitTextDelta text outputIndex itemId 0)
      hasEmittedContentPartAdded := true
      accumulatedFinalText := d.accumulatedFinalText ++ text }

/-- A new call: its item is opened, in the mode of its name. -/
def startCall (callIndex : Nat) (callId : Str) (function : Option FunctionDelta) : Decode σ :=
  let toolName := (function.bind (·.name)).getD []
  let mode : ToolCallMode := if toolName ∈ mcpToolNames then .mcp else .function
  let (outputIndex, itemId, client) := d.client.allocate uuid mode.outputItemType
  let client := client.emit (·.emitOutputItemAdded outputIndex
    (mode.item d.client.emitter.mcpServerLabel itemId callId toolName [] "in_progress".toList))
  let client := if mode.emitsStatusEvents = true then
      client.emit (·.emitMcpCallInProgress outputIndex itemId)
    else client
  let client := if (function.bind (·.name)).isSome = true then
      client.emit fun e => mode.emitArgumentsDelta outputIndex itemId [] e
    else client
  { d with
    client := client
    toolCallTracking := Assoc.put callIndex ⟨outputIndex, itemId, mode⟩ d.toolCallTracking }

/-- More arguments of a call. -/
def continueCall (callIndex : Nat) (function : Option FunctionDelta) : Decode σ :=
  match d.toolCallTracking.lookup callIndex with
  | none => d
  | some t =>
      let args := (function.bind (·.arguments)).getD []
      if args = [] then d
      else { d with
        client := d.client.emit fun e => t.mode.emitArgumentsDelta t.outputIndex t.itemId args e }

/-- The call of a delta. -/
def processCommentary (commentaryDelta : Option ToolCallDelta) : Decode σ :=
  match commentaryDelta with
  | none => d
  | some tcDelta =>
      match tcDelta.id with
      | some callId => d.startCall uuid mcpToolNames tcDelta.index callId tcDelta.function
      | none => d.continueCall tcDelta.index tcDelta.function

/-- The events of a delta. -/
def processDelta (delta : HarmonyChannelDelta) : Decode σ :=
  ((d.processAnalysis uuid delta.analysisDelta).processFinal uuid delta.finalDelta).processCommentary
    uuid mcpToolNames delta.commentaryDelta

/-- The end of a call, if its item is open. -/
def completeCall (d : Decode σ) (indexed : ToolCall × Nat) : Decode σ :=
  let (toolCall, callIdx) := indexed
  match d.toolCallTracking.lookup callIdx with
  | none => d
  | some t =>
      let argsStr := toolCall.function.arguments.getD []
      let client := d.client.emit fun e => t.mode.emitArgumentsDone t.outputIndex t.itemId argsStr e
      let client := if t.mode.emitsStatusEvents = true then
          client.emit (·.emitMcpCallCompleted t.outputIndex t.itemId)
        else client
      let client := client.emit (·.emitOutputItemDone t.outputIndex
        (t.mode.item d.client.emitter.mcpServerLabel t.itemId toolCall.id toolCall.function.name argsStr
          "completed".toList))
      { d with client := client.update (·.completeOutputItem t.outputIndex) }

/-- The ends of the calls. -/
def completeCalls : Decode σ :=
  ((d.accumulatedToolCalls.getD []).zipIdx).foldl completeCall d

/-- The end of the message, if it is open. -/
def closeMessage : Decode σ :=
  match d.message with
  | none => d
  | some (outputIndex, itemId) =>
      let client := d.client.emit (·.emitTextDone outputIndex itemId 0)
      let client := client.emit (·.emitContentPartDone outputIndex itemId 0)
      let client := client.emit (·.emitOutputItemDone outputIndex
        (.message itemId (some d.accumulatedFinalText)))
      { d with client := client.update (·.completeOutputItem outputIndex) }

/-- The ids that the messages of the parser take are drawn. -/
def draw : Decode σ :=
  let drawn := parseMessages callUuid d.parser.generated (p.chatMessages d.parser.parser)
  { d with parser := { d.parser with generated := drawn.generated } }

/-- The end of an answer. -/
def processComplete (finishReason : Str) (matchedStop : Option Value)
    (promptTokens completionTokens : Nat) : Except Str (Decode σ) :=
  match finalize p callUuid d.parser finishReason matchedStop with
  | .error e => .error ("Finalize error: ".toList ++ e)
  | .ok finalOutput =>
      let d := { d.draw p callUuid with
        finishReason := finishReason
        matchedStop := matchedStop
        promptTokens := promptTokens
        completionTokens := completionTokens
        accumulatedToolCalls := finalOutput.commentary
        reasoningTokenCount := finalOutput.reasoningTokenCount }
      .ok d.completeCalls.closeMessage

/-- A message of the stream. -/
def processMessage : Except Str DecodeMessage → Except Str (Decode σ)
  | .error e => .error ("Decode stream error: ".toList ++ e)
  | .ok .none => .ok { d with chunkCount := d.chunkCount + 1 }
  | .ok (.error message) => .error ("Server error: ".toList ++ message)
  | .ok (.complete finishReason matchedStop promptTokens completionTokens) =>
      { d with chunkCount := d.chunkCount + 1 }.processComplete p callUuid finishReason matchedStop
        promptTokens completionTokens
  | .ok (.chunk tokenIds) =>
      match parseChunk p.toStreamableParser callUuid d.parser tokenIds with
      | .error e => .error ("Parse error: ".toList ++ e)
      | .ok (delta, parser) =>
          let d := { d with parser := parser, chunkCount := d.chunkCount + 1 }
          match delta with
          | none => .ok d
          | some delta => .ok (d.processDelta uuid mcpToolNames delta)

/-- The messages of the stream; what was sent before an error stays sent. -/
def processStream (d : Decode σ) : List (Except Str DecodeMessage) → Decode σ × Option Str
  | [] => (d, none)
  | message :: rest =>
      match d.processMessage p uuid callUuid mcpToolNames message with
      | .error e => (d, some e)
      | .ok d => processStream d rest

/-- `extract_incomplete_commentary`. -/
def extractIncompleteCommentary : Option (List ToolCall) :=
  (currentCall p.toStreamableParser d.parser.parser).bind fun call =>
    match p.currentContent d.parser.parser with
    | .error _ => none
    | .ok content =>
        if content = [] then none
        else some [{
          id := "call_".toList ++ callUuid d.parser.generated
          toolType := "function".toList
          function := { name := call.2, arguments := some content } }]

/-- The calls of a stream whose end named none: those that are finished, or the one that is open. -/
def extractToolCalls : Decode σ :=
  if d.chunkCount = 0 ∨ d.accumulatedToolCalls.isSome = true then d
  else
    let channels := parseMessages callUuid d.parser.generated (p.chatMessages d.parser.parser)
    let drawn := d.draw p callUuid
    { drawn with
      accumulatedToolCalls :=
        channels.commentary.or (drawn.extractIncompleteCommentary p callUuid) }.completeCalls

def usage : Usage where
  promptTokens := d.promptTokens
  completionTokens := d.completionTokens
  totalTokens := d.promptTokens + d.completionTokens
  reasoningTokens := if 0 < d.reasoningTokenCount then some d.reasoningTokenCount else none

/-- The analysis, if there was any. -/
def analysis : Except Str (Option Str) :=
  if d.hasAnalysis = true then
    match finalize p callUuid d.parser d.finishReason d.matchedStop with
    | .error e => .error e
    | .ok output => .ok output.analysis
  else .ok none

/-- What the stream came to. -/
def result : Except Str ResponsesIterationResult :=
  let requestId := d.client.emitter.responseId
  let completed : ResponsesIterationResult := .completed {
    id := requestId
    model := []
    createdAt := 0
    status := .completed
    output := []
    usage := some d.usage } d.usage
  match d.accumulatedToolCalls with
  | none => .ok completed
  | some toolCalls =>
      if toolCalls = [] then .ok completed
      else
        match d.analysis p callUuid with
        | .error e => .error e
        | .ok analysis =>
            .ok (.toolCallsFound toolCalls analysis d.accumulatedFinalText d.usage requestId)

end Decode

section Iterations
variable {σ : Type} (p : ContentParser σ) (start : Except Str σ) (uuid callUuid : Nat → Str)
  (mcpToolNames : List Str)

/-- `process_decode_stream_with_tool_lookup`, with the number of call ids that were drawn. -/
def processDecodeStreamWithToolLookup (client : Client) (drawn : Nat)
    (stream : List (Except Str DecodeMessage)) :
    Client × Nat × Except Str ResponsesIterationResult :=
  match start with
  | .error e => (client, drawn, .error ("Failed to create parser: ".toList ++ e))
  | .ok s =>
      let d : Decode σ := { parser := { parser := s, generated := drawn }, client := client }
      match d.processStream p uuid callUuid mcpToolNames stream with
      | (d, some e) => (d.client, d.parser.generated, .error e)
      | (d, none) =>
          let d := d.extractToolCalls p callUuid
          (d.client, d.parser.generated + 1, d.result p callUuid)

/-- The first error of a prefill stream. -/
def prefillError : List (Except Str DecodeMessage) → Option Str
  | [] => none
  | .error e :: _ => some ("Prefill stream error: ".toList ++ e)
  | .ok _ :: rest => prefillError rest

/-- `process_responses_iteration_stream`. -/
def processResponsesIterationStream (client : Client) (drawn : Nat) :
    ExecutionResult → Client × Nat × Except Str ResponsesIterationResult
  | .single stream =>
      processDecodeStreamWithToolLookup p start uuid callUuid mcpToolNames client drawn stream
  | .dual prefill decode =>
      match prefillError prefill with
      | some e => (client, drawn, .error e)
      | none =>
          processDecodeStreamWithToolLookup p start uuid callUuid mcpToolNames client drawn decode
  | .embedding =>
      (client, drawn, .error "Embeddings not supported in Responses API streaming".toList)

end Iterations

end QwenStack.Harmony
