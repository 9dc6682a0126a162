import QwenStack.Harmony.ResponsesLoop

/-!
# Harmony — streamed responses

`gateway/src/routers/grpc/harmony/responses/streaming.rs`: the tool loop, with what it sends, and the
responses that `persist_response_if_needed` is called with.
-/

namespace QwenStack.Harmony
open Grpc

/-- What a streamed response is made with. -/
structure StreamContext (σ : Type) extends LoopContext where
  parser : ContentParser σ
  newParser : Except Str σ
  callUuid : Nat → Str
  /-- The item of a response that is read from what was shown. -/
  readItem : Item → Option OutputItem
  /-- The text of an error response. -/
  debug : ErrorResponse → Str

/-- The output of a call is put into its item. -/
def putOutput (result : ToolResult) : Item → Item
  | .mcpCall id callId name serverLabel status arguments _ error =>
      .mcpCall id callId name serverLabel
        (if result.isError = true then "failed".toList else status) arguments
        (some result.output.render) error
  | item => item

/-- The item of the call that gave a result. -/
def isCallOf (result : ToolResult) : Item → Bool
  | .mcpCall _ callId _ _ _ _ _ _ => callId = some result.callId
  | _ => false

/-- The first item of the call that gave a result has its output then. -/
def updateMcpCallOutput (items : List OutputItemState) (result : ToolResult) : List OutputItemState :=
  match items with
  | [] => []
  | item :: rest =>
      match item.itemData with
      | none => item :: updateMcpCallOutput rest result
      | some data =>
          if isCallOf result data = true then
            { item with itemData := some (putOutput result data) } :: rest
          else item :: updateMcpCallOutput rest result

/-- `update_mcp_call_outputs`. -/
def updateMcpCallOutputs (toolResults : List ToolResult) (e : Emitter) : Emitter :=
  { e with outputItems := toolResults.foldl updateMcpCallOutput e.outputItems }

/-- `ResponseStreamEventEmitter::finalize`, of all items that have their data. -/
def finalizeResponse (readItem : Item → Option OutputItem) (e : Emitter) (usage : Usage) :
    ResponsesResponse where
  id := e.responseId
  model := e.model
  createdAt := e.createdAt
  status := .completed
  output := e.outputItems.filterMap fun item => item.itemData.bind readItem
  usage := some usage

/-- The usage, with why the response is incomplete. -/
def usageWith (incompleteDetails : List (String × Value)) (u : Usage) : Value :=
  .ofMembers ([("input_tokens", .integer u.promptTokens), ("output_tokens", .integer u.completionTokens),
    ("total_tokens", .integer u.totalTokens)] ++ incompleteDetails)

/-- How the stream of a response ends. -/
inductive ResponseEnd where
  | final | limit | functionCalls | error
  deriving DecidableEq, Repr

/-- The streaming loop between its turns, with the number of call ids that were drawn. -/
structure McpStream where
  loop : McpLoop
  client : Client
  drawn : Nat := 0
  persisted : List ResponsesResponse := []

namespace McpStream
variable {σ : Type} (ctx : StreamContext σ) (s : McpStream)

/-- An error event. -/
def fail (code message : Str) : McpStream :=
  { s with client := s.client.emit (·.emitError message (some code)) }

/-- The end of the response, with its usage. -/
def complete (incompleteDetails : List (String × Value)) (usage : Usage) : McpStream :=
  { s with client := s.client.emit (·.emitCompleted (some (usageWith incompleteDetails usage))) }

/-- The response is stored as it was shown. -/
def persist (usage : Usage) : McpStream :=
  { s with persisted := s.persisted ++ [finalizeResponse ctx.readItem s.client.emitter usage] }

/-- The list of tools is stored first, by an event that is not sent. -/
def listTools : McpStream :=
  let (outputIndex, itemId, c) := s.client.allocate ctx.uuid .mcpListTools
  let label := s.loop.tracking.serverLabel
  let itemDone : Item := .mcpListTools itemId label "completed".toList ctx.mcpTools
  let c := c.update fun e => ((e.emitOutputItemDone outputIndex itemDone).2).completeOutputItem outputIndex
  let c := c.emit (·.emitOutputItemAdded outputIndex
    (.mcpListTools itemId label "in_progress".toList []))
  let c := c.emit (·.emitMcpListToolsInProgress outputIndex)
  let c := c.emit (·.emitMcpListToolsCompleted outputIndex ctx.mcpTools)
  { s with client := c.emit (·.emitOutputItemDone outputIndex itemDone) }

/-- The outputs of the calls that were made. -/
def record (x : Execution) : McpStream :=
  { s with
    loop := s.loop.record x
    client := if x.results.isEmpty = true then s.client
      else s.client.update (updateMcpCallOutputs x.results) }

/-- A turn after the answer of the model. -/
def afterAnswer (callTool : List (Str × Option Value) → ToolAnswer) :
    ResponsesIterationResult → McpStream × Option ResponseEnd
  | .completed _ usage => ((s.persist ctx usage).complete [] usage, some .final)
  | .toolCallsFound toolCalls analysis partialText usage _ =>
      if s.loop.exceeds toolCalls then
        (s.complete [("incomplete_details", .ofMembers [("reason", .string "max_tool_calls".toList)])]
          usage, some .limit)
      else
        let functionToolCalls := s.loop.functionToolCalls toolCalls
        let mcpToolCalls := s.loop.mcpToolCalls toolCalls
        match executeMcpTools ctx.parseJson callTool s.loop.tracking s.loop.called mcpToolCalls with
        | .error e =>
            (s.fail "mcp_tool_error".toList ("MCP tool execution failed: ".toList ++ ctx.debug e),
              some .error)
        | .ok x =>
            let s := s.record x
            if functionToolCalls ≠ [] then (s.complete [] usage, some .functionCalls)
            else
              let loop := s.loop.next ctx.toLoopContext mcpToolCalls x.results analysis partialText
              ({ s with loop := loop }, none)

/-- The answer of the model is read. -/
def read (mcpToolNames : List Str) (result : ExecutionResult) :
    McpStream × Except Str ResponsesIterationResult :=
  let (client, drawn, result) := processResponsesIterationStream ctx.parser ctx.newParser ctx.uuid
    ctx.callUuid mcpToolNames s.client s.drawn result
  ({ s with client := client, drawn := drawn }, result)

/-- A turn of `execute_mcp_tool_loop_streaming`. -/
def turn (backend : Backend (Except ErrorResponse ExecutionResult)) : McpStream × Option ResponseEnd :=
  let s := { s with loop := s.loop.iterate }
  if defaultMaxIterations < s.loop.iterationCount then
    (s.fail "max_iterations_exceeded".toList ("Maximum tool iterations (".toList ++
      ((toString defaultMaxIterations).toList ++ ") exceeded".toList)), some .error)
  else
    let s := { s with loop := s.loop.ask }
    match backend.execute s.loop.asked with
    | .error e =>
        (s.fail "pipeline_error".toList ("Pipeline execution failed: ".toList ++ ctx.debug e),
          some .error)
    | .ok result =>
        match s.read ctx (buildMcpToolNamesSet (s.loop.currentRequest.tools.getD [])) result with
        | (s, .error message) => (s.fail "processing_error".toList message, some .error)
        | (s, .ok result) => s.afterAnswer ctx backend.callTool result

/-- The first events of a response. -/
def start (emitter : Emitter) (currentRequest : ResponsesRequest) : McpStream where
  loop := McpLoop.start ctx.toLoopContext currentRequest
  client := .begin emitter

/-- The label of the server is that of the request. -/
def setServerLabel : McpStream :=
  { s with
    client := s.client.update fun e => { e with mcpServerLabel := some s.loop.tracking.serverLabel } }

end McpStream

section Serving
variable {σ : Type} (ctx : StreamContext σ)
  (backend : Backend (Except ErrorResponse ExecutionResult)) (emitter : Emitter)
  (currentRequest : ResponsesRequest)

/-- `execute_mcp_tool_loop_streaming`, for as many turns. -/
def executeMcpToolLoopStreaming (turns : Nat) : McpStream × Option ResponseEnd :=
  let s := ((McpStream.start ctx emitter currentRequest).setServerLabel).listTools ctx
  Until.loop (fun s => s.turn ctx backend) turns s

/-- `execute_without_mcp_streaming`; no name is that of an MCP tool. -/
def executeWithoutMcpStreaming : McpStream × ResponseEnd :=
  let s := McpStream.start ctx emitter currentRequest
  let s := { s with loop := { s.loop with currentRequest := currentRequest }.ask }
  match backend.execute s.loop.asked with
  | .error e =>
      (s.fail "pipeline_error".toList ("Pipeline execution failed: ".toList ++ ctx.debug e), .error)
  | .ok result =>
      match s.read ctx [] result with
      | (s, .error message) => (s.fail "processing_error".toList message, .error)
      | (s, .ok (.toolCallsFound _ _ _ usage _)) => ((s.persist ctx usage).complete [] usage, .final)
      | (s, .ok (.completed _ usage)) => ((s.persist ctx usage).complete [] usage, .final)

end Serving

end QwenStack.Harmony
