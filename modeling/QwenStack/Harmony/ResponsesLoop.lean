import QwenStack.Harmony.Responses

/-!
# Harmony — the tool loops

`gateway/src/routers/grpc/harmony/responses/common.rs`, `execution.rs`, `non_streaming.rs` and
`streaming.rs`: the calls are kept as records, with which the output of the response is completed; the
stream has shown them already, and is given their outputs.

The reading of an item from JSON, with which the stored response is made, is a parameter (`fromValue`).
-/

namespace QwenStack.Harmony
open Grpc

/-! ### Calls -/

structure McpCallRecord where
  callId : Str
  toolName : Str
  arguments : Str
  output : Str
  success : Bool
  error : Option Str
  deriving DecidableEq, Repr

structure McpCallTracking where
  serverLabel : Str
  toolCalls : List McpCallRecord := []
  deriving DecidableEq, Repr

structure ToolResult where
  callId : Str
  toolName : Str
  output : Value
  isError : Bool

/-- What a tool gives: its first content if it has one, or an error. -/
inductive ToolAnswer where
  | ok (content : Option Value) (isError : Bool)
  | error (e : Str)

/-- The output of a tool, whether it is an error, and the text of the error for the record. -/
def ToolAnswer.outcome : ToolAnswer → Value × Bool × Option Str
  | .ok content isError =>
      let output := content.getD (.ofMembers [("result", .string "success".toList)])
      (output, isError, if isError = true then some output.render else none)
  | .error e =>
      let errorMsg := "Tool execution failed: ".toList ++ e
      (.ofMembers [("error", .string errorMsg)], true, some errorMsg)

/-- The tools, as the request offers them. -/
def McpTool.responseTool (tool : McpTool) : ResponseTool where
  type := .mcp
  function := some {
    name := tool.name
    description := tool.description
    parameters := .object tool.inputSchema
    strict := none }
  serverDescription := tool.description

/-- `convert_mcp_tools_to_response_tools`. -/
def convertMcpToolsToResponseTools (mcpTools : List McpTool) : List ResponseTool :=
  mcpTools.map McpTool.responseTool

/-- `build_mcp_tool_names_set`. -/
def buildMcpToolNamesSet (requestTools : List ResponseTool) : List Str :=
  (requestTools.filter fun t => t.type = .mcp).filterMap fun t => t.function.map (·.name)

/-- The request with the tools that are listed. -/
def withMcpTools (mcpTools : List McpTool) (request : ResponsesRequest) : ResponsesRequest :=
  if mcpTools.isEmpty = true then request
  else
    { request with
      tools := some (request.tools.getD [] ++ convertMcpToolsToResponseTools mcpTools) }

/-- `error::internal_error`. -/
def internalError (code message : Str) : ErrorResponse := ⟨500, code, message⟩

/-- The calls so far, with what they came to. -/
structure Execution where
  tracking : McpCallTracking
  results : List ToolResult := []
  called : List (Str × Option Value)

section Executing
variable (parseJson : Str → Except Str Value) (callTool : List (Str × Option Value) → ToolAnswer)

/-- The arguments of a call, with a default. -/
def argsStr (toolCall : ToolCall) : Str := toolCall.function.arguments.getD "{}".toList

/-- One call; only an object is passed on. -/
def executeTool (x : Execution) (toolCall : ToolCall) : Except ErrorResponse Execution :=
  match parseJson (argsStr toolCall) with
  | .error e =>
      .error (internalError "invalid_tool_args".toList ("Invalid tool arguments JSON for tool '".toList ++
        (toolCall.function.name ++ ("': ".toList ++ e))))
  | .ok args =>
      let called := x.called ++
        [(toolCall.function.name, if args.isObject = true then some args else none)]
      let (output, isError, error) := (callTool called).outcome
      .ok {
        tracking := { x.tracking with
          toolCalls := x.tracking.toolCalls ++ [{
            callId := toolCall.id
            toolName := toolCall.function.name
            arguments := argsStr toolCall
            output := output.render
            success := !isError
            error := error }] }
        results := x.results ++ [⟨toolCall.id, toolCall.function.name, output, isError⟩]
        called := called }

/-- `execute_mcp_tools`. -/
def executeMcpTools (tracking : McpCallTracking) (called : List (Str × Option Value))
    (toolCalls : List ToolCall) : Except ErrorResponse Execution :=
  toolCalls.foldlM (executeTool parseJson callTool) { tracking := tracking, called := called }

end Executing

/-! ### The next request -/

/-- A result is put into the first call with its id. -/
def putResult (items : List InputItem) (result : ToolResult) : List InputItem :=
  match items with
  | [] => []
  | .functionToolCall id callId name arguments output status :: rest =>
      if callId = result.callId then
        .functionToolCall id callId name arguments (some result.output.render)
          (some (if result.isError = true then "failed".toList else "completed".toList)) :: rest
      else .functionToolCall id callId name arguments output status :: putResult rest result
  | item :: rest => item :: putResult rest result

/-- The item of a call, without its output. -/
def openCallItem (toolCall : ToolCall) : InputItem :=
  .functionToolCall toolCall.id toolCall.id toolCall.function.name (argsStr toolCall) none
    (some "in_progress".toList)

/-- `build_next_request_with_tools`; it does not fail. -/
def buildNextRequestWithTools (assistantId : Str) (request : ResponsesRequest)
    (toolCalls : List ToolCall) (toolResults : List ToolResult) (analysis : Option Str)
    (partialText : Str) : ResponsesRequest :=
  let items := match request.input with
    | .items items => items
    | .text text => [.simpleInputMessage (.string text) "user".toList]
  let reasoning := (analysis.map fun text =>
    InputItem.reasoning ("reasoning_".toList ++ assistantId) [text] (some "completed".toList)).toList
  let message := if partialText = [] then []
    else [InputItem.message assistantId "assistant".toList [.outputText partialText]
      (some "completed".toList)]
  { request with
    input := .items (toolResults.foldl putResult
      (items ++ reasoning ++ message ++ toolCalls.map openCallItem))
    toolChoice := some .auto }

/-! ### The output -/

/-- The item of a call that was made. -/
def McpCallRecord.item (serverLabel id : Str) (r : McpCallRecord) : OutputItem :=
  .mcpCall ("mcp_".toList ++ id)
    (if r.success = true then "completed".toList else "failed".toList) r.arguments r.error r.toolName
    r.output serverLabel

/-- `inject_mcp_metadata`. -/
def injectMcpMetadata (uuid : Nat → Str) (tracking : McpCallTracking) (mcpTools : List McpTool)
    (response : ResponsesResponse) : ResponsesResponse :=
  { response with
    output := .mcpListTools ("mcpl_".toList ++ uuid 0) tracking.serverLabel mcpTools ::
      response.output ++
        tracking.toolCalls.zipIdx.map fun r => r.1.item tracking.serverLabel (uuid (r.2 + 1)) }

/-- An executed call, as a function call with its output. -/
def executedItem (executed : ToolCall × ToolResult) : OutputItem :=
  .functionToolCall executed.1.id executed.1.id executed.1.function.name
    (executed.1.function.arguments.getD []) (some executed.2.output.render)
    (if executed.2.isError = true then "failed".toList else "completed".toList)

/-- A call that is left to the caller. -/
def pendingItem (toolCall : ToolCall) : OutputItem :=
  .functionToolCall toolCall.id toolCall.id toolCall.function.name
    (toolCall.function.arguments.getD []) none "completed".toList

/-- `build_tool_response`. -/
def buildToolResponse (mcpToolCalls : List ToolCall) (mcpResults : List ToolResult)
    (functionToolCalls : List ToolCall) (analysis : Option Str) (partialText : Str) (usage : Usage)
    (requestId model : Str) (createdAt : Int) : ResponsesResponse where
  id := requestId
  model := model
  createdAt := createdAt
  status := .completed
  output := (analysis.map fun text =>
      OutputItem.reasoning ("reasoning_".toList ++ requestId) text (some "completed".toList)).toList ++
    (if partialText = [] then []
      else [.message ("msg_".toList ++ requestId) partialText "completed".toList]) ++
    (mcpToolCalls.zip mcpResults).map executedItem ++ functionToolCalls.map pendingItem
  usage := some usage

/-! ### The loop -/

/-- What the pipeline gives for the requests so far, and what a tool gives for the calls so far. -/
structure Backend (α : Type) where
  execute : List ResponsesRequest → α
  callTool : List (Str × Option Value) → ToolAnswer

/-- What a loop does not change. -/
structure LoopContext where
  uuid : Nat → Str
  parseJson : Str → Except Str Value
  mcpTools : List McpTool
  createdAt : Int

/-- A loop between its turns, with the requests and the calls so far. -/
structure McpLoop where
  currentRequest : ResponsesRequest
  maxToolCalls : Option Nat
  tracking : McpCallTracking
  iterationCount : Nat := 0
  asked : List ResponsesRequest := []
  called : List (Str × Option Value) := []

namespace McpLoop
variable (ctx : LoopContext) (l : McpLoop)

/-- The loop before its first turn. -/
def start (currentRequest : ResponsesRequest) : McpLoop where
  currentRequest := withMcpTools ctx.mcpTools currentRequest
  maxToolCalls := currentRequest.maxToolCalls
  tracking := { serverLabel := extractServerLabel currentRequest.tools "sglang-mcp".toList }

def isMcp (toolCall : ToolCall) : Bool :=
  decide (toolCall.function.name ∈ buildMcpToolNamesSet (l.currentRequest.tools.getD []))

def mcpToolCalls (toolCalls : List ToolCall) : List ToolCall := toolCalls.filter l.isMcp

def functionToolCalls (toolCalls : List ToolCall) : List ToolCall :=
  toolCalls.filter fun tc => !l.isMcp tc

/-- More calls than are allowed. -/
def exceeds (toolCalls : List ToolCall) : Prop :=
  effectiveLimit l.maxToolCalls < l.tracking.toolCalls.length + (l.mcpToolCalls toolCalls).length

instance (toolCalls : List ToolCall) : Decidable (l.exceeds toolCalls) := Nat.decLt ..

def iterate : McpLoop := { l with iterationCount := l.iterationCount + 1 }

def ask : McpLoop := { l with asked := l.asked ++ [l.currentRequest] }

/-- The calls have been made. -/
def record (x : Execution) : McpLoop := { l with tracking := x.tracking, called := x.called }

/-- The request of the next turn. -/
def next (toolCalls : List ToolCall) (results : List ToolResult) (analysis : Option Str)
    (partialText : Str) : McpLoop :=
  { l with
    currentRequest := buildNextRequestWithTools ("msg_".toList ++ ctx.uuid l.iterationCount)
      l.currentRequest toolCalls results analysis partialText }

/-- The calls of the run are put into a response, if there are any. -/
def inject (response : ResponsesResponse) : ResponsesResponse :=
  if 0 < l.tracking.toolCalls.length then injectMcpMetadata ctx.uuid l.tracking ctx.mcpTools response
  else response

/-- The end at the limit: no call of the turn is made. -/
def limited (toolCalls : List ToolCall) (analysis : Option Str) (partialText : Str) (usage : Usage)
    (requestId : Str) : ResponsesResponse :=
  let all := l.mcpToolCalls toolCalls ++ l.functionToolCalls toolCalls
  let response := buildToolResponse [] [] all analysis partialText usage requestId
    l.currentRequest.model ctx.createdAt
  l.inject ctx { response with
    status := .completed
    incompleteDetails := some (.ofMembers [("reason", .string "max_tool_calls".toList)]) }

/-- A turn after the answer of the model. -/
def afterAnswer (callTool : List (Str × Option Value) → ToolAnswer) :
    ResponsesIterationResult → McpLoop × Option (Except ErrorResponse ResponsesResponse)
  | .completed response _ => (l, some (.ok (injectMcpMetadata ctx.uuid l.tracking ctx.mcpTools response)))
  | .toolCallsFound toolCalls analysis partialText usage requestId =>
      if l.exceeds toolCalls then
        (l, some (.ok (l.limited ctx toolCalls analysis partialText usage requestId)))
      else
        match executeMcpTools ctx.parseJson callTool l.tracking l.called (l.mcpToolCalls toolCalls) with
        | .error e => (l, some (.error e))
        | .ok x =>
            let functionToolCalls := l.functionToolCalls toolCalls
            let mcpToolCalls := l.mcpToolCalls toolCalls
            let l := l.record x
            if functionToolCalls ≠ [] then
              (l, some (.ok (l.inject ctx (buildToolResponse mcpToolCalls x.results functionToolCalls
                analysis partialText usage requestId l.currentRequest.model ctx.createdAt))))
            else (l.next ctx mcpToolCalls x.results analysis partialText, none)

/-- A turn of `execute_with_mcp_loop`. -/
def turn (backend : Backend (Except ErrorResponse ResponsesIterationResult)) :
    McpLoop × Option (Except ErrorResponse ResponsesResponse) :=
  let l := l.iterate
  if defaultMaxIterations < l.iterationCount then
    (l, some (.error (internalError "tool_iterations_exceeded".toList
      ("Maximum tool iterations (".toList ++ ((toString defaultMaxIterations).toList ++
        ") exceeded".toList)))))
  else
    let l := l.ask
    match backend.execute l.asked with
    | .error e => (l, some (.error e))
    | .ok result => l.afterAnswer ctx backend.callTool result

end McpLoop

/-- The answer of a worker that is complete. -/
structure GenerateComplete where
  outputIds : List Nat
  finishReason : Str
  matchedStop : Option Value
  promptTokens : Nat
  completionTokens : Nat

/-- `process_responses_iteration`, of the first answer. -/
def processResponsesIteration {σ : Type} (p : ContentParser σ) (start : Except Str σ)
    (callUuid : Nat → Str) (drawn : Nat) (requestId model : Str) (created : Int)
    (complete : GenerateComplete) : Except ErrorResponse ResponsesIterationResult :=
  match start with
  | .error e => .error (internalError "create_harmony_parser_failed".toList
      ("Failed to create Harmony parser: ".toList ++ e))
  | .ok s =>
      match parseComplete p callUuid { parser := s, generated := drawn } complete.outputIds
        complete.finishReason complete.matchedStop with
      | .error e => .error (internalError "harmony_parsing_failed".toList
          ("Harmony parsing failed: ".toList ++ e))
      | .ok parsed =>
          let usage : Usage := {
            promptTokens := complete.promptTokens
            completionTokens := complete.completionTokens
            totalTokens := complete.promptTokens + complete.completionTokens
            reasoningTokens := if 0 < parsed.reasoningTokenCount then some parsed.reasoningTokenCount
              else none }
          match parsed.commentary with
          | some toolCalls =>
              .ok (.toolCallsFound toolCalls parsed.analysis parsed.finalText usage requestId)
          | none =>
              .ok (.completed (buildToolResponse [] [] [] parsed.analysis parsed.finalText usage
                requestId model created) usage)

/-- The answers of a backend, as the loop reads them; each turn draws ids of its own. -/
def Backend.iterations {σ : Type} (p : ContentParser σ) (start : Except Str σ)
    (callUuid : Nat → Nat → Str) (requestId : Nat → Str) (model : Str) (created : Int)
    (backend : Backend (Except ErrorResponse GenerateComplete)) :
    Backend (Except ErrorResponse ResponsesIterationResult) where
  execute asked :=
    match backend.execute asked with
    | .error e => .error e
    | .ok complete =>
        processResponsesIteration p start (callUuid asked.length) 0 (requestId asked.length) model
          created complete
  callTool := backend.callTool

/-- `execute_with_mcp_loop`, for as many turns. -/
def executeWithMcpLoop (ctx : LoopContext)
    (backend : Backend (Except ErrorResponse ResponsesIterationResult)) (turns : Nat)
    (currentRequest : ResponsesRequest) : McpLoop × Option (Except ErrorResponse ResponsesResponse) :=
  Until.loop (fun l => l.turn ctx backend) turns (McpLoop.start ctx currentRequest)

end QwenStack.Harmony
