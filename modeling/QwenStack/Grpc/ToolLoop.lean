import QwenStack.Grpc.Definitions
import QwenStack.Support.Until

/-!
# Responses over chat — the tool loop

`gateway/src/routers/grpc/regular/responses/common.rs` and `non_streaming.rs`: the model is asked, the MCP
tools that it wants are called, and it is asked again with what they gave.

What the model answers may depend on all chat requests so far, and what a tool gives on all calls so far
(`World`); both are kept with the loop.  The storages, and what another crate says of an item
(`normalize_input_item`, the reading of stored items), are parameters.
-/

namespace QwenStack.Grpc
open Harmony (ToolCall)

/-- An error that is answered with its status, its code and its text. -/
structure ErrorResponse where
  status : Nat
  code : Str
  message : Str
  deriving DecidableEq, Repr

/-- `DEFAULT_MAX_ITERATIONS`. -/
def defaultMaxIterations : Nat := 10

/-- `extract_server_label`. -/
def extractServerLabel (tools : Option (List ResponseTool)) (defaultLabel : Str) : Str :=
  ((tools.getD []).findSome? fun tool =>
    if tool.type = .mcp then tool.serverLabel else none).getD defaultLabel

/-! ### The state -/

/-- `ToolLoopState`. -/
structure ToolLoopState where
  iteration : Nat := 0
  totalCalls : Nat := 0
  conversationHistory : List InputItem := []
  originalInput : ResponseInput
  mcpCallItems : List OutputItem := []
  serverLabel : Str

/-- `generate_mcp_id`. -/
def generateMcpId (pre id : Str) : Str := pre ++ "_".toList ++ id

/-- `build_mcp_list_tools_item`, of the tools that are listed. -/
def buildMcpListToolsItem (id : Str) (tools : List McpTool) (serverLabel : Str) : OutputItem :=
  .mcpListTools (generateMcpId "mcpl".toList id) serverLabel tools

/-- `build_mcp_call_item`. -/
def buildMcpCallItem (id toolName arguments output serverLabel : Str) (success : Bool)
    (error : Option Str) : OutputItem :=
  .mcpCall (generateMcpId "mcp".toList id)
    (if success = true then "completed".toList else "failed".toList) arguments error toolName output
    serverLabel

/-- `record_call`. -/
def ToolLoopState.recordCall (s : ToolLoopState) (id callId toolName argsJsonStr outputStr : Str)
    (success : Bool) (error : Option Str) : ToolLoopState :=
  { s with
    conversationHistory := s.conversationHistory ++
      [.functionToolCall callId callId toolName argsJsonStr (some outputStr)
        (some "completed".toList)]
    mcpCallItems := s.mcpCallItems ++
      [buildMcpCallItem id toolName argsJsonStr outputStr s.serverLabel success error] }

/-! ### Tools -/

/-- `prepare_chat_tools_and_choice`. -/
def prepareChatToolsAndChoice (chatRequest : ChatCompletionRequest) (mcpChatTools : List Tool)
    (iteration : Nat) : ChatCompletionRequest :=
  { chatRequest with
    tools := some (chatRequest.tools.getD [] ++ mcpChatTools)
    toolChoice :=
      if iteration = 0 then chatRequest.toolChoice.or (some .auto) else some .auto }

structure ExtractedToolCall where
  callId : Str
  name : Str
  arguments : Str
  deriving DecidableEq, Repr

def extractToolCall (toolCall : ToolCall) : ExtractedToolCall where
  callId := toolCall.id
  name := toolCall.function.name
  arguments := toolCall.function.arguments.getD "{}".toList

/-- `extract_all_tool_calls_from_chat`. -/
def extractAllToolCallsFromChat (response : ChatCompletionResponse) : List ExtractedToolCall :=
  match response.choices with
  | [] => []
  | choice :: _ => (choice.message.toolCalls.getD []).map extractToolCall

def McpTool.chatTool (tool : McpTool) : Tool where
  toolType := "function".toList
  function := {
    name := tool.name
    description := tool.description
    parameters := .object tool.inputSchema
    strict := none }

/-- `convert_mcp_tools_to_chat_tools`. -/
def convertMcpToolsToChatTools (mcpTools : List McpTool) : List Tool := mcpTools.map McpTool.chatTool

/-- A call of one of the MCP tools. -/
def isMcp (mcpTools : List McpTool) (toolCall : ExtractedToolCall) : Bool :=
  mcpTools.any fun tool => tool.name = toolCall.name

/-- The limit of the user, or the one for safety. -/
def effectiveLimit (maxToolCalls : Option Nat) : Nat :=
  match maxToolCalls with
  | some userMax => min userMax defaultMaxIterations
  | none => defaultMaxIterations

/-! ### History -/

structure StoredResponse where
  input : Value
  output : Value

structure StoredItem where
  id : Str
  itemType : Str
  role : Option Str
  content : Value
  status : Option Str

/-- The storages that are read. -/
structure Storage where
  getResponseChain : Str → Except Str (List StoredResponse)
  getConversation : Str → Except Str Bool
  listItems : Str → Except Str (List StoredItem)

/-- What the protocol crate says of items. -/
structure Codec where
  inputItem : Value → Option InputItem
  contentParts : Value → Option (List ResponseContentPart)
  normalizeInputItem : InputItem → InputItem

section History
variable (codec : Codec) (storage : Storage)

/-- The items of a stored array that can be read. -/
def arrayItems (stored : Value) : List InputItem :=
  (stored.asArray.getD []).filterMap codec.inputItem

/-- The items of a chain of responses. -/
def chainItems (responses : List StoredResponse) : List InputItem :=
  responses.flatMap fun stored => arrayItems codec stored.input ++ arrayItems codec stored.output

/-- The message of a stored item. -/
def storedMessage (item : StoredItem) : Option InputItem :=
  if item.itemType = "message".toList then
    (codec.contentParts item.content).map fun contentParts =>
      .message item.id (item.role.getD "user".toList) contentParts item.status
  else none

/-- The items of an input, with an id for a text. -/
def currentItems (id : Str) : ResponseInput → List InputItem
  | .text s => [.message id "user".toList [.inputText s] (some "completed".toList)]
  | .items current => current.map codec.normalizeInputItem

/-- The chain of a previous response, and the request without it; one that cannot be loaded stays. -/
def loadChain (request : ResponsesRequest) : ResponsesRequest × Option (List InputItem) :=
  match request.previousResponseId with
  | none => (request, none)
  | some prevIdStr =>
      match storage.getResponseChain prevIdStr with
      | .ok responses => ({ request with previousResponseId := none }, some (chainItems codec responses))
      | .error _ => (request, none)

/-- The items of a conversation, before those of the request. -/
def loadConversation (conversation : Option Str) (request : ResponsesRequest) :
    Except ErrorResponse ResponsesRequest :=
  match conversation with
  | none => .ok request
  | some convId =>
      match storage.getConversation convId with
      | .error e =>
          .error ⟨500, "check_conversation_failed".toList,
            "Failed to check conversation: ".toList ++ e⟩
      | .ok false =>
          .error ⟨404, "conversation_not_found".toList,
            "Conversation '".toList ++ (convId ++
              "' not found. Please create the conversation first using the conversations API.".toList)⟩
      | .ok true =>
          match storage.listItems convId with
          | .error _ => .ok request
          | .ok storedItems =>
              .ok { request with
                input := .items (storedItems.filterMap (storedMessage codec) ++
                  currentItems codec ("msg_u_".toList ++ convId) request.input) }

/-- `load_conversation_history`. -/
def loadConversationHistory (request : ResponsesRequest) : Except ErrorResponse ResponsesRequest :=
  let (modifiedRequest, conversationItems) := loadChain codec storage request
  match loadConversation codec storage request.conversation modifiedRequest with
  | .error e => .error e
  | .ok modifiedRequest =>
      match conversationItems with
      | none => .ok modifiedRequest
      | some items =>
          let id := "msg_u_".toList ++ request.previousResponseId.getD "new".toList
          .ok { modifiedRequest with
            input := .items (items ++ currentItems codec id modifiedRequest.input) }

/-- `build_next_request`. -/
def buildNextRequest (state : ToolLoopState) (currentRequest : ResponsesRequest) : ResponsesRequest :=
  { currentRequest with
    input := .items
      (currentItems codec ("msg_u_".toList ++ (toString state.iteration).toList) state.originalInput ++
        state.conversationHistory)
    store := some false
    previousResponseId := none
    conversation := none }

end History

/-! ### Calls -/

/-- What `call_tool` gives, up to the text of a result that can be serialised. -/
inductive CallResult where
  | ok (output : Str)
  | unserializable (error : Str)
  | error (error : Str)
  deriving DecidableEq, Repr

/-- The text of an error, as an object. -/
def errorJson (err : Str) : Str := (Value.ofMembers [("error", .string err)]).render

/-- The output for the model, whether the call succeeded, and its error. -/
def CallResult.outcome : CallResult → Str × Bool × Option Str
  | .ok output => (output, true, none)
  | .unserializable e =>
      let err := "Failed to serialize tool result: ".toList ++ e
      (errorJson err, false, some err)
  | .error e =>
      let err := "tool call failed: ".toList ++ e
      (errorJson err, false, some err)

/-- What the model answers to the chat requests so far, and what a tool gives after the calls so far. -/
structure World (α : Type) where
  chat : List ChatCompletionRequest → α
  callTool : List (Str × Str) → CallResult

/-- What a loop does not change. -/
structure LoopContext where
  uuid : Nat → Str
  unknownModelId : Str
  codec : Codec
  originalRequest : ResponsesRequest
  /-- The tools that are listed before the loop. -/
  mcpTools : List McpTool
  /-- The tools that are listed after it. -/
  lastTools : List McpTool
  responseId : Option Str

namespace LoopContext
variable (ctx : LoopContext)

def serverLabel : Str := extractServerLabel ctx.originalRequest.tools "request-mcp".toList

def limit : Nat := effectiveLimit ctx.originalRequest.maxToolCalls

def mcpToolCalls (toolCalls : List ExtractedToolCall) : List ExtractedToolCall :=
  toolCalls.filter (isMcp ctx.mcpTools)

def functionToolCalls (toolCalls : List ExtractedToolCall) : List ExtractedToolCall :=
  toolCalls.filter fun tc => !isMcp ctx.mcpTools tc

end LoopContext

/-- A loop between its turns, with the chat requests and the calls so far. -/
structure ToolLoop where
  state : ToolLoopState
  currentRequest : ResponsesRequest
  generated : Nat := 0
  asked : List ChatCompletionRequest := []
  called : List (Str × Str) := []

namespace ToolLoop

/-- The loop before its first turn. -/
def start (ctx : LoopContext) (modifiedRequest : ResponsesRequest) : ToolLoop where
  state := { originalInput := ctx.originalRequest.input, serverLabel := ctx.serverLabel }
  currentRequest := modifiedRequest

variable (ctx : LoopContext) (callTool : List (Str × Str) → CallResult) (l : ToolLoop)

def iterate : ToolLoop := { l with state := { l.state with iteration := l.state.iteration + 1 } }

/-- The calls with one more. -/
def callsWith (toolCall : ExtractedToolCall) : List (Str × Str) :=
  l.called ++ [(toolCall.name, toolCall.arguments)]

/-- A tool is called, and the call is recorded. -/
def execute (toolCall : ExtractedToolCall) : ToolLoop :=
  let called := l.callsWith toolCall
  let (outputStr, success, error) := (callTool called).outcome
  let state := l.state.recordCall (ctx.uuid l.generated) toolCall.callId toolCall.name
    toolCall.arguments outputStr success error
  { l with
    state := { state with totalCalls := state.totalCalls + 1 }
    generated := l.generated + 1
    called := called }

/-- The request of the next turn. -/
def next : ToolLoop :=
  { l with currentRequest := buildNextRequest ctx.codec l.state l.currentRequest }

/-- The chat request of a turn. -/
def chatRequest : Except Str ChatCompletionRequest :=
  match responsesToChat ctx.unknownModelId l.currentRequest with
  | .error e => .error e
  | .ok request =>
      .ok (prepareChatToolsAndChoice request (convertMcpToolsToChatTools ctx.mcpTools)
        l.state.iteration)

def ask (request : ChatCompletionRequest) : ToolLoop := { l with asked := l.asked ++ [request] }

/-- The response for a chat response. -/
def respond (chatResponse : ChatCompletionResponse) : Except ErrorResponse ResponsesResponse :=
  match chatToResponses chatResponse ctx.responseId with
  | .ok response => .ok response
  | .error e =>
      .error ⟨500, "convert_to_responses_format_failed".toList,
        "Failed to convert to responses format: ".toList ++ e⟩

/-- The end at the limit. -/
def limited (response : ResponsesResponse) : ResponsesResponse :=
  { response with
    status := .completed
    incompleteDetails := some (.ofMembers [("reason", .string "max_tool_calls".toList)]) }

/-- The end without a call: the calls of the run are put into the output. -/
def final (response : ResponsesResponse) : ResponsesResponse :=
  if 0 < l.state.totalCalls then
    { response with
      output := buildMcpListToolsItem (ctx.uuid l.generated) ctx.lastTools ctx.serverLabel ::
        response.output ++ l.state.mcpCallItems }
  else response

/-- A turn after the answer of the model. -/
def afterAnswer (chatResponse : ChatCompletionResponse) :
    ToolLoop × Option (Except ErrorResponse ResponsesResponse) :=
  let toolCalls := extractAllToolCallsFromChat chatResponse
  if toolCalls = [] then (l, some ((respond ctx chatResponse).map (l.final ctx)))
  else
    let l := l.iterate
    if ctx.functionToolCalls toolCalls ≠ [] then (l, some (respond ctx chatResponse))
    else if ctx.limit < l.state.totalCalls + (ctx.mcpToolCalls toolCalls).length then
      (l, some ((respond ctx chatResponse).map limited))
    else (((ctx.mcpToolCalls toolCalls).foldl (execute ctx callTool) l).next ctx, none)

/-- A turn of `execute_tool_loop`. -/
def turn (world : World (Except ErrorResponse ChatCompletionResponse)) :
    ToolLoop × Option (Except ErrorResponse ResponsesResponse) :=
  match l.chatRequest ctx with
  | .error e =>
      (l, some (.error ⟨400, "convert_request_failed".toList,
        "Failed to convert request: ".toList ++ e⟩))
  | .ok request =>
      let l := l.ask request
      match world.chat l.asked with
      | .error e => (l, some (.error e))
      | .ok chatResponse => l.afterAnswer ctx world.callTool chatResponse

end ToolLoop

/-- `execute_tool_loop`, for as many turns. -/
def executeToolLoop (ctx : LoopContext) (world : World (Except ErrorResponse ChatCompletionResponse))
    (turns : Nat) (modifiedRequest : ResponsesRequest) :
    ToolLoop × Option (Except ErrorResponse ResponsesResponse) :=
  Until.loop (fun l => l.turn ctx world) turns (ToolLoop.start ctx modifiedRequest)

end QwenStack.Grpc
