import QwenStack.Harmony.Output

/-!
# Responses over chat — Definitions

`gateway/src/routers/grpc/regular/responses/common.rs` and `conversions.rs`, and
`grpc/common/responses/utils.rs`: a request for a response is answered through chat requests.  Its input
items become chat messages, its function tools and the tools of MCP servers become chat tools, and the
message of the model becomes output items.

Fields that are only copied from a request into the next, and from one into the answer, are left out.  The
clock is a parameter of what reads it, and so are the ids that are generated (`uuid`).
-/

namespace QwenStack.Grpc
open Harmony (ToolCall FunctionCallResponse)

/-! ### Requests -/

inductive ResponseContentPart where
  | inputText (text : Str)
  | outputText (text : Str)
  | unknown
  deriving DecidableEq, Repr

inductive StringOrContentParts where
  | string (s : Str)
  | array (parts : List ResponseContentPart)
  deriving DecidableEq, Repr

/-- `ResponseInputOutputItem`; a reasoning content is a text. -/
inductive InputItem where
  | simpleInputMessage (content : StringOrContentParts) (role : Str)
  | message (id role : Str) (content : List ResponseContentPart) (status : Option Str)
  | reasoning (id : Str) (content : List Str) (status : Option Str)
  | functionToolCall (id callId name arguments : Str) (output status : Option Str)
  | functionCallOutput (callId output : Str)
  deriving DecidableEq, Repr

inductive ResponseInput where
  | text (text : Str)
  | items (items : List InputItem)
  deriving DecidableEq, Repr

inductive ToolChoice where
  | auto
  | other (choice : Value)

/-- The `Function` of a tool. -/
structure Function where
  name : Str
  description : Option Str
  parameters : Value
  strict : Option Bool

inductive ResponseToolType where
  | function | mcp | other
  deriving DecidableEq, Repr

structure ResponseTool where
  type : ResponseToolType
  function : Option Function := none
  serverUrl : Option Str := none
  serverLabel : Option Str := none
  authorization : Option Str := none
  serverDescription : Option Str := none

structure ResponsesRequest where
  input : ResponseInput
  model : Str := []
  instructions : Option Str := none
  tools : Option (List ResponseTool) := none
  maxToolCalls : Option Nat := none
  toolChoice : Option ToolChoice := none
  stream : Option Bool := none
  store : Option Bool := none
  previousResponseId : Option Str := none
  conversation : Option Str := none

/-- `mcp::Tool`. -/
structure McpTool where
  name : Str
  description : Option Str
  inputSchema : List (Str × Value)

/-! ### Chat -/

/-- `chat::ChatMessage`. -/
inductive ChatMessage where
  | system (content : Str)
  | user (content : Str)
  | assistant (content : Option Str) (toolCalls : Option (List ToolCall)) (reasoningContent : Option Str)
  | tool (content toolCallId : Str)
  deriving DecidableEq, Repr

/-- `common::Tool`. -/
structure Tool where
  toolType : Str
  function : Function

structure ChatCompletionRequest where
  messages : List ChatMessage
  model : Str
  stream : Bool
  tools : Option (List Tool)
  toolChoice : Option ToolChoice

structure Usage where
  promptTokens : Nat
  completionTokens : Nat
  totalTokens : Nat
  reasoningTokens : Option Nat
  deriving DecidableEq, Repr

structure ChatCompletionMessage where
  content : Option Str
  toolCalls : Option (List ToolCall)
  reasoningContent : Option Str
  deriving DecidableEq, Repr

structure ChatChoice where
  message : ChatCompletionMessage
  finishReason : Option Str
  deriving DecidableEq, Repr

structure ChatCompletionResponse where
  id : Str
  model : Str
  created : Int := 0
  choices : List ChatChoice
  usage : Option Usage
  deriving DecidableEq, Repr

/-! ### Responses -/

/-- `ResponseOutputItem`; a message has one text. -/
inductive OutputItem where
  | message (id text status : Str)
  | reasoning (id text : Str) (status : Option Str)
  | functionToolCall (id callId name arguments : Str) (output : Option Str) (status : Str)
  | mcpListTools (id serverLabel : Str) (tools : List McpTool)
  | mcpCall (id status arguments : Str) (error : Option Str) (name output serverLabel : Str)

inductive ResponseStatus where
  | inProgress | completed | failed
  deriving DecidableEq, Repr

structure ResponsesResponse where
  id : Str
  model : Str
  createdAt : Int
  status : ResponseStatus
  output : List OutputItem
  incompleteDetails : Option Value := none
  usage : Option Usage := none

/-! ### `conversions.rs` -/

/-- The text of a part, of input only. -/
def ResponseContentPart.inputOnly : ResponseContentPart → Option Str
  | .inputText text => some text
  | _ => none

/-- The text of a part. -/
def ResponseContentPart.text : ResponseContentPart → Option Str
  | .inputText text => some text
  | .outputText text => some text
  | .unknown => none

/-- `join`. -/
def join (separator : Str) : List Str → Str
  | [] => []
  | [text] => text
  | text :: rest => text ++ separator ++ join separator rest

/-- `extract_text_from_content`. -/
def extractTextFromContent (content : List ResponseContentPart) : Str :=
  join [] (content.filterMap ResponseContentPart.text)

/-- `role_to_chat_message`. -/
def roleToChatMessage (role text : Str) : ChatMessage :=
  if role = "user".toList then .user text
  else if role = "assistant".toList then .assistant (some text) none none
  else if role = "system".toList then .system text
  else .user text

/-- The text of a simple message; the parts of an array are joined with blanks. -/
def StringOrContentParts.text : StringOrContentParts → Str
  | .string s => s
  | .array parts => join " ".toList (parts.filterMap ResponseContentPart.inputOnly)

/-- The messages of an item. -/
def InputItem.messages : InputItem → List ChatMessage
  | .simpleInputMessage content role => [roleToChatMessage role content.text]
  | .message _ role content _ => [roleToChatMessage role (extractTextFromContent content)]
  | .functionToolCall id _ name arguments output _ =>
      .assistant none (some [⟨id, "function".toList, ⟨name, some arguments⟩⟩]) none ::
        (output.map fun outputText => .tool outputText id).toList
  | .reasoning _ content _ => [.assistant none none (some (join "\n".toList content))]
  | .functionCallOutput callId output => [.tool output callId]

/-- The messages of an input. -/
def ResponseInput.messages : ResponseInput → List ChatMessage
  | .text s => [.user s]
  | .items l => l.flatMap InputItem.messages

/-- The system message. -/
def systemMessages (instructions : Option Str) : List ChatMessage :=
  (instructions.map ChatMessage.system).toList

/-- The chat tool of a tool that may be offered. -/
def ResponseTool.chatTool (includeMcp : Bool) (tool : ResponseTool) : Option Tool :=
  match tool.type with
  | .function => tool.function.map fun f => ⟨"function".toList, f⟩
  | .mcp => if includeMcp = true then tool.function.map fun f => ⟨"function".toList, f⟩ else none
  | .other => none

/-- `extract_tools_from_response_tools`. -/
def extractToolsFromResponseTools (responseTools : Option (List ResponseTool)) (includeMcp : Bool) :
    List Tool :=
  (responseTools.getD []).filterMap (ResponseTool.chatTool includeMcp)

/-- `UNKNOWN_MODEL_ID` is a parameter, as it is defined in another crate. -/
def responsesToChat (unknownModelId : Str) (req : ResponsesRequest) :
    Except Str ChatCompletionRequest :=
  let messages := systemMessages req.instructions ++ req.input.messages
  if messages = [] then .error "Request must contain at least one message".toList
  else
    let functionTools := extractToolsFromResponseTools req.tools false
    .ok {
      messages := messages
      model := if req.model = [] then unknownModelId else req.model
      stream := req.stream.getD false
      tools := if functionTools.isEmpty = true then none else some functionTools
      toolChoice := req.toolChoice }

/-- The message item of a content. -/
def messageItems (chatId : Str) (content : Option Str) : List OutputItem :=
  match content with
  | some content =>
      if content = [] then [] else [.message ("msg_".toList ++ chatId) content "completed".toList]
  | none => []

/-- The reasoning item of a content. -/
def reasoningItems (chatId : Str) (reasoning : Option Str) : List OutputItem :=
  match reasoning with
  | some reasoning =>
      if reasoning = [] then []
      else [.reasoning ("reasoning_".toList ++ chatId) reasoning (some "completed".toList)]
  | none => []

/-- A call that is not executed yet. -/
def callItem (toolCall : ToolCall) : OutputItem :=
  .functionToolCall toolCall.id toolCall.id toolCall.function.name
    (toolCall.function.arguments.getD []) none "in_progress".toList

def statusOf (finishReason : Option Str) : ResponseStatus :=
  if finishReason = some "tool_calls".toList then .inProgress
  else if finishReason = some "failed".toList ∨ finishReason = some "error".toList then .failed
  else .completed

/-- `chat_to_responses`. -/
def chatToResponses (chatResp : ChatCompletionResponse) (responseIdOverride : Option Str) :
    Except Str ResponsesResponse :=
  match chatResp.choices with
  | [] => .error "Chat response contains no choices".toList
  | choice :: _ =>
      .ok {
        id := responseIdOverride.getD chatResp.id
        model := chatResp.model
        createdAt := chatResp.created
        status := statusOf choice.finishReason
        output := messageItems chatResp.id choice.message.content ++
          reasoningItems chatResp.id choice.message.reasoningContent ++
          (choice.message.toolCalls.getD []).map callItem
        usage := chatResp.usage }

end QwenStack.Grpc
