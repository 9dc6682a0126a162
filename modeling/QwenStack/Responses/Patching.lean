import Mathlib.Data.List.Sort
import QwenStack.Responses.Definitions

/-!
# Tool calls of a streamed response — what the client's view of a response is made of

`gateway/src/routers/openai/responses/utils.rs`, `accumulator.rs` and the transformations of
`streaming.rs`: members of the request are put into a response, function calls are shown as calls of MCP
tools, and the events of a stream are gathered into a response.

An event has one line of data.  To set a member to the value that it has changes nothing, so that the
comparison before it is left out.  Of the tools of the server its descriptions are kept as they are listed.
-/

namespace QwenStack.Responses

/-- The constants of `McpEvent` and `ItemType` as well; the events of a stream have names of their own. -/
structure ProtocolTypes extends EventTypes where
  callArgumentsDelta : Str
  callArgumentsDone : Str
  callInProgress : Str
  callCompleted : Str
  listToolsInProgress : Str
  listToolsCompleted : Str
  functionCall : Str
  mcpCall : Str
  mcpListTools : Str
  isResponseEvent : Str → Bool
  distinct : [created, inProgress, completed, itemAdded, itemDelta, itemDone, argumentsDelta,
    argumentsDone].Nodup
  functionCall_ne : functionCall ≠ "function_call_output".toList
  added_ne : itemAdded ∉ [callArgumentsDelta, callArgumentsDone, callInProgress, callCompleted,
    listToolsInProgress, listToolsCompleted]

/-! ### The request -/

/-- `ResponseTool`. -/
structure Tool where
  isMcp : Bool
  serverUrl : Option Str := none
  serverLabel : Option Str := none
  serverDescription : Option Str := none
  requireApproval : Option Str := none
  allowedTools : Option (List Str) := none

/-- `ResponseInput`; the items as they are written in JSON. -/
inductive ResponseInput where
  | text (text : Str)
  | items (items : List Value)

/-- What is read of a `ResponsesRequest`. -/
structure ResponsesRequest where
  input : ResponseInput
  model : Str
  store : Option Bool := none
  conversation : Option Str := none
  instructions : Option Str := none
  metadata : Option (List (Str × Value)) := none
  user : Option Str := none
  tools : Option (List Tool) := none
  maxToolCalls : Option Nat := none

namespace ResponsesRequest
variable (r : ResponsesRequest)

def storeOrDefault : Bool := r.store.getD false

/-- The label in a streamed response: that of the first MCP tool. -/
def serverLabel : Str :=
  (((r.tools.getD []).find? Tool.isMcp).bind Tool.serverLabel).getD "mcp".toList

/-- `extract_server_label`: the first label of an MCP tool. -/
def extractServerLabel (defaultLabel : Str) : Str :=
  ((r.tools.getD []).findSome? fun tool => if tool.isMcp = true then tool.serverLabel else none).getD
    defaultLabel

/-- The first MCP tool with a server. -/
def mcpTool : Option Tool :=
  (r.tools.getD []).find? fun tool => tool.isMcp && tool.serverUrl.isSome

end ResponsesRequest

/-! ### Members of the request in a response -/

def isMissingOrEmpty : Option Value → Bool
  | none => true
  | some v => v.isNull || decide (v.asStr = some [])

/-- A text is set where there is none. -/
def insertIfMissing (key : String) (value : Option Str) (obj : Value) : Value :=
  match value with
  | some s =>
      if isMissingOrEmpty (obj.get key.toList) = true then obj.insert key.toList (.string s) else obj
  | none => obj

def insertStore (r : ResponsesRequest) (obj : Value) : Value :=
  obj.insert "store".toList (.bool r.storeOrDefault)

def insertConversation (r : ResponsesRequest) (obj : Value) : Value :=
  match r.conversation with
  | some id => obj.insert "conversation".toList (.ofMembers [("id", .string id)])
  | none => obj

def insertMetadata (r : ResponsesRequest) (obj : Value) : Value :=
  if isMissingOrEmpty (obj.get "metadata".toList) = true then
    match r.metadata with
    | some entries => obj.insert "metadata".toList (.object entries)
    | none => obj
  else obj

def insertUser (r : ResponsesRequest) (obj : Value) : Value :=
  match r.user, obj.get "safety_identifier".toList with
  | some user, some .null => obj.insert "safety_identifier".toList (.string user)
  | _, _ => obj

/-- `patch_response_with_request_metadata`. -/
def patchResponseWithRequestMetadata (r : ResponsesRequest) (previousResponseId : Option Str)
    (response : Value) : Value :=
  let obj := insertIfMissing "previous_response_id" previousResponseId response
  let obj := insertIfMissing "instructions" r.instructions obj
  let obj := insertStore r (insertMetadata r obj)
  let obj := insertIfMissing "model" (some r.model) obj
  insertConversation r (insertUser r obj)

/-- `rewrite_streaming_block`, of the event in the block. -/
def rewriteStreamingBlock (types : ProtocolTypes) (r : ResponsesRequest)
    (previousResponseId : Option Str) (e : Event) : Event :=
  match e.data with
  | none => e
  | some parsed =>
      if types.isResponseEvent ((Value.getStr "type".toList parsed).getD []) = false then e
      else
        match parsed.get "response".toList with
        | none => e
        | some response =>
            let obj := insertIfMissing "previous_response_id" previousResponseId
              (insertStore r response)
            { eventName := e.eventName
              data := some (parsed.insert "response".toList (insertConversation r obj)) }

/-! ### Tools as MCP tools -/

def optionalMember (key : String) : Option Str → List (String × Value)
  | some s => [(key, .string s)]
  | none => []

/-- `build_mcp_tools_value`. -/
def buildMcpToolsValue (r : ResponsesRequest) : Option Value :=
  r.mcpTool.map fun tool => .array [.ofMembers [("type", .string "mcp".toList),
    ("server_label", .ofOption tool.serverLabel), ("server_url", .ofOption tool.serverUrl)]]

/-- `mask_tools_as_mcp`. -/
def maskToolsAsMcp (r : ResponsesRequest) (response : Value) : Value :=
  match r.mcpTool with
  | none => response
  | some tool =>
      let members := [("type", Value.string "mcp".toList)] ++
        optionalMember "server_label" tool.serverLabel ++
        optionalMember "server_url" tool.serverUrl ++
        optionalMember "server_description" tool.serverDescription ++
        optionalMember "require_approval" tool.requireApproval ++
        match tool.allowedTools with
        | some allowed => [("allowed_tools", .array (allowed.map .string))]
        | none => []
      (response.insert "tools".toList (.array [.ofMembers members])).orInsert
        "tool_choice".toList (.string "auto".toList)

/-- `transform_fc_to_mcp_id`. -/
def transformFcToMcpId (itemId : Str) : Str :=
  match itemId.dropPrefix? "fc_".toList with
  | some stripped => "mcp_".toList ++ stripped
  | none => itemId

/-- An id in a member. -/
def transformId (key : String) (obj : Value) : Value :=
  match Value.getStr key.toList obj with
  | some id => obj.insert key.toList (.string (transformFcToMcpId id))
  | none => obj

/-- The response in an event for the client. -/
def transformResponse (r : ResponsesRequest) (previousResponseId : Option Str) (response : Value) :
    Value :=
  let obj := insertIfMissing "previous_response_id" previousResponseId (insertStore r response)
  if (obj.get "tools".toList).isSome = true ∧ (r.tools.getD []).any Tool.isMcp = true then
    match buildMcpToolsValue r with
    | some mcpTools =>
        (obj.insert "tools".toList mcpTools).orInsert "tool_choice".toList (.string "auto".toList)
    | none => obj
  else obj

/-- A function call as an item of MCP. -/
def transformItem (types : ProtocolTypes) (serverLabel : Str) (item : Value) : Value :=
  if (Value.getStr "type".toList item).any types.isFunctionCallType = true then
    transformId "id" ((item.insert "type".toList (.string types.mcpCall)).insert
      "server_label".toList (.string serverLabel))
  else item

/-- A member, changed where there is one. -/
def modifyMember (key : String) (f : Value → Value) (obj : Value) : Value :=
  match obj.get key.toList with
  | some v => obj.insert key.toList (f v)
  | none => obj

/-- `apply_event_transformations_inplace`. -/
def applyEventTransformations (types : ProtocolTypes) (r : ResponsesRequest)
    (previousResponseId : Option Str) (parsed : Value) : Value :=
  let eventType := (Value.getStr "type".toList parsed).getD []
  let parsed :=
    if types.isResponseEvent eventType = true then
      modifyMember "response" (transformResponse r previousResponseId) parsed
    else parsed
  if eventType = types.itemAdded ∨ eventType = types.itemDone then
    modifyMember "item" (transformItem types r.serverLabel) parsed
  else if eventType = types.argumentsDone then
    transformId "item_id" (parsed.insert "type".toList (.string types.callArgumentsDone))
  else parsed

/-! ### The accumulator -/

/-- `StreamingResponseAccumulator`. -/
structure Accumulator where
  initialResponse : Option Value := none
  completedResponse : Option Value := none
  outputItems : List (Nat × Value) := []
  encounteredError : Option Value := none

namespace Accumulator
variable (acc : Accumulator)

/-- `ingest_block`, of the event in the block. -/
def ingest (types : EventTypes) (e : Event) : Accumulator :=
  match e.data with
  | none => acc
  | some parsed =>
      let eventType := getEventType e.eventName parsed
      if eventType = types.created then
        { acc with initialResponse := acc.initialResponse.or (parsed.get "response".toList) }
      else if eventType = types.completed then
        { acc with
          completedResponse := (parsed.get "response".toList).or acc.completedResponse }
      else if eventType = types.itemDone then
        match extractOutputIndex parsed, parsed.get "item".toList with
        | some index, some item => { acc with outputItems := acc.outputItems ++ [(index, item)] }
        | _, _ => acc
      else if eventType = "response.error".toList then { acc with encounteredError := some parsed }
      else acc

def originalResponseId : Option Str := acc.initialResponse.bind (Value.getStr "id".toList)

/-- The outputs, by index. -/
def sortedOutputs : List Value :=
  (acc.outputItems.insertionSort fun x y => x.1 ≤ y.1).map Prod.snd

/-- `build_fallback_response`, and of a snapshot. -/
def buildFallbackResponse : Option Value :=
  acc.initialResponse.map fun response =>
    (response.insert "status".toList (.string "completed".toList)).insert "output".toList
      (.array acc.sortedOutputs)

/-- `into_final_response`, and `snapshot_final_response`. -/
def finalResponse : Option Value := acc.completedResponse.or acc.buildFallbackResponse

end Accumulator

end QwenStack.Responses
