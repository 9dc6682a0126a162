import QwenStack.Responses.Patching

/-!
# Tool calls of a streamed response — what is sent to the client

`gateway/src/routers/openai/responses/streaming.rs` and `mcp.rs`: the events of the upstream are forwarded
to the client with indices and numbers of their own, and events of the gateway's come between them.

The client stays connected.  With each event stands the item that it is about (`Item`), which is not sent.
The ids that are generated, the tools and what they answer, and the parser are parameters (`Context`).
-/

namespace QwenStack.Responses

/-- A tool of a server. -/
structure McpTool where
  name : Str
  description : Option Str
  inputSchema : Value

/-- What a call of a tool comes to. -/
inductive CallResult where
  | ok (output : Str)
  | unserializable (error : Str)
  | failed (error : Str)

/-- What a run is given. -/
structure Context where
  types : ProtocolTypes
  request : ResponsesRequest
  previousResponseId : Option Str
  tools : List McpTool
  maxIterations : Nat
  /-- The id of a generated item, with the number of the ones before it. -/
  generateId : Str → Nat → Str
  /-- `call_tool`, with the number of the calls before it. -/
  callTool : Nat → Str → Str → CallResult
  /-- The JSON of a text. -/
  fromStr : Str → Option Value

/-- An item of the upstream in one iteration, or the list of tools. -/
inductive Item where
  | upstream (iteration index : Nat)
  | listTools
  deriving DecidableEq, Repr

/-- A block that is sent to the client. -/
inductive Sent where
  | event (item : Option Item) (name : Option Str) (data : Value)
  | verbatim (e : Event)
  | error (message : Str)
  | done

/-- The channel to the client, the next sequence number, and how many ids have been generated. -/
structure Client where
  channel : List Sent := []
  sequenceNumber : Nat := 0
  generated : Nat := 0

namespace Client
variable (c : Client)

def send (block : Sent) : Client := { c with channel := c.channel ++ [block] }

/-- An event of the gateway's own, which takes a number. -/
def sendEvent (item : Option Item) (name : Str) (members : List (String × Value)) : Client :=
  { c with
    channel := c.channel ++ [.event item (some name) (.ofMembers
      ([("type", .string name), ("sequence_number", .integer c.sequenceNumber)] ++ members))]
    sequenceNumber := c.sequenceNumber + 1 }

/-- A new id. -/
def generate : Client := { c with generated := c.generated + 1 }

end Client

/-! ### Items -/

/-- `build_mcp_list_tools_item`. -/
def buildMcpListToolsItem (ctx : Context) (serverLabel id : Str) : Value :=
  .ofMembers [("id", .string id), ("type", .string ctx.types.mcpListTools),
    ("server_label", .string serverLabel),
    ("tools", .array (ctx.tools.map fun t => .ofMembers [("name", .string t.name),
      ("description", .ofOption t.description), ("input_schema", t.inputSchema),
      ("annotations", .ofMembers [("read_only", .bool false)])]))]

/-- `build_mcp_call_item`. -/
def buildMcpCallItem (types : ProtocolTypes) (id toolName arguments output serverLabel : Str)
    (success : Bool) (error : Option Str) : Value :=
  .ofMembers [("id", .string id), ("type", .string types.mcpCall),
    ("status", .string (if success = true then "completed".toList else "failed".toList)),
    ("approval_request_id", .null), ("arguments", .string arguments), ("error", .ofOption error),
    ("name", .string toolName), ("output", .string output), ("server_label", .string serverLabel)]

/-- The output of the call with an id: the first in the history. -/
def outputOf (history : List Value) (callId : Str) : Str :=
  ((history.find? fun o => decide (Value.getStr "type".toList o = some "function_call_output".toList) &&
      decide (Value.getStr "call_id".toList o = some callId)).bind
    (Value.getStr "output".toList)).getD "{}".toList

/-- The item of a function call in the history. -/
def executedMcpCallItem (ctx : Context) (history : List Value) (serverLabel id : Str) (item : Value) :
    Value :=
  let output := outputOf history ((Value.getStr "call_id".toList item).getD [])
  let isError := ((ctx.fromStr output).bind fun v => v.get "error".toList).isSome
  buildMcpCallItem ctx.types id ((Value.getStr "name".toList item).getD [])
    ((Value.getStr "arguments".toList item).getD "{}".toList) output serverLabel (!isError)
    (if isError = true then some "Tool execution failed".toList else none)

/-- `build_executed_mcp_call_items`: the items, with the ids from a number on. -/
def buildExecutedMcpCallItems (ctx : Context) (history : List Value) (serverLabel : Str)
    (generated : Nat) : List Value :=
  (history.filter fun item =>
      decide (Value.getStr "type".toList item = some ctx.types.functionCall)).mapIdx fun i item =>
    executedMcpCallItem ctx history serverLabel (ctx.generateId "mcp".toList (generated + i)) item

/-! ### Forwarding -/

/-- `original_response_id`, of the handler and its accumulator. -/
def originalResponseId (h : StreamingToolHandler) (acc : Accumulator) : Option Str :=
  h.originalResponseId.or acc.originalResponseId

/-- `send_buffered_arguments`: the event with its arguments, the index of the client, and the client. -/
def sendBufferedArguments (ctx : Context) (item : Option Item) (h : StreamingToolHandler)
    (parsed : Value) (c : Client) : Value × Option Nat × Client :=
  match extractOutputIndex parsed with
  | none => (parsed, none, c)
  | some outputIndex =>
      let assignedIndex := (h.outputIndexMapper.lookup outputIndex).getD outputIndex
      match h.pendingCalls.find? fun call => call.outputIndex = outputIndex with
      | none => (parsed, some assignedIndex, c)
      | some call =>
          let argumentsValue :=
            if call.argumentsBuffer = [] then "{}".toList else call.argumentsBuffer
          let parsed := parsed.insert "arguments".toList (.string argumentsValue)
          let itemId := (Value.getStr "item_id".toList parsed).getD []
          let obfuscation :=
            (call.lastObfuscation.map Value.string).or (parsed.get "obfuscation".toList)
          (parsed, some assignedIndex, c.sendEvent item ctx.types.callArgumentsDelta
            ([("output_index", .integer assignedIndex),
              ("item_id", .string (transformFcToMcpId itemId)), ("delta", .string argumentsValue)] ++
              (obfuscation.map fun v => ("obfuscation", v)).toList))

/-- `map_event_name`. -/
def mapEventName (types : ProtocolTypes) (eventName : Str) : Str :=
  if eventName = types.argumentsDelta then types.callArgumentsDelta
  else if eventName = types.argumentsDone then types.callArgumentsDone
  else eventName

/-- `maybe_inject_mcp_in_progress`. -/
def maybeInjectMcpInProgress (ctx : Context) (item : Option Item) (parsed : Value) (c : Client) :
    Client :=
  match parsed.get "item".toList with
  | none => c
  | some v =>
      if Value.getStr "type".toList v = some ctx.types.mcpCall then
        match Value.getStr "id".toList v, extractOutputIndex parsed with
        | some itemId, some outputIndex =>
            c.sendEvent item ctx.types.callInProgress
              [("output_index", .integer outputIndex), ("item_id", .string itemId)]
        | _, _ => c
      else c

/-- The index of the client is put into an event. -/
def remapOutputIndex (mapped : Option Nat) (parsed : Value) : Value :=
  match mapped with
  | some i => parsed.insert "output_index".toList (.integer i)
  | none => parsed

/-- The id of the first response is put into an event. -/
def restoreResponseId (id : Option Str) (parsed : Value) : Value :=
  match id with
  | some id => modifyMember "response" (fun v => v.insert "id".toList (.string id)) parsed
  | none => parsed

/-- An event is sent with a number of the client if it has one. -/
def Client.sendNumbered (c : Client) (item : Option Item) (name : Option Str) (parsed : Value) :
    Client :=
  if (parsed.get "sequence_number".toList).isSome = true then
    { c with
      channel := c.channel ++
        [.event item name (parsed.insert "sequence_number".toList (.integer c.sequenceNumber))]
      sequenceNumber := c.sequenceNumber + 1 }
  else c.send (.event item name parsed)

/-- The arguments of a call are sent before their end. -/
def sendBuffered (ctx : Context) (item : Option Item) (h : StreamingToolHandler)
    (eventName : Option Str) (parsed : Value) (c : Client) : Value × Option Nat × Client :=
  if eventName = some ctx.types.argumentsDone then sendBufferedArguments ctx item h parsed c
  else (parsed, none, c)

/-- An event for the client, but for its number. -/
def transformEvent (ctx : Context) (h : StreamingToolHandler) (acc : Accumulator)
    (mapped : Option Nat) (parsed : Value) : Value :=
  let mapped := mapped.or ((extractOutputIndex parsed).bind h.outputIndexMapper.lookup)
  restoreResponseId (originalResponseId h acc)
    (applyEventTransformations ctx.types ctx.request ctx.previousResponseId
      (remapOutputIndex mapped parsed))

/-- `forward_streaming_event`. -/
def forwardStreamingEvent (ctx : Context) (iteration : Nat) (h : StreamingToolHandler)
    (acc : Accumulator) (c : Client) (e : Event) : Client :=
  if e.eventName = some ctx.types.argumentsDelta then c
  else
    match e.data with
    | none => c.send (.verbatim e)
    | some parsed =>
        if getEventType e.eventName parsed = ctx.types.completed then c
        else
          let item := (extractOutputIndex parsed).map (Item.upstream iteration)
          let buffered := sendBuffered ctx item h e.eventName parsed c
          let parsed := transformEvent ctx h acc buffered.2.1 buffered.1
          let c := buffered.2.2.sendNumbered item (e.eventName.map (mapEventName ctx.types)) parsed
          if e.eventName = some ctx.types.itemAdded then maybeInjectMcpInProgress ctx item parsed c
          else c

/-! ### The gateway's own events -/

/-- `send_mcp_list_tools_events`. -/
def sendMcpListToolsEvents (ctx : Context) (outputIndex : Nat) (c : Client) : Client :=
  let full := buildMcpListToolsItem ctx ctx.request.serverLabel
    (ctx.generateId "mcpl".toList c.generated)
  let itemId := (Value.getStr "id".toList full).getD []
  let empty := full.insert "tools".toList (.array [])
  let c := c.generate.sendEvent (some .listTools) ctx.types.itemAdded
    [("output_index", .integer outputIndex), ("item", empty)]
  let c := c.sendEvent (some .listTools) ctx.types.listToolsInProgress
    [("output_index", .integer outputIndex), ("item_id", .string itemId)]
  let c := c.sendEvent (some .listTools) ctx.types.listToolsCompleted
    [("output_index", .integer outputIndex), ("item_id", .string itemId)]
  c.sendEvent (some .listTools) ctx.types.itemDone
    [("output_index", .integer outputIndex), ("item", full)]

def FunctionCallInProgress.effectiveOutputIndex (call : FunctionCallInProgress) : Nat :=
  call.assignedOutputIndex.getD call.outputIndex

/-- `send_mcp_call_completion_events_with_error`. -/
def sendMcpCallCompletionEvents (ctx : Context) (iteration : Nat) (call : FunctionCallInProgress)
    (output : Str) (success : Bool) (error : Option Str) (c : Client) : Client :=
  let mcpCallItem := buildMcpCallItem ctx.types (ctx.generateId "mcp".toList c.generated) call.name
    call.argumentsBuffer output ctx.request.serverLabel success error
  let itemId := (Value.getStr "id".toList mcpCallItem).getD []
  let item := some (.upstream iteration call.outputIndex)
  let c := c.generate.sendEvent item ctx.types.callCompleted
    [("output_index", .integer call.effectiveOutputIndex), ("item_id", .string itemId)]
  c.sendEvent item ctx.types.itemDone
    [("output_index", .integer call.effectiveOutputIndex), ("item", mcpCallItem)]

/-- `inject_mcp_metadata_streaming`, with the ids from a number on. -/
def injectMcpMetadata (ctx : Context) (history : List Value) (generated : Nat) (response : Value) :
    Value :=
  let listToolsItem := buildMcpListToolsItem ctx ctx.request.serverLabel
    (ctx.generateId "mcpl".toList generated)
  let callItems :=
    buildExecutedMcpCallItems ctx history ctx.request.serverLabel (generated + 1)
  match (response.get "output".toList).bind Value.asArray with
  | some outputs => response.insert "output".toList (.array (listToolsItem :: callItems ++
      outputs.filter fun item =>
        decide (Value.getStr "type".toList item ≠ some ctx.types.mcpListTools)))
  | none => response.insert "output".toList (.array (listToolsItem :: callItems))

/-- How many ids the items of MCP take; what is no object gets none. -/
def generatedForMetadata (ctx : Context) (history : List Value) (response : Value) : Nat :=
  if response.isObject = true then
    1 + (buildExecutedMcpCallItems ctx history ctx.request.serverLabel 0).length
  else 0

/-- A response for the client, or to store. -/
def finishResponse (ctx : Context) (history : List Value) (generated : Nat) (id : Option Str)
    (response : Value) : Value :=
  let response := match id with
    | some id => response.insert "id".toList (.string id)
    | none => response
  let response := injectMcpMetadata ctx history generated response
  patchResponseWithRequestMetadata ctx.request ctx.previousResponseId
    (maskToolsAsMcp ctx.request response)

/-- `send_final_response_event`. -/
def sendFinalResponseEvent (ctx : Context) (h : StreamingToolHandler) (acc : Accumulator)
    (history : List Value) (c : Client) : Client :=
  match acc.finalResponse with
  | none => c
  | some response =>
      let final := finishResponse ctx history c.generated (originalResponseId h acc) response
      { c with generated := c.generated + generatedForMetadata ctx history response }.sendEvent none
        ctx.types.completed
        [("response", final.insert "status".toList (.string "completed".toList))]

/-! ### The events of an iteration -/

/-- An iteration, with what is sent. -/
structure Stream where
  loop : Loop
  accumulator : Accumulator := {}
  isFirstIteration : Bool
  iteration : Nat
  client : Client

namespace Stream
variable (ctx : Context) (s : Stream)

/-- The handler and the accumulator read an event. -/
def process (e : Event) : Stream × StreamAction :=
  let (handler, action) := s.loop.handler.processEvent ctx.types.toEventTypes e
  ({ s with
      loop := { s.loop with handler := handler }
      accumulator := s.accumulator.ingest ctx.types.toEventTypes e.rewrapped }, action)

def sendForward (e : Event) : Stream :=
  { s with
    client := forwardStreamingEvent ctx s.iteration s.loop.handler s.accumulator s.client e }

/-- The type that the data of an event gives. -/
def dataType (e : Event) : Option Str := e.data.bind (Value.getStr "type".toList)

/-- Later iterations skip the start of a response. -/
def sendUnlessSkipped (e : Event) : Stream :=
  if s.isFirstIteration = false ∧
    (dataType e = some ctx.types.created ∨ dataType e = some ctx.types.inProgress) then s
  else s.sendForward ctx e

/-- The list of tools is sent once, after the first `response.in_progress`. -/
def sendListTools (e : Event) : Client :=
  if s.loop.seenInProgress = false ∧ dataType e = some ctx.types.inProgress ∧
    s.loop.mcpListToolsSent = false then
    sendMcpListToolsEvents ctx s.loop.handler.allocateSyntheticOutputIndex.1 s.client
  else s.client

/-- `Forward`. -/
def forward (e : Event) : Stream :=
  let s := s.sendUnlessSkipped ctx e
  { s with loop := s.loop.afterForward ctx.types.toEventTypes e, client := s.sendListTools ctx e }

/-- The events up to one that leaves the stream, and whether there is one. -/
def run (s : Stream) : List Event → Stream × Bool
  | [] => (s, false)
  | e :: events =>
      match s.process ctx e with
      | (s, .forward) => run (s.forward ctx e) events
      | (s, .buffer) => run s events
      | (s, .executeTools) => (s.sendForward ctx e, true)

end Stream

end QwenStack.Responses
