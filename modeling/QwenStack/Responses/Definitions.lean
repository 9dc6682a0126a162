import QwenStack.Support.Value

/-!
# Tool calls of a streamed response — Definitions

`gateway/src/routers/openai/responses/tool_handler.rs`, `mcp.rs` and `streaming.rs`: the gateway reads the
events of a response, and leaves the stream to call the tools when the model has asked for some.

An event is what its block says: its name, and its data if that is JSON.  The accumulator reads another
block, with the lines of data behind one `data: `, of which it keeps the first (`again`).  The names of the
event types are defined in another crate and are a parameter (`EventTypes`).  The client stays connected here, and the
stream ends without an error.  What the client is sent, the accumulator that is fed the same events, and
what the tools answer are left out.
-/

namespace QwenStack.Responses
open Assoc

/-- The constants of `ResponseEvent`, `OutputItemEvent` and `FunctionCallEvent`. -/
structure EventTypes where
  created : Str
  inProgress : Str
  completed : Str
  itemAdded : Str
  itemDelta : Str
  itemDone : Str
  argumentsDelta : Str
  argumentsDone : Str
  isFunctionCallType : Str → Bool

/-- A block of the stream. -/
structure Event where
  eventName : Option Str
  data : Option Value
  /-- What is read when `data: ` is put before the data again: the same, unless it had several lines. -/
  again : Option Str × Option Value := (eventName, data)

/-- The block that `process_event` makes of an event for its accumulator. -/
def Event.rewrapped (e : Event) : Event := { eventName := e.again.1, data := e.again.2 }

/-- A member that is a text. -/
def Value.getStr (key : Str) (v : Value) : Option Str := (v.get key).bind Value.asStr

theorem Value.getStr_ofMembers_cons (key key' : String) (v : Value)
    (members : List (String × Value)) :
    Value.getStr key.toList (.ofMembers ((key', v) :: members)) =
      if key = key' then v.asStr else Value.getStr key.toList (.ofMembers members) := by
  rw [getStr, QwenStack.Value.get_ofMembers_cons]
  split <;> rfl

/-- `extract_output_index`. -/
def extractOutputIndex (v : Value) : Option Nat := (v.get "output_index".toList).bind Value.asU64

/-- `get_event_type`. -/
def getEventType (eventName : Option Str) (parsed : Value) : Str :=
  (eventName.or (Value.getStr "type".toList parsed)).getD []

/-! ### The handler -/

inductive StreamAction where
  | forward
  | buffer
  | executeTools
  deriving DecidableEq, Repr

structure OutputIndexMapper where
  nextIndex : Nat := 0
  assigned : List (Nat × Nat) := []
  deriving DecidableEq, Repr

namespace OutputIndexMapper

def ensureMapping (m : OutputIndexMapper) (upstreamIndex : Nat) : Nat × OutputIndexMapper :=
  match m.assigned.lookup upstreamIndex with
  | some assigned => (assigned, m)
  | none => (m.nextIndex, ⟨m.nextIndex + 1, put upstreamIndex m.nextIndex m.assigned⟩)

def lookup (m : OutputIndexMapper) (upstreamIndex : Nat) : Option Nat :=
  m.assigned.lookup upstreamIndex

def allocateSynthetic (m : OutputIndexMapper) : Nat × OutputIndexMapper :=
  (m.nextIndex, { m with nextIndex := m.nextIndex + 1 })

end OutputIndexMapper

structure FunctionCallInProgress where
  callId : Str
  name : Str := []
  argumentsBuffer : Str := []
  outputIndex : Nat
  lastObfuscation : Option Str := none
  assignedOutputIndex : Option Nat := none
  deriving DecidableEq, Repr

def FunctionCallInProgress.isComplete (c : FunctionCallInProgress) : Bool := c.name ≠ []

/-- `StreamingToolHandler`. -/
structure StreamingToolHandler where
  pendingCalls : List FunctionCallInProgress := []
  inFunctionCall : Bool := false
  outputIndexMapper : OutputIndexMapper
  originalResponseId : Option Str := none
  deriving DecidableEq, Repr

/-- A change of the first call with an index. -/
def updateCall (i : Nat) (f : FunctionCallInProgress → FunctionCallInProgress) :
    List FunctionCallInProgress → List FunctionCallInProgress
  | [] => []
  | c :: calls => if c.outputIndex = i then f c :: calls else c :: updateCall i f calls

namespace StreamingToolHandler
variable (h : StreamingToolHandler)

def withStartingIndex (start : Nat) : StreamingToolHandler where
  outputIndexMapper := { nextIndex := start }

/-- `ensure_output_index`; the index is that of the mapper. -/
def ensureOutputIndex (upstreamIndex : Nat) : Nat × StreamingToolHandler :=
  let (assigned, m) := h.outputIndexMapper.ensureMapping upstreamIndex
  (assigned, { h with outputIndexMapper := m })

def allocateSyntheticOutputIndex : Nat × StreamingToolHandler :=
  let (assigned, m) := h.outputIndexMapper.allocateSynthetic
  (assigned, { h with outputIndexMapper := m })

def updateCall (i : Nat) (f : FunctionCallInProgress → FunctionCallInProgress) :
    StreamingToolHandler :=
  { h with pendingCalls := Responses.updateCall i f h.pendingCalls }

/-- There is a call with the index then. -/
def getOrCreateCall (outputIndex : Nat) (delta : Value) : StreamingToolHandler :=
  if h.pendingCalls.any fun c => c.outputIndex = outputIndex then h
  else
    { h with
      pendingCalls := h.pendingCalls ++ [{
        callId := (Value.getStr "call_id".toList delta).getD []
        outputIndex := outputIndex
        lastObfuscation := Value.getStr "obfuscation".toList delta }] }

def hasCompleteCalls : Bool :=
  h.pendingCalls ≠ [] && h.pendingCalls.all FunctionCallInProgress.isComplete

/-- The index of the event, if it has one, is mapped. -/
def ensureEventIndex (parsed : Value) : StreamingToolHandler :=
  match extractOutputIndex parsed with
  | some outputIndex => (h.ensureOutputIndex outputIndex).2
  | none => h

/-- `ExecuteTools` when the calls are complete. -/
def actionOfDone : StreamAction := if h.hasCompleteCalls = true then .executeTools else .forward

def handleOutputItemAdded (et : EventTypes) (parsed : Value) : StreamingToolHandler × StreamAction :=
  let h := h.ensureEventIndex parsed
  match parsed.get "item".toList with
  | none => (h, .forward)
  | some item =>
      match Value.getStr "type".toList item with
      | none => (h, .forward)
      | some itemType =>
          if et.isFunctionCallType itemType = false then (h, .forward)
          else
            match extractOutputIndex parsed with
            | none => (h, .forward)
            | some outputIndex =>
                let (assignedIndex, h) := h.ensureOutputIndex outputIndex
                let callId := (Value.getStr "call_id".toList item).getD []
                let name := (Value.getStr "name".toList item).getD []
                let h := (h.getOrCreateCall outputIndex item).updateCall outputIndex fun call =>
                  { call with
                    callId := callId
                    name := name
                    assignedOutputIndex := some assignedIndex }
                ({ h with inFunctionCall := true }, .forward)

def handleArgumentsDelta (parsed : Value) : StreamingToolHandler × StreamAction :=
  match extractOutputIndex parsed with
  | none => (h, .forward)
  | some outputIndex =>
      let (assignedIndex, h) := h.ensureOutputIndex outputIndex
      match Value.getStr "delta".toList parsed with
      | none => (h, .forward)
      | some delta =>
          (h.updateCall outputIndex fun call =>
            { call with
              argumentsBuffer := call.argumentsBuffer ++ delta
              lastObfuscation :=
                (Value.getStr "obfuscation".toList parsed).or call.lastObfuscation
              assignedOutputIndex := call.assignedOutputIndex.or (some assignedIndex) }, .forward)

def handleArgumentsDone (parsed : Value) : StreamingToolHandler × StreamAction :=
  let h := match extractOutputIndex parsed with
    | none => h
    | some outputIndex =>
        let (assignedIndex, h) := h.ensureOutputIndex outputIndex
        h.updateCall outputIndex fun call =>
          { call with assignedOutputIndex := call.assignedOutputIndex.or (some assignedIndex) }
  (h, h.actionOfDone)

/-- The event is about a part of an item. -/
def processOutputDelta (et : EventTypes) (event : Value) : StreamingToolHandler × StreamAction :=
  let outputIndex := (extractOutputIndex event).getD 0
  let (assignedIndex, h) := h.ensureOutputIndex outputIndex
  match event.get "delta".toList with
  | none => (h, .forward)
  | some delta =>
      if (Value.getStr "type".toList delta).any et.isFunctionCallType = true then
        let h := (h.getOrCreateCall outputIndex delta).updateCall outputIndex fun call =>
          { call with
            assignedOutputIndex := some assignedIndex
            callId := (Value.getStr "call_id".toList delta).getD call.callId
            name := call.name ++ (Value.getStr "name".toList delta).getD []
            argumentsBuffer :=
              call.argumentsBuffer ++ (Value.getStr "arguments".toList delta).getD []
            lastObfuscation := (Value.getStr "obfuscation".toList delta).or call.lastObfuscation }
        ({ h with inFunctionCall := true }, .buffer)
      else (h, .forward)

def processEvent (et : EventTypes) (e : Event) : StreamingToolHandler × StreamAction :=
  match e.data with
  | none => (h, .forward)
  | some parsed =>
      let eventType := getEventType e.eventName parsed
      if eventType = et.created then
        let id := ((parsed.get "response".toList).bind (Value.getStr "id".toList))
        ({ h with originalResponseId := h.originalResponseId.or id }, .forward)
      else if eventType = et.completed then (h, .forward)
      else if eventType = et.itemAdded then h.handleOutputItemAdded et parsed
      else if eventType = et.argumentsDelta then h.handleArgumentsDelta parsed
      else if eventType = et.argumentsDone then h.handleArgumentsDone parsed
      else if eventType = et.itemDelta then h.processOutputDelta et parsed
      else if eventType = et.itemDone then
        let h := h.ensureEventIndex parsed
        (h, h.actionOfDone)
      else (h, .forward)

end StreamingToolHandler

/-! ### One iteration of the loop -/

/-- The state of an iteration. -/
structure Loop where
  handler : StreamingToolHandler
  mcpListToolsSent : Bool
  seenInProgress : Bool := false
  deriving DecidableEq, Repr

/-- An iteration starts with a new handler. -/
def Loop.new (nextOutputIndex : Nat) (preservedResponseId : Option Str) (mcpListToolsSent : Bool) :
    Loop where
  handler :=
    { StreamingToolHandler.withStartingIndex nextOutputIndex with
      originalResponseId := preservedResponseId }
  mcpListToolsSent := mcpListToolsSent

/-- After an event is forwarded: `mcp_list_tools` takes an index once. -/
def Loop.afterForward (et : EventTypes) (s : Loop) (e : Event) : Loop :=
  if s.seenInProgress = false ∧ e.data.bind (Value.getStr "type".toList) = some et.inProgress then
    { handler :=
        if s.mcpListToolsSent = true then s.handler else s.handler.allocateSyntheticOutputIndex.2
      mcpListToolsSent := true
      seenInProgress := true }
  else s

/-- The events up to one that leaves the stream, and whether there is one. -/
def Loop.run (et : EventTypes) (s : Loop) : List Event → Loop × Bool
  | [] => (s, false)
  | e :: events =>
      let (handler, action) := s.handler.processEvent et e
      let s := { s with handler := handler }
      match action with
      | .forward => Loop.run et (s.afterForward et e) events
      | .buffer => Loop.run et s events
      | .executeTools => (s, true)

/-- The limits of a run of the loop, and the calls of its earlier iterations. -/
structure Limits where
  maxToolCalls : Option Nat
  maxIterations : Nat
  totalCalls : Nat
  deriving DecidableEq, Repr

def Limits.effectiveLimit (l : Limits) : Nat :=
  match l.maxToolCalls with
  | some userMax => min userMax l.maxIterations
  | none => l.maxIterations

/-- A call of `call_tool`, with the function call that it is for. -/
structure ToolCall where
  call : FunctionCallInProgress
  args : Str
  deriving DecidableEq, Repr

/-- `execute_streaming_tool_calls`. -/
def executeStreamingToolCalls (pendingCalls : List FunctionCallInProgress) : List ToolCall :=
  (pendingCalls.filter fun call => decide (call.name ≠ [])).map fun call =>
    ⟨call, if call.argumentsBuffer = [] then "{}".toList else call.argumentsBuffer⟩

/-- An iteration of `handle_streaming_with_tool_interception`: the calls of tools, if the stream is left
for them and they are within the limit. -/
def iteration (et : EventTypes) (limits : Limits) (s : Loop) (events : List Event) :
    Option (List ToolCall) :=
  let (s, toolCallsDetected) := s.run et events
  if toolCallsDetected = false then none
  else if limits.effectiveLimit < limits.totalCalls + s.handler.pendingCalls.length then none
  else some (executeStreamingToolCalls s.handler.pendingCalls)

end QwenStack.Responses
