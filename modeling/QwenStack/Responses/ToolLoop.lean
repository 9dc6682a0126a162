import QwenStack.Responses.Emission

/-!
# Tool calls of a streamed response — the loops

`gateway/src/routers/openai/responses/mcp.rs`, `streaming.rs` and `non_streaming.rs`: the upstream is asked,
the tools that it wants are called, and it is asked again with what they gave.  What the upstream answers
is an argument of each turn, so that a run is a list of answers.

Kept with a run are the requests, the calls of tools, the outcomes for the circuit breaker, and the
response that is stored.
-/

namespace QwenStack.Responses

/-- A call of a tool: the arguments as they came, those that were passed, and the output. -/
structure Invocation where
  callId : Str
  name : Str
  buffer : Str
  args : Str
  output : Str
  deriving DecidableEq, Repr

/-- `ToolLoopState`, with the calls that were made; the input is that of the request. -/
structure ToolLoopState where
  iteration : Nat := 0
  totalCalls : Nat := 0
  conversationHistory : List Value := []
  invocations : List Invocation := []

/-- The item of a function call. -/
def functionCallItem (types : ProtocolTypes) (callId name args : Str) : Value :=
  .ofMembers [("type", .string types.functionCall), ("call_id", .string callId),
    ("name", .string name), ("arguments", .string args)]

/-- The item of its output. -/
def functionCallOutputItem (callId output : Str) : Value :=
  .ofMembers [("type", .string "function_call_output".toList), ("call_id", .string callId),
    ("output", .string output)]

/-- `record_call`, of the arguments as they came. -/
def ToolLoopState.recordCall (types : ProtocolTypes) (s : ToolLoopState) (inv : Invocation) :
    ToolLoopState :=
  { s with
    conversationHistory := s.conversationHistory ++
      [functionCallItem types inv.callId inv.name inv.buffer,
        functionCallOutputItem inv.callId inv.output]
    invocations := s.invocations ++ [inv] }

/-- The original input as items. -/
def ResponseInput.toItems : ResponseInput → List Value
  | .text s => [.ofMembers [("type", .string "message".toList), ("role", .string "user".toList),
      ("content", .array [.ofMembers [("type", .string "input_text".toList),
        ("text", .string s)]])]]
  | .items list => list

/-- `build_resume_payload`. -/
def buildResumePayload (basePayload : Value) (conversationHistory : List Value)
    (originalInput : ResponseInput) (toolsJson : Value) (isStreaming : Bool) : Except Str Value :=
  if basePayload.isObject = false then .error "payload not an object".toList
  else
    let payload := basePayload.insert "input".toList
      (.array (originalInput.toItems ++ conversationHistory))
    let payload := match toolsJson with
      | .array (_ :: _) => payload.insert "tools".toList toolsJson
      | _ => payload
    .ok ((payload.insert "stream".toList (.bool isStreaming)).insert "store".toList (.bool false))

/-- The tools of a payload. -/
def toolsOf (payload : Value) : Value := (payload.get "tools".toList).getD (.array [])

/-- The text of an error as a JSON object. -/
def errorOutput (message : Str) : Str := (Value.ofMembers [("error", .string message)]).render

/-- `max_tool_calls`, and `max_iterations` for safety. -/
def Context.effectiveLimit (ctx : Context) : Nat :=
  match ctx.request.maxToolCalls with
  | some userMax => min userMax ctx.maxIterations
  | none => ctx.maxIterations

/-! ### The streaming loop -/

/-- The output of a call while streaming, whether it succeeded, and the error. -/
def streamedOutput : CallResult → Str × Bool × Option Str
  | .ok output => (output, true, none)
  | .unserializable e =>
      let err := "Failed to serialize tool result: ".toList ++ e
      (errorOutput err, false, some err)
  | .failed e =>
      let err := "tool call failed: ".toList ++ e
      (errorOutput err, false, some err)

/-- What a request to the upstream is answered with: no connection, a status that is no success, or a
stream, which may break. -/
inductive Answer where
  | unreachable (error : Str)
  | refused (status body : Str)
  | stream (events : List Event) (error : Option Str)

/-- `handle_streaming_with_tool_interception`. -/
structure Interception where
  state : ToolLoopState := {}
  currentPayload : Value
  mcpListToolsSent : Bool := false
  isFirstIteration : Bool := true
  nextOutputIndex : Nat := 0
  preservedResponseId : Option Str := none
  client : Client := {}
  requests : List Value := []
  recorded : List Bool := []
  persisted : Option Value := none

namespace Interception
variable (ctx : Context) (s : Interception)

/-- One pending call. -/
def callTool (iteration : Nat) (s : Interception) (t : ToolCall) : Interception :=
  let (output, success, error) :=
    streamedOutput (ctx.callTool s.state.invocations.length t.call.name t.args)
  { s with
    client := sendMcpCallCompletionEvents ctx iteration t.call output success error s.client
    state := s.state.recordCall ctx.types
      ⟨t.call.callId, t.call.name, t.call.argumentsBuffer, t.args, output⟩ }

/-- `execute_streaming_tool_calls`, for its effect. -/
def callTools (iteration : Nat) (calls : List ToolCall) : Interception :=
  calls.foldl (callTool ctx iteration) s

/-- A message before the end. -/
def sendError (message : Str) : Interception := { s with client := s.client.send (.error message) }

def sendDone : Interception := { s with client := s.client.send .done }

def record (success : Bool) : Interception := { s with recorded := s.recorded ++ [success] }

/-- The stream of an iteration. -/
def start : Stream where
  loop := Loop.new s.nextOutputIndex s.preservedResponseId s.mcpListToolsSent
  isFirstIteration := s.isFirstIteration
  iteration := s.state.iteration
  client := s.client

/-- What is kept of a stream. -/
def keep (stream : Stream) : Interception :=
  { s with
    client := stream.client
    mcpListToolsSent := stream.loop.mcpListToolsSent
    nextOutputIndex := stream.loop.handler.outputIndexMapper.nextIndex
    preservedResponseId :=
      (originalResponseId stream.loop.handler stream.accumulator).or s.preservedResponseId }

def persistNeeded (r : ResponsesRequest) : Bool := r.storeOrDefault || r.conversation.isSome

/-- The end of a run without further calls. -/
def complete (stream : Stream) : Interception :=
  let s := { s with
    client := sendFinalResponseEvent ctx stream.loop.handler stream.accumulator
      s.state.conversationHistory s.client }
  let s := match persistNeeded ctx.request, stream.accumulator.finalResponse with
    | true, some response =>
        { s with
          persisted := some (finishResponse ctx s.state.conversationHistory s.client.generated
            s.preservedResponseId response) }
    | _, _ => s
  (s.record true).sendDone

/-- The calls are counted, all of an iteration at once. -/
def count (calls : Nat) : Interception :=
  { s with
    state := { s.state with
      iteration := s.state.iteration + 1
      totalCalls := s.state.totalCalls + calls } }

/-- The end of a run that failed in the gateway: the upstream is not to blame. -/
def stop (message : Str) : Interception × Bool :=
  (((s.record true).sendError message).sendDone, false)

/-- The next request, and whether the loop goes on. -/
def resume (basePayload : Value) : Interception × Bool :=
  match buildResumePayload basePayload s.state.conversationHistory ctx.request.input
    (toolsOf basePayload) true with
  | .ok resumePayload => ({ s with currentPayload := resumePayload, isFirstIteration := false }, true)
  | .error e => s.stop ("Failed to build resume payload: ".toList ++ e)

/-- The calls of an iteration, and whether the loop goes on. -/
def executeTools (basePayload : Value) (pendingCalls : List FunctionCallInProgress) :
    Interception × Bool :=
  let counted := s.count pendingCalls.length
  if ctx.effectiveLimit < counted.state.totalCalls then
    counted.stop "Exceeded max_tool_calls limit".toList
  else
    (counted.callTools ctx s.state.iteration (executeStreamingToolCalls pendingCalls)).resume ctx
      basePayload

/-- The upstream is to blame. -/
def fail (message : Str) : Interception × Bool := ((s.record false).sendError message, false)

/-- After the stream of an iteration, which may have been left for tools. -/
def leave (basePayload : Value) (stream : Stream) (toolCallsDetected : Bool) (error : Option Str) :
    Interception × Bool :=
  if toolCallsDetected = true then
    (s.keep stream).executeTools ctx basePayload stream.loop.handler.pendingCalls
  else
    match error with
    | some e => (s.keep stream).fail ("Stream error: ".toList ++ e)
    | none => ((s.keep stream).complete ctx stream, false)

/-- A request. -/
def send : Interception := { s with requests := s.requests ++ [s.currentPayload] }

/-- One turn: a request with its answer, and whether the loop goes on. -/
def turn (basePayload : Value) : Answer → Interception × Bool
  | .unreachable e => s.send.fail e
  | .refused status body => s.send.fail ("Upstream error ".toList ++ status ++ ": ".toList ++ body)
  | .stream events error =>
      let (stream, toolCallsDetected) := s.send.start.run ctx events
      s.send.leave ctx basePayload stream toolCallsDetected error

/-- The run over the answers of the upstream, and whether it still goes on. -/
def run (basePayload : Value) (s : Interception) : List Answer → Interception × Bool
  | [] => (s, true)
  | answer :: answers =>
      match s.turn ctx basePayload answer with
      | (s, true) => run basePayload s answers
      | (s, false) => (s, false)

/-- The run from its start. -/
def runFrom (payload : Value) (answers : List Answer) : Interception × Bool :=
  run ctx payload { currentPayload := payload } answers

end Interception

/-! ### The loop without a stream -/

/-- What a request is answered with when the answer is no stream; the body of a success may break off,
and may be no JSON. -/
inductive Reply where
  | unreachable (error : Str)
  | refused (status body : Str)
  | broken (error : Str)
  | notJson (error : Str)
  | json (response : Value)

/-- `extract_function_call`: id, name and arguments. -/
def extractFromItems (types : ProtocolTypes) : List Value → Option (Str × Str × Str)
  | [] => none
  | item :: items =>
      match Value.getStr "type".toList item with
      | none => none
      | some t =>
          if types.isFunctionCallType t = true then
            match (Value.getStr "call_id".toList item).or (Value.getStr "id".toList item),
              Value.getStr "name".toList item, Value.getStr "arguments".toList item with
            | some callId, some name, some args => some (callId, name, args)
            | _, _, _ => none
          else extractFromItems types items

def extractFunctionCall (types : ProtocolTypes) (response : Value) : Option (Str × Str × Str) :=
  ((response.get "output".toList).bind Value.asArray).bind (extractFromItems types)

/-- `execute_tool_loop`. -/
structure ToolLoop where
  state : ToolLoopState := {}
  currentPayload : Value
  generated : Nat := 0
  requests : List Value := []

namespace ToolLoop
variable (ctx : Context) (s : ToolLoop)

/-- The output of a call without streaming. -/
def output : CallResult → Str
  | .ok output => output
  | .unserializable e => errorOutput ("Serialization error: ".toList ++ e)
  | .failed e => errorOutput ("tool call failed: ".toList ++ e)

/-- The items of MCP before the outputs, and more between them. -/
def injectItems (response : Value) (more : List Value) : Value :=
  let serverLabel := ctx.request.extractServerLabel "mcp".toList
  match (response.get "output".toList).bind Value.asArray with
  | some outputs => response.insert "output".toList (.array
      (buildMcpListToolsItem ctx serverLabel (ctx.generateId "mcpl".toList s.generated) ::
        buildExecutedMcpCallItems ctx s.state.conversationHistory serverLabel (s.generated + 1) ++
        more ++ outputs))
  | none => response

/-- The function calls of a response that are not executed. -/
def incompleteItems (response : Value) : List Value :=
  (((((response.get "output".toList).bind Value.asArray).getD []).filter fun item =>
      (Value.getStr "type".toList item).any ctx.types.isFunctionCallType)).mapIdx fun i item =>
    buildMcpCallItem ctx.types (ctx.generateId "mcp".toList (s.generated + i))
      ((Value.getStr "name".toList item).getD [])
      ((Value.getStr "arguments".toList item).getD "{}".toList) []
      (ctx.request.extractServerLabel "mcp".toList) false
      (some "Not executed - response stopped due to limit".toList)

/-- The warning in the metadata. -/
def truncationWarning (reason : Str) : Str :=
  "Loop terminated at ".toList ++ (toString s.state.iteration).toList ++ " iterations, ".toList ++
    (toString s.state.totalCalls).toList ++ " total calls (reason: ".toList ++ reason ++ ")".toList

/-- `build_incomplete_response`. -/
def buildIncompleteResponse (response : Value) (reason : Str) : Except Str Value :=
  if response.isObject = false then .error "response not an object".toList
  else
    let obj := (response.insert "status".toList (.string "completed".toList)).insert
      "incomplete_details".toList (.ofMembers [("reason", .string reason)])
    let incomplete := s.incompleteItems ctx response
    let obj :=
      if 0 < s.state.totalCalls ∨ incomplete ≠ [] then
        { s with generated := s.generated + incomplete.length }.injectItems ctx obj incomplete
      else obj
    .ok (modifyMember "metadata" (modifyMember "mcp" fun mcp =>
      mcp.insert "truncation_warning".toList (.string (s.truncationWarning reason))) obj)

/-- One turn: the loop goes on, or it returns. -/
def turn (basePayload : Value) (reply : Reply) : ToolLoop × Option (Except Str Value) :=
  let s := { s with requests := s.requests ++ [s.currentPayload] }
  match reply with
  | .unreachable e => (s, some (.error ("upstream request failed: ".toList ++ e)))
  | .refused status body =>
      (s, some (.error ("upstream error ".toList ++ status ++ ": ".toList ++ body)))
  | .broken e => (s, some (.error ("parse response: ".toList ++ e)))
  | .notJson e => (s, some (.error ("parse response: ".toList ++ e)))
  | .json response =>
      match extractFunctionCall ctx.types response with
      | some (callId, name, args) =>
          let s := { s with
            state := { s.state with
              iteration := s.state.iteration + 1
              totalCalls := s.state.totalCalls + 1 } }
          if ctx.effectiveLimit < s.state.totalCalls then
            (s, some (s.buildIncompleteResponse ctx response "max_tool_calls".toList))
          else
            let output := output (ctx.callTool s.state.invocations.length name args)
            let s := { s with
              state := s.state.recordCall ctx.types ⟨callId, name, args, args, output⟩ }
            match buildResumePayload basePayload s.state.conversationHistory ctx.request.input
              (toolsOf basePayload) false with
            | .ok resumePayload => ({ s with currentPayload := resumePayload }, none)
            | .error e => (s, some (.error e))
      | none =>
          (s, some (.ok (if 0 < s.state.totalCalls then s.injectItems ctx response [] else response)))

/-- The run over the replies of the upstream, and what it returns. -/
def run (basePayload : Value) (s : ToolLoop) : List Reply → ToolLoop × Option (Except Str Value)
  | [] => (s, none)
  | reply :: replies =>
      match s.turn ctx basePayload reply with
      | (s, none) => run basePayload s replies
      | (s, some result) => (s, some result)

/-- The run from its start. -/
def runFrom (payload : Value) (replies : List Reply) : ToolLoop × Option (Except Str Value) :=
  run ctx payload { currentPayload := payload } replies

end ToolLoop

end QwenStack.Responses
