import Mathlib.Logic.Function.Basic
import QwenStack.Grpc.Offers

/-!
# Responses over chat — requests side by side

`gateway/src/routers/grpc/regular/responses/handlers.rs`, `non_streaming.rs` and `streaming.rs`: requests
share a router, which has the manager of the MCP clients and the server keys of one request
(`requested_servers`).  A request gets its clients, writes its keys, lists its tools and runs its loop; it
can be interrupted between any two of these steps, so that a run is an order of the requests.

A request without MCP tools writes its keys too, which are none.  What is stored, and the answer of a
request without MCP tools, are left out.
-/

namespace QwenStack.Grpc

/-- A request, with what it is answered with: the model's answers, and what its tools give. -/
structure Caller where
  request : ResponsesRequest
  uuid : Nat → Str
  unknownModelId : Str
  codec : Codec
  storage : Storage
  responseId : Option Str
  emitter : Emitter
  world : World (Except ErrorResponse ChatCompletionResponse)
  streamWorld : World (List Frame)

namespace Caller
variable (c : Caller)

def isStreaming : Bool := c.request.stream.getD false

/-- The loop of a request, with the tools that are listed for it. -/
def context (mcpTools : List McpTool) : LoopContext where
  uuid := c.uuid
  unknownModelId := c.unknownModelId
  codec := c.codec
  originalRequest := c.request
  mcpTools := mcpTools
  lastTools := []
  responseId := c.responseId

end Caller

/-- How far a request is. -/
inductive Phase where
  | waiting
  /-- Clients are got for the rest of its tools. -/
  | connecting (modifiedRequest : ResponsesRequest) (rest : List ResponseTool) (serverKeys : List Str)
  | connected (modifiedRequest : ResponsesRequest) (serverKeys : List Str)
  /-- Its keys are written. -/
  | written (modifiedRequest : ResponsesRequest)
  | looping (ctx : LoopContext) (l : ToolLoop)
  | streaming (ctx : LoopContext) (s : StreamLoop)
  | answered (ctx : LoopContext) (l : ToolLoop) (result : Except ErrorResponse ResponsesResponse)
  | streamed (ctx : LoopContext) (s : StreamLoop) (loopEnd : LoopEnd)
  /-- It goes on without MCP tools. -/
  | plain (modifiedRequest : ResponsesRequest)
  | refused (e : ErrorResponse)

/-- The router, with the requests that it serves. -/
structure Router (ι μ : Type) where
  manager : μ
  requestedServers : List Str := []
  phase : ι → Phase := fun _ => .waiting

namespace Router
variable {ι μ : Type} [DecidableEq ι] (mgr : McpManager μ) (callers : ι → Caller) (s : Router ι μ) (i : ι)

/-- The request goes on. -/
def goOn (phase : Phase) : Router ι μ := { s with phase := Function.update s.phase i phase }

/-- `load_conversation_history`, and what MCP tools the request declares. -/
def load : Router ι μ :=
  match loadConversationHistory (callers i).codec (callers i).storage (callers i).request with
  | .error e => s.goOn i (.refused e)
  | .ok modifiedRequest =>
      if hasMcpTools (callers i).request.tools = true then
        s.goOn i (.connecting modifiedRequest ((callers i).request.tools.getD []) [])
      else s.goOn i (.connected modifiedRequest [])

/-- `ensure_mcp_connection`, one tool at a time. -/
def connect (modifiedRequest : ResponsesRequest) (serverKeys : List Str) :
    List ResponseTool → Router ι μ
  | [] =>
      if serverKeys = [] then s.goOn i (.refused connectFailed)
      else s.goOn i (.connected modifiedRequest serverKeys)
  | tool :: rest =>
      let (manager, serverKeys) := ensureClient mgr s.manager serverKeys tool
      { s with manager := manager }.goOn i (.connecting modifiedRequest rest serverKeys)

/-- The keys are written. -/
def write (modifiedRequest : ResponsesRequest) (serverKeys : List Str) : Router ι μ :=
  { s with requestedServers := serverKeys }.goOn i (.written modifiedRequest)

/-- The tools of the keys that are written. -/
def listRequested : List McpTool := mgr.listToolsForServers s.requestedServers s.manager

/-- The loop is made with its tools: a streaming one takes all that there are. -/
def startLoop (modifiedRequest : ResponsesRequest) : Router ι μ :=
  if hasMcpTools (callers i).request.tools = true then
    if (callers i).isStreaming = true then
      let ctx := (callers i).context (mgr.listTools s.manager)
      s.goOn i (.streaming ctx (StreamLoop.start ctx (callers i).emitter modifiedRequest))
    else
      let ctx := (callers i).context (s.listRequested mgr)
      s.goOn i (.looping ctx (ToolLoop.start ctx modifiedRequest))
  else s.goOn i (.plain modifiedRequest)

/-- A turn of the loop; the tools of the keys that are written then are those that its end would list. -/
def turnLoop (ctx : LoopContext) (l : ToolLoop) : Router ι μ :=
  let ctx := { ctx with lastTools := s.listRequested mgr }
  match l.turn ctx (callers i).world with
  | (l, none) => s.goOn i (.looping ctx l)
  | (l, some result) => s.goOn i (.answered ctx l result)

/-- A turn of the streaming loop. -/
def turnStream (ctx : LoopContext) (sl : StreamLoop) : Router ι μ :=
  match sl.turn ctx (callers i).streamWorld with
  | (sl, none) => s.goOn i (.streaming ctx sl)
  | (sl, some loopEnd) => s.goOn i (.streamed ctx sl loopEnd)

/-- The next step of a request. -/
def step : Router ι μ :=
  match s.phase i with
  | .waiting => s.load callers i
  | .connecting modifiedRequest rest serverKeys => s.connect mgr i modifiedRequest serverKeys rest
  | .connected modifiedRequest serverKeys => s.write i modifiedRequest serverKeys
  | .written modifiedRequest => s.startLoop mgr callers i modifiedRequest
  | .looping ctx l => s.turnLoop mgr callers i ctx l
  | .streaming ctx sl => s.turnStream callers i ctx sl
  | .answered .. | .streamed .. | .plain _ | .refused _ => s

/-- The requests take steps in some order. -/
def run (schedule : List ι) : Router ι μ := schedule.foldl (step mgr callers) s

end Router

end QwenStack.Grpc
