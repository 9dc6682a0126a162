import QwenStack.Responses.Limit

/-!
# Tool calls of a streamed response — the tools that are offered

`gateway/src/routers/openai/responses/mcp.rs` (`prepare_mcp_tools_as_functions`): before the first request
the tools of the servers are written into the payload as function tools.  The other requests of a run offer
what the first did (`requests_tools`).

The function tools of the client are first kept, when the others are taken out, and then written over.  So
no tool is lost exactly when the client sent none of its own: `keepsTools_iff`.  The name of the type is
defined in another crate and is a parameter.
-/

namespace QwenStack.Responses

section Payload
variable (functionType : Str)

def isFunctionTool (item : Value) : Bool :=
  decide (Value.getStr "type".toList item = some functionType)

/-- The tools of an array that are functions. -/
def retainFunctionTools : Value → Value
  | .array items => .array (items.filter (isFunctionTool functionType))
  | v => v

/-- The function tool of a tool of a server. -/
def McpTool.functionTool (t : McpTool) : Value :=
  .ofMembers [("type", .string functionType), ("name", .string t.name),
    ("description", .ofOption t.description), ("parameters", t.inputSchema)]

/-- `prepare_mcp_tools_as_functions`. -/
def prepareMcpToolsAsFunctions (ctx : Context) (payload : Value) : Value :=
  let payload := modifyMember "tools" (retainFunctionTools functionType) payload
  match ctx.tools.map (McpTool.functionTool functionType) with
  | [] => payload
  | tool :: toolsJson =>
      (payload.insert "tools".toList (.array (tool :: toolsJson))).insert "tool_choice".toList
        (.string "auto".toList)

/-- The function tools that the client sent. -/
def functionTools (payload : Value) : List Value :=
  (((payload.get "tools".toList).bind Value.asArray).getD []).filter (isFunctionTool functionType)

/-- **The property**: the function tools of the client and those of the servers are offered, in the first
request and in each one after it. -/
structure KeepsTools (ctx : Context) (payload : Value) : Prop where
  offered : ∃ tools,
    (prepareMcpToolsAsFunctions functionType ctx payload).get "tools".toList = some (.array tools) ∧
    (functionTools functionType payload ++
      ctx.tools.map (McpTool.functionTool functionType)).Subperm tools
  streamed : ∀ answers, ∀ request ∈ (Interception.runFrom ctx
      (prepareMcpToolsAsFunctions functionType ctx payload) answers).1.requests,
    request.get "tools".toList =
      (prepareMcpToolsAsFunctions functionType ctx payload).get "tools".toList
  resumed : ∀ replies, ∀ request ∈ (ToolLoop.runFrom ctx
      (prepareMcpToolsAsFunctions functionType ctx payload) replies).1.requests,
    request.get "tools".toList =
      (prepareMcpToolsAsFunctions functionType ctx payload).get "tools".toList

end Payload

/-! ### The requests of a run -/

/-- A resume payload offers what the payload did. -/
theorem tools_of_build {basePayload payload : Value} {history : List Value} {input : ResponseInput}
    {isStreaming : Bool}
    (h : buildResumePayload basePayload history input (toolsOf basePayload) isStreaming = .ok payload) :
    payload.get "tools".toList = basePayload.get "tools".toList := by
  rw [buildResumePayload] at h
  split at h
  · cases h
  · next hobject =>
    cases h
    have hobject := Bool.not_eq_false _ ▸ hobject
    rw [Value.get_insert_of_ne _ _ (by decide), Value.get_insert_of_ne _ _ (by decide)]
    split
    · next tool tools htools =>
      rw [Value.get_insert_self _ (by rw [Value.isObject_insert, hobject])]
      rw [toolsOf] at htools ⊢
      cases hget : basePayload.get "tools".toList with
      | none =>
        rw [hget] at htools
        cases htools
      | some v => rfl
    · exact Value.get_insert_of_ne _ _ (by decide)

/-- The requests so far offer the tools, and so does the next one. -/
structure Offers (tools : Option Value) (currentPayload : Value) (requests : List Value) : Prop where
  current : currentPayload.get "tools".toList = tools
  sent : ∀ request ∈ requests, request.get "tools".toList = tools

theorem Offers.send {tools : Option Value} {currentPayload : Value} {requests : List Value}
    (h : Offers tools currentPayload requests) :
    ∀ request ∈ requests ++ [currentPayload], request.get "tools".toList = tools := by
  intro request hmem
  rcases List.mem_append.mp hmem with hmem | hmem
  · exact h.sent request hmem
  · rw [List.mem_singleton.mp hmem]
    exact h.current

namespace Interception

theorem offers_called {ctx : Context} {s : Interception} {tools : Option Value}
    (h : Offers tools s.currentPayload s.requests) (stream : Stream) :
    ∀ request ∈ (called ctx s stream).requests, request.get "tools".toList = tools := by
  rw [called_requests]
  exact h.send

/-- **The requests of a run** while streaming. -/
theorem requests_tools (ctx : Context) (payload : Value) (answers : List Answer) :
    ∀ request ∈ (runFrom ctx payload answers).1.requests,
      request.get "tools".toList = payload.get "tools".toList := by
  exact (runFrom_rule ctx payload answers
    (P := fun _ s => Offers (payload.get "tools".toList) s.currentPayload s.requests)
    (Q := fun s => ∀ request ∈ s.requests, request.get "tools".toList = payload.get "tools".toList)
    (fun past answer s s' _ h hturn => by
      cases hturn with
      | resumed hrun hlimit hresume =>
        exact ⟨tools_of_build hresume, offers_called h _⟩)
    (fun past answer s s' _ h hturn => by
      cases hturn with
      | failed message hanswer => exact h.send
      | exceeded hrun hlimit => exact h.send
      | unresumed hrun hlimit hresume => exact offers_called h _
      | broken hrun => exact h.send
      | completed hrun =>
        rw [complete_requests]
        exact h.send)
    ⟨rfl, fun _ hmem => absurd hmem List.not_mem_nil⟩ fun s h => h.sent).1

end Interception

namespace ToolLoop

/-- **The requests of a run** without a stream. -/
theorem requests_tools (ctx : Context) (payload : Value) (replies : List Reply) :
    ∀ request ∈ (runFrom ctx payload replies).1.requests,
      request.get "tools".toList = payload.get "tools".toList := by
  exact (runFrom_rule ctx payload replies
    (P := fun _ s => Offers (payload.get "tools".toList) s.currentPayload s.requests)
    (Q := fun s => ∀ request ∈ s.requests, request.get "tools".toList = payload.get "tools".toList)
    (fun past reply s s' _ h hturn => by
      cases hturn with
      | resumed hcall hlimit hresume => exact ⟨tools_of_build hresume, h.send⟩)
    (fun past reply s s' result _ h hturn => by
      cases hturn with
      | failed message hreply => exact h.send
      | exceeded _ hcall hlimit => exact h.send
      | unresumed hcall hlimit hresume => exact h.send
      | completed _ hcall => exact h.send)
    ⟨rfl, fun _ hmem => absurd hmem List.not_mem_nil⟩ fun s h => h.sent).1

end ToolLoop

/-! ### The first request -/

/-- The tools that are offered are those of the servers. -/
theorem get_prepare (functionType : Str) {ctx : Context} {payload : Value}
    (hobject : payload.isObject = true) (htools : ctx.tools ≠ []) :
    (prepareMcpToolsAsFunctions functionType ctx payload).get "tools".toList =
      some (.array (ctx.tools.map (McpTool.functionTool functionType))) := by
  have hmodified : (modifyMember "tools" (retainFunctionTools functionType) payload).isObject =
      true := by
    rw [modifyMember]
    split
    · rw [Value.isObject_insert, hobject]
    · exact hobject
  rw [prepareMcpToolsAsFunctions]
  split
  · next hnil => exact absurd (List.map_eq_nil_iff.mp hnil) htools
  · next tool toolsJson hcons =>
    rw [Value.get_insert_of_ne _ _ (by decide), Value.get_insert_self _ hmodified, hcons]

/-- **The tools**: with a tool of a server to offer, no tool is lost exactly when the client sent no
function tool. -/
theorem keepsTools_iff (functionType : Str) (ctx : Context) (payload : Value)
    (hobject : payload.isObject = true) (htools : ctx.tools ≠ []) :
    KeepsTools functionType ctx payload ↔ functionTools functionType payload = [] := by
  have hget := get_prepare functionType hobject htools
  refine ⟨fun h => ?_, fun h => ⟨⟨_, hget, ?_⟩, ?_, ?_⟩⟩
  · obtain ⟨tools, htools, hle⟩ := h.offered
    obtain rfl := Value.array.inj (Option.some.inj (hget.symm.trans htools))
    have hlength := hle.length_le
    rw [List.length_append] at hlength
    exact List.length_eq_zero_iff.mp (by omega)
  · rw [h, List.nil_append]
  · exact Interception.requests_tools ctx _
  · exact ToolLoop.requests_tools ctx _

/-! ### A request with tools of both kinds -/

/-- A server with one tool. -/
def toolContext : Context :=
  { plainContext with tools := [⟨"search".toList, none, .object []⟩] }

/-- A tool of the client's own. -/
def weatherTool : Value :=
  .ofMembers [("type", .string "function".toList), ("name", .string "weather".toList)]

/-- A tool of a server. -/
def mcpDeclaration : Value := .ofMembers [("type", .string "mcp".toList)]

theorem keepsTools_of_mcp : KeepsTools "function".toList toolContext
    (.ofMembers [("tools", .array [mcpDeclaration])]) :=
  (keepsTools_iff "function".toList toolContext (.ofMembers [("tools", .array [mcpDeclaration])]) rfl
    (List.cons_ne_nil _ _)).mpr rfl

/-- A function tool of the client is lost beside that of a server. -/
theorem weather_lost : ¬ KeepsTools "function".toList toolContext
    (.ofMembers [("tools", .array [mcpDeclaration, weatherTool])]) := by
  intro h
  obtain ⟨tools, htools, hle⟩ := h.offered
  obtain rfl := Value.array.inj (Option.some.inj (htools.symm.trans (get_prepare _ rfl
    (List.cons_ne_nil _ _))))
  exact absurd hle.length_le (by decide)

end QwenStack.Responses
