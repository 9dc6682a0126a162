import QwenStack.Grpc.Turns
import QwenStack.Grpc.Servers

/-!
# Responses over chat — what a loop makes of its MCP tools

A loop is made with the MCP tools that were listed before it.  It offers them to the model with each request,
after the function tools of its own request (`ToolLoop.Asks`), and a streaming loop shows them, and no
others, in its list of tools (`Client.Lists`).
-/

namespace QwenStack.Grpc

open List

/-! ### Requests -/

/-- The tools of a request are the same whatever is put before its input. -/
theorem loadConversationHistory_tools {codec : Codec} {storage : Storage}
    {request modifiedRequest : ResponsesRequest}
    (h : loadConversationHistory codec storage request = .ok modifiedRequest) :
    modifiedRequest.tools = request.tools := by
  have hchain : (loadChain codec storage request).1.tools = request.tools := by
    unfold loadChain
    split
    · rfl
    · split <;> rfl
  have hconversation : ∀ {conversation : Option Str} {r r' : ResponsesRequest},
      loadConversation codec storage conversation r = .ok r' → r'.tools = r.tools := by
    intro conversation r r' hload
    unfold loadConversation at hload
    split at hload
    · cases hload
      rfl
    · split at hload
      · cases hload
      · cases hload
      · split at hload
        all_goals
          cases hload
          rfl
  unfold loadConversationHistory at h
  dsimp only at h
  split at h
  · cases h
  · next r hload =>
    have htools := (hconversation hload).trans hchain
    split at h
    all_goals
      cases h
      exact htools

/-- The chat request for a request has its function tools. -/
theorem responsesToChat_tools {unknownModelId : Str} {request : ResponsesRequest}
    {chat : ChatCompletionRequest} (h : responsesToChat unknownModelId request = .ok chat) :
    chat.tools.getD [] = extractToolsFromResponseTools request.tools false := by
  unfold responsesToChat at h
  dsimp only at h
  split at h
  · cases h
  · cases h
    dsimp only
    split
    · next hempty => exact (List.isEmpty_iff.mp hempty).symm
    · rfl

/-! ### What is offered -/

/-- The tools of an item that lists them. -/
def OutputItem.listed : OutputItem → Option (List McpTool)
  | .mcpListTools _ _ tools => some tools
  | _ => none

namespace ToolLoop
variable {ctx : LoopContext} {tools : Option (List ResponseTool)} {l l' : ToolLoop}

/-- The loop asks for a request with some tools, and has offered them with those that were listed; its items
list none. -/
structure Asks (ctx : LoopContext) (tools : Option (List ResponseTool)) (l : ToolLoop) : Prop where
  tools_eq : l.currentRequest.tools = tools
  asked : ∀ chat ∈ l.asked, chat.tools.getD [] =
    extractToolsFromResponseTools tools false ++ convertMcpToolsToChatTools ctx.mcpTools
  items : l.state.mcpCallItems.filterMap OutputItem.listed = []

theorem Asks.of_asked (h : l.Asks ctx tools) (hasked : l'.asked = l.asked)
    (hrequest : l'.currentRequest.tools = l.currentRequest.tools)
    (hitems : l'.state.mcpCallItems = l.state.mcpCallItems) : l'.Asks ctx tools :=
  ⟨hrequest.trans h.tools_eq, hasked ▸ h.asked, hitems ▸ h.items⟩

theorem asks_start (ctx : LoopContext) (modifiedRequest : ResponsesRequest) :
    (ToolLoop.start ctx modifiedRequest).Asks ctx modifiedRequest.tools :=
  ⟨rfl, (fun _ hchat => absurd hchat not_mem_nil), rfl⟩

/-- The model is asked. -/
theorem Asks.ask (h : l.Asks ctx tools) {request : ChatCompletionRequest}
    (hrequest : l.chatRequest ctx = .ok request) : (l.ask request).Asks ctx tools := by
  refine ⟨h.tools_eq, fun chat hchat => ?_, h.items⟩
  rcases List.mem_append.mp hchat with hchat | hchat
  · exact h.asked chat hchat
  · obtain rfl := List.mem_singleton.mp hchat
    unfold ToolLoop.chatRequest at hrequest
    split at hrequest
    · cases hrequest
    · next chat' hchat' =>
      cases hrequest
      rw [← h.tools_eq, ← responsesToChat_tools hchat']
      rfl

theorem Asks.execute (h : l.Asks ctx tools) (callTool : List (Str × Str) → CallResult)
    (toolCalls : List ExtractedToolCall) :
    (toolCalls.foldl (ToolLoop.execute ctx callTool) l).Asks ctx tools := by
  induction toolCalls generalizing l with
  | nil => exact h
  | cons toolCall toolCalls ih =>
    refine ih ⟨h.tools_eq, h.asked, ?_⟩
    change (l.state.mcpCallItems ++ [_]).filterMap OutputItem.listed = []
    rw [filterMap_append, h.items]
    rfl

/-- **A turn.** -/
theorem Asks.turn (h : l.Asks ctx tools) (world : World (Except ErrorResponse ChatCompletionResponse)) :
    (l.turn ctx world).1.Asks ctx tools := by
  have hturned := turned ctx world l
  generalize l.turn ctx world = result at hturned ⊢
  cases hturned with
  | unasked _ _ => exact h
  | refused hrequest _ => exact h.ask hrequest
  | answered hrequest _ _ => exact h.ask hrequest
  | left hrequest _ _ _ _ _ => exact (h.ask hrequest).of_asked rfl rfl rfl
  | performed hrequest _ _ =>
    have hcalled : ((l.ask _).iterate).Asks ctx tools := (h.ask hrequest).of_asked rfl rfl rfl
    exact (hcalled.execute world.callTool _).of_asked rfl rfl rfl

end ToolLoop

/-! ### What is listed -/

/-- A list of tools that is shown. -/
def Sent.listed : Sent → Option (List McpTool)
  | .event ⟨_, .mcpListToolsCompleted _ tools⟩ => some tools
  | .event ⟨_, .outputItemDone _ (.mcpListTools _ _ _ tools)⟩ => some tools
  | _ => none

namespace Client
variable {mcpTools : List McpTool}

/-- No other tools were listed. -/
def Lists (mcpTools : List McpTool) (c : Client) : Prop :=
  ∀ block ∈ c.sent, ∀ tools, block.listed = some tools → tools = mcpTools

namespace Lists
variable {c : Client}

theorem ite {c' : Client} {P : Prop} [Decidable P] (h : Lists mcpTools c) (h' : Lists mcpTools c') :
    Lists mcpTools (if P then c else c') := by
  split
  · exact h
  · exact h'

variable (h : Lists mcpTools c)
include h

theorem emit {builder : Emitter → Event × Emitter}
    (hbuilder : ∀ e tools, Sent.listed (.event (builder e).1) = some tools → tools = mcpTools) :
    Lists mcpTools (c.emit builder) := by
  intro block hblock
  rcases List.mem_append.mp hblock with hblock | hblock
  · exact h block hblock
  · obtain rfl := List.mem_singleton.mp hblock
    exact hbuilder c.emitter

theorem update (f : Emitter → Emitter) : Lists mcpTools (c.update f) := h

theorem allocate {uuid : Nat → Str} {itemType : OutputItemType} {outputIndex : Nat} {itemId : Str}
    {c' : Client} (hopen : c.allocate uuid itemType = (outputIndex, itemId, c')) : Lists mcpTools c' := by
  obtain rfl : (c.allocate uuid itemType).2.2 = c' := by rw [hopen]
  exact h

variable (uuid : Nat → Str)

theorem emitReasoning (reasoning : Option Str) :
    Lists mcpTools (c.emitReasoning uuid reasoning) := by
  unfold Client.emitReasoning
  split
  · exact h
  · split
    · exact h
    · unfold Client.emitReasoningItem
      rcases hopen : c.allocate uuid .reasoning with ⟨outputIndex, itemId, c'⟩
      refine .update (.emit (.emit (h.allocate hopen) ?_) ?_) _
      all_goals exact fun _ _ heq => nomatch heq

theorem openMessage : Lists mcpTools (c.openMessage uuid) := by
  unfold Client.openMessage
  split
  · exact h
  · rcases hopen : c.allocate uuid .message with ⟨outputIndex, itemId, c'⟩
    refine .update (.emit (h.allocate hopen) ?_) _
    exact fun _ _ heq => nomatch heq

theorem processContent (content : Str) : Lists mcpTools (c.processContent uuid content).1 := by
  have hopened := h.openMessage uuid
  unfold Client.processContent
  dsimp only
  split
  · refine .emit (.ite hopened (hopened.emit ?_)) ?_
    all_goals exact fun _ _ heq => nomatch heq
  · exact hopened

theorem finishMessage : Lists mcpTools c.finishMessage.1 := by
  unfold Client.finishMessage
  split
  · next outputIndex itemId _ _ =>
    have htext : Lists mcpTools (if c.emitter.hasEmittedContentPartAdded = true then
        (c.emit (·.emitTextDone outputIndex itemId 0)).emit (·.emitContentPartDone outputIndex itemId 0)
        else c) := by
      refine .ite (.emit (.emit h ?_) ?_) h
      all_goals exact fun _ _ heq => nomatch heq
    refine .update (.ite (.emit htext ?_) htext) _
    exact fun _ _ heq => nomatch heq
  · exact h

/-- **A chunk.** -/
theorem processChunk (chunk : ChatChunk) : Lists mcpTools (c.processChunk uuid chunk).1 :=
  processChunk_keeps uuid c (fun _ content h => h.processContent uuid content)
    (fun _ h => h.finishMessage) h chunk

theorem emitMcpListTools (serverLabel : Str) :
    Lists mcpTools (c.emitMcpListTools uuid serverLabel mcpTools) := by
  unfold Client.emitMcpListTools
  rcases hopen : c.allocate uuid .mcpListTools with ⟨outputIndex, itemId, c'⟩
  refine .update (.emit (.emit (.emit (.emit (h.allocate hopen) ?_) ?_) ?_) ?_) _
  · exact fun _ _ heq => nomatch heq
  · exact fun _ _ heq => nomatch heq
  · exact fun _ _ heq => (Option.some.inj heq).symm
  · exact fun _ _ heq => (Option.some.inj heq).symm

theorem emitMcpCall (serverLabel : Str) (call : ExtractedToolCall) (output : Str)
    (error : Option Str) : Lists mcpTools (c.emitMcpCall uuid serverLabel call output error) := by
  unfold Client.emitMcpCall Client.emitCallEnd
  rcases hopen : c.allocate uuid .mcpCall with ⟨outputIndex, itemId, c'⟩
  refine .update ?_ _
  have hstarted : Lists mcpTools ((((c'.emit (·.emitOutputItemAdded outputIndex
      (.mcpCall itemId none call.name (some serverLabel) "in_progress".toList [] none none))).emit
      (·.emitMcpCallInProgress outputIndex itemId)).emit
      (·.emitMcpCallArgumentsDelta outputIndex itemId call.arguments)).emit
      (·.emitMcpCallArgumentsDone outputIndex itemId call.arguments)) := by
    refine .emit (.emit (.emit (.emit (h.allocate hopen) ?_) ?_) ?_) ?_
    all_goals exact fun _ _ heq => nomatch heq
  cases error with
  | none =>
    refine .emit (.emit hstarted ?_) ?_
    all_goals exact fun _ _ heq => nomatch heq
  | some err =>
    refine .emit (.emit hstarted ?_) ?_
    all_goals exact fun _ _ heq => nomatch heq

theorem emitFunctionCall (call : ExtractedToolCall) :
    Lists mcpTools (c.emitFunctionCall uuid call) := by
  unfold Client.emitFunctionCall
  rcases hopen : c.allocate uuid .functionCall with ⟨outputIndex, itemId, c'⟩
  refine .update (.emit (.emit (.emit (.emit (h.allocate hopen) ?_) ?_) ?_) ?_) _
  all_goals exact fun _ _ heq => nomatch heq

/-- The end of the response. -/
theorem emitCompleted (usage : Option Value) : Lists mcpTools (c.emit (·.emitCompleted usage)) :=
  h.emit fun _ _ heq => nomatch heq

/-- The stream of a turn. -/
theorem convertAndAccumulateStream (body : List Frame) :
    Lists mcpTools (convertAndAccumulateStream uuid c body).1 :=
  convertAndAccumulateStream_keeps uuid c (fun _ chunk h => h.processChunk uuid chunk) h body

end Lists

theorem lists_begin (mcpTools : List McpTool) (emitter : Emitter) :
    Lists mcpTools (Client.begin emitter) := by
  have hnone : Lists mcpTools (Client.mk emitter []) := fun _ hblock => absurd hblock not_mem_nil
  refine .emit (.emit hnone ?_) ?_
  all_goals exact fun _ _ heq => nomatch heq

end Client

namespace StreamLoop
variable {ctx : LoopContext} {tools : Option (List ResponseTool)} {s : StreamLoop}

/-- The loop offers its MCP tools, and lists no others. -/
structure Shows (ctx : LoopContext) (tools : Option (List ResponseTool)) (s : StreamLoop) : Prop where
  asks : s.loop.Asks ctx tools
  lists : s.client.Lists ctx.mcpTools

theorem shows_start (ctx : LoopContext) (emitter : Emitter) (modifiedRequest : ResponsesRequest) :
    (StreamLoop.start ctx emitter modifiedRequest).Shows ctx modifiedRequest.tools :=
  ⟨ToolLoop.asks_start ctx modifiedRequest, Client.lists_begin ctx.mcpTools emitter⟩

variable (h : s.Shows ctx tools)
include h

theorem Shows.execute (callTool : List (Str × Str) → CallResult)
    (toolCalls : List ExtractedToolCall) :
    (toolCalls.foldl (StreamLoop.execute ctx callTool) s).Shows ctx tools := by
  constructor
  · rw [execute_loop]
    exact h.asks.execute callTool toolCalls
  · have hlists := h.lists
    clear h
    induction toolCalls generalizing s with
    | nil => exact hlists
    | cons toolCall toolCalls ih => exact ih (hlists.emitMcpCall _ _ _ _ _)

theorem Shows.handBack (toolCalls : List ExtractedToolCall) :
    (s.handBack ctx toolCalls).Shows ctx tools := by
  refine ⟨h.asks, ?_⟩
  have hlists := h.lists
  unfold StreamLoop.handBack
  generalize s.client = c at hlists ⊢
  induction toolCalls generalizing c with
  | nil => exact hlists
  | cons toolCall toolCalls ih => exact ih _ (hlists.emitFunctionCall _ _)

theorem Shows.listTools : (s.listTools ctx).Shows ctx tools := by
  unfold StreamLoop.listTools
  split
  · exact h
  · exact ⟨h.asks, h.lists.emitMcpListTools _ _⟩

theorem Shows.afterAnswer (callTool : List (Str × Str) → CallResult)
    (response : ChatCompletionResponse) :
    (s.afterAnswer ctx callTool response).1.Shows ctx tools := by
  unfold StreamLoop.afterAnswer
  dsimp only
  split
  · exact ⟨h.asks, (h.lists.emitReasoning _ _).emitCompleted _⟩
  · split
    · exact h
    · have hcalled := h.execute callTool (ctx.mcpToolCalls (extractAllToolCallsFromChat response))
      split
      · exact hcalled.handBack _
      · exact ⟨hcalled.asks.of_asked rfl rfl rfl, hcalled.lists⟩

/-- **A turn.** -/
theorem Shows.turn (world : World (List Frame)) : (s.turn ctx world).1.Shows ctx tools := by
  have hiterated : Shows ctx tools { s with loop := s.loop.iterate } :=
    ⟨h.asks.of_asked rfl rfl rfl, h.lists⟩
  have hlisted := hiterated.listTools
  unfold StreamLoop.turn
  dsimp only
  split
  · exact hiterated
  · generalize StreamLoop.listTools ctx { s with loop := s.loop.iterate } = s₁ at hlisted ⊢
    split
    · exact hlisted
    · next request hrequest =>
      have hasked := hlisted.asks.ask hrequest
      have hread := hlisted.lists.convertAndAccumulateStream ctx.uuid
        (world.chat (s₁.loop.ask request).asked)
      split
      · next heq =>
        rw [heq] at hread
        exact ⟨hasked, hread⟩
      · next heq =>
        rw [heq] at hread
        exact Shows.afterAnswer ⟨hasked, hread⟩ _ _

end StreamLoop

/-! ### The last list -/

/-- An answer of the model lists no tools. -/
theorem chatToResponses_listed {chat : ChatCompletionResponse} {responseId : Option Str}
    {response : ResponsesResponse} (h : chatToResponses chat responseId = .ok response) :
    response.output.filterMap OutputItem.listed = [] := by
  unfold chatToResponses at h
  split at h
  · cases h
  · next choice _ _ =>
    cases h
    have hmessage : (messageItems chat.id choice.message.content).filterMap OutputItem.listed = [] := by
      unfold messageItems
      split
      · split <;> rfl
      · rfl
    have hreasoning : (reasoningItems chat.id choice.message.reasoningContent).filterMap
        OutputItem.listed = [] := by
      unfold reasoningItems
      split
      · split <;> rfl
      · rfl
    have hcalls : ((choice.message.toolCalls.getD []).map callItem).filterMap OutputItem.listed = [] := by
      rw [filterMap_map, filterMap_eq_nil_iff]
      exact fun _ _ => rfl
    rw [filterMap_append, filterMap_append, hmessage, hreasoning, hcalls]
    rfl

namespace ToolLoop
variable (ctx : LoopContext) (world : World (Except ErrorResponse ChatCompletionResponse)) (l : ToolLoop)

/-- The turn ends the loop, and its calls are put into the response, with the tools that are listed then. -/
def ListsAgain : Prop :=
  ∃ request chatResponse, l.chatRequest ctx = .ok request ∧
    world.chat (l.asked ++ [request]) = .ok chatResponse ∧
    extractAllToolCallsFromChat chatResponse = [] ∧ chatResponse.choices ≠ [] ∧ 0 < l.state.totalCalls

variable {ctx world l} in
/-- The turn is the last one. -/
theorem ListsAgain.ends (h : l.ListsAgain ctx world) : ∃ l' result, l.turn ctx world = (l', some result) := by
  obtain ⟨request, chatResponse, hrequest, hchat, hcalls, -⟩ := h
  have hasked : (l.ask request).asked = l.asked ++ [request] := rfl
  refine ⟨l.ask request, (respond ctx chatResponse).map ((l.ask request).final ctx), ?_⟩
  unfold ToolLoop.turn
  rw [hrequest]
  dsimp only
  rw [hasked, hchat]
  dsimp only [afterAnswer]
  rw [if_pos hcalls]

/-- The lists of a response. -/
def listed : Except ErrorResponse ResponsesResponse → List (List McpTool)
  | .ok response => response.output.filterMap OutputItem.listed
  | .error _ => []

variable {ctx world l}

variable (ctx) in
/-- A response that lists nothing, or an error if there is no choice. -/
theorem listed_respond (chatResponse : ChatCompletionResponse) :
    (∃ response, respond ctx chatResponse = .ok response ∧
      response.output.filterMap OutputItem.listed = [] ∧ chatResponse.choices ≠ []) ∨
    (∃ e, respond ctx chatResponse = .error e) ∧ chatResponse.choices = [] := by
  unfold respond
  cases hconvert : chatToResponses chatResponse ctx.responseId with
  | error e =>
    refine .inr ⟨⟨_, rfl⟩, ?_⟩
    unfold chatToResponses at hconvert
    split at hconvert
    · next heq => exact heq
    · cases hconvert
  | ok response =>
    refine .inl ⟨response, rfl, chatToResponses_listed hconvert, fun heq => ?_⟩
    unfold chatToResponses at hconvert
    rw [heq] at hconvert
    cases hconvert

variable (ctx) in
/-- An end that puts no calls into the response lists nothing. -/
theorem listed_respond_nil (chatResponse : ChatCompletionResponse) :
    listed (respond ctx chatResponse) = [] ∧ listed ((respond ctx chatResponse).map limited) = [] := by
  obtain ⟨response, hok, hlisted, -⟩ | ⟨⟨e, herror⟩, -⟩ := listed_respond ctx chatResponse
  · rw [hok]
    exact ⟨hlisted, hlisted⟩
  · rw [herror]
    exact ⟨rfl, rfl⟩

/-- The last turn lists again by the answer it comes to. -/
theorem listsAgain_iff {request : ChatCompletionRequest} {chatResponse : ChatCompletionResponse}
    (hrequest : l.chatRequest ctx = .ok request)
    (hanswer : world.chat (l.asked ++ [request]) = .ok chatResponse) : l.ListsAgain ctx world ↔
      extractAllToolCallsFromChat chatResponse = [] ∧ chatResponse.choices ≠ [] ∧ 0 < l.state.totalCalls := by
  refine ⟨fun ⟨request', chatResponse', hok, hchat, hlists⟩ => ?_,
    fun hlists => ⟨request, chatResponse, hrequest, hanswer, hlists⟩⟩
  cases hrequest.symm.trans hok
  cases hanswer.symm.trans hchat
  exact hlists

/-- **What the end of a loop lists**: the tools that are listed then, if it made calls. -/
theorem Asks.turn_listed (hasks : l.Asks ctx tools) {l' : ToolLoop}
    {result : Except ErrorResponse ResponsesResponse} (h : l.turn ctx world = (l', some result)) :
    (l.ListsAgain ctx world → listed result = [ctx.lastTools]) ∧
      (¬ l.ListsAgain ctx world → listed result = []) := by
  have hturned := turned ctx world l
  rw [h] at hturned
  cases hturned with
  | unasked _ hrequest =>
    refine ⟨fun ⟨_, _, hok, _⟩ => ?_, fun _ => rfl⟩
    cases hrequest.symm.trans hok
  | refused hrequest hanswer =>
    refine ⟨fun ⟨_, _, hok, hchat, _⟩ => ?_, fun _ => rfl⟩
    cases hrequest.symm.trans hok
    cases hanswer.symm.trans hchat
  | @answered request chatResponse hrequest hanswer hcalls =>
    rw [listsAgain_iff hrequest hanswer]
    obtain ⟨response, hok, hlisted, hchoices⟩ | ⟨⟨e, herror⟩, hchoices⟩ := listed_respond ctx chatResponse
    · rw [hok]
      change (_ → (ToolLoop.final ctx (l.ask request) response).output.filterMap
        OutputItem.listed = _) ∧ (_ → (ToolLoop.final ctx (l.ask request) response).output.filterMap
        OutputItem.listed = _)
      unfold ToolLoop.final
      by_cases htotal : 0 < l.state.totalCalls
      · rw [if_pos (show 0 < (l.ask request).state.totalCalls from htotal)]
        refine ⟨fun _ => ?_, fun hnot => absurd ⟨hcalls, hchoices, htotal⟩ hnot⟩
        have hitem : (buildMcpListToolsItem (ctx.uuid (l.ask request).generated) ctx.lastTools
            ctx.serverLabel).listed = some ctx.lastTools := rfl
        rw [cons_append, filterMap_cons_some hitem, filterMap_append, hlisted]
        exact congrArg ([ctx.lastTools] ++ ·) hasks.items
      · rw [if_neg (show ¬ 0 < (l.ask request).state.totalCalls from htotal)]
        exact ⟨fun hlists => absurd hlists.2.2 htotal, fun _ => hlisted⟩
    · rw [herror]
      exact ⟨fun hlists => absurd hchoices hlists.2.1, fun _ => rfl⟩
  | @left request chatResponse hrequest hanswer hcalls _ _ hresult =>
    rw [listsAgain_iff hrequest hanswer]
    refine ⟨fun hlists => absurd hlists.1 hcalls, fun _ => ?_⟩
    obtain ⟨hplain, hlimited⟩ := listed_respond_nil ctx chatResponse
    rcases hresult with rfl | rfl
    · exact hplain
    · exact hlimited

end ToolLoop

end QwenStack.Grpc
