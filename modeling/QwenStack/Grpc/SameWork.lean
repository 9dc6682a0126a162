import QwenStack.Grpc.Chunking

/-!
# Responses over chat — the two loops beside each other

The loop that streams and the one that does not are run with the same request and the same model, whose
results the one reads whole and the other as streams.  As long as their turns go alike, they ask for the
same chats and call the same tools, with the same arguments (`same_work`).

Their turns go apart (`Alike`) where the one has more turns than the other may have, where an answer mixes
calls of MCP tools and of functions (only the streaming loop makes the former), where a call has no
arguments, and where the emitter panics.
-/

namespace QwenStack.Grpc

open List

/-- A chat request, whether it streams or not. -/
def ChatCompletionRequest.unstreamed (request : ChatCompletionRequest) : ChatCompletionRequest :=
  { request with stream := false }

/-- One model, and the same tools: for the same requests so far, the streams of the one are chunkings of the
results of the other, and without chunks for an error. -/
structure SameModel (world : World (Except ErrorResponse ChatCompletionResponse))
    (streaming : World (List Frame)) : Prop where
  callTool : streaming.callTool = world.callTool
  chat : ∀ {asked asked' : List ChatCompletionRequest},
    asked'.map ChatCompletionRequest.unstreamed = asked.map ChatCompletionRequest.unstreamed →
      match world.chat asked with
      | .ok response => IsChunking response (streaming.chat asked')
      | .error _ => chunksOf (streaming.chat asked') = []

/-- The loop that streams, for the same request, and with the tools that it lists. -/
def LoopContext.streaming (ctx : LoopContext) (listed : List McpTool) : LoopContext :=
  { ctx with
    originalRequest := { ctx.originalRequest with stream := some true }
    mcpTools := listed }

/-- The same chats have been asked for, and the same tools called. -/
def SameWork (l s : ToolLoop) : Prop :=
  s.asked.map ChatCompletionRequest.unstreamed = l.asked.map ChatCompletionRequest.unstreamed ∧
    s.called = l.called

/-- A loop and the one that streams, between the same turns. -/
structure Paired (l s : ToolLoop) : Prop where
  work : SameWork l s
  request : ∃ stream, s.currentRequest = { l.currentRequest with stream := stream }
  toolChoice : l.currentRequest.toolChoice = none ∨ l.currentRequest.toolChoice = some .auto
  total : s.state.totalCalls = l.state.totalCalls
  history : s.state.conversationHistory = l.state.conversationHistory
  original : s.state.originalInput = l.state.originalInput
  iteration : s.state.iteration = l.state.iteration

section Pairs
variable {ctx : LoopContext} {l s : ToolLoop}

/-- Whether a request streams is only copied. -/
theorem responsesToChat_stream (unknownModelId : Str) (req : ResponsesRequest) (stream : Option Bool) :
    responsesToChat unknownModelId { req with stream := stream } =
      (responsesToChat unknownModelId req).map fun r => { r with stream := stream.getD false } := by
  unfold responsesToChat
  dsimp only
  split
  · rfl
  · rfl

theorem responsesToChat_toolChoice {unknownModelId : Str} {req : ResponsesRequest}
    {request : ChatCompletionRequest} (h : responsesToChat unknownModelId req = .ok request) :
    request.toolChoice = req.toolChoice := by
  unfold responsesToChat at h
  dsimp only at h
  split at h
  · cases h
  · cases h
    rfl

/-- The requests of a pair, which differ only in whether they stream. -/
theorem Paired.chatRequest (h : Paired l s) (ctx : LoopContext) : (∃ e, l.chatRequest ctx = .error e ∧
      s.iterate.chatRequest (ctx.streaming ctx.mcpTools) = .error e) ∨
    ∃ request request', l.chatRequest ctx = .ok request ∧
      s.iterate.chatRequest (ctx.streaming ctx.mcpTools) = .ok request' ∧
      request'.unstreamed = request.unstreamed := by
  obtain ⟨stream, hrequest⟩ := h.request
  have hstream : responsesToChat ctx.unknownModelId s.iterate.currentRequest =
      (responsesToChat ctx.unknownModelId l.currentRequest).map
        fun r => { r with stream := stream.getD false } := by
    rw [show s.iterate.currentRequest = s.currentRequest from rfl, hrequest]
    exact responsesToChat_stream ..
  unfold ToolLoop.chatRequest
  rw [show (ctx.streaming ctx.mcpTools).unknownModelId = ctx.unknownModelId from rfl, hstream]
  cases hresult : responsesToChat ctx.unknownModelId l.currentRequest with
  | error e => exact .inl ⟨e, rfl, rfl⟩
  | ok request =>
    refine .inr ⟨_, _, rfl, rfl, ?_⟩
    -- before the first turn the choice is that of the request, and then that of the loop
    have hchoice : ∀ n, (if n = 0 then request.toolChoice.or (some .auto) else some .auto) =
        some ToolChoice.auto := by
      intro n
      rw [responsesToChat_toolChoice hresult]
      split
      · rcases h.toolChoice with hnone | hauto
        · rw [hnone]
          rfl
        · rw [hauto]
          rfl
      · rfl
    simp only [ChatCompletionRequest.unstreamed, prepareChatToolsAndChoice, hchoice]
    rfl

/-- A call that is made in both. -/
theorem Paired.execute {ctx' : LoopContext} {callTool : List (Str × Str) → CallResult} (h : Paired l s)
    (toolCall : ExtractedToolCall) :
    Paired (l.execute ctx callTool toolCall) (s.execute ctx' callTool toolCall) := by
  have hcalled : s.callsWith toolCall = l.callsWith toolCall := by
    rw [ToolLoop.callsWith, h.work.2, ToolLoop.callsWith]
  refine ⟨⟨h.work.1, hcalled⟩, h.request, h.toolChoice, ?_, ?_, h.original, h.iteration⟩
  · exact congrArg (· + 1) h.total
  · simp only [ToolLoop.execute, ToolLoopState.recordCall, h.history, hcalled]

theorem Paired.executes {l s : ToolLoop} (h : Paired l s) (ctx ctx' : LoopContext)
    (callTool : List (Str × Str) → CallResult) (toolCalls : List ExtractedToolCall) :
    Paired (toolCalls.foldl (ToolLoop.execute ctx callTool) l)
      (toolCalls.foldl (ToolLoop.execute ctx' callTool) s) := by
  induction toolCalls generalizing l s with
  | nil => exact h
  | cons toolCall toolCalls ih => exact ih (h.execute toolCall)

/-- **A turn in both.** -/
theorem Paired.perform {callTool : List (Str × Str) → CallResult} (h : Paired l s) (listed : List McpTool)
    {request request' : ChatCompletionRequest} (hsame : request'.unstreamed = request.unstreamed)
    (toolCalls : List ExtractedToolCall) :
    Paired (l.iterate.perform ctx callTool request toolCalls)
      (s.iterate.perform (ctx.streaming listed) callTool request' toolCalls) := by
  have hasked : Paired (l.iterate.ask request) (s.iterate.ask request') := by
    refine ⟨⟨?_, h.work.2⟩, h.request, h.toolChoice, h.total, h.history, h.original,
      congrArg (· + 1) h.iteration⟩
    change (s.asked ++ [request']).map _ = (l.asked ++ [request]).map _
    rw [map_append, map_append, h.work.1, map_singleton, map_singleton, hsame]
  have hcalls := hasked.executes ctx (ctx.streaming listed) callTool toolCalls
  obtain ⟨stream, hrequest⟩ := hcalls.request
  refine ⟨hcalls.work, ⟨stream, ?_⟩, hcalls.toolChoice, hcalls.total, hcalls.history, hcalls.original,
    hcalls.iteration⟩
  change buildNextRequest ctx.codec _ _ = _
  rw [hrequest]
  unfold buildNextRequest
  rw [hcalls.original, hcalls.history, hcalls.iteration]
  rfl

end Pairs

/-! ### Turns that go alike -/

section Alike
variable (ctx : LoopContext) (world : World (Except ErrorResponse ChatCompletionResponse))
  (streaming : World (List Frame))

/-- **The next turns of both loops go alike**: the one that streams may have another turn; where the loop is
to go on, no message ends before there is a text, and all calls have arguments; and no call of an MCP tool
that is within the limit comes with one of a function. -/
def Alike (l : ToolLoop) (s : StreamLoop) : Prop :=
  ∀ request request', l.chatRequest ctx = .ok request →
    s.loop.iterate.chatRequest (ctx.streaming ctx.mcpTools) = .ok request' →
      s.loop.state.iteration + 1 ≤ defaultMaxIterations ∧
      ∀ chatResponse, world.chat (l.asked ++ [request]) = .ok chatResponse →
        (l.GoesOn ctx chatResponse →
          stopsAfterText s.client.opened (chunksOf (streaming.chat (s.loop.asked ++ [request']))) = true ∧
            ∀ call ∈ chatResponse.toolCalls, call.function.arguments.isSome = true) ∧
        (ctx.functionToolCalls (extractAllToolCallsFromChat chatResponse) = [] ∨
          ctx.mcpToolCalls (extractAllToolCallsFromChat chatResponse) = [] ∨
          ctx.limit <
            l.state.totalCalls + (ctx.mcpToolCalls (extractAllToolCallsFromChat chatResponse)).length)

section
variable {calls calls' : List ExtractedToolCall} (h : calls'.map ExtractedToolCall.name = calls.map ExtractedToolCall.name)
include h

/-- Which calls are those of MCP tools is decided by their names. -/
theorem filter_names (p : Str → Bool) :
    (calls'.filter fun tc => p tc.name).length = (calls.filter fun tc => p tc.name).length := by
  have hmap : ∀ calls : List ExtractedToolCall,
      (calls.filter fun tc => p tc.name).map ExtractedToolCall.name =
        (calls.map ExtractedToolCall.name).filter p := by
    intro calls
    rw [filter_map]
    rfl
  have hlength := congrArg List.length ((hmap calls').trans ((congrArg _ h).trans (hmap calls).symm))
  rwa [length_map, length_map] at hlength

theorem mcpToolCalls_length : (ctx.mcpToolCalls calls').length = (ctx.mcpToolCalls calls).length :=
  filter_names h fun name => ctx.mcpTools.any fun tool => tool.name = name

theorem functionToolCalls_length :
    (ctx.functionToolCalls calls').length = (ctx.functionToolCalls calls).length :=
  filter_names h fun name => !ctx.mcpTools.any fun tool => tool.name = name

end

variable {ctx}

/-- Whether the loop goes on is decided by the names of the calls. -/
theorem goesOn_iff {l s : ToolLoop} (htotal : s.state.totalCalls = l.state.totalCalls)
    {response response' : ChatCompletionResponse}
    (h : (extractAllToolCallsFromChat response').map ExtractedToolCall.name =
      (extractAllToolCallsFromChat response).map ExtractedToolCall.name) :
    s.GoesOn (ctx.streaming ctx.mcpTools) response' ↔ l.GoesOn ctx response := by
  have hlength := congrArg List.length h
  rw [length_map, length_map] at hlength
  have hnil : ∀ {calls calls' : List ExtractedToolCall}, calls'.length = calls.length →
      (calls' = [] ↔ calls = []) := by
    intro calls calls' heq
    rw [← length_eq_zero_iff, heq, length_eq_zero_iff]
  have hfunctions := hnil (functionToolCalls_length ctx h)
  refine ⟨fun hgo => ⟨?_, ?_, ?_⟩, fun hgo => ⟨?_, ?_, ?_⟩⟩
  · exact mt (hnil hlength).mpr hgo.calls
  · exact hfunctions.mp hgo.functions
  · rw [← htotal, ← hlength]
    exact hgo.limit
  · exact mt (hnil hlength).mp hgo.calls
  · exact hfunctions.mpr hgo.functions
  · rw [htotal, hlength]
    exact hgo.limit

variable {world streaming}

/-- **Lockstep**: both loops go on, or both end, with the same work. -/
theorem lockstep (hmodel : SameModel world streaming) {l : ToolLoop} {s : StreamLoop}
    (hpaired : Paired l s.loop) (hsound : s.client.Sound) (halike : Alike ctx world streaming l s) :
    (∃ l' s', l.turn ctx world = (l', none) ∧
      s.turn (ctx.streaming ctx.mcpTools) streaming = (s', none) ∧ Paired l' s'.loop ∧ s'.client.Sound) ∨
    ∃ l' s' result loopEnd, l.turn ctx world = (l', some result) ∧
      s.turn (ctx.streaming ctx.mcpTools) streaming = (s', some loopEnd) ∧ SameWork l' s'.loop := by
  have hasked : ∀ {request request' : ChatCompletionRequest}, request'.unstreamed = request.unstreamed →
      (s.loop.asked ++ [request']).map ChatCompletionRequest.unstreamed =
        (l.asked ++ [request]).map ChatCompletionRequest.unstreamed := by
    intro request request' hsame
    rw [map_append, map_append, hpaired.work.1, map_singleton, map_singleton, hsame]
  rcases hturn : l.turn ctx world with ⟨l', _ | result⟩
  · obtain ⟨request, chatResponse, hrequest, hanswer, hgoesOn, rfl⟩ := ToolLoop.turn_none hturn
    rcases hpaired.chatRequest ctx with ⟨e, herror, -⟩ | ⟨request₁, request', hok, hok', hsame⟩
    · cases herror.symm.trans hrequest
    · obtain rfl := Except.ok.inj (hok.symm.trans hrequest)
      obtain ⟨hiteration, hresponse⟩ := halike request₁ request' hok hok'
      obtain ⟨hwhole, -⟩ := hresponse chatResponse hanswer
      obtain ⟨hstops, harguments⟩ := hwhole hgoesOn
      have hchunking := hmodel.chat (hasked hsame)
      rw [hanswer] at hchunking
      have hcalls := extract_answerOf hchunking harguments
      have hgoesOn' := (goesOn_iff (s := s.loop) hpaired.total (names_answerOf hchunking)).mpr hgoesOn
      rcases hturn' : s.turn (ctx.streaming ctx.mcpTools) streaming with ⟨s', _ | loopEnd⟩
      · obtain ⟨-, hsound', request₂, hok₂, -, hloop⟩ := StreamLoop.turn_none hsound hturn'
        cases hok'.symm.trans hok₂
        refine .inl ⟨_, s', rfl, rfl, ?_, hsound'⟩
        rw [hloop, hcalls, hmodel.callTool]
        exact hpaired.perform ctx.mcpTools hsame _
      · rcases StreamLoop.turn_some hsound hturn' with ⟨-, -, hmax | ⟨e, herror⟩⟩ |
          ⟨-, request₂, hok₂, -, hnot, -⟩
        · omega
        · cases herror.symm.trans hok'
        · cases hok'.symm.trans hok₂
          exact absurd hgoesOn' (hnot hstops hchunking.whole)
  · obtain ⟨hcalled, hend⟩ := ToolLoop.turn_some hturn
    rcases hpaired.chatRequest ctx with ⟨e, herror, herror'⟩ | ⟨request, request', hok, hok', hsame⟩
    · -- there is no chat to ask for
      rcases hend with ⟨-, hsame⟩ | ⟨request, hok, -⟩
      · rcases hturn' : s.turn (ctx.streaming ctx.mcpTools) streaming with ⟨s', _ | loopEnd⟩
        · obtain ⟨-, -, request₂, hok₂, -⟩ := StreamLoop.turn_none hsound hturn'
          cases herror'.symm.trans hok₂
        · rcases StreamLoop.turn_some hsound hturn' with ⟨hsame', hcalled', -⟩ | ⟨-, request₂, hok₂, -⟩
          · exact .inr ⟨l', s', _, _, rfl, rfl, by rw [hsame', hsame]; exact hpaired.work.1,
              hcalled'.trans (hpaired.work.2.trans hcalled.symm)⟩
          · cases herror'.symm.trans hok₂
      · cases herror.symm.trans hok
    · obtain ⟨hiteration, hresponse⟩ := halike request request' hok hok'
      rcases hend with ⟨⟨e, herror⟩, -⟩ | ⟨request₁, hok₁, hasks, hnot⟩
      · cases herror.symm.trans hok
      · cases hok.symm.trans hok₁
        have hchunking := hmodel.chat (hasked hsame)
        rcases hturn' : s.turn (ctx.streaming ctx.mcpTools) streaming with ⟨s', _ | loopEnd⟩
        · obtain ⟨-, -, request₂, hok₂, hgoesOn, -⟩ := StreamLoop.turn_none hsound hturn'
          cases hok'.symm.trans hok₂
          cases hanswer : world.chat (l.asked ++ [request]) with
          | error e =>
            rw [hanswer] at hchunking
            refine absurd ?_ hgoesOn.calls
            rw [extractAllToolCallsFromChat_eq, toolCalls_answerOf_nil hchunking, map_nil]
          | ok chatResponse =>
            rw [hanswer] at hchunking
            exact absurd ((goesOn_iff hpaired.total (names_answerOf hchunking)).mp hgoesOn)
              (hnot chatResponse hanswer)
        · refine .inr ⟨l', s', _, _, rfl, rfl, ?_⟩
          rcases StreamLoop.turn_some hsound hturn' with ⟨-, -, hmax | ⟨e, herror⟩⟩ |
            ⟨-, request₂, hok₂, hasks', -, hcalls⟩
          · omega
          · cases herror.symm.trans hok'
          · cases hok'.symm.trans hok₂
            refine ⟨by rw [hasks', hasks]; exact hasked hsame, ?_⟩
            rw [hcalled, ← hpaired.work.2]
            rcases hcalls with hcalls | ⟨hfunctions, hlimit, hcalls⟩
            · exact hcalls
            · -- an answer with calls of both kinds
              have hmade : (ctx.mcpToolCalls (extractAllToolCallsFromChat
                  (answerOf (streaming.chat (s.loop.asked ++ [request']))))) = [] := by
                cases hanswer : world.chat (l.asked ++ [request]) with
                | error e =>
                  rw [hanswer] at hchunking
                  rw [extractAllToolCallsFromChat_eq, toolCalls_answerOf_nil hchunking, map_nil]
                  rfl
                | ok chatResponse =>
                  rw [hanswer] at hchunking
                  have hnames := names_answerOf hchunking
                  have hmcp := mcpToolCalls_length ctx hnames
                  rcases (hresponse chatResponse hanswer).2 with hnone | hnone | hover
                  · have hlength := functionToolCalls_length ctx hnames
                    rw [hnone] at hlength
                    exact absurd (eq_nil_of_length_eq_zero hlength) hfunctions
                  · rw [hnone] at hmcp
                    exact eq_nil_of_length_eq_zero hmcp
                  · rw [← hmcp, ← hpaired.total] at hover
                    exact absurd hlimit (Nat.not_le.mpr hover)
              rw [show (ctx.streaming ctx.mcpTools).mcpToolCalls _ = [] from hmade, map_nil,
                append_nil] at hcalls
              exact hcalls

end Alike

/-- The two loops of a request, after as many turns. -/
def bothLoops (ctx : LoopContext) (world : World (Except ErrorResponse ChatCompletionResponse))
    (streaming : World (List Frame)) (listed : List McpTool) (opening : Opening)
    (modifiedRequest : ResponsesRequest) (turns : Nat) :
    (ToolLoop × Option (Except ErrorResponse ResponsesResponse)) × (StreamLoop × Option LoopEnd) :=
  (executeToolLoop ctx world turns modifiedRequest,
    executeToolLoopStreamingInternal (ctx.streaming listed) streaming turns (opening.emitter ctx.uuid)
      { modifiedRequest with stream := some true })

/-- **When the loops do the same work**: the tools that the one lists are those of the servers of the other,
the request leaves the choice of a tool to the model, and all turns go alike.  Then they have done the same
after any number of turns. -/
theorem same_work {ctx : LoopContext} {world : World (Except ErrorResponse ChatCompletionResponse)}
    {streaming : World (List Frame)} (hmodel : SameModel world streaming) {listed : List McpTool}
    {opening : Opening} {modifiedRequest : ResponsesRequest} (hlisted : listed = ctx.mcpTools)
    (hchoice : modifiedRequest.toolChoice = none ∨ modifiedRequest.toolChoice = some .auto)
    (halike : ∀ k l s, bothLoops ctx world streaming listed opening modifiedRequest k =
      ((l, none), (s, none)) → Alike ctx world streaming l s) (turns : Nat) :
    let (l, s) := bothLoops ctx world streaming listed opening modifiedRequest turns
    SameWork l.1 s.1.loop ∧ (l.2 = none ↔ s.2 = none) := by
  subst hlisted
  suffices h : ∀ (turns : Nat) (l : ToolLoop) (s : StreamLoop), Paired l s.loop → s.client.Sound →
      (∀ k l' s', Until.loop (fun l => ToolLoop.turn ctx l world) k l = (l', none) →
        Until.loop (fun s => StreamLoop.turn (ctx.streaming ctx.mcpTools) s streaming) k s = (s', none) →
          Alike ctx world streaming l' s') →
      SameWork (Until.loop (fun l => ToolLoop.turn ctx l world) turns l).1
        (Until.loop (fun s => StreamLoop.turn (ctx.streaming ctx.mcpTools) s streaming) turns s).1.loop ∧
      ((Until.loop (fun l => ToolLoop.turn ctx l world) turns l).2 = none ↔
        (Until.loop (fun s => StreamLoop.turn (ctx.streaming ctx.mcpTools) s streaming) turns s).2 = none) by
    refine h turns _ _ ⟨⟨rfl, rfl⟩, ⟨some true, rfl⟩, hchoice, rfl, rfl, rfl, rfl⟩ rfl fun k l s hl hs => ?_
    exact halike k l s (Prod.ext hl hs)
  intro turns
  induction turns with
  | zero => exact fun l s hpaired _ _ => ⟨hpaired.work, iff_of_true rfl rfl⟩
  | succ turns ih =>
    intro l s hpaired hsound halike
    rcases lockstep hmodel hpaired hsound (halike 0 l s rfl rfl) with
      ⟨l', s', hl, hs, hpaired', hsound'⟩ | ⟨l', s', result, loopEnd, hl, hs, hwork⟩
    · rw [Until.loop_succ_none turns hl, Until.loop_succ_none turns hs]
      refine ih l' s' hpaired' hsound' fun k l'' s'' hk hk' => halike (k + 1) l'' s'' ?_ ?_
      · rw [Until.loop_succ_none k hl, hk]
      · rw [Until.loop_succ_none k hs, hk']
    · rw [Until.loop_succ_some turns hl, Until.loop_succ_some turns hs]
      exact ⟨hwork, iff_of_false (fun h => by cases h) (fun h => by cases h)⟩

/-! ### A search -/

section Searching

/-- The stream of an answer with the calls of some tools. -/
def callingBody (names : List Str) : List Frame :=
  [.chunk {
      id := "chatcmpl-1".toList
      model := "qwen".toList
      choices := [{
        delta := {
          toolCalls := some (names.zipIdx.map fun indexed => ⟨indexed.2, some ("call_".toList ++ indexed.1),
            some ⟨some indexed.1, some "{}".toList⟩⟩) }
        finishReason := some "tool_calls".toList }] },
    .done]

/-- The search, as it is streamed. -/
def searchStream (names : List Str) : World (List Frame) where
  chat asked := callingBody (if asked.length = 1 then ["search".toList] else names)
  callTool _ := .ok "found".toList

theorem callingBody_none : IsChunking (callingAnswer []) (callingBody []) where
  whole := rfl
  content := rfl
  reasoning := rfl
  finishReason := rfl
  bounded := by decide
  spelled i call h := by cases h

theorem callingBody_one : IsChunking (callingAnswer ["search".toList]) (callingBody ["search".toList]) where
  whole := rfl
  content := rfl
  reasoning := rfl
  finishReason := rfl
  bounded := by decide
  spelled i call h := by
    cases i with
    | zero =>
      cases h
      exact ⟨by decide, by decide, by decide, by decide⟩
    | succ i => cases h

theorem callingBody_two : IsChunking (callingAnswer ["search".toList, "lookup".toList])
    (callingBody ["search".toList, "lookup".toList]) where
  whole := rfl
  content := rfl
  reasoning := rfl
  finishReason := rfl
  bounded := by decide
  spelled i call h := by
    rcases i with _ | _ | i
    · cases h
      exact ⟨by decide, by decide, by decide, by decide⟩
    · cases h
      exact ⟨by decide, by decide, by decide, by decide⟩
    · cases h

theorem searchStream_model {names : List Str} (h : IsChunking (callingAnswer names) (callingBody names)) :
    SameModel (searchWorld names) (searchStream names) where
  callTool := rfl
  chat {asked asked'} hsame := by
    have hlength := congrArg List.length hsame
    rw [length_map, length_map] at hlength
    change IsChunking (callingAnswer (if asked.length = 1 then _ else _))
      (callingBody (if asked'.length = 1 then _ else _))
    rw [hlength]
    split
    · exact callingBody_one
    · exact h

/-- The turns of a search that is answered go alike, as long as there are turns. -/
theorem search_alike {l : ToolLoop} {s : StreamLoop} (h : s.loop.state.iteration + 1 ≤ defaultMaxIterations) :
    Alike searchCtx (searchWorld []) (searchStream []) l s := by
  intro request request' _ _
  refine ⟨h, fun chatResponse hanswer => ?_⟩
  cases hanswer
  rw [searchStream]
  dsimp only
  refine ⟨fun _ => ⟨?_, ?_⟩, .inl ?_⟩
  · split
    · cases s.client.opened <;> decide
    · cases s.client.opened <;> decide
  · split
    · decide
    · decide
  · split
    · decide
    · decide

theorem search_same_work :
    let (l, s) := bothLoops searchCtx (searchWorld []) (searchStream []) searchCtx.mcpTools
      ⟨"resp_1".toList, "qwen".toList, 0, searchCtx.originalRequest⟩ searchCtx.originalRequest 2
    SameWork l.1 s.1.loop ∧ (l.2 = none ↔ s.2 = none) := by
  refine same_work (searchStream_model callingBody_none) rfl (.inl rfl) (fun k l s h => ?_) 2
  match k with
  | 0 =>
    obtain rfl := congrArg (fun run => run.2.1) h
    exact search_alike (by decide)
  | 1 =>
    obtain rfl := congrArg (fun run => run.2.1) h
    exact search_alike (by decide)
  | k + 2 =>
    have hended := congrArg (fun run => run.1.2.isNone) h
    cases hended

/-- An answer that searches and calls a function of the caller, too: only the loop that streams searches. -/
theorem mixed_different_work :
    SameModel (searchWorld ["search".toList, "lookup".toList])
      (searchStream ["search".toList, "lookup".toList]) ∧
    ¬ SameWork
      (executeToolLoop searchCtx (searchWorld ["search".toList, "lookup".toList]) 2
        searchCtx.originalRequest).1
      (executeToolLoopStreamingInternal (searchCtx.streaming searchCtx.mcpTools)
        (searchStream ["search".toList, "lookup".toList]) 2
        (Opening.emitter ⟨"resp_1".toList, "qwen".toList, 0, searchCtx.originalRequest⟩ searchCtx.uuid)
        { searchCtx.originalRequest with stream := some true }).1.loop := by
  refine ⟨searchStream_model callingBody_two, fun h => ?_⟩
  exact absurd (congrArg List.length h.2) (by decide)

end Searching

end QwenStack.Grpc
