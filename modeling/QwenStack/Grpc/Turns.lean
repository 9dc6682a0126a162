import QwenStack.Grpc.Endings
import Mathlib.Data.List.Infix

/-!
# Responses over chat — the turns of the two loops

A turn after which the loop goes on does the same in both loops: the model is asked, all calls of its answer
are made, and the request of the next turn is built from what they gave (`ToolLoop.perform`).  What a turn
at which the loop ends has asked and called is said beside it.

The lemmas say all that a turn can do (`turned`, `turn_none`, `turn_some`), so that the proofs about runs do
not look into it again.
-/

namespace QwenStack.Grpc

/-- What has been asked so far, after one more. -/
theorem inits_tail_concat {α : Type*} (l : List α) (a : α) :
    (l ++ [a]).inits.tail = l.inits.tail ++ [l ++ [a]] := by
  cases l with
  | nil => rfl
  | cons b l => simp [List.inits_append]

namespace ToolLoop
variable (ctx : LoopContext) (callTool : List (Str × Str) → CallResult) (l : ToolLoop)

/-- The model is asked, and calls are made. -/
def perform (request : ChatCompletionRequest) (toolCalls : List ExtractedToolCall) : ToolLoop :=
  (toolCalls.foldl (execute ctx callTool) (l.ask request)).next ctx

/-- The loop goes on: there are calls, all of them of MCP tools, and within the limit. -/
structure GoesOn (chatResponse : ChatCompletionResponse) : Prop where
  calls : extractAllToolCallsFromChat chatResponse ≠ []
  functions : ctx.functionToolCalls (extractAllToolCallsFromChat chatResponse) = []
  limit : l.state.totalCalls + (extractAllToolCallsFromChat chatResponse).length ≤ ctx.limit

variable {ctx callTool l}

/-- Without calls of functions, all calls are those of MCP tools. -/
theorem mcpToolCalls_eq {toolCalls : List ExtractedToolCall} (h : ctx.functionToolCalls toolCalls = []) :
    ctx.mcpToolCalls toolCalls = toolCalls := by
  refine List.filter_eq_self.mpr fun toolCall hmem => ?_
  have hnot := List.filter_eq_nil_iff.mp h toolCall hmem
  rwa [Bool.not_eq_true', Bool.not_eq_false] at hnot

variable (ctx callTool)

/-- What the calls do not change. -/
theorem execute_kept_asked (toolCalls : List ExtractedToolCall) (l : ToolLoop) :
    (toolCalls.foldl (execute ctx callTool) l).asked = l.asked ∧
      (toolCalls.foldl (execute ctx callTool) l).currentRequest = l.currentRequest ∧
      (toolCalls.foldl (execute ctx callTool) l).state.originalInput = l.state.originalInput ∧
      (toolCalls.foldl (execute ctx callTool) l).state.iteration = l.state.iteration := by
  induction toolCalls generalizing l with
  | nil => exact ⟨rfl, rfl, rfl, rfl⟩
  | cons toolCall toolCalls ih => exact ih (l.execute ctx callTool toolCall)

/-- The calls are counted, and made in their order. -/
theorem execute_called (toolCalls : List ExtractedToolCall) (l : ToolLoop) :
    (toolCalls.foldl (execute ctx callTool) l).called =
        l.called ++ toolCalls.map (fun tc => (tc.name, tc.arguments)) ∧
      (toolCalls.foldl (execute ctx callTool) l).state.totalCalls =
        l.state.totalCalls + toolCalls.length := by
  induction toolCalls generalizing l with
  | nil => exact ⟨(List.append_nil _).symm, rfl⟩
  | cons toolCall toolCalls ih =>
    obtain ⟨hcalled, htotal⟩ := ih (l.execute ctx callTool toolCall)
    refine ⟨hcalled.trans ?_, htotal.trans ?_⟩
    · rw [List.map_cons, ← List.singleton_append, ← List.append_assoc]
      rfl
    · rw [List.length_cons, show (l.execute ctx callTool toolCall).state.totalCalls =
        l.state.totalCalls + 1 from rfl]
      omega

variable {ctx}

/-- **What a turn can do.** -/
inductive Turned (ctx : LoopContext) (world : World (Except ErrorResponse ChatCompletionResponse))
    (l : ToolLoop) : ToolLoop × Option (Except ErrorResponse ResponsesResponse) → Prop where
  | unasked {e} (error : ErrorResponse) (hrequest : l.chatRequest ctx = .error e) :
      Turned ctx world l (l, some (.error error))
  | refused {request e} (hrequest : l.chatRequest ctx = .ok request)
      (hanswer : world.chat (l.asked ++ [request]) = .error e) :
      Turned ctx world l (l.ask request, some (.error e))
  | answered {request chatResponse} (hrequest : l.chatRequest ctx = .ok request)
      (hanswer : world.chat (l.asked ++ [request]) = .ok chatResponse)
      (hcalls : extractAllToolCallsFromChat chatResponse = []) :
      Turned ctx world l (l.ask request, some ((respond ctx chatResponse).map ((l.ask request).final ctx)))
  | left {request chatResponse} (hrequest : l.chatRequest ctx = .ok request)
      (hanswer : world.chat (l.asked ++ [request]) = .ok chatResponse)
      (hcalls : extractAllToolCallsFromChat chatResponse ≠ []) (hends : ¬ l.GoesOn ctx chatResponse)
      (result : Except ErrorResponse ResponsesResponse)
      (hresult : result = respond ctx chatResponse ∨ result = (respond ctx chatResponse).map limited) :
      Turned ctx world l ((l.ask request).iterate, some result)
  | performed {request chatResponse} (hrequest : l.chatRequest ctx = .ok request)
      (hanswer : world.chat (l.asked ++ [request]) = .ok chatResponse) (hgoesOn : l.GoesOn ctx chatResponse) :
      Turned ctx world l (l.iterate.perform ctx world.callTool request
        (extractAllToolCallsFromChat chatResponse), none)

theorem turned (ctx : LoopContext) (world : World (Except ErrorResponse ChatCompletionResponse))
    (l : ToolLoop) : Turned ctx world l (l.turn ctx world) := by
  unfold turn
  cases hrequest : l.chatRequest ctx with
  | error e => exact .unasked _ hrequest
  | ok request =>
    dsimp only
    cases hanswer : world.chat (l.ask request).asked with
    | error e => exact .refused hrequest hanswer
    | ok chatResponse =>
      dsimp only [afterAnswer]
      split
      · next hcalls => exact .answered hrequest hanswer hcalls
      · next hcalls =>
        split
        · next hfunctions =>
          exact .left hrequest hanswer hcalls (fun h => hfunctions h.functions) _ (.inl rfl)
        · next hfunctions =>
          rw [mcpToolCalls_eq (not_not.mp hfunctions)]
          split
          · next hlimit =>
            exact .left hrequest hanswer hcalls (fun h => Nat.not_le.mpr hlimit h.limit) _ (.inr rfl)
          · next hlimit =>
            exact .performed hrequest hanswer ⟨hcalls, not_not.mp hfunctions, Nat.not_lt.mp hlimit⟩

/-- **A turn after which the loop goes on.** -/
theorem turn_none {world : World (Except ErrorResponse ChatCompletionResponse)} {l' : ToolLoop}
    (h : l.turn ctx world = (l', none)) :
    ∃ request chatResponse, l.chatRequest ctx = .ok request ∧
      world.chat (l.asked ++ [request]) = .ok chatResponse ∧ l.GoesOn ctx chatResponse ∧
      l' = l.iterate.perform ctx world.callTool request (extractAllToolCallsFromChat chatResponse) := by
  have hturned := turned ctx world l
  rw [h] at hturned
  cases hturned with
  | performed hrequest hanswer hgoesOn => exact ⟨_, _, hrequest, hanswer, hgoesOn, rfl⟩

/-- **A turn with which the loop ends.** -/
theorem turn_some {world : World (Except ErrorResponse ChatCompletionResponse)} {l' : ToolLoop}
    {result : Except ErrorResponse ResponsesResponse} (h : l.turn ctx world = (l', some result)) :
    l'.called = l.called ∧ ((∃ e, l.chatRequest ctx = .error e) ∧ l'.asked = l.asked ∨
        ∃ request, l.chatRequest ctx = .ok request ∧ l'.asked = l.asked ++ [request] ∧
          ∀ chatResponse, world.chat (l.asked ++ [request]) = .ok chatResponse →
            ¬ l.GoesOn ctx chatResponse) := by
  have hturned := turned ctx world l
  rw [h] at hturned
  cases hturned with
  | unasked _ hrequest => exact ⟨rfl, .inl ⟨⟨_, hrequest⟩, rfl⟩⟩
  | refused hrequest hanswer =>
    refine ⟨rfl, .inr ⟨_, hrequest, rfl, fun chatResponse hok => ?_⟩⟩
    cases hanswer.symm.trans hok
  | answered hrequest hanswer hcalls =>
    refine ⟨rfl, .inr ⟨_, hrequest, rfl, fun chatResponse hok hgoesOn => ?_⟩⟩
    cases hanswer.symm.trans hok
    exact hgoesOn.calls hcalls
  | left hrequest hanswer _ hends _ _ =>
    refine ⟨rfl, .inr ⟨_, hrequest, rfl, fun chatResponse hok => ?_⟩⟩
    cases hanswer.symm.trans hok
    exact hends

end ToolLoop

namespace StreamLoop
open Client
variable {ctx : LoopContext} {world : World (List Frame)} {s s' : StreamLoop}

/-- The calls are those of the loop. -/
theorem execute_loop (ctx : LoopContext) (callTool : List (Str × Str) → CallResult) (toolCalls : List ExtractedToolCall)
    (s : StreamLoop) : (toolCalls.foldl (execute ctx callTool) s).loop =
      toolCalls.foldl (ToolLoop.execute ctx callTool) s.loop := by
  induction toolCalls generalizing s with
  | nil => rfl
  | cons toolCall toolCalls ih => exact ih (s.execute ctx callTool toolCall)

/-- The calls of an answer after which the loop goes on. -/
theorem afterAnswer_none {callTool : List (Str × Str) → CallResult} {response : ChatCompletionResponse}
    (h : s.afterAnswer ctx callTool response = (s', none)) :
    s.loop.GoesOn ctx response ∧ SameMessage s.client s'.client ∧
      s' = { (extractAllToolCallsFromChat response).foldl (execute ctx callTool) s with
        loop := ((extractAllToolCallsFromChat response).foldl (ToolLoop.execute ctx callTool) s.loop).next
          ctx } := by
  dsimp only [afterAnswer] at h
  by_cases hcalls : extractAllToolCallsFromChat response = []
  · rw [if_pos hcalls] at h
    cases congrArg Prod.snd h
  · rw [if_neg hcalls] at h
    split at h
    · cases congrArg Prod.snd h
    · next hlimit =>
      by_cases hfunctions : ctx.functionToolCalls (extractAllToolCallsFromChat response) = []
      · rw [if_neg (not_not_intro hfunctions)] at h
        rw [ToolLoop.mcpToolCalls_eq hfunctions] at h hlimit
        obtain rfl := congrArg Prod.fst h
        obtain ⟨hsame, -⟩ := execute_same ctx s callTool (extractAllToolCallsFromChat response)
        refine ⟨⟨hcalls, hfunctions, Nat.not_lt.mp hlimit⟩, ⟨hsame.itemId, hsame.outputIndex⟩, ?_⟩
        rw [execute_loop]
      · rw [if_pos hfunctions] at h
        cases congrArg Prod.snd h

/-- **A turn after which the loop goes on.** -/
theorem turn_none (hsound : s.client.Sound) (h : s.turn ctx world = (s', none)) :
    s.loop.state.iteration + 1 ≤ defaultMaxIterations ∧ s'.client.Sound ∧
    ∃ request, s.loop.iterate.chatRequest ctx = .ok request ∧
      s.loop.GoesOn ctx (answerOf (world.chat (s.loop.asked ++ [request]))) ∧
      s'.loop = s.loop.iterate.perform ctx world.callTool request
        (extractAllToolCallsFromChat (answerOf (world.chat (s.loop.asked ++ [request])))) := by
  obtain ⟨-, -, message, hresult⟩ | ⟨request, hrequest, ⟨-, -, hresult⟩ | ⟨-, ⟨e, -, -, hresult⟩ |
    ⟨-, client, listed, hsound', hanswer⟩⟩⟩ := turn_cases ctx world hsound h
  · cases hresult
  · cases hresult
  · cases hresult
  · obtain ⟨hmax, hchat⟩ := (nextRequest_eq_some ctx s).mp hrequest
    obtain ⟨hgoesOn, hsame, rfl⟩ := afterAnswer_none hanswer
    exact ⟨hmax, hsame.sound hsound', request, hchat, ⟨hgoesOn.calls, hgoesOn.functions, hgoesOn.limit⟩, rfl⟩

/-- What the last turn has called: the MCP tools, where calls are left to the caller. -/
theorem afterAnswer_some {callTool : List (Str × Str) → CallResult} {response : ChatCompletionResponse}
    {loopEnd : LoopEnd} (h : s.afterAnswer ctx callTool response = (s', some loopEnd)) :
    ¬ s.loop.GoesOn ctx response ∧ s'.loop.asked = s.loop.asked ∧ (s'.loop.called = s.loop.called ∨
        ctx.functionToolCalls (extractAllToolCallsFromChat response) ≠ [] ∧
        s.loop.state.totalCalls + (ctx.mcpToolCalls (extractAllToolCallsFromChat response)).length ≤
          ctx.limit ∧
        s'.loop.called = s.loop.called ++
          (ctx.mcpToolCalls (extractAllToolCallsFromChat response)).map fun tc => (tc.name, tc.arguments)) := by
  dsimp only [afterAnswer] at h
  split at h
  · next hcalls =>
    obtain rfl := congrArg Prod.fst h
    exact ⟨fun hgoesOn => hgoesOn.calls hcalls, rfl, .inl rfl⟩
  · split at h
    · next hlimit =>
      obtain rfl := congrArg Prod.fst h
      refine ⟨fun hgoesOn => ?_, rfl, .inl rfl⟩
      rw [ToolLoop.mcpToolCalls_eq hgoesOn.functions] at hlimit
      exact absurd hgoesOn.limit (Nat.not_le.mpr hlimit)
    · next hlimit =>
      split at h
      · next hfunctions =>
        obtain rfl := congrArg Prod.fst h
        have hloop := execute_loop ctx callTool (ctx.mcpToolCalls (extractAllToolCallsFromChat response)) s
        obtain ⟨hasked, -⟩ := ToolLoop.execute_kept_asked ctx callTool
          (ctx.mcpToolCalls (extractAllToolCallsFromChat response)) s.loop
        obtain ⟨hcalled, -⟩ := ToolLoop.execute_called ctx callTool
          (ctx.mcpToolCalls (extractAllToolCallsFromChat response)) s.loop
        rw [← hloop] at hasked hcalled
        exact ⟨fun hgoesOn => hfunctions hgoesOn.functions, hasked,
          .inr ⟨hfunctions, Nat.not_lt.mp hlimit, hcalled⟩⟩
      · cases congrArg Prod.snd h

/-- **A turn with which the loop ends.** -/
theorem turn_some (hsound : s.client.Sound) {loopEnd : LoopEnd}
    (h : s.turn ctx world = (s', some loopEnd)) :
    (s'.loop.asked = s.loop.asked ∧ s'.loop.called = s.loop.called ∧
      (defaultMaxIterations < s.loop.state.iteration + 1 ∨
        ∃ e, s.loop.iterate.chatRequest ctx = .error e)) ∨
    s.loop.state.iteration + 1 ≤ defaultMaxIterations ∧
    ∃ request, s.loop.iterate.chatRequest ctx = .ok request ∧ s'.loop.asked = s.loop.asked ++ [request] ∧
      (stopsAfterText s.client.opened (chunksOf (world.chat (s.loop.asked ++ [request]))) = true →
        breakOf (world.chat (s.loop.asked ++ [request])) = none →
          ¬ s.loop.GoesOn ctx (answerOf (world.chat (s.loop.asked ++ [request])))) ∧
      (s'.loop.called = s.loop.called ∨
        let toolCalls := extractAllToolCallsFromChat (answerOf (world.chat (s.loop.asked ++ [request])))
        ctx.functionToolCalls toolCalls ≠ [] ∧
        s.loop.state.totalCalls + (ctx.mcpToolCalls toolCalls).length ≤ ctx.limit ∧
        s'.loop.called = s.loop.called ++
          (ctx.mcpToolCalls toolCalls).map fun tc => (tc.name, tc.arguments)) := by
  obtain ⟨hnone, hloop, -⟩ | ⟨request, hrequest, hcases⟩ := turn_cases ctx world hsound h
  · refine .inl ⟨by rw [hloop]; rfl, by rw [hloop]; rfl, ?_⟩
    unfold nextRequest at hnone
    split at hnone
    · next hmax => exact .inl hmax
    · cases hchat : s.loop.iterate.chatRequest ctx with
      | error e => exact .inr ⟨e, rfl⟩
      | ok request =>
        rw [hchat] at hnone
        cases hnone
  · obtain ⟨hmax, hchat⟩ := (nextRequest_eq_some ctx s).mp hrequest
    refine .inr ⟨hmax, request, hchat, ?_⟩
    obtain ⟨hstops, hloop, -⟩ | ⟨-, ⟨e, hbreak, hloop, -⟩ | ⟨-, client, listed, -, hanswer⟩⟩ := hcases
    · refine ⟨by rw [hloop]; rfl, fun hstops' => ?_, .inl (by rw [hloop]; rfl)⟩
      rw [hstops] at hstops'
      cases hstops'
    · refine ⟨by rw [hloop]; rfl, fun _ hnone => ?_, .inl (by rw [hloop]; rfl)⟩
      rw [hbreak] at hnone
      cases hnone
    · obtain ⟨hnot, hasked, hcalled⟩ := afterAnswer_some hanswer
      exact ⟨hasked, fun _ _ hgoesOn => hnot ⟨hgoesOn.calls, hgoesOn.functions, hgoesOn.limit⟩, hcalled⟩

end StreamLoop

end QwenStack.Grpc
