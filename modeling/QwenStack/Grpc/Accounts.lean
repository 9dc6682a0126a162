import QwenStack.Grpc.Turns
import Mathlib.Data.List.Perm.Basic

/-!
# Responses over chat — what a response says of the calls

A response that is not streamed is to show each call that was made in its run once, with its output, and
each call that was asked for and not made once.  What was made is kept in the loop (`called`), and what was
asked for is read from the answers.

The regular loop puts the calls of the run into the output only at the final answer, so that those of
earlier turns are lost at its other ends; the Harmony loop shows the calls of its last turn twice where it
makes some and leaves others to the caller.  That is all that stands in the way: `accounts_iff`.
-/

namespace QwenStack.Grpc

open List
open Harmony (ToolCall)

/-- What an item says of a call. -/
inductive Report (α : Type) where
  | executed (name : Str) (arguments : α) (output : Str) (success : Bool)
  | requested (callId name arguments : Str)

namespace Report
variable {α : Type}

def isExecuted : Report α → Bool
  | .executed .. => true
  | .requested .. => false

/-- A call that was asked for. -/
def ofCall (toolCall : ToolCall) : Report α :=
  .requested toolCall.id toolCall.function.name (toolCall.function.arguments.getD [])

end Report

section Accounts
variable {α : Type}

/-- What an item says of a call, if it is one of a call; `read` reads its arguments. -/
def OutputItem.report (read : Str → α) : OutputItem → Option (Report α)
  | .mcpCall _ status arguments _ name output _ =>
      some (.executed name (read arguments) output (status = "completed".toList))
  | .functionToolCall _ _ name arguments (some output) status =>
      some (.executed name (read arguments) output (status = "completed".toList))
  | .functionToolCall _ callId name arguments none _ => some (.requested callId name arguments)
  | _ => none

/-- The last of some calls, with its output and whether it succeeded. -/
def executedReport (outcome : List (Str × α) → Str × Bool) (past : List (Str × α)) : Option (Report α) :=
  past.getLast?.map fun c => .executed c.1 c.2 (outcome past).1 (outcome past).2

/-- The calls that were made. -/
def executedReports (outcome : List (Str × α) → Str × Bool) (called : List (Str × α)) : List (Report α) :=
  called.inits.filterMap (executedReport outcome)

/-- The calls that the answers asked for. -/
def requestedCalls {ρ : Type} (answer : List ρ → List ToolCall) (asked : List ρ) : List ToolCall :=
  asked.inits.tail.flatMap answer

/-- An output shows each call that was made, and each that was asked for and not made, once. -/
def Accounts (read : Str → α) (key : ToolCall → Str × α) (outcome : List (Str × α) → Str × Bool)
    (called : List (Str × α)) (requested : List ToolCall) (output : List OutputItem) : Prop :=
  ∃ pending : List ToolCall, (requested.map key).Perm (called ++ pending.map key) ∧
    (output.filterMap (OutputItem.report read)).Perm
      (executedReports outcome called ++ pending.map Report.ofCall)

variable {outcome : List (Str × α) → Str × Bool} {read : Str → α} {key : ToolCall → Str × α}

theorem executedReports_concat (called : List (Str × α)) (c : Str × α) :
    executedReports outcome (called ++ [c]) = executedReports outcome called ++
      [.executed c.1 c.2 (outcome (called ++ [c])).1 (outcome (called ++ [c])).2] := by
  simp [executedReports, inits_append, executedReport]

theorem requestedCalls_concat {ρ : Type} (answer : List ρ → List ToolCall) (asked : List ρ) (r : ρ) :
    requestedCalls answer (asked ++ [r]) = requestedCalls answer asked ++ answer (asked ++ [r]) := by
  rw [requestedCalls, inits_tail_concat, flatMap_append, flatMap_singleton, requestedCalls]

/-- The number of calls that were made. -/
theorem countP_executedReports (called : List (Str × α)) :
    (executedReports outcome called).countP Report.isExecuted = called.length := by
  induction called using List.reverseRecOn with
  | nil => rfl
  | append_singleton called c ih =>
    simp [executedReports_concat, ih, Report.isExecuted]

theorem countP_ofCall (pending : List ToolCall) :
    (pending.map Report.ofCall).countP (Report.isExecuted (α := α)) = 0 := by
  rw [countP_map]
  exact List.countP_eq_zero.mpr fun toolCall _ h => by cases h

/-- An output in which each call that was made is shown once shows as many. -/
theorem Accounts.count {called : List (Str × α)} {requested : List ToolCall} {output : List OutputItem}
    (h : Accounts read key outcome called requested output) :
    (output.filterMap (OutputItem.report read)).countP Report.isExecuted = called.length := by
  obtain ⟨pending, -, hreports⟩ := h
  rw [hreports.countP_eq, countP_append, countP_executedReports, countP_ofCall, Nat.add_zero]

/-- An output that shows the calls of the last answer only, where all that came before was made. -/
theorem accounts_left {called : List (Str × α)} {requested calls : List ToolCall}
    {output : List OutputItem} (hrequested : requested.map key = called)
    (houtput : output.filterMap (OutputItem.report read) = calls.map Report.ofCall) :
    Accounts read key outcome called (requested ++ calls) output ↔ called = [] := by
  constructor
  · intro h
    have hcount := h.count
    rw [houtput, countP_ofCall] at hcount
    exact eq_nil_of_length_eq_zero hcount.symm
  · rintro rfl
    obtain rfl := List.map_eq_nil_iff.mp hrequested
    exact ⟨calls, .refl _, by rw [houtput]; rfl⟩

end Accounts

/-! ### The regular loop -/

/-- The calls of an answer, as it gives them. -/
def ChatCompletionResponse.toolCalls (response : ChatCompletionResponse) : List ToolCall :=
  match response.choices with
  | [] => []
  | choice :: _ => choice.message.toolCalls.getD []

/-- What a tool is called with. -/
def callKey (toolCall : ToolCall) : Str × Str :=
  (toolCall.function.name, toolCall.function.arguments.getD "{}".toList)

/-- The output of a tool, and whether the call succeeded. -/
def callOutcome (callTool : List (Str × Str) → CallResult) (past : List (Str × Str)) : Str × Bool :=
  ((callTool past).outcome.1, (callTool past).outcome.2.1)

theorem extractAllToolCallsFromChat_eq (response : ChatCompletionResponse) :
    extractAllToolCallsFromChat response = response.toolCalls.map extractToolCall := by
  unfold extractAllToolCallsFromChat ChatCompletionResponse.toolCalls
  cases response.choices with
  | nil => rfl
  | cons choice rest => rfl

namespace ToolLoop
variable (ctx : LoopContext) (world : World (Except ErrorResponse ChatCompletionResponse))

/-- The calls that were asked for. -/
def requested (l : ToolLoop) : List ToolCall :=
  requestedCalls (fun past =>
    match world.chat past with
    | .ok response => response.toolCalls
    | .error _ => []) l.asked

/-- A response shows the calls of a run. -/
def Accounts (l : ToolLoop) (response : ResponsesResponse) : Prop :=
  Grpc.Accounts id callKey (callOutcome world.callTool) l.called (l.requested world) response.output

/-- What is kept of the calls is what was made of them. -/
structure Kept (callTool : List (Str × Str) → CallResult) (l : ToolLoop) : Prop where
  total : l.state.totalCalls = l.called.length
  items : l.state.mcpCallItems.filterMap (OutputItem.report id) =
    executedReports (callOutcome callTool) l.called

variable {callTool : List (Str × Str) → CallResult} {l : ToolLoop}

theorem Kept.execute (h : l.Kept callTool) (toolCall : ExtractedToolCall) :
    (l.execute ctx callTool toolCall).Kept callTool where
  total := by
    have hcalled : (l.execute ctx callTool toolCall).called = l.callsWith toolCall := rfl
    rw [hcalled, callsWith, length_append]
    exact congrArg (· + 1) h.total
  items := by
    have hcalled : (l.execute ctx callTool toolCall).called = l.callsWith toolCall := rfl
    have hstatus : ∀ success : Bool,
        decide ((if success = true then "completed".toList else "failed".toList) = "completed".toList) =
          success := by decide
    rw [hcalled, callsWith, executedReports_concat, ← h.items]
    simp only [ToolLoop.execute, ToolLoopState.recordCall, filterMap_append]
    congr 1
    simp only [buildMcpCallItem, OutputItem.report, filterMap_cons, filterMap_nil, hstatus]
    rfl

/-- **The calls of a turn.** -/
theorem execute_kept (h : l.Kept callTool) (toolCalls : List ExtractedToolCall) :
    (toolCalls.foldl (execute ctx callTool) l).Kept callTool := by
  induction toolCalls generalizing l with
  | nil => exact h
  | cons toolCall toolCalls ih => exact ih (h.execute ctx toolCall)

theorem report_messageItems {α : Type} (read : Str → α) (chatId : Str) (content : Option Str) :
    (messageItems chatId content).filterMap (OutputItem.report read) = [] := by
  unfold messageItems
  split
  · split
    · rfl
    · rfl
  · rfl

theorem report_reasoningItems {α : Type} (read : Str → α) (chatId : Str) (reasoning : Option Str) :
    (reasoningItems chatId reasoning).filterMap (OutputItem.report read) = [] := by
  unfold reasoningItems
  split
  · split
    · rfl
    · rfl
  · rfl

/-- The response for an answer shows its calls, none of them made. -/
theorem respond_reports {chatResponse : ChatCompletionResponse} {response : ResponsesResponse}
    (h : respond ctx chatResponse = .ok response) :
    response.output.filterMap (OutputItem.report id) = chatResponse.toolCalls.map Report.ofCall := by
  unfold respond chatToResponses at h
  unfold ChatCompletionResponse.toolCalls
  cases hchoices : chatResponse.choices with
  | nil =>
    rw [hchoices] at h
    cases h
  | cons choice rest =>
    rw [hchoices] at h
    cases h
    simp only [filterMap_append, report_messageItems, report_reasoningItems, nil_append, filterMap_map]
    rw [← filterMap_eq_map]
    rfl

/-- What was kept, and what was asked for: all of it has been made. -/
structure Settled (l : ToolLoop) : Prop extends l.Kept world.callTool where
  requested : (l.requested world).map callKey = l.called

/-- The calls of the answer come to what the response can show: there are none, or none were made before,
or all of them are made now. -/
def Shows (l : ToolLoop) (chatResponse : ChatCompletionResponse) : Prop :=
  chatResponse.toolCalls = [] ∨ l.called = [] ∨
    ctx.functionToolCalls (extractAllToolCallsFromChat chatResponse) = [] ∧
      l.state.totalCalls + (ctx.mcpToolCalls (extractAllToolCallsFromChat chatResponse)).length ≤ ctx.limit

/-- The end with the final answer. -/
theorem final_reports (h : l.Kept callTool) {response : ResponsesResponse}
    (hresponse : response.output.filterMap (OutputItem.report id) = []) :
    (l.final ctx response).output.filterMap (OutputItem.report id) =
      executedReports (callOutcome callTool) l.called := by
  unfold final
  split
  · simp only [cons_append, filterMap_append, hresponse, buildMcpListToolsItem, nil_append,
      OutputItem.report, filterMap_cons, h.items]
  · next htotal =>
    have hcalled : l.called = [] :=
      eq_nil_of_length_eq_zero (by rw [← h.total]; exact Nat.eq_zero_of_not_pos htotal)
    rw [hresponse, hcalled]
    rfl

/-- An end that leaves the calls as they are shows those of the run if none were made. -/
theorem shows_iff_of_left {chatResponse : ChatCompletionResponse}
    (hcalls : extractAllToolCallsFromChat chatResponse ≠ []) (hends : ¬ l.GoesOn ctx chatResponse) :
    l.Shows ctx chatResponse ↔ l.called = [] := by
  refine ⟨?_, fun hnone => .inr (.inl hnone)⟩
  rintro (hnone | hnone | ⟨hfunctions, hlimit⟩)
  · rw [extractAllToolCallsFromChat_eq, hnone] at hcalls
    exact absurd rfl hcalls
  · exact hnone
  · rw [mcpToolCalls_eq hfunctions] at hlimit
    exact absurd ⟨hcalls, hfunctions, hlimit⟩ hends

/-- What the model answers next comes to what the response can show. -/
def NextShows (l : ToolLoop) : Prop :=
  ∀ request chatResponse, l.chatRequest ctx = .ok request →
    world.chat (l.asked ++ [request]) = .ok chatResponse → l.Shows ctx chatResponse

/-- **A turn**: the loop goes on with all calls made, or the response shows the calls of the run. -/
theorem turn_shows (h : l.Settled world) :
    (∀ {l'}, l.turn ctx world = (l', none) → l'.Settled world ∧ l.NextShows ctx world) ∧
    ∀ {l' response}, l.turn ctx world = (l', some (.ok response)) →
      (l'.Accounts world response ↔ l.NextShows ctx world) := by
  -- what an answer adds to what was asked for, and that it decides
  have hadds : ∀ {request chatResponse}, world.chat (l.asked ++ [request]) = .ok chatResponse →
      (l.ask request).requested world = l.requested world ++ chatResponse.toolCalls := by
    intro request chatResponse hanswer
    rw [requested, ask, requestedCalls_concat, hanswer]
    rfl
  have hshows : ∀ {request chatResponse}, l.chatRequest ctx = .ok request →
      world.chat (l.asked ++ [request]) = .ok chatResponse →
      (l.NextShows ctx world ↔ l.Shows ctx chatResponse) := by
    refine fun hrequest hanswer => ⟨fun hall => hall _ _ hrequest hanswer, ?_⟩
    intro hone request' chatResponse' hrequest' hanswer'
    cases hrequest.symm.trans hrequest'
    cases hanswer.symm.trans hanswer'
    exact hone
  have hturned := turned ctx world l
  generalize l.turn ctx world = result at hturned ⊢
  cases hturned with
  | unasked _ _ => exact Until.failed
  | refused _ _ => exact Until.failed
  | @answered request chatResponse hrequest hanswer hcalls =>
    have hrequested := hadds hanswer
    rw [extractAllToolCallsFromChat_eq, map_eq_nil_iff] at hcalls
    cases hresponse : respond ctx chatResponse with
    | error e => exact Until.failed
    | ok response =>
      have hreports := respond_reports ctx hresponse
      rw [hcalls] at hreports hrequested
      refine Until.returned (iff_of_true ⟨[], ?_, ?_⟩ ((hshows hrequest hanswer).mpr (.inl hcalls)))
      · rw [hrequested, append_nil, h.requested, map_nil, append_nil]
        rfl
      · rw [final_reports ctx (l := l.ask request) ⟨h.total, h.items⟩ hreports, map_nil, append_nil]
  | @left request chatResponse hrequest hanswer hcalls hends result hresult =>
    rw [hshows hrequest hanswer, shows_iff_of_left ctx hcalls hends]
    cases hresponse : respond ctx chatResponse with
    | error e =>
      rw [hresponse] at hresult
      rcases hresult with rfl | rfl
      · exact Until.failed
      · exact Until.failed
    | ok response =>
      have hleft : ∀ {response' : ResponsesResponse}, response'.output = response.output →
          ((l.ask request).iterate.Accounts world response' ↔ l.called = []) := by
        intro response' houtput
        have hreports := respond_reports ctx hresponse
        rw [← houtput] at hreports
        rw [Accounts, show (l.ask request).iterate.requested world = _ from hadds hanswer]
        exact accounts_left h.requested hreports
      rw [hresponse] at hresult
      rcases hresult with rfl | rfl
      · exact Until.returned (hleft rfl)
      · exact Until.returned (hleft rfl)
  | @performed request chatResponse hrequest hanswer hgoesOn =>
    have hmade := execute_kept ctx (l := l.iterate.ask request) ⟨h.total, h.items⟩
      (extractAllToolCallsFromChat chatResponse)
    refine Until.proceeds (P := fun l' : ToolLoop => l'.Settled world ∧ l.NextShows ctx world)
      ⟨⟨⟨hmade.total, hmade.items⟩, ?_⟩, (hshows hrequest hanswer).mpr (.inr (.inr ⟨hgoesOn.functions, ?_⟩))⟩
    · have hasked := (execute_kept_asked ctx world.callTool (extractAllToolCallsFromChat chatResponse)
        (l.iterate.ask request)).1
      have hcalled := (execute_called ctx world.callTool (extractAllToolCallsFromChat chatResponse)
        (l.iterate.ask request)).1
      change List.map callKey (requestedCalls _ (foldl (execute ctx world.callTool) _ _).asked) = _
      rw [hasked]
      refine Eq.trans ?_ hcalled.symm
      rw [show requestedCalls _ (l.iterate.ask request).asked = _ from hadds hanswer, map_append, h.requested,
        extractAllToolCallsFromChat_eq, map_map]
      rfl
    · rw [mcpToolCalls_eq hgoesOn.functions]
      exact hgoesOn.limit

/-- **A run of the loop**: its response shows the calls of the run if each answer comes to what it can. -/
theorem run_accounts {turns : Nat} {modifiedRequest : ResponsesRequest} {l : ToolLoop}
    {response : ResponsesResponse}
    (h : executeToolLoop ctx world turns modifiedRequest = (l, some (.ok response))) :
    l.Accounts world response ↔ ∀ k l', executeToolLoop ctx world k modifiedRequest = (l', none) →
      l'.NextShows ctx world :=
  Until.loop_iff (P := fun l : ToolLoop => l.Settled world) (F := fun l => l.NextShows ctx world)
    (fun hl hturn => (turn_shows ctx world hl).1 hturn) (fun hl hturn => (turn_shows ctx world hl).2 hturn)
    ⟨⟨rfl, rfl⟩, rfl⟩ h

end ToolLoop

end QwenStack.Grpc

namespace QwenStack.Harmony
open Grpc List

/-! ### The Harmony loop -/

/-- The arguments that are passed on: only those of an object. -/
def passed (parseJson : Str → Except Str Value) (text : Str) : Option Value :=
  match parseJson text with
  | .ok args => if args.isObject = true then some args else none
  | .error _ => none

/-- What a tool is called with. -/
def callKey (parseJson : Str → Except Str Value) (toolCall : ToolCall) : Str × Option Value :=
  (toolCall.function.name, passed parseJson (argsStr toolCall))

/-- The output of a tool, and whether the call succeeded. -/
def callOutcome (callTool : List (Str × Option Value) → ToolAnswer) (past : List (Str × Option Value)) :
    Str × Bool :=
  ((callTool past).outcome.1.render, !(callTool past).outcome.2.1)

/-- The calls of an answer. -/
def ResponsesIterationResult.toolCalls : ResponsesIterationResult → List ToolCall
  | .toolCallsFound toolCalls .. => toolCalls
  | .completed .. => []

section Executing
variable (parseJson : Str → Except Str Value) (callTool : List (Str × Option Value) → ToolAnswer)

/-- What a record says of its call. -/
def McpCallRecord.report (r : McpCallRecord) : Report (Option Value) :=
  .executed r.toolName (passed parseJson r.arguments) r.output r.success

/-- The records of the calls are what was made of them. -/
def Recorded (tracking : McpCallTracking) (called : List (Str × Option Value)) : Prop :=
  tracking.toolCalls.map (McpCallRecord.report parseJson) = executedReports (callOutcome callTool) called

variable {parseJson callTool}

theorem executeTool_recorded {x x' : Execution} (h : Recorded parseJson callTool x.tracking x.called)
    {toolCall : ToolCall} (hx : executeTool parseJson callTool x toolCall = .ok x') :
    Recorded parseJson callTool x'.tracking x'.called ∧ x'.called = x.called ++ [callKey parseJson toolCall] ∧
      x'.results.length = x.results.length + 1 := by
  unfold executeTool at hx
  cases hparse : parseJson (argsStr toolCall) with
  | error e =>
    rw [hparse] at hx
    cases hx
  | ok args =>
    rw [hparse] at hx
    have hpassed : passed parseJson (argsStr toolCall) = if args.isObject = true then some args else none := by
      rw [passed, hparse]
    cases hx
    refine ⟨?_, ?_, ?_⟩
    · unfold Recorded at h ⊢
      simp only [map_append, h, executedReports_concat, map_cons, map_nil,
        McpCallRecord.report, hpassed]
      rfl
    · simp only [callKey, hpassed]
    · exact length_append

/-- **The calls of a turn.** -/
theorem executeMcpTools_recorded {toolCalls : List ToolCall} {x x' : Execution}
    (h : Recorded parseJson callTool x.tracking x.called)
    (hx : toolCalls.foldlM (executeTool parseJson callTool) x = .ok x') :
    Recorded parseJson callTool x'.tracking x'.called ∧
      x'.called = x.called ++ toolCalls.map (callKey parseJson) ∧
      x'.results.length = x.results.length + toolCalls.length := by
  induction toolCalls generalizing x with
  | nil =>
    cases hx
    exact ⟨h, (append_nil _).symm, rfl⟩
  | cons toolCall toolCalls ih =>
    rw [foldlM_cons] at hx
    cases hfirst : executeTool parseJson callTool x toolCall with
    | error e =>
      rw [hfirst] at hx
      cases hx
    | ok x₁ =>
      rw [hfirst] at hx
      obtain ⟨hrecorded, hcalled, hlength⟩ := executeTool_recorded h hfirst
      obtain ⟨hrecorded', hcalled', hlength'⟩ := ih hrecorded hx
      refine ⟨hrecorded', ?_, ?_⟩
      · rw [hcalled', hcalled, append_assoc, singleton_append, map_cons]
      · rw [hlength', hlength, length_cons]
        omega

end Executing

/-! ### Its output -/

section Output
variable (parseJson : Str → Except Str Value)

/-- The calls of a turn, of which some were made. -/
theorem report_buildToolResponse (mcpToolCalls functionToolCalls : List ToolCall)
    (mcpResults : List ToolResult) (analysis : Option Str) (partialText : Str) (usage : Usage)
    (requestId model : Str) (createdAt : Int) :
    (buildToolResponse mcpToolCalls mcpResults functionToolCalls analysis partialText usage requestId model
        createdAt).output.filterMap (OutputItem.report (passed parseJson)) =
      ((mcpToolCalls.zip mcpResults).map executedItem).filterMap (OutputItem.report (passed parseJson)) ++
        functionToolCalls.map Report.ofCall := by
  have hfunctions : (functionToolCalls.map pendingItem).filterMap (OutputItem.report (passed parseJson)) =
      functionToolCalls.map Report.ofCall := by
    rw [filterMap_map, ← filterMap_eq_map]
    rfl
  have hanalysis : ((analysis.map fun text => OutputItem.reasoning ("reasoning_".toList ++ requestId) text
      (some "completed".toList)).toList).filterMap (OutputItem.report (passed parseJson)) = [] := by
    cases analysis with
    | none => rfl
    | some text => rfl
  have htext : (if partialText = [] then []
      else [OutputItem.message ("msg_".toList ++ requestId) partialText "completed".toList]).filterMap
        (OutputItem.report (passed parseJson)) = [] := by
    split
    · rfl
    · rfl
  simp only [buildToolResponse, filterMap_append, hanalysis, htext, hfunctions, nil_append]

theorem countP_executedItems (executed : List (ToolCall × ToolResult)) :
    ((executed.map executedItem).filterMap (OutputItem.report (passed parseJson))).countP Report.isExecuted =
      executed.length := by
  induction executed with
  | nil => rfl
  | cons call executed ih =>
    have hitem : OutputItem.report (passed parseJson) (executedItem call) =
        some (.executed call.1.function.name (passed parseJson (call.1.function.arguments.getD []))
          call.2.output.render
          ((if call.2.isError = true then "failed".toList else "completed".toList) = "completed".toList)) :=
      rfl
    rw [map_cons, filterMap_cons_some hitem, countP_cons_of_pos rfl, ih, length_cons]

theorem report_records (tracking : McpCallTracking) (uuid : Nat → Str) :
    (tracking.toolCalls.zipIdx.map fun r => r.1.item tracking.serverLabel (uuid (r.2 + 1))).filterMap
      (OutputItem.report (passed parseJson)) = tracking.toolCalls.map (McpCallRecord.report parseJson) := by
  have hstatus : ∀ success : Bool,
      decide ((if success = true then "completed".toList else "failed".toList) = "completed".toList) =
        success := by decide
  have hitem : ∀ r : McpCallRecord × Nat,
      OutputItem.report (passed parseJson) (r.1.item tracking.serverLabel (uuid (r.2 + 1))) =
        some (r.1.report parseJson) := by
    intro r
    simp only [McpCallRecord.item, OutputItem.report, hstatus, McpCallRecord.report]
  calc
    _ = (tracking.toolCalls.zipIdx.map Prod.fst).map (McpCallRecord.report parseJson) := by
        rw [filterMap_map, map_map, ← filterMap_eq_map]
        exact filterMap_congr fun r _ => hitem r
    _ = _ := by rw [zipIdx_map_fst]

theorem report_injectMcpMetadata (uuid : Nat → Str) (tracking : McpCallTracking) (mcpTools : List McpTool)
    (response : ResponsesResponse) :
    (injectMcpMetadata uuid tracking mcpTools response).output.filterMap
        (OutputItem.report (passed parseJson)) =
      response.output.filterMap (OutputItem.report (passed parseJson)) ++
        tracking.toolCalls.map (McpCallRecord.report parseJson) := by
  rw [injectMcpMetadata, cons_append, filterMap_cons_none rfl, filterMap_append, report_records]

/-- Where there are no calls there is nothing to put in. -/
theorem report_inject (ctx : LoopContext) (l : McpLoop) (response : ResponsesResponse) :
    (l.inject ctx response).output.filterMap (OutputItem.report (passed parseJson)) =
      response.output.filterMap (OutputItem.report (passed parseJson)) ++
        l.tracking.toolCalls.map (McpCallRecord.report parseJson) := by
  unfold McpLoop.inject
  split
  · exact report_injectMcpMetadata parseJson ..
  · next hnone =>
    rw [eq_nil_of_length_eq_zero (Nat.eq_zero_of_not_pos hnone), map_nil, append_nil]

end Output

/-! ### Its turns -/

namespace McpLoop
variable (ctx : LoopContext) (backend : Backend (Except ErrorResponse ResponsesIterationResult))

/-- The calls that were asked for. -/
def requested (l : McpLoop) : List ToolCall :=
  requestedCalls (fun past =>
    match backend.execute past with
    | .ok result => result.toolCalls
    | .error _ => []) l.asked

/-- A response shows the calls of a run. -/
def Accounts (l : McpLoop) (response : ResponsesResponse) : Prop :=
  Grpc.Accounts (passed ctx.parseJson) (callKey ctx.parseJson) (callOutcome backend.callTool) l.called
    (l.requested backend) response.output

/-- The records are what was made of the calls, and all calls that were asked for have been made. -/
structure Settled (l : McpLoop) : Prop where
  recorded : Recorded ctx.parseJson backend.callTool l.tracking l.called
  requested : (l.requested backend).map (callKey ctx.parseJson) = l.called

/-- The calls of the answer come to what the response can show: all of them are made, or none. -/
def Shows (l : McpLoop) (toolCalls : List ToolCall) : Prop :=
  l.exceeds toolCalls ∨ l.mcpToolCalls toolCalls = [] ∨ l.functionToolCalls toolCalls = []

variable {l : McpLoop}

/-- The calls of an answer are those of MCP tools and those of functions. -/
theorem calls_perm (toolCalls : List ToolCall) :
    (l.mcpToolCalls toolCalls ++ l.functionToolCalls toolCalls).Perm toolCalls :=
  filter_append_perm l.isMcp toolCalls

/-- **An answer.** -/
theorem afterAnswer_shows (hrecorded : Recorded ctx.parseJson backend.callTool l.tracking l.called)
    {before : List ToolCall} {result : ResponsesIterationResult}
    (hbefore : before.map (callKey ctx.parseJson) = l.called)
    (hrequested : l.requested backend = before ++ result.toolCalls)
    (hplain : ∀ response usage, result = .completed response usage →
      response.output.filterMap (OutputItem.report (passed ctx.parseJson)) = []) :
    (∀ {l'}, l.afterAnswer ctx backend.callTool result = (l', none) →
      l'.Settled ctx backend ∧ l.Shows result.toolCalls) ∧
    ∀ {l' response}, l.afterAnswer ctx backend.callTool result = (l', some (.ok response)) →
      (l'.Accounts ctx backend response ↔ l.Shows result.toolCalls) := by
  cases result with
  | completed response usage =>
    refine Until.returned (iff_of_true ⟨[], ?_, ?_⟩ (.inr (.inl rfl)))
    · rw [hrequested, ResponsesIterationResult.toolCalls, append_nil, hbefore, map_nil, append_nil]
    · rw [report_injectMcpMetadata, hplain response usage rfl, hrecorded, map_nil, append_nil,
        nil_append]
  | toolCallsFound toolCalls analysis partialText usage requestId =>
    rw [ResponsesIterationResult.toolCalls] at hrequested ⊢
    unfold afterAnswer Shows
    dsimp only
    by_cases hexceeds : l.exceeds toolCalls
    · rw [if_pos hexceeds]
      refine Until.returned (iff_of_true ⟨toolCalls, ?_, ?_⟩ (.inl hexceeds))
      · rw [hrequested, map_append, hbefore]
      · rw [limited, report_inject, report_buildToolResponse, hrecorded, zip_nil_left]
        exact List.perm_append_comm.trans (((calls_perm toolCalls).map _).append_left _)
    · rw [if_neg hexceeds]
      cases hexecute : executeMcpTools ctx.parseJson backend.callTool l.tracking l.called
        (l.mcpToolCalls toolCalls) with
      | error e =>
        exact Until.failed
      | ok x =>
        obtain ⟨hrecorded', hcalled, hlength⟩ := executeMcpTools_recorded hrecorded hexecute
        dsimp only at hcalled hlength ⊢
        by_cases hfunctions : l.functionToolCalls toolCalls = []
        · rw [if_neg (not_not_intro hfunctions)]
          refine Until.proceeds (P := fun l' : McpLoop => l'.Settled ctx backend ∧ l.Shows toolCalls)
            ⟨⟨hrecorded', ?_⟩, .inr (.inr hfunctions)⟩
          have hall : l.mcpToolCalls toolCalls = toolCalls := by
            refine List.filter_eq_self.mpr fun toolCall hmem => ?_
            have hnot := List.filter_eq_nil_iff.mp hfunctions toolCall hmem
            rwa [Bool.not_eq_true', Bool.not_eq_false] at hnot
          change (l.requested backend).map (callKey ctx.parseJson) = x.called
          rw [hrequested, map_append, hbefore, hcalled, hall]
        · rw [if_pos hfunctions]
          refine Until.returned ?_
          have hperm := calls_perm (l := l) toolCalls
          have hreports := report_inject ctx.parseJson ctx (l.record x) (buildToolResponse
            (l.mcpToolCalls toolCalls) x.results (l.functionToolCalls toolCalls) analysis partialText usage
            requestId (l.record x).currentRequest.model ctx.createdAt)
          rw [report_buildToolResponse, show (l.record x).tracking.toolCalls.map _ = _ from hrecorded']
            at hreports
          constructor
          · intro h
            -- the calls of this turn are shown by the response and by the records
            have hcount := Grpc.Accounts.count h
            rw [hreports, countP_append, countP_append, countP_executedItems, countP_ofCall,
              countP_executedReports, length_zip, hlength] at hcount
            refine .inr (.inl (eq_nil_of_length_eq_zero ?_))
            change min _ (0 + _) + 0 + x.called.length = x.called.length at hcount
            omega
          · rintro (h | h | h)
            · exact absurd h hexceeds
            · rw [h, nil_append] at hperm
              rw [h, map_nil, append_nil] at hcalled
              refine ⟨toolCalls, ?_, ?_⟩
              · change ((l.requested backend).map _).Perm (x.called ++ _)
                rw [hrequested, map_append, hbefore, hcalled]
              · rw [hreports, h, zip_nil_left]
                exact List.perm_append_comm.trans ((hperm.map _).append_left _)
            · exact absurd h hfunctions

/-- What the model answers next comes to what the response can show. -/
def NextShows (l : McpLoop) : Prop :=
  ∀ result, backend.execute (l.asked ++ [l.currentRequest]) = .ok result → l.Shows result.toolCalls

/-- A backend whose final answers show no calls. -/
def IsPlain : Prop :=
  ∀ asked response usage, backend.execute asked = .ok (.completed response usage) →
    response.output.filterMap (OutputItem.report (passed ctx.parseJson)) = []

/-- **A turn.** -/
theorem turn_shows (hplain : IsPlain ctx backend) (h : l.Settled ctx backend) :
    (∀ {l'}, l.turn ctx backend = (l', none) → l'.Settled ctx backend ∧ l.NextShows backend) ∧
    ∀ {l' response}, l.turn ctx backend = (l', some (.ok response)) →
      (l'.Accounts ctx backend response ↔ l.NextShows backend) := by
  unfold turn NextShows
  dsimp only
  split
  · exact Until.failed
  · cases hanswer : backend.execute l.iterate.ask.asked with
    | error e =>
      exact Until.failed
    | ok result =>
      have hnext : backend.execute (l.asked ++ [l.currentRequest]) = .ok result := hanswer
      have hrequested : l.iterate.ask.requested backend = l.requested backend ++ result.toolCalls := by
        rw [requested, ask, requestedCalls_concat]
        change _ ++ (match backend.execute (l.asked ++ [l.currentRequest]) with
          | .ok result => result.toolCalls
          | .error _ => []) = _
        rw [hnext]
        rfl
      obtain ⟨hgo, hend⟩ := afterAnswer_shows ctx backend (l := l.iterate.ask) h.recorded h.requested
        hrequested fun response usage heq => hplain _ response usage (heq ▸ hanswer)
      have hshows : (∀ result', backend.execute (l.asked ++ [l.currentRequest]) = .ok result' →
          l.Shows result'.toolCalls) ↔ l.Shows result.toolCalls := by
        refine ⟨fun hall => hall result hnext, fun hone result' hanswer' => ?_⟩
        cases hnext.symm.trans hanswer'
        exact hone
      rw [hshows]
      exact ⟨hgo, hend⟩

/-- **A run of the loop.** -/
theorem run_accounts (hplain : IsPlain ctx backend) {turns : Nat} {currentRequest : ResponsesRequest}
    {response : ResponsesResponse}
    (h : executeWithMcpLoop ctx backend turns currentRequest = (l, some (.ok response))) :
    l.Accounts ctx backend response ↔
      ∀ k l', executeWithMcpLoop ctx backend k currentRequest = (l', none) → l'.NextShows backend :=
  Until.loop_iff (P := fun l : McpLoop => l.Settled ctx backend) (F := fun l => l.NextShows backend)
    (fun hl hturn => (turn_shows ctx backend hplain hl).1 hturn)
    (fun hl hturn => (turn_shows ctx backend hplain hl).2 hturn) ⟨rfl, rfl⟩ h

end McpLoop

/-- The final answers of a model are texts. -/
theorem iterations_plain {σ : Type} (ctx : LoopContext) (p : ContentParser σ) (start : Except Str σ)
    (callUuid : Nat → Nat → Str) (requestId : Nat → Str) (model : Str) (created : Int)
    (backend : Backend (Except ErrorResponse GenerateComplete)) :
    McpLoop.IsPlain ctx (backend.iterations p start callUuid requestId model created) := by
  intro asked response usage h
  unfold Backend.iterations processResponsesIteration at h
  dsimp only at h
  split at h
  · cases h
  · split at h
    · cases h
    · split at h
      · cases h
      · split at h
        · cases h
        · obtain ⟨rfl, -⟩ := ResponsesIterationResult.completed.inj (Except.ok.inj h)
          exact report_buildToolResponse ctx.parseJson ..

end QwenStack.Harmony

namespace QwenStack.Grpc

/-- **When a response shows the calls of its run**, of the regular loop and of the Harmony loop: each answer
of the run comes to what its response can show. -/
theorem accounts_iff {σ : Type} (p : Harmony.ContentParser σ) (parser : Except Str σ)
    (callUuid : Nat → Nat → Str) (requestId : Nat → Str) (model : Str) (created : Int) :
    (∀ (ctx : LoopContext) (world : World (Except ErrorResponse ChatCompletionResponse)) (turns : Nat)
      (modifiedRequest : ResponsesRequest) (l : ToolLoop) (response : ResponsesResponse),
      executeToolLoop ctx world turns modifiedRequest = (l, some (.ok response)) →
        (l.Accounts world response ↔ ∀ k l', executeToolLoop ctx world k modifiedRequest = (l', none) →
          l'.NextShows ctx world)) ∧
    ∀ (ctx : Harmony.LoopContext)
      (backend : Harmony.Backend (Except ErrorResponse Harmony.GenerateComplete)) (turns : Nat)
      (currentRequest : ResponsesRequest) (l : Harmony.McpLoop) (response : ResponsesResponse),
      let iterations := backend.iterations p parser callUuid requestId model created
      Harmony.executeWithMcpLoop ctx iterations turns currentRequest = (l, some (.ok response)) →
        (l.Accounts ctx iterations response ↔
          ∀ k l', Harmony.executeWithMcpLoop ctx iterations k currentRequest = (l', none) →
            l'.NextShows iterations) :=
  ⟨fun ctx world _ _ _ _ => ToolLoop.run_accounts ctx world, fun ctx backend _ _ _ _ =>
    Harmony.McpLoop.run_accounts ctx _
      (Harmony.iterations_plain ctx p parser callUuid requestId model created backend)⟩

/-! ### Runs of two turns -/

section Searching

def searchCtx : LoopContext where
  uuid := fun n => (toString n).toList
  unknownModelId := "unknown".toList
  codec := { inputItem := fun _ => none, contentParts := fun _ => none, normalizeInputItem := id }
  originalRequest := { input := .text "Hi".toList }
  mcpTools := [⟨"search".toList, none, []⟩]
  lastTools := [⟨"search".toList, none, []⟩]
  responseId := some "resp_1".toList

/-- An answer with the calls of some tools. -/
def callingAnswer (names : List Str) : ChatCompletionResponse where
  id := "chatcmpl-1".toList
  model := "qwen".toList
  choices := [{
    message := {
      content := none
      toolCalls := some (names.map fun name => ⟨"call_".toList ++ name, "function".toList, ⟨name, some "{}".toList⟩⟩)
      reasoningContent := none }
    finishReason := some "tool_calls".toList }]
  usage := none

/-- The model searches, and then calls some tools. -/
def searchWorld (names : List Str) : World (Except ErrorResponse ChatCompletionResponse) where
  chat asked := .ok (callingAnswer (if asked.length = 1 then ["search".toList] else names))
  callTool _ := .ok "found".toList

def harmonyCtx : Harmony.LoopContext where
  uuid := fun n => (toString n).toList
  parseJson := fun _ => .ok (.object [])
  mcpTools := [⟨"search".toList, none, []⟩]
  createdAt := 0

/-- A parser with a message for each token: the first calls the search, the others answer. -/
def searchParser : Harmony.ContentParser (List Harmony.ChatMessage) where
  process messages token := .ok (messages ++ [match token with
    | 0 => ⟨.assistant, some "commentary".toList, some "functions.search".toList, [.text "{}".toList]⟩
    | _ => ⟨.assistant, some "final".toList, none, [.text "Done".toList]⟩])
  currentChannel _ := none
  currentRecipient _ := none
  lastContentDelta _ := .ok none
  messages messages := messages.map Harmony.ChatMessage.kept
  chatMessages := id
  currentContent _ := .ok []
  messages_eq _ := rfl

/-- A Harmony model that searches, and then answers. -/
def searchBackend : Harmony.Backend (Except ErrorResponse Harmony.GenerateComplete) where
  execute asked := .ok ⟨[asked.length - 1], "stop".toList, none, 1, 1⟩
  callTool _ := .ok none false

def searchIterations : Harmony.Backend (Except ErrorResponse Harmony.ResponsesIterationResult) :=
  searchBackend.iterations searchParser (.ok []) (fun _ n => (toString n).toList)
    (fun _ => "resp_1".toList) "gpt-oss".toList 0

/-- In both loops the search is shown with the final answer. -/
theorem accounts_iff_search :
    (∃ l response, executeToolLoop searchCtx (searchWorld []) 2 { input := .text "Hi".toList } =
        (l, some (.ok response)) ∧
      (l.Accounts (searchWorld []) response ↔ ∀ k l',
        executeToolLoop searchCtx (searchWorld []) k { input := .text "Hi".toList } = (l', none) →
          l'.NextShows searchCtx (searchWorld []))) ∧
    ∃ l response, Harmony.executeWithMcpLoop harmonyCtx searchIterations 2 { input := .text "Hi".toList } =
        (l, some (.ok response)) ∧ l.called.map Prod.fst = ["search".toList] ∧
      (l.Accounts harmonyCtx searchIterations response ↔ ∀ k l',
        Harmony.executeWithMcpLoop harmonyCtx searchIterations k { input := .text "Hi".toList } =
          (l', none) → l'.NextShows searchIterations) := by
  have haccounts := accounts_iff searchParser (.ok []) (fun _ n => (toString n).toList)
    (fun _ => "resp_1".toList) "gpt-oss".toList 0
  have hregular : ∃ l response, executeToolLoop searchCtx (searchWorld []) 2
      { input := .text "Hi".toList } = (l, some (.ok response)) := ⟨_, _, rfl⟩
  have hharmony : ∃ l response, Harmony.executeWithMcpLoop harmonyCtx searchIterations 2
      { input := .text "Hi".toList } = (l, some (.ok response)) ∧
        l.called.map Prod.fst = ["search".toList] := ⟨_, _, rfl, rfl⟩
  obtain ⟨l, response, hrun⟩ := hregular
  obtain ⟨l', response', hrun', hcalled⟩ := hharmony
  exact ⟨⟨l, response, hrun, haccounts.1 _ _ _ _ _ _ hrun⟩,
    ⟨l', response', hrun', hcalled, haccounts.2 _ searchBackend _ _ _ _ hrun'⟩⟩

/-- The search is lost when the model then calls a function of the caller. -/
theorem search_not_accounted :
    ∃ l response, executeToolLoop searchCtx (searchWorld ["lookup".toList]) 2 { input := .text "Hi".toList } =
        (l, some (.ok response)) ∧ ¬ l.Accounts (searchWorld ["lookup".toList]) response :=
  ⟨_, _, rfl, fun h => by
    have hcount := Accounts.count h
    exact absurd hcount (by decide)⟩

end Searching

end QwenStack.Grpc
