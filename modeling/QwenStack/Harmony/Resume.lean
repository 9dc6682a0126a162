import Mathlib.Data.List.Induction
import QwenStack.Harmony.ResponsesLoop

/-!
# Harmony — the request that goes on

`gateway/src/routers/grpc/harmony/responses/common.rs`: `build_next_request_with_tools` appends to the items of
a request what the model said and its calls, and then puts each result into the first item of all that has
its `call_id`.

`putResult_front`: a result leaves items without its `call_id` as they are.  `foldl_putResult`: results of
distinct ids, in any order, are put into the calls that they are of.
-/

namespace QwenStack.Harmony
open Grpc List

/-! ### The parts of the next request -/

/-- The items of an input; a text is a message of the user. -/
def inputItems : ResponseInput → List InputItem
  | .items items => items
  | .text text => [.simpleInputMessage (.string text) "user".toList]

def analysisItems (assistantId : Str) (analysis : Option Str) : List InputItem :=
  (analysis.map fun text =>
    .reasoning ("reasoning_".toList ++ assistantId) [text] (some "completed".toList)).toList

def partialItems (assistantId partialText : Str) : List InputItem :=
  if partialText = [] then []
  else [.message assistantId "assistant".toList [.outputText partialText] (some "completed".toList)]

/-- The item of a call with its result. -/
def answeredItem (toolCall : ToolCall) (result : ToolResult) : InputItem :=
  .functionToolCall toolCall.id toolCall.id toolCall.function.name (argsStr toolCall)
    (some result.output.render)
    (some (if result.isError = true then "failed".toList else "completed".toList))

/-- The item is that of the call with its own result. -/
def Answers (toolResults : List ToolResult) (toolCall : ToolCall) (item : InputItem) : Prop :=
  ∃ result ∈ toolResults, result.callId = toolCall.id ∧ item = answeredItem toolCall result

/-- An id is the `call_id` of a call among the items. -/
def IsCallId (items : List InputItem) (callId : Str) : Prop :=
  ∃ id name arguments output status, .functionToolCall id callId name arguments output status ∈ items

theorem buildNextRequestWithTools_eq (assistantId : Str) (request : ResponsesRequest)
    (toolCalls : List ToolCall) (toolResults : List ToolResult) (analysis : Option Str) (partialText : Str) :
    buildNextRequestWithTools assistantId request toolCalls toolResults analysis partialText =
      { request with
        input := .items (toolResults.foldl putResult (inputItems request.input ++
          analysisItems assistantId analysis ++ partialItems assistantId partialText ++
          toolCalls.map openCallItem))
        toolChoice := some .auto } := by
  unfold buildNextRequestWithTools
  cases request.input <;> rfl

/-! ### Results -/

/-- **Other items stay**. -/
theorem putResult_front {front : List InputItem} {result : ToolResult} (h : ¬ IsCallId front result.callId)
    (items : List InputItem) : putResult (front ++ items) result = front ++ putResult items result := by
  induction front with
  | nil => rfl
  | cons item front ih =>
    have hfront : ¬ IsCallId front result.callId := by
      rintro ⟨id, name, arguments, output, status, hmem⟩
      exact h ⟨id, name, arguments, output, status, mem_cons_of_mem item hmem⟩
    rw [cons_append]
    cases item with
    | functionToolCall id callId name arguments output status =>
      have hne : callId ≠ result.callId := by
        rintro rfl
        exact h ⟨id, name, arguments, output, status, mem_cons_self⟩
      rw [putResult, if_neg hne, ih hfront]
      rfl
    | simpleInputMessage content role => exact congrArg (List.cons _) (ih hfront)
    | message id role content status => exact congrArg (List.cons _) (ih hfront)
    | reasoning id content status => exact congrArg (List.cons _) (ih hfront)
    | functionCallOutput callId output => exact congrArg (List.cons _) (ih hfront)

/-- The item of a call, with the result that is there for it. -/
def callItemAfter (toolResults : List ToolResult) (toolCall : ToolCall) : InputItem :=
  match toolResults.find? fun result => decide (result.callId = toolCall.id) with
  | some result => answeredItem toolCall result
  | none => openCallItem toolCall

theorem callItemAfter_nil : callItemAfter [] = openCallItem := rfl

theorem callItemAfter_snoc_of_ne {toolResults : List ToolResult} {result : ToolResult} {toolCall : ToolCall}
    (h : result.callId ≠ toolCall.id) :
    callItemAfter (toolResults ++ [result]) toolCall = callItemAfter toolResults toolCall := by
  have hfind : [result].find? (fun result => decide (result.callId = toolCall.id)) = none := by
    simpa using h
  rw [callItemAfter, List.find?_append, hfind, Option.or_none, callItemAfter]

/-- The first result for a call. -/
theorem callItemAfter_snoc_self {toolResults : List ToolResult} {result : ToolResult} {toolCall : ToolCall}
    (hnew : result.callId ∉ toolResults.map ToolResult.callId) (h : result.callId = toolCall.id) :
    callItemAfter toolResults toolCall = openCallItem toolCall ∧
      callItemAfter (toolResults ++ [result]) toolCall = answeredItem toolCall result := by
  have hnone : toolResults.find? (fun result => decide (result.callId = toolCall.id)) = none := by
    refine List.find?_eq_none.mpr ?_
    intro result' hmem heq
    exact hnew (List.mem_map.mpr ⟨result', hmem, (of_decide_eq_true heq).trans h.symm⟩)
  have hsome : [result].find? (fun result => decide (result.callId = toolCall.id)) = some result := by
    simpa using h
  constructor
  · rw [callItemAfter, hnone]
  · rw [callItemAfter, List.find?_append, hnone, hsome]
    rfl

/-- **One result**, among the calls. -/
theorem putResult_calls {toolCalls : List ToolCall} {toolResults : List ToolResult} {result : ToolResult}
    (hids : (toolCalls.map ToolCall.id).Nodup) (hnew : result.callId ∉ toolResults.map ToolResult.callId) :
    putResult (toolCalls.map (callItemAfter toolResults)) result =
      toolCalls.map (callItemAfter (toolResults ++ [result])) := by
  have hputs : ∀ toolCall items, result.callId ≠ toolCall.id →
      putResult (callItemAfter toolResults toolCall :: items) result =
        callItemAfter toolResults toolCall :: putResult items result := by
    intro toolCall items hne
    unfold callItemAfter
    split
    · exact if_neg (Ne.symm hne)
    · exact if_neg (Ne.symm hne)
  induction toolCalls with
  | nil => rfl
  | cons toolCall toolCalls ih =>
    rw [map_cons, nodup_cons] at hids
    rw [map_cons, map_cons]
    by_cases hcall : result.callId = toolCall.id
    · obtain ⟨hopen, hanswered⟩ := callItemAfter_snoc_self hnew hcall
      have hrest : ∀ other ∈ toolCalls,
          callItemAfter toolResults other = callItemAfter (toolResults ++ [result]) other := by
        intro other hmem
        refine (callItemAfter_snoc_of_ne ?_).symm
        rintro heq
        exact hids.1 (List.mem_map.mpr ⟨other, hmem, heq.symm.trans hcall⟩)
      rw [hopen, hanswered, map_congr_left hrest]
      exact if_pos hcall.symm
    · rw [hputs toolCall _ hcall, ih hids.2, callItemAfter_snoc_of_ne hcall]

/-- **All results**, in any order: each is in the call that it is of. -/
theorem foldl_putResult {front : List InputItem} {toolCalls : List ToolCall} {toolResults : List ToolResult}
    (hids : (toolCalls.map ToolCall.id).Nodup) (hresults : (toolResults.map ToolResult.callId).Nodup)
    (hfront : ∀ result ∈ toolResults, ¬ IsCallId front result.callId) :
    toolResults.foldl putResult (front ++ toolCalls.map openCallItem) =
      front ++ toolCalls.map (callItemAfter toolResults) := by
  induction toolResults using List.reverseRecOn with
  | nil => rw [callItemAfter_nil, foldl_nil]
  | append_singleton toolResults result ih =>
    rw [map_append, nodup_append] at hresults
    have hnew : result.callId ∉ toolResults.map ToolResult.callId := by
      intro hmem
      exact hresults.2.2 _ hmem _ (mem_singleton_self _) rfl
    have hothers : ∀ result' ∈ toolResults, ¬ IsCallId front result'.callId := by
      intro result' hmem
      exact hfront result' (mem_append_left _ hmem)
    rw [foldl_append, ih hresults.1 hothers, foldl_cons, foldl_nil,
      putResult_front (hfront result (by simp)), putResult_calls hids hnew]

/-- A call with a result. -/
theorem answers_callItemAfter {toolResults : List ToolResult} {toolCall : ToolCall}
    (h : toolCall.id ∈ toolResults.map ToolResult.callId) :
    Answers toolResults toolCall (callItemAfter toolResults toolCall) := by
  unfold callItemAfter
  split
  · next result hfind =>
    exact ⟨result, List.mem_of_find?_eq_some hfind, by simpa using List.find?_some hfind, rfl⟩
  · next hfind =>
    obtain ⟨result, hmem, hid⟩ := List.mem_map.mp h
    exact absurd (decide_eq_true hid) (List.find?_eq_none.mp hfind result hmem)

/-- Reasoning and a message are no calls. -/
theorem not_isCallId_said {assistantId partialText callId : Str} {analysis : Option Str} :
    ¬ IsCallId (analysisItems assistantId analysis ++ partialItems assistantId partialText) callId := by
  rintro ⟨id, name, arguments, output, status, hmem⟩
  rcases List.mem_append.mp hmem with hmem | hmem
  · cases analysis with
    | none => exact not_mem_nil hmem
    | some text => cases List.mem_singleton.mp hmem
  · rw [partialItems] at hmem
    split at hmem
    · exact not_mem_nil hmem
    · cases List.mem_singleton.mp hmem

/-! ### The next request -/

/-- **The next request** has the items of the one before, what the model said, and a call with its own result
for each call. -/
theorem buildNextRequestWithTools_input (assistantId : Str) (request : ResponsesRequest)
    (toolCalls : List ToolCall) (toolResults : List ToolResult) (analysis : Option Str) (partialText : Str)
    (hids : (toolCalls.map ToolCall.id).Nodup)
    (hnew : ∀ toolCall ∈ toolCalls, ¬ IsCallId (inputItems request.input) toolCall.id)
    (hresults : (toolResults.map ToolResult.callId).Perm (toolCalls.map ToolCall.id)) :
    ∃ answered, List.Forall₂ (Answers toolResults) toolCalls answered ∧
      buildNextRequestWithTools assistantId request toolCalls toolResults analysis partialText =
        { request with
          input := .items (inputItems request.input ++ analysisItems assistantId analysis ++
            partialItems assistantId partialText ++ answered)
          toolChoice := some .auto } := by
  have hfront : ∀ result ∈ toolResults, ¬ IsCallId (inputItems request.input ++
      analysisItems assistantId analysis ++ partialItems assistantId partialText) result.callId := by
    rintro result hmem ⟨id, name, arguments, output, status, hitem⟩
    rw [append_assoc, mem_append] at hitem
    rcases hitem with hitem | hitem
    · obtain ⟨toolCall, hcall, hid⟩ :=
        List.mem_map.mp (hresults.subset (mem_map_of_mem hmem))
      exact hnew toolCall hcall ⟨id, name, arguments, output, status, hid ▸ hitem⟩
    · exact not_isCallId_said ⟨id, name, arguments, output, status, hitem⟩
  refine ⟨toolCalls.map (callItemAfter toolResults), ?_, ?_⟩
  · rw [List.forall₂_map_right_iff, List.forall₂_same]
    intro toolCall hcall
    exact answers_callItemAfter (hresults.symm.subset (mem_map_of_mem hcall))
  · rw [buildNextRequestWithTools_eq, foldl_putResult hids (hresults.nodup_iff.mpr hids) hfront]

/-! ### Two calls -/

def searchCall (id : String) : ToolCall where
  id := id.toList
  toolType := "function".toList
  function := ⟨"search".toList, none⟩

def searchResult (id : String) (isError : Bool) : ToolResult := ⟨id.toList, "search".toList, .null, isError⟩

theorem buildNextRequestWithTools_swapped :
    ∃ answered, List.Forall₂ (Answers [searchResult "b" true, searchResult "a" false])
        [searchCall "a", searchCall "b"] answered ∧
      buildNextRequestWithTools "msg_0".toList { input := .text "Hello".toList } [searchCall "a", searchCall "b"]
          [searchResult "b" true, searchResult "a" false] (some "Search.".toList) [] =
        { input := .items (inputItems (.text "Hello".toList) ++
            analysisItems "msg_0".toList (some "Search.".toList) ++ partialItems "msg_0".toList [] ++ answered)
          toolChoice := some .auto } := by
  refine buildNextRequestWithTools_input "msg_0".toList { input := .text "Hello".toList }
    [searchCall "a", searchCall "b"] [searchResult "b" true, searchResult "a" false] (some "Search.".toList) []
    (by decide) ?_ (by decide)
  rintro toolCall - ⟨id, name, arguments, output, status, hitem⟩
  cases List.mem_singleton.mp hitem

end QwenStack.Harmony
