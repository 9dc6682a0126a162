import QwenStack.Responses.History

/-!
# Tool calls of a streamed response — the limit

Each turn that goes on has calls to make, and they are counted before they are made.  So the calls that are
counted bound the requests as well as the calls that were made, and the limit bounds the calls that are
counted: `limited_run`.

A run that reaches its limit answers with the last response of the upstream, in which each function call of
the run is to stand as a call of MCP (`Converted`): those that were executed with their outputs, then those
of the last response, which are not executed.

The items of MCP are put before what the upstream gave (`outputItems_buildIncompleteResponse`), and nothing
of that is taken out.  A response that reaches the limit has a function call, so it is never converted:
`not_converted`.
-/

namespace QwenStack.Responses

open List

/-- What was done is within a limit. -/
structure Within (limit : Nat) (state : ToolLoopState) (requests : List Value) : Prop where
  calls : state.invocations.length ≤ limit
  requests : requests.length ≤ limit + 1

/-- The invariant of a loop that goes on, after some answers: each was one to a request, and cost a call. -/
structure Counted (limit answers : Nat) (state : ToolLoopState) (requests : List Value) : Prop where
  answered : requests.length = answers
  spent : answers ≤ state.totalCalls
  made : state.invocations.length ≤ state.totalCalls
  bounded : state.totalCalls ≤ limit

theorem Counted.length_le {limit answers : Nat} {state : ToolLoopState} {requests : List Value}
    (h : Counted limit answers state requests) : answers ≤ limit :=
  Nat.le_trans h.spent h.bounded

/-- One more request without a call. -/
theorem Counted.within {limit answers : Nat} {state : ToolLoopState} {requests : List Value}
    (h : Counted limit answers state requests) (request : Value) :
    Within limit state (requests ++ [request]) where
  calls := Nat.le_trans h.made h.bounded
  requests := by
    rw [length_append, length_singleton, h.answered]
    exact Nat.succ_le_succ h.length_le

/-- Between two turns there is one request less. -/
theorem Counted.stopped {limit answers : Nat} {state : ToolLoopState} {requests : List Value}
    (h : Counted limit answers state requests) : Within limit state requests where
  calls := Nat.le_trans h.made h.bounded
  requests := h.answered ▸ Nat.le_succ_of_le h.length_le

/-! ### The streaming loop -/

namespace Interception
variable {ctx : Context} {basePayload : Value} {s : Interception} {n : Nat}

/-- The calls that are made are among those that are counted. -/
theorem length_executeStreamingToolCalls (pendingCalls : List FunctionCallInProgress) :
    (executeStreamingToolCalls pendingCalls).length ≤ pendingCalls.length := by
  rw [executeStreamingToolCalls, length_map]
  exact length_filter_le ..

theorem called_requests (stream : Stream) :
    (called ctx s stream).requests = s.requests ++ [s.currentPayload] :=
  callTools_requests ..

theorem called_totalCalls (stream : Stream) : (called ctx s stream).state.totalCalls =
    s.state.totalCalls + stream.loop.handler.pendingCalls.length :=
  callTools_totalCalls ..

theorem length_called (stream : Stream) : (called ctx s stream).state.invocations.length =
    s.state.invocations.length + (executeStreamingToolCalls stream.loop.handler.pendingCalls).length :=
  length_callTools ..

/-- The calls of an iteration that is within the limit. -/
theorem counted_called (h : Counted ctx.effectiveLimit n s.state s.requests) {stream : Stream}
    {events : List Event} (hrun : s.send.start.run ctx events = (stream, true))
    (hlimit : s.state.totalCalls + stream.loop.handler.pendingCalls.length ≤ ctx.effectiveLimit) :
    Counted ctx.effectiveLimit (n + 1) (called ctx s stream).state (called ctx s stream).requests := by
  have hpending : stream.loop.handler.pendingCalls ≠ [] := by
    have hdetected := Stream.pendingCalls_of_detected (congrArg Prod.snd hrun)
    rwa [hrun] at hdetected
  have hmade := length_executeStreamingToolCalls stream.loop.handler.pendingCalls
  refine ⟨?_, ?_, ?_, ?_⟩
  · rw [called_requests, length_append, length_singleton, h.answered]
  · rw [called_totalCalls]
    exact Nat.add_le_add h.spent (length_pos_of_ne_nil hpending)
  · rw [length_called, called_totalCalls]
    exact Nat.add_le_add h.made hmade
  · rw [called_totalCalls]
    exact hlimit

theorem counted_turned {answer : Answer} {s' : Interception}
    (h : Counted ctx.effectiveLimit n s.state s.requests)
    (hturn : Turned ctx basePayload s answer (s', true)) :
    Counted ctx.effectiveLimit (n + 1) s'.state s'.requests := by
  cases hturn with
  | resumed hrun hlimit hresume => exact counted_called h hrun hlimit

theorem within_ended {answer : Answer} {s' : Interception}
    (h : Counted ctx.effectiveLimit n s.state s.requests)
    (hturn : Turned ctx basePayload s answer (s', false)) :
    Within ctx.effectiveLimit s'.state s'.requests := by
  have hsent := h.within s.currentPayload
  cases hturn with
  | failed message hanswer => exact hsent
  | exceeded hrun hlimit => exact ⟨hsent.calls, hsent.requests⟩
  | unresumed hrun hlimit hresume => exact (counted_called h hrun hlimit).stopped
  | broken hrun => exact hsent
  | completed hrun =>
    refine ⟨?_, ?_⟩
    · rw [complete_state]
      exact hsent.calls
    · rw [complete_requests]
      exact hsent.requests

/-- **The runs** of the streaming loop. -/
theorem limited (ctx : Context) (payload : Value) (answers : List Answer) :
    Within ctx.effectiveLimit (runFrom ctx payload answers).1.state
        (runFrom ctx payload answers).1.requests ∧
      ((runFrom ctx payload answers).2 = true → answers.length ≤ ctx.effectiveLimit) := by
  obtain ⟨hwithin, hcounted⟩ := runFrom_rule ctx payload answers
    (P := fun past s => Counted ctx.effectiveLimit past.length s.state s.requests)
    (Q := fun s => Within ctx.effectiveLimit s.state s.requests)
    (fun past answer s s' _ h hturn => by
      rw [length_append, length_singleton]
      exact counted_turned h hturn)
    (fun past answer s s' _ h hturn => within_ended h hturn)
    ⟨rfl, Nat.le_refl _, Nat.le_refl _, Nat.zero_le _⟩ fun s h => h.stopped
  exact ⟨hwithin, fun hon => (hcounted hon).length_le⟩

end Interception

/-! ### The loop without a stream -/

namespace ToolLoop
variable {ctx : Context} {basePayload : Value} {s : ToolLoop} {n : Nat}

/-- A call that is within the limit. -/
theorem counted_called (h : Counted ctx.effectiveLimit n s.state s.requests) (callId name args : Str)
    (hlimit : s.state.totalCalls + 1 ≤ ctx.effectiveLimit) :
    Counted ctx.effectiveLimit (n + 1) (called ctx s callId name args).state
      (called ctx s callId name args).requests where
  answered := List.length_append.trans (congrArg (· + 1) h.answered)
  spent := Nat.succ_le_succ h.spent
  made := List.length_append.trans_le (Nat.succ_le_succ h.made)
  bounded := hlimit

theorem counted_turned {reply : Reply} {s' : ToolLoop}
    (h : Counted ctx.effectiveLimit n s.state s.requests)
    (hturn : Turned ctx basePayload s reply (s', none)) :
    Counted ctx.effectiveLimit (n + 1) s'.state s'.requests := by
  cases hturn with
  | resumed hcall hlimit hresume => exact counted_called h _ _ _ hlimit

theorem within_ended {reply : Reply} {s' : ToolLoop} {result : Except Str Value}
    (h : Counted ctx.effectiveLimit n s.state s.requests)
    (hturn : Turned ctx basePayload s reply (s', some result)) :
    Within ctx.effectiveLimit s'.state s'.requests := by
  have hsent := h.within s.currentPayload
  cases hturn with
  | failed message hreply => exact hsent
  | exceeded _ hcall hlimit => exact ⟨hsent.calls, hsent.requests⟩
  | @unresumed _ callId name args _ hcall hlimit hresume =>
    exact (counted_called h callId name args hlimit).stopped
  | completed _ hcall => exact hsent

/-- **The runs** of the loop without a stream. -/
theorem limited (ctx : Context) (payload : Value) (replies : List Reply) :
    Within ctx.effectiveLimit (runFrom ctx payload replies).1.state
        (runFrom ctx payload replies).1.requests ∧
      ((runFrom ctx payload replies).2 = none → replies.length ≤ ctx.effectiveLimit) := by
  obtain ⟨hwithin, hcounted⟩ := runFrom_rule ctx payload replies
    (P := fun past s => Counted ctx.effectiveLimit past.length s.state s.requests)
    (Q := fun s => Within ctx.effectiveLimit s.state s.requests)
    (fun past reply s s' _ h hturn => by
      rw [length_append, length_singleton]
      exact counted_turned h hturn)
    (fun past reply s s' result _ h hturn => within_ended h hturn)
    ⟨rfl, Nat.le_refl _, Nat.le_refl _, Nat.zero_le _⟩ fun s h => h.stopped
  exact ⟨hwithin, fun hon => (hcounted hon).length_le⟩

end ToolLoop

/-- **The limit**: whatever the upstream answers, each loop makes at most `L` calls and `L + 1` requests,
and is over after as many answers. -/
theorem limited_run (ctx : Context) (payload : Value) :
    (∀ answers,
      Within ctx.effectiveLimit (Interception.runFrom ctx payload answers).1.state
        (Interception.runFrom ctx payload answers).1.requests ∧
      (ctx.effectiveLimit < answers.length → (Interception.runFrom ctx payload answers).2 = false)) ∧
    ∀ replies,
      Within ctx.effectiveLimit (ToolLoop.runFrom ctx payload replies).1.state
        (ToolLoop.runFrom ctx payload replies).1.requests ∧
      (ctx.effectiveLimit < replies.length →
        (ToolLoop.runFrom ctx payload replies).2.isSome = true) := by
  refine ⟨fun answers => ?_, fun replies => ?_⟩
  · obtain ⟨hwithin, hlength⟩ := Interception.limited ctx payload answers
    refine ⟨hwithin, fun hlt => Bool.eq_false_iff.mpr fun hgoes => ?_⟩
    exact Nat.not_le_of_lt hlt (hlength hgoes)
  · obtain ⟨hwithin, hlength⟩ := ToolLoop.limited ctx payload replies
    refine ⟨hwithin, fun hlt => Option.isSome_iff_ne_none.mpr fun hgoes => ?_⟩
    exact Nat.not_le_of_lt hlt (hlength hgoes)

/-! ### The response at the limit -/

/-- An item of a function call. -/
def isFunctionCall (types : ProtocolTypes) (item : Value) : Bool :=
  (Value.getStr "type".toList item).any types.isFunctionCallType

/-- The output of a response. -/
def outputItems (response : Value) : Option (List Value) :=
  (response.get "output".toList).bind Value.asArray

/-- An item of MCP for a function call that was not executed. -/
structure Refuses (types : ProtocolTypes) (item call : Value) : Prop where
  type : Value.getStr "type".toList item = some types.mcpCall
  name : Value.getStr "name".toList item = some ((Value.getStr "name".toList call).getD [])
  arguments : Value.getStr "arguments".toList item =
    some ((Value.getStr "arguments".toList call).getD "{}".toList)
  status : Value.getStr "status".toList item = some "failed".toList

/-- **The property**: the calls stand as calls of MCP, each once and in their order, no function call is
left, and the other items of the upstream are kept. -/
structure Converted (types : ProtocolTypes) (invocations : List Invocation)
    (upstream outputs : List Value) : Prop where
  calls : ∃ listTools executed refused,
    List.Forall₂ Shows executed invocations ∧
    List.Forall₂ (Refuses types) refused (upstream.filter (isFunctionCall types)) ∧
    (executed ++ refused).Sublist outputs ∧
    outputs.Perm (listTools :: (executed ++ refused) ++
      upstream.filter fun item => !isFunctionCall types item)
  noFunctionCall : ∀ item ∈ outputs, isFunctionCall types item = false
  others : (upstream.filter fun item => !isFunctionCall types item).Sublist outputs

theorem refuses_buildMcpCallItem (types : ProtocolTypes) (id serverLabel : Str) (error : Option Str)
    (call : Value) :
    Refuses types (buildMcpCallItem types id ((Value.getStr "name".toList call).getD [])
      ((Value.getStr "arguments".toList call).getD "{}".toList) [] serverLabel false error) call := by
  constructor <;>
    simp only [buildMcpCallItem, Value.getStr_ofMembers_cons, String.reduceEq, if_false, if_true,
      Value.asStr, Bool.false_eq_true]

theorem exists_of_extractFromItems {types : ProtocolTypes} {items : List Value}
    {call : Str × Str × Str} (h : extractFromItems types items = some call) :
    ∃ item ∈ items, isFunctionCall types item = true := by
  induction items with
  | nil => cases h
  | cons item items ih =>
    rw [extractFromItems] at h
    split at h
    · cases h
    · next t ht =>
      split at h
      · next hcall =>
        refine ⟨item, mem_cons_self .., ?_⟩
        rw [isFunctionCall, ht]
        exact hcall
      · obtain ⟨other, hmem, hother⟩ := ih h
        exact ⟨other, mem_cons_of_mem _ hmem, hother⟩

/-- A response with a call to make has a function call in its output. -/
theorem exists_of_extractFunctionCall {types : ProtocolTypes} {response : Value}
    {call : Str × Str × Str} (h : extractFunctionCall types response = some call) :
    ∃ upstream, outputItems response = some upstream ∧
      ∃ item ∈ upstream, isFunctionCall types item = true := by
  obtain ⟨upstream, hupstream, hitems⟩ := Option.bind_eq_some_iff.mp h
  exact ⟨upstream, hupstream, exists_of_extractFromItems hitems⟩

namespace ToolLoop
variable {ctx : Context} (s : ToolLoop) {response : Value} {upstream : List Value}

/-- The items of the calls that are not executed. -/
theorem forall₂_refuses (hupstream : outputItems response = some upstream) :
    List.Forall₂ (Refuses ctx.types) (s.incompleteItems ctx response)
      (upstream.filter (isFunctionCall ctx.types)) := by
  rw [incompleteItems, show (response.get "output".toList).bind Value.asArray = some upstream from
    hupstream, Option.getD_some, List.forall₂_iff_get]
  refine ⟨length_mapIdx, fun i h₁ h₂ => ?_⟩
  rw [get_eq_getElem, getElem_mapIdx]
  exact refuses_buildMcpCallItem ..

/-- **The output at the limit**: the items of MCP, and all that the upstream gave. -/
theorem outputItems_buildIncompleteResponse (reason : Str)
    (hupstream : outputItems response = some upstream)
    (hcall : ∃ item ∈ upstream, isFunctionCall ctx.types item = true) :
    ∃ result, s.buildIncompleteResponse ctx response reason = .ok result ∧ outputItems result = some
        (buildMcpListToolsItem ctx (ctx.request.extractServerLabel "mcp".toList)
            (ctx.generateId "mcpl".toList (s.generated + (s.incompleteItems ctx response).length)) ::
          buildExecutedMcpCallItems ctx s.state.conversationHistory
            (ctx.request.extractServerLabel "mcp".toList)
            (s.generated + (s.incompleteItems ctx response).length + 1) ++
          s.incompleteItems ctx response ++ upstream) := by
  obtain ⟨v, hv, hitems⟩ := Option.bind_eq_some_iff.mp hupstream
  have hobject := Value.isObject_of_get hv
  have hincomplete : s.incompleteItems ctx response ≠ [] := by
    obtain ⟨item, hmem, hitem⟩ := hcall
    have hlength : (s.incompleteItems ctx response).length =
        (upstream.filter (isFunctionCall ctx.types)).length := (s.forall₂_refuses hupstream).length_eq
    refine List.length_pos_iff.mp (hlength ▸ ?_)
    exact length_pos_of_mem (List.mem_filter.mpr ⟨hmem, hitem⟩)
  rw [buildIncompleteResponse, if_neg fun h => Bool.false_ne_true (h.symm.trans hobject)]
  dsimp only
  rw [if_pos (.inr hincomplete)]
  refine ⟨_, rfl, ?_⟩
  rw [outputItems, get_modifyMember_of_ne _ _ (by decide), injectItems]
  rw [Value.get_insert_of_ne _ _ (by decide), Value.get_insert_of_ne _ _ (by decide), hv,
    Option.bind_some, hitems]
  rw [Value.get_insert_self _ (by rw [Value.isObject_insert, Value.isObject_insert, hobject])]
  rfl

end ToolLoop

/-- A function call of the upstream is still there. -/
theorem not_converted_append {types : ProtocolTypes} {invocations : List Invocation}
    {upstream : List Value} (front : List Value)
    (hcall : ∃ item ∈ upstream, isFunctionCall types item = true) :
    ¬ Converted types invocations upstream (front ++ upstream) := by
  rintro ⟨-, hnone, -⟩
  obtain ⟨item, hmem, hitem⟩ := hcall
  exact Bool.false_ne_true ((hnone item (mem_append_right _ hmem)).symm.trans hitem)

/-- **The limit response** has its function calls left, whatever was executed before. -/
theorem not_converted (ctx : Context) (s : ToolLoop) (response : Value) (reason : Str)
    {call : Str × Str × Str} (hcall : extractFunctionCall ctx.types response = some call) :
    ∃ upstream result outputs, outputItems response = some upstream ∧
      s.buildIncompleteResponse ctx response reason = .ok result ∧
      outputItems result = some outputs ∧
      ¬ Converted ctx.types s.state.invocations upstream outputs := by
  obtain ⟨upstream, hupstream, hexists⟩ := exists_of_extractFunctionCall hcall
  obtain ⟨result, hresult, houtputs⟩ :=
    s.outputItems_buildIncompleteResponse reason hupstream hexists
  exact ⟨upstream, result, _, hupstream, hresult, houtputs, not_converted_append _ hexists⟩

/-! ### A run -/

/-- A response that calls `f`. -/
def callResponse : Value :=
  .ofMembers [("output", .array [.ofMembers [("type", .string "function_call".toList),
    ("call_id", .string ['c']), ("name", .string ['f']), ("arguments", .string ['1'])]])]

theorem extract_callResponse :
    extractFunctionCall openAiTypes callResponse = some (['c'], ['f'], ['1']) := by decide

/-- The second response that calls `f`, when one call may be made. -/
theorem not_converted_callResponse :
    ∃ upstream result outputs, outputItems callResponse = some upstream ∧
      ToolLoop.buildIncompleteResponse plainContext { currentPayload := .object [] } callResponse
        "max_tool_calls".toList = .ok result ∧
      outputItems result = some outputs ∧ ¬ Converted openAiTypes [] upstream outputs :=
  not_converted plainContext { currentPayload := .object [] } callResponse "max_tool_calls".toList
    extract_callResponse

/-- A run with one call, and a second response that calls `f`: its function call is returned. -/
theorem function_call_left :
    ∃ result outputs,
      (ToolLoop.runFrom { plainContext with maxIterations := 1 } (.object [])
        [.json callResponse, .json callResponse]).2 = some (.ok result) ∧
      outputItems result = some outputs ∧
      ¬ Converted openAiTypes (ToolLoop.runFrom { plainContext with maxIterations := 1 } (.object [])
        [.json callResponse, .json callResponse]).1.state.invocations
          ((outputItems callResponse).getD []) outputs := by
  refine ⟨_, _, rfl, rfl, fun h => ?_⟩
  exact Bool.false_ne_true ((h.noFunctionCall _ (by
    exact mem_cons_of_mem _ (mem_cons_of_mem _ (mem_cons_of_mem _
      (mem_singleton_self _))))).symm.trans (by decide))

end QwenStack.Responses
