import QwenStack.Responses.Indices
import QwenStack.Responses.Turns

/-!
# Tool calls of a streamed response — the history

The history is what the upstream is told of the calls, and what the items of MCP are built from.  It is to
hold, for each call, the arguments that were passed and the result (`Faithful`).

The streaming loop passes `{}` for empty arguments and records them empty, and an item takes the first
output with the id of its call.  So the history is faithful exactly when no call had empty arguments, while
streaming, and calls with one id had one output: `faithful_iff`.
-/

namespace QwenStack.Responses

open List

/-! ### The property -/

/-- The pair of a call: what was passed, and what came of it. -/
def Invocation.pair (types : ProtocolTypes) (inv : Invocation) : List Value :=
  [functionCallItem types inv.callId inv.name inv.args, functionCallOutputItem inv.callId inv.output]

/-- An item of MCP shows a call. -/
structure Shows (item : Value) (inv : Invocation) : Prop where
  name : Value.getStr "name".toList item = some inv.name
  arguments : Value.getStr "arguments".toList item = some inv.args
  output : Value.getStr "output".toList item = some inv.output

/-- The history is that of the calls, in their order. -/
structure Faithful (ctx : Context) (result : CallResult → Str) (state : ToolLoopState) : Prop where
  results : ∀ i inv, state.invocations[i]? = some inv →
    inv.output = result (ctx.callTool i inv.name inv.args)
  pairs : state.conversationHistory = state.invocations.flatMap (Invocation.pair ctx.types)
  shown : ∀ serverLabel generated, List.Forall₂ Shows
    (buildExecutedMcpCallItems ctx state.conversationHistory serverLabel generated) state.invocations

/-- The input of a payload is the original one and the history. -/
def Resumes (ctx : Context) (payload : Value) (state : ToolLoopState) : Prop :=
  payload.get "input".toList =
    some (.array (ctx.request.input.toItems ++ state.conversationHistory))

/-- Calls with one id had one output. -/
def OneOutputPerId (invocations : List Invocation) : Prop :=
  ∀ inv ∈ invocations, ∀ inv' ∈ invocations, inv.callId = inv'.callId → inv.output = inv'.output

/-! ### What is recorded -/

/-- What is recorded of a call. -/
def Invocation.record (types : ProtocolTypes) (inv : Invocation) : List Value :=
  [functionCallItem types inv.callId inv.name inv.buffer, functionCallOutputItem inv.callId inv.output]

section Items
variable (types : ProtocolTypes) (callId name args output : Str)

theorem functionCallItem_type :
    Value.getStr "type".toList (functionCallItem types callId name args) = some types.functionCall := by
  rw [functionCallItem, Value.getStr_ofMembers_cons, if_pos rfl, Value.asStr]

theorem functionCallItem_callId :
    Value.getStr "call_id".toList (functionCallItem types callId name args) = some callId := by
  simp only [functionCallItem, Value.getStr_ofMembers_cons, String.reduceEq, if_false, if_true,
    Value.asStr]

theorem functionCallItem_name :
    Value.getStr "name".toList (functionCallItem types callId name args) = some name := by
  simp only [functionCallItem, Value.getStr_ofMembers_cons, String.reduceEq, if_false, if_true,
    Value.asStr]

theorem functionCallItem_arguments :
    Value.getStr "arguments".toList (functionCallItem types callId name args) = some args := by
  simp only [functionCallItem, Value.getStr_ofMembers_cons, String.reduceEq, if_false, if_true,
    Value.asStr]

theorem functionCallOutputItem_type : Value.getStr "type".toList (functionCallOutputItem callId output) =
    some "function_call_output".toList := by
  rw [functionCallOutputItem, Value.getStr_ofMembers_cons, if_pos rfl, Value.asStr]

theorem functionCallOutputItem_callId :
    Value.getStr "call_id".toList (functionCallOutputItem callId output) = some callId := by
  simp only [functionCallOutputItem, Value.getStr_ofMembers_cons, String.reduceEq, if_false, if_true,
    Value.asStr]

theorem functionCallOutputItem_output :
    Value.getStr "output".toList (functionCallOutputItem callId output) = some output := by
  simp only [functionCallOutputItem, Value.getStr_ofMembers_cons, String.reduceEq, if_false, if_true,
    Value.asStr]

/-- What an item of MCP is built with. -/
theorem buildMcpCallItem_members (id serverLabel : Str) (success : Bool) (error : Option Str) :
    Value.getStr "name".toList
        (buildMcpCallItem types id name args output serverLabel success error) = some name ∧
      Value.getStr "arguments".toList
        (buildMcpCallItem types id name args output serverLabel success error) = some args ∧
      Value.getStr "output".toList
        (buildMcpCallItem types id name args output serverLabel success error) = some output := by
  simp only [buildMcpCallItem, Value.getStr_ofMembers_cons, String.reduceEq, if_false, if_true,
    Value.asStr, and_self]

theorem functionCallItem_args_inj {args' : Str} :
    functionCallItem types callId name args = functionCallItem types callId name args' ↔
      args = args' := by
  refine ⟨fun h => ?_, fun h => h ▸ rfl⟩
  have hargs := congrArg (Value.getStr "arguments".toList) h
  rw [functionCallItem_arguments, functionCallItem_arguments] at hargs
  exact Option.some.inj hargs

end Items

section Recorded
variable (ctx : Context) (invocations : List Invocation)

/-- The function calls of a history. -/
theorem functionCalls_record : (invocations.flatMap (Invocation.record ctx.types)).filter (fun item =>
      decide (Value.getStr "type".toList item = some ctx.types.functionCall)) =
    invocations.map fun inv => functionCallItem ctx.types inv.callId inv.name inv.buffer := by
  induction invocations with
  | nil => rfl
  | cons inv invocations ih =>
    have hcall : decide (Value.getStr "type".toList (functionCallItem ctx.types inv.callId inv.name
        inv.buffer) = some ctx.types.functionCall) = true :=
      decide_eq_true (functionCallItem_type ..)
    have houtput : ¬ decide (Value.getStr "type".toList (functionCallOutputItem inv.callId
        inv.output) = some ctx.types.functionCall) = true := by
      rw [functionCallOutputItem_type, decide_eq_true_iff, Option.some.injEq]
      exact fun h => ctx.types.functionCall_ne h.symm
    rw [flatMap_cons, Invocation.record, cons_append, cons_append, nil_append,
      filter_cons, if_pos hcall, filter_cons, if_neg houtput, ih, map_cons]

/-- The output of an id is that of the first call with it. -/
theorem outputOf_record (callId : Str) :
    outputOf (invocations.flatMap (Invocation.record ctx.types)) callId =
      ((invocations.find? fun inv => decide (inv.callId = callId)).map
        Invocation.output).getD "{}".toList := by
  induction invocations with
  | nil => rfl
  | cons inv invocations ih =>
    rw [outputOf] at ih ⊢
    rw [flatMap_cons, Invocation.record, cons_append, cons_append, nil_append,
      List.find?_cons_of_neg, List.find?_cons, List.find?_cons]
    · simp only [functionCallOutputItem_type, functionCallOutputItem_callId, Option.some.injEq,
        decide_true, Bool.true_and]
      split
      · rw [Option.bind_some, functionCallOutputItem_output]
        rfl
      · exact ih
    · rw [functionCallItem_type, Bool.and_eq_true, decide_eq_true_iff, Option.some.injEq]
      exact fun h => ctx.types.functionCall_ne h.1

/-- The items of MCP that a history gives. -/
theorem buildExecuted_record (serverLabel : Str) (generated : Nat) :
    buildExecutedMcpCallItems ctx (invocations.flatMap (Invocation.record ctx.types)) serverLabel
        generated =
      invocations.mapIdx fun i inv =>
        executedMcpCallItem ctx (invocations.flatMap (Invocation.record ctx.types)) serverLabel
          (ctx.generateId "mcp".toList (generated + i))
          (functionCallItem ctx.types inv.callId inv.name inv.buffer) := by
  rw [buildExecutedMcpCallItems, functionCalls_record]
  exact ext_getElem (by simp only [length_mapIdx, length_map]) fun i h h' => by
    simp only [getElem_mapIdx, getElem_map]

/-- An item shows a call exactly when the call was recorded as it was made, and its output is that of the
first call with its id. -/
theorem shows_iff (serverLabel id : Str) (inv : Invocation) :
    Shows (executedMcpCallItem ctx (invocations.flatMap (Invocation.record ctx.types)) serverLabel id
        (functionCallItem ctx.types inv.callId inv.name inv.buffer)) inv ↔
      inv.buffer = inv.args ∧
        outputOf (invocations.flatMap (Invocation.record ctx.types)) inv.callId = inv.output := by
  rw [executedMcpCallItem]
  simp only [functionCallItem_callId, functionCallItem_name, functionCallItem_arguments,
    Option.getD_some]
  obtain ⟨hname, harguments, houtput⟩ := buildMcpCallItem_members ctx.types inv.name inv.buffer
    (outputOf (invocations.flatMap (Invocation.record ctx.types)) inv.callId) id serverLabel
    (!((ctx.fromStr (outputOf (invocations.flatMap (Invocation.record ctx.types))
      inv.callId)).bind fun v => v.get "error".toList).isSome)
    (if ((ctx.fromStr (outputOf (invocations.flatMap (Invocation.record ctx.types))
      inv.callId)).bind fun v => v.get "error".toList).isSome = true then
        some "Tool execution failed".toList else none)
  refine ⟨fun h => ⟨?_, ?_⟩, fun h => ⟨hname, ?_, ?_⟩⟩
  · exact Option.some.inj (harguments.symm.trans h.arguments)
  · exact Option.some.inj (houtput.symm.trans h.output)
  · exact harguments.trans (congrArg some h.1)
  · exact houtput.trans (congrArg some h.2)

/-- The pairs are those of the calls exactly when each was recorded as it was made. -/
theorem flatMap_record_eq_iff : invocations.flatMap (Invocation.record ctx.types) =
        invocations.flatMap (Invocation.pair ctx.types) ↔
      ∀ inv ∈ invocations, inv.buffer = inv.args := by
  induction invocations with
  | nil => exact ⟨fun _ _ h => absurd h not_mem_nil, fun _ => rfl⟩
  | cons inv invocations ih =>
    rw [forall_mem_cons, ← ih, ← functionCallItem_args_inj ctx.types inv.callId inv.name]
    simp only [flatMap_cons, Invocation.record, Invocation.pair, cons_append,
      nil_append, List.cons.injEq, true_and]

/-- Each call has the output of the first with its id exactly when calls with one id had one output. -/
theorem outputOf_eq_iff : (∀ inv ∈ invocations,
      outputOf (invocations.flatMap (Invocation.record ctx.types)) inv.callId = inv.output) ↔
      OneOutputPerId invocations := by
  have hfirst : ∀ inv ∈ invocations, ∃ first ∈ invocations, first.callId = inv.callId ∧
      outputOf (invocations.flatMap (Invocation.record ctx.types)) inv.callId = first.output := by
    intro inv hinv
    cases hfind : invocations.find? fun other => decide (other.callId = inv.callId) with
    | none => exact absurd (decide_eq_true rfl) (List.find?_eq_none.mp hfind inv hinv)
    | some first =>
      refine ⟨first, List.mem_of_find?_eq_some hfind, ?_, ?_⟩
      · exact of_decide_eq_true (List.find?_some hfind :)
      · rw [outputOf_record, hfind]
        rfl
  refine ⟨fun h inv hinv inv' hinv' hid => ?_, fun h inv hinv => ?_⟩
  · exact (h inv hinv).symm.trans ((congrArg _ hid).trans (h inv' hinv'))
  · obtain ⟨first, hmem, hid, houtput⟩ := hfirst inv hinv
    exact houtput.trans (h first hmem inv hinv hid)

/-- The items show the calls. -/
theorem forall₂_shows_iff (serverLabel : Str) (generated : Nat) : List.Forall₂ Shows
        (buildExecutedMcpCallItems ctx (invocations.flatMap (Invocation.record ctx.types)) serverLabel
          generated) invocations ↔
      (∀ inv ∈ invocations, inv.buffer = inv.args) ∧ OneOutputPerId invocations := by
  rw [← outputOf_eq_iff ctx, ← forall₂_and, buildExecuted_record, List.forall₂_iff_get]
  simp only [length_mapIdx, get_eq_getElem, getElem_mapIdx, true_and, shows_iff]
  refine ⟨fun h inv hinv => ?_, fun h i h₁ h₂ => h _ (getElem_mem _)⟩
  obtain ⟨i, hi, rfl⟩ := getElem_of_mem hinv
  exact h i hi hi

end Recorded

/-! ### The runs -/

/-- The invariant: the history is what was recorded, and `passed` is what was passed. -/
structure Records (ctx : Context) (result : CallResult → Str) (passed : Str → Str)
    (state : ToolLoopState) : Prop where
  history : state.conversationHistory = state.invocations.flatMap (Invocation.record ctx.types)
  results : ∀ i inv, state.invocations[i]? = some inv →
    inv.output = result (ctx.callTool i inv.name inv.args)
  passed : ∀ inv ∈ state.invocations, inv.args = passed inv.buffer

section Records
variable {ctx : Context} {result : CallResult → Str} {passed : Str → Str} {state : ToolLoopState}

theorem Records.start : Records ctx result passed {} where
  history := rfl
  results _ _ h := by cases h
  passed _ h := absurd h not_mem_nil

/-- One more call. -/
theorem Records.recordCall (h : Records ctx result passed state) {inv : Invocation}
    (houtput : inv.output = result (ctx.callTool state.invocations.length inv.name inv.args))
    (hargs : inv.args = passed inv.buffer) :
    Records ctx result passed (state.recordCall ctx.types inv) where
  history := by
    rw [ToolLoopState.recordCall, h.history, flatMap_append, flatMap_singleton]
    rfl
  results i inv' hi := by
    rw [ToolLoopState.recordCall, List.getElem?_append] at hi
    split at hi
    · exact h.results i inv' hi
    · next hlt =>
      obtain ⟨hzero, heq⟩ := List.getElem?_eq_some_iff.mp hi
      rw [getElem_singleton] at heq
      have hlast : i = state.invocations.length :=
        Nat.le_antisymm (Nat.le_of_sub_eq_zero (Nat.lt_one_iff.mp hzero)) (Nat.le_of_not_lt hlt)
      rw [← heq, hlast]
      exact houtput
  passed inv' hinv' := by
    rcases List.mem_append.mp hinv' with hinv' | hinv'
    · exact h.passed inv' hinv'
    · obtain rfl := List.mem_singleton.mp hinv'
      exact hargs

/-- **What is recorded is faithful** exactly when the arguments were passed as they came, and calls with one
id had one output. -/
theorem Records.isFaithful_iff (h : Records ctx result passed state) : Faithful ctx result state ↔
      (∀ inv ∈ state.invocations, passed inv.buffer = inv.buffer) ∧
        OneOutputPerId state.invocations := by
  have hpassed : (∀ inv ∈ state.invocations, passed inv.buffer = inv.buffer) ↔
      ∀ inv ∈ state.invocations, inv.buffer = inv.args :=
    forall₂_congr fun inv hinv => by rw [h.passed inv hinv, eq_comm]
  rw [hpassed]
  refine ⟨fun hfaithful => ?_, fun hcalls => ⟨h.results, ?_, fun serverLabel generated => ?_⟩⟩
  · have hshown := hfaithful.shown [] 0
    rw [h.history] at hshown
    exact (forall₂_shows_iff ctx state.invocations [] 0).mp hshown
  · rw [h.history]
    exact (flatMap_record_eq_iff ctx state.invocations).mpr hcalls.1
  · rw [h.history]
    exact (forall₂_shows_iff ctx state.invocations serverLabel generated).mpr hcalls

end Records

/-- The input of a resume payload. -/
theorem resumes_of_build {ctx : Context} {basePayload payload : Value} {isStreaming : Bool}
    {state : ToolLoopState}
    (h : buildResumePayload basePayload state.conversationHistory ctx.request.input
      (toolsOf basePayload) isStreaming = .ok payload) : Resumes ctx payload state := by
  rw [buildResumePayload] at h
  split at h
  · cases h
  · next hobject =>
    cases h
    have hobject := Bool.not_eq_false _ ▸ hobject
    rw [Resumes, Value.get_insert_of_ne _ _ (by decide), Value.get_insert_of_ne _ _ (by decide)]
    split
    · rw [Value.get_insert_of_ne _ _ (by decide), Value.get_insert_self _ hobject]
    · exact Value.get_insert_self _ hobject

/-- What the streaming loop passes for the arguments that came. -/
def streamedArgs (buffer : Str) : Str := if buffer = [] then "{}".toList else buffer

theorem streamedArgs_eq_iff {buffer : Str} : streamedArgs buffer = buffer ↔ buffer ≠ [] := by
  rw [streamedArgs]
  split
  · next h =>
    subst h
    exact ⟨fun h => absurd h (by decide), fun h => absurd rfl h⟩
  · next h => exact ⟨fun _ => h, fun _ => rfl⟩

namespace Interception
variable {ctx : Context} {basePayload : Value} {s : Interception}

/-- The output of a call. -/
def resultOf (result : CallResult) : Str := (streamedOutput result).1

theorem records_callTools {iteration : Nat} {calls : List ToolCall}
    (hcalls : ∀ t ∈ calls, t.args = streamedArgs t.call.argumentsBuffer)
    (h : Records ctx resultOf streamedArgs s.state) :
    Records ctx resultOf streamedArgs (s.callTools ctx iteration calls).state := by
  induction calls generalizing s with
  | nil => exact h
  | cons t calls ih =>
    have hone : Records ctx resultOf streamedArgs (callTool ctx iteration s t).state :=
      h.recordCall rfl (hcalls t (mem_cons_self ..))
    exact ih (fun t' ht' => hcalls t' (mem_cons_of_mem _ ht')) hone

theorem args_executeStreamingToolCalls {pendingCalls : List FunctionCallInProgress} :
    ∀ t ∈ executeStreamingToolCalls pendingCalls, t.args = streamedArgs t.call.argumentsBuffer := by
  intro t ht
  obtain ⟨call, -, rfl⟩ := List.mem_map.mp ht
  rfl

theorem records_called {stream : Stream} (h : Records ctx resultOf streamedArgs s.state) :
    Records ctx resultOf streamedArgs (called ctx s stream).state :=
  records_callTools args_executeStreamingToolCalls ⟨h.history, h.results, h.passed⟩

/-- **The runs** of the streaming loop. -/
theorem records_run (ctx : Context) (payload : Value) (answers : List Answer) :
    Records ctx resultOf streamedArgs (runFrom ctx payload answers).1.state ∧
      ((runFrom ctx payload answers).2 = true → answers ≠ [] →
        Resumes ctx (runFrom ctx payload answers).1.currentPayload
          (runFrom ctx payload answers).1.state) := by
  obtain ⟨hrecords, hresumes⟩ := runFrom_rule ctx payload answers
    (P := fun past s => Records ctx resultOf streamedArgs s.state ∧
      (past ≠ [] → Resumes ctx s.currentPayload s.state))
    (Q := fun s => Records ctx resultOf streamedArgs s.state)
    (fun past answer s s' _ h hturn => by
      cases hturn with
      | resumed hrun hlimit hresume =>
        exact ⟨records_called h.1, fun _ => resumes_of_build hresume⟩)
    (fun past answer s s' _ h hturn => by
      cases hturn with
      | failed message hanswer => exact h.1
      | exceeded hrun hlimit => exact ⟨h.1.history, h.1.results, h.1.passed⟩
      | unresumed hrun hlimit hresume => exact records_called h.1
      | broken hrun => exact h.1
      | completed hrun =>
        rw [complete_state]
        exact h.1)
    ⟨.start, fun h => absurd rfl h⟩ fun s h => h.1
  exact ⟨hrecords, fun hon => (hresumes hon).2⟩

end Interception

namespace ToolLoop
variable {ctx : Context} {basePayload : Value} {s : ToolLoop}

theorem records_called {callId name args : Str} (h : Records ctx output id s.state) :
    Records ctx output id (called ctx s callId name args).state := by
  have hcounted : Records ctx output id { s.state with
      iteration := s.state.iteration + 1
      totalCalls := s.state.totalCalls + 1 } := ⟨h.history, h.results, h.passed⟩
  exact hcounted.recordCall rfl rfl

/-- **The runs** of the loop without a stream. -/
theorem records_run (ctx : Context) (payload : Value) (replies : List Reply) :
    Records ctx output id (runFrom ctx payload replies).1.state ∧
      ((runFrom ctx payload replies).2 = none → replies ≠ [] →
        Resumes ctx (runFrom ctx payload replies).1.currentPayload
          (runFrom ctx payload replies).1.state) := by
  obtain ⟨hrecords, hresumes⟩ := runFrom_rule ctx payload replies
    (P := fun past s => Records ctx output id s.state ∧
      (past ≠ [] → Resumes ctx s.currentPayload s.state))
    (Q := fun s => Records ctx output id s.state)
    (fun past reply s s' _ h hturn => by
      cases hturn with
      | resumed hcall hlimit hresume =>
        exact ⟨records_called h.1, fun _ => resumes_of_build hresume⟩)
    (fun past reply s s' result _ h hturn => by
      cases hturn with
      | failed message hreply => exact h.1
      | exceeded _ hcall hlimit => exact ⟨h.1.history, h.1.results, h.1.passed⟩
      | unresumed hcall hlimit hresume => exact records_called h.1
      | completed _ hcall => exact h.1)
    ⟨.start, fun h => absurd rfl h⟩ fun s h => h.1
  exact ⟨hrecords, fun hon => (hresumes hon).2⟩

end ToolLoop

/-- **The history**: it is faithful exactly when no call had empty arguments, while streaming, and calls
with one id had one output. -/
theorem faithful_iff (ctx : Context) (payload : Value) :
    (∀ answers,
      (Faithful ctx Interception.resultOf (Interception.runFrom ctx payload answers).1.state ∧
        ((Interception.runFrom ctx payload answers).2 = true → answers ≠ [] →
          Resumes ctx (Interception.runFrom ctx payload answers).1.currentPayload
            (Interception.runFrom ctx payload answers).1.state)) ↔
      (∀ inv ∈ (Interception.runFrom ctx payload answers).1.state.invocations, inv.buffer ≠ []) ∧
        OneOutputPerId (Interception.runFrom ctx payload answers).1.state.invocations) ∧
    ∀ replies,
      (Faithful ctx ToolLoop.output (ToolLoop.runFrom ctx payload replies).1.state ∧
        ((ToolLoop.runFrom ctx payload replies).2 = none → replies ≠ [] →
          Resumes ctx (ToolLoop.runFrom ctx payload replies).1.currentPayload
            (ToolLoop.runFrom ctx payload replies).1.state)) ↔
      OneOutputPerId (ToolLoop.runFrom ctx payload replies).1.state.invocations := by
  refine ⟨fun answers => ?_, fun replies => ?_⟩
  · obtain ⟨hrecords, hresumes⟩ := Interception.records_run ctx payload answers
    rw [and_iff_left hresumes, hrecords.isFaithful_iff]
    simp only [streamedArgs_eq_iff]
  · obtain ⟨hrecords, hresumes⟩ := ToolLoop.records_run ctx payload replies
    rw [and_iff_left hresumes, hrecords.isFaithful_iff]
    simp only [id, implies_true, true_and]

/-- A response with a call of `f`. -/
def callReply (callId : Str) : Reply :=
  .json (.ofMembers [("output", .array [.ofMembers [("type", .string "function_call".toList),
    ("call_id", .string callId), ("name", .string ['f']), ("arguments", .string ['1'])]])])

/-- Tools that answer each call with its number. -/
def countingContext : Context :=
  { plainContext with callTool := fun n _ _ => .ok (toString n).toList }

/-- A call with empty arguments is recorded without any, and the second of two calls with one id is shown
with the output of the first. -/
theorem not_faithful :
    ¬ Faithful plainContext Interception.resultOf
        (Interception.runFrom plainContext (.object []) [.stream (callEvents 0 ['f'] []) none]).1.state ∧
      ¬ Faithful countingContext ToolLoop.output (ToolLoop.runFrom countingContext (.object [])
        [callReply ['c'], callReply ['c']]).1.state := by
  refine ⟨fun h => ?_, fun h => ?_⟩
  · have hcalls : (Interception.runFrom plainContext (.object [])
        [.stream (callEvents 0 ['f'] []) none]).1.state.invocations =
          [⟨['f'], ['f'], [], "{}".toList, ['r']⟩] := by decide
    obtain ⟨hargs, -⟩ := (Interception.records_run ..).1.isFaithful_iff.mp h
    rw [hcalls] at hargs
    cases hargs _ (mem_singleton_self _)
  · have hcalls : (ToolLoop.runFrom countingContext (.object [])
        [callReply ['c'], callReply ['c']]).1.state.invocations =
          [⟨['c'], ['f'], ['1'], ['1'], ['0']⟩, ⟨['c'], ['f'], ['1'], ['1'], ['1']⟩] := by decide
    obtain ⟨-, houtputs⟩ := (ToolLoop.records_run ..).1.isFaithful_iff.mp h
    rw [hcalls] at houtputs
    cases houtputs _ (mem_cons_self ..) _ (mem_cons_of_mem _ (mem_singleton_self _)) rfl

end QwenStack.Responses
