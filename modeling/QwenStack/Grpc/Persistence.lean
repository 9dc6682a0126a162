import QwenStack.Grpc.Continuation

/-!
# Responses over chat — what is stored of a Harmony response

A Harmony response is stored from the items of its emitter, under the id that it was created with.  A
function call takes one id when it is opened and another when it is closed, so that no more is asked of a
turn than that it opens none; and with MCP tools the response is stored with the final answer only.
-/

namespace QwenStack.Harmony
open Grpc Grpc.Client

/-! ### Streams that open no function call -/

/-- The delta opens the item of a function call. -/
def HarmonyChannelDelta.opensFunction (mcpToolNames : List Str) (delta : HarmonyChannelDelta) : Bool :=
  match delta.commentaryDelta with
  | none => false
  | some tcDelta =>
      tcDelta.id.isSome && !decide ((tcDelta.function.bind (·.name)).getD [] ∈ mcpToolNames)

namespace Decode
variable {σ : Type} (p : ContentParser σ) (uuid callUuid : Nat → Str) (mcpToolNames : List Str)

/-- The message opens the item of a function call. -/
def opensFunction (d : Decode σ) : Except Str DecodeMessage → Bool
  | .ok (.chunk tokenIds) =>
      match parseChunk p.toStreamableParser callUuid d.parser tokenIds with
      | .ok (some delta, _) => delta.opensFunction mcpToolNames
      | _ => false
  | _ => false

/-- No message of the stream opens the item of a function call. -/
def OpensNone (d : Decode σ) : List (Except Str DecodeMessage) → Prop
  | [] => True
  | message :: rest =>
      d.opensFunction p callUuid mcpToolNames message = false ∧
        ∀ d', d.processMessage p uuid callUuid mcpToolNames message = .ok d' → OpensNone d' rest

/-- The client was shown no function call, and none is open. -/
structure Callless (d : Decode σ) : Prop where
  client : d.client.Callless
  tracked : ∀ i t, d.toolCallTracking.lookup i = some t → t.mode = .mcp

namespace Callless
variable {d : Decode σ} (h : d.Callless)
include h

/-- The same calls are open. -/
theorem of_client {d' : Decode σ} (hclient : d'.client.Callless)
    (htracked : d'.toolCallTracking = d.toolCallTracking) : d'.Callless :=
  ⟨hclient, htracked ▸ h.tracked⟩

theorem processAnalysis (analysisDelta : Option Str) : (d.processAnalysis uuid analysisDelta).Callless := by
  unfold Decode.processAnalysis
  split
  · exact h
  · split
    · exact h
    · exact h.of_client (h.client.emitReasoningItem uuid none) rfl

theorem openMessage : (d.openMessage uuid).1.Callless := by
  unfold Decode.openMessage
  split
  · exact h
  · rcases hopen : d.client.allocate uuid .message with ⟨outputIndex, itemId, c'⟩
    exact h.of_client ((h.client.allocate hopen).emit
      (silent_added (show (Item.message itemId none).callId = none from rfl) outputIndex)) rfl

theorem processFinal (finalDelta : Option Str) : (d.processFinal uuid finalDelta).Callless := by
  unfold Decode.processFinal
  dsimp only
  split
  · exact h
  · have hopened := h.openMessage uuid
    generalize d.openMessage uuid = opened at hopened ⊢
    obtain ⟨d', outputIndex, itemId⟩ := opened
    refine ⟨?_, hopened.tracked⟩
    dsimp only
    refine .emit ?_ ?_
    · split
      · exact hopened.client
      · refine .emit hopened.client ?_
        exact fun _ he => ⟨rfl, he⟩
    · exact fun _ he => ⟨rfl, he⟩

/-- The call of an MCP tool is none of a function. -/
theorem startCall (callIndex : Nat) (callId : Str) {function : Option FunctionDelta}
    (hname : (function.bind (·.name)).getD [] ∈ mcpToolNames) :
    (d.startCall uuid mcpToolNames callIndex callId function).Callless := by
  unfold Decode.startCall
  dsimp only
  rw [if_pos hname]
  rcases hopen : d.client.allocate uuid ToolCallMode.mcp.outputItemType with ⟨outputIndex, itemId, c'⟩
  constructor
  · have hadded := (h.client.allocate hopen).emit (silent_added
      (show (ToolCallMode.mcp.item d.client.emitter.mcpServerLabel itemId callId
        ((function.bind (·.name)).getD []) [] "in_progress".toList).callId = none from rfl) outputIndex)
    rw [if_pos (show ToolCallMode.mcp.emitsStatusEvents = true from rfl)]
    dsimp only
    split
    · refine .emit (.emit hadded ?_) ?_
      all_goals exact fun _ he => ⟨rfl, he⟩
    · refine .emit hadded ?_
      exact fun _ he => ⟨rfl, he⟩
  · intro i t ht
    rw [Assoc.lookup_put] at ht
    split at ht
    · cases ht
      rfl
    · exact h.tracked i t ht

theorem continueCall (callIndex : Nat) (function : Option FunctionDelta) :
    (d.continueCall callIndex function).Callless := by
  unfold Decode.continueCall
  split
  · exact h
  · next t ht =>
    obtain ⟨outputIndex, itemId, mode⟩ := t
    obtain rfl : mode = .mcp := h.tracked _ _ ht
    dsimp only
    split
    · exact h
    · refine ⟨?_, h.tracked⟩
      dsimp only
      refine .emit h.client ?_
      exact fun _ he => ⟨rfl, he⟩

/-- **A delta.** -/
theorem processDelta {delta : HarmonyChannelDelta} (hdelta : delta.opensFunction mcpToolNames = false) :
    (d.processDelta uuid mcpToolNames delta).Callless := by
  have htext := (h.processAnalysis uuid delta.analysisDelta).processFinal uuid delta.finalDelta
  unfold HarmonyChannelDelta.opensFunction at hdelta
  unfold Decode.processDelta processCommentary
  cases hcommentary : delta.commentaryDelta with
  | none => exact htext
  | some tcDelta =>
    rw [hcommentary] at hdelta
    dsimp only at hdelta ⊢
    cases hid : tcDelta.id with
    | none => exact htext.continueCall ..
    | some callId =>
      rw [hid] at hdelta
      simp only [Option.isSome_some, Bool.true_and, Bool.not_eq_false', decide_eq_true_eq] at hdelta
      exact htext.startCall uuid mcpToolNames tcDelta.index callId hdelta

theorem completeCall (indexed : ToolCall × Nat) : (d.completeCall indexed).Callless := by
  unfold Decode.completeCall
  dsimp only
  split
  · exact h
  · next t ht =>
    obtain ⟨outputIndex, itemId, mode⟩ := t
    obtain rfl : mode = .mcp := h.tracked _ _ ht
    rw [if_pos (show ToolCallMode.mcp.emitsStatusEvents = true from rfl)]
    refine ⟨.complete (.emit ?_ (silent_done rfl outputIndex)) outputIndex, h.tracked⟩
    refine .emit (.emit h.client ?_) ?_
    all_goals exact fun _ he => ⟨rfl, he⟩

theorem completeCalls : d.completeCalls.Callless := by
  unfold Decode.completeCalls
  generalize (d.accumulatedToolCalls.getD []).zipIdx = calls
  induction calls generalizing d with
  | nil => exact h
  | cons call calls ih => exact ih (h.completeCall call)

theorem closeMessage : d.closeMessage.Callless := by
  unfold Decode.closeMessage
  split
  · exact h
  · next outputIndex itemId _ =>
    refine ⟨.complete (.emit ?_ (silent_done rfl outputIndex)) outputIndex, h.tracked⟩
    refine .emit (.emit h.client ?_) ?_
    all_goals exact fun _ he => ⟨rfl, he⟩

/-- **A message of the stream.** -/
theorem processMessage {message : Except Str DecodeMessage} {d' : Decode σ}
    (hopens : d.opensFunction p callUuid mcpToolNames message = false)
    (hmessage : d.processMessage p uuid callUuid mcpToolNames message = .ok d') : d'.Callless := by
  unfold Decode.processMessage at hmessage
  split at hmessage
  · cases hmessage
  · cases hmessage
    exact h.of_client h.client rfl
  · cases hmessage
  · unfold processComplete at hmessage
    split at hmessage
    · cases hmessage
    · cases hmessage
      exact closeMessage (completeCalls (h.of_client h.client rfl))
  · next tokenIds =>
    unfold Decode.opensFunction at hopens
    dsimp only at hopens
    cases hparse : parseChunk p.toStreamableParser callUuid d.parser tokenIds with
    | error e =>
      rw [hparse] at hmessage
      cases hmessage
    | ok parsed =>
      obtain ⟨_ | delta, parser⟩ := parsed
      all_goals
        rw [hparse] at hmessage hopens
        cases hmessage
      · exact h.of_client h.client rfl
      · refine processDelta uuid mcpToolNames ?_ hopens
        exact h.of_client h.client rfl

theorem processStream {stream : List (Except Str DecodeMessage)}
    (hopens : d.OpensNone p uuid callUuid mcpToolNames stream) :
    (d.processStream p uuid callUuid mcpToolNames stream).1.Callless := by
  induction stream generalizing d with
  | nil => exact h
  | cons message rest ih =>
    rw [Decode.processStream]
    split
    · exact h
    · next d' hmessage =>
      exact ih (h.processMessage p uuid callUuid mcpToolNames hopens.1 hmessage) (hopens.2 d' hmessage)

theorem extractToolCalls : (d.extractToolCalls p callUuid).Callless := by
  unfold Decode.extractToolCalls
  split
  · exact h
  · exact completeCalls (h.of_client h.client rfl)

end Callless

end Decode

/-- The messages that are read by channel. -/
def ExecutionResult.decoded : ExecutionResult → List (Except Str DecodeMessage)
  | .single stream => stream
  | .dual _ decode => decode
  | .embedding => []

/-- What is read of an item is a function call only if the item is one, under its call id. -/
def ReadsCalls (readItem : Item → Option OutputItem) : Prop :=
  ∀ item out callId, readItem item = some out → out.callId = some callId → item.callId = some callId

/-! ### A turn -/

namespace McpStream
variable {σ : Type} (ctx : StreamContext σ) {s : McpStream}

/-- The stream of an answer opens no function call. -/
def OpensNone (s : McpStream) (mcpToolNames : List Str) (result : ExecutionResult) : Prop :=
  ∀ parser, ctx.newParser = .ok parser →
    Decode.OpensNone ctx.parser ctx.uuid ctx.callUuid mcpToolNames
      { parser := { parser := parser, generated := s.drawn }, client := s.client } result.decoded

/-- The answer cannot be read, or it opens no function call. -/
def Readable (s : McpStream) (mcpToolNames : List Str) (result : ExecutionResult) : Prop :=
  (∃ e, (s.read ctx mcpToolNames result).2 = .error e) ∨ s.OpensNone ctx mcpToolNames result

theorem processDecode_callless {mcpToolNames : List Str} {c : Client} {drawn : Nat}
    {stream : List (Except Str DecodeMessage)} (h : c.Callless)
    (hopens : ∀ parser, ctx.newParser = .ok parser →
      Decode.OpensNone ctx.parser ctx.uuid ctx.callUuid mcpToolNames
        { parser := { parser := parser, generated := drawn }, client := c } stream) :
    (processDecodeStreamWithToolLookup ctx.parser ctx.newParser ctx.uuid ctx.callUuid mcpToolNames c drawn
      stream).1.Callless := by
  unfold processDecodeStreamWithToolLookup
  split
  · exact h
  · next parser hparser =>
    have hstart : Decode.Callless (σ := σ)
        { parser := { parser := parser, generated := drawn }, client := c } :=
      ⟨h, fun i t ht => by cases ht⟩
    have hstream := hstart.processStream ctx.parser ctx.uuid ctx.callUuid mcpToolNames
      (hopens parser hparser)
    dsimp only
    split
    · next heq =>
      rw [heq] at hstream
      exact hstream.client
    · next heq =>
      rw [heq] at hstream
      exact (hstream.extractToolCalls ctx.parser ctx.callUuid).client

/-- **An answer.** -/
theorem read_callless (h : s.client.Callless) {mcpToolNames : List Str} {result : ExecutionResult}
    (hopens : s.OpensNone ctx mcpToolNames result) :
    (s.read ctx mcpToolNames result).1.client.Callless := by
  unfold McpStream.read processResponsesIterationStream
  cases result with
  | single stream => exact processDecode_callless ctx h hopens
  | dual prefill decode =>
    dsimp only
    split
    · exact h
    · exact processDecode_callless ctx h hopens
  | embedding => exact h

/-- A response that is under way: nothing is stored, and no function call was shown. -/
structure Kept (responseId : Str) (s : McpStream) : Prop where
  underWay : s.client.UnderWay responseId
  callless : s.client.Callless
  persisted : s.persisted = []

variable {responseId : Str}

/-- An error ends the response without it being completed. -/
theorem continuable_fail (h : s.client.UnderWay responseId) (code message : Str) :
    Continuable (s.fail code message).client.sent (s.fail code message).persisted := by
  refine continuable_of_not_completed ?_
  rw [McpStream.fail, Client.emit, List.filterMap_append, h.completed]
  rfl

/-- **A response that is stored, and then completed.** -/
theorem continuable_persist (hread : ReadsCalls ctx.readItem) (h : s.Kept responseId) (usage : Usage) :
    Continuable ((s.persist ctx usage).complete [] usage).client.sent
      ((s.persist ctx usage).complete [] usage).persisted := by
  have hstored : (finalizeResponse ctx.readItem s.client.emitter usage).output.filterMap OutputItem.callId =
      [] := by
    rw [List.filterMap_eq_nil_iff]
    intro out hout
    obtain ⟨state, hstate, hitem⟩ := List.mem_filterMap.mp hout
    obtain ⟨item, hdata, hread'⟩ := Option.bind_eq_some_iff.mp hitem
    have hcallless := h.callless.emitter state hstate
    rw [hdata] at hcallless
    refine Option.eq_none_iff_forall_ne_some.mpr fun callId hcall => ?_
    rw [Option.bind_some, hread item out callId hread' hcall] at hcallless
    cases hcallless
  have hcontinuable := h.underWay.completes_iff (some (usageWith [] usage)) [] rfl rfl
    [finalizeResponse ctx.readItem s.client.emitter usage]
  rw [List.append_nil, (h.callless.emitCompleted _).sent] at hcontinuable
  have hpersisted : ((s.persist ctx usage).complete [] usage).persisted =
      [finalizeResponse ctx.readItem s.client.emitter usage] := by
    rw [show ((s.persist ctx usage).complete [] usage).persisted =
      s.persisted ++ [finalizeResponse ctx.readItem s.client.emitter usage] from rfl, h.persisted,
      List.nil_append]
  rw [hpersisted]
  refine hcontinuable.mpr ⟨_, rfl, h.underWay.known, fun callId => ?_⟩
  rw [hstored]

/-- The calls of an answer are within the limit, and none of them is left to the caller, unless one of the
others fails. -/
def Admits (callTool : List (Str × Option Value) → ToolAnswer) (s : McpStream) :
    ResponsesIterationResult → Prop
  | .completed .. => True
  | .toolCallsFound toolCalls _ _ _ _ => ¬ s.loop.exceeds toolCalls ∧
      (s.loop.functionToolCalls toolCalls = [] ∨
        ∃ e, executeMcpTools ctx.parseJson callTool s.loop.tracking s.loop.called
          (s.loop.mcpToolCalls toolCalls) = .error e)

/-- The model's next answer lets the response be stored as it is shown. -/
def Storable (backend : Backend (Except ErrorResponse ExecutionResult)) (s : McpStream) : Prop :=
  ∀ result, s.loop.iterationCount + 1 ≤ defaultMaxIterations →
    backend.execute (s.loop.asked ++ [s.loop.currentRequest]) = .ok result →
    let mcpToolNames := buildMcpToolNamesSet (s.loop.currentRequest.tools.getD [])
    s.Readable ctx mcpToolNames result ∧
      ∀ answer, (s.read ctx mcpToolNames result).2 = .ok answer → s.Admits ctx backend.callTool answer

/-- The outputs of calls are put into items that are no function calls. -/
theorem callless_updateOutputs {e : Emitter} (h : e.Callless) (results : List ToolResult) :
    (updateMcpCallOutputs results e).Callless := by
  unfold updateMcpCallOutputs Emitter.Callless at *
  generalize e.outputItems = items at h ⊢
  induction results generalizing items with
  | nil => exact h
  | cons result results ih =>
    refine ih (updateMcpCallOutput items result) ?_
    clear ih
    induction items with
    | nil => exact h
    | cons item rest ih =>
      rw [List.forall_mem_cons] at h
      unfold updateMcpCallOutput
      split
      · exact List.forall_mem_cons.mpr ⟨h.1, ih h.2⟩
      · next data hdata =>
        split
        · refine List.forall_mem_cons.mpr ⟨?_, h.2⟩
          rw [hdata] at h
          cases data with
          | mcpCall => rfl
          | _ => exact h.1
        · exact List.forall_mem_cons.mpr ⟨h.1, ih h.2⟩

theorem kept_record (h : s.Kept responseId) (x : Execution) : (s.record x).Kept responseId := by
  unfold McpStream.record
  refine ⟨?_, ?_, h.persisted⟩
  all_goals split
  · exact h.underWay
  · exact ⟨h.underWay.known, h.underWay.completed, h.underWay.createdId⟩
  · exact h.callless
  · exact h.callless.update (callless_updateOutputs h.callless.emitter x.results)

/-- **A turn after the answer.** -/
theorem afterAnswer_kept (hread : ReadsCalls ctx.readItem) (h : s.Kept responseId)
    {callTool : List (Str × Option Value) → ToolAnswer} {answer : ResponsesIterationResult}
    (hadmits : s.Admits ctx callTool answer) :
    (∀ {s'}, s.afterAnswer ctx callTool answer = (s', none) → s'.Kept responseId) ∧
      ∀ {s' responseEnd}, s.afterAnswer ctx callTool answer = (s', some responseEnd) →
        Continuable s'.client.sent s'.persisted := by
  cases answer with
  | completed response usage =>
    exact Until.ended (continuable_persist ctx hread h usage)
  | toolCallsFound toolCalls analysis partialText usage requestId =>
    obtain ⟨hlimit, hfunctions⟩ := hadmits
    unfold McpStream.afterAnswer
    dsimp only
    rw [if_neg hlimit]
    split
    · exact Until.ended (continuable_fail h.underWay _ _)
    · next x hexecuted =>
      have hnone : s.loop.functionToolCalls toolCalls = [] := by
        refine hfunctions.resolve_right fun ⟨e, he⟩ => ?_
        rw [hexecuted] at he
        cases he
      rw [if_neg (not_not_intro hnone)]
      refine Until.goesOn ?_
      have hrecord := kept_record h x
      exact ⟨hrecord.underWay, hrecord.callless, hrecord.persisted⟩

theorem Kept.loop (h : s.Kept responseId) (loop : McpLoop) : Kept responseId { s with loop := loop } :=
  ⟨h.underWay, h.callless, h.persisted⟩

/-- What is read does not change what is stored. -/
theorem read_kept (h : s.Kept responseId) {mcpToolNames : List Str} {result : ExecutionResult}
    (hopens : s.OpensNone ctx mcpToolNames result) :
    (s.read ctx mcpToolNames result).1.Kept responseId :=
  ⟨(read_grows ctx s mcpToolNames result).underWay h.underWay, read_callless ctx h.callless hopens,
    h.persisted⟩

/-- **A turn.** -/
theorem turn_kept (hread : ReadsCalls ctx.readItem)
    {backend : Backend (Except ErrorResponse ExecutionResult)} (h : s.Kept responseId)
    (hstorable : s.Storable ctx backend) :
    (∀ {s'}, s.turn ctx backend = (s', none) → s'.Kept responseId) ∧
      ∀ {s' responseEnd}, s.turn ctx backend = (s', some responseEnd) →
        Continuable s'.client.sent s'.persisted := by
  unfold McpStream.turn
  dsimp only
  split
  · exact Until.ended (continuable_fail h.underWay _ _)
  · next hmax =>
    split
    · exact Until.ended (continuable_fail h.underWay _ _)
    · next result hresult =>
      obtain ⟨hreadable, hadmits⟩ := hstorable result (Nat.not_lt.mp hmax) hresult
      have hgrows := read_grows ctx { s with loop := s.loop.iterate.ask }
        (buildMcpToolNamesSet (s.loop.currentRequest.tools.getD [])) result
      split
      · next s₁ message heq =>
        rw [show s.loop.iterate.ask.currentRequest = s.loop.currentRequest from rfl] at heq
        rw [heq] at hgrows
        exact Until.ended (continuable_fail (hgrows.underWay h.underWay) _ _)
      · next s₁ answer heq =>
        rw [show s.loop.iterate.ask.currentRequest = s.loop.currentRequest from rfl] at heq
        have hanswer : (s.read ctx (buildMcpToolNamesSet (s.loop.currentRequest.tools.getD [])) result).2 =
            .ok answer := congrArg Prod.snd heq
        have hopens : s.OpensNone ctx (buildMcpToolNamesSet (s.loop.currentRequest.tools.getD [])) result := by
          refine hreadable.resolve_left fun ⟨e, he⟩ => ?_
          rw [hanswer] at he
          cases he
        have hkept : s₁.Kept responseId := by
          have hread := read_kept ctx (h.loop s.loop.iterate.ask) hopens
          rw [heq] at hread
          exact hread
        have hloop : s₁.loop = s.loop.iterate.ask := by
          rw [← show _ = s₁ from congrArg Prod.fst heq]
          rfl
        refine afterAnswer_kept ctx hread hkept ?_
        have hfits := hadmits answer hanswer
        unfold Admits at hfits ⊢
        rw [hloop]
        exact hfits

/-! ### A run -/

theorem kept_start (opening : Opening) (currentRequest : ResponsesRequest) :
    (McpStream.start ctx (opening.emitter ctx.uuid) currentRequest).Kept opening.responseId :=
  ⟨begin_underWay ctx.uuid opening, begin_callless ctx.uuid opening, rfl⟩

/-- The list of tools is no function call. -/
theorem kept_listTools (h : s.Kept responseId) : (s.listTools ctx).Kept responseId := by
  unfold McpStream.listTools
  rcases hopen : s.client.allocate ctx.uuid .mcpListTools with ⟨outputIndex, itemId, c⟩
  dsimp only
  have hunder := (Grows.allocate (.refl s.client) hopen).underWay h.underWay
  have hcallless := h.callless.allocate hopen
  have hdone : (Item.mcpListTools itemId s.loop.tracking.serverLabel "completed".toList ctx.mcpTools).callId =
    none := rfl
  have hstored : Client.Callless (c.update fun e =>
      ((e.emitOutputItemDone outputIndex (.mcpListTools itemId s.loop.tracking.serverLabel
        "completed".toList ctx.mcpTools)).2).completeOutputItem outputIndex) :=
    hcallless.update (Emitter.Callless.complete (silent_done hdone outputIndex c.emitter
      hcallless.emitter).2 outputIndex)
  generalize hc : c.update (fun e => ((e.emitOutputItemDone outputIndex (.mcpListTools itemId
    s.loop.tracking.serverLabel "completed".toList ctx.mcpTools)).2).completeOutputItem outputIndex) = c'
    at hstored ⊢
  have hunder' : c'.UnderWay responseId := by
    rw [← hc]
    exact ⟨hunder.known, hunder.completed, hunder.createdId⟩
  refine ⟨?_, ?_, h.persisted⟩
  · dsimp only
    refine Grows.underWay (.emit (.emit (.emit (.emit (.refl c') ?_) ?_) ?_) ?_) hunder'
    all_goals exact fun _ => ⟨rfl, rfl, rfl, rfl⟩
  · dsimp only
    refine .emit (.emit (.emit (hstored.emit (silent_added rfl outputIndex)) ?_) ?_)
      (silent_done hdone outputIndex)
    all_goals exact fun _ he => ⟨rfl, he⟩

/-- **A run**: if every state that is reached can be stored, the response can. -/
theorem continuable_harmonyMcp (hread : ReadsCalls ctx.readItem)
    (backend : Backend (Except ErrorResponse ExecutionResult)) (turns : Nat) (opening : Opening)
    (currentRequest : ResponsesRequest)
    (hstorable : ∀ k s, executeMcpToolLoopStreaming ctx backend (opening.emitter ctx.uuid) currentRequest k =
      (s, none) → s.Storable ctx backend) :
    Continuable
      (executeMcpToolLoopStreaming ctx backend (opening.emitter ctx.uuid) currentRequest turns).1.client.sent
      (executeMcpToolLoopStreaming ctx backend (opening.emitter ctx.uuid) currentRequest
        turns).1.persisted := by
  have hstart := kept_start ctx opening currentRequest
  have hlabelled : (McpStream.start ctx (opening.emitter ctx.uuid) currentRequest).setServerLabel.Kept
      opening.responseId :=
    ⟨⟨hstart.underWay.known, hstart.underWay.completed, hstart.underWay.createdId⟩,
      ⟨hstart.callless.sent, hstart.callless.emitter⟩, hstart.persisted⟩
  have hrun := Until.loop_rule_of (P := Kept opening.responseId) (F := Storable ctx backend)
    (Q := fun (s : McpStream) (_ : ResponseEnd) => Continuable s.client.sent s.persisted)
    (fun {s s'} hs hF (hturn : turn ctx s backend = (s', none)) => (turn_kept ctx hread hs hF).1 hturn)
    (fun hs hF hturn => (turn_kept ctx hread hs hF).2 hturn)
    (kept_listTools ctx hlabelled) hstorable turns
  rcases hloop : executeMcpToolLoopStreaming ctx backend (opening.emitter ctx.uuid) currentRequest turns
    with ⟨s, _ | responseEnd⟩
  · exact continuable_of_not_completed (hrun.1 hloop).underWay.completed
  · exact hrun.2 hloop

/-- **Without MCP tools.** -/
theorem continuable_harmony (hread : ReadsCalls ctx.readItem)
    (backend : Backend (Except ErrorResponse ExecutionResult)) (opening : Opening)
    (currentRequest : ResponsesRequest)
    (hreadable : ∀ result, backend.execute [currentRequest] = .ok result →
      (McpStream.start ctx (opening.emitter ctx.uuid) currentRequest).Readable ctx [] result) :
    Continuable
      (executeWithoutMcpStreaming ctx backend (opening.emitter ctx.uuid) currentRequest).1.client.sent
      (executeWithoutMcpStreaming ctx backend (opening.emitter ctx.uuid) currentRequest).1.persisted := by
  have hstart := kept_start ctx opening currentRequest
  unfold executeWithoutMcpStreaming
  dsimp only
  split
  · exact continuable_fail hstart.underWay _ _
  · next result hresult =>
    generalize McpStream.start ctx (opening.emitter ctx.uuid) currentRequest = s at hstart hreadable ⊢
    have hgrows := read_grows ctx
      { s with loop := { s.loop with currentRequest := currentRequest }.ask } [] result
    have hkept : ∀ {s' answer}, read ctx { s with loop := { s.loop with currentRequest := currentRequest }.ask }
        [] result = (s', .ok answer) → s'.Kept opening.responseId := by
      intro s' answer heq
      have hopens : s.OpensNone ctx [] result := by
        refine (hreadable result hresult).resolve_left fun ⟨e, he⟩ => ?_
        rw [show (s.read ctx [] result).2 = .ok answer from congrArg Prod.snd heq] at he
        cases he
      have hkept := read_kept ctx (hstart.loop ({ s.loop with currentRequest := currentRequest }.ask)) hopens
      rw [heq] at hkept
      exact hkept
    split
    · next heq =>
      rw [heq] at hgrows
      exact continuable_fail (hgrows.underWay hstart.underWay) _ _
    · next heq => exact continuable_persist ctx hread (hkept heq) _
    · next heq => exact continuable_persist ctx hread (hkept heq) _

end McpStream

end QwenStack.Harmony

namespace QwenStack.Grpc
open Harmony (StreamContext Backend ExecutionResult ReadsCalls McpStream executeWithoutMcpStreaming
  executeMcpToolLoopStreaming)

/-- **When a streamed response can be continued**: a chat that calls nothing and has the id of the response;
a tool loop that never comes to its final answer; a Harmony response whose turns open no function call, and
with MCP tools, neither come to the limit nor leave a call to the caller. -/
theorem continuable_iff (opening : Opening) :
    (∀ (uuid : Nat → Str) (body : List Frame),
      Continuable (convertChatStreamToResponsesStream uuid (opening.emitter uuid) body).client.sent
          (convertChatStreamToResponsesStream uuid (opening.emitter uuid) body).persisted ↔
        ChatKept opening.responseId body) ∧
    (∀ (ctx : LoopContext) (world : World (List Frame)) (turns : Nat)
      (modifiedRequest : ResponsesRequest),
      ∃ streamed, executeToolLoopStreaming ctx world (defaultMaxIterations + 1 + turns)
          (opening.emitter ctx.uuid) modifiedRequest = some streamed ∧
        (Continuable streamed.client.sent streamed.persisted ↔
          ∀ k s, executeToolLoopStreamingInternal ctx world k (opening.emitter ctx.uuid) modifiedRequest =
            (s, none) → ¬ s.Answers ctx world)) ∧
    ∀ (σ : Type) (ctx : StreamContext σ) (backend : Backend (Except ErrorResponse ExecutionResult))
      (currentRequest : ResponsesRequest), ReadsCalls ctx.readItem →
      ((∀ result, backend.execute [currentRequest] = .ok result →
          (McpStream.start ctx (opening.emitter ctx.uuid) currentRequest).Readable ctx [] result) →
        Continuable
          (executeWithoutMcpStreaming ctx backend (opening.emitter ctx.uuid) currentRequest).1.client.sent
          (executeWithoutMcpStreaming ctx backend (opening.emitter ctx.uuid) currentRequest).1.persisted) ∧
      ∀ turns, (∀ k s, executeMcpToolLoopStreaming ctx backend (opening.emitter ctx.uuid) currentRequest k =
          (s, none) → s.Storable ctx backend) →
        Continuable
          (executeMcpToolLoopStreaming ctx backend (opening.emitter ctx.uuid) currentRequest
            turns).1.client.sent
          (executeMcpToolLoopStreaming ctx backend (opening.emitter ctx.uuid) currentRequest
            turns).1.persisted :=
  ⟨fun uuid body => continuable_chat uuid opening body,
    fun ctx world turns modifiedRequest => continuable_toolLoop ctx world turns opening modifiedRequest,
    fun _ ctx backend currentRequest hread =>
    ⟨McpStream.continuable_harmony ctx hread backend opening currentRequest,
      fun turns => McpStream.continuable_harmonyMcp ctx hread backend turns opening currentRequest⟩⟩

/-- A list of tools is read as it was shown; nothing else is. -/
def readListed : Item → Option OutputItem
  | .mcpListTools id serverLabel _ tools => some (.mcpListTools id serverLabel tools)
  | _ => none

/-- A Harmony model that may search. -/
def listedCtx : StreamContext Unit where
  uuid := fun n => (toString n).toList
  parseJson := fun _ => .ok .null
  mcpTools := [⟨"search".toList, none, []⟩]
  createdAt := 0
  parser := silentParser
  newParser := .ok ()
  callUuid := fun n => (toString n).toList
  readItem := readListed
  debug := fun e => e.message

/-- It answers with nothing. -/
def listedBackend : Backend (Except ErrorResponse ExecutionResult) where
  execute _ := .ok (.single [.ok (.complete "stop".toList none 1 1)])
  callTool _ := .ok none false

def listedOpening : Opening := ⟨"resp_1".toList, "gpt-oss".toList, 0, { input := .text "Hi".toList }⟩

/-- The list of tools is what is stored of its response. -/
theorem listed_continuable :
    Continuable
      (executeMcpToolLoopStreaming listedCtx listedBackend (listedOpening.emitter listedCtx.uuid)
        { input := .text "Hi".toList } 1).1.client.sent
      (executeMcpToolLoopStreaming listedCtx listedBackend (listedOpening.emitter listedCtx.uuid)
        { input := .text "Hi".toList } 1).1.persisted := by
  have hread : ReadsCalls listedCtx.readItem := by
    intro item out callId hitem hcall
    cases item with
    | mcpListTools id serverLabel status tools =>
      cases hitem
      cases hcall
    | _ => cases hitem
  refine ((continuable_iff listedOpening).2.2 Unit listedCtx listedBackend
    { input := .text "Hi".toList } hread).2 1 fun k s hs => ?_
  cases k with
  | zero =>
    obtain rfl := congrArg Prod.fst hs
    intro result _ hresult
    cases hresult
    refine ⟨.inr fun parser _ => ⟨rfl, fun _ _ => trivial⟩, fun answer hanswer => ?_⟩
    cases hanswer
    trivial
  | succ k => cases congrArg Prod.snd hs

/-- An answer to be stored. -/
def helloChat : Streamed :=
  convertChatStreamToResponsesStream (fun n => (toString n).toList)
    (Opening.emitter ⟨"resp_1".toList, "qwen".toList, 0, { input := .text "Hi".toList }⟩
      fun n => (toString n).toList)
    [.chunk {
        id := "chatcmpl-1".toList
        model := "qwen".toList
        choices := [{ delta := { content := some "Hello".toList }, finishReason := some "stop".toList }] },
      .done]

/-- It is stored under the id of the chat, and the client knows another. -/
theorem helloChat_not_continuable :
    helloChat.persisted.map ResponsesResponse.id = ["chatcmpl-1".toList] ∧
    helloChat.client.sent.filterMap (fun block => block.completed.map CompletedResponse.id) =
      ["resp_1".toList] ∧
    ¬ Continuable helloChat.client.sent helloChat.persisted := by
  refine ⟨rfl, rfl, fun h => ?_⟩
  have hkept := (continuable_chat _ _ _).mp h rfl rfl
  exact absurd hkept.1 (by decide)

end QwenStack.Grpc
