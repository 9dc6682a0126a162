import QwenStack.Grpc.Histories
import QwenStack.Grpc.Persistence
import QwenStack.Harmony.Calls

/-!
# Responses over chat — the items of a Harmony stream

The item of a call is added under one call id and done under another, and the text that a message is done
with is that of the whole run, and of the answer (`emit_text_done`, `accumulated_final_text`).  So an answer
is told consistently if it opens no call, and has its text before one end, with none in an answer before it
(`Decode.Orderly`); `items_consistent` says so of the runs.
-/

namespace QwenStack.Harmony
open Grpc Grpc.Client List

/-! ### An answer in order -/

/-- The message ends the answer. -/
def DecodeMessage.isComplete : Except Str DecodeMessage → Bool
  | .ok (.complete ..) => true
  | _ => false

namespace Decode
variable {σ : Type} (p : ContentParser σ) (uuid callUuid : Nat → Str) (mcpToolNames : List Str)

/-- The delta of a message. -/
def deltaOf (d : Decode σ) : Except Str DecodeMessage → Option HarmonyChannelDelta
  | .ok (.chunk tokenIds) =>
      match parseChunk p.toStreamableParser callUuid d.parser tokenIds with
      | .ok (delta, _) => delta
      | .error _ => none
  | _ => none

/-- The message opens the item of a call. -/
def opensCall (d : Decode σ) (message : Except Str DecodeMessage) : Bool :=
  (((d.deltaOf p callUuid message).bind (·.commentaryDelta)).bind (·.id)).isSome

/-- The text of the message. -/
def finalText (d : Decode σ) (message : Except Str DecodeMessage) : Str :=
  ((d.deltaOf p callUuid message).bind (·.finalDelta)).getD []

/-- The answer opens no call; its text comes before its end, and no answer before it had any; there is one
end after the text. -/
def Orderly (d : Decode σ) (closed : Bool) : List (Except Str DecodeMessage) → Prop
  | [] => d.message = none ∨ closed = true
  | message :: rest =>
      d.opensCall p callUuid message = false ∧
      (d.finalText p callUuid message ≠ [] →
        closed = false ∧ (d.message = none → d.client.emitter.accumulatedText = [])) ∧
      match d.processMessage p uuid callUuid mcpToolNames message with
      | .error _ => d.message = none ∨ closed = true
      | .ok d' =>
          (DecodeMessage.isComplete message = true → d.message ≠ none → closed = false) ∧
          Orderly d' (closed || (DecodeMessage.isComplete message && d.message.isSome)) rest

instance decidableOrderly (d : Decode σ) (closed : Bool) :
    (stream : List (Except Str DecodeMessage)) →
      Decidable (d.Orderly p uuid callUuid mcpToolNames closed stream)
  | [] => inferInstanceAs (Decidable (_ ∨ _))
  | message :: rest =>
      have : Decidable (match d.processMessage p uuid callUuid mcpToolNames message with
          | .error _ => d.message = none ∨ closed = true
          | .ok d' =>
              (DecodeMessage.isComplete message = true → d.message ≠ none → closed = false) ∧
              Orderly p uuid callUuid mcpToolNames d'
                (closed || (DecodeMessage.isComplete message && d.message.isSome)) rest) :=
        match d.processMessage p uuid callUuid mcpToolNames message with
        | .error _ => inferInstanceAs (Decidable (_ ∨ _))
        | .ok d' =>
            have := decidableOrderly d' (closed || (DecodeMessage.isComplete message && d.message.isSome)) rest
            inferInstanceAs (Decidable (_ ∧ _))
      inferInstanceAs (Decidable (_ ∧ _ ∧ _))

/-- No call is open, and the message is not, or has the text of its deltas, or is done. -/
inductive Stands (d : Decode σ) : Bool → Prop where
  | idle (calls : d.toolCallTracking = []) (message : d.message = none)
      (part : d.hasEmittedContentPartAdded = false) (text : d.accumulatedFinalText = [])
      (settled : d.client.Settled none) : Stands d false
  | opened {i : Nat} {itemId : Str} {deltas : List Str} (calls : d.toolCallTracking = [])
      (message : d.message = some (i, itemId)) (part : d.hasEmittedContentPartAdded = true)
      (text : d.accumulatedFinalText = deltas.flatten)
      (accumulated : d.client.emitter.accumulatedText = deltas.flatten)
      (opened : d.client.Opened i itemId deltas) : Stands d false
  | done {m : Nat × Str} (calls : d.toolCallTracking = []) (message : d.message = some m)
      (settled : d.client.Settled none) : Stands d true

namespace Stands
variable {d d' : Decode σ} {closed : Bool}

variable (h : d.Stands closed)
include h

theorem calls_eq : d.toolCallTracking = [] := by
  cases h <;> assumption

/-- What is not seen of the answer. -/
theorem congr (hcalls : d'.toolCallTracking = d.toolCallTracking)
    (hmessage : d'.message = d.message)
    (hpart : d'.hasEmittedContentPartAdded = d.hasEmittedContentPartAdded)
    (htext : d'.accumulatedFinalText = d.accumulatedFinalText) (hclient : d'.client = d.client) :
    d'.Stands closed := by
  cases h with
  | idle calls message part text settled =>
    exact .idle (hcalls.trans calls) (hmessage.trans message) (hpart.trans part) (htext.trans text)
      (hclient ▸ settled)
  | opened calls message part text accumulated opened =>
    exact .opened (hcalls.trans calls) (hmessage.trans message) (hpart.trans part) (htext.trans text)
      (hclient ▸ accumulated) (hclient ▸ opened)
  | done calls message settled =>
    exact .done (hcalls.trans calls) (hmessage.trans message) (hclient ▸ settled)

/-- With no item open the client is settled. -/
theorem settled (hend : d.message = none ∨ closed = true) : d.client.Settled none := by
  cases h with
  | idle _ _ _ _ settled => exact settled
  | opened _ message =>
    rcases hend with hend | hend
    · rw [message] at hend
      cases hend
    · cases hend
  | done _ _ settled => exact settled

theorem processAnalysis (analysisDelta : Option Str) :
    (d.processAnalysis uuid analysisDelta).Stands closed := by
  unfold Decode.processAnalysis
  split
  · exact h
  · split
    · exact h
    · cases h with
      | idle calls message part text settled =>
        exact .idle calls message part text (settled.emitReasoningItem uuid none).1
      | opened calls message part text accumulated opened =>
        exact .opened calls message part text accumulated (opened.emitReasoningItem uuid none)
      | done calls message settled =>
        exact .done calls message (settled.emitReasoningItem uuid none).1

/-- **The text of a delta**: it opens the message, or is one more of its deltas. -/
theorem processFinal {finalDelta : Option Str} (htext : finalDelta.getD [] ≠ [] →
      closed = false ∧ (d.message = none → d.client.emitter.accumulatedText = [])) :
    (d.processFinal uuid finalDelta).Stands closed := by
  unfold Decode.processFinal
  dsimp only
  split
  · exact h
  · next hne =>
    obtain ⟨hclosed, hfirst⟩ := htext hne
    cases h with
    | idle calls message part text settled =>
      have haccumulated := hfirst message
      unfold Decode.openMessage
      rw [message]
      rw [part, if_neg Bool.false_ne_true]
      refine .opened calls rfl rfl ?_ ?_ (settled.openMessage (finalDelta.getD []) ?_ rfl)
      · simp [text]
      · change d.client.emitter.accumulatedText ++ finalDelta.getD [] = _
        simp [haccumulated]
      · rw [told_emit, told_emit, told_emit, append_assoc, append_assoc]
        rfl
    | opened calls message part text accumulated opened =>
      unfold Decode.openMessage
      rw [message]
      rw [if_pos part]
      refine .opened calls message rfl ?_ ?_ (opened.delta (finalDelta.getD []) (told_emit ..) rfl)
      · simp [text]
      · change d.client.emitter.accumulatedText ++ finalDelta.getD [] = _
        simp [accumulated]
    | done => cases hclosed

/-- No call gets more arguments, and none is opened. -/
theorem processCommentary {commentaryDelta : Option ToolCallDelta}
    (hopens : (commentaryDelta.bind (·.id)).isSome = false) :
    (d.processCommentary uuid mcpToolNames commentaryDelta).Stands closed := by
  unfold Decode.processCommentary
  cases commentaryDelta with
  | none => exact h
  | some tcDelta =>
    dsimp only
    rw [show tcDelta.id = none from Option.isSome_eq_false_iff.mp hopens |> Option.isNone_iff_eq_none.mp]
    rw [Decode.continueCall, h.calls_eq]
    exact h

/-- **A delta.** -/
theorem processDelta {delta : HarmonyChannelDelta}
    (hopens : (delta.commentaryDelta.bind (·.id)).isSome = false)
    (htext : delta.finalDelta.getD [] ≠ [] →
      closed = false ∧ (d.message = none → d.client.emitter.accumulatedText = [])) :
    (d.processDelta uuid mcpToolNames delta).Stands closed := by
  have hanalysis : (d.processAnalysis uuid delta.analysisDelta).message = d.message ∧
      (d.processAnalysis uuid delta.analysisDelta).client.emitter.accumulatedText =
        d.client.emitter.accumulatedText := by
    unfold Decode.processAnalysis
    split
    · exact ⟨rfl, rfl⟩
    · split <;> exact ⟨rfl, rfl⟩
  have hshown := h.processAnalysis uuid delta.analysisDelta
  refine (hshown.processFinal uuid ?_).processCommentary uuid mcpToolNames hopens
  rw [hanalysis.1, hanalysis.2]
  exact htext

/-- No call is to be ended. -/
theorem completeCalls : d.completeCalls = d := by
  unfold Decode.completeCalls
  generalize (d.accumulatedToolCalls.getD []).zipIdx = calls
  have hnone : ∀ call, d.completeCall call = d := by
    intro call
    rw [Decode.completeCall, h.calls_eq]
    rfl
  induction calls with
  | nil => rfl
  | cons call calls ih => rw [foldl_cons, hnone, ih]

/-- **The end of an answer**: the text of the run is that of the message. -/
theorem closeMessage (hclosed : d.message ≠ none → closed = false) :
    d.closeMessage.Stands (closed || d.message.isSome) := by
  unfold Decode.closeMessage
  cases h with
  | idle calls message part text settled =>
    rw [message]
    exact .idle calls message part text settled
  | @opened i itemId deltas calls message part text accumulated opened =>
    rw [message]
    refine .done calls rfl (opened.close ?_ rfl)
    rw [told_update, told_emit, told_emit, told_emit, append_assoc, append_assoc, text, ← accumulated]
    rfl
  | done calls message settled =>
    have hne : d.message ≠ none := by
      rw [message]
      exact fun heq => nomatch heq
    cases hclosed hne

/-- **A message of the stream.** -/
theorem processMessage {message : Except Str DecodeMessage}
    (hopens : d.opensCall p callUuid message = false)
    (htext : d.finalText p callUuid message ≠ [] →
      closed = false ∧ (d.message = none → d.client.emitter.accumulatedText = []))
    (hmessage : d.processMessage p uuid callUuid mcpToolNames message = .ok d')
    (hcomplete : DecodeMessage.isComplete message = true → d.message ≠ none → closed = false) :
    d'.Stands (closed || (DecodeMessage.isComplete message && d.message.isSome)) := by
  unfold Decode.processMessage at hmessage
  split at hmessage
  · cases hmessage
  · cases hmessage
    rw [show DecodeMessage.isComplete (.ok DecodeMessage.none) = false from rfl, Bool.false_and,
      Bool.or_false]
    exact h.congr rfl rfl rfl rfl rfl
  · cases hmessage
  · next finishReason matchedStop promptTokens completionTokens =>
    unfold Decode.processComplete at hmessage
    split at hmessage
    · cases hmessage
    next finalOutput _ =>
      cases hmessage
      rw [show DecodeMessage.isComplete (.ok (.complete finishReason matchedStop promptTokens
        completionTokens)) = true from rfl, Bool.true_and]
      have hended : Stands { { d with chunkCount := d.chunkCount + 1 }.draw p callUuid with
          finishReason := finishReason
          matchedStop := matchedStop
          promptTokens := promptTokens
          completionTokens := completionTokens
          accumulatedToolCalls := finalOutput.commentary
          reasoningTokenCount := finalOutput.reasoningTokenCount } closed :=
        h.congr rfl rfl rfl rfl rfl
      rw [hended.completeCalls]
      exact hended.closeMessage (hcomplete rfl)
  · next tokenIds =>
    rw [show DecodeMessage.isComplete (.ok (.chunk tokenIds)) = false from rfl, Bool.false_and,
      Bool.or_false]
    unfold Decode.opensCall Decode.deltaOf at hopens
    unfold Decode.finalText Decode.deltaOf at htext
    dsimp only at hopens htext
    cases hparse : parseChunk p.toStreamableParser callUuid d.parser tokenIds with
    | error e =>
      rw [hparse] at hmessage
      cases hmessage
    | ok parsed =>
      obtain ⟨_ | delta, parser⟩ := parsed
      all_goals
        rw [hparse] at hmessage hopens htext
        cases hmessage
      · exact h.congr rfl rfl rfl rfl rfl
      · refine processDelta uuid mcpToolNames ?_ hopens htext
        exact h.congr rfl rfl rfl rfl rfl

/-- **The stream of an answer**: with its end, no item is open. -/
theorem processStream {stream : List (Except Str DecodeMessage)}
    (horderly : d.Orderly p uuid callUuid mcpToolNames closed stream) :
    ∃ closed', (d.processStream p uuid callUuid mcpToolNames stream).1.Stands closed' ∧
      (d.processStream p uuid callUuid mcpToolNames stream).1.client.Settled none := by
  induction stream generalizing d closed with
  | nil => exact ⟨closed, h, h.settled horderly⟩
  | cons message rest ih =>
    obtain ⟨hopens, htext, hrest⟩ := horderly
    rw [Decode.processStream]
    cases hmessage : d.processMessage p uuid callUuid mcpToolNames message with
    | error e =>
      rw [hmessage] at hrest
      exact ⟨closed, h, h.settled hrest⟩
    | ok d' =>
      rw [hmessage] at hrest
      exact ih (h.processMessage p uuid callUuid mcpToolNames hopens htext hmessage hrest.1) hrest.2

/-- The calls of a stream without an end are not shown. -/
theorem extractToolCalls : (d.extractToolCalls p callUuid).client = d.client := by
  unfold Decode.extractToolCalls
  split
  · rfl
  · have hcalls : Stands { d.draw p callUuid with
        accumulatedToolCalls :=
          (parseMessages callUuid d.parser.generated (p.chatMessages d.parser.parser)).commentary.or
            ((d.draw p callUuid).extractIncompleteCommentary p callUuid) } closed :=
      h.congr rfl rfl rfl rfl rfl
    exact (congrArg Decode.client hcalls.completeCalls :)

end Stands

end Decode

/-- The messages that are read by channel, if what comes before them is read. -/
def ExecutionResult.consumed : ExecutionResult → List (Except Str DecodeMessage)
  | .single stream => stream
  | .dual prefill decode => if (prefillError prefill).isSome = true then [] else decode
  | .embedding => []

/-! ### A run -/

namespace McpStream
variable {σ : Type} (ctx : StreamContext σ) {s : McpStream}

/-- The answer that is read next is in order. -/
def Ordered (s : McpStream) (mcpToolNames : List Str) (result : ExecutionResult) : Prop :=
  ∀ parser, ctx.newParser = .ok parser →
    Decode.Orderly ctx.parser ctx.uuid ctx.callUuid mcpToolNames
      { parser := { parser := parser, generated := s.drawn }, client := s.client } false result.consumed

/-- So is the model's next answer, if there is one. -/
def Orderly (backend : Backend (Except ErrorResponse ExecutionResult)) (s : McpStream) : Prop :=
  ∀ result, s.loop.iterationCount + 1 ≤ defaultMaxIterations →
    backend.execute (s.loop.asked ++ [s.loop.currentRequest]) = .ok result →
    s.Ordered ctx (buildMcpToolNamesSet (s.loop.currentRequest.tools.getD [])) result

theorem processDecode_settled {mcpToolNames : List Str} {c : Client} {drawn : Nat}
    {stream : List (Except Str DecodeMessage)} (h : c.Settled none)
    (horderly : ∀ parser, ctx.newParser = .ok parser →
      Decode.Orderly ctx.parser ctx.uuid ctx.callUuid mcpToolNames
        { parser := { parser := parser, generated := drawn }, client := c } false stream) :
    (processDecodeStreamWithToolLookup ctx.parser ctx.newParser ctx.uuid ctx.callUuid mcpToolNames c drawn
      stream).1.Settled none := by
  unfold processDecodeStreamWithToolLookup
  split
  · exact h
  · next parser hparser =>
    have hstart : Decode.Stands (σ := σ)
        { parser := { parser := parser, generated := drawn }, client := c } false :=
      .idle rfl rfl rfl rfl h
    obtain ⟨closed, hstands, hsettled⟩ := hstart.processStream ctx.parser ctx.uuid ctx.callUuid
      mcpToolNames (horderly parser hparser)
    dsimp only
    split
    · next heq =>
      rw [heq] at hsettled
      exact hsettled
    · next heq =>
      rw [heq] at hstands hsettled
      rw [hstands.extractToolCalls]
      exact hsettled

section
variable (h : s.client.Settled none)
include h

/-- **An answer.** -/
theorem read_settled {mcpToolNames : List Str} {result : ExecutionResult}
    (hordered : s.Ordered ctx mcpToolNames result) :
    (s.read ctx mcpToolNames result).1.client.Settled none := by
  unfold McpStream.read processResponsesIterationStream
  unfold Ordered ExecutionResult.consumed at hordered
  cases result with
  | single stream => exact processDecode_settled ctx h hordered
  | dual prefill decode =>
    dsimp only at hordered ⊢
    cases hprefill : prefillError prefill with
    | some e => exact h
    | none =>
      rw [hprefill] at hordered
      exact processDecode_settled ctx h hordered
  | embedding => exact h

theorem settled_fail (code message : Str) : (s.fail code message).client.Settled none := by
  refine h.aside (told_emit ..) rfl ?_
  intro body hbody
  obtain rfl := List.mem_singleton.mp hbody
  rfl

theorem settled_complete (incompleteDetails : List (String × Value))
    (usage : Usage) : (s.complete incompleteDetails usage).client.Settled none := by
  refine h.aside (told_emit ..) rfl ?_
  intro body hbody
  obtain rfl := List.mem_singleton.mp hbody
  rfl

theorem settled_record (x : Execution) : (s.record x).client.Settled none := by
  unfold McpStream.record
  split
  · exact h
  · exact ⟨h.consistent, h.taken, h.fresh⟩

/-- **A turn after the answer.** -/
theorem afterAnswer_settled
    (callTool : List (Str × Option Value) → ToolAnswer) (answer : ResponsesIterationResult) :
    (s.afterAnswer ctx callTool answer).1.client.Settled none := by
  unfold McpStream.afterAnswer
  cases answer with
  | completed response usage => exact settled_complete (s := s.persist ctx usage) h [] usage
  | toolCallsFound toolCalls analysis partialText usage requestId =>
    dsimp only
    split
    · exact settled_complete h _ usage
    · split
      · exact settled_fail h ..
      · next x _ =>
        split
        · exact settled_complete (settled_record h x) [] usage
        · exact settled_record h x

/-- **A turn.** -/
theorem turn_settled
    {backend : Backend (Except ErrorResponse ExecutionResult)} (horderly : s.Orderly ctx backend) :
    (s.turn ctx backend).1.client.Settled none := by
  unfold McpStream.turn
  dsimp only
  split
  · exact settled_fail (s := { s with loop := s.loop.iterate }) h ..
  · next hmax =>
    split
    · exact settled_fail (s := { s with loop := s.loop.iterate.ask }) h ..
    · next result hresult =>
      have hread := read_settled ctx (s := { s with loop := s.loop.iterate.ask }) h
        (horderly result (Nat.not_lt.mp hmax) hresult)
      split
      · next heq =>
        rw [show s.loop.iterate.ask.currentRequest = s.loop.currentRequest from rfl] at heq
        rw [heq] at hread
        exact settled_fail hread ..
      · next answer heq =>
        rw [show s.loop.iterate.ask.currentRequest = s.loop.currentRequest from rfl] at heq
        rw [heq] at hread
        exact afterAnswer_settled ctx hread backend.callTool answer

end

/-- The first events are of no item. -/
theorem settled_start (emitter : Emitter) (currentRequest : ResponsesRequest) :
    (McpStream.start ctx emitter currentRequest).client.Settled none := by
  have hnone : ∀ i, history i (McpStream.start ctx emitter currentRequest).client.told = [] := fun _ => rfl
  refine ⟨fun i _ => ?_, fun i hi => (nomatch hi), fun i _ => hnone i⟩
  rw [hnone]
  exact consistent_nil

/-- The list of tools is told in one go. -/
theorem settled_listTools (h : s.client.Settled none) : (s.listTools ctx).client.Settled none := by
  set n := s.client.emitter.nextOutputIndex with hn
  set itemId := OutputItemType.mcpListTools.idPrefix ++ "_".toList ++
    ctx.uuid s.client.emitter.generated with hid
  refine (h.tell (.mcpListTools itemId s.loop.tracking.serverLabel "in_progress".toList [])
    [.mcpListToolsInProgress n, .mcpListToolsCompleted n ctx.mcpTools,
      .outputItemDone n (.mcpListTools itemId s.loop.tracking.serverLabel "completed".toList
        ctx.mcpTools)] ?_ rfl ?_ ?_).1
  · unfold McpStream.listTools
    rw [told_emit, told_emit, told_emit, told_emit, told_update]
    simp only [append_assoc]
    rfl
  · intro body hbody
    simp only [mem_cons, not_mem_nil, or_false] at hbody
    rcases hbody with rfl | rfl | rfl <;> exact ⟨rfl, rfl⟩
  · exact ⟨_, rfl, rfl, rfl, trivial⟩

/-- **A run**: each turn leaves the items told. -/
theorem consistent_harmonyMcp (backend : Backend (Except ErrorResponse ExecutionResult)) (turns : Nat)
    (emitter : Emitter) (currentRequest : ResponsesRequest)
    (horderly : ∀ k s, executeMcpToolLoopStreaming ctx backend emitter currentRequest k = (s, none) →
      s.Orderly ctx backend) :
    Consistent (executeMcpToolLoopStreaming ctx backend emitter currentRequest turns).1.client.told := by
  have hstart := settled_start ctx emitter currentRequest
  have hlabelled : (McpStream.start ctx emitter currentRequest).setServerLabel.client.Settled none :=
    ⟨hstart.consistent, hstart.taken, hstart.fresh⟩
  have hrun := Until.loop_rule_of (P := fun s : McpStream => s.client.Settled none)
    (F := Orderly ctx backend) (Q := fun (s : McpStream) (_ : ResponseEnd) => s.client.Settled none)
    (fun {s s'} hs hF (hturn : turn ctx s backend = (s', none)) => by
      have hsettled := turn_settled ctx hs hF
      rwa [hturn] at hsettled)
    (fun hs hF hturn => by
      have hsettled := turn_settled ctx hs hF
      rwa [hturn] at hsettled)
    (settled_listTools ctx hlabelled) horderly turns
  rcases hloop : executeMcpToolLoopStreaming ctx backend emitter currentRequest turns
    with ⟨s, _ | responseEnd⟩
  · exact (hrun.1 hloop).told_consistent
  · exact (hrun.2 hloop).told_consistent

/-- **Without MCP tools.** -/
theorem consistent_harmony (backend : Backend (Except ErrorResponse ExecutionResult)) (emitter : Emitter)
    (currentRequest : ResponsesRequest)
    (hordered : ∀ result, backend.execute [currentRequest] = .ok result →
      (McpStream.start ctx emitter currentRequest).Ordered ctx [] result) :
    Consistent (executeWithoutMcpStreaming ctx backend emitter currentRequest).1.client.told := by
  have hstart := settled_start ctx emitter currentRequest
  unfold executeWithoutMcpStreaming
  dsimp only
  split
  · exact (settled_fail (s := { McpStream.start ctx emitter currentRequest with
      loop := { (McpStream.start ctx emitter currentRequest).loop with
        currentRequest := currentRequest }.ask }) hstart ..).told_consistent
  · next result hresult =>
    generalize McpStream.start ctx emitter currentRequest = s at hstart hordered ⊢
    have hread := read_settled ctx
      (s := { s with loop := { s.loop with currentRequest := currentRequest }.ask }) hstart
      (hordered result hresult)
    split
    · next heq =>
      rw [heq] at hread
      exact (settled_fail hread ..).told_consistent
    · next s' _ _ _ usage _ heq =>
      rw [heq] at hread
      exact (settled_complete (s := s'.persist ctx usage) hread [] usage).told_consistent
    · next s' _ usage heq =>
      rw [heq] at hread
      exact (settled_complete (s := s'.persist ctx usage) hread [] usage).told_consistent

end McpStream

end QwenStack.Harmony

namespace QwenStack.Grpc
open Harmony (StreamContext Backend ExecutionResult McpStream executeWithoutMcpStreaming
  executeMcpToolLoopStreaming)

/-- **Items that are told consistently**: those of a run whose answers are in order. -/
theorem items_consistent {σ : Type} (ctx : StreamContext σ)
    (backend : Backend (Except ErrorResponse ExecutionResult)) (emitter : Emitter)
    (currentRequest : ResponsesRequest) :
    ((∀ result, backend.execute [currentRequest] = .ok result →
        (McpStream.start ctx emitter currentRequest).Ordered ctx [] result) →
      Consistent (executeWithoutMcpStreaming ctx backend emitter currentRequest).1.client.told) ∧
    ∀ turns, (∀ k s, executeMcpToolLoopStreaming ctx backend emitter currentRequest k = (s, none) →
        s.Orderly ctx backend) →
      Consistent (executeMcpToolLoopStreaming ctx backend emitter currentRequest turns).1.client.told :=
  ⟨McpStream.consistent_harmony ctx backend emitter currentRequest, fun turns =>
    McpStream.consistent_harmonyMcp ctx backend turns emitter currentRequest⟩

/-- The parser of letters, with the content of its messages. -/
def letterContents : Harmony.ContentParser Harmony.Letters where
  toStreamableParser := Harmony.letterParser
  chatMessages s := s.messages.map fun m => ⟨.assistant, m.channel, m.recipient, [.text m.text]⟩
  currentContent s := .ok ((s.current.map Harmony.Message.text).getD [])
  messages_eq s := by
    have hkept : ∀ m : Harmony.Message,
        (Harmony.ChatMessage.mk .assistant m.channel m.recipient [.text m.text]).kept = m := by
      intro m
      simp [Harmony.ChatMessage.kept, Harmony.extractTextFromContent]
    simp [Harmony.letterParser, Function.comp_def, hkept]

/-- A model that answers in letters, with a tool that it may call. -/
def letterCtx : StreamContext Harmony.Letters where
  uuid := Nat.toDigits 10
  parseJson := fun _ => .ok .null
  mcpTools := [⟨"search".toList, none, []⟩]
  createdAt := 0
  parser := letterContents
  newParser := .ok {}
  callUuid := Nat.toDigits 10
  readItem := readListed
  debug := fun e => e.message

/-- It gives these tokens, and ends. -/
def letterBackend (tokens : List Nat) : Backend (Except ErrorResponse ExecutionResult) where
  execute _ := .ok (.single (tokens.map (fun token => .ok (.chunk [token])) ++
    [.ok (.complete "stop".toList none 1 tokens.length)]))
  callTool _ := .ok none false

/-- An answer of one message, with text. -/
def letterAnswer : List Nat := [200005, 17196, 200008, 64, 65, 200007]

def letterOpening : Opening := ⟨"resp_1".toList, "gpt-oss".toList, 0, { input := .text "Hi".toList }⟩

/-- Its message is told consistently. -/
theorem answer_consistent :
    Consistent
      (executeMcpToolLoopStreaming letterCtx (letterBackend letterAnswer)
        (letterOpening.emitter letterCtx.uuid) { input := .text "Hi".toList } 1).1.client.told := by
  refine (items_consistent letterCtx (letterBackend letterAnswer) (letterOpening.emitter letterCtx.uuid)
    { input := .text "Hi".toList }).2 1 fun k s hs => ?_
  cases k with
  | zero =>
    obtain rfl := congrArg Prod.fst hs
    intro result _ hresult parser hparser
    cases hresult
    cases hparser
    decide
  | succ k => cases congrArg Prod.snd hs

/-- A call of the function `a`. -/
def letterCall : List Nat := Harmony.callHeader 64 ++ [64, 200012]

/-- Its item is added under one call id, and done under another. -/
theorem call_changes_id :
    ¬ Consistent
      (executeWithoutMcpStreaming letterCtx (letterBackend letterCall)
        (letterOpening.emitter letterCtx.uuid) { input := .text "Hi".toList }).1.client.told := by
  obtain ⟨response, htold⟩ : ∃ response,
      (executeWithoutMcpStreaming letterCtx (letterBackend letterCall)
        (letterOpening.emitter letterCtx.uuid) { input := .text "Hi".toList }).1.client.told =
      [.created "resp_1".toList 0 "gpt-oss".toList, .inProgress "resp_1".toList,
        .outputItemAdded 0 (.functionCall "function_call".toList "fc_1".toList "call_0".toList ['a']
          "in_progress".toList []),
        .functionCallArgumentsDelta 0 "fc_1".toList [], .functionCallArgumentsDelta 0 "fc_1".toList ['a'],
        .functionCallArgumentsDone 0 "fc_1".toList ['a'],
        .outputItemDone 0 (.functionCall "function_call".toList "fc_1".toList "call_1".toList ['a']
          "completed".toList ['a']),
        .completed response] := ⟨_, rfl⟩
  rw [htold]
  intro h
  obtain ⟨done, hdone, -, hcall, -⟩ := h [_, _] 0 _ _ rfl
  obtain rfl := List.singleton_inj.mp hdone
  exact absurd hcall (by decide)

end QwenStack.Grpc
