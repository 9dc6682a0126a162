import QwenStack.Harmony.ResponsesStream

/-!
# Responses over chat — what is sent between the ends

Between the first events of a response and its last one the client is sent events of items, texts and
calls.  Each is built by the emitter and sent at once, so that it takes the next number.

`Client.Grows` says this of a part of a run: numbered events of the middle of a response, and nothing else,
have been sent.  Every function that sends grows the client (`processChunk_grows`, `turn_grows` and the
like); the single exception is the list of tools of a Harmony response, whose first event is not sent
(`McpStream.listTools`).
-/

namespace QwenStack.Grpc

open List

/-- An event of the middle of a response. -/
def EventBody.isOrdinary : EventBody → Bool
  | .created .. => false
  | .completed .. => false
  | .error .. => false
  | _ => true

namespace Client

/-- A builder of an ordinary event, which takes a number. -/
def Ordinary (builder : Emitter → Event × Emitter) : Prop :=
  ∀ e, (builder e).1.sequenceNumber = e.sequenceNumber ∧
    (builder e).2.sequenceNumber = e.sequenceNumber + 1 ∧
    (builder e).2.responseId = e.responseId ∧ (builder e).1.body.isOrdinary = true

/-- The client has been sent some ordinary events, each with the next number. -/
structure Grows (c c' : Client) : Prop where
  responseId : c'.emitter.responseId = c.emitter.responseId
  events : ∃ events : List Event, c'.sent = c.sent ++ events.map Sent.event ∧
    events.map Event.sequenceNumber = List.range' c.emitter.sequenceNumber events.length ∧
    c'.emitter.sequenceNumber = c.emitter.sequenceNumber + events.length ∧
    ∀ e ∈ events, e.body.isOrdinary = true

namespace Grows

theorem refl (c : Client) : Grows c c :=
  ⟨rfl, [], (append_nil _).symm, rfl, rfl, fun _ he => absurd he not_mem_nil⟩

theorem trans {c c' c'' : Client} (h : Grows c c') (h' : Grows c' c'') : Grows c c'' := by
  obtain ⟨events, hsent, hnumbers, hnext, hordinary⟩ := h.events
  obtain ⟨events', hsent', hnumbers', hnext', hordinary'⟩ := h'.events
  refine ⟨h'.responseId.trans h.responseId, events ++ events', ?_, ?_, ?_, ?_⟩
  · rw [hsent', hsent, map_append, append_assoc]
  · rw [map_append, hnumbers, hnumbers', hnext, length_append, List.range'_append_1]
  · rw [hnext', hnext, length_append, Nat.add_assoc]
  · intro e he
    rcases List.mem_append.mp he with he | he
    · exact hordinary e he
    · exact hordinary' e he

/-- Either way. -/
theorem ite {c c' c'' : Client} {P : Prop} [Decidable P] (h : Grows c c') (h' : Grows c c'') :
    Grows c (if P then c' else c'') := by
  split
  · exact h
  · exact h'

variable {c c' : Client} (h : Grows c c')
include h

/-- One more event. -/
theorem emit {builder : Emitter → Event × Emitter} (hbuilder : Ordinary builder) :
    Grows c (c'.emit builder) := by
  obtain ⟨hnumber, hnext, hid, hordinary⟩ := hbuilder c'.emitter
  refine h.trans ⟨hid, [(builder c'.emitter).1], rfl, ?_, hnext, ?_⟩
  · exact congrArg (fun n => [n]) hnumber
  · intro e he
    obtain rfl := List.mem_singleton.mp he
    exact hordinary

/-- A change of the emitter that takes no number. -/
theorem update {f : Emitter → Emitter}
    (hnumber : (f c'.emitter).sequenceNumber = c'.emitter.sequenceNumber)
    (hid : (f c'.emitter).responseId = c'.emitter.responseId) : Grows c (c'.update f) :=
  h.trans ⟨hid, [], (append_nil _).symm, rfl, hnumber, fun _ he => absurd he not_mem_nil⟩

theorem allocate {uuid : Nat → Str} {itemType : OutputItemType} {outputIndex : Nat} {itemId : Str}
    {c'' : Client} (hopen : c'.allocate uuid itemType = (outputIndex, itemId, c'')) : Grows c c'' := by
  obtain rfl : (c'.allocate uuid itemType).2.2 = c'' := by rw [hopen]
  exact h.trans ⟨rfl, [], (append_nil _).symm, rfl, rfl, fun _ he => absurd he not_mem_nil⟩

end Grows

variable (uuid : Nat → Str) (c : Client)

theorem emitReasoningItem_grows (content : Option Str) : Grows c (c.emitReasoningItem uuid content) := by
  unfold emitReasoningItem
  rcases hopen : c.allocate uuid .reasoning with ⟨outputIndex, itemId, c'⟩
  refine .update (.emit (.emit (.allocate (.refl c) hopen) ?_) ?_) rfl rfl
  all_goals exact fun _ => ⟨rfl, rfl, rfl, rfl⟩

theorem openMessage_grows : Grows c (c.openMessage uuid) := by
  unfold openMessage
  split
  · exact .refl c
  · rcases hopen : c.allocate uuid .message with ⟨outputIndex, itemId, c'⟩
    refine .update (.emit (.allocate (.refl c) hopen) ?_) rfl rfl
    exact fun _ => ⟨rfl, rfl, rfl, rfl⟩

theorem processContent_grows (content : Str) : Grows c (c.processContent uuid content).1 := by
  have hopened := openMessage_grows uuid c
  unfold processContent
  dsimp only
  split
  · split
    · dsimp only
      refine .emit hopened ?_
      exact fun _ => ⟨rfl, rfl, rfl, rfl⟩
    · dsimp only
      refine .emit (.emit hopened ?_) ?_
      all_goals exact fun _ => ⟨rfl, rfl, rfl, rfl⟩
  · exact hopened

/-- The text of the message and its part are closed. -/
theorem finishText_grows (outputIndex : Nat) (itemId : Str) :
    Grows c (if c.emitter.hasEmittedContentPartAdded = true then
      (c.emit (·.emitTextDone outputIndex itemId 0)).emit (·.emitContentPartDone outputIndex itemId 0)
      else c) := by
  split
  · refine .emit (.emit (.refl c) ?_) ?_
    all_goals exact fun _ => ⟨rfl, rfl, rfl, rfl⟩
  · exact .refl c

theorem finishMessage_grows : Grows c c.finishMessage.1 := by
  unfold finishMessage
  split
  · next outputIndex itemId _ _ =>
    have htext := finishText_grows c outputIndex itemId
    dsimp only
    generalize (if c.emitter.hasEmittedContentPartAdded = true then
      (c.emit (·.emitTextDone outputIndex itemId 0)).emit (·.emitContentPartDone outputIndex itemId 0)
      else c) = c' at htext ⊢
    refine .update ?_ rfl rfl
    split
    · refine .emit htext ?_
      exact fun _ => ⟨rfl, rfl, rfl, rfl⟩
    · exact htext
  · exact .refl c

/-- What the content of a chunk and the end of a message keep, the chunk keeps. -/
theorem processChunk_keeps {P : Client → Prop}
    (hcontent : ∀ c content, P c → P (c.processContent uuid content).1)
    (hfinish : ∀ c, P c → P c.finishMessage.1) (h : P c) (chunk : ChatChunk) :
    P (c.processChunk uuid chunk).1 := by
  unfold processChunk
  split
  · exact h
  · next choice _ _ =>
    have hchoice : P (if choice.text = [] then (c, none) else c.processContent uuid choice.text).1 := by
      split
      · exact h
      · exact hcontent c _ h
    split
    · next c' halt heq =>
      rw [heq] at hchoice
      exact hchoice
    · next c' heq =>
      rw [heq] at hchoice
      split
      · exact hfinish c' hchoice
      · exact hchoice

/-- What a chunk keeps, the stream of a turn keeps. -/
theorem convertAndAccumulateStream_keeps {P : Client → Prop}
    (hchunk : ∀ c chunk, P c → P (c.processChunk uuid chunk).1) (h : P c) (body : List Frame) :
    P (convertAndAccumulateStream uuid c body).1 := by
  have hrun : P (Until.runUntil (Accumulation.step uuid) { client := c } body).1.client := by
    refine Until.runUntil_keeps (P := fun s : Accumulation => P s.client) (fun s frame _ h => ?_) h
    cases frame with
    | chunk chunk =>
      have hstep := hchunk s.client chunk h
      rw [Accumulation.step]
      rcases heq : s.client.processChunk uuid chunk with ⟨c', _ | halt⟩
      all_goals
        rw [heq] at hstep
        exact hstep
    | error event => exact h
    | other event => exact h
    | done => exact h
    | broken e => exact h
  unfold convertAndAccumulateStream
  rcases heq : Until.runUntil (Accumulation.step uuid) { client := c } body with ⟨s, _ | _ | halt⟩
  all_goals
    rw [heq] at hrun
    exact hrun

/-- **A chunk.** -/
theorem processChunk_grows (chunk : ChatChunk) : Grows c (c.processChunk uuid chunk).1 :=
  processChunk_keeps uuid c (fun c' _ h => h.trans (processContent_grows uuid c' _))
    (fun c' h => h.trans (finishMessage_grows c')) (.refl c) chunk

theorem emitMcpListTools_grows (serverLabel : Str) (mcpTools : List McpTool) :
    Grows c (c.emitMcpListTools uuid serverLabel mcpTools) := by
  unfold emitMcpListTools
  rcases hopen : c.allocate uuid .mcpListTools with ⟨outputIndex, itemId, c'⟩
  refine .update (.emit (.emit (.emit (.emit (.allocate (.refl c) hopen) ?_) ?_) ?_) ?_) rfl rfl
  all_goals exact fun _ => ⟨rfl, rfl, rfl, rfl⟩

theorem emitCallEnd_grows {c' : Client} (h : Grows c c') (outputIndex : Nat) (itemId serverLabel : Str)
    (call : ExtractedToolCall) (output : Str) (error : Option Str) :
    Grows c (c'.emitCallEnd outputIndex itemId serverLabel call output error) := by
  unfold emitCallEnd
  cases error with
  | none => exact .update (.emit (.emit h fun _ => ⟨rfl, rfl, rfl, rfl⟩) fun _ => ⟨rfl, rfl, rfl, rfl⟩) rfl rfl
  | some err =>
    exact .update (.emit (.emit h fun _ => ⟨rfl, rfl, rfl, rfl⟩) fun _ => ⟨rfl, rfl, rfl, rfl⟩) rfl rfl

theorem emitMcpCall_grows (serverLabel : Str) (call : ExtractedToolCall) (output : Str)
    (error : Option Str) : Grows c (c.emitMcpCall uuid serverLabel call output error) := by
  unfold emitMcpCall
  rcases hopen : c.allocate uuid .mcpCall with ⟨outputIndex, itemId, c'⟩
  refine emitCallEnd_grows c (.emit (.emit (.emit (.emit (.allocate (.refl c) hopen) ?_) ?_) ?_) ?_) ..
  all_goals exact fun _ => ⟨rfl, rfl, rfl, rfl⟩

theorem emitFunctionCall_grows (call : ExtractedToolCall) : Grows c (c.emitFunctionCall uuid call) := by
  unfold emitFunctionCall
  rcases hopen : c.allocate uuid .functionCall with ⟨outputIndex, itemId, c'⟩
  refine .update (.emit (.emit (.emit (.emit (.allocate (.refl c) hopen) ?_) ?_) ?_) ?_) rfl rfl
  all_goals exact fun _ => ⟨rfl, rfl, rfl, rfl⟩

theorem emitReasoning_grows (reasoning : Option Str) : Grows c (c.emitReasoning uuid reasoning) := by
  unfold emitReasoning
  split
  · exact .refl c
  · split
    · exact .refl c
    · exact emitReasoningItem_grows uuid c _

end Client

/-! ### The regular loop -/

section Regular
open Client
variable (ctx : LoopContext)

/-- The stream of a turn. -/
theorem convertAndAccumulateStream_grows (uuid : Nat → Str) (c : Client) (body : List Frame) :
    Grows c (convertAndAccumulateStream uuid c body).1 :=
  convertAndAccumulateStream_keeps uuid c
    (fun c' chunk h => h.trans (processChunk_grows uuid c' chunk)) (.refl c) body

theorem listTools_grows (s : StreamLoop) : Grows s.client (s.listTools ctx).client := by
  unfold StreamLoop.listTools
  split
  · exact .refl _
  · exact emitMcpListTools_grows ..

theorem execute_grows (callTool : List (Str × Str) → CallResult) (calls : List ExtractedToolCall)
    (s : StreamLoop) : Grows s.client (calls.foldl (StreamLoop.execute ctx callTool) s).client := by
  induction calls generalizing s with
  | nil => exact .refl _
  | cons call calls ih => exact (emitMcpCall_grows ..).trans (ih (s.execute ctx callTool call))

theorem handBack_grows (calls : List ExtractedToolCall) (s : StreamLoop) :
    Grows s.client (s.handBack ctx calls).client := by
  have hcalls : ∀ c : Client, Grows c (calls.foldl (Client.emitFunctionCall ctx.uuid) c) := by
    induction calls with
    | nil => exact .refl
    | cons call calls ih => exact fun c => (emitFunctionCall_grows ..).trans (ih _)
  exact hcalls s.client

/-- What the client has been sent by a turn that ends in this way: the final answer ends the response. -/
def Ends (c c' : Client) : LoopEnd → Prop
  | .final => ∃ c'' usage, Grows c c'' ∧ c' = c''.emit (·.emitCompleted usage)
  | _ => Grows c c'

theorem afterAnswer_grows (callTool : List (Str × Str) → CallResult) {s : StreamLoop} {c : Client}
    (h : Grows c s.client) (response : ChatCompletionResponse) :
    (∀ {s'}, s.afterAnswer ctx callTool response = (s', none) → Grows c s'.client) ∧
      ∀ {s' loopEnd}, s.afterAnswer ctx callTool response = (s', some loopEnd) →
        Ends c s'.client loopEnd := by
  unfold StreamLoop.afterAnswer
  dsimp only
  split
  · exact Until.ended ⟨_, _, h.trans (emitReasoning_grows ..), rfl⟩
  · split
    · exact Until.ended h
    · have hcalls := h.trans (execute_grows ctx callTool
        (ctx.mcpToolCalls (extractAllToolCallsFromChat response)) s)
      split
      · exact Until.ended (hcalls.trans (handBack_grows ..))
      · exact Until.goesOn hcalls

/-- **A turn.** -/
theorem turn_grows (world : World (List Frame)) (s : StreamLoop) :
    (∀ {s'}, s.turn ctx world = (s', none) → Grows s.client s'.client) ∧
      ∀ {s' loopEnd}, s.turn ctx world = (s', some loopEnd) → Ends s.client s'.client loopEnd := by
  unfold StreamLoop.turn
  dsimp only
  split
  · exact Until.ended (.refl _)
  · have hlisted := listTools_grows ctx { s with loop := s.loop.iterate }
    split
    · exact Until.ended hlisted
    · next request _ =>
      have hstream := hlisted.trans (convertAndAccumulateStream_grows ctx.uuid
        (StreamLoop.listTools ctx { s with loop := s.loop.iterate }).client
        (world.chat ((StreamLoop.listTools ctx { s with loop := s.loop.iterate }).loop.ask request).asked))
      split
      · next c' halt heq =>
        rw [heq] at hstream
        exact Until.ended hstream
      · next c' response heq =>
        rw [heq] at hstream
        exact afterAnswer_grows ctx world.callTool hstream response

/-- **A run.** -/
theorem loop_grows (world : World (List Frame)) (turns : Nat) (s : StreamLoop) :
    (∀ {s'}, Until.loop (fun s => s.turn ctx world) turns s = (s', none) → Grows s.client s'.client) ∧
      ∀ {s' loopEnd}, Until.loop (fun s => s.turn ctx world) turns s = (s', some loopEnd) →
        Ends s.client s'.client loopEnd := by
  refine Until.loop_rule (P := fun s' : StreamLoop => Grows s.client s'.client)
    (Q := fun (s' : StreamLoop) loopEnd => Ends s.client s'.client loopEnd) (fun hs hturn => ?_) (fun hs hturn => ?_)
    (.refl _) turns
  · exact hs.trans ((turn_grows ctx world _).1 hturn)
  · have hend := (turn_grows ctx world _).2 hturn
    next s₁ s₂ loopEnd =>
      cases loopEnd with
      | final =>
        obtain ⟨c'', usage, hgrows, hcompleted⟩ := hend
        exact ⟨c'', usage, hs.trans hgrows, hcompleted⟩
      | limit => exact hs.trans hend
      | functionCalls => exact hs.trans hend
      | halted halt => exact hs.trans hend

end Regular

end QwenStack.Grpc

namespace QwenStack.Harmony
open Grpc Grpc.Client

/-! ### The Harmony loop -/

namespace Decode
variable {σ : Type} (p : ContentParser σ) (uuid callUuid : Nat → Str) (mcpToolNames : List Str)
  {c : Client} {d : Decode σ} (h : Grows c d.client)
include h

theorem processAnalysis_grows (analysisDelta : Option Str) :
    Grows c (d.processAnalysis uuid analysisDelta).client := by
  unfold processAnalysis
  split
  · exact h
  · split
    · exact h
    · exact h.trans (emitReasoningItem_grows uuid d.client none)

theorem openMessage_grows : Grows c (d.openMessage uuid).1.client := by
  unfold openMessage
  split
  · exact h
  · rcases hopen : d.client.allocate uuid .message with ⟨outputIndex, itemId, c'⟩
    dsimp only
    refine .emit (.allocate h hopen) ?_
    exact fun _ => ⟨rfl, rfl, rfl, rfl⟩

theorem processFinal_grows (finalDelta : Option Str) : Grows c (d.processFinal uuid finalDelta).client := by
  unfold processFinal
  dsimp only
  split
  · exact h
  · have hopened := openMessage_grows uuid h
    rcases hopen : d.openMessage uuid with ⟨d', outputIndex, itemId⟩
    rw [hopen] at hopened
    dsimp only
    split
    · refine .emit hopened ?_
      exact fun _ => ⟨rfl, rfl, rfl, rfl⟩
    · refine .emit (.emit hopened ?_) ?_
      all_goals exact fun _ => ⟨rfl, rfl, rfl, rfl⟩

theorem startCall_grows (callIndex : Nat) (callId : Str) (function : Option FunctionDelta) :
    Grows c (d.startCall uuid mcpToolNames callIndex callId function).client := by
  unfold startCall
  dsimp only
  generalize (if (function.bind (·.name)).getD [] ∈ mcpToolNames then ToolCallMode.mcp
    else ToolCallMode.function) = mode
  rcases hopen : d.client.allocate uuid mode.outputItemType with ⟨outputIndex, itemId, c'⟩
  have hopened := h.allocate hopen
  dsimp only
  refine .ite (.emit (.ite (.emit (.emit hopened ?_) ?_) (.emit hopened ?_)) ?_)
    (.ite (.emit (.emit hopened ?_) ?_) (.emit hopened ?_))
  all_goals first
    | exact fun _ => ⟨rfl, rfl, rfl, rfl⟩
    | cases mode <;> exact fun _ => ⟨rfl, rfl, rfl, rfl⟩

theorem continueCall_grows (callIndex : Nat) (function : Option FunctionDelta) :
    Grows c (d.continueCall callIndex function).client := by
  unfold continueCall
  split
  · exact h
  · next t _ =>
    dsimp only
    split
    · exact h
    · rcases t with ⟨outputIndex, itemId, mode⟩
      dsimp only
      refine .emit h ?_
      cases mode <;> exact fun _ => ⟨rfl, rfl, rfl, rfl⟩

/-- **A delta.** -/
theorem processDelta_grows (delta : HarmonyChannelDelta) :
    Grows c (d.processDelta uuid mcpToolNames delta).client := by
  have htext := processFinal_grows uuid (processAnalysis_grows uuid h delta.analysisDelta) delta.finalDelta
  unfold processDelta processCommentary
  split
  · exact htext
  · split
    · exact startCall_grows uuid mcpToolNames htext _ _ _
    · exact continueCall_grows htext _ _

theorem completeCall_grows (indexed : ToolCall × Nat) : Grows c (d.completeCall indexed).client := by
  unfold completeCall
  dsimp only
  split
  · exact h
  · next t _ =>
    rcases t with ⟨outputIndex, itemId, mode⟩
    dsimp only
    refine .update (.emit (.ite (.emit (.emit h ?_) ?_) (.emit h ?_)) ?_) rfl rfl
    all_goals first
      | exact fun _ => ⟨rfl, rfl, rfl, rfl⟩
      | cases mode <;> exact fun _ => ⟨rfl, rfl, rfl, rfl⟩

theorem completeCalls_grows : Grows c d.completeCalls.client := by
  unfold completeCalls
  generalize (d.accumulatedToolCalls.getD []).zipIdx = calls
  induction calls generalizing d with
  | nil => exact h
  | cons call calls ih => exact ih (completeCall_grows h call)

theorem closeMessage_grows : Grows c d.closeMessage.client := by
  unfold closeMessage
  split
  · exact h
  · dsimp only
    refine .update (.emit (.emit (.emit h ?_) ?_) ?_) rfl rfl
    all_goals exact fun _ => ⟨rfl, rfl, rfl, rfl⟩

/-- **A message of the stream.** -/
theorem processMessage_grows {message : Except Str DecodeMessage} {d' : Decode σ}
    (hmessage : d.processMessage p uuid callUuid mcpToolNames message = .ok d') : Grows c d'.client := by
  unfold processMessage at hmessage
  split at hmessage
  · cases hmessage
  · cases hmessage
    exact h
  · cases hmessage
  · unfold processComplete at hmessage
    split at hmessage
    · cases hmessage
    · cases hmessage
      refine closeMessage_grows (completeCalls_grows ?_)
      exact h
  · split at hmessage
    · cases hmessage
    · dsimp only at hmessage
      split at hmessage
      · cases hmessage
        exact h
      · cases hmessage
        refine processDelta_grows uuid mcpToolNames ?_ _
        exact h

theorem processStream_grows (stream : List (Except Str DecodeMessage)) :
    Grows c (d.processStream p uuid callUuid mcpToolNames stream).1.client := by
  induction stream generalizing d with
  | nil => exact h
  | cons message rest ih =>
    rw [processStream]
    split
    · exact h
    · next hmessage => exact ih (processMessage_grows p uuid callUuid mcpToolNames h hmessage)

theorem extractToolCalls_grows : Grows c (d.extractToolCalls p callUuid).client := by
  unfold extractToolCalls
  split
  · exact h
  · refine completeCalls_grows ?_
    exact h

end Decode

section Loop
variable {σ : Type} (ctx : StreamContext σ)

theorem processDecodeStreamWithToolLookup_grows (mcpToolNames : List Str) (c : Client) (drawn : Nat)
    (stream : List (Except Str DecodeMessage)) :
    Grows c (processDecodeStreamWithToolLookup ctx.parser ctx.newParser ctx.uuid ctx.callUuid
      mcpToolNames c drawn stream).1 := by
  unfold processDecodeStreamWithToolLookup
  split
  · exact .refl c
  · next s _ =>
    have hstream := Decode.processStream_grows ctx.parser ctx.uuid ctx.callUuid mcpToolNames
      (d := { parser := { parser := s, generated := drawn }, client := c }) (.refl c) stream
    dsimp only
    split
    · next heq =>
      rw [heq] at hstream
      exact hstream
    · next heq =>
      rw [heq] at hstream
      exact Decode.extractToolCalls_grows ctx.parser ctx.callUuid hstream

/-- **An answer.** -/
theorem read_grows (s : McpStream) (mcpToolNames : List Str) (result : ExecutionResult) :
    Grows s.client (s.read ctx mcpToolNames result).1.client := by
  unfold McpStream.read processResponsesIterationStream
  cases result with
  | single stream => exact processDecodeStreamWithToolLookup_grows ctx _ _ _ _
  | dual prefill decode =>
    dsimp only
    split
    · exact .refl _
    · exact processDecodeStreamWithToolLookup_grows ctx _ _ _ _
  | embedding => exact .refl _

/-- What the client has been sent when a response ends in this way: a last event, or an error. -/
def Ends (c c' : Client) : ResponseEnd → Prop
  | .error => ∃ c'' message code, Grows c c'' ∧ c' = c''.emit (·.emitError message (some code))
  | _ => ∃ c'' usage, Grows c c'' ∧ c' = c''.emit (·.emitCompleted (some usage))

theorem Ends.trans {c c' c'' : Client} (h : Grows c c') {responseEnd : ResponseEnd}
    (h' : Ends c' c'' responseEnd) : Ends c c'' responseEnd := by
  cases responseEnd with
  | error =>
    obtain ⟨c₁, message, code, hgrows, heq⟩ := h'
    exact ⟨c₁, message, code, h.trans hgrows, heq⟩
  | _ =>
    obtain ⟨c₁, usage, hgrows, heq⟩ := h'
    exact ⟨c₁, usage, h.trans hgrows, heq⟩

theorem afterAnswer_grows (callTool : List (Str × Option Value) → ToolAnswer) (s : McpStream)
    (result : ResponsesIterationResult) :
    (∀ {s'}, s.afterAnswer ctx callTool result = (s', none) → Grows s.client s'.client) ∧
      ∀ {s' responseEnd}, s.afterAnswer ctx callTool result = (s', some responseEnd) →
        Ends s.client s'.client responseEnd := by
  unfold McpStream.afterAnswer
  split
  · exact Until.ended ⟨_, _, .refl _, rfl⟩
  · split
    · exact Until.ended ⟨_, _, .refl _, rfl⟩
    · dsimp only
      split
      · exact Until.ended ⟨_, _, _, .refl _, rfl⟩
      · next x _ =>
        have hrecord : Grows s.client (s.record x).client := by
          unfold McpStream.record
          split
          · exact .refl _
          · exact .update (.refl _) rfl rfl
        split
        · exact Until.ended ⟨_, _, hrecord, rfl⟩
        · exact Until.goesOn hrecord

/-- **A turn.** -/
theorem turn_grows (backend : Backend (Except ErrorResponse ExecutionResult)) (s : McpStream) :
    (∀ {s'}, s.turn ctx backend = (s', none) → Grows s.client s'.client) ∧
      ∀ {s' responseEnd}, s.turn ctx backend = (s', some responseEnd) →
        Ends s.client s'.client responseEnd := by
  unfold McpStream.turn
  dsimp only
  split
  · exact Until.ended ⟨_, _, _, .refl _, rfl⟩
  · split
    · exact Until.ended ⟨_, _, _, .refl _, rfl⟩
    · next result _ =>
      have hread := read_grows ctx { s with loop := s.loop.iterate.ask }
        (buildMcpToolNamesSet (s.loop.currentRequest.tools.getD [])) result
      split
      · next heq =>
        rw [show (s.loop.iterate.ask).currentRequest = s.loop.currentRequest from rfl] at heq
        rw [heq] at hread
        exact Until.ended ⟨_, _, _, hread, rfl⟩
      · next s₁ result heq =>
        rw [show (s.loop.iterate.ask).currentRequest = s.loop.currentRequest from rfl] at heq
        rw [heq] at hread
        have hanswer := afterAnswer_grows ctx backend.callTool s₁ result
        exact ⟨fun heq => hread.trans (hanswer.1 heq), fun heq => (hanswer.2 heq).trans hread⟩

/-- **A run.** -/
theorem loop_grows (backend : Backend (Except ErrorResponse ExecutionResult)) (turns : Nat)
    (s : McpStream) :
    (∀ {s'}, Until.loop (fun s => s.turn ctx backend) turns s = (s', none) → Grows s.client s'.client) ∧
    ∀ {s' responseEnd}, Until.loop (fun s => s.turn ctx backend) turns s = (s', some responseEnd) →
      Ends s.client s'.client responseEnd :=
  Until.loop_rule (P := fun s' : McpStream => Grows s.client s'.client)
    (Q := fun (s' : McpStream) responseEnd => Ends s.client s'.client responseEnd)
    (fun hs hturn => hs.trans ((turn_grows ctx backend _).1 hturn))
    (fun hs hturn => ((turn_grows ctx backend _).2 hturn).trans hs) (.refl _) turns

end Loop

end QwenStack.Harmony
