import QwenStack.Grpc.Chunking

/-!
# Responses over chat — what a streamed response is continued from

A response that is completed is to be stored once, under the id that the client knows it by, and with the
call ids that the client was shown: a later request names both.

What is stored is not what is sent.  The stream of a chat is stored as it adds up, under the id of the chat
and with empty call ids; the tool loop stores nothing; and a Harmony response is stored from the items of
its emitter, but at one exit only if it has MCP tools, and a function call is opened under another id than
it is closed with.  `continuable_iff` says when this does not show.
-/

namespace QwenStack.Grpc

open List

/-- The call id of a function call that is shown. -/
def Item.callId : Item → Option Str
  | .functionCall _ _ callId _ _ _ => some callId
  | _ => none

/-- The call id of a function call that is stored. -/
def OutputItem.callId : OutputItem → Option Str
  | .functionToolCall _ callId _ _ _ _ => some callId
  | _ => none

def EventBody.callIds : EventBody → List Str
  | .outputItemAdded _ item => item.callId.toList
  | .outputItemDone _ item => item.callId.toList
  | .completed response => response.output.filterMap Item.callId
  | _ => []

namespace Sent

/-- The call ids that a block shows. -/
def callIds : Sent → List Str
  | .event e => e.body.callIds
  | _ => []

/-- The id that a response is created with. -/
def createdId : Sent → Option Str
  | .event ⟨_, .created responseId _ _⟩ => some responseId
  | _ => none

/-- The response of `response.completed`. -/
def completed : Sent → Option CompletedResponse
  | .event ⟨_, .completed response⟩ => some response
  | _ => none

end Sent

/-- A response that is completed is stored once, as the client knows it. -/
def Continuable (sent : List Sent) (persisted : List ResponsesResponse) : Prop :=
  ∀ r ∈ sent.filterMap Sent.completed, ∃ stored, persisted = [stored] ∧ stored.id = r.id ∧
    (∀ id ∈ sent.filterMap Sent.createdId, stored.id = id) ∧
    ∀ callId, callId ∈ stored.output.filterMap OutputItem.callId ↔ callId ∈ sent.flatMap Sent.callIds

theorem continuable_of_not_completed {sent : List Sent} {persisted : List ResponsesResponse}
    (h : sent.filterMap Sent.completed = []) : Continuable sent persisted := by
  intro r hr
  rw [h] at hr
  cases hr

/-! ### What ordinary events do not show -/

theorem completed_ordinary {event : Event} (h : event.body.isOrdinary = true) :
    Sent.completed (.event event) = none := by
  obtain ⟨number, body⟩ := event
  cases body with
  | completed response => cases h
  | _ => rfl

theorem createdId_ordinary {event : Event} (h : event.body.isOrdinary = true) :
    Sent.createdId (.event event) = none := by
  obtain ⟨number, body⟩ := event
  cases body with
  | created responseId createdAt model => cases h
  | _ => rfl

/-- A response that is under way: it has been created, under its id, and is not completed. -/
structure Client.UnderWay (responseId : Str) (c : Client) : Prop where
  known : c.emitter.responseId = responseId
  completed : c.sent.filterMap Sent.completed = []
  createdId : c.sent.filterMap Sent.createdId = [responseId]

theorem Client.Grows.underWay {responseId : Str} {c c' : Client} (h : Grows c c')
    (hc : c.UnderWay responseId) : c'.UnderWay responseId := by
  obtain ⟨events, hsent, -, -, hordinary⟩ := h.events
  have hcompleted : (events.map Sent.event).filterMap Sent.completed = [] := by
    rw [filterMap_eq_nil_iff]
    simp only [mem_map]
    rintro _ ⟨event, hevent, rfl⟩
    exact completed_ordinary (hordinary event hevent)
  have hcreated : (events.map Sent.event).filterMap Sent.createdId = [] := by
    rw [filterMap_eq_nil_iff]
    simp only [mem_map]
    rintro _ ⟨event, hevent, rfl⟩
    exact createdId_ordinary (hordinary event hevent)
  constructor
  · exact h.responseId.trans hc.known
  · rw [hsent, filterMap_append, hc.completed, hcompleted, append_nil]
  · rw [hsent, filterMap_append, hc.createdId, hcreated, append_nil]

theorem begin_underWay (uuid : Nat → Str) (opening : Opening) :
    (Client.begin (opening.emitter uuid)).UnderWay opening.responseId :=
  ⟨rfl, rfl, rfl⟩

namespace Client
variable {responseId : Str} {c : Client} (hc : c.UnderWay responseId) (usage : Option Value)
include hc

/-- A block that is neither. -/
theorem UnderWay.send (block : Sent) (hcompleted : block.completed = none)
    (hcreated : block.createdId = none) : (c.send block).UnderWay responseId := by
  refine ⟨hc.known, ?_, ?_⟩
  · rw [Client.send, filterMap_append, hc.completed, filterMap_cons_none hcompleted]
    rfl
  · rw [Client.send, filterMap_append, hc.createdId, filterMap_cons_none hcreated]
    rfl

/-- The response that a client under way is completed with. -/
theorem UnderWay.completed_emit : (c.emit (·.emitCompleted usage)).sent.filterMap Sent.completed =
      [⟨responseId, c.emitter.createdAt, c.emitter.model, c.emitter.output, usage,
        c.emitter.originalRequest⟩] := by
  rw [emit, filterMap_append, hc.completed, ← hc.known]
  rfl

theorem UnderWay.createdId_emit :
    (c.emit (·.emitCompleted usage)).sent.filterMap Sent.createdId = [responseId] := by
  rw [emit, filterMap_append, hc.createdId]
  rfl

/-- **When a client that is then completed can go on.** -/
theorem UnderWay.completes_iff (rest : List Sent) (hcompleted : rest.filterMap Sent.completed = [])
    (hcreated : rest.filterMap Sent.createdId = []) (persisted : List ResponsesResponse) :
    Continuable ((c.emit (·.emitCompleted usage)).sent ++ rest) persisted ↔
      ∃ stored, persisted = [stored] ∧ stored.id = responseId ∧
        ∀ callId, callId ∈ stored.output.filterMap OutputItem.callId ↔
          callId ∈ ((c.emit (·.emitCompleted usage)).sent ++ rest).flatMap Sent.callIds := by
  unfold Continuable
  rw [filterMap_append, hc.completed_emit, hcompleted, filterMap_append, hc.createdId_emit, hcreated]
  simp only [append_nil, mem_singleton, forall_eq]
  constructor
  · rintro ⟨stored, hstored, hid, -, hcalls⟩
    exact ⟨stored, hstored, hid, hcalls⟩
  · rintro ⟨stored, hstored, hid, hcalls⟩
    exact ⟨stored, hstored, hid, hid, hcalls⟩

end Client

/-! ### Clients that were shown no function call -/

/-- None of the items is a function call. -/
def Emitter.Callless (e : Emitter) : Prop := ∀ item ∈ e.outputItems, item.itemData.bind Item.callId = none

theorem callless_updateItem {items : List OutputItemState}
    (h : ∀ item ∈ items, item.itemData.bind Item.callId = none) {f : OutputItemState → OutputItemState}
    (hf : ∀ item, item.itemData.bind Item.callId = none → (f item).itemData.bind Item.callId = none)
    (outputIndex : Nat) : ∀ item ∈ updateItem outputIndex f items, item.itemData.bind Item.callId = none := by
  induction items with
  | nil => exact h
  | cons item items ih =>
    rw [forall_mem_cons] at h
    rw [updateItem]
    split
    · exact List.forall_mem_cons.mpr ⟨hf item h.1, h.2⟩
    · exact List.forall_mem_cons.mpr ⟨h.1, ih h.2⟩

namespace Emitter
variable {e : Emitter} (h : e.Callless)
include h

theorem Callless.store {item : Item} (hitem : item.callId = none) (outputIndex : Nat) :
    (e.storeOutputItemData outputIndex item).Callless :=
  callless_updateItem h (f := fun state => { state with itemData := some item }) (fun _ _ => hitem)
    outputIndex

theorem Callless.complete (outputIndex : Nat) : (e.completeOutputItem outputIndex).Callless :=
  callless_updateItem h (f := fun state => { state with completed := true }) (fun _ hstate => hstate)
    outputIndex

/-- No call is shown with the end of the response. -/
theorem Callless.output : e.output.filterMap Item.callId = [] := by
  rw [filterMap_eq_nil_iff]
  intro item hitem
  unfold Emitter.output at hitem
  split at hitem
  · obtain rfl := List.mem_singleton.mp hitem
    rfl
  · obtain ⟨state, hstate, hdata⟩ := List.mem_filterMap.mp hitem
    have hcallless := h state hstate
    split at hdata
    · rw [hdata] at hcallless
      exact hcallless
    · cases hdata

end Emitter

namespace Client

/-- A builder of an event without a call. -/
def Silent (builder : Emitter → Event × Emitter) : Prop :=
  ∀ e : Emitter, e.Callless → (builder e).1.body.callIds = [] ∧ (builder e).2.Callless

/-- The client was shown no function call, and there is none to be shown. -/
structure Callless (c : Client) : Prop where
  sent : c.sent.flatMap Sent.callIds = []
  emitter : c.emitter.Callless

theorem silent_added {item : Item} (hitem : item.callId = none) (outputIndex : Nat) :
    Silent (·.emitOutputItemAdded outputIndex item) := by
  intro e he
  refine ⟨?_, he⟩
  change item.callId.toList = []
  rw [hitem]
  rfl

theorem silent_done {item : Item} (hitem : item.callId = none) (outputIndex : Nat) :
    Silent (·.emitOutputItemDone outputIndex item) := by
  intro e he
  refine ⟨?_, Emitter.Callless.store he hitem outputIndex⟩
  change item.callId.toList = []
  rw [hitem]
  rfl

namespace Callless
variable {c : Client}

variable (h : Callless c)
include h

theorem emit {builder : Emitter → Event × Emitter} (hbuilder : Silent builder) :
    Callless (c.emit builder) := by
  obtain ⟨hevent, hemitter⟩ := hbuilder c.emitter h.emitter
  refine ⟨?_, hemitter⟩
  rw [Client.emit, flatMap_append, h.sent, nil_append, flatMap_singleton]
  exact hevent

theorem update {f : Emitter → Emitter} (hf : (f c.emitter).Callless) : Callless (c.update f) :=
  ⟨h.sent, hf⟩

theorem send {block : Sent} (hblock : block.callIds = []) : Callless (c.send block) := by
  refine ⟨?_, h.emitter⟩
  rw [Client.send, flatMap_append, h.sent, nil_append, flatMap_singleton]
  exact hblock

theorem complete (outputIndex : Nat) : Callless (c.update (·.completeOutputItem outputIndex)) :=
  h.update (Emitter.Callless.complete h.emitter outputIndex)

theorem allocate {uuid : Nat → Str} {itemType : OutputItemType} {outputIndex : Nat} {itemId : Str}
    {c' : Client} (hopen : c.allocate uuid itemType = (outputIndex, itemId, c')) : Callless c' := by
  obtain rfl : (c.allocate uuid itemType).2.2 = c' := by rw [hopen]
  refine ⟨h.sent, fun item hitem => ?_⟩
  rcases List.mem_append.mp hitem with hitem | hitem
  · exact h.emitter item hitem
  · obtain rfl := List.mem_singleton.mp hitem
    rfl

/-- The end of a response. -/
theorem emitCompleted (usage : Option Value) : Callless (c.emit (·.emitCompleted usage)) :=
  h.emit fun _ he => ⟨Emitter.Callless.output he, he⟩

variable (uuid : Nat → Str)

theorem emitReasoningItem (content : Option Str) : Callless (c.emitReasoningItem uuid content) := by
  unfold Client.emitReasoningItem
  rcases hopen : c.allocate uuid .reasoning with ⟨outputIndex, itemId, c'⟩
  exact .complete (.emit (.emit (h.allocate hopen) (silent_added rfl outputIndex))
    (silent_done rfl outputIndex)) outputIndex

theorem openMessage : Callless (c.openMessage uuid) := by
  unfold Client.openMessage
  split
  · exact h
  · rcases hopen : c.allocate uuid .message with ⟨outputIndex, itemId, c'⟩
    have hadded := (h.allocate hopen).emit
      (silent_added (show (Item.message itemId none).callId = none from rfl) outputIndex)
    exact hadded.update hadded.emitter

theorem processContent (content : Str) : Callless (c.processContent uuid content).1 := by
  have hopened := h.openMessage uuid
  unfold Client.processContent
  dsimp only
  split
  · dsimp only
    refine .emit ?_ ?_
    · split
      · exact hopened
      · exact hopened.emit fun _ he => ⟨rfl, he⟩
    · exact fun _ he => ⟨rfl, he⟩
  · exact hopened

theorem finishMessage : Callless c.finishMessage.1 := by
  unfold Client.finishMessage
  split
  · next outputIndex itemId _ _ =>
    have htext : Callless (if c.emitter.hasEmittedContentPartAdded = true then
        (c.emit (·.emitTextDone outputIndex itemId 0)).emit (·.emitContentPartDone outputIndex itemId 0)
        else c) := by
      split
      · exact (h.emit fun _ he => ⟨rfl, he⟩).emit fun _ he => ⟨rfl, he⟩
      · exact h
    generalize (if c.emitter.hasEmittedContentPartAdded = true then
      (c.emit (·.emitTextDone outputIndex itemId 0)).emit (·.emitContentPartDone outputIndex itemId 0)
      else c) = c' at htext ⊢
    refine .complete ?_ outputIndex
    split
    · exact htext.emit (silent_done
        (show (Item.message itemId (some c'.emitter.accumulatedText)).callId = none from rfl) outputIndex)
    · exact htext
  · exact h

/-- **A chunk.** -/
theorem processChunk (chunk : ChatChunk) : Callless (c.processChunk uuid chunk).1 :=
  processChunk_keeps uuid c (fun _ content h => h.processContent uuid content)
    (fun _ h => h.finishMessage) h chunk

end Callless

end Client

open Client

/-! ### One chat -/

/-- The first id of a chunk that is not empty. -/
def firstId : List ChatChunk → Str
  | [] => []
  | chunk :: rest => if chunk.id = [] then firstId rest else chunk.id

namespace StreamingResponseAccumulator

theorem processToolCalls_responseId (deltas : List Harmony.ToolCallDelta)
    (acc : StreamingResponseAccumulator) :
    (deltas.foldl processToolCall acc).responseId = acc.responseId := by
  induction deltas generalizing acc with
  | nil => rfl
  | cons delta deltas ih => exact ih (acc.processToolCall delta)

/-- A delta leaves at least one call. -/
theorem processToolCalls_eq_nil (deltas : List Harmony.ToolCallDelta)
    (acc : StreamingResponseAccumulator) :
    (deltas.foldl processToolCall acc).toolCalls = [] ↔ acc.toolCalls = [] ∧ deltas = [] := by
  induction deltas generalizing acc with
  | nil => simp
  | cons delta deltas ih =>
    have hpadded : (acc.processToolCall delta).toolCalls ≠ [] := by
      intro hnil
      have hlength := congrArg List.length hnil
      simp only [processToolCall, padCalls, length_modify, length_append,
        length_replicate, length_nil] at hlength
      omega
    rw [foldl_cons, ih]
    simp [hpadded]

theorem processChunk_responseId (acc : StreamingResponseAccumulator) (chunk : ChatChunk) :
    (acc.processChunk chunk).responseId = if acc.responseId = [] then chunk.id else acc.responseId := by
  unfold processChunk
  cases chunk.choices with
  | nil => split <;> rfl
  | cons choice choices =>
    unfold processChoice
    simp only [processToolCalls_responseId]
    split <;> rfl

theorem processChunk_eq_nil (acc : StreamingResponseAccumulator) (chunk : ChatChunk) :
    (acc.processChunk chunk).toolCalls = [] ↔ acc.toolCalls = [] ∧ chunkDeltas chunk = [] := by
  unfold processChunk chunkDeltas
  cases chunk.choices with
  | nil =>
    split
    · simp
    · simp
  | cons choice choices =>
    unfold processChoice
    simp only [processToolCalls_eq_nil]
    split
    · simp
    · simp

theorem processChunks_responseId (chunks : List ChatChunk) (acc : StreamingResponseAccumulator) :
    (chunks.foldl processChunk acc).responseId =
      if acc.responseId = [] then firstId chunks else acc.responseId := by
  induction chunks generalizing acc with
  | nil =>
    split
    · next hempty => exact hempty
    · rfl
  | cons chunk chunks ih =>
    rw [foldl_cons, ih, processChunk_responseId, firstId]
    by_cases hempty : acc.responseId = []
    · simp [hempty]
    · simp [hempty]

theorem processChunks_eq_nil (chunks : List ChatChunk) (acc : StreamingResponseAccumulator) :
    (chunks.foldl processChunk acc).toolCalls = [] ↔ acc.toolCalls = [] ∧ callDeltas chunks = [] := by
  induction chunks generalizing acc with
  | nil => simp [callDeltas]
  | cons chunk chunks ih =>
    rw [foldl_cons, ih, processChunk_eq_nil, and_assoc, callDeltas, callDeltas,
      flatMap_cons, append_eq_nil_iff]

/-- The calls are stored with an empty call id. -/
theorem finalize_callIds (acc : StreamingResponseAccumulator) :
    acc.finalize.output.filterMap OutputItem.callId = acc.toolCalls.map fun _ => [] := by
  have hmessage : (messageItems acc.responseId (some acc.contentBuffer)).filterMap OutputItem.callId = [] := by
    simp only [messageItems]
    split <;> rfl
  have hreasoning :
      (reasoningItems acc.responseId (some acc.reasoningBuffer)).filterMap OutputItem.callId = [] := by
    simp only [reasoningItems]
    split <;> rfl
  unfold finalize
  rw [filterMap_append, filterMap_append, hmessage, hreasoning, filterMap_map]
  simp only [nil_append]
  exact congrFun filterMap_eq_map acc.toolCalls

end StreamingResponseAccumulator

/-- What a chat adds up to is stored as it was shown. -/
def ChatKept (responseId : Str) (body : List Frame) : Prop :=
  stopsAfterText false (chunksOf body) = true → breakOf body = none →
    firstId (chunksOf body) = responseId ∧ callDeltas (chunksOf body) = []

/-- The stream adds up to what is read of it. -/
theorem transform_accumulates (uuid : Nat → Str) (body : List Frame) {s : Transform} (h : s.client.Sound)
    (hstops : stopsAfterText s.client.opened (chunksOf body) = true) :
    (Until.runUntil (Transform.step uuid) s body).1.accumulator =
      (chunksOf body).foldl StreamingResponseAccumulator.processChunk s.accumulator := by
  induction body generalizing s with
  | nil => rfl
  | cons frame rest ih =>
    cases frame with
    | chunk chunk =>
      obtain ⟨hsound, hopened, hhalt⟩ := processChunk_spec uuid h chunk
      rw [chunksOf, stopsAfterText, Bool.and_eq_true] at hstops
      rw [if_pos hstops.1] at hhalt
      have hstep := Transform.step_chunk uuid s chunk
      rw [hhalt] at hstep
      rw [Until.runUntil_cons_none rest hstep, chunksOf, foldl_cons]
      refine ih (s := s.afterChunk uuid chunk) hsound ?_
      rw [show (s.afterChunk uuid chunk).client.opened = _ from hopened]
      exact hstops.2
    | error event => exact ih (s := { s with client := s.client.send (.passed event true) }) h hstops
    | other event => exact ih (s := { s with client := s.client.send (.passed event false) }) h hstops
    | done => rfl
    | broken e => rfl

/-- What the client was shown while the stream was turned. -/
theorem transform_shown (uuid : Nat → Str) (body : List Frame) {responseId : Str} {s : Transform}
    (hs : s.client.UnderWay responseId ∧ s.client.Callless) :
    (Until.runUntil (Transform.step uuid) s body).1.client.UnderWay responseId ∧
      (Until.runUntil (Transform.step uuid) s body).1.client.Callless := by
  refine Until.runUntil_keeps (P := fun s : Transform => s.client.UnderWay responseId ∧ s.client.Callless)
    (fun s frame _ ⟨hunder, hcallless⟩ => ?_) hs
  cases frame with
  | chunk chunk =>
    rw [Transform.step_chunk]
    exact ⟨(processChunk_grows uuid s.client chunk).underWay hunder, hcallless.processChunk uuid chunk⟩
  | error event => exact ⟨hunder.send _ rfl rfl, hcallless.send rfl⟩
  | other event => exact ⟨hunder.send _ rfl rfl, hcallless.send rfl⟩
  | done => exact ⟨hunder, hcallless⟩
  | broken e => exact ⟨hunder, hcallless⟩

theorem begin_callless (uuid : Nat → Str) (opening : Opening) :
    (Client.begin (opening.emitter uuid)).Callless :=
  ⟨rfl, fun _ hitem => absurd hitem not_mem_nil⟩

/-- A stream that is not completed has nothing to be kept. -/
theorem Streamed.finish_of_halt {kind : Str} {responseId : Str} {s : Streamed} {halt : Halt}
    (h : s.client.UnderWay responseId) (persisted : List ResponsesResponse) :
    Continuable (Streamed.finish kind (s, some halt)).client.sent persisted := by
  refine continuable_of_not_completed ?_
  cases halt with
  | failed message =>
    exact ((h.send (.failure message kind) rfl rfl).send .done rfl rfl).completed
  | panic => exact h.completed

/-- What is stored of a chat, against what the client was shown. -/
theorem continuable_completed {kind responseId : Str} {c : Client} (hc : c.UnderWay responseId)
    (hcallless : c.Callless) (usage : Option Value) (stored : ResponsesResponse) :
    Continuable (Streamed.finish kind
        ({ client := c.emit (·.emitCompleted usage), persisted := [stored] }, none)).client.sent [stored] ↔
      stored.id = responseId ∧ stored.output.filterMap OutputItem.callId = [] := by
  refine (hc.completes_iff usage [.done] rfl rfl [stored]).trans ?_
  have hshown : ((c.emit (·.emitCompleted usage)).sent ++ [Sent.done]).flatMap Sent.callIds = [] := by
    rw [flatMap_append, (hcallless.emitCompleted usage).sent]
    rfl
  rw [hshown]
  simp only [List.cons.injEq, and_true, not_mem_nil, iff_false, ← eq_nil_iff_forall_not_mem]
  constructor
  · rintro ⟨stored', rfl, hid, hcalls⟩
    exact ⟨hid, hcalls⟩
  · rintro ⟨hid, hcalls⟩
    exact ⟨stored, rfl, hid, hcalls⟩

/-- **One chat.** -/
theorem continuable_chat (uuid : Nat → Str) (opening : Opening) (body : List Frame) :
    Continuable (convertChatStreamToResponsesStream uuid (opening.emitter uuid) body).client.sent
        (convertChatStreamToResponsesStream uuid (opening.emitter uuid) body).persisted ↔
      ChatKept opening.responseId body := by
  obtain ⟨-, hread, hpanic⟩ := transform_run uuid body
    (s := { client := .begin (opening.emitter uuid) }) rfl (begin_not_done uuid opening)
  obtain ⟨hunder, hcallless⟩ := transform_shown uuid body
    (s := { client := .begin (opening.emitter uuid) })
    ⟨begin_underWay uuid opening, begin_callless uuid opening⟩
  have hadds := transform_accumulates uuid body (s := { client := .begin (opening.emitter uuid) }) rfl
  unfold convertChatStreamToResponsesStream processAndTransformSseStream ChatKept
  rcases heq : Until.runUntil (Transform.step uuid) { client := .begin (opening.emitter uuid) } body
    with ⟨s, ending⟩
  rw [heq] at hread hpanic hunder hcallless hadds
  cases hstops : stopsAfterText false (chunksOf body) with
  | true =>
    obtain ⟨hbreak, -⟩ := hread hstops
    have hcompleted : ending.join = none → (Continuable (Streamed.finish "stream_error".toList
          ({ client := s.client.emit (·.emitCompleted (s.accumulator.usage.map (usageJson true))),
             persisted := [s.accumulator.finalize] }, none)).client.sent [s.accumulator.finalize] ↔
        (true = true → breakOf body = none →
          firstId (chunksOf body) = opening.responseId ∧ callDeltas (chunksOf body) = [])) := by
      intro hnone
      rw [continuable_completed hunder hcallless, ← hbreak, hnone,
        StreamingResponseAccumulator.finalize_callIds, map_eq_nil_iff, hadds hstops,
        StreamingResponseAccumulator.processChunks_eq_nil]
      rw [show ((chunksOf body).foldl StreamingResponseAccumulator.processChunk {}).finalize.id =
        ((chunksOf body).foldl StreamingResponseAccumulator.processChunk {}).responseId from rfl,
        StreamingResponseAccumulator.processChunks_responseId]
      simp
    rcases ending with _ | _ | halt
    · exact hcompleted rfl
    · exact hcompleted rfl
    · refine iff_of_true (Streamed.finish_of_halt hunder _) fun _ hnone => ?_
      rw [← hbreak] at hnone
      cases hnone
  | false =>
    obtain rfl : ending = some (some .panic) := by
      have hjoin := hpanic hstops
      rcases ending with _ | _ | halt
      · cases hjoin
      · cases hjoin
      · exact congrArg some hjoin
    exact iff_of_true (Streamed.finish_of_halt hunder _) fun htrue => by cases htrue

/-! ### The tool loop -/

namespace StreamLoop
variable (ctx : LoopContext) (world : World (List Frame)) (s : StreamLoop)

/-- What the model answers next is read to its end, and calls nothing. -/
def Answers : Prop :=
  ∃ request, s.nextRequest ctx = some request ∧
    stopsAfterText s.client.opened (chunksOf (world.chat (s.loop.asked ++ [request]))) = true ∧
    breakOf (world.chat (s.loop.asked ++ [request])) = none ∧
    extractAllToolCallsFromChat (answerOf (world.chat (s.loop.asked ++ [request]))) = []

/-- The loop ends with a final answer if nothing is called. -/
theorem afterAnswer_final (callTool : List (Str × Str) → CallResult) (response : ChatCompletionResponse) :
    (s.afterAnswer ctx callTool response).2 = some .final ↔ extractAllToolCallsFromChat response = [] := by
  unfold afterAnswer
  by_cases hcalls : extractAllToolCallsFromChat response = []
  · rw [if_pos hcalls]
    exact iff_of_true rfl hcalls
  · rw [if_neg hcalls]
    refine iff_of_false (fun hfinal => ?_) hcalls
    split at hfinal
    · cases hfinal
    · split at hfinal
      · cases hfinal
      · cases hfinal

/-- **A turn**: the response is completed if the model answers without a call. -/
theorem turn_final {s s' : StreamLoop} (h : s.client.Sound) {result : Option LoopEnd}
    (hturn : s.turn ctx world = (s', result)) : result = some .final ↔ s.Answers ctx world := by
  obtain ⟨hnone, -, message, rfl⟩ | ⟨request, hrequest, hcases⟩ := turn_cases ctx world h hturn
  · refine iff_of_false (fun heq => by cases heq) fun ⟨request, hrequest, _⟩ => ?_
    rw [hnone] at hrequest
    cases hrequest
  · have hanswers : s.Answers ctx world ↔
        stopsAfterText s.client.opened (chunksOf (world.chat (s.loop.asked ++ [request]))) = true ∧
        breakOf (world.chat (s.loop.asked ++ [request])) = none ∧
        extractAllToolCallsFromChat (answerOf (world.chat (s.loop.asked ++ [request]))) = [] := by
      simp only [Answers, hrequest, Option.some.injEq, exists_eq_left']
    rw [hanswers]
    obtain ⟨hstops, -, rfl⟩ | ⟨hstops, ⟨e, hbreak, -, rfl⟩ | ⟨hbreak, client, listed, -, hanswer⟩⟩ := hcases
    · rw [hstops]
      exact iff_of_false (fun heq => by cases heq) fun h => by cases h.1
    · rw [hbreak]
      exact iff_of_false (fun heq => by cases heq) fun h => by cases h.2.1
    · rw [hstops, hbreak, ← afterAnswer_final ctx _ world.callTool, hanswer]
      simp

end StreamLoop

/-- What is sent at another end of the loop completes nothing. -/
theorem continuable_loopEnd {responseId : Str} {c c' : Client} (hc : c.UnderWay responseId)
    {loopEnd : LoopEnd} (h : Ends c c' loopEnd) :
    Continuable (Streamed.finish "tool_loop_error".toList ({ client := c' }, loopEnd.halt)).client.sent [] ↔
      loopEnd ≠ .final := by
  cases loopEnd with
  | final =>
    obtain ⟨c'', usage, hgrows, rfl⟩ := h
    refine iff_of_false (fun hcontinuable => ?_) (not_not_intro rfl)
    obtain ⟨stored, hstored, -⟩ := ((hgrows.underWay hc).completes_iff usage [.done] rfl rfl []).mp
      hcontinuable
    cases hstored
  | limit =>
    refine iff_of_true (continuable_of_not_completed ?_) LoopEnd.noConfusion
    exact ((Grows.underWay h hc).send .done rfl rfl).completed
  | functionCalls =>
    refine iff_of_true (continuable_of_not_completed ?_) LoopEnd.noConfusion
    exact ((Grows.underWay h hc).send .done rfl rfl).completed
  | halted halt =>
    refine iff_of_true ?_ LoopEnd.noConfusion
    exact Streamed.finish_of_halt (s := { client := c' }) (Grows.underWay h hc) []

/-- **The tool loop**: nothing is stored, so the response must not be completed. -/
theorem continuable_toolLoop (ctx : LoopContext) (world : World (List Frame)) (turns : Nat)
    (opening : Opening) (modifiedRequest : ResponsesRequest) :
    ∃ streamed, executeToolLoopStreaming ctx world (defaultMaxIterations + 1 + turns)
        (opening.emitter ctx.uuid) modifiedRequest = some streamed ∧
      (Continuable streamed.client.sent streamed.persisted ↔
        ∀ k s, executeToolLoopStreamingInternal ctx world k (opening.emitter ctx.uuid) modifiedRequest =
          (s, none) → ¬ s.Answers ctx world) := by
  obtain ⟨s, loopEnd, hrun⟩ := toolLoop_ends ctx world turns opening modifiedRequest
  refine ⟨_, by rw [executeToolLoopStreaming, hrun], ?_⟩
  have hends := (loop_grows ctx world (defaultMaxIterations + 1 + turns)
    (StreamLoop.start ctx (opening.emitter ctx.uuid) modifiedRequest)).2 hrun
  have hpersisted : (Streamed.finish "tool_loop_error".toList
      ({ client := s.client }, loopEnd.halt)).persisted = [] := by
    rcases loopEnd.halt with _ | _ | _
    all_goals rfl
  rw [hpersisted]
  refine (continuable_loopEnd (begin_underWay ctx.uuid opening) hends).trans ?_
  refine Until.loop_iff (P := fun s : StreamLoop => s.client.Sound) (F := fun s => ¬ s.Answers ctx world)
    (fun h hturn => ?_) (fun h hturn => ?_) rfl hrun
  · refine ⟨((StreamLoop.turn_concludes ctx world h).1 hturn).1.1, ?_⟩
    rw [← StreamLoop.turn_final ctx world h hturn]
    intro heq
    cases heq
  · rw [← StreamLoop.turn_final ctx world h hturn, ne_eq, Option.some.injEq]

end QwenStack.Grpc
