import QwenStack.Grpc.Numbering

/-!
# Responses over chat — how a stream ends

A response that is streamed is to end with one terminal block, that it is completed or an error, and then
`[DONE]`.  What stands in the way is the emitter, which panics at the end of a message that was never
opened; an error of the chat, which is passed on before the response is completed; and two ways out of the
tool loop, at the limit and with calls for the caller, which send nothing.

All of it is decided by what the model answers.  For one chat that is its stream (`stopsAfterText`,
`passesError`), for the tool loop the stream of each turn (`StreamLoop.Concludes`): `terminated_iff`.
-/

namespace QwenStack.Grpc

open List

/-- A block that ends a response: it is completed, or an error. -/
def Sent.isTerminal : Sent → Bool
  | .event ⟨_, .completed _⟩ => true
  | .event ⟨_, .error ..⟩ => true
  | .event _ => false
  | .failure .. => true
  | .passed _ isError => isError
  | .done => false

/-- A block of the middle of a response. -/
def Sent.isInner (block : Sent) : Prop := block.isTerminal = false ∧ block ≠ .done

/-- One terminal block, then `[DONE]`, and nothing after it. -/
def Terminated (sent : List Sent) : Prop :=
  ∃ past last, sent = past ++ [last, .done] ∧ last.isTerminal = true ∧ ∀ block ∈ past, block.isInner

theorem terminated_append_iff {past : List Sent} {last : Sent} (hlast : last.isTerminal = true) :
    Terminated (past ++ [last, .done]) ↔ ∀ block ∈ past, block.isInner := by
  refine ⟨fun ⟨past', last', heq, _, hpast⟩ => ?_, fun hpast => ⟨past, last, rfl, hlast, hpast⟩⟩
  obtain ⟨rfl, -⟩ := append_inj' heq rfl
  exact hpast

theorem not_terminated {sent : List Sent} (h : Sent.done ∉ sent) : ¬ Terminated sent := by
  rintro ⟨past, last, rfl, -⟩
  exact h (mem_append_right past (mem_cons_of_mem _ (mem_singleton_self _)))

/-- A response that failed. -/
theorem terminated_failed (kind message : Str) (s : Streamed) :
    Terminated (Streamed.finish kind (s, some (.failed message))).client.sent ↔
      ∀ block ∈ s.client.sent, block.isInner := by
  dsimp only [Streamed.finish, Client.send]
  rw [append_assoc]
  exact terminated_append_iff rfl

/-- A response that is completed. -/
theorem terminated_completed (kind : Str) (c : Client) (persisted : List ResponsesResponse)
    (usage : Option Value) :
    Terminated (Streamed.finish kind
      ({ client := c.emit (·.emitCompleted usage), persisted := persisted }, none)).client.sent ↔
      ∀ block ∈ c.sent, block.isInner := by
  dsimp only [Streamed.finish, Client.send, Client.emit]
  rw [append_assoc]
  exact terminated_append_iff rfl

/-! ### What is read of a stream -/

/-- The first choice has a text. -/
def ChatChunk.hasText (chunk : ChatChunk) : Bool :=
  match chunk.choices with
  | [] => false
  | choice :: _ => !decide (choice.text = [])

/-- The message of the first choice ends. -/
def ChatChunk.stops (chunk : ChatChunk) : Bool :=
  match chunk.choices with
  | [] => false
  | choice :: _ => choice.stops

/-- A message ends only once there is a text of it. -/
def stopsAfterText (opened : Bool) : List ChatChunk → Bool
  | [] => true
  | chunk :: rest =>
      (opened || chunk.hasText || !chunk.stops) && stopsAfterText (opened || chunk.hasText) rest

/-- The chunks of a stream, up to its end. -/
def chunksOf : List Frame → List ChatChunk
  | [] => []
  | .chunk chunk :: rest => chunk :: chunksOf rest
  | .error _ :: rest => chunksOf rest
  | .other _ :: rest => chunksOf rest
  | .done :: _ => []
  | .broken _ :: _ => []

/-- An error comes before the end of the stream. -/
def passesError : List Frame → Bool
  | [] => false
  | .chunk _ :: rest => passesError rest
  | .error _ :: _ => true
  | .other _ :: rest => passesError rest
  | .done :: _ => false
  | .broken _ :: _ => false

/-- How the stream breaks, if it does. -/
def breakOf : List Frame → Option Halt
  | [] => none
  | .chunk _ :: rest => breakOf rest
  | .error _ :: rest => breakOf rest
  | .other _ :: rest => breakOf rest
  | .done :: _ => none
  | .broken e :: _ => some (readError e)

/-- The answer of a stream. -/
def answerOf (body : List Frame) : ChatCompletionResponse :=
  ((chunksOf body).foldl ChatResponseAccumulator.processChunk {}).finalize

/-! ### The message of the emitter -/

namespace Client

/-- The message is open. -/
def opened (c : Client) : Bool := c.emitter.currentItemId.isSome

/-- The id of the message and its index are set together. -/
def Sound (c : Client) : Prop :=
  c.emitter.currentItemId.isSome = c.emitter.currentMessageOutputIndex.isSome

/-- The message is the same. -/
structure SameMessage (c c' : Client) : Prop where
  itemId : c'.emitter.currentItemId = c.emitter.currentItemId
  outputIndex : c'.emitter.currentMessageOutputIndex = c.emitter.currentMessageOutputIndex

variable {c c' : Client} (uuid : Nat → Str)

theorem SameMessage.refl (c : Client) : SameMessage c c := ⟨rfl, rfl⟩

theorem SameMessage.trans {c'' : Client} (h : SameMessage c c') (h' : SameMessage c' c'') :
    SameMessage c c'' :=
  ⟨h'.itemId.trans h.itemId, h'.outputIndex.trans h.outputIndex⟩

theorem SameMessage.sound (h : SameMessage c c') (hsound : c.Sound) : c'.Sound := by
  rw [Sound, h.itemId, h.outputIndex]
  exact hsound

theorem SameMessage.opened (h : SameMessage c c') : c'.opened = c.opened := by
  rw [Client.opened, h.itemId, Client.opened]

/-- A sound client has a whole message, or none. -/
theorem Sound.cases (h : c.Sound) :
    (c.opened = true ∧ ∃ outputIndex itemId, c.emitter.currentMessageOutputIndex = some outputIndex ∧
      c.emitter.currentItemId = some itemId) ∨
    (c.opened = false ∧ c.emitter.currentMessageOutputIndex = none ∧ c.emitter.currentItemId = none) := by
  unfold Sound at h
  unfold Client.opened
  cases hitem : c.emitter.currentItemId with
  | none =>
    rw [hitem] at h
    exact .inr ⟨rfl, Option.not_isSome_iff_eq_none.mp (fun hindex => by rw [← h] at hindex; cases hindex), rfl⟩
  | some itemId =>
    rw [hitem] at h
    obtain ⟨outputIndex, hindex⟩ := Option.isSome_iff_exists.mp h.symm
    exact .inl ⟨rfl, outputIndex, itemId, hindex, rfl⟩

theorem openMessage_spec (h : c.Sound) :
    (c.openMessage uuid).Sound ∧ (c.openMessage uuid).opened = true := by
  unfold openMessage
  split
  · next itemId hitem => exact ⟨h, by rw [opened, hitem]; rfl⟩
  · exact ⟨rfl, rfl⟩

theorem processContent_spec (h : c.Sound) (content : Str) :
    (c.processContent uuid content).1.Sound ∧ (c.processContent uuid content).1.opened = true ∧
      (c.processContent uuid content).2 = none := by
  obtain ⟨hsound, hopened⟩ := openMessage_spec uuid h
  rcases hsound.cases with ⟨-, outputIndex, itemId, hindex, hitem⟩ | ⟨hclosed, -⟩
  · unfold processContent
    dsimp only
    rw [hindex, hitem]
    have hkept : SameMessage (c.openMessage uuid)
        ((if (c.openMessage uuid).emitter.hasEmittedContentPartAdded = true then c.openMessage uuid
          else (c.openMessage uuid).emit (·.emitContentPartAdded outputIndex itemId 0)).emit
            (·.emitTextDelta content outputIndex itemId 0)) := by
      split
      · exact ⟨rfl, rfl⟩
      · exact ⟨rfl, rfl⟩
    exact ⟨hkept.sound hsound, hkept.opened.trans hopened, rfl⟩
  · rw [hopened] at hclosed
    cases hclosed

theorem finishMessage_spec (h : c.Sound) : SameMessage c c.finishMessage.1 ∧
      c.finishMessage.2 = if c.opened = true then none else some .panic := by
  rcases h.cases with ⟨hopened, outputIndex, itemId, hindex, hitem⟩ | ⟨hclosed, hindex, hitem⟩
  · unfold finishMessage
    rw [hindex, hitem, if_pos hopened]
    dsimp only
    refine ⟨?_, rfl⟩
    split
    all_goals
      split
      all_goals exact ⟨rfl, rfl⟩
  · unfold finishMessage
    rw [hindex, hitem, hclosed]
    exact ⟨.refl c, rfl⟩

/-- **A chunk**: the emitter panics at the end of a message without a text. -/
theorem processChunk_spec (h : c.Sound) (chunk : ChatChunk) : (c.processChunk uuid chunk).1.Sound ∧
      (c.processChunk uuid chunk).1.opened = (c.opened || chunk.hasText) ∧
      (c.processChunk uuid chunk).2 =
        if (c.opened || chunk.hasText || !chunk.stops) = true then none else some .panic := by
  unfold processChunk ChatChunk.hasText ChatChunk.stops
  cases chunk.choices with
  | nil =>
    refine ⟨h, (Bool.or_false _).symm, ?_⟩
    rw [Bool.not_false, Bool.or_true]
    rfl
  | cons choice rest =>
    have hcontent : ∃ c', (if choice.text = [] then (c, none) else c.processContent uuid choice.text) =
        (c', none) ∧ c'.Sound ∧ c'.opened = (c.opened || !decide (choice.text = [])) := by
      by_cases htext : choice.text = []
      · rw [if_pos htext]
        exact ⟨c, rfl, h, by simp [htext]⟩
      · obtain ⟨hsound, hopened, hnone⟩ := processContent_spec uuid h choice.text
        rw [if_neg htext]
        exact ⟨_, Prod.ext rfl hnone, hsound, by simp [htext, hopened]⟩
    obtain ⟨c', heq, hsound, hopened⟩ := hcontent
    obtain ⟨hsame, hfinish⟩ := finishMessage_spec hsound
    dsimp only
    rw [← hopened, heq]
    dsimp only
    by_cases hstops : choice.stops = true
    · rw [if_pos hstops]
      refine ⟨hsame.sound hsound, hsame.opened, ?_⟩
      simp only [hfinish, hstops, Bool.not_true, Bool.or_false]
    · rw [if_neg hstops]
      refine ⟨hsound, rfl, ?_⟩
      simp only [hstops, Bool.not_false, Bool.or_true, if_true]

end Client

open Client

/-! ### One chat -/

theorem isInner_of_ordinary {event : Event} (h : event.body.isOrdinary = true) :
    (Sent.event event).isInner := by
  refine ⟨?_, Sent.noConfusion⟩
  obtain ⟨number, body⟩ := event
  cases body with
  | completed response => cases h
  | error code message => cases h
  | _ => rfl

/-- Ordinary events are inner blocks. -/
theorem Client.Grows.inner_iff {c c' : Client} (h : Grows c c') :
    (∀ block ∈ c'.sent, block.isInner) ↔ ∀ block ∈ c.sent, block.isInner := by
  obtain ⟨events, hsent, -, -, hordinary⟩ := h.events
  rw [hsent, forall_mem_append]
  refine and_iff_left fun block hblock => ?_
  obtain ⟨event, hevent, rfl⟩ := List.mem_map.mp hblock
  exact isInner_of_ordinary (hordinary event hevent)

theorem Client.Grows.done_iff {c c' : Client} (h : Grows c c') : .done ∈ c'.sent ↔ .done ∈ c.sent := by
  obtain ⟨events, hsent, -, -, -⟩ := h.events
  rw [hsent, mem_append]
  refine or_iff_left fun hdone => ?_
  obtain ⟨event, -, heq⟩ := List.mem_map.mp hdone
  cases heq

/-- The state after a chunk. -/
def Transform.afterChunk (uuid : Nat → Str) (s : Transform) (chunk : ChatChunk) : Transform where
  accumulator := s.accumulator.processChunk chunk
  client := (s.client.processChunk uuid chunk).1

theorem Transform.step_chunk (uuid : Nat → Str) (s : Transform) (chunk : ChatChunk) :
    s.step uuid (.chunk chunk) =
      (s.afterChunk uuid chunk, (s.client.processChunk uuid chunk).2.map some) :=
  rfl

/-- **The stream of a chat**: it is read to its end if every message that ends was opened. -/
theorem transform_run (uuid : Nat → Str) (body : List Frame) {s : Transform} (h : s.client.Sound)
    (hdone : .done ∉ s.client.sent) :
    .done ∉ (Until.runUntil (Transform.step uuid) s body).1.client.sent ∧
    (stopsAfterText s.client.opened (chunksOf body) = true →
      (Until.runUntil (Transform.step uuid) s body).2.join = breakOf body ∧
      ((∀ block ∈ (Until.runUntil (Transform.step uuid) s body).1.client.sent, block.isInner) ↔
        (∀ block ∈ s.client.sent, block.isInner) ∧ passesError body = false)) ∧
    (stopsAfterText s.client.opened (chunksOf body) = false →
      (Until.runUntil (Transform.step uuid) s body).2.join = some .panic) := by
  induction body generalizing s with
  | nil => exact ⟨hdone, fun _ => ⟨rfl, (and_iff_left rfl).symm⟩, fun hstops => by cases hstops⟩
  | cons frame rest ih =>
    cases frame with
    | chunk chunk =>
      obtain ⟨hsound, hopened, hhalt⟩ := processChunk_spec uuid h chunk
      have hgrows := processChunk_grows uuid s.client chunk
      have hdone' := mt hgrows.done_iff.mp hdone
      rw [chunksOf, stopsAfterText]
      by_cases hstops : (s.client.opened || chunk.hasText || !chunk.stops) = true
      · rw [if_pos hstops] at hhalt
        have hstep := Transform.step_chunk uuid s chunk
        rw [hhalt] at hstep
        rw [hstops, Bool.true_and, Until.runUntil_cons_none rest hstep]
        obtain ⟨hkept, hread, hpanic⟩ := ih (s := s.afterChunk uuid chunk) hsound hdone'
        rw [show (s.afterChunk uuid chunk).client.opened = _ from hopened] at hread hpanic
        refine ⟨hkept, fun hrest => ?_, hpanic⟩
        obtain ⟨hbreak, hinner⟩ := hread hrest
        exact ⟨hbreak, hinner.trans (and_congr_left' hgrows.inner_iff)⟩
      · rw [if_neg hstops] at hhalt
        have hstep := Transform.step_chunk uuid s chunk
        rw [hhalt] at hstep
        rw [Until.runUntil_cons_some rest hstep]
        refine ⟨hdone', fun hrest => ?_, fun _ => rfl⟩
        exact absurd (Bool.and_eq_true_iff.mp hrest).1 hstops
    | error event =>
      obtain ⟨hkept, hread, hpanic⟩ := ih (s := { s with client := s.client.send (.passed event true) })
        h (by simpa [Client.send] using hdone)
      refine ⟨hkept, fun hrest => ?_, hpanic⟩
      obtain ⟨hbreak, hinner⟩ := hread hrest
      refine ⟨hbreak, hinner.trans (iff_of_false (fun hall => ?_) (fun hall => by cases hall.2))⟩
      cases (hall.1 _ (mem_append_right _ (mem_singleton_self _))).1
    | other event =>
      obtain ⟨hkept, hread, hpanic⟩ := ih (s := { s with client := s.client.send (.passed event false) })
        h (by simpa [Client.send] using hdone)
      refine ⟨hkept, fun hrest => ?_, hpanic⟩
      obtain ⟨hbreak, hinner⟩ := hread hrest
      refine ⟨hbreak, hinner.trans (and_congr_left' ?_)⟩
      rw [Client.send, forall_mem_append]
      exact and_iff_left fun block hblock => by
        obtain rfl := List.mem_singleton.mp hblock
        exact ⟨rfl, Sent.noConfusion⟩
    | done => exact ⟨hdone, fun _ => ⟨rfl, (and_iff_left rfl).symm⟩, fun hstops => by cases hstops⟩
    | broken e => exact ⟨hdone, fun _ => ⟨rfl, (and_iff_left rfl).symm⟩, fun hstops => by cases hstops⟩

theorem breakOf_eq_some {body : List Frame} {halt : Halt} (h : breakOf body = some halt) :
    ∃ e, halt = readError e := by
  induction body with
  | nil => cases h
  | cons frame rest ih =>
    cases frame with
    | done => cases h
    | broken e => exact ⟨e, (Option.some.inj h).symm⟩
    | _ => exact ih h

section
variable (uuid : Nat → Str) (opening : Opening)

/-- The blocks of a response before those of its answer. -/
theorem begin_inner : ∀ block ∈ (Client.begin (opening.emitter uuid)).sent, block.isInner := by
  intro block hblock
  have hblocks : (Client.begin (opening.emitter uuid)).sent =
    [.event ⟨0, .created opening.responseId opening.createdAt opening.model⟩,
      .event ⟨1, .inProgress opening.responseId⟩] := rfl
  rw [hblocks] at hblock
  rcases List.mem_cons.mp hblock with rfl | hblock
  · exact ⟨rfl, Sent.noConfusion⟩
  · obtain rfl := List.mem_singleton.mp hblock
    exact ⟨rfl, Sent.noConfusion⟩

theorem begin_not_done : .done ∉ (Client.begin (opening.emitter uuid)).sent :=
  fun hdone => (begin_inner uuid opening .done hdone).2 rfl

/-- **One chat.** -/
theorem terminated_chat (body : List Frame) :
    Terminated (convertChatStreamToResponsesStream uuid (opening.emitter uuid) body).client.sent ↔
      stopsAfterText false (chunksOf body) = true ∧ passesError body = false := by
  obtain ⟨hdone, hread, hpanic⟩ := transform_run uuid body
    (s := { client := .begin (opening.emitter uuid) }) rfl (begin_not_done uuid opening)
  unfold convertChatStreamToResponsesStream processAndTransformSseStream
  cases hstops : stopsAfterText false (chunksOf body) with
  | true =>
    obtain ⟨hbreak, hinner⟩ := hread hstops
    rw [and_iff_right (begin_inner uuid opening)] at hinner
    rw [and_iff_right rfl, ← hinner]
    rcases heq : Until.runUntil (Transform.step uuid) { client := .begin (opening.emitter uuid) } body
      with ⟨s, _ | _ | halt⟩
    all_goals rw [heq] at hbreak
    · exact terminated_completed ..
    · exact terminated_completed ..
    · obtain ⟨e, rfl⟩ := breakOf_eq_some hbreak.symm
      exact terminated_failed ..
  | false =>
    have hjoin := hpanic hstops
    refine iff_of_false ?_ (fun h => by cases h.1)
    rcases heq : Until.runUntil (Transform.step uuid) { client := .begin (opening.emitter uuid) } body
      with ⟨s, _ | _ | halt⟩
    all_goals rw [heq] at hjoin hdone
    · cases hjoin
    · cases hjoin
    · cases hjoin
      exact not_terminated hdone

end

/-! ### The tool loop -/

theorem Accumulation.step_chunk_none {uuid : Nat → Str} {s : Accumulation} {chunk : ChatChunk}
    (h : (s.client.processChunk uuid chunk).2 = none) :
    s.step uuid (.chunk chunk) =
      ({ accumulator := s.accumulator.processChunk chunk
         client := (s.client.processChunk uuid chunk).1 }, none) := by
  rw [Accumulation.step, show s.client.processChunk uuid chunk = (_, none) from Prod.ext rfl h]

theorem Accumulation.step_chunk_some {uuid : Nat → Str} {s : Accumulation} {chunk : ChatChunk} {halt : Halt}
    (h : (s.client.processChunk uuid chunk).2 = some halt) :
    s.step uuid (.chunk chunk) =
      ({ s with client := (s.client.processChunk uuid chunk).1 }, some (some halt)) := by
  rw [Accumulation.step, show s.client.processChunk uuid chunk = (_, some halt) from Prod.ext rfl h]

/-- **The stream of a turn.** -/
theorem accumulation_run (uuid : Nat → Str) (body : List Frame) {s : Accumulation} (h : s.client.Sound) :
    (stopsAfterText s.client.opened (chunksOf body) = true →
      (Until.runUntil (Accumulation.step uuid) s body).1.client.Sound ∧
      (Until.runUntil (Accumulation.step uuid) s body).1.accumulator =
        (chunksOf body).foldl ChatResponseAccumulator.processChunk s.accumulator ∧
      (Until.runUntil (Accumulation.step uuid) s body).2.join = breakOf body) ∧
    (stopsAfterText s.client.opened (chunksOf body) = false →
      (Until.runUntil (Accumulation.step uuid) s body).2.join = some .panic) := by
  induction body generalizing s with
  | nil => exact ⟨fun _ => ⟨h, rfl, rfl⟩, fun hstops => by cases hstops⟩
  | cons frame rest ih =>
    cases frame with
    | chunk chunk =>
      obtain ⟨hsound, hopened, hhalt⟩ := processChunk_spec uuid h chunk
      rw [chunksOf, stopsAfterText]
      by_cases hstops : (s.client.opened || chunk.hasText || !chunk.stops) = true
      · rw [if_pos hstops] at hhalt
        rw [hstops, Bool.true_and, Until.runUntil_cons_none rest (Accumulation.step_chunk_none hhalt),
          ← hopened]
        exact ih (s := { accumulator := _, client := _ }) hsound
      · rw [if_neg hstops] at hhalt
        rw [Until.runUntil_cons_some rest (Accumulation.step_chunk_some hhalt)]
        exact ⟨fun hrest => absurd (Bool.and_eq_true_iff.mp hrest).1 hstops, fun _ => rfl⟩
    | error event => exact ih h
    | other event => exact ih h
    | done => exact ⟨fun _ => ⟨h, rfl, rfl⟩, fun hstops => by cases hstops⟩
    | broken e => exact ⟨fun _ => ⟨h, rfl, rfl⟩, fun hstops => by cases hstops⟩

/-- **The answer of a turn.** -/
theorem convertAndAccumulateStream_spec (uuid : Nat → Str) {c : Client} (h : c.Sound) (body : List Frame) :
    (stopsAfterText c.opened (chunksOf body) = true →
      (convertAndAccumulateStream uuid c body).1.Sound ∧
      (convertAndAccumulateStream uuid c body).2 =
        match breakOf body with
        | some halt => .error halt
        | none => .ok (answerOf body)) ∧
    (stopsAfterText c.opened (chunksOf body) = false →
      (convertAndAccumulateStream uuid c body).2 = .error .panic) := by
  obtain ⟨hread, hpanic⟩ := accumulation_run uuid body (s := { client := c }) h
  unfold convertAndAccumulateStream
  rcases heq : Until.runUntil (Accumulation.step uuid) { client := c } body with ⟨s, _ | _ | halt⟩
  all_goals
    rw [heq] at hread hpanic
    refine ⟨fun hstops => ?_, fun hstops => by cases hpanic hstops; try rfl⟩
    obtain ⟨hsound, hanswer, hbreak⟩ := hread hstops
    rw [← hbreak]
    refine ⟨hsound, ?_⟩
  · exact congrArg (fun acc => Except.ok (ChatResponseAccumulator.finalize acc)) hanswer
  · exact congrArg (fun acc => Except.ok (ChatResponseAccumulator.finalize acc)) hanswer
  · rfl

/-- An end that a terminal block is sent at. -/
def LoopEnd.isTerminal : LoopEnd → Prop
  | .final => True
  | .halted (.failed _) => True
  | _ => False

/-- What the client has been sent when the loop ended. -/
theorem terminated_loopEnd {c c' : Client} (hinner : ∀ block ∈ c.sent, block.isInner)
    {loopEnd : LoopEnd} (h : Ends c c' loopEnd) :
    Terminated (Streamed.finish "tool_loop_error".toList ({ client := c' }, loopEnd.halt)).client.sent ↔
      loopEnd.isTerminal := by
  have hsilent : ∀ {c' : Client} {halt : Option Halt}, Grows c c' →
      (∀ block ∈ (Streamed.finish "tool_loop_error".toList ({ client := c' }, halt)).client.sent,
        block ≠ .done → block.isTerminal = false) →
      ¬ Terminated (Streamed.finish "tool_loop_error".toList ({ client := c' }, halt)).client.sent := by
    rintro c' halt - hall ⟨past, last, hsent, hlast, -⟩
    rw [hsent] at hall
    have hmem : last ∈ past ++ [last, .done] := mem_append_right _ (mem_cons_self ..)
    rw [hall last hmem (fun heq => by rw [heq] at hlast; cases hlast)] at hlast
    cases hlast
  have hall : ∀ {c' : Client}, Grows c c' → ∀ block ∈ (c'.send .done).sent,
      block ≠ .done → block.isTerminal = false := by
    intro c' hgrows block hblock hne
    rcases List.mem_append.mp hblock with hblock | hblock
    · exact (hgrows.inner_iff.mpr hinner block hblock).1
    · exact absurd (List.mem_singleton.mp hblock) hne
  cases loopEnd with
  | final =>
    obtain ⟨c'', usage, hgrows, rfl⟩ := h
    exact iff_of_true ((terminated_completed ..).mpr (hgrows.inner_iff.mpr hinner)) trivial
  | limit => exact iff_of_false (hsilent h (hall h)) id
  | functionCalls => exact iff_of_false (hsilent h (hall h)) id
  | halted halt =>
    cases halt with
    | failed message => exact iff_of_true ((terminated_failed ..).mpr (Grows.inner_iff h |>.mpr hinner)) trivial
    | panic =>
      refine iff_of_false (hsilent h fun block hblock _ => ?_) id
      exact (Grows.inner_iff h |>.mpr hinner block hblock).1

namespace StreamLoop
variable (ctx : LoopContext) (world : World (List Frame)) (s : StreamLoop)

/-- The chat request of the next turn, if there is to be one. -/
def nextRequest : Option ChatCompletionRequest :=
  if defaultMaxIterations < s.loop.state.iteration + 1 then none
  else
    match s.loop.iterate.chatRequest ctx with
    | .error _ => none
    | .ok request => some request

/-- The calls of an answer are within the limit, and none of them is left to the caller. -/
def Admits (response : ChatCompletionResponse) : Prop :=
  extractAllToolCallsFromChat response = [] ∨
    s.loop.state.totalCalls + (ctx.mcpToolCalls (extractAllToolCallsFromChat response)).length ≤ ctx.limit ∧
      ctx.functionToolCalls (extractAllToolCallsFromChat response) = []

/-- What the model answers next lets the response end as it should. -/
def Concludes : Prop :=
  ∀ request, s.nextRequest ctx = some request →
    stopsAfterText s.client.opened (chunksOf (world.chat (s.loop.asked ++ [request]))) = true ∧
      (breakOf (world.chat (s.loop.asked ++ [request])) = none →
        s.Admits ctx (answerOf (world.chat (s.loop.asked ++ [request]))))

theorem listTools_same : SameMessage s.client (s.listTools ctx).client := by
  unfold listTools
  split
  · exact .refl _
  · exact ⟨rfl, rfl⟩

theorem listTools_loop : (s.listTools ctx).loop = s.loop := by
  unfold listTools
  split
  · rfl
  · rfl

/-- What a call does not change. -/
theorem execute_same (callTool : List (Str × Str) → CallResult) (calls : List ExtractedToolCall) :
    SameMessage s.client (calls.foldl (execute ctx callTool) s).client ∧
      (calls.foldl (execute ctx callTool) s).loop.state.iteration = s.loop.state.iteration := by
  induction calls generalizing s with
  | nil => exact ⟨.refl _, rfl⟩
  | cons call calls ih =>
    obtain ⟨hsame, hiteration⟩ := ih (s.execute ctx callTool call)
    refine ⟨.trans ?_ hsame, hiteration⟩
    unfold execute
    generalize (callTool (s.loop.callsWith call)).outcome = outcome
    obtain ⟨output, success, error⟩ := outcome
    cases error with
    | none => exact ⟨rfl, rfl⟩
    | some err => exact ⟨rfl, rfl⟩

/-- **A turn after the answer.** -/
theorem afterAnswer_admits (callTool : List (Str × Str) → CallResult) (response : ChatCompletionResponse) :
    (∀ {s'}, s.afterAnswer ctx callTool response = (s', none) →
      SameMessage s.client s'.client ∧ s'.loop.state.iteration = s.loop.state.iteration ∧
        s.Admits ctx response) ∧
    ∀ {s' loopEnd}, s.afterAnswer ctx callTool response = (s', some loopEnd) →
      (loopEnd.isTerminal ↔ s.Admits ctx response) := by
  unfold afterAnswer Admits
  by_cases hcalls : extractAllToolCallsFromChat response = []
  · rw [if_pos hcalls]
    exact Until.ended (iff_of_true trivial (.inl hcalls))
  · rw [if_neg hcalls]
    by_cases hlimit : ctx.limit <
      s.loop.state.totalCalls + (ctx.mcpToolCalls (extractAllToolCallsFromChat response)).length
    · rw [if_pos hlimit]
      exact Until.ended (iff_of_false id fun h => h.elim hcalls fun h => absurd h.1 (Nat.not_le.mpr hlimit))
    · rw [if_neg hlimit]
      by_cases hfunctions : ctx.functionToolCalls (extractAllToolCallsFromChat response) = []
      · rw [if_neg (not_not_intro hfunctions)]
        refine Until.goesOn ?_
        obtain ⟨hsame, hiteration⟩ := execute_same ctx s callTool
          (ctx.mcpToolCalls (extractAllToolCallsFromChat response))
        exact ⟨⟨hsame.itemId, hsame.outputIndex⟩, hiteration, .inr ⟨Nat.not_lt.mp hlimit, hfunctions⟩⟩
      · rw [if_pos hfunctions]
        exact Until.ended (iff_of_false id fun h => h.elim hcalls fun h => hfunctions h.2)

theorem nextRequest_eq_some {request : ChatCompletionRequest} : s.nextRequest ctx = some request ↔
      s.loop.state.iteration + 1 ≤ defaultMaxIterations ∧ s.loop.iterate.chatRequest ctx = .ok request := by
  unfold nextRequest
  by_cases hmax : defaultMaxIterations < s.loop.state.iteration + 1
  · rw [if_pos hmax]
    exact iff_of_false (fun h => by cases h) fun h => absurd h.1 (Nat.not_le.mpr hmax)
  · rw [if_neg hmax, and_iff_right (Nat.not_lt.mp hmax)]
    cases s.loop.iterate.chatRequest ctx with
    | error e => exact iff_of_false (fun h => by cases h) fun h => by cases h
    | ok request' => exact ⟨fun h => by rw [Option.some.inj h], fun h => by rw [Except.ok.inj h]⟩

/-- **What a turn can do**: it asks nothing, or its stream is not read to the end, or its answer is gone
on with. -/
theorem turn_cases {s s' : StreamLoop} (h : s.client.Sound) {result : Option LoopEnd}
    (hturn : s.turn ctx world = (s', result)) :
    (s.nextRequest ctx = none ∧ s'.loop = s.loop.iterate ∧
      ∃ message, result = some (.halted (.failed message))) ∨
    ∃ request, s.nextRequest ctx = some request ∧
      let body := world.chat (s.loop.asked ++ [request])
      (stopsAfterText s.client.opened (chunksOf body) = false ∧ s'.loop = s.loop.iterate.ask request ∧
        result = some (.halted .panic)) ∨
      stopsAfterText s.client.opened (chunksOf body) = true ∧
        ((∃ e, breakOf body = some (readError e) ∧ s'.loop = s.loop.iterate.ask request ∧
          result = some (.halted (readError e))) ∨
        breakOf body = none ∧ ∃ client listed, client.Sound ∧
          afterAnswer ctx world.callTool ⟨s.loop.iterate.ask request, client, listed⟩ (answerOf body) =
            (s', result)) := by
  have hsame := listTools_same ctx { s with loop := s.loop.iterate }
  have hloop := listTools_loop ctx { s with loop := s.loop.iterate }
  unfold turn at hturn
  dsimp only at hturn
  -- the two ways a turn fails before it asks: the safety limit, and a request that cannot be made
  by_cases hmax : defaultMaxIterations < s.loop.iterate.state.iteration
  · rw [if_pos hmax] at hturn
    cases hturn
    refine .inl ⟨?_, rfl, _, rfl⟩
    rw [nextRequest, if_pos (show defaultMaxIterations < s.loop.state.iteration + 1 from hmax)]
  · rw [if_neg hmax, hloop] at hturn
    cases hrequest : s.loop.iterate.chatRequest ctx with
    | error e =>
      rw [hrequest] at hturn
      cases hturn
      refine .inl ⟨?_, hloop, _, rfl⟩
      rw [nextRequest, if_neg (show ¬ defaultMaxIterations < s.loop.state.iteration + 1 from hmax), hrequest]
    | ok request =>
      rw [hrequest] at hturn
      dsimp only at hturn
      obtain ⟨hread, hpanic⟩ := convertAndAccumulateStream_spec ctx.uuid (hsame.sound h)
        (world.chat (s.loop.asked ++ [request]))
      rw [show (listTools ctx { s with loop := s.loop.iterate }).client.opened = s.client.opened from
        hsame.opened] at hread hpanic
      rw [show (s.loop.iterate.ask request).asked = s.loop.asked ++ [request] from rfl] at hturn
      refine .inr ⟨request, (nextRequest_eq_some ctx s).mpr ⟨Nat.not_lt.mp hmax, hrequest⟩, ?_⟩
      dsimp only
      generalize world.chat (s.loop.asked ++ [request]) = body at hread hpanic hturn ⊢
      rcases hanswer : convertAndAccumulateStream ctx.uuid
        (listTools ctx { s with loop := s.loop.iterate }).client body with ⟨client, answer⟩
      rw [hanswer] at hread hpanic hturn
      cases hstops : stopsAfterText s.client.opened (chunksOf body) with
      | false =>
        obtain rfl : answer = _ := hpanic hstops
        cases hturn
        exact .inl ⟨rfl, rfl, rfl⟩
      | true =>
        obtain ⟨hsound, hresult⟩ := hread hstops
        cases hbreak : breakOf body with
        | some halt =>
          obtain ⟨e, rfl⟩ := breakOf_eq_some hbreak
          rw [hbreak] at hresult
          obtain rfl : answer = _ := hresult
          cases hturn
          exact .inr ⟨rfl, .inl ⟨e, rfl, rfl, rfl⟩⟩
        | none =>
          rw [hbreak] at hresult
          obtain rfl : answer = _ := hresult
          exact .inr ⟨rfl, .inr ⟨rfl, client, _, hsound, hturn⟩⟩

/-- **A turn.** -/
theorem turn_concludes {s : StreamLoop} (h : s.client.Sound) :
    (∀ {s'}, s.turn ctx world = (s', none) → (s'.client.Sound ∧ s.Concludes ctx world) ∧
      s'.loop.state.iteration = s.loop.state.iteration + 1 ∧
        s.loop.state.iteration + 1 ≤ defaultMaxIterations) ∧
    ∀ {s' loopEnd}, s.turn ctx world = (s', some loopEnd) →
      (loopEnd.isTerminal ↔ s.Concludes ctx world) := by
  have hnext : ∀ {request}, s.nextRequest ctx = some request → (s.Concludes ctx world ↔
      stopsAfterText s.client.opened (chunksOf (world.chat (s.loop.asked ++ [request]))) = true ∧
        (breakOf (world.chat (s.loop.asked ++ [request])) = none →
          s.Admits ctx (answerOf (world.chat (s.loop.asked ++ [request]))))) := by
    intro request hrequest
    simp only [Concludes, hrequest, Option.some.injEq, forall_eq']
  refine ⟨fun heq => ?_, fun heq => ?_⟩
  · obtain ⟨-, -, message, hresult⟩ | ⟨request, hrequest, ⟨-, -, hresult⟩ | ⟨hstops, ⟨e, -, -, hresult⟩ |
      ⟨-, client, listed, hsound, hanswer⟩⟩⟩ := turn_cases ctx world h heq
    · cases hresult
    · cases hresult
    · cases hresult
    · obtain ⟨hkept, hiteration, hfits⟩ := (afterAnswer_admits ctx _ world.callTool _).1 hanswer
      exact ⟨⟨hkept.sound hsound, (hnext hrequest).mpr ⟨hstops, fun _ => hfits⟩⟩, hiteration,
        ((nextRequest_eq_some ctx s).mp hrequest).1⟩
  · obtain ⟨hnone, -, message, hresult⟩ | ⟨request, hrequest, ⟨hstops, -, hresult⟩ |
      ⟨hstops, ⟨e, hbreak, -, hresult⟩ | ⟨hbreak, client, listed, hsound, hanswer⟩⟩⟩ :=
        turn_cases ctx world h heq
    · cases hresult
      refine iff_of_true trivial fun request hrequest => ?_
      rw [hnone] at hrequest
      cases hrequest
    · cases hresult
      rw [hnext hrequest, hstops]
      exact iff_of_false id fun h => by cases h.1
    · cases hresult
      rw [hnext hrequest, hstops, hbreak]
      exact iff_of_true trivial ⟨rfl, fun hnone => by cases hnone⟩
    · rw [hnext hrequest, hstops, hbreak]
      exact ((afterAnswer_admits ctx _ world.callTool _).2 hanswer).trans
        ⟨fun hfits => ⟨rfl, fun _ => hfits⟩, fun hall => hall.2 rfl⟩

end StreamLoop

/-- A loop that is given more turns than it may take comes to its end. -/
theorem toolLoop_ends (ctx : LoopContext) (world : World (List Frame)) (turns : Nat) (opening : Opening)
    (modifiedRequest : ResponsesRequest) :
    ∃ s loopEnd, executeToolLoopStreamingInternal ctx world (defaultMaxIterations + 1 + turns)
      (opening.emitter ctx.uuid) modifiedRequest = (s, some loopEnd) :=
  Until.loop_ends (s := StreamLoop.start ctx (opening.emitter ctx.uuid) modifiedRequest)
    (P := fun s : StreamLoop => s.client.Sound) (r := fun s => defaultMaxIterations - s.loop.state.iteration)
    (fun h hturn => by
      obtain ⟨⟨hsound, -⟩, hiteration, hmax⟩ := (StreamLoop.turn_concludes ctx world h).1 hturn
      exact ⟨hsound, by rw [hiteration]; omega⟩)
    rfl (Nat.lt_of_lt_of_le (Nat.lt_succ_self _) (Nat.le_add_right ..))

/-- **When a streamed response ends as it should**: the message is never closed before it has a text, and
no error is passed on; in the tool loop, no turn comes to the limit or leaves a call to the caller. -/
theorem terminated_iff (opening : Opening) :
    (∀ (uuid : Nat → Str) (body : List Frame),
      Terminated (convertChatStreamToResponsesStream uuid (opening.emitter uuid) body).client.sent ↔
        stopsAfterText false (chunksOf body) = true ∧ passesError body = false) ∧
    ∀ (ctx : LoopContext) (world : World (List Frame)) (turns : Nat)
      (modifiedRequest : ResponsesRequest),
      ∃ streamed, executeToolLoopStreaming ctx world (defaultMaxIterations + 1 + turns)
          (opening.emitter ctx.uuid) modifiedRequest = some streamed ∧
        (Terminated streamed.client.sent ↔
          ∀ k s, executeToolLoopStreamingInternal ctx world k (opening.emitter ctx.uuid) modifiedRequest =
            (s, none) → s.Concludes ctx world) := by
  refine ⟨fun uuid body => terminated_chat uuid opening body, fun ctx world turns modifiedRequest => ?_⟩
  obtain ⟨s, loopEnd, hrun⟩ := toolLoop_ends ctx world turns opening modifiedRequest
  refine ⟨_, by rw [executeToolLoopStreaming, hrun], ?_⟩
  have hends := (loop_grows ctx world (defaultMaxIterations + 1 + turns)
    (StreamLoop.start ctx (opening.emitter ctx.uuid) modifiedRequest)).2 hrun
  refine (terminated_loopEnd (begin_inner ctx.uuid opening) hends).trans ?_
  exact Until.loop_iff (P := fun s : StreamLoop => s.client.Sound) (F := fun s => s.Concludes ctx world)
    (fun h hturn => ((StreamLoop.turn_concludes ctx world h).1 hturn).1)
    (fun h hturn => (StreamLoop.turn_concludes ctx world h).2 hturn) rfl hrun

/-- An answer without a text. -/
def silentChat : List Sent :=
  (convertChatStreamToResponsesStream (fun n => (toString n).toList)
    (Opening.emitter ⟨"resp_1".toList, "qwen".toList, 0, { input := .text "Hi".toList }⟩
      fun n => (toString n).toList)
    [.chunk {
        id := "chatcmpl-1".toList
        model := "qwen".toList
        choices := [{ delta := {}, finishReason := some "stop".toList }] },
      .done]).client.sent

/-- Its stream ends after the first two events. -/
theorem silentChat_not_terminated : silentChat =
      [.event ⟨0, .created "resp_1".toList 0 "qwen".toList⟩, .event ⟨1, .inProgress "resp_1".toList⟩] ∧
    ¬ Terminated silentChat :=
  ⟨rfl, fun h => by cases ((terminated_chat ..).mp h).1⟩

end QwenStack.Grpc
