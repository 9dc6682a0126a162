import QwenStack.Grpc.Emission

/-!
# Responses over chat — sequence numbers

An event takes its number when it is built.  All events that are built are sent, in that order, but for the
first event of the list of tools of a Harmony response: it is built to store its item, and dropped.

So the numbers that the client reads are 0, 1, 2 and so on in every run, except when a Harmony response has
MCP tools, and then in none: `numbered_iff`.
-/

namespace QwenStack.Grpc

open List

/-- The number of an event. -/
def Sent.number : Sent → Option Nat
  | .event e => some e.sequenceNumber
  | _ => none

/-- The sequence numbers that were sent. -/
def sequenceNumbers (sent : List Sent) : List Nat := sent.filterMap Sent.number

theorem sequenceNumbers_append (sent sent' : List Sent) :
    sequenceNumbers (sent ++ sent') = sequenceNumbers sent ++ sequenceNumbers sent' :=
  filterMap_append

theorem sequenceNumbers_events (events : List Event) :
    sequenceNumbers (events.map Sent.event) = events.map Event.sequenceNumber := by
  rw [sequenceNumbers, filterMap_map, ← filterMap_eq_map]
  rfl

/-- What a response is opened with. -/
structure Opening where
  responseId : Str
  model : Str
  createdAt : Nat
  originalRequest : ResponsesRequest

/-- The emitter of a response. -/
def Opening.emitter (o : Opening) (uuid : Nat → Str) : Emitter :=
  { Emitter.new uuid o.responseId o.model o.createdAt 0 with originalRequest := some o.originalRequest }

/-- A streamed response: of one chat, of the tool loop, of a Harmony model without MCP tools, or with. -/
inductive Served (σ : Type) where
  | chat (uuid : Nat → Str) (opening : Opening) (body : List Frame)
  | toolLoop (ctx : LoopContext) (world : World (List Frame)) (turns : Nat) (opening : Opening)
      (modifiedRequest : ResponsesRequest)
  | harmony (ctx : Harmony.StreamContext σ)
      (backend : Harmony.Backend (Except ErrorResponse Harmony.ExecutionResult)) (opening : Opening)
      (currentRequest : ResponsesRequest)
  | harmonyMcp (ctx : Harmony.StreamContext σ)
      (backend : Harmony.Backend (Except ErrorResponse Harmony.ExecutionResult)) (turns : Nat)
      (opening : Opening) (currentRequest : ResponsesRequest)

namespace Served
variable {σ : Type}

/-- What the client is sent; a loop that has not ended is one of a run that is not over. -/
def sent : Served σ → List Sent
  | .chat uuid opening body =>
      (convertChatStreamToResponsesStream uuid (opening.emitter uuid) body).client.sent
  | .toolLoop ctx world turns opening modifiedRequest =>
      match executeToolLoopStreamingInternal ctx world turns (opening.emitter ctx.uuid) modifiedRequest
        with
      | (s, none) => s.client.sent
      | (s, some loopEnd) =>
          (Streamed.finish "tool_loop_error".toList ({ client := s.client }, loopEnd.halt)).client.sent
  | .harmony ctx backend opening currentRequest =>
      (Harmony.executeWithoutMcpStreaming ctx backend (opening.emitter ctx.uuid)
        currentRequest).1.client.sent
  | .harmonyMcp ctx backend turns opening currentRequest =>
      (Harmony.executeMcpToolLoopStreaming ctx backend (opening.emitter ctx.uuid) currentRequest
        turns).1.client.sent

/-- A Harmony response with MCP tools. -/
def isHarmonyMcp : Served σ → Bool
  | .harmonyMcp .. => true
  | _ => false

end Served

/-! ### Numbers that were taken and sent -/

namespace Client

/-- The numbers that were taken are those that were sent. -/
def Numbered (c : Client) : Prop := sequenceNumbers c.sent = List.range c.emitter.sequenceNumber

/-- **Ordinary events.** -/
theorem Grows.numbers {c c' : Client} (h : Grows c c') : ∃ count,
    sequenceNumbers c'.sent = sequenceNumbers c.sent ++ List.range' c.emitter.sequenceNumber count ∧
      c'.emitter.sequenceNumber = c.emitter.sequenceNumber + count := by
  obtain ⟨events, hsent, hnumbers, hnext, -⟩ := h.events
  exact ⟨events.length, by rw [hsent, sequenceNumbers_append, sequenceNumbers_events, hnumbers], hnext⟩

theorem Numbered.grows {c c' : Client} (h : c.Numbered) (hgrows : Grows c c') : c'.Numbered := by
  obtain ⟨count, hnumbers, hnext⟩ := hgrows.numbers
  rw [Numbered, hnumbers, hnext, h, range_eq_range', range_eq_range',
    ← List.range'_append_1, Nat.zero_add]

/-- An event that is built and sent. -/
theorem Numbered.emit {c : Client} (h : c.Numbered) {builder : Emitter → Event × Emitter}
    (hnumber : (builder c.emitter).1.sequenceNumber = c.emitter.sequenceNumber)
    (hnext : (builder c.emitter).2.sequenceNumber = c.emitter.sequenceNumber + 1) :
    (c.emit builder).Numbered := by
  rw [Numbered, Client.emit, sequenceNumbers_append, h]
  rw [hnext, range_succ]
  exact congrArg (fun n => List.range c.emitter.sequenceNumber ++ [n]) hnumber

/-- A block without a number. -/
theorem Numbered.send {c : Client} (h : c.Numbered) {block : Sent} (hblock : block.number = none) :
    (c.send block).Numbered := by
  rw [Numbered, Client.send, sequenceNumbers_append, h]
  exact (congrArg _ (filterMap_cons_none hblock)).trans (append_nil _)

theorem numbered_begin (uuid : Nat → Str) (o : Opening) : (Client.begin (o.emitter uuid)).Numbered := rfl

end Client

open Client

theorem numbered_finish {kind : Str} {s : Streamed} (h : s.client.Numbered) (halt : Option Halt) :
    (Streamed.finish kind (s, halt)).client.Numbered := by
  unfold Streamed.finish
  split
  · next heq =>
    obtain ⟨rfl, -⟩ := Prod.mk.inj heq
    exact h.send rfl
  · next heq =>
    obtain ⟨rfl, -⟩ := Prod.mk.inj heq
    exact (h.send rfl).send rfl
  · next heq =>
    obtain ⟨rfl, -⟩ := Prod.mk.inj heq
    exact h

/-- A block of a chat. -/
theorem numbered_step (uuid : Nat → Str) {s : Transform} (frame : Frame) (h : s.client.Numbered) :
    (s.step uuid frame).1.client.Numbered := by
  cases frame with
  | chunk chunk => exact h.grows (processChunk_grows uuid s.client chunk)
  | error event => exact h.send rfl
  | other event => exact h.send rfl
  | done => exact h
  | broken e => exact h

theorem numbered_chat (uuid : Nat → Str) (opening : Opening) (body : List Frame) :
    (convertChatStreamToResponsesStream uuid (opening.emitter uuid) body).client.Numbered := by
  unfold convertChatStreamToResponsesStream
  have hrun : (Until.runUntil (Transform.step uuid)
      { client := .begin (opening.emitter uuid) } body).1.client.Numbered :=
    Until.runUntil_keeps (P := fun s : Transform => s.client.Numbered)
      (fun s frame _ h => numbered_step uuid frame h) (numbered_begin uuid opening)
  have hstream : (processAndTransformSseStream uuid (opening.emitter uuid) body).1.client.Numbered := by
    unfold processAndTransformSseStream
    split
    · next heq =>
      rw [heq] at hrun
      exact hrun
    · next heq =>
      rw [heq] at hrun
      exact hrun.emit rfl rfl
  exact numbered_finish hstream _

theorem numbered_toolLoop (ctx : LoopContext) (world : World (List Frame)) (turns : Nat)
    (opening : Opening) (modifiedRequest : ResponsesRequest) :
    (executeToolLoopStreamingInternal ctx world turns (opening.emitter ctx.uuid)
      modifiedRequest).1.client.Numbered := by
  have hstart := numbered_begin ctx.uuid opening
  have hrun := loop_grows ctx world turns (StreamLoop.start ctx (opening.emitter ctx.uuid) modifiedRequest)
  unfold executeToolLoopStreamingInternal
  rcases heq : Until.loop (fun s => StreamLoop.turn ctx s world) turns
    (StreamLoop.start ctx (opening.emitter ctx.uuid) modifiedRequest) with ⟨s, _ | loopEnd⟩
  · exact hstart.grows (hrun.1 heq)
  · have hend := hrun.2 heq
    cases loopEnd with
    | final =>
      obtain ⟨c, usage, hgrows, heq⟩ := hend
      rw [heq]
      exact (hstart.grows hgrows).emit rfl rfl
    | _ => exact hstart.grows hend

section
variable {σ : Type} (ctx : Harmony.StreamContext σ)

theorem numbered_harmony
    (backend : Harmony.Backend (Except ErrorResponse Harmony.ExecutionResult)) (opening : Opening)
    (currentRequest : ResponsesRequest) :
    (Harmony.executeWithoutMcpStreaming ctx backend (opening.emitter ctx.uuid)
      currentRequest).1.client.Numbered := by
  have hstart := numbered_begin ctx.uuid opening
  unfold Harmony.executeWithoutMcpStreaming
  dsimp only
  split
  · exact hstart.emit rfl rfl
  · next result _ =>
    have hread := hstart.grows (Harmony.read_grows ctx
      { Harmony.McpStream.start ctx (opening.emitter ctx.uuid) currentRequest with
        loop := { (Harmony.McpStream.start ctx (opening.emitter ctx.uuid) currentRequest).loop with
          currentRequest := currentRequest }.ask } [] result)
    split
    all_goals next heq =>
        rw [heq] at hread
        exact hread.emit rfl rfl

/-! ### The list of tools -/

/-- The numbers at the beginning of a Harmony response with MCP tools: 2 is taken, and not sent. -/
theorem sequenceNumbers_listTools (opening : Opening) (currentRequest : ResponsesRequest) :
    sequenceNumbers (((Harmony.McpStream.start ctx (opening.emitter ctx.uuid)
      currentRequest).setServerLabel).listTools ctx).client.sent = [0, 1, 3, 4, 5, 6] :=
  rfl

theorem sequenceNumbers_ends {c c' : Client} {responseEnd : Harmony.ResponseEnd}
    (hend : Harmony.Ends c c' responseEnd) :
    ∃ rest, sequenceNumbers c'.sent = sequenceNumbers c.sent ++ rest := by
  have hemit : ∀ {c'' : Client} (builder : Emitter → Event × Emitter), Grows c c'' →
      ∃ rest, sequenceNumbers (c''.emit builder).sent = sequenceNumbers c.sent ++ rest := by
    intro c'' builder hgrows
    obtain ⟨count, hnumbers, -⟩ := hgrows.numbers
    refine ⟨List.range' c.emitter.sequenceNumber count ++
      sequenceNumbers [.event (builder c''.emitter).1], ?_⟩
    rw [Client.emit, sequenceNumbers_append, hnumbers, append_assoc]
  cases responseEnd with
  | error =>
    obtain ⟨c'', message, code, hgrows, rfl⟩ := hend
    exact hemit _ hgrows
  | _ =>
    obtain ⟨c'', usage, hgrows, rfl⟩ := hend
    exact hemit _ hgrows

theorem sequenceNumbers_harmonyMcp
    (backend : Harmony.Backend (Except ErrorResponse Harmony.ExecutionResult)) (turns : Nat)
    (opening : Opening) (currentRequest : ResponsesRequest) :
    ∃ rest, sequenceNumbers (Harmony.executeMcpToolLoopStreaming ctx backend (opening.emitter ctx.uuid)
      currentRequest turns).1.client.sent = [0, 1, 3, 4, 5, 6] ++ rest := by
  have hlisted := sequenceNumbers_listTools ctx opening currentRequest
  unfold Harmony.executeMcpToolLoopStreaming
  generalize ((Harmony.McpStream.start ctx (opening.emitter ctx.uuid)
    currentRequest).setServerLabel).listTools ctx = s at hlisted ⊢
  rw [← hlisted]
  have hrun := Harmony.loop_grows ctx backend turns s
  rcases heq : Until.loop (fun s => Harmony.McpStream.turn ctx s backend) turns s
    with ⟨s', _ | responseEnd⟩
  · obtain ⟨count, hnumbers, -⟩ := (hrun.1 heq).numbers
    exact ⟨_, hnumbers⟩
  · exact sequenceNumbers_ends (hrun.2 heq)

end

/-- **When the numbers are 0, 1, 2 and so on**: in every run but those of Harmony models with MCP tools. -/
theorem numbered_iff {σ : Type} (r : Served σ) :
    sequenceNumbers r.sent = List.range (sequenceNumbers r.sent).length ↔ r.isHarmonyMcp = false := by
  have hrange : ∀ {c : Client}, c.Numbered →
      sequenceNumbers c.sent = List.range (sequenceNumbers c.sent).length := by
    intro c h
    rw [Numbered] at h
    rw [h, length_range]
  cases r with
  | chat uuid opening body =>
    exact iff_of_true (hrange (numbered_chat uuid opening body)) rfl
  | toolLoop ctx world turns opening modifiedRequest =>
    refine iff_of_true ?_ rfl
    have hloop := numbered_toolLoop ctx world turns opening modifiedRequest
    rw [Served.sent]
    rcases heq : executeToolLoopStreamingInternal ctx world turns (opening.emitter ctx.uuid)
      modifiedRequest with ⟨s, _ | loopEnd⟩
    all_goals rw [heq] at hloop
    · exact hrange hloop
    · have hfinished : ({ client := s.client } : Streamed).client.Numbered := hloop
      exact hrange (numbered_finish hfinished _)
  | harmony ctx backend opening currentRequest =>
    exact iff_of_true (hrange (numbered_harmony ctx backend opening currentRequest)) rfl
  | harmonyMcp ctx backend turns opening currentRequest =>
    refine iff_of_false (fun heq => ?_) Bool.noConfusion
    obtain ⟨rest, hnumbers⟩ := sequenceNumbers_harmonyMcp ctx backend turns opening currentRequest
    have hthird := congrArg (·[2]?) heq
    change (sequenceNumbers (Harmony.executeMcpToolLoopStreaming ctx backend
      (opening.emitter ctx.uuid) currentRequest turns).1.client.sent)[2]? = (List.range _)[2]? at hthird
    rw [hnumbers] at hthird
    obtain ⟨hlt, hvalue⟩ := List.getElem?_eq_some_iff.mp hthird.symm
    rw [getElem_range] at hvalue
    exact absurd hvalue (by decide)

/-- A parser to which nothing is said. -/
def silentParser : Harmony.ContentParser Unit where
  process _ _ := .ok ()
  currentChannel _ := none
  currentRecipient _ := none
  lastContentDelta _ := .ok none
  messages _ := []
  chatMessages _ := []
  currentContent _ := .ok []
  messages_eq _ := rfl

/-- A request with a tool, which is answered with nothing. -/
def silentAnswer : Served Unit :=
  .harmonyMcp {
      uuid := fun n => (toString n).toList
      parseJson := fun _ => .ok .null
      mcpTools := [⟨"search".toList, none, []⟩]
      createdAt := 0
      parser := silentParser
      newParser := .ok ()
      callUuid := fun n => (toString n).toList
      readItem := fun _ => none
      debug := fun e => e.message }
    { execute := fun _ => .ok (.single [.ok (.complete "stop".toList none 1 1)])
      callTool := fun _ => .ok none false }
    1 ⟨"resp_1".toList, "gpt-oss".toList, 0, { input := .text "Hi".toList }⟩
    { input := .text "Hi".toList }

/-- The number 2 is missing in its events. -/
theorem silentAnswer_numbers : sequenceNumbers silentAnswer.sent = [0, 1, 3, 4, 5, 6, 7] ∧
    sequenceNumbers silentAnswer.sent ≠ List.range (sequenceNumbers silentAnswer.sent).length :=
  ⟨rfl, fun h => absurd (congrArg (·[2]?) h) (by decide)⟩

end QwenStack.Grpc
