import QwenStack.Responses.ToolLoop

/-!
# Tool calls of a streamed response — sequence numbers

The numbers of the upstream start again with each iteration, and the gateway sends events of its own
between those that it forwards; so each event takes a number of the client when it is sent.

What every way of sending keeps (`Client.Keeps`), a whole run keeps (`Interception.run_keeps`).
`numbered_run`: the sequence numbers that the client reads are 0, 1, 2 and so on.
-/

namespace QwenStack.Responses

open List

/-! ### What every way of sending keeps -/

/-- A property of the client that it has after whatever is sent. -/
structure Client.Keeps (P : Client → Prop) : Prop where
  generated : ∀ {c : Client} (n : Nat), P c → P { c with generated := n }
  verbatim : ∀ {c : Client} (e : Event), P c → P (c.send (.verbatim e))
  error : ∀ {c : Client} (message : Str), P c → P (c.send (.error message))
  done : ∀ {c : Client}, P c → P (c.send .done)
  event : ∀ {c : Client} (item : Option Item) (name : Str) (members : List (String × Value)),
    P c → P (c.sendEvent item name members)
  numbered : ∀ {c : Client} (item : Option Item) (name : Option Str) (parsed : Value),
    P c → P (c.sendNumbered item name parsed)

section Keeps
variable {P : Client → Prop} (hk : Client.Keeps P) {ctx : Context} {c : Client}
include hk

theorem sendBufferedArguments_keeps (item : Option Item) (h : StreamingToolHandler) (parsed : Value)
    (hc : P c) : P (sendBufferedArguments ctx item h parsed c).2.2 := by
  rw [sendBufferedArguments]
  split
  · exact hc
  · split
    · exact hc
    · exact hk.event _ _ _ hc

theorem sendBuffered_keeps (item : Option Item) (h : StreamingToolHandler) (eventName : Option Str)
    (parsed : Value) (hc : P c) : P (sendBuffered ctx item h eventName parsed c).2.2 := by
  rw [sendBuffered]
  split
  · exact sendBufferedArguments_keeps hk item h parsed hc
  · exact hc

theorem maybeInjectMcpInProgress_keeps (item : Option Item) (parsed : Value) (hc : P c) :
    P (maybeInjectMcpInProgress ctx item parsed c) := by
  rw [maybeInjectMcpInProgress]
  split
  · exact hc
  · split
    · split
      · exact hk.event _ _ _ hc
      · exact hc
    · exact hc

theorem forwardStreamingEvent_keeps (iteration : Nat) (h : StreamingToolHandler) (acc : Accumulator)
    (e : Event) (hc : P c) : P (forwardStreamingEvent ctx iteration h acc c e) := by
  rw [forwardStreamingEvent]
  split
  · exact hc
  · split
    · exact hk.verbatim e hc
    · next parsed hdata =>
      split
      · exact hc
      · have hbuffered : P (sendBuffered ctx
            ((extractOutputIndex parsed).map (Item.upstream iteration)) h e.eventName parsed c).2.2 :=
          sendBuffered_keeps hk _ h e.eventName parsed hc
        split
        · exact maybeInjectMcpInProgress_keeps hk _ _ (hk.numbered _ _ _ hbuffered)
        · exact hk.numbered _ _ _ hbuffered

theorem sendMcpListToolsEvents_keeps (outputIndex : Nat) (hc : P c) :
    P (sendMcpListToolsEvents ctx outputIndex c) :=
  hk.event _ _ _ (hk.event _ _ _ (hk.event _ _ _ (hk.event _ _ _ (hk.generated _ hc))))

theorem sendMcpCallCompletionEvents_keeps (iteration : Nat) (call : FunctionCallInProgress)
    (output : Str) (success : Bool) (error : Option Str) (hc : P c) :
    P (sendMcpCallCompletionEvents ctx iteration call output success error c) :=
  hk.event _ _ _ (hk.event _ _ _ (hk.generated _ hc))

theorem sendFinalResponseEvent_keeps (h : StreamingToolHandler) (acc : Accumulator)
    (history : List Value) (hc : P c) : P (sendFinalResponseEvent ctx h acc history c) := by
  rw [sendFinalResponseEvent]
  split
  · exact hc
  · exact hk.event _ _ _ (hk.generated _ hc)

theorem Stream.sendForward_keeps {s : Stream} (e : Event) (hs : P s.client) :
    P (s.sendForward ctx e).client :=
  forwardStreamingEvent_keeps hk s.iteration s.loop.handler s.accumulator e hs

theorem Stream.forward_keeps {s : Stream} (e : Event) (hs : P s.client) :
    P (s.forward ctx e).client := by
  have hsent : P (s.sendUnlessSkipped ctx e).client := by
    rw [Stream.sendUnlessSkipped]
    split
    · exact hs
    · exact Stream.sendForward_keeps hk e hs
  change P ((s.sendUnlessSkipped ctx e).sendListTools ctx e)
  rw [Stream.sendListTools]
  split
  · exact sendMcpListToolsEvents_keeps hk _ hsent
  · exact hsent

theorem Stream.run_keeps {s : Stream} (events : List Event) (hs : P s.client) :
    P (s.run ctx events).1.client := by
  induction events generalizing s with
  | nil => exact hs
  | cons e events ih =>
    have hprocess : P (s.process ctx e).1.client := hs
    rw [Stream.run]
    cases hevent : s.process ctx e with
    | mk s' action =>
      rw [hevent] at hprocess
      cases action with
      | forward => exact ih (Stream.forward_keeps hk e hprocess)
      | buffer => exact ih hprocess
      | executeTools => exact Stream.sendForward_keeps hk e hprocess

theorem Interception.callTools_keeps (iteration : Nat) (calls : List ToolCall) {s : Interception}
    (hs : P s.client) : P (s.callTools ctx iteration calls).client := by
  induction calls generalizing s with
  | nil => exact hs
  | cons t calls ih => exact ih (sendMcpCallCompletionEvents_keeps hk _ _ _ _ _ hs)

theorem Interception.stop_keeps (message : Str) {s : Interception} (hs : P s.client) :
    P (s.stop message).1.client :=
  hk.done (hk.error message hs)

theorem Interception.executeTools_keeps (basePayload : Value)
    (pendingCalls : List FunctionCallInProgress) {s : Interception} (hs : P s.client) :
    P (s.executeTools ctx basePayload pendingCalls).1.client := by
  rw [Interception.executeTools]
  split
  · exact Interception.stop_keeps hk _ hs
  · have hcalled : P ((s.count pendingCalls.length).callTools ctx s.state.iteration
        (executeStreamingToolCalls pendingCalls)).client :=
      Interception.callTools_keeps hk _ _ hs
    rw [Interception.resume]
    split
    · exact hcalled
    · exact Interception.stop_keeps hk _ hcalled

theorem Interception.complete_keeps (stream : Stream) {s : Interception} (hs : P s.client) :
    P (s.complete ctx stream).client := by
  have hfinal : P (sendFinalResponseEvent ctx stream.loop.handler stream.accumulator
      s.state.conversationHistory s.client) := sendFinalResponseEvent_keeps hk _ _ _ hs
  rw [Interception.complete]
  split
  · exact hk.done hfinal
  · exact hk.done hfinal

/-- **A turn** keeps what every way of sending keeps. -/
theorem Interception.turn_keeps (basePayload : Value) (answer : Answer) {s : Interception}
    (hs : P s.client) : P (s.turn ctx basePayload answer).1.client := by
  cases answer with
  | unreachable e => exact hk.error _ hs
  | refused status body => exact hk.error _ hs
  | stream events error =>
    have hrun : P (s.send.start.run ctx events).1.client := Stream.run_keeps hk events hs
    rw [Interception.turn]
    dsimp only
    unfold Interception.leave
    split
    · exact Interception.executeTools_keeps hk _ _ hrun
    · split
      · exact hk.error _ hrun
      · exact Interception.complete_keeps hk _ hrun

/-- **A run** does. -/
theorem Interception.run_keeps (basePayload : Value) (answers : List Answer) {s : Interception}
    (hs : P s.client) : P (s.run ctx basePayload answers).1.client := by
  induction answers generalizing s with
  | nil => exact hs
  | cons answer answers ih =>
    have hturn : P (s.turn ctx basePayload answer).1.client :=
      Interception.turn_keeps hk basePayload answer hs
    rw [Interception.run]
    cases h : s.turn ctx basePayload answer with
    | mk s' goesOn =>
      rw [h] at hturn
      cases goesOn with
      | true => exact ih hturn
      | false => exact hturn

end Keeps

/-! ### Numbers -/

/-- The sequence number that the client reads in a block. -/
def Sent.sequenceNumber : Sent → Option Value
  | .event _ _ data => data.get "sequence_number".toList
  | _ => none

/-- The sequence numbers are 0, 1, 2 and so on. -/
def Client.Numbered (c : Client) : Prop :=
  c.channel.filterMap Sent.sequenceNumber =
    (List.range c.sequenceNumber).map fun n : Nat => Value.integer n

theorem Client.numbered_send {c : Client} {block : Sent} (hblock : block.sequenceNumber = none)
    (h : c.Numbered) : (c.send block).Numbered := by
  rw [Numbered, send, filterMap_append, filterMap_cons_none hblock, filterMap_nil, append_nil]
  exact h

theorem Client.numbered_next {c : Client} {block : Sent}
    (hblock : block.sequenceNumber = some (.integer c.sequenceNumber)) (h : c.Numbered) :
    ({ c with channel := c.channel ++ [block], sequenceNumber := c.sequenceNumber + 1 } :
      Client).Numbered := by
  rw [Numbered, filterMap_append, filterMap_cons_some hblock, filterMap_nil, range_succ, map_append, h]
  rfl

theorem Client.numbered_keeps : Client.Keeps Client.Numbered where
  generated _ h := h
  verbatim _ h := numbered_send rfl h
  error _ h := numbered_send rfl h
  done h := numbered_send rfl h
  event item name members h := by
    refine numbered_next ?_ h
    rw [Sent.sequenceNumber, cons_append, Value.get_ofMembers_cons, if_neg (by decide),
      cons_append, Value.get_ofMembers_cons, if_pos rfl]
  numbered {c} item name parsed h := by
    rw [sendNumbered]
    split
    · next hnumber =>
      obtain ⟨v, hv⟩ := Option.isSome_iff_exists.mp hnumber
      exact numbered_next (Value.get_insert_self _ (Value.isObject_of_get hv)) h
    · next hnumber => exact numbered_send (Option.not_isSome_iff_eq_none.mp hnumber) h

/-- **Sequence numbers**: over every run, those that the client reads are 0, 1, 2 and so on. -/
theorem numbered_run (ctx : Context) (payload : Value) (answers : List Answer) :
    (Interception.runFrom ctx payload answers).1.client.Numbered :=
  Interception.run_keeps Client.numbered_keeps payload answers rfl

end QwenStack.Responses
