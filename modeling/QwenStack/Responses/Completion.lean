import QwenStack.Responses.Handlers
import QwenStack.Responses.Indices
import QwenStack.Responses.Turns

/-!
# Tool calls of a streamed response — what is reported as completed

The final response is that of `response.completed`, and if there is none it is made of the response that
`response.created` gave, with the status `completed` put in: no other event is asked whether the response
came to its end.

So a response without `response.completed` is reported or stored as completed exactly when it is reported
or stored at all and `response.created` gave an object, whether or not an event says that it failed:
`incomplete_iff`.  The loop that calls tools reads the events for this once more (`Event.rewrapped`), and
what it reads decides.
-/

namespace QwenStack.Responses

open List

/-- The status of a response is `completed`. -/
def Completed (response : Value) : Prop :=
  response.get "status".toList = some (.string "completed".toList)

/-- The response that an event of the start gives. -/
def Event.createdResponse (types : EventTypes) (e : Event) : Option Value :=
  e.data.bind fun parsed =>
    if getEventType e.eventName parsed = types.created then parsed.get "response".toList else none

/-- The first response that is given. -/
def initialOf (types : EventTypes) (events : List Event) : Option Value :=
  events.findSome? (Event.createdResponse types)

/-- The response that an event of the end gives. -/
def Event.completedResponse (types : EventTypes) (e : Event) : Option Value :=
  e.data.bind fun parsed =>
    if getEventType e.eventName parsed = types.completed then parsed.get "response".toList else none

/-- The last response that is given as complete, and if there is none the first one. -/
def finalOf (types : EventTypes) (events : List Event) : Option Value :=
  (events.reverse.findSome? (Event.completedResponse types)).or (initialOf types events)

/-- No event says that the response is complete. -/
def NoneCompleted (types : EventTypes) (events : List Event) : Prop :=
  ∀ e ∈ events, e.eventType ≠ some types.completed

/-! ### The accumulator -/

namespace Accumulator
variable {types : EventTypes}

theorem initialResponse_ingest (acc : Accumulator) (e : Event) :
    (acc.ingest types e).initialResponse = acc.initialResponse.or (e.createdResponse types) := by
  rw [ingest, Event.createdResponse]
  cases e.data with
  | none => exact Option.or_none.symm
  | some parsed =>
    dsimp only
    rw [Option.bind_some]
    split
    · rfl
    · rw [Option.or_none]
      split
      · rfl
      · split
        · split <;> rfl
        · split <;> rfl

theorem completedResponse_ingest (hne : types.created ≠ types.completed) (acc : Accumulator) (e : Event) :
    (acc.ingest types e).completedResponse = (e.completedResponse types).or acc.completedResponse := by
  rw [ingest, Event.completedResponse]
  cases e.data with
  | none => rfl
  | some parsed =>
    dsimp only
    rw [Option.bind_some]
    split
    · next hcreated =>
      rw [hcreated, if_neg hne]
      rfl
    · split
      · rfl
      · split
        · split <;> rfl
        · split <;> rfl

theorem initialResponse_foldl (events : List Event) (acc : Accumulator) :
    (events.foldl (ingest · types) acc).initialResponse =
      acc.initialResponse.or (initialOf types events) := by
  induction events generalizing acc with
  | nil => exact Option.or_none.symm
  | cons e events ih =>
    rw [foldl_cons, ih, initialResponse_ingest, initialOf, initialOf, List.findSome?_cons]
    cases e.createdResponse types with
    | none => rw [Option.or_none]
    | some r => cases acc.initialResponse <;> rfl

theorem completedResponse_foldl (hne : types.created ≠ types.completed) (events : List Event)
    (acc : Accumulator) : (events.foldl (ingest · types) acc).completedResponse =
      (events.reverse.findSome? (Event.completedResponse types)).or acc.completedResponse := by
  induction events generalizing acc with
  | nil => rfl
  | cons e events ih =>
    rw [foldl_cons, ih, completedResponse_ingest hne, reverse_cons, List.findSome?_append,
      Option.or_assoc, List.findSome?_singleton]

/-- **The accumulator of events** has the last response that is complete, and if there is none one that is
made of the first. -/
theorem finalResponse_foldl (hne : types.created ≠ types.completed) (events : List Event) :
    ((events.foldl (ingest · types) {}).finalResponse).map Value.isObject =
      (finalOf types events).map Value.isObject := by
  rw [finalResponse, buildFallbackResponse, completedResponse_foldl hne, initialResponse_foldl, finalOf,
    Option.or_none, Option.none_or]
  cases events.reverse.findSome? (Event.completedResponse types) with
  | some r => rfl
  | none =>
    rw [Option.none_or, Option.none_or]
    cases initialOf types events with
    | none => rfl
    | some r => exact congrArg some ((Value.isObject_insert ..).trans (Value.isObject_insert ..))

/-- Without an event that says so there is none that is complete. -/
theorem completedResponse_of_none (hne : types.created ≠ types.completed) {events : List Event}
    (h : NoneCompleted types events) :
    (events.foldl (ingest · types) {}).completedResponse = none := by
  rw [completedResponse_foldl hne, Option.or_none, List.findSome?_eq_none_iff]
  intro e he
  have htype := h e (List.mem_reverse.mp he)
  rw [Event.eventType] at htype
  rw [Event.completedResponse]
  cases hdata : e.data with
  | none => rfl
  | some parsed =>
    rw [hdata, Option.map_some, ne_eq, Option.some.injEq] at htype
    rw [Option.bind_some, if_neg htype]

/-- What is made of an accumulator without a response that is complete. -/
theorem finalResponse_of_none {acc : Accumulator} (h : acc.completedResponse = none) :
    acc.finalResponse = acc.buildFallbackResponse := by
  rw [finalResponse, h, Option.none_or]

end Accumulator

/-! ### What keeps a member -/

/-- A change of a response that keeps one of its members. -/
structure KeepsMember (key : Str) (f : Value → Value) : Prop where
  get : ∀ v, (f v).get key = v.get key
  isObject : ∀ v, (f v).isObject = v.isObject

namespace KeepsMember
variable {key : Str} {f g : Value → Value}

theorem comp (hf : KeepsMember key f) (hg : KeepsMember key g) : KeepsMember key fun v => f (g v) where
  get v := (hf.get (g v)).trans (hg.get v)
  isObject v := (hf.isObject (g v)).trans (hg.isObject v)

theorem id : KeepsMember key fun v => v := ⟨fun _ => rfl, fun _ => rfl⟩

/-- Another member is set. -/
theorem insert {key' : Str} (hkey : key ≠ key') (value : Value → Value) :
    KeepsMember key fun v => v.insert key' (value v) where
  get _ := Value.get_insert_of_ne _ _ hkey
  isObject _ := Value.isObject_insert ..

theorem ite (c : Value → Prop) [DecidablePred c] (hf : KeepsMember key f) (hg : KeepsMember key g) :
    KeepsMember key fun v => if c v then f v else g v where
  get v := by
    split
    · exact hf.get v
    · exact hg.get v
  isObject v := by
    split
    · exact hf.isObject v
    · exact hg.isObject v

theorem orInsert {key' : Str} (hkey : key ≠ key') (value : Value) :
    KeepsMember key fun v => v.orInsert key' value :=
  ite _ id (insert hkey fun _ => value)

theorem insertIfMissing (key' : String) (hkey : key ≠ key'.toList) (value : Option Str) :
    KeepsMember key (Responses.insertIfMissing key' value) := by
  cases value with
  | none => exact id
  | some s => exact ite _ (insert hkey fun _ => .string s) id

/-- The members that are put into a response from the request. -/
theorem patch (r : ResponsesRequest) (previousResponseId : Option Str)
    (hkey : ∀ key' ∈ ["previous_response_id", "instructions", "metadata", "store", "model",
      "safety_identifier", "conversation"], key ≠ key'.toList) :
    KeepsMember key (patchResponseWithRequestMetadata r previousResponseId) := by
  simp only [forall_mem_cons, not_mem_nil, false_imp_iff, implies_true, and_true] at hkey
  obtain ⟨hprevious, hinstructions, hmetadata, hstore, hmodel, hidentifier, hconversation⟩ := hkey
  have hmetadata : KeepsMember key (insertMetadata r) := by
    refine ite _ ?_ id
    cases r.metadata with
    | none => exact id
    | some entries => exact insert hmetadata fun _ => .object entries
  have huser : KeepsMember key (insertUser r) := by
    cases huser : r.user with
    | none => exact ⟨fun v => by rw [insertUser, huser], fun v => by rw [insertUser, huser]⟩
    | some user =>
      refine ⟨fun v => ?_, fun v => ?_⟩
      · rw [insertUser, huser]
        split
        · exact Value.get_insert_of_ne _ _ hidentifier
        · rfl
      · rw [insertUser, huser]
        split
        · exact Value.isObject_insert ..
        · rfl
  have hconversation : KeepsMember key (insertConversation r) := by
    cases hid : r.conversation with
    | none => exact ⟨fun v => by rw [insertConversation, hid], fun v => by rw [insertConversation, hid]⟩
    | some id =>
      refine ⟨fun v => ?_, fun v => ?_⟩
      · rw [insertConversation, hid]
        exact Value.get_insert_of_ne _ _ hconversation
      · rw [insertConversation, hid]
        exact Value.isObject_insert ..
  have hstore : KeepsMember key (insertStore r) := insert hstore fun _ => .bool r.storeOrDefault
  exact hconversation.comp (huser.comp ((insertIfMissing _ hmodel _).comp (hstore.comp
    (hmetadata.comp ((insertIfMissing _ hinstructions _).comp (insertIfMissing _ hprevious _))))))

theorem mask (r : ResponsesRequest) (htools : key ≠ "tools".toList)
    (hchoice : key ≠ "tool_choice".toList) : KeepsMember key (maskToolsAsMcp r) := by
  cases htool : r.mcpTool with
  | none => exact ⟨fun v => by rw [maskToolsAsMcp, htool], fun v => by rw [maskToolsAsMcp, htool]⟩
  | some tool =>
    have hset : ∀ tools : Value, KeepsMember key fun v =>
        (v.insert "tools".toList tools).orInsert "tool_choice".toList (.string "auto".toList) :=
      fun tools => (orInsert hchoice _).comp (insert htools fun _ => tools)
    refine ⟨fun v => ?_, fun v => ?_⟩
    · rw [maskToolsAsMcp, htool]
      exact (hset _).get v
    · rw [maskToolsAsMcp, htool]
      exact (hset _).isObject v

theorem inject (ctx : Context) (history : List Value) (generated : Nat)
    (hkey : key ≠ "output".toList) : KeepsMember key (injectMcpMetadata ctx history generated) where
  get v := by
    rw [injectMcpMetadata]
    split
    · exact Value.get_insert_of_ne _ _ hkey
    · exact Value.get_insert_of_ne _ _ hkey
  isObject v := by
    rw [injectMcpMetadata]
    split
    · exact Value.isObject_insert ..
    · exact Value.isObject_insert ..

theorem setId (hkey : key ≠ "id".toList) (id : Option Str) :
    KeepsMember key fun v : Value => match id with
      | some id => v.insert "id".toList (.string id)
      | none => v := by
  cases id with
  | none => exact KeepsMember.id
  | some id => exact insert hkey fun _ => .string id

/-- What is done to a response for the client, or to store it. -/
theorem finish (ctx : Context) (history : List Value) (generated : Nat) (id : Option Str) :
    KeepsMember "status".toList (finishResponse ctx history generated id) :=
  (patch _ _ (by decide)).comp ((mask _ (by decide) (by decide)).comp
    ((inject _ _ _ (by decide)).comp (setId (by decide) id)))

/-- What is made of an initial response is completed if that is an object. -/
theorem completed_iff (hf : KeepsMember "status".toList f) (outputs : List Value) (r : Value) :
    Completed (f ((r.insert "status".toList (.string "completed".toList)).insert "output".toList
      (.array outputs))) ↔ r.isObject = true := by
  rw [Completed, hf.get, Value.get_insert_of_ne _ _ (by decide)]
  refine ⟨fun h => ?_, fun h => Value.get_insert_self _ h⟩
  have hobject := Value.isObject_of_get h
  rwa [Value.isObject_insert] at hobject

end KeepsMember

/-! ### The passthrough -/

section Rewriting
variable (types : ProtocolTypes) (r : ResponsesRequest) (previousResponseId : Option Str)

theorem getEventType_insert_response (eventName : Option Str) (parsed v : Value) :
    getEventType eventName (parsed.insert "response".toList v) = getEventType eventName parsed := by
  rw [getEventType, getEventType, Value.getStr, Value.getStr, Value.get_insert_of_ne _ _ (by decide)]

theorem eventType_rewrite (e : Event) :
    (rewriteStreamingBlock types r previousResponseId e).eventType = e.eventType := by
  rw [rewriteStreamingBlock]
  split
  · rfl
  · next parsed hdata =>
    split
    · rfl
    · split
      · rfl
      · rw [Event.eventType, Event.eventType, hdata, Option.map_some, Option.map_some,
          getEventType_insert_response]

/-- The response of the start is an object after the rewriting if it was one. -/
theorem createdResponse_rewrite (e : Event) :
    ((rewriteStreamingBlock types r previousResponseId e).createdResponse types.toEventTypes).map
        Value.isObject = (e.createdResponse types.toEventTypes).map Value.isObject := by
  have hkeeps : ∀ v, (insertConversation r (insertIfMissing "previous_response_id" previousResponseId
      (insertStore r v))).isObject = v.isObject := by
    intro v
    have hstore : (insertStore r v).isObject = v.isObject := Value.isObject_insert ..
    have hid : KeepsMember "status".toList (insertIfMissing "previous_response_id" previousResponseId) :=
      .insertIfMissing _ (by decide) _
    rw [← hstore, ← hid.isObject (insertStore r v), insertConversation]
    split
    · exact Value.isObject_insert ..
    · rfl
  rw [rewriteStreamingBlock]
  split
  · rfl
  · next parsed hdata =>
    split
    · rfl
    · split
      · rfl
      · next response hresponse =>
        rw [Event.createdResponse, Event.createdResponse, hdata, Option.bind_some,
          Option.bind_some, getEventType_insert_response]
        split
        · rw [Value.get_insert_self _ (Value.isObject_of_get hresponse), hresponse,
            Option.map_some, Option.map_some, hkeeps]
        · rfl

/-- So is the first one. -/
theorem initialOf_rewrite (events remaining : List Event) : (initialOf types.toEventTypes
        (events.map (rewriteStreamingBlock types r previousResponseId) ++ remaining)).map
        Value.isObject =
      (initialOf types.toEventTypes (events ++ remaining)).map Value.isObject := by
  induction events with
  | nil => rfl
  | cons e events ih =>
    have hcreated := createdResponse_rewrite types r previousResponseId e
    rw [initialOf, initialOf] at ih ⊢
    rw [map_cons, cons_append, cons_append, List.findSome?_cons, List.findSome?_cons]
    cases hafter : (rewriteStreamingBlock types r previousResponseId e).createdResponse
        types.toEventTypes with
    | none =>
      rw [hafter] at hcreated
      rw [Option.map_eq_none_iff.mp hcreated.symm]
      exact ih
    | some v =>
      rw [hafter] at hcreated
      obtain ⟨v', hv', hobject⟩ := Option.map_eq_some_iff.mp hcreated.symm
      rw [hv']
      exact congrArg some hobject.symm

end Rewriting

/-- The events of a body. -/
def Body.events (b : Body) : List Event := b.chunks.flatten ++ b.remaining.toList

namespace Forwarder
variable {ctx : Context}

variable (hneeded : Interception.persistNeeded ctx.request = true)
include hneeded

theorem accumulator_ingest (s : Forwarder)
    (e : Event) : (s.ingest ctx e).accumulator = s.accumulator.ingest ctx.types.toEventTypes e := by
  rw [ingest, if_pos hneeded]

theorem accumulator_readChunk
    (events : List Event) (s : Forwarder) : (s.readChunk ctx events).accumulator =
      (events.map (rewriteStreamingBlock ctx.types ctx.request ctx.previousResponseId)).foldl
        (·.ingest ctx.types.toEventTypes ·) s.accumulator := by
  have hfold : ∀ (events : List Event) (s : Forwarder),
      (events.foldl (forwardBlock ctx) s).accumulator =
        (events.map (rewriteStreamingBlock ctx.types ctx.request ctx.previousResponseId)).foldl
          (·.ingest ctx.types.toEventTypes ·) s.accumulator := by
    intro events
    induction events with
    | nil => exact fun _ => rfl
    | cons e events ih =>
      intro s
      have hone : (forwardBlock ctx s e).accumulator = s.accumulator.ingest ctx.types.toEventTypes
          (rewriteStreamingBlock ctx.types ctx.request ctx.previousResponseId e) :=
        accumulator_ingest hneeded s _
      rw [foldl_cons, ih, map_cons, foldl_cons, hone]
  exact hfold events _

theorem accumulator_chunks
    (chunks : List (List Event)) (s : Forwarder) : (chunks.foldl (readChunk ctx) s).accumulator =
      (chunks.flatten.map (rewriteStreamingBlock ctx.types ctx.request ctx.previousResponseId)).foldl
        (·.ingest ctx.types.toEventTypes ·) s.accumulator := by
  induction chunks generalizing s with
  | nil => rfl
  | cons events chunks ih =>
    rw [foldl_cons, ih, accumulator_readChunk hneeded, flatten_cons, map_append, foldl_append]

/-- What a body that did not break off leaves in the accumulator. -/
theorem accumulator_readBody {b : Body} (herror : b.error = none) : (readBody ctx b).accumulator =
      (b.chunks.flatten.map (rewriteStreamingBlock ctx.types ctx.request ctx.previousResponseId) ++
        b.remaining.toList).foldl (·.ingest ctx.types.toEventTypes ·) {} := by
  have hchunks : (b.chunks.foldl (readChunk ctx) {}).accumulator =
      (b.chunks.flatten.map (rewriteStreamingBlock ctx.types ctx.request
        ctx.previousResponseId)).foldl (·.ingest ctx.types.toEventTypes ·) {} :=
    accumulator_chunks hneeded b.chunks {}
  rw [readBody, readEnd, herror, foldl_append, ← hchunks]
  cases b.remaining with
  | none => rfl
  | some e => exact accumulator_ingest hneeded _ e

end Forwarder

theorem ProtocolTypes.created_ne_completed (types : ProtocolTypes) : types.created ≠ types.completed := by
  have h := types.distinct
  simp only [nodup_cons, mem_cons, not_or] at h
  exact h.1.2.1

/-- **The passthrough** stores a response as completed exactly when it stores one that the start gave as an
object. -/
theorem stored_iff (ctx : Context) (b : Body) (h : NoneCompleted ctx.types.toEventTypes b.events) :
    (∀ r, (handleSimpleStreamingPassthrough ctx (.body b)).persisted = some r → ¬ Completed r) ↔
      (Interception.persistNeeded ctx.request = true → b.error = none →
        ∀ r, initialOf ctx.types.toEventTypes b.events = some r → r.isObject = false) := by
  rw [handleSimpleStreamingPassthrough]
  by_cases hstore : Interception.persistNeeded ctx.request = true ∧ b.error = none
  · obtain ⟨hneeded, herror⟩ := hstore
    have hevents : NoneCompleted ctx.types.toEventTypes
        (b.chunks.flatten.map (rewriteStreamingBlock ctx.types ctx.request ctx.previousResponseId) ++
          b.remaining.toList) := by
      intro e he
      rcases List.mem_append.mp he with he | he
      · obtain ⟨e', he', rfl⟩ := List.mem_map.mp he
        rw [eventType_rewrite]
        exact h e' (mem_append_left _ he')
      · exact h e (mem_append_right _ he)
    have hcompleted := Accumulator.completedResponse_of_none ctx.types.created_ne_completed hevents
    rw [if_pos ⟨hneeded, herror⟩, Forwarder.accumulator_readBody hneeded herror,
      Accumulator.finalResponse_of_none hcompleted, Accumulator.buildFallbackResponse,
      Accumulator.initialResponse_foldl, Option.none_or]
    have hobject := initialOf_rewrite ctx.types ctx.request ctx.previousResponseId b.chunks.flatten
      b.remaining.toList
    refine ⟨fun hstored _ _ r hr => ?_, fun hnone r hr hcompleted => ?_⟩
    · rw [Body.events] at hr
      rw [hr] at hobject
      obtain ⟨r', hr', hsame⟩ := Option.map_eq_some_iff.mp hobject
      rw [hr'] at hstored
      have hstored := hstored _ rfl
      rw [(KeepsMember.patch _ _ (by decide)).completed_iff, hsame] at hstored
      exact Bool.eq_false_iff.mpr hstored
    · obtain ⟨response, hresponse, rfl⟩ := Option.map_eq_some_iff.mp hr
      obtain ⟨r', hr', rfl⟩ := Option.map_eq_some_iff.mp hresponse
      rw [(KeepsMember.patch _ _ (by decide)).completed_iff] at hcompleted
      rw [hr'] at hobject
      obtain ⟨r, hr, hsame⟩ := Option.map_eq_some_iff.mp hobject.symm
      have hfalse := hnone hneeded herror r hr
      rw [hsame, hcompleted] at hfalse
      cases hfalse
  · rw [if_neg hstore]
    exact ⟨fun _ hneeded herror => absurd ⟨hneeded, herror⟩ hstore, fun _ _ hr => nomatch hr⟩

/-! ### The streaming loop -/

/-- The response in a block. -/
def Sent.response : Sent → Option Value
  | .event _ _ data => data.get "response".toList
  | _ => none

namespace Interception

/-- A run comes to its end with a stream that was read to its end; the state before it, and its events. -/
def Completes (ctx : Context) (payload : Value) (answers : List Answer) (s : Interception)
    (events : List Event) (stream : Stream) : Prop :=
  ∃ past, past ++ [.stream events none] <+: answers ∧ runFrom ctx payload past = (s, true) ∧
    s.send.start.run ctx events = (stream, false)

/-- The event that `send_final_response_event` sends, if it sends one. -/
def finalEvent (ctx : Context) (s : Interception) (stream : Stream) : Option Sent :=
  (sendFinalResponseEvent ctx stream.loop.handler stream.accumulator s.state.conversationHistory
    (s.send.keep stream).client).channel[(s.send.keep stream).client.channel.length]?

/-- **The property**: no response is reported or stored as completed. -/
structure NeverCompleted (ctx : Context) (payload : Value) (answers : List Answer) : Prop where
  reported : ∀ s events stream, Completes ctx payload answers s events stream →
    ∀ block, finalEvent ctx s stream = some block → ∀ r, block.response = some r → ¬ Completed r
  stored : ∀ r, (runFrom ctx payload answers).1.persisted = some r → ¬ Completed r

section Final
variable {ctx : Context} {s : Interception} {stream : Stream}

/-- The final event has the final response, with the status put in. -/
theorem finalEvent_eq : finalEvent ctx s stream = stream.accumulator.finalResponse.map fun response =>
    .event none (some ctx.types.completed) (.ofMembers ([("type", .string ctx.types.completed),
        ("sequence_number", .integer (s.send.keep stream).client.sequenceNumber)] ++
        [("response", (finishResponse ctx s.state.conversationHistory
          (s.send.keep stream).client.generated
          (originalResponseId stream.loop.handler stream.accumulator) response).insert
            "status".toList (.string "completed".toList))])) := by
  rw [finalEvent, sendFinalResponseEvent]
  cases stream.accumulator.finalResponse with
  | none => exact List.getElem?_eq_none (Nat.le_refl _)
  | some response =>
    refine (List.getElem?_append_right (Nat.le_refl _)).trans ?_
    rw [Nat.sub_self]
    rfl

/-- What is reported of a response has the status put in. -/
theorem reported_iff : (∀ block, finalEvent ctx s stream = some block →
      ∀ r, block.response = some r → ¬ Completed r) ↔
    ∀ r, stream.accumulator.finalResponse = some r → r.isObject = false := by
  rw [finalEvent_eq]
  cases stream.accumulator.finalResponse with
  | none => refine ⟨fun _ _ h => ?_, fun _ _ h => ?_⟩ <;> cases h
  | some r =>
    have hkeeps := KeepsMember.finish ctx s.state.conversationHistory
      (s.send.keep stream).client.generated
      (originalResponseId stream.loop.handler stream.accumulator)
    simp only [Option.map_some, Option.some.injEq, forall_eq', Sent.response, cons_append,
      nil_append, Value.get_ofMembers_cons, String.reduceEq, if_false, if_true, Completed]
    rw [← Bool.not_eq_true]
    refine not_congr ⟨fun h => ?_, fun h => Value.get_insert_self _ ?_⟩
    · have hobject := Value.isObject_of_get h
      rwa [Value.isObject_insert, hkeeps.isObject] at hobject
    · rwa [hkeeps.isObject]

/-- What is stored is completed only if it is an object. -/
theorem stored_of_complete (hs : s.persisted = none)
    (hfinal : ∀ r, stream.accumulator.finalResponse = some r → r.isObject = false) :
    ∀ r, ((s.send.keep stream).complete ctx stream).persisted = some r → ¬ Completed r := by
  intro r hr hstatus
  rw [complete] at hr
  split at hr
  · next response hneeded hresponse =>
    cases hr
    have hobject := Value.isObject_of_get hstatus
    rw [(KeepsMember.finish _ _ _ _).isObject, hfinal response hresponse] at hobject
    cases hobject
  · exact Option.some_ne_none _ (hr.symm.trans hs)

end Final

theorem accumulator_forward {ctx : Context} (s : Stream) (e : Event) :
    (s.forward ctx e).accumulator = s.accumulator := by
  rw [Stream.forward, Stream.sendUnlessSkipped]
  split <;> rfl

/-- A stream that was read to its end has read all events. -/
theorem accumulator_of_readOut {ctx : Context} {s stream : Stream} {events : List Event}
    (h : s.run ctx events = (stream, false)) :
    stream.accumulator =
      (events.map Event.rewrapped).foldl (·.ingest ctx.types.toEventTypes ·) s.accumulator := by
  have hstep : ∀ {s s' : Stream} {e : Event}, Stream.step ctx s e = (s', none) →
      s'.accumulator = s.accumulator.ingest ctx.types.toEventTypes e.rewrapped := by
    intro s s' e h
    rw [Stream.step] at h
    cases hprocess : s.process ctx e with
    | mk s'' action =>
      have hacc : s''.accumulator = s.accumulator.ingest ctx.types.toEventTypes e.rewrapped :=
        congrArg (fun r => r.1.accumulator) hprocess.symm
      rw [hprocess] at h
      cases action with
      | forward =>
        obtain rfl : s''.forward ctx e = s' := congrArg Prod.fst h
        exact (accumulator_forward s'' e).trans hacc
      | buffer => exact (congrArg (·.1.accumulator) h).symm.trans hacc
      | executeTools => cases congrArg Prod.snd h
  have hrun := Stream.run_rule ctx events (P := fun past s' => s'.accumulator =
      (past.map Event.rewrapped).foldl (·.ingest ctx.types.toEventTypes ·) s.accumulator)
    (Q := fun _ => True)
    (fun past e s₁ s₂ _ hpast h => by
      rw [hstep h, hpast, map_append, foldl_append]
      rfl)
    (fun _ _ _ _ _ _ _ _ => trivial) (s := s) rfl
  rw [h] at hrun
  exact hrun

section Runs
variable {ctx : Context} {payload : Value} {answers : List Answer}

/-- Nothing is stored while the loop goes on. -/
theorem persisted_of_goesOn {s : Interception} (h : runFrom ctx payload answers = (s, true)) :
    s.persisted = none := by
  have hrun := run_rule ctx payload answers (P := fun _ s => s.persisted = none) (Q := fun _ => True)
    (fun past answer s s' _ hs hturn => by
      cases hturn with
      | resumed hrun hlimit hresume => exact (callTools_persisted ..).trans hs)
    (fun _ _ _ _ _ _ _ => trivial) (s := { currentPayload := payload }) rfl
  rw [runFrom] at h
  rw [h] at hrun
  exact hrun

/-- What the accumulator has at the end of a run. -/
theorem Completes.finalResponse {s : Interception} {events : List Event} {stream : Stream}
    (h : Completes ctx payload answers s events stream) :
    (∀ r, stream.accumulator.finalResponse = some r → r.isObject = false) ↔
      ∀ r, finalOf ctx.types.toEventTypes (events.map Event.rewrapped) = some r → r.isObject = false := by
  obtain ⟨-, -, -, hrun⟩ := h
  have hsame := Accumulator.finalResponse_foldl ctx.types.created_ne_completed (events.map Event.rewrapped)
  have hacc : stream.accumulator = (events.map Event.rewrapped).foldl (·.ingest ctx.types.toEventTypes ·) {} :=
    accumulator_of_readOut hrun
  rw [← hacc] at hsame
  have hnone : ∀ o : Option Value, (∀ r, o = some r → r.isObject = false) ↔
      o.map Value.isObject ≠ some true := fun o => by
    cases o with
    | none => simp
    | some r => simp
  rw [hnone, hsame, ← hnone]

/-- **The streaming loop** reports or stores a response as completed exactly when it comes to its end with
one that is an object. -/
theorem neverCompleted_iff : NeverCompleted ctx payload answers ↔
    ∀ s events stream, Completes ctx payload answers s events stream →
      ∀ r, finalOf ctx.types.toEventTypes (events.map Event.rewrapped) = some r → r.isObject = false := by
  refine ⟨fun hnever s events stream hends => hends.finalResponse.mp
    (reported_iff.mp (hnever.reported s events stream hends)), fun hobject => ⟨?_, ?_⟩⟩
  · exact fun s events stream hends =>
      reported_iff.mpr (hends.finalResponse.mpr (hobject s events stream hends))
  · cases hrun : runFrom ctx payload answers with
    | mk s' goesOn =>
      cases goesOn with
      | true =>
        intro r hr
        rw [persisted_of_goesOn hrun] at hr
        cases hr
      | false =>
        obtain ⟨past, answer, s, hle, hpast, -, hturn⟩ := run_last hrun
        have hs : s.persisted = none := persisted_of_goesOn hpast
        have hnotStored : ∀ {s' : Interception}, s'.persisted = none →
            ∀ r, s'.persisted = some r → ¬ Completed r := fun h r hr =>
          absurd (hr.symm.trans h) (Option.some_ne_none r)
        cases hturn with
        | failed message hanswer => exact hnotStored hs
        | exceeded hrun hlimit => exact hnotStored hs
        | unresumed hrun hlimit hresume => exact hnotStored ((callTools_persisted ..).trans hs)
        | broken hrun => exact hnotStored hs
        | @completed events stream hstream =>
          have hends : Completes ctx payload answers s events stream :=
            ⟨past, hle, hpast, hstream⟩
          exact stored_of_complete hs (hends.finalResponse.mpr (hobject s events stream hends))

end Runs

end Interception

/-- **Responses that did not complete**: one is reported or stored as completed exactly when the stream is read
to its end and the accumulator has read an object there, whatever the other events say; the passthrough only
stores it, if that is asked for. -/
theorem incomplete_iff (ctx : Context) (payload : Value) :
    (∀ b : Body, NoneCompleted ctx.types.toEventTypes b.events →
      ((∀ r, (handleSimpleStreamingPassthrough ctx (.body b)).persisted = some r → ¬ Completed r) ↔
        (Interception.persistNeeded ctx.request = true → b.error = none →
          ∀ r, initialOf ctx.types.toEventTypes b.events = some r → r.isObject = false))) ∧
    ∀ answers, Interception.NeverCompleted ctx payload answers ↔
      ∀ s events stream, Interception.Completes ctx payload answers s events stream →
        ∀ r, finalOf ctx.types.toEventTypes (events.map Event.rewrapped) = some r → r.isObject = false :=
  ⟨stored_iff ctx, fun _ => Interception.neverCompleted_iff⟩

/-- A response that starts and fails. -/
def failedEvents : List Event :=
  [{ eventName := some openAi.created, data := some (.object [("response".toList, .object [])]) },
    { eventName := some "response.failed".toList, data := some (.object []) }]

/-- A request whose response is stored. -/
def storingContext : Context :=
  { plainContext with request := { input := .items [], model := [], store := some true } }

/-- It is reported as completed, and stored so. -/
theorem failed_as_completed :
    NoneCompleted openAi failedEvents ∧
      ¬ Interception.NeverCompleted plainContext (.object []) [.stream failedEvents none] ∧
      ∃ r, (handleSimpleStreamingPassthrough storingContext
        (.body ⟨[failedEvents], none, none⟩)).persisted = some r ∧ Completed r := by
  have hnone : ∀ e ∈ failedEvents, e.eventType ≠ some openAi.completed := by decide
  refine ⟨hnone, fun hnever => ?_, _, rfl, rfl⟩
  have hends : Interception.Completes plainContext (.object []) [.stream failedEvents none]
      { currentPayload := .object [] } failedEvents _ := ⟨[], prefix_refl _, rfl, rfl⟩
  have hobject := Interception.neverCompleted_iff.mp hnever _ _ _ hends (.object []) rfl
  cases hobject

end QwenStack.Responses
