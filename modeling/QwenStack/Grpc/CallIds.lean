import QwenStack.Grpc.Memory
import QwenStack.Support.Preceded

/-!
# Responses over chat — the ids of calls

`gateway/src/routers/grpc/regular/responses/conversions.rs`: a call becomes a message of the assistant, a
result becomes a tool message, and a call with its result becomes both.  The message of a call has the `id`
of the item, and so has the result in the same item; a result in an item of its own has its `call_id`.

`pointsAtCalls_iff`: results point at their calls exactly if each result of its own comes after a call whose
two ids are one.
-/

namespace QwenStack.Grpc

open List
open Harmony (ToolCall FunctionCallResponse)
open Preceded (Each)

/-- A message with the item it comes from. -/
structure Sourced where
  message : ChatMessage
  item : Option InputItem

def InputItem.sourced (item : InputItem) : List Sourced :=
  item.messages.map fun message => ⟨message, some item⟩

/-- The messages of a request with their items. -/
def sourcedMessages (req : ResponsesRequest) : List Sourced :=
  (systemMessages req.instructions).map (fun message => ⟨message, none⟩) ++
    match req.input with
    | .text s => [⟨.user s, none⟩]
    | .items items => items.flatMap InputItem.sourced

/-- The calls of a message. -/
def ChatMessage.calls : ChatMessage → List ToolCall
  | .assistant _ (some toolCalls) _ => toolCalls
  | _ => []

/-- What a call and its result have in common. -/
def InputItem.callId : InputItem → Option Str
  | .functionToolCall _ callId .. => some callId
  | .functionCallOutput callId _ => some callId
  | _ => none

/-- A result comes after a message with a call of its id, which is from an item with the same `call_id`. -/
def PointsAtCall (before : List Sourced) (sourced : Sourced) : Prop :=
  ∀ content toolCallId, sourced.message = .tool content toolCallId →
    ∃ earlier ∈ before, (∃ call ∈ earlier.message.calls, call.id = toolCallId) ∧
      earlier.item.bind InputItem.callId = sourced.item.bind InputItem.callId

/-- **The property** of all messages. -/
def PointsAtCalls (req : ResponsesRequest) : Prop := Each PointsAtCall (sourcedMessages req)

/-- **The condition**: a result of its own comes after a call with its `call_id` as both ids. -/
def HasCall (before : List InputItem) : InputItem → Prop
  | .functionCallOutput callId _ => ∃ name arguments output status,
      .functionToolCall callId callId name arguments output status ∈ before
  | _ => True

/-! ### Messages of items -/

theorem sourcedMessages_messages (req : ResponsesRequest) :
    (sourcedMessages req).map Sourced.message = systemMessages req.instructions ++ req.input.messages := by
  rw [sourcedMessages, map_append, map_map]
  congr 1
  · exact map_id _
  · cases req.input with
    | text s => rfl
    | items items =>
      rw [ResponseInput.messages, map_flatMap]
      refine flatMap_congr fun item _ => ?_
      rw [InputItem.sourced, map_map]
      exact map_id _

theorem roleToChatMessage_ne_tool {role text content toolCallId : Str} :
    roleToChatMessage role text ≠ .tool content toolCallId := by
  rcases roleToChatMessage_cases role with h | h | h
  · simp [h]
  · simp [h]
  · simp [h]

theorem calls_roleToChatMessage {role text : Str} : (roleToChatMessage role text).calls = [] := by
  rcases roleToChatMessage_cases role with h | h | h
  · rw [h]
    rfl
  · rw [h]
    rfl
  · rw [h]
    rfl

/-- A message with a call is from the item of that call. -/
theorem InputItem.eq_of_mem_calls {item : InputItem} {message : ChatMessage} {call : ToolCall}
    (hmessage : message ∈ item.messages) (hcall : call ∈ message.calls) :
    ∃ callId name arguments output status,
      item = .functionToolCall call.id callId name arguments output status := by
  cases item with
  | simpleInputMessage content role =>
    rw [List.mem_singleton.mp hmessage, calls_roleToChatMessage] at hcall
    cases hcall
  | message id role content status =>
    rw [List.mem_singleton.mp hmessage, calls_roleToChatMessage] at hcall
    cases hcall
  | reasoning id content status =>
    rw [List.mem_singleton.mp hmessage] at hcall
    cases hcall
  | functionCallOutput callId output =>
    rw [List.mem_singleton.mp hmessage] at hcall
    cases hcall
  | functionToolCall id callId name arguments output status =>
    rcases List.mem_cons.mp hmessage with rfl | hmessage
    · rw [List.mem_singleton.mp hcall]
      exact ⟨_, _, _, _, _, rfl⟩
    · cases output with
      | none => cases hmessage
      | some outputText =>
        rw [List.mem_singleton.mp hmessage] at hcall
        cases hcall

/-- A message that is no result points at nothing. -/
theorem pointsAtCall_of_ne {before : List Sourced} {sourced : Sourced}
    (h : ∀ content toolCallId, sourced.message ≠ .tool content toolCallId) : PointsAtCall before sourced :=
  fun content toolCallId heq => absurd heq (h content toolCallId)

/-- **One item**: its results point at their calls if it has its call. -/
theorem each_pointsAtCall {system : List Sourced} (hsystem : ∀ sourced ∈ system, sourced.item = none)
    (before : List InputItem) (item : InputItem) :
    Each (fun before' => PointsAtCall (system ++ (before.flatMap InputItem.sourced ++ before'))) item.sourced ↔
      HasCall before item := by
  cases item with
  | simpleInputMessage content role =>
    refine iff_of_true (Preceded.each_singleton.mpr (pointsAtCall_of_ne ?_)) trivial
    exact fun content toolCallId => roleToChatMessage_ne_tool
  | message id role content status =>
    refine iff_of_true (Preceded.each_singleton.mpr (pointsAtCall_of_ne ?_)) trivial
    exact fun content toolCallId => roleToChatMessage_ne_tool
  | reasoning id content status =>
    refine iff_of_true (Preceded.each_singleton.mpr (pointsAtCall_of_ne ?_)) trivial
    intro content toolCallId heq
    cases heq
  | functionToolCall id callId name arguments output status =>
    refine iff_of_true (Preceded.each_cons.mpr ⟨pointsAtCall_of_ne ?_, ?_⟩) trivial
    · intro content toolCallId heq
      cases heq
    · cases output with
      | none => exact Preceded.each_nil
      | some outputText =>
        refine Preceded.each_singleton.mpr ?_
        intro content toolCallId heq
        obtain ⟨rfl, rfl⟩ := ChatMessage.tool.inj heq
        -- the message of the call is the one before
        refine ⟨_, mem_append_right _ (mem_append_right _ (mem_singleton_self _)), ?_, rfl⟩
        exact ⟨_, mem_singleton_self _, rfl⟩
  | functionCallOutput callId output =>
    refine Preceded.each_singleton.trans ?_
    rw [append_nil]
    constructor
    · intro h
      obtain ⟨earlier, hmem, ⟨call, hcall, hid⟩, hsame⟩ := h output callId rfl
      rcases List.mem_append.mp hmem with hmem | hmem
      · rw [hsystem earlier hmem] at hsame
        cases hsame
      · obtain ⟨item, hitem, hmem⟩ := List.mem_flatMap.mp hmem
        obtain ⟨message, hmessage, rfl⟩ := List.mem_map.mp hmem
        obtain ⟨callId', name, arguments, output', status, rfl⟩ := InputItem.eq_of_mem_calls hmessage hcall
        obtain rfl : callId' = callId := Option.some.inj hsame
        exact ⟨name, arguments, output', status, hid ▸ hitem⟩
    · rintro ⟨name, arguments, output', status, hitem⟩ content toolCallId heq
      obtain ⟨rfl, rfl⟩ := ChatMessage.tool.inj heq
      refine ⟨_, mem_append_right _ (List.mem_flatMap.mpr ⟨_, hitem, mem_cons_self⟩), ?_, rfl⟩
      exact ⟨_, mem_singleton_self _, rfl⟩

/-- **Results point at their calls** exactly if each result of its own comes after a call with its `call_id`
as both ids. -/
theorem pointsAtCalls_iff (unknownModelId : Str) (req : ResponsesRequest) (chat : ChatCompletionRequest)
    (hchat : responsesToChat unknownModelId req = .ok chat) :
    (sourcedMessages req).map Sourced.message = chat.messages ∧
      (PointsAtCalls req ↔ Each HasCall req.input.list) := by
  have hmessages : chat.messages = systemMessages req.instructions ++ req.input.messages := by
    unfold responsesToChat at hchat
    dsimp only at hchat
    split at hchat
    · cases hchat
    · cases hchat
      rfl
  refine ⟨(sourcedMessages_messages req).trans hmessages.symm, ?_⟩
  have hsystem : ∀ sourced ∈ (systemMessages req.instructions).map (Sourced.mk · none),
      sourced.item = none ∧ ∀ content toolCallId, sourced.message ≠ .tool content toolCallId := by
    intro sourced hmem
    obtain ⟨message, hmessage, rfl⟩ := List.mem_map.mp hmem
    refine ⟨rfl, ?_⟩
    rintro content toolCallId rfl
    cases hinstructions : req.instructions <;> simp [systemMessages, hinstructions] at hmessage
  have heach : Each PointsAtCall ((systemMessages req.instructions).map (Sourced.mk · none)) := by
    intro before sourced after hsplit
    exact pointsAtCall_of_ne (hsystem sourced (by simp [hsplit])).2
  rw [PointsAtCalls, sourcedMessages, Preceded.each_append, and_iff_right heach]
  cases req.input with
  | text s =>
    refine iff_of_true (Preceded.each_singleton.mpr (pointsAtCall_of_ne ?_)) Preceded.each_nil
    intro content toolCallId heq
    cases heq
  | items items =>
    refine Preceded.each_flatMap.trans (Preceded.each_congr fun before item _ => ?_)
    exact each_pointsAtCall (fun sourced hmem => (hsystem sourced hmem).1) before item

/-! ### A call with two ids -/

/-- A call and its result, in items of their own. -/
def callRequest (id : String) : ResponsesRequest where
  input := .items [.functionToolCall id.toList "call_1".toList "f".toList "1".toList none none,
    .functionCallOutput "call_1".toList "2".toList]

theorem pointsAtCalls_call_1 : PointsAtCalls (callRequest "call_1") := by
  refine (pointsAtCalls_iff [] (callRequest "call_1") _ rfl).2.mpr ?_
  refine Preceded.each_cons.mpr ⟨trivial, Preceded.each_singleton.mpr ?_⟩
  exact ⟨_, _, _, _, mem_singleton_self _⟩

/-- The result is not of the id that the call has in its message. -/
theorem result_points_nowhere :
    (∃ chat, responsesToChat [] (callRequest "fc_1") = .ok chat ∧
      chat.messages = [.assistant none (some [⟨"fc_1".toList, "function".toList,
        ⟨"f".toList, some "1".toList⟩⟩]) none, .tool "2".toList "call_1".toList]) ∧
    ¬ PointsAtCalls (callRequest "fc_1") := by
  refine ⟨⟨_, rfl, rfl⟩, fun h => ?_⟩
  obtain ⟨earlier, hmem, ⟨call, hcall, hid⟩, -⟩ :=
    h [⟨_, _⟩] ⟨.tool "2".toList "call_1".toList, _⟩ [] rfl _ _ rfl
  obtain rfl := List.mem_singleton.mp hmem
  obtain rfl := List.mem_singleton.mp hcall
  exact absurd hid (by decide)

end QwenStack.Grpc
