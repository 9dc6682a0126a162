import QwenStack.Grpc.Accounts

/-!
# Responses over chat — what the model is told

A turn tells the model what the turn before has told it, and then the calls of that turn with what they
gave.  The request of a turn is not built from the one before but from the input as the client sent it, each
item of it normalised, and from the calls of the run.

So what was loaded before the loop (a chain of responses, a conversation) is told in the first turn only;
and a simple message of several parts reads differently once it is normalised, as its texts are joined with
blanks before and with nothing after, and the parts that are output are left out before.  Nothing else is
forgotten: `remembers_iff`.
-/

namespace QwenStack.Grpc

open List

/-! ### The law -/

section Law
variable (callTool : List (Str × Str) → CallResult)
  (answer : List ChatCompletionRequest → List ExtractedToolCall)

/-- The messages of calls, with what they gave after the calls before them. -/
def callMessages : List (Str × Str) → List ExtractedToolCall → List ChatMessage
  | _, [] => []
  | called, tc :: rest =>
      .assistant none (some [⟨tc.callId, "function".toList, ⟨tc.name, some tc.arguments⟩⟩]) none ::
        .tool (callTool (called ++ [(tc.name, tc.arguments)])).outcome.1 tc.callId ::
          callMessages (called ++ [(tc.name, tc.arguments)]) rest

/-- The calls of the answers to some requests. -/
def calledBy (past : List ChatCompletionRequest) : List (Str × Str) :=
  (past.inits.tail.flatMap answer).map fun tc => (tc.name, tc.arguments)

/-- **The law**: each request tells what the one before has told, and then the calls of its answer. -/
def Remembers (asked : List ChatCompletionRequest) : Prop :=
  ∀ past r r', past ++ [r, r'] <+: asked →
    r'.messages = r.messages ++ callMessages callTool (calledBy answer past) (answer (past ++ [r]))

/-- The messages of all calls so far. -/
def historyMessages (asked : List ChatCompletionRequest) : List ChatMessage :=
  asked.inits.tail.flatMap fun past => callMessages callTool (calledBy answer past.dropLast) (answer past)

variable {callTool answer}

theorem calledBy_concat (past : List ChatCompletionRequest) (r : ChatCompletionRequest) :
    calledBy answer (past ++ [r]) =
      calledBy answer past ++ (answer (past ++ [r])).map fun tc => (tc.name, tc.arguments) := by
  rw [calledBy, inits_tail_concat]
  simp [calledBy]

theorem historyMessages_concat (past : List ChatCompletionRequest) (r : ChatCompletionRequest) :
    historyMessages callTool answer (past ++ [r]) = historyMessages callTool answer past ++
      callMessages callTool (calledBy answer past) (answer (past ++ [r])) := by
  rw [historyMessages, inits_tail_concat]
  simp [historyMessages]

end Law

/-- What a request tells: the instructions, the input, and the calls so far.  The input is another one in
the first turn. -/
structure Telling where
  system : List ChatMessage
  first : List ChatMessage
  base : List ChatMessage

namespace Telling
variable (t : Telling) (callTool : List (Str × Str) → CallResult)
  (answer : List ChatCompletionRequest → List ExtractedToolCall)

/-- What is told after some requests. -/
def after (past : List ChatCompletionRequest) : List ChatMessage :=
  t.system ++ (if past = [] then t.first else t.base) ++ historyMessages callTool answer past

/-- Each request tells so. -/
def Tells (asked : List ChatCompletionRequest) : Prop :=
  ∀ past r, past ++ [r] <+: asked → r.messages = t.after callTool answer past

variable {t callTool answer}

theorem Tells.concat {asked : List ChatCompletionRequest} (h : t.Tells callTool answer asked)
    {r : ChatCompletionRequest} (hr : r.messages = t.after callTool answer asked) :
    t.Tells callTool answer (asked ++ [r]) := by
  intro past r' hpast
  rcases List.prefix_concat_iff.mp hpast with heq | hle
  · obtain ⟨rfl, hsame⟩ := append_inj' heq rfl
    obtain rfl := List.singleton_inj.mp hsame
    exact hr
  · exact h past r' hle

/-- **Only the first step can forget.** -/
theorem Tells.law_iff {asked : List ChatCompletionRequest} (h : t.Tells callTool answer asked) :
    Remembers callTool answer asked ↔ asked.length ≤ 1 ∨ t.base = t.first := by
  have hnext : ∀ past r r', past ++ [r, r'] <+: asked →
      (r'.messages = r.messages ++ callMessages callTool (calledBy answer past) (answer (past ++ [r])) ↔
        past ≠ [] ∨ t.base = t.first) := by
    intro past r r' hpast
    have hpair : past ++ [r, r'] = (past ++ [r]) ++ [r'] := by rw [append_assoc]; rfl
    have hr : r.messages = t.after callTool answer past :=
      h past r (List.IsPrefix.trans ⟨[r'], hpair.symm⟩ hpast)
    have hr' : r'.messages = t.after callTool answer (past ++ [r]) := h (past ++ [r]) r' (hpair ▸ hpast)
    have hne : past ++ [r] ≠ [] := append_ne_nil_of_right_ne_nil past (cons_ne_nil r [])
    rw [hr, hr', after, after, historyMessages_concat, if_neg hne, ← append_assoc,
      append_cancel_right_eq, append_cancel_right_eq, append_cancel_left_eq]
    by_cases hnil : past = []
    · rw [if_pos hnil]
      exact ⟨.inr, fun h => h.resolve_left (not_not_intro hnil)⟩
    · rw [if_neg hnil]
      exact iff_of_true rfl (.inl hnil)
  constructor
  · intro hall
    match asked, hnext, hall with
    | [], _, _ => exact .inl (Nat.zero_le _)
    | [_], _, _ => exact .inl (Nat.le_refl _)
    | r :: r' :: rest, hnext, hall =>
      have hfirst : [] ++ [r, r'] <+: r :: r' :: rest := ⟨rest, rfl⟩
      exact .inr (((hnext [] r r' hfirst).mp (hall [] r r' hfirst)).resolve_left fun hne => hne rfl)
  · rintro (hshort | hsame) past r r' hpast
    · have hlong := hpast.length_le
      simp only [length_append, length_cons, length_nil] at hlong
      omega
    · exact (hnext past r r' hpast).mpr (.inr hsame)

end Telling

/-! ### The loops -/

theorem chatRequest_messages {ctx : LoopContext} {l : ToolLoop} {request : ChatCompletionRequest}
    (h : l.chatRequest ctx = .ok request) :
    request.messages =
      systemMessages l.currentRequest.instructions ++ l.currentRequest.input.messages := by
  unfold ToolLoop.chatRequest responsesToChat at h
  dsimp only at h
  split at h
  · cases h
  · next request' hrequest =>
    cases h
    split at hrequest
    · cases hrequest
    · cases hrequest
      rfl

/-- The id of a text is not told. -/
theorem currentItems_messages (codec : Codec) (id id' : Str) (input : ResponseInput) :
    (currentItems codec id input).flatMap InputItem.messages =
      (currentItems codec id' input).flatMap InputItem.messages := by
  cases input with
  | text s => rfl
  | items current => rfl

/-- What a loop tells that was given a request. -/
def telling (ctx : LoopContext) (modifiedRequest : ResponsesRequest) : Telling where
  system := systemMessages modifiedRequest.instructions
  first := modifiedRequest.input.messages
  base := (currentItems ctx.codec [] ctx.originalRequest.input).flatMap InputItem.messages

namespace ToolLoop
variable {ctx : LoopContext} {callTool : List (Str × Str) → CallResult}
  {answer : List ChatCompletionRequest → List ExtractedToolCall} {modifiedRequest : ResponsesRequest}
  {l : ToolLoop}

/-- The messages of the calls that are made. -/
theorem execute_history (toolCalls : List ExtractedToolCall) (l : ToolLoop) :
    (toolCalls.foldl (execute ctx callTool) l).state.conversationHistory.flatMap InputItem.messages =
      l.state.conversationHistory.flatMap InputItem.messages ++ callMessages callTool l.called toolCalls := by
  induction toolCalls generalizing l with
  | nil => exact (append_nil _).symm
  | cons toolCall toolCalls ih =>
    refine (ih (l.execute ctx callTool toolCall)).trans ?_
    rw [callMessages]
    have hhistory : (l.execute ctx callTool toolCall).state.conversationHistory.flatMap InputItem.messages =
        l.state.conversationHistory.flatMap InputItem.messages ++
          [.assistant none (some [⟨toolCall.callId, "function".toList,
              ⟨toolCall.name, some toolCall.arguments⟩⟩]) none,
            .tool (callTool (l.callsWith toolCall)).outcome.1 toolCall.callId] := by
      simp only [execute, ToolLoopState.recordCall, flatMap_append, flatMap_singleton]
      rfl
    rw [hhistory, append_assoc]
    rfl

/-- What a loop has told, and is about to tell. -/
structure Told (ctx : LoopContext) (callTool : List (Str × Str) → CallResult)
    (answer : List ChatCompletionRequest → List ExtractedToolCall) (modifiedRequest : ResponsesRequest)
    (l : ToolLoop) : Prop where
  called : l.called = calledBy answer l.asked
  history : l.state.conversationHistory.flatMap InputItem.messages =
    historyMessages callTool answer l.asked
  original : l.state.originalInput = ctx.originalRequest.input
  instructions : l.currentRequest.instructions = modifiedRequest.instructions
  current : systemMessages l.currentRequest.instructions ++ l.currentRequest.input.messages =
    (telling ctx modifiedRequest).after callTool answer l.asked
  asked : (telling ctx modifiedRequest).Tells callTool answer l.asked

theorem told_start : (start ctx modifiedRequest).Told ctx callTool answer modifiedRequest where
  called := rfl
  history := rfl
  original := rfl
  instructions := rfl
  current := (append_nil _).symm
  asked past r hpast := by
    have hlength := hpast.length_le
    rw [length_append] at hlength
    exact absurd hlength (by simp [start])

variable (h : l.Told ctx callTool answer modifiedRequest)
include h

/-- A request of such a loop. -/
theorem Told.asks {request : ChatCompletionRequest} (hrequest : l.chatRequest ctx = .ok request) :
    (telling ctx modifiedRequest).Tells callTool answer (l.asked ++ [request]) :=
  h.asked.concat ((chatRequest_messages hrequest).trans h.current)

/-- The number of the turn is not told. -/
theorem Told.iterate : l.iterate.Told ctx callTool answer modifiedRequest :=
  ⟨h.called, h.history, h.original, h.instructions, h.current, h.asked⟩

/-- **A turn after which the loop goes on.** -/
theorem Told.perform {request : ChatCompletionRequest}
    (hasks : (telling ctx modifiedRequest).Tells callTool answer (l.asked ++ [request])) :
    (l.perform ctx callTool request (answer (l.asked ++ [request]))).Told ctx callTool answer
      modifiedRequest := by
  obtain ⟨hasked, hcurrent, horiginal, -⟩ := execute_kept_asked ctx callTool
    (answer (l.asked ++ [request])) (l.ask request)
  obtain ⟨hcalled, -⟩ := execute_called ctx callTool (answer (l.asked ++ [request])) (l.ask request)
  have hhistory : ((answer (l.asked ++ [request])).foldl (execute ctx callTool)
      (l.ask request)).state.conversationHistory.flatMap InputItem.messages =
        historyMessages callTool answer (l.asked ++ [request]) := by
    rw [execute_history, historyMessages_concat, ← h.called]
    exact congrArg (· ++ _) h.history
  refine ⟨?_, ?_, horiginal.trans h.original, ?_, ?_, ?_⟩
  · change (List.foldl (execute ctx callTool) (l.ask request) _).called =
      calledBy answer (List.foldl (execute ctx callTool) (l.ask request) _).asked
    rw [hasked, hcalled]
    change l.called ++ _ = calledBy answer (l.asked ++ [request])
    rw [calledBy_concat, h.called]
  · change _ = historyMessages callTool answer (List.foldl (execute ctx callTool) (l.ask request) _).asked
    rw [hasked]
    exact hhistory
  · exact (congrArg ResponsesRequest.instructions hcurrent).trans h.instructions
  · change systemMessages (List.foldl (execute ctx callTool) (l.ask request) _).currentRequest.instructions ++
      (currentItems ctx.codec _ (List.foldl (execute ctx callTool) (l.ask request) _).state.originalInput ++
        (List.foldl (execute ctx callTool) (l.ask request) _).state.conversationHistory).flatMap
          InputItem.messages = Telling.after _ callTool answer (List.foldl _ (l.ask request) _).asked
    rw [hasked, hcurrent, horiginal, flatMap_append, hhistory,
      show (l.ask request).currentRequest.instructions = modifiedRequest.instructions from h.instructions,
      show (l.ask request).state.originalInput = ctx.originalRequest.input from h.original,
      currentItems_messages _ _ []]
    change _ = _ ++ (if l.asked ++ [request] = [] then _ else _) ++ historyMessages callTool answer _
    rw [if_neg (append_ne_nil_of_right_ne_nil _ (cons_ne_nil _ [])), append_assoc]
    rfl
  · change Telling.Tells _ callTool answer (List.foldl (execute ctx callTool) (l.ask request) _).asked
    rw [hasked]
    exact hasks

end ToolLoop

/-- The calls of the answers of a model. -/
def answers (world : World (Except ErrorResponse ChatCompletionResponse))
    (past : List ChatCompletionRequest) : List ExtractedToolCall :=
  match world.chat past with
  | .ok response => extractAllToolCallsFromChat response
  | .error _ => []

/-- The calls of the answers of a model that streams. -/
def streamedAnswers (world : World (List Frame)) (past : List ChatCompletionRequest) :
    List ExtractedToolCall :=
  extractAllToolCallsFromChat (answerOf (world.chat past))

/-- **What a run tells.** -/
theorem toolLoop_tells (ctx : LoopContext) (world : World (Except ErrorResponse ChatCompletionResponse))
    (turns : Nat) (modifiedRequest : ResponsesRequest) :
    (telling ctx modifiedRequest).Tells world.callTool (answers world)
      (executeToolLoop ctx world turns modifiedRequest).1.asked := by
  have hrule := Until.loop_rule (P := fun l : ToolLoop => l.Told ctx world.callTool (answers world) modifiedRequest)
    (Q := fun (l : ToolLoop) _ => (telling ctx modifiedRequest).Tells world.callTool (answers world) l.asked)
    (fun {l l'} h (hturn : l.turn ctx world = (l', none)) => by
      obtain ⟨request, chatResponse, hrequest, hanswer, -, rfl⟩ := ToolLoop.turn_none hturn
      have hcalls : answers world (l.asked ++ [request]) = extractAllToolCallsFromChat chatResponse := by
        rw [answers, hanswer]
      rw [← hcalls]
      exact h.iterate.perform (h.asks hrequest))
    (fun {l l' r} h (hturn : l.turn ctx world = (l', some r)) => by
      obtain ⟨-, ⟨-, hasked⟩ | ⟨request, hrequest, hasked, -⟩⟩ := ToolLoop.turn_some hturn
      · rw [hasked]
        exact h.asked
      · rw [hasked]
        exact h.asks hrequest)
    ToolLoop.told_start turns
  rcases hrun : executeToolLoop ctx world turns modifiedRequest with ⟨l, _ | result⟩
  · exact (hrule.1 hrun).asked
  · exact hrule.2 hrun

/-- What a run tells that streams. -/
theorem streamingLoop_tells (ctx : LoopContext) (world : World (List Frame)) (turns : Nat)
    (opening : Opening) (modifiedRequest : ResponsesRequest) :
    (telling ctx modifiedRequest).Tells world.callTool (streamedAnswers world)
      (executeToolLoopStreamingInternal ctx world turns (opening.emitter ctx.uuid)
        modifiedRequest).1.loop.asked := by
  have hrule := Until.loop_rule (P := fun s : StreamLoop => s.client.Sound ∧
      s.loop.Told ctx world.callTool (streamedAnswers world) modifiedRequest)
    (Q := fun (s : StreamLoop) _ => (telling ctx modifiedRequest).Tells world.callTool (streamedAnswers world) s.loop.asked)
    (fun {s s'} h (hturn : s.turn ctx world = (s', none)) => by
      obtain ⟨-, hsound, request, hrequest, -, hloop⟩ := StreamLoop.turn_none h.1 hturn
      rw [hloop]
      exact ⟨hsound, h.2.iterate.perform (h.2.iterate.asks hrequest)⟩)
    (fun {s s' r} h (hturn : s.turn ctx world = (s', some r)) => by
      rcases StreamLoop.turn_some h.1 hturn with ⟨hasked, -⟩ | ⟨-, request, hrequest, hasked, -⟩
      · rw [hasked]
        exact h.2.asked
      · rw [hasked]
        exact h.2.iterate.asks hrequest)
    (s := StreamLoop.start ctx (opening.emitter ctx.uuid) modifiedRequest)
    ⟨rfl, ToolLoop.told_start⟩ turns
  rcases hrun : executeToolLoopStreamingInternal ctx world turns (opening.emitter ctx.uuid) modifiedRequest
    with ⟨s, _ | loopEnd⟩
  · exact (hrule.1 hrun).2.asked
  · exact hrule.2 hrun

/-! ### What is loaded -/

/-- A simple message is turned into a message with its role and its parts; other items stay as they are. -/
structure Codec.Normalizes (codec : Codec) : Prop where
  string : ∀ s role, ∃ id status, codec.normalizeInputItem (.simpleInputMessage (.string s) role) =
    .message id role [.inputText s] status
  array : ∀ parts role, ∃ id status, codec.normalizeInputItem (.simpleInputMessage (.array parts) role) =
    .message id role parts status
  other : ∀ item, (∀ content role, item ≠ .simpleInputMessage content role) →
    codec.normalizeInputItem item = item

/-- A simple message of several parts has the same text once it is normalised. -/
def InputItem.ReadsAlike : InputItem → Prop
  | .simpleInputMessage (.array parts) _ => (StringOrContentParts.array parts).text = extractTextFromContent parts
  | _ => True

/-- The items of an input. -/
def ResponseInput.list : ResponseInput → List InputItem
  | .text _ => []
  | .items current => current

/-- The items of the conversation, if it is loaded. -/
def conversationItems (codec : Codec) (storage : Storage) (conversation : Option Str) :
    Option (List InputItem) :=
  match conversation with
  | none => none
  | some convId =>
      match storage.getConversation convId, storage.listItems convId with
      | .ok true, .ok storedItems => some (storedItems.filterMap (storedMessage codec))
      | _, _ => none

/-- Nothing of a request is lost after the first turn: nothing was loaded, and its simple messages read
alike; or what was loaded has no items. -/
def Keeps (codec : Codec) (storage : Storage) (request : ResponsesRequest) : Prop :=
  match (loadChain codec storage request).2, conversationItems codec storage request.conversation with
  | none, none => ∀ item ∈ request.input.list, item.ReadsAlike
  | chain, conversation => chain.getD [] = [] ∧ conversation.getD [] = []

theorem InputItem.messages_ne_nil (item : InputItem) : item.messages ≠ [] := by
  cases item with
  | functionToolCall id callId name arguments output status => exact cons_ne_nil _ _
  | _ => exact cons_ne_nil _ _

theorem flatMap_messages_eq_nil {items : List InputItem} :
    items.flatMap InputItem.messages = [] ↔ items = [] := by
  cases items with
  | nil => exact iff_of_true rfl rfl
  | cons item items =>
    refine iff_of_false (fun h => item.messages_ne_nil ?_) (cons_ne_nil _ _)
    exact List.flatMap_eq_nil_iff.mp h item (mem_cons_self ..)

/-- The message of a role, whatever its text. -/
theorem roleToChatMessage_cases (role : Str) : (∀ text, roleToChatMessage role text = .user text) ∨
      (∀ text, roleToChatMessage role text = .assistant (some text) none none) ∨
      ∀ text, roleToChatMessage role text = .system text := by
  unfold roleToChatMessage
  split
  · exact .inl fun _ => rfl
  · split
    · exact .inr (.inl fun _ => rfl)
    · split
      · exact .inr (.inr fun _ => rfl)
      · exact .inl fun _ => rfl

theorem roleToChatMessage_inj {role text text' : Str} :
    roleToChatMessage role text = roleToChatMessage role text' ↔ text = text' := by
  rcases roleToChatMessage_cases role with h | h | h
  · simp [h]
  · simp [h]
  · simp [h]

/-- Lists that agree piece by piece in length are equal if their pieces are. -/
theorem flatMap_eq_iff {α β : Type*} {f g : α → List β} (hlength : ∀ a, (f a).length = (g a).length)
    (l : List α) : l.flatMap f = l.flatMap g ↔ ∀ a ∈ l, f a = g a := by
  induction l with
  | nil => simp
  | cons a l ih =>
    rw [flatMap_cons, flatMap_cons, forall_mem_cons, ← ih]
    refine ⟨fun h => append_inj h (hlength a), fun h => ?_⟩
    rw [h.1, h.2]

section Loading
variable {codec : Codec} (hcodec : codec.Normalizes)
include hcodec

theorem normalized_messages (item : InputItem) :
    (item.messages).length = (codec.normalizeInputItem item).messages.length ∧
      (item.messages = (codec.normalizeInputItem item).messages ↔ item.ReadsAlike) := by
  cases item with
  | simpleInputMessage content role =>
    cases content with
    | string s =>
      obtain ⟨id, status, heq⟩ := hcodec.string s role
      rw [heq]
      exact ⟨rfl, iff_of_true rfl trivial⟩
    | array parts =>
      obtain ⟨id, status, heq⟩ := hcodec.array parts role
      rw [heq]
      refine ⟨rfl, ?_⟩
      rw [InputItem.messages, InputItem.messages, singleton_inj, roleToChatMessage_inj]
      rfl
  | _ =>
    rw [hcodec.other _ fun content role h => by cases h]
    exact ⟨rfl, iff_of_true rfl trivial⟩

/-- An item that is normalised stays as it is. -/
theorem normalize_twice (item : InputItem) :
    codec.normalizeInputItem (codec.normalizeInputItem item) = codec.normalizeInputItem item := by
  cases item with
  | simpleInputMessage content role =>
    cases content with
    | string s =>
      obtain ⟨id, status, heq⟩ := hcodec.string s role
      rw [heq]
      exact hcodec.other _ fun content role h => by cases h
    | array parts =>
      obtain ⟨id, status, heq⟩ := hcodec.array parts role
      rw [heq]
      exact hcodec.other _ fun content role h => by cases h
  | _ => exact congrArg codec.normalizeInputItem (hcodec.other _ fun content role h => by cases h)

theorem normalize_currentItems (id : Str) (input : ResponseInput) :
    (currentItems codec id input).map codec.normalizeInputItem = currentItems codec id input := by
  cases input with
  | text s => exact congrArg (fun item => [item]) (hcodec.other _ fun content role h => by cases h)
  | items current =>
    rw [currentItems, map_map]
    exact map_congr_left fun item _ => normalize_twice hcodec item

theorem normalize_stored (storedItems : List StoredItem) :
    (storedItems.filterMap (storedMessage codec)).map codec.normalizeInputItem =
      storedItems.filterMap (storedMessage codec) := by
  refine (map_congr_left fun item hitem => ?_).trans (map_id _)
  obtain ⟨stored, -, hstored⟩ := List.mem_filterMap.mp hitem
  unfold storedMessage at hstored
  split at hstored
  · obtain ⟨contentParts, -, rfl⟩ := Option.map_eq_some_iff.mp hstored
    exact hcodec.other _ fun content role h => by cases h
  · cases hstored

/-- **What is loaded**: it comes before the items of the request. -/
theorem loadConversation_input {storage : Storage} {conversation : Option Str}
    {request modified : ResponsesRequest}
    (h : loadConversation codec storage conversation request = .ok modified) :
    modified.instructions = request.instructions ∧
      ((conversationItems codec storage conversation = none ∧ modified.input = request.input) ∨
        ∃ items id, conversationItems codec storage conversation = some items ∧
          items.map codec.normalizeInputItem = items ∧
          modified.input = .items (items ++ currentItems codec id request.input)) := by
  unfold loadConversation at h
  unfold conversationItems
  cases conversation with
  | none =>
    cases h
    exact ⟨rfl, .inl ⟨rfl, rfl⟩⟩
  | some convId =>
    dsimp only at h ⊢
    rcases hfound : storage.getConversation convId with e | _ | _
    all_goals rw [hfound] at h
    · cases h
    · cases h
    · cases hitems : storage.listItems convId with
      | error e =>
        rw [hitems] at h
        cases h
        exact ⟨rfl, .inl ⟨rfl, rfl⟩⟩
      | ok storedItems =>
        rw [hitems] at h
        cases h
        exact ⟨rfl, .inr ⟨_, _, rfl, normalize_stored hcodec storedItems, rfl⟩⟩

theorem loadConversationHistory_input {storage : Storage} {request modified : ResponsesRequest}
    (h : loadConversationHistory codec storage request = .ok modified) :
    modified.input.messages =
      match (loadChain codec storage request).2, conversationItems codec storage request.conversation with
      | none, none => request.input.messages
      | chain, conversation => (chain.getD [] ++ conversation.getD []).flatMap InputItem.messages ++
          (currentItems codec [] request.input).flatMap InputItem.messages := by
  unfold loadConversationHistory at h
  rcases hchain : loadChain codec storage request with ⟨request', chain⟩
  rw [hchain] at h
  dsimp only at h ⊢
  have hrequest : request'.input = request.input := by
    unfold loadChain at hchain
    split at hchain
    · obtain rfl := congrArg Prod.fst hchain
      rfl
    · split at hchain
      · obtain rfl := congrArg Prod.fst hchain
        rfl
      · obtain rfl := congrArg Prod.fst hchain
        rfl
  cases hconversation : loadConversation codec storage request.conversation request' with
  | error e =>
    rw [hconversation] at h
    cases h
  | ok request'' =>
    rw [hconversation] at h
    dsimp only at h
    obtain ⟨-, ⟨hnone, hinput⟩ | ⟨items, id, hsome, hnormal, hinput⟩⟩ :=
      loadConversation_input hcodec hconversation
    all_goals rw [hrequest] at hinput
    · rw [hnone]
      cases chain with
      | none =>
        cases h
        rw [hinput]
      | some chain =>
        cases h
        dsimp only [ResponseInput.messages, Option.getD_some]
        rw [hinput, flatMap_append, currentItems_messages codec _ [], Option.getD_none, append_nil]
    · rw [hsome]
      cases chain with
      | none =>
        cases h
        rw [hinput]
        dsimp only [ResponseInput.messages, Option.getD_some]
        rw [flatMap_append, currentItems_messages codec _ [], Option.getD_none, nil_append]
      | some chain =>
        cases h
        dsimp only [ResponseInput.messages, Option.getD_some]
        rw [hinput]
        change (chain ++ (items ++ currentItems codec id request.input).map
          codec.normalizeInputItem).flatMap InputItem.messages = _
        rw [map_append, hnormal, normalize_currentItems hcodec, ← append_assoc,
          flatMap_append, currentItems_messages codec _ []]

/-- **When the first turn tells what the second does.** -/
theorem base_eq_first_iff {storage : Storage} {request modified : ResponsesRequest}
    (h : loadConversationHistory codec storage request = .ok modified) :
    (currentItems codec [] request.input).flatMap InputItem.messages = modified.input.messages ↔
      Keeps codec storage request := by
  rw [loadConversationHistory_input hcodec h]
  unfold Keeps
  have hloaded : ∀ loaded : List InputItem,
      (currentItems codec [] request.input).flatMap InputItem.messages = loaded.flatMap InputItem.messages ++
        (currentItems codec [] request.input).flatMap InputItem.messages ↔ loaded = [] := by
    intro loaded
    rw [self_eq_append_left, flatMap_messages_eq_nil]
  split
  · cases hinput : request.input with
    | text s => exact iff_of_true rfl fun item hitem => by cases hitem
    | items current =>
      rw [currentItems, flatMap_map, ResponseInput.messages, ResponseInput.list, eq_comm,
        flatMap_eq_iff fun item => (normalized_messages hcodec item).1]
      exact forall₂_congr fun item _ => (normalized_messages hcodec item).2
  · rw [hloaded, append_eq_nil_iff]

end Loading

/-- **When a tool loop forgets nothing**, whether it streams or not: it asks once, or nothing of the request
is lost after the first turn. -/
theorem remembers_iff {ctx : LoopContext} (hcodec : ctx.codec.Normalizes) {storage : Storage}
    {modifiedRequest : ResponsesRequest}
    (hload : loadConversationHistory ctx.codec storage ctx.originalRequest = .ok modifiedRequest) :
    (∀ (world : World (Except ErrorResponse ChatCompletionResponse)) (turns : Nat),
      let asked := (executeToolLoop ctx world turns modifiedRequest).1.asked
      Remembers world.callTool (answers world) asked ↔
        asked.length ≤ 1 ∨ Keeps ctx.codec storage ctx.originalRequest) ∧
    ∀ (world : World (List Frame)) (turns : Nat) (opening : Opening),
      let asked := (executeToolLoopStreamingInternal ctx world turns (opening.emitter ctx.uuid)
        modifiedRequest).1.loop.asked
      Remembers world.callTool (streamedAnswers world) asked ↔
        asked.length ≤ 1 ∨ Keeps ctx.codec storage ctx.originalRequest := by
  have hkeeps := base_eq_first_iff hcodec hload
  refine ⟨fun world turns => ?_, fun world turns opening => ?_⟩
  · rw [← hkeeps]
    exact (toolLoop_tells ctx world turns modifiedRequest).law_iff
  · rw [← hkeeps]
    exact (streamingLoop_tells ctx world turns opening modifiedRequest).law_iff

/-! ### A response that goes on from another -/

section Recalling

/-- A codec that reads one message from whatever is stored. -/
def recallCodec : Codec where
  inputItem _ := some (.message "msg_0".toList "user".toList [.inputText "My name is Ada.".toList] none)
  contentParts _ := none
  normalizeInputItem
    | .simpleInputMessage (.string s) role => .message "msg_1".toList role [.inputText s] none
    | .simpleInputMessage (.array parts) role => .message "msg_1".toList role parts none
    | item => item

theorem recallCodec_normalizes : recallCodec.Normalizes where
  string s role := ⟨_, _, rfl⟩
  array parts role := ⟨_, _, rfl⟩
  other item h := by
    cases item with
    | simpleInputMessage content role => exact absurd rfl (h content role)
    | _ => rfl

def recallStorage : Storage where
  getResponseChain _ := .ok [⟨.array [.null], .array []⟩]
  getConversation _ := .ok false
  listItems _ := .ok []

/-- A request that goes on from a response. -/
def recallCtx : LoopContext where
  uuid := fun n => (toString n).toList
  unknownModelId := "unknown".toList
  codec := recallCodec
  originalRequest := { input := .text "Who am I?".toList, previousResponseId := some "resp_0".toList }
  mcpTools := [⟨"search".toList, none, []⟩]
  lastTools := [⟨"search".toList, none, []⟩]
  responseId := some "resp_1".toList

def recallRequest : ResponsesRequest where
  input := .items [.message "msg_0".toList "user".toList [.inputText "My name is Ada.".toList] none,
    .message "msg_u_resp_0".toList "user".toList [.inputText "Who am I?".toList] (some "completed".toList)]

theorem remembers_iff_recall :
    Remembers (searchWorld []).callTool (answers (searchWorld []))
        (executeToolLoop recallCtx (searchWorld []) 1 recallRequest).1.asked ↔
      (executeToolLoop recallCtx (searchWorld []) 1 recallRequest).1.asked.length ≤ 1 ∨
        Keeps recallCodec recallStorage recallCtx.originalRequest :=
  (remembers_iff (show recallCtx.codec.Normalizes from recallCodec_normalizes)
    (show loadConversationHistory recallCtx.codec recallStorage recallCtx.originalRequest =
      .ok recallRequest from rfl)).1 (searchWorld []) 1

/-- The second request does not tell what came before. -/
theorem recall_forgets :
    loadConversationHistory recallCodec recallStorage recallCtx.originalRequest = .ok recallRequest ∧
    ¬ Remembers (searchWorld []).callTool (answers (searchWorld []))
      (executeToolLoop recallCtx (searchWorld []) 2 recallRequest).1.asked := by
  refine ⟨rfl, fun h => ?_⟩
  rcases (toolLoop_tells recallCtx (searchWorld []) 2 recallRequest).law_iff.mp h with hshort | hsame
  · exact absurd hshort (by decide)
  · exact absurd (congrArg List.length hsame) (by decide)

end Recalling

end QwenStack.Grpc
