import QwenStack.Grpc.Accounts

/-!
# Responses over chat — a result and its stream

A result of a chat may be given whole or as a stream of chunks (`IsChunking`): its content and its reasoning
are cut into deltas, and so is each of its calls, whose deltas carry the index of the call.  The deltas of
several calls may come in any order.

Put together again, the stream has the calls of the result, in their order (`toolCalls_answerOf`).  Where a
call has no arguments, those that are put together are empty; with the default that is taken for a missing
text, that is the only difference.
-/

namespace QwenStack

/-- The values of a map whose keys are the numbers below a length. -/
theorem BTreeMap.values_eq {β : Type} {m : BTreeMap Nat β} {l : List β} (h : ∀ i, m.get i = l[i]?) :
    m.entries.map Prod.snd = l := by
  have hkeys : Assoc.keys m.entries = List.range l.length := by
    refine List.Pairwise.eq_of_mem_iff m.sorted List.pairwise_lt_range fun i => ?_
    rw [Assoc.mem_keys_iff, List.mem_range]
    refine ⟨fun ⟨v, hv⟩ => ?_, fun hi => ⟨l[i], (h i).trans (List.getElem?_eq_getElem hi)⟩⟩
    exact (List.getElem?_eq_some_iff.mp ((h i).symm.trans hv)).1
  have hvalues : m.entries.map (fun e => some e.2) = l.map some := by
    calc
      _ = m.entries.map fun e => m.get e.1 :=
          List.map_congr_left fun e he => (Assoc.lookup_of_mem m.nodup_keys he).symm
      _ = (Assoc.keys m.entries).map fun i => l[i]? := by
          rw [Assoc.keys, List.map_map]
          exact List.map_congr_left fun e _ => h e.1
      _ = l.map some := by
          rw [hkeys]
          refine List.ext_getElem (by simp) fun i hi hi' => ?_
          simp at hi'
          simp [hi']
  have hinj := (Option.some_injective β).list_map
  exact hinj (by rw [List.map_map]; exact hvalues)

end QwenStack

namespace QwenStack.Grpc

open List
open Harmony (ToolCall ToolCallDelta)

/-- The name that a delta gives. -/
def deltaName (delta : ToolCallDelta) : Option Str := delta.function.bind (·.name)

/-- The arguments that a delta gives. -/
def deltaArguments (delta : ToolCallDelta) : Str := (delta.function.bind (·.arguments)).getD []

/-- Deltas that spell a call: its id and its name are given, each as often as one likes, and its arguments
piece by piece. -/
structure Spells (deltas : List ToolCallDelta) (call : ToolCall) : Prop where
  given : (∃ delta ∈ deltas, delta.id = some call.id) ∧
    ∃ delta ∈ deltas, deltaName delta = some call.function.name
  id : ∀ delta ∈ deltas, delta.id = none ∨ delta.id = some call.id
  name : ∀ delta ∈ deltas, deltaName delta = none ∨ deltaName delta = some call.function.name
  arguments : deltas.flatMap deltaArguments = call.function.arguments.getD []

/-- The deltas of the calls in a chunk. -/
def chunkDeltas (chunk : ChatChunk) : List ToolCallDelta :=
  match chunk.choices with
  | [] => []
  | choice :: _ => choice.delta.toolCalls.getD []

/-- The deltas of the calls in a stream. -/
def callDeltas (chunks : List ChatChunk) : List ToolCallDelta := chunks.flatMap chunkDeltas

/-- The first choices of a stream. -/
def firstChoices (chunks : List ChatChunk) : List ChunkChoice :=
  chunks.filterMap fun chunk => chunk.choices.head?

/-- **A chunking of a result**: the stream is whole, and its deltas are the pieces of the first choice. -/
structure IsChunking (response : ChatCompletionResponse) (body : List Frame) : Prop where
  whole : breakOf body = none
  content : (firstChoices (chunksOf body)).flatMap ChunkChoice.text =
    (response.choices.head?.bind (·.message.content)).getD []
  reasoning : (firstChoices (chunksOf body)).flatMap (·.delta.reasoningContent.getD []) =
    (response.choices.head?.bind (·.message.reasoningContent)).getD []
  finishReason : ((firstChoices (chunksOf body)).filterMap ChunkChoice.finishReason).getLast? =
    response.choices.head?.bind (·.finishReason)
  bounded : ∀ delta ∈ callDeltas (chunksOf body), delta.index < response.toolCalls.length
  spelled : ∀ i call, response.toolCalls[i]? = some call →
    Spells ((callDeltas (chunksOf body)).filter fun delta => delta.index = i) call

/-! ### What the accumulator has of the calls -/

/-- A delta in the map of the calls. -/
def insertDelta (m : BTreeMap Nat ToolCall) (delta : ToolCallDelta) : BTreeMap Nat ToolCall :=
  m.insert delta.index (applyDelta delta ((m.get delta.index).getD emptyCall))

theorem processToolCalls_toolCalls (deltas : List ToolCallDelta) (acc : ChatResponseAccumulator) :
    (deltas.foldl ChatResponseAccumulator.processToolCall acc).toolCalls =
      deltas.foldl insertDelta acc.toolCalls := by
  induction deltas generalizing acc with
  | nil => rfl
  | cons delta deltas ih => exact ih (acc.processToolCall delta)

theorem processChunk_toolCalls (acc : ChatResponseAccumulator) (chunk : ChatChunk) :
    (acc.processChunk chunk).toolCalls = (chunkDeltas chunk).foldl insertDelta acc.toolCalls := by
  unfold ChatResponseAccumulator.processChunk chunkDeltas
  cases chunk.choices with
  | nil => rfl
  | cons choice rest => exact processToolCalls_toolCalls _ _

theorem processChunks_toolCalls (chunks : List ChatChunk) (acc : ChatResponseAccumulator) :
    (chunks.foldl ChatResponseAccumulator.processChunk acc).toolCalls =
      (callDeltas chunks).foldl insertDelta acc.toolCalls := by
  induction chunks generalizing acc with
  | nil => rfl
  | cons chunk chunks ih =>
    rw [foldl_cons, ih, processChunk_toolCalls, ← foldl_append]
    rfl

/-- The deltas of a call, one after another. -/
def applyDeltas (deltas : List ToolCallDelta) (call : ToolCall) : ToolCall :=
  deltas.foldl (fun call delta => applyDelta delta call) call

/-- **The calls of a map**: those with the deltas of their index. -/
theorem get_insertDeltas (deltas : List ToolCallDelta) (m : BTreeMap Nat ToolCall) (i : Nat) :
    (deltas.foldl insertDelta m).get i =
      if (deltas.filter fun delta => delta.index = i) = [] then m.get i
      else some (applyDeltas (deltas.filter fun delta => delta.index = i) ((m.get i).getD emptyCall)) := by
  induction deltas generalizing m with
  | nil => rfl
  | cons delta deltas ih =>
    rw [foldl_cons, ih, insertDelta, BTreeMap.get_insert]
    by_cases hindex : delta.index = i
    · subst hindex
      simp only [filter_cons, decide_true, if_true, Option.getD_some, applyDeltas, foldl_cons,
        cons_ne_nil, if_false]
      split
      · next hnil => rw [hnil]; rfl
      · rfl
    · rw [if_neg (Ne.symm hindex), filter_cons_of_neg (by simpa using hindex)]

/-- The last text that is given stays; here all are the same. -/
theorem given_text (field : ToolCall → Str) (read : ToolCallDelta → Option Str)
    (happly : ∀ delta call, field (applyDelta delta call) = (read delta).getD (field call))
    {deltas : List ToolCallDelta} {text : Str}
    (h : ∀ delta ∈ deltas, read delta = none ∨ read delta = some text) (call : ToolCall)
    (hgiven : field call = text ∨ ∃ delta ∈ deltas, read delta = some text) :
    field (applyDeltas deltas call) = text := by
  induction deltas generalizing call with
  | nil =>
    rcases hgiven with hgiven | ⟨delta, hmem, -⟩
    · exact hgiven
    · cases hmem
  | cons delta deltas ih =>
    rw [forall_mem_cons] at h
    refine ih h.2 (applyDelta delta call) ?_
    rw [happly]
    rcases h.1 with hnone | hsome
    · rcases hgiven with hgiven | ⟨delta', hmem, hgiven⟩
      · left
        rw [hnone, Option.getD_none, hgiven]
      · rcases List.mem_cons.mp hmem with rfl | hmem
        · rw [hnone] at hgiven
          cases hgiven
        · exact .inr ⟨delta', hmem, hgiven⟩
    · left
      rw [hsome, Option.getD_some]

theorem given_arguments (deltas : List ToolCallDelta) (call : ToolCall) {text : Str}
    (h : call.function.arguments = some text) :
    (applyDeltas deltas call).function.arguments = some (text ++ deltas.flatMap deltaArguments) := by
  induction deltas generalizing call text with
  | nil => rw [flatMap_nil, append_nil]; exact h
  | cons delta deltas ih =>
    have happly : (applyDelta delta call).function.arguments = some (text ++ deltaArguments delta) := by
      simp [applyDelta, h, deltaArguments]
    refine (ih _ happly).trans ?_
    rw [flatMap_cons, append_assoc]

/-- **A call that is spelled.** -/
theorem Spells.applyDeltas {deltas : List ToolCallDelta} {call : ToolCall} (h : Spells deltas call) :
    Grpc.applyDeltas deltas emptyCall = { call with
      toolType := "function".toList
      function := { call.function with arguments := some (call.function.arguments.getD []) } } := by
  have hid := given_text ToolCall.id ToolCallDelta.id (fun _ _ => rfl) h.id emptyCall (.inr h.given.1)
  have hname := given_text (·.function.name) deltaName (fun _ _ => rfl) h.name emptyCall (.inr h.given.2)
  have harguments := given_arguments deltas emptyCall (show emptyCall.function.arguments = some [] from rfl)
  have htype : ∀ (deltas : List ToolCallDelta) (call : ToolCall),
      (Grpc.applyDeltas deltas call).toolType = call.toolType := by
    intro deltas
    induction deltas with
    | nil => exact fun _ => rfl
    | cons delta deltas ih => exact fun call => ih (applyDelta delta call)
  rw [nil_append, h.arguments] at harguments
  have htype := htype deltas emptyCall
  cases happly : Grpc.applyDeltas deltas emptyCall with
  | mk id toolType function =>
    obtain ⟨name, arguments⟩ := function
    rw [happly] at hid hname harguments htype
    subst hid hname harguments htype
    rfl

/-- A call as it is put together: its arguments are a text. -/
def spelled (call : ToolCall) : ToolCall :=
  { call with
    toolType := "function".toList
    function := { call.function with arguments := some (call.function.arguments.getD []) } }

/-- **The calls of a stream** are those of the result. -/
theorem toolCalls_answerOf {response : ChatCompletionResponse} {body : List Frame}
    (h : IsChunking response body) : (answerOf body).toolCalls = response.toolCalls.map spelled := by
  have hget : ∀ i, ((chunksOf body).foldl ChatResponseAccumulator.processChunk {}).toolCalls.get i =
      (response.toolCalls.map spelled)[i]? := by
    intro i
    rw [processChunks_toolCalls, get_insertDeltas, List.getElem?_map]
    cases hcall : response.toolCalls[i]? with
    | none =>
      have hnone : ((callDeltas (chunksOf body)).filter fun delta => delta.index = i) = [] := by
        refine List.filter_eq_nil_iff.mpr fun delta hmem hindex => ?_
        have hlt := h.bounded delta hmem
        rw [decide_eq_true_eq] at hindex
        exact absurd (List.getElem?_eq_none_iff.mp hcall) (Nat.not_le.mpr (hindex ▸ hlt))
      rw [if_pos hnone]
      rfl
    | some call =>
      have hspelled := h.spelled i call hcall
      obtain ⟨delta, hmem, -⟩ := hspelled.given.1
      rw [if_neg (ne_nil_of_mem hmem)]
      exact congrArg some hspelled.applyDeltas
  have hvalues := BTreeMap.values_eq hget
  change (ChatResponseAccumulator.calls _).getD [] = _
  rw [← hvalues, ChatResponseAccumulator.calls]
  split
  · next hempty =>
    rw [List.isEmpty_iff.mp hempty]
    rfl
  · rfl

/-- A stream without chunks has no calls. -/
theorem toolCalls_answerOf_nil {body : List Frame} (h : chunksOf body = []) :
    (answerOf body).toolCalls = [] := by
  rw [answerOf, h]
  rfl

/-- The calls that are extracted have the same names. -/
theorem names_answerOf {response : ChatCompletionResponse} {body : List Frame}
    (h : IsChunking response body) :
    (extractAllToolCallsFromChat (answerOf body)).map ExtractedToolCall.name =
      (extractAllToolCallsFromChat response).map ExtractedToolCall.name := by
  rw [extractAllToolCallsFromChat_eq, extractAllToolCallsFromChat_eq, toolCalls_answerOf h, map_map,
    map_map, map_map]
  rfl

/-- Where all calls have arguments, what is extracted is the same. -/
theorem extract_answerOf {response : ChatCompletionResponse} {body : List Frame}
    (h : IsChunking response body)
    (harguments : ∀ call ∈ response.toolCalls, call.function.arguments.isSome = true) :
    extractAllToolCallsFromChat (answerOf body) = extractAllToolCallsFromChat response := by
  rw [extractAllToolCallsFromChat_eq, extractAllToolCallsFromChat_eq, toolCalls_answerOf h, map_map]
  refine map_congr_left fun call hmem => ?_
  obtain ⟨arguments, heq⟩ := Option.isSome_iff_exists.mp (harguments call hmem)
  simp [spelled, extractToolCall, heq]

end QwenStack.Grpc
