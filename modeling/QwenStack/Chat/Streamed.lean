import QwenStack.Chat.Definitions

/-!
# Chat — a streamed choice

What a client reads of a choice are the texts of its deltas, in order.  The chunks of a choice go through
three machines in series: the stop decoder makes texts of them, the reasoning parser splits a text in two,
and what is left is sent, by way of the tools (`chunk_series`).
-/

namespace QwenStack.Chat

open List
open Assoc (keys)
open Transducer (run runAt stepAt series outputsOf run_nil run_cons run_append run_map run_series run_view
  runAt_cons lookup_runAt outputsOf_runAt outputsOf_perm outputsOf_append nodup_runAt)

/-! ### What a client reads -/

def Delta.contentText : Delta → Str
  | content text => text
  | _ => []

def Delta.reasoningText : Delta → Str
  | reasoning text => text
  | _ => []

/-- The arguments of a call; the deltas of a forced function are those of the first. -/
def Delta.argumentsText (k : Nat) : Delta → Str
  | toolArgs arguments => if k = 0 then arguments else []
  | toolCall index _ (some arguments) => if index = k then arguments else []
  | _ => []

def Delta.finishReason? : Delta → Option Str
  | finish reason _ => some reason
  | _ => none

/-- What a client has read. -/
def streamedContent (deltas : List Delta) : Str := deltas.flatMap Delta.contentText

def streamedReasoning (deltas : List Delta) : Str := deltas.flatMap Delta.reasoningText

def streamedArguments (k : Nat) (deltas : List Delta) : Str := deltas.flatMap (Delta.argumentsText k)

def streamedFinish (deltas : List Delta) : List Str := deltas.filterMap Delta.finishReason?

@[simp] theorem streamedContent_nil : streamedContent [] = [] := rfl

@[simp] theorem streamedContent_append (l l' : List Delta) :
    streamedContent (l ++ l') = streamedContent l ++ streamedContent l' := flatMap_append

@[simp] theorem streamedReasoning_append (l l' : List Delta) :
    streamedReasoning (l ++ l') = streamedReasoning l ++ streamedReasoning l' := flatMap_append

@[simp] theorem streamedArguments_append (k : Nat) (l l' : List Delta) :
    streamedArguments k (l ++ l') = streamedArguments k l ++ streamedArguments k l' :=
  flatMap_append

@[simp] theorem streamedFinish_append (l l' : List Delta) :
    streamedFinish (l ++ l') = streamedFinish l ++ streamedFinish l' := filterMap_append

/-! ### The machines -/

/-- What the reasoning parser makes of a text. -/
structure Piece where
  normalText : Str
  reasoningText : Str
  inReasoning : Bool
  deriving DecidableEq, Repr

/-- What is kept of a choice to send the pieces. -/
structure Emitter (τ : Type) where
  isFirst : Bool := true
  toolParser : Option τ := none
  hasToolCalls : Bool := false

def ChoiceState.emitter {δ ρ τ : Type} (choice : ChoiceState δ ρ τ) : Emitter τ :=
  ⟨choice.isFirst, choice.toolParser, choice.hasToolCalls⟩

/-- The stop decoder on the chunks.  An empty text goes no further. -/
def decodeStep {δ : Type} (d : StopSequenceDecoder δ) (s : δ) (tokenIds : List Nat) : δ × List Str :=
  let r := processChunkTokens d s tokenIds
  (r.1, (nonempty r.2.1).toList)

/-- The reasoning parser on the texts. -/
def reasonStep {ρ : Type} (p : ReasoningParser ρ) (s : ρ) (text : Str) :
    ρ × List (Except Str ParserResult) :=
  ((p.parseReasoningStreamingIncremental s text).1, [(p.parseReasoningStreamingIncremental s text).2])

/-- A tool parser on the texts. -/
def toolStep {τ : Type} (p : ToolParser τ) (s : τ) (text : Str) :
    τ × List (Except Str StreamingParseResult) :=
  ((p.parseIncremental s text).1, [(p.parseIncremental s text).2])

section
variable {δ ρ τ : Type} (crates : Crates δ ρ τ) (req : ChatCompletionRequest)

/-- The reasoning parser on a text, if it is to be parsed. -/
def splitText (s : Option ρ) (text : Str) : Option ρ × Piece :=
  match crates.reasoningParserFor req with
  | none => (s, ⟨text, [], false⟩)
  | some p =>
      let r := p.parseReasoningStreamingIncremental (s.getD p.new) text
      match r.2 with
      | .ok result => (some r.1, ⟨result.normalText, result.reasoningText, p.isInReasoning r.1⟩)
      | .error _ => (some r.1, ⟨text, [], false⟩)

def splitStep (s : Option ρ) (text : Str) : Option ρ × List Piece :=
  ((splitText crates req s text).1, [(splitText crates req s text).2])

/-- The tools on a text. -/
def feedTools (e : Emitter τ) (text : Str) : Emitter τ × List Delta :=
  let r := handleTools crates req
    ({ isFirst := e.isFirst, toolParser := e.toolParser, hasToolCalls := e.hasToolCalls } :
      ChoiceState δ ρ τ) text
  (r.1.emitter, r.2)

/-- The pieces are sent. -/
def emitStep (e : Emitter τ) (piece : Piece) : Emitter τ × List Delta :=
  let sent :=
    if piece.inReasoning = false ∧ crates.streamsTools req = true then
      feedTools crates req { e with isFirst := false } piece.normalText
    else ({ e with isFirst := false }, ((nonempty piece.normalText).map Delta.content).toList)
  (sent.1, (if e.isFirst = true then [Delta.role] else []) ++
    ((nonempty piece.reasoningText).map Delta.reasoning).toList ++ sent.2)

/-- A choice, as the states of the machines. -/
def ChoiceState.view (choice : ChoiceState δ ρ τ) : (δ × Option ρ) × Emitter τ :=
  ((choice.stopDecoder.getD crates.stopDecoder.new, choice.reasoningParser), choice.emitter)

/-- The tools keep the rest of a choice, and do not look at it. -/
theorem handleTools_eq (choice : ChoiceState δ ρ τ) (text : Str) : handleTools crates req choice text =
      let r := feedTools crates req choice.emitter text
      ({ choice with
          isFirst := r.1.isFirst
          toolParser := r.1.toolParser
          hasToolCalls := r.1.hasToolCalls }, r.2) := by
  unfold feedTools handleTools
  split
  · rfl
  · cases crates.streamParserFor req with
    | none => rfl
    | some p =>
      dsimp only [processToolCallsStream, ChoiceState.emitter]
      generalize p.parseIncremental (choice.toolParser.getD p.new) text = r
      obtain ⟨s, result⟩ := r
      cases result <;> rfl

theorem nonempty_nil : nonempty [] = none := rfl

theorem nonempty_ne {s : Str} (h : s ≠ []) : nonempty s = some s := if_neg h

theorem handleReasoning_eq (choice : ChoiceState δ ρ τ) (text : Str) :
    handleReasoning crates req choice text =
      let r := splitText crates req choice.reasoningParser text
      ⟨{ choice with reasoningParser := r.1 }, r.2.normalText,
        (nonempty r.2.reasoningText).map Delta.reasoning, r.2.inReasoning⟩ := by
  unfold handleReasoning splitText
  cases crates.reasoningParserFor req with
  | none => rfl
  | some p =>
    dsimp only
    rw [processReasoningStream]
    generalize p.parseReasoningStreamingIncremental (choice.reasoningParser.getD p.new) text = r
    obtain ⟨s, result⟩ := r
    cases result <;> rfl

/-- **A chunk goes through the machines.** -/
theorem chunk_series (choice : ChoiceState δ ρ τ) (tokenIds : List Nat) :
    series (series (decodeStep crates.stopDecoder) (splitStep crates req)) (emitStep crates req)
        (choice.view crates) tokenIds =
      ((choice.chunk crates req tokenIds).1.view crates, (choice.chunk crates req tokenIds).2) ∧
    (choice.chunk crates req tokenIds).1.finishReason = choice.finishReason ∧
    (choice.chunk crates req tokenIds).1.stopDecoder =
      some (decodeStep crates.stopDecoder (choice.view crates).1.1 tokenIds).1 := by
  rw [series, series, decodeStep, ChoiceState.chunk]
  dsimp only [ChoiceState.view]
  generalize processChunkTokens crates.stopDecoder
    (choice.stopDecoder.getD crates.stopDecoder.new) tokenIds = r
  by_cases hempty : r.2.1 = []
  · rw [if_pos hempty, hempty, nonempty_nil]
    exact ⟨rfl, rfl, rfl⟩
  · rw [if_neg hempty, nonempty_ne hempty, handleReasoning_eq]
    simp only [Option.toList_some, run_cons, run_nil, splitStep, emitStep, append_nil]
    generalize splitText crates req choice.reasoningParser r.2.1 = q
    rw [handleDelta]
    split
    · rw [handleTools_eq]
      exact ⟨rfl, rfl, rfl⟩
    · exact ⟨rfl, rfl, rfl⟩

/-! ### A choice -/

/-- The texts of the chunks, and the stop decoder after them. -/
def Crates.decoded (chunks : List (List Nat)) : δ × List Str :=
  run (decodeStep crates.stopDecoder) crates.stopDecoder.new chunks

/-- The text that the stop decoder holds after the chunks. -/
def Crates.held (chunks : List (List Nat)) : Str :=
  (crates.stopDecoder.flush (crates.decoded chunks).1).2.flushed

def Crates.pieces (chunks : List (List Nat)) : List Piece :=
  (run (splitStep crates req) none (crates.decoded chunks).2).2

/-- What is sent of the pieces, and what is kept. -/
def Crates.emitted (chunks : List (List Nat)) : Emitter τ × List Delta :=
  run (emitStep crates req) {} (crates.pieces req chunks)

/-- **The chunks of a choice.** -/
theorem run_chunks (chunks : List (List Nat)) :
    let r := run (ChoiceState.chunk crates req) {} chunks
    r.1.emitter = (crates.emitted req chunks).1 ∧ r.2 = (crates.emitted req chunks).2 ∧
      r.1.finishReason = none ∧
      r.1.stopDecoder.getD crates.stopDecoder.new = (crates.decoded chunks).1 ∧
      (r.1.stopDecoder = none → chunks = []) := by
  have hrun := run_view (ChoiceState.view crates) (fun c l => (chunk_series crates req c l).1) {} chunks
  rw [show (({} : ChoiceState δ ρ τ).view crates) = ((crates.stopDecoder.new, none), {}) from rfl,
    run_series, run_series] at hrun
  obtain ⟨hview, hsent⟩ := Prod.mk.inj hrun
  obtain ⟨hfirst, hemitter⟩ := Prod.mk.inj hview
  have hkept : ∀ (l : List (List Nat)) (c : ChoiceState δ ρ τ),
      (run (ChoiceState.chunk crates req) c l).1.finishReason = c.finishReason ∧
        ((run (ChoiceState.chunk crates req) c l).1.stopDecoder = none →
          c.stopDecoder = none ∧ l = []) := by
    intro l
    induction l with
    | nil => exact fun c => ⟨rfl, fun h => ⟨h, rfl⟩⟩
    | cons tokenIds l ih =>
      intro c
      obtain ⟨-, hfinish, hstop⟩ := chunk_series crates req c tokenIds
      obtain ⟨ihfinish, ihstop⟩ := ih (c.chunk crates req tokenIds).1
      refine ⟨ihfinish.trans hfinish, fun h => ?_⟩
      rw [hstop] at ihstop
      cases (ihstop h).1
  obtain ⟨hfinish, hstop⟩ := hkept chunks {}
  exact ⟨hemitter.symm, hsent.symm, hfinish, (congrArg Prod.fst hfirst).symm, fun h => (hstop h).2⟩

/-- **All messages of a choice.** -/
theorem run_messages (hnew : (crates.stopDecoder.flush crates.stopDecoder.new).2.flushed = [])
    (chunks : List (List Nat)) (m : ProtoGenerateComplete) :
    let r := run (ChoiceState.take crates req) {} (chunks.map .chunk ++ [.complete m])
    r.1.emitter = (crates.emitted req chunks).1 ∧
      r.2 = (crates.emitted req chunks).2 ++ ((nonempty (crates.held chunks)).map Delta.content).toList ∧
      r.1.finishReason = some (m.finishReason, m.matchedStop.map MatchedStop.toValue) := by
  obtain ⟨hemitter, hsent, -, hdecoder, hstop⟩ := run_chunks crates req chunks
  have hchunks : run (fun c l => ChoiceState.take crates req c (.chunk l)) {} chunks =
    run (ChoiceState.chunk crates req) {} chunks := rfl
  rw [run_append, run_map, hchunks]
  generalize run (ChoiceState.chunk crates req) {} chunks = r at hemitter hsent hdecoder hstop ⊢
  rw [run_cons, run_nil, append_nil, ← hemitter, ← hsent, Crates.held, ← hdecoder]
  dsimp only [ChoiceState.take]
  rw [ChoiceState.complete]
  cases hs : r.1.stopDecoder with
  | none =>
    -- No chunk has come, and nothing is flushed.
    rw [Option.getD_none, hnew, nonempty_nil]
    exact ⟨rfl, rfl, rfl⟩
  | some s => exact ⟨rfl, rfl, rfl⟩

/-! ### The stream -/

/-- A message of the backend, for its choice. -/
def ProtoResponseVariant.message : ProtoResponseVariant → Option (Nat × ChoiceMessage)
  | chunk m => some (m.index, .chunk m.tokenIds)
  | complete m => some (m.index, .complete m)
  | _ => Option.none

/-- A stream that does not fail is read to its end. -/
theorem streamLoop_eq (variants : List ProtoResponseVariant) (h : ∀ message, .error message ∉ variants)
    (choices : List (Nat × ChoiceState δ ρ τ)) :
    streamLoop crates req choices (variants.map .ok) =
      (.ok (runAt (ChoiceState.take crates req) {} choices
          (variants.filterMap ProtoResponseVariant.message)).1,
        (runAt (ChoiceState.take crates req) {} choices
          (variants.filterMap ProtoResponseVariant.message)).2) := by
  induction variants generalizing choices with
  | nil => rfl
  | cons variant variants ih =>
    have hrest : ∀ message, .error message ∉ variants := fun message hmem =>
      h message (mem_cons_of_mem _ hmem)
    cases variant with
    | error message => exact absurd mem_cons_self (h message)
    | none => exact ih hrest choices
    | chunk m =>
      rw [map_cons, streamLoop, ih hrest]
      rfl
    | complete m =>
      rw [map_cons, streamLoop, ih hrest]
      rfl

/-- **What is sent of a choice**, in whatever order the entries are visited. -/
theorem outputsOf_processStreamingChunks (hnew : (crates.stopDecoder.flush crates.stopDecoder.new).2.flushed = [])
    {order order' : List (Nat × ChoiceState δ ρ τ) → List (Nat × ChoiceState δ ρ τ)}
    (hperm : ∀ l, (order l).Perm l) (hperm' : ∀ l, (order' l).Perm l)
    {variants : List ProtoResponseVariant} (h : ∀ message, .error message ∉ variants)
    {i : Nat} {chunks : List (List Nat)} {m : ProtoGenerateComplete}
    (hmessages : outputsOf i (variants.filterMap ProtoResponseVariant.message) =
      chunks.map .chunk ++ [.complete m]) :
    ∃ choice : ChoiceState δ ρ τ, choice.emitter = (crates.emitted req chunks).1 ∧
      choice.finishReason = some (m.finishReason, m.matchedStop.map MatchedStop.toValue) ∧
      outputsOf i (processStreamingChunks crates req order order' (variants.map .ok)).2 =
        (crates.emitted req chunks).2 ++ ((nonempty (crates.held chunks)).map Delta.content).toList ++
          choice.unstreamed crates req ++ choice.finished := by
  obtain ⟨hemitter, hsent, hfinish⟩ := run_messages crates req hnew chunks m
  have hlookup := lookup_runAt (ChoiceState.take crates req) {} []
    (variants.filterMap ProtoResponseVariant.message) i
  have hout := outputsOf_runAt (ChoiceState.take crates req) {} []
    (variants.filterMap ProtoResponseVariant.message) i
  have hnodup := nodup_runAt (ChoiceState.take crates req) {} (m := []) nodup_nil
    (variants.filterMap ProtoResponseVariant.message)
  rw [processStreamingChunks, streamLoop_eq crates req variants h]
  generalize runAt (ChoiceState.take crates req) {} []
    (variants.filterMap ProtoResponseVariant.message) = r at hlookup hout hnodup ⊢
  rw [outputsOf_append, outputsOf_append, outputsOf_perm hnodup (hperm _),
    outputsOf_perm hnodup (hperm' _), hout]
  rw [hmessages] at hlookup ⊢
  rw [show ((([] : List (Nat × ChoiceState δ ρ τ)).lookup i).getD {}) = {} from rfl] at hlookup ⊢
  cases hentry : r.1.lookup i with
  | none =>
    rw [hentry, Option.getD_none] at hlookup
    rw [← hlookup] at hfinish
    cases hfinish
  | some choice =>
    rw [hentry, Option.getD_some] at hlookup
    rw [← hlookup] at hemitter hfinish
    exact ⟨choice, hemitter, hfinish, by rw [hsent]; rfl⟩

end

end QwenStack.Chat
