import QwenStack.Chat.Streamed

/-!
# Chat — what a client reads

The pieces of a choice are sent in one of three ways: as they are, if no tools are parsed (`reads_plain`); as
the arguments of a function that is forced (`reads_forced`); or by way of a tool parser (`reads_parsed`).

A piece that ends within the reasoning does not come to the tools, and its normal text is sent as content.
-/

namespace QwenStack.Chat

open List
open Transducer (run run_nil run_cons)

/-- What a client reads of some deltas, none of which ends the choice. -/
structure Reads (deltas : List Delta) (content reasoning : Str) (arguments : Nat → Str) : Prop where
  content : streamedContent deltas = content
  reasoning : streamedReasoning deltas = reasoning
  arguments : ∀ k, streamedArguments k deltas = arguments k
  finish : streamedFinish deltas = []

namespace Reads
variable {l l' : List Delta} {c c' r r' : Str} {a a' : Nat → Str}

theorem nil : Reads [] [] [] fun _ => [] := ⟨rfl, rfl, fun _ => rfl, rfl⟩

theorem append (h : Reads l c r a) (h' : Reads l' c' r' a') :
    Reads (l ++ l') (c ++ c') (r ++ r') fun k => a k ++ a' k where
  content := by rw [streamedContent_append, h.content, h'.content]
  reasoning := by rw [streamedReasoning_append, h.reasoning, h'.reasoning]
  arguments k := by rw [streamedArguments_append, h.arguments, h'.arguments]
  finish := by rw [streamedFinish_append, h.finish, h'.finish]; rfl

theorem role (isFirst : Bool) :
    Reads (if isFirst = true then [Delta.role] else []) [] [] fun _ => [] := by
  cases isFirst <;> exact ⟨rfl, rfl, fun _ => rfl, rfl⟩

theorem ofContent (s : Str) :
    Reads ((nonempty s).map Delta.content).toList s [] fun _ => [] := by
  by_cases h : s = []
  · rw [h]
    exact nil
  · rw [nonempty_ne h]
    exact ⟨append_nil s, rfl, fun _ => rfl, rfl⟩

theorem ofToolName (called : Bool) (name : Str) :
    Reads (if called = true then [] else [Delta.toolName name]) [] [] fun _ => [] := by
  cases called <;> exact ⟨rfl, rfl, fun _ => rfl, rfl⟩

theorem ofToolArgs (s : Str) :
    Reads ((nonempty s).map Delta.toolArgs).toList [] [] fun k => if k = 0 then s else [] := by
  by_cases h : s = []
  · rw [h]
    exact ⟨rfl, rfl, fun k => (ite_self _).symm, rfl⟩
  · rw [nonempty_ne h]
    exact ⟨rfl, rfl, fun k => append_nil _, rfl⟩

theorem ofReasoning (s : Str) :
    Reads ((nonempty s).map Delta.reasoning).toList [] s fun _ => [] := by
  by_cases h : s = []
  · rw [h]
    exact nil
  · rw [nonempty_ne h]
    exact ⟨rfl, append_nil s, fun _ => rfl, rfl⟩

end Reads

/-- The arguments of a call, in some items of a tool parser. -/
def argumentsOf (k : Nat) (items : List ToolCallItem) : Str :=
  items.flatMap fun item => if item.toolIndex = k then item.parameters else []

theorem argumentsOf_append (k : Nat) (items items' : List ToolCallItem) :
    argumentsOf k (items ++ items') = argumentsOf k items ++ argumentsOf k items' :=
  flatMap_append

/-- An item, with its name or without. -/
theorem Reads.item (index : Nat) (name : Option Str) (parameters : Str) :
    Reads [.toolCall index name (nonempty parameters)] [] []
      fun k => if index = k then parameters else [] := by
  refine ⟨rfl, rfl, fun k => ?_, rfl⟩
  by_cases h : parameters = []
  · rw [h, nonempty_nil, ite_self]
    rfl
  · rw [nonempty_ne h]
    exact append_nil _

theorem Reads.items (name : ToolCallItem → Option Str) (items : List ToolCallItem) :
    Reads (items.map fun item => .toolCall item.toolIndex (name item) (nonempty item.parameters)) [] []
      fun k => argumentsOf k items := by
  induction items with
  | nil => exact Reads.nil
  | cons item items ih => exact (Reads.item item.toolIndex (name item) item.parameters).append ih

/-! ### The pieces -/

/-- The texts that come to the tools. -/
def toolTexts (pieces : List Piece) : List Str :=
  (pieces.filter fun piece => !piece.inReasoning).map Piece.normalText

/-- A piece that ends within the reasoning has no normal text. -/
def NothingBeside (pieces : List Piece) : Prop :=
  ∀ piece ∈ pieces, piece.inReasoning = true → piece.normalText = []

theorem toolTexts_inside {piece : Piece} (h : piece.inReasoning = true) (pieces : List Piece) :
    toolTexts (piece :: pieces) = toolTexts pieces := by
  rw [toolTexts, filter_cons_of_neg (by rw [h]; exact Bool.false_ne_true), toolTexts]

theorem toolTexts_outside {piece : Piece} (h : piece.inReasoning = false) (pieces : List Piece) :
    toolTexts (piece :: pieces) = piece.normalText :: toolTexts pieces := by
  rw [toolTexts, filter_cons_of_pos (by rw [h]; rfl), map_cons, toolTexts]

theorem flatten_toolTexts {pieces : List Piece} (h : NothingBeside pieces) :
    (toolTexts pieces).flatten = pieces.flatMap Piece.normalText := by
  induction pieces with
  | nil => rfl
  | cons piece pieces ih =>
    have ih := ih fun piece' hmem => h piece' (mem_cons_of_mem _ hmem)
    rw [flatMap_cons]
    cases hin : piece.inReasoning with
    | true =>
      rw [toolTexts_inside hin, ih, h piece mem_cons_self hin, nil_append]
    | false => rw [toolTexts_outside hin, flatten_cons, ih]

section
variable {δ ρ τ : Type} (crates : Crates δ ρ τ) (req : ChatCompletionRequest)

/-- A piece that does not come to the tools. -/
theorem emitStep_unparsed {piece : Piece}
    (h : ¬ (piece.inReasoning = false ∧ crates.streamsTools req = true)) (e : Emitter τ) :
    (emitStep crates req e piece).1 = { e with isFirst := false } ∧
      Reads (emitStep crates req e piece).2 piece.normalText piece.reasoningText fun _ => [] := by
  rw [emitStep, if_neg h]
  refine ⟨rfl, ?_⟩
  have hreads : Reads _ piece.normalText (piece.reasoningText ++ []) fun _ => [] :=
    ((Reads.role e.isFirst).append (Reads.ofReasoning piece.reasoningText)).append
      (Reads.ofContent piece.normalText)
  rwa [append_nil] at hreads

/-- A piece that does. -/
theorem emitStep_parsed {piece : Piece} (hin : piece.inReasoning = false)
    (hmode : crates.streamsTools req = true) {e : Emitter τ} {sent : Emitter τ × List Delta}
    (hfeed : feedTools crates req { e with isFirst := false } piece.normalText = sent)
    {content : Str} {arguments : Nat → Str} (h : Reads sent.2 content [] arguments) :
    (emitStep crates req e piece).1 = sent.1 ∧
      Reads (emitStep crates req e piece).2 content piece.reasoningText arguments := by
  rw [emitStep, if_pos ⟨hin, hmode⟩, hfeed]
  refine ⟨rfl, ?_⟩
  have hreads : Reads _ content (piece.reasoningText ++ []) arguments :=
    ((Reads.role e.isFirst).append (Reads.ofReasoning piece.reasoningText)).append h
  rwa [append_nil] at hreads

/-- **No tools are parsed.** -/
theorem reads_plain (hmode : crates.streamsTools req = false) (e : Emitter τ) (pieces : List Piece) :
    Reads (run (emitStep crates req) e pieces).2 (pieces.flatMap Piece.normalText)
        (pieces.flatMap Piece.reasoningText) (fun _ => []) ∧
      (run (emitStep crates req) e pieces).1.toolParser = e.toolParser ∧
      (run (emitStep crates req) e pieces).1.hasToolCalls = e.hasToolCalls := by
  induction pieces generalizing e with
  | nil => exact ⟨Reads.nil, rfl, rfl⟩
  | cons piece pieces ih =>
    have hsent : ¬ (piece.inReasoning = false ∧ crates.streamsTools req = true) := by
      rw [hmode]
      exact fun h => Bool.false_ne_true h.2
    obtain ⟨hkept, hreads⟩ := emitStep_unparsed crates req hsent e
    rw [run_cons, hkept]
    obtain ⟨ihreads, ihparser, ihcalls⟩ := ih { e with isFirst := false }
    exact ⟨hreads.append ihreads, ihparser, ihcalls⟩

/-- A piece that ends within the reasoning says nothing but this. -/
theorem emitStep_inside {piece : Piece} (hin : piece.inReasoning = true) (hnormal : piece.normalText = [])
    (e : Emitter τ) : (emitStep crates req e piece).1 = { e with isFirst := false } ∧
      Reads (emitStep crates req e piece).2 [] piece.reasoningText fun _ => [] := by
  have hsent : ¬ (piece.inReasoning = false ∧ crates.streamsTools req = true) := by
    rw [hin]
    exact fun h => Bool.false_ne_true h.1.symm
  have h := emitStep_unparsed crates req hsent e
  rwa [hnormal] at h

/-- **The arguments of a function that is forced.** -/
theorem reads_forced (hmode : crates.streamsTools req = true) {name : Str}
    (hchoice : req.toolChoice = some (.function name)) (e : Emitter τ) {pieces : List Piece}
    (hbeside : NothingBeside pieces) :
    Reads (run (emitStep crates req) e pieces).2 [] (pieces.flatMap Piece.reasoningText)
        (fun k => if k = 0 then (toolTexts pieces).flatten else []) ∧
      (run (emitStep crates req) e pieces).1.toolParser = e.toolParser ∧
      (run (emitStep crates req) e pieces).1.hasToolCalls =
        (e.hasToolCalls || decide (toolTexts pieces ≠ [])) := by
  induction pieces generalizing e with
  | nil => exact ⟨⟨rfl, rfl, fun k => (ite_self _).symm, rfl⟩, rfl, (Bool.or_false _).symm⟩
  | cons piece pieces ih =>
    have hrest : NothingBeside pieces := fun piece' hmem => hbeside piece' (mem_cons_of_mem _ hmem)
    cases hin : piece.inReasoning with
    | true =>
      obtain ⟨hkept, hreads⟩ :=
        emitStep_inside crates req hin (hbeside piece mem_cons_self hin) e
      rw [run_cons, hkept, toolTexts_inside hin]
      obtain ⟨ihreads, ihparser, ihcalls⟩ := ih { e with isFirst := false } hrest
      exact ⟨hreads.append ihreads, ihparser, ihcalls⟩
    | false =>
      have hfeed : feedTools crates req { e with isFirst := false } piece.normalText =
          ({ e with isFirst := false, hasToolCalls := true },
            (if e.hasToolCalls = true then [] else [.toolName name]) ++
              ((nonempty piece.normalText).map Delta.toolArgs).toList) := by
        rw [feedTools, handleTools, hchoice]
        rfl
      obtain ⟨hkept, hreads⟩ := emitStep_parsed crates req hin hmode hfeed
        ((Reads.ofToolName e.hasToolCalls name).append (Reads.ofToolArgs piece.normalText))
      rw [run_cons, hkept, toolTexts_outside hin]
      obtain ⟨ihreads, ihparser, ihcalls⟩ := ih { e with isFirst := false, hasToolCalls := true } hrest
      refine ⟨?_, ihparser, ihcalls.trans (Bool.or_true _).symm⟩
      have hboth := hreads.append ihreads
      refine ⟨hboth.content, hboth.reasoning, fun k => (hboth.arguments k).trans ?_, hboth.finish⟩
      by_cases hk : k = 0
      · rw [if_pos hk, if_pos hk, if_pos hk, flatten_cons]
        rfl
      · rw [if_neg hk, if_neg hk, if_neg hk]
        rfl

/-- What a tool parser has found to be content, and what to be calls. -/
def resultContent : Except Str StreamingParseResult → Str
  | .ok result => result.normalText
  | .error _ => []

def resultCalls : Except Str StreamingParseResult → List ToolCallItem
  | .ok result => result.calls
  | .error _ => []

/-- The tool parser on a text. -/
theorem feedTools_parsed {p : ToolParser τ} (hparser : crates.streamParserFor req = some p)
    (hchoice : ∀ name, req.toolChoice ≠ some (.function name)) (e : Emitter τ) (text : Str) :
    let r := p.parseIncremental (e.toolParser.getD p.new) text
    (feedTools crates req e text).1 = { e with
          toolParser := some r.1
          hasToolCalls := e.hasToolCalls || !(resultCalls r.2).isEmpty } ∧
      Reads (feedTools crates req e text).2 (resultContent r.2) []
        fun k => argumentsOf k (resultCalls r.2) := by
  have hhandled : ∀ choice : ChoiceState δ ρ τ,
      handleTools crates req choice text = processToolCallsStream p choice text := by
    intro choice
    rw [handleTools]
    split
    · next name hname => exact absurd hname (hchoice name)
    · rw [hparser]
  rw [feedTools, hhandled, processToolCallsStream]
  generalize p.parseIncremental (e.toolParser.getD p.new) text = r
  obtain ⟨s, result⟩ := r
  cases result with
  | ok result =>
    have hreads : Reads _ (result.normalText ++ []) [] fun k => argumentsOf k result.calls :=
      (Reads.ofContent result.normalText).append (Reads.items ToolCallItem.name result.calls)
    rw [append_nil] at hreads
    exact ⟨rfl, hreads⟩
  | error message =>
    refine ⟨?_, Reads.nil⟩
    rw [show (resultCalls (.error message)).isEmpty = true from rfl, Bool.not_true, Bool.or_false]
    rfl

/-- **What a tool parser makes of the texts.** -/
theorem reads_parsed (hmode : crates.streamsTools req = true) {p : ToolParser τ}
    (hparser : crates.streamParserFor req = some p)
    (hchoice : ∀ name, req.toolChoice ≠ some (.function name)) (e : Emitter τ) {pieces : List Piece}
    (hbeside : NothingBeside pieces) :
    let q := run (toolStep p) (e.toolParser.getD p.new) (toolTexts pieces)
    Reads (run (emitStep crates req) e pieces).2 (q.2.flatMap resultContent)
        (pieces.flatMap Piece.reasoningText) (fun k => argumentsOf k (q.2.flatMap resultCalls)) ∧
      (run (emitStep crates req) e pieces).1.toolParser.getD p.new = q.1 ∧
      ((run (emitStep crates req) e pieces).1.toolParser = none →
        e.toolParser = none ∧ toolTexts pieces = []) ∧
      (run (emitStep crates req) e pieces).1.hasToolCalls =
        (e.hasToolCalls || !(q.2.flatMap resultCalls).isEmpty) := by
  induction pieces generalizing e with
  | nil => exact ⟨Reads.nil, rfl, fun h => ⟨h, rfl⟩, (Bool.or_false _).symm⟩
  | cons piece pieces ih =>
    have hrest : NothingBeside pieces := fun piece' hmem => hbeside piece' (mem_cons_of_mem _ hmem)
    cases hin : piece.inReasoning with
    | true =>
      obtain ⟨hkept, hreads⟩ :=
        emitStep_inside crates req hin (hbeside piece mem_cons_self hin) e
      rw [run_cons, hkept, toolTexts_inside hin]
      obtain ⟨ihreads, ihrest⟩ := ih { e with isFirst := false } hrest
      exact ⟨hreads.append ihreads, ihrest⟩
    | false =>
      obtain ⟨hnext, hfed⟩ :=
        feedTools_parsed crates req hparser hchoice { e with isFirst := false } piece.normalText
      obtain ⟨hkept, hreads⟩ := emitStep_parsed crates req hin hmode rfl hfed
      have hrun : run (toolStep p) (e.toolParser.getD p.new) (toolTexts (piece :: pieces)) =
          ((run (toolStep p) (toolStep p (e.toolParser.getD p.new) piece.normalText).1
              (toolTexts pieces)).1,
            (p.parseIncremental (e.toolParser.getD p.new) piece.normalText).2 ::
              (run (toolStep p) (toolStep p (e.toolParser.getD p.new) piece.normalText).1
                (toolTexts pieces)).2) := by
        rw [toolTexts_outside hin]
        rfl
      rw [run_cons, hkept, hnext, hrun]
      generalize hr : p.parseIncremental (e.toolParser.getD p.new) piece.normalText = r at hreads ⊢
      have hstate : (toolStep p (e.toolParser.getD p.new) piece.normalText).1 = r.1 :=
        congrArg Prod.fst hr
      obtain ⟨ihreads, ihstate, ihnone, ihcalls⟩ := ih { e with
          isFirst := false
          toolParser := some r.1
          hasToolCalls := e.hasToolCalls || !(resultCalls r.2).isEmpty } hrest
      rw [hstate]
      refine ⟨?_, ihstate, fun h => absurd (ihnone h).1 (Option.some_ne_none _), ihcalls.trans ?_⟩
      · have hboth := hreads.append ihreads
        refine ⟨hboth.content, hboth.reasoning, fun k => (hboth.arguments k).trans ?_, hboth.finish⟩
        rw [flatMap_cons, argumentsOf_append]
        rfl
      · rw [flatMap_cons, Bool.or_assoc]
        cases resultCalls r.2 <;> rfl

end

end QwenStack.Chat
