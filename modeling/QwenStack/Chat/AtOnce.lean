import QwenStack.Chat.Readings

/-!
# Chat — in pieces and at once

The machines of the other crates are taken to give in pieces what they give at once (`Crates.Chunkwise`).
So the pieces of a choice are what its text is at once (`pieces_spec`).

The choices of a response are those of the `Complete` messages in the order in which they arrive
(`collectStreamResponses_eq`, `processChoices_get`).
-/

namespace QwenStack.Chat

open List
open Transducer (run outputsOf run_cons)

/-! ### In pieces and at once -/

/-- In any chunks, the texts and what is held at the end are the text of all tokens. -/
structure StopSequenceDecoder.Chunkwise {δ : Type} (d : StopSequenceDecoder δ) : Prop where
  flush_new : (d.flush d.new).2.flushed = []
  finalText_eq : ∀ s chunks text, (finalText d s chunks.flatten).2 = .ok text →
    text = (run (decodeStep d) d.new chunks).2.flatten ++
      (d.flush (run (decodeStep d) d.new chunks).1).2.flushed

/-- In any pieces, the reasoning and the rest are those of the text. -/
structure ReasoningParser.Chunkwise {ρ : Type} (p : ReasoningParser ρ) : Prop where
  results_eq : ∀ (texts : List Str) result, p.detectAndParseReasoning texts.flatten = .ok result →
    ∃ results : List ParserResult, (run (reasonStep p) p.new texts).2 = results.map .ok ∧
      results.flatMap ParserResult.normalText = result.normalText ∧
      results.flatMap ParserResult.reasoningText = result.reasoningText

/-- In any pieces, the content and the arguments of each call are those of the text. -/
structure ToolParser.Chunkwise {τ : Type} (p : ToolParser τ) : Prop where
  results_eq : ∀ (texts : List Str) normalText calls, p.parseComplete texts.flatten = .ok (normalText, calls) →
    (run (toolStep p) p.new texts).2.flatMap resultContent = normalText ∧
      ((run (toolStep p) p.new texts).2.flatMap resultCalls = [] ↔ calls = []) ∧
      ∀ k, argumentsOf k ((run (toolStep p) p.new texts).2.flatMap resultCalls ++
          (p.getUnstreamedToolArgs (run (toolStep p) p.new texts).1).getD []) =
        (calls[k]?.map FunctionCall.arguments).getD []

section
variable {δ ρ τ : Type}

structure Crates.Chunkwise (crates : Crates δ ρ τ) : Prop where
  stopDecoder : crates.stopDecoder.Chunkwise
  reasoningParser : ∀ p, crates.reasoningParser = some p → p.Chunkwise
  toolParser : ∀ p, crates.toolParser = some p → p.Chunkwise
  jsonParser : crates.jsonParser.Chunkwise

variable {crates : Crates δ ρ τ} {req : ChatCompletionRequest}

theorem nonempty_getD (s : Str) : (nonempty s).getD [] = s := by
  by_cases h : s = []
  · rw [h]
    rfl
  · rw [nonempty_ne h, Option.getD_some]

/-! ### The pieces of a text -/

theorem run_splitStep_none (h : crates.reasoningParserFor req = none) (s : Option ρ) (texts : List Str) :
    (run (splitStep crates req) s texts).2 = texts.map fun text => ⟨text, [], false⟩ := by
  induction texts generalizing s with
  | nil => rfl
  | cons text texts ih =>
    rw [run_cons, ih, map_cons, splitStep, splitText, h]
    rfl

theorem run_splitStep_some {p : ReasoningParser ρ} (h : crates.reasoningParserFor req = some p)
    {s : Option ρ} {texts : List Str} {results : List ParserResult}
    (hrun : (run (reasonStep p) (s.getD p.new) texts).2 = results.map .ok) :
    (run (splitStep crates req) s texts).2.map (fun piece => (piece.normalText, piece.reasoningText)) =
      results.map fun result => (result.normalText, result.reasoningText) := by
  induction texts generalizing s results with
  | nil =>
    obtain rfl := List.map_eq_nil_iff.mp hrun.symm
    rfl
  | cons text texts ih =>
    rw [run_cons] at hrun
    cases results with
    | nil => cases hrun
    | cons result results =>
      obtain ⟨hfirst, hrest⟩ := List.cons.inj hrun
      have ih := ih (s := some (reasonStep p (s.getD p.new) text).1) hrest
      have hsplit : splitText crates req s text =
          (some (p.parseReasoningStreamingIncremental (s.getD p.new) text).1,
            ⟨result.normalText, result.reasoningText,
              p.isInReasoning (p.parseReasoningStreamingIncremental (s.getD p.new) text).1⟩) := by
        rw [splitText, h]
        dsimp only
        rw [show (p.parseReasoningStreamingIncremental (s.getD p.new) text).2 = .ok result from hfirst]
      rw [run_cons, splitStep, hsplit, map_append]
      exact congrArg ((result.normalText, result.reasoningText) :: ·) ih

/-- **The pieces are what the parser makes of the text at once**, if nothing is held or it is not parsed. -/
theorem pieces_spec (hlaws : crates.Chunkwise) {chunks : List (List Nat)}
    (hheld : (crates.reasoningParserFor req).isSome = true → crates.held chunks = [])
    {reasoned : Option Str × Str}
    (hparse : parseReasoning crates req ((crates.decoded chunks).2.flatten ++ crates.held chunks) =
      .ok reasoned) :
    (crates.pieces req chunks).flatMap Piece.reasoningText = reasoned.1.getD [] ∧
      (crates.pieces req chunks).flatMap Piece.normalText ++ crates.held chunks = reasoned.2 := by
  rw [parseReasoning] at hparse
  rw [Crates.pieces]
  cases hp : crates.reasoningParserFor req with
  | none =>
    rw [hp] at hparse
    cases hparse
    rw [run_splitStep_none hp]
    refine ⟨?_, ?_⟩
    · rw [flatMap_map]
      exact List.flatMap_eq_nil_iff.mpr fun _ _ => rfl
    · rw [flatMap_map]
      exact congrArg (· ++ crates.held chunks) flatMap_id'
  | some p =>
    have hlaw : p.Chunkwise := by
      refine hlaws.reasoningParser p ?_
      rw [Crates.reasoningParserFor] at hp
      split at hp
      · exact hp
      · cases hp
    rw [hheld (by rw [hp]; rfl), append_nil] at hparse ⊢
    rw [hp] at hparse
    dsimp only at hparse
    cases hresult : p.detectAndParseReasoning (crates.decoded chunks).2.flatten with
    | error e =>
      rw [hresult] at hparse
      cases hparse
    | ok result =>
      rw [hresult] at hparse
      cases hparse
      obtain ⟨results, hrun, hnormal, hreasoning⟩ := hlaw.results_eq _ _ hresult
      have hpieces := run_splitStep_some hp (s := none) hrun
      refine ⟨?_, ?_⟩
      · have h := congrArg (List.flatMap Prod.snd) hpieces
        rw [flatMap_map, flatMap_map] at h
        rw [nonempty_getD, ← hreasoning]
        exact h
      · have h := congrArg (List.flatMap Prod.fst) hpieces
        rw [flatMap_map, flatMap_map] at h
        rw [← hnormal]
        exact h

/-! ### The choices of a response -/

theorem processChoices_get {s : δ} {index : Nat} {all : List ProtoGenerateComplete}
    {choices : List ChatChoice} (h : processChoices crates req s index all = .ok choices) :
    choices.length = all.length ∧ ∀ (k : Nat) m choice, all[k]? = some m → choices[k]? = some choice →
      ∃ s' text, (finalText crates.stopDecoder s' m.outputIds).2 = .ok text ∧
        choiceOf crates req m (index + k) text = .ok choice := by
  induction all generalizing s index choices with
  | nil =>
    cases h
    exact ⟨rfl, fun k m choice hm => by cases hm⟩
  | cons complete all ih =>
    rw [processChoices] at h
    cases hsingle : (processSingleChoice crates req s complete index).2 with
    | error e =>
      rw [hsingle] at h
      cases h
    | ok first =>
      rw [hsingle] at h
      cases hrest : processChoices crates req
          (processSingleChoice crates req s complete index).1 (index + 1) all with
      | error e =>
        rw [hrest] at h
        cases h
      | ok rest =>
      rw [hrest] at h
      cases h
      obtain ⟨hlength, hget⟩ := ih hrest
      refine ⟨by rw [length_cons, hlength, length_cons], fun k m choice hm hc => ?_⟩
      cases k with
      | zero =>
        cases hm
        cases hc
        rw [processSingleChoice] at hsingle
        cases htext : (finalText crates.stopDecoder s complete.outputIds).2 with
        | error e =>
          rw [htext] at hsingle
          cases hsingle
        | ok text =>
          rw [htext] at hsingle
          exact ⟨s, text, htext, hsingle⟩
      | succ k =>
        obtain ⟨s', text, htext, hchoice⟩ := hget k m choice hm hc
        refine ⟨s', text, htext, ?_⟩
        rw [show index + (k + 1) = index + 1 + k by omega]
        exact hchoice

/-! ### Runs -/

/-- What the backend generates for an index. -/
structure Generation where
  chunks : List (List Nat)
  finishReason : Str
  matchedStop : Option MatchedStop

/-- Its `Complete` message, with all tokens. -/
def Generation.complete (g : Generation) (i : Nat) : ProtoGenerateComplete :=
  ⟨i, g.chunks.flatten, g.finishReason, g.matchedStop⟩

def Generation.messages (g : Generation) (i : Nat) : List ChoiceMessage :=
  g.chunks.map .chunk ++ [.complete (g.complete i)]

/-- The messages of a stream are those of the generations, one for each index, interleaved in any way. -/
structure Served (generations : List Generation) (variants : List ProtoResponseVariant) : Prop where
  unbroken : ∀ message, .error message ∉ variants
  messages : ∀ i, outputsOf i (variants.filterMap ProtoResponseVariant.message) =
    ((generations[i]?).map (·.messages i)).getD []

def ProtoResponseVariant.completed : ProtoResponseVariant → Option ProtoGenerateComplete
  | complete m => some m
  | _ => Option.none

theorem collectStreamResponses_eq {variants : List ProtoResponseVariant}
    (h : ∀ message, .error message ∉ variants) : collectStreamResponses (variants.map .ok) =
      .ok (variants.filterMap ProtoResponseVariant.completed) := by
  induction variants with
  | nil => rfl
  | cons variant variants ih =>
    have ih := ih fun message hmem => h message (mem_cons_of_mem _ hmem)
    cases variant with
    | error message => exact absurd mem_cons_self (h message)
    | none => exact ih
    | chunk m => exact ih
    | complete m =>
      rw [map_cons, collectStreamResponses, ih]
      rfl

end

end QwenStack.Chat
