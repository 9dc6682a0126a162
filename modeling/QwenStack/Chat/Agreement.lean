import QwenStack.Chat.Characters

/-!
# Chat — a stream and a response

The choices of a stream are numbered by the index of the backend, those of a response as their `Complete`
messages arrive; what the stop decoder holds at the end is streamed as content, past the parsers, and so is
the normal text of a piece that ends within the reasoning.  Where none of this matters, `streams_as_at_once`
says how a choice that is streamed and the one of the response agree, and in what they differ by design.
-/

namespace QwenStack.Chat

open List
open Transducer (run outputsOf)

section
variable {δ ρ τ : Type} {crates : Crates δ ρ τ} {req : ChatCompletionRequest}

/-! ### Agreement -/

/-- The tools are constrained by a JSON schema. -/
def ChatCompletionRequest.constrained (req : ChatCompletionRequest) : Bool :=
  req.toolChoiceEnabled && req.tools && req.usedJsonSchema

/-- The finish reason of a choice, by what the backend says. -/
def finishOf (reason : Str) (called : Bool) : Str :=
  if called = true ∧ reason = "stop".toList then "tool_calls".toList else reason

/-- The arguments of a call of a choice. -/
def callArguments (calls : List FunctionCall) (k : Nat) : Str :=
  (calls[k]?.map FunctionCall.arguments).getD []

/-- **How a stream agrees with a choice** of which this is the text, without its reasoning. -/
structure Agrees (crates : Crates δ ρ τ) (req : ChatCompletionRequest) (deltas : List Delta)
    (text reason : Str) (choice : ChatChoice) : Prop where
  reasoning : streamedReasoning deltas = choice.reasoningContent.getD []
  finishReason : choice.finishReason = if choice.toolCalls.isSome = true then "tool_calls".toList else reason
  /-- Without a schema all is the same, if the tool parser accepts the text; but a stream keeps the finish
  reason of the backend if it is not to stop. -/
  free : req.constrained = false →
    (∀ p, crates.toolParser = some p → crates.streamsTools req = true → ∃ r, p.parseComplete text = .ok r) →
    streamedContent deltas = choice.content.getD [] ∧
      (∀ k, streamedArguments k deltas = callArguments (choice.toolCalls.getD []) k) ∧
      streamedFinish deltas = [finishOf reason choice.toolCalls.isSome]
  /-- The arguments of a forced function are streamed as they are; those of the response are read and
  written again, if they can be read. -/
  forced : req.constrained = true → ∀ name, req.toolChoice = some (.function name) →
    streamedContent deltas = [] ∧ (∀ k, streamedArguments k deltas = if k = 0 then text else []) ∧
      (text ≠ [] → streamedFinish deltas = [finishOf reason true]) ∧
      (choice.toolCalls, choice.content) =
        match crates.fromStr text with
        | .ok params => (some [⟨name, crates.toString params⟩], none)
        | .error _ => (none, nonempty text)
  /-- Calls that are required are streamed as the JSON parser reads them; those of the response are the
  items of the array. -/
  required : req.constrained = true → (∀ name, req.toolChoice ≠ some (.function name)) →
    ∀ normalText calls, crates.jsonParser.parseComplete text = .ok (normalText, calls) →
    streamedContent deltas = normalText ∧ (∀ k, streamedArguments k deltas = callArguments calls k) ∧
      streamedFinish deltas = [finishOf reason !calls.isEmpty] ∧
      (choice.toolCalls, choice.content) =
        match crates.fromStr text with
        | .ok (.array items) => (some (items.filterMap (callOf crates)), none)
        | _ => (none, nonempty text)

/-! ### The end of a choice -/

/-- The chunk that ends a choice. -/
theorem Reads.finished {deltas : List Delta} {content reasoning : Str} {arguments : Nat → Str}
    (h : Reads deltas content reasoning arguments) {choice : ChoiceState δ ρ τ} {reason : Str}
    {matchedStop : Option Value} (hfinish : choice.finishReason = some (reason, matchedStop)) :
    streamedContent (deltas ++ choice.finished) = content ∧
      streamedReasoning (deltas ++ choice.finished) = reasoning ∧
      (∀ k, streamedArguments k (deltas ++ choice.finished) = arguments k) ∧
      streamedFinish (deltas ++ choice.finished) = [finishOf reason choice.hasToolCalls] := by
  have hend : choice.finished = [.finish (finishOf reason choice.hasToolCalls) matchedStop] := by
    rw [ChoiceState.finished, hfinish]
    rfl
  rw [hend]
  refine ⟨?_, ?_, fun k => ?_, ?_⟩
  · rw [streamedContent_append, h.content]
    exact append_nil content
  · rw [streamedReasoning_append, h.reasoning]
    exact append_nil reasoning
  · rw [streamedArguments_append, h.arguments]
    exact append_nil (arguments k)
  · rw [streamedFinish_append, h.finish]
    rfl

/-- Of a choice without a tool parser nothing is left to stream. -/
theorem unstreamed_none {choice : ChoiceState δ ρ τ} (h : choice.toolParser = none) :
    choice.unstreamed crates req = [] := by
  rw [ChoiceState.unstreamed, h]

/-- What is sent of a choice by way of a tool parser, with what is left at the end. -/
theorem reads_parsed_choice {p : ToolParser τ} (hmode : crates.streamsTools req = true)
    (hparser : crates.streamParserFor req = some p)
    (hname : ∀ name, req.toolChoice ≠ some (.function name)) {chunks : List (List Nat)}
    (hbeside : NothingBeside (crates.pieces req chunks)) {choice : ChoiceState δ ρ τ}
    (hemitter : choice.emitter = (crates.emitted req chunks).1) :
    let q := run (toolStep p) p.new (toolTexts (crates.pieces req chunks))
    ∃ left, Reads ((crates.emitted req chunks).2 ++ choice.unstreamed crates req)
        (q.2.flatMap resultContent) ((crates.pieces req chunks).flatMap Piece.reasoningText)
        (fun k => argumentsOf k (q.2.flatMap resultCalls ++ left)) ∧
      (left = (p.getUnstreamedToolArgs q.1).getD [] ∨
        left = [] ∧ toolTexts (crates.pieces req chunks) = []) ∧
      choice.hasToolCalls = !(q.2.flatMap resultCalls).isEmpty := by
  obtain ⟨hreads, hstate, hnone, hcalls⟩ := reads_parsed crates req hmode hparser hname {} hbeside
  have htool : choice.toolParser =
      (run (emitStep crates req) {} (crates.pieces req chunks)).1.toolParser :=
    congrArg Emitter.toolParser hemitter
  have hcalled : choice.hasToolCalls =
      (run (emitStep crates req) {} (crates.pieces req chunks)).1.hasToolCalls :=
    congrArg Emitter.hasToolCalls hemitter
  cases hs : choice.toolParser with
  | none =>
    refine ⟨[], ?_, .inr ⟨rfl, (hnone (htool.symm.trans hs)).2⟩, hcalled.trans hcalls⟩
    rw [unstreamed_none hs]
    simp only [append_nil]
    exact hreads
  | some s =>
    have hleft : choice.unstreamed crates req = ((p.getUnstreamedToolArgs s).getD []).map fun item =>
        Delta.toolCall item.toolIndex none (nonempty item.parameters) := by
      rw [ChoiceState.unstreamed, hs, hparser]
    refine ⟨(p.getUnstreamedToolArgs s).getD [], ?_, .inl ?_, hcalled.trans hcalls⟩
    · have hboth := hreads.append (Reads.items (fun _ => none) ((p.getUnstreamedToolArgs s).getD []))
      rw [append_nil, append_nil] at hboth
      rw [hleft]
      exact ⟨hboth.content, hboth.reasoning,
        fun k => (hboth.arguments k).trans (argumentsOf_append k _ _).symm, hboth.finish⟩
    · rw [← htool, hs] at hstate
      exact congrArg (fun s => (p.getUnstreamedToolArgs s).getD []) hstate

/-- **A choice that the tool parser accepts.** -/
theorem reads_accepted {p : ToolParser τ} (hlaw : p.Chunkwise) {pieces : List Piece}
    (hbeside : NothingBeside pieces) {deltas : List Delta} {reasoning : Str} {left : List ToolCallItem}
    (hreads : Reads deltas ((run (toolStep p) p.new (toolTexts pieces)).2.flatMap resultContent) reasoning
      fun k => argumentsOf k ((run (toolStep p) p.new (toolTexts pieces)).2.flatMap resultCalls ++ left))
    (hleft : left = (p.getUnstreamedToolArgs (run (toolStep p) p.new (toolTexts pieces)).1).getD [] ∨
      left = [] ∧ toolTexts pieces = [])
    {normalText : Str} {calls : List FunctionCall}
    (hcomplete : p.parseComplete (pieces.flatMap Piece.normalText) = .ok (normalText, calls)) :
    Reads deltas normalText reasoning (callArguments calls) ∧
      ((run (toolStep p) p.new (toolTexts pieces)).2.flatMap resultCalls).isEmpty = calls.isEmpty := by
  rw [← flatten_toolTexts hbeside] at hcomplete
  obtain ⟨hnormal, hempty, harguments⟩ := hlaw.results_eq _ _ _ hcomplete
  rw [hnormal] at hreads
  refine ⟨⟨hreads.content, hreads.reasoning, fun k => (hreads.arguments k).trans ?_, hreads.finish⟩, ?_⟩
  · obtain rfl | ⟨rfl, htexts⟩ := hleft
    · exact harguments k
    · -- Nothing came to the tools, so that there are no calls.
      rw [htexts] at hempty ⊢
      rw [hempty.mp rfl]
      rfl
  · rw [Bool.eq_iff_iff, List.isEmpty_iff, List.isEmpty_iff]
    exact hempty

/-! ### The three ways -/

theorem streamsTools_of_constrained (crates : Crates δ ρ τ) (h : req.constrained = true) : crates.streamsTools req = true := by
  rw [ChatCompletionRequest.constrained] at h
  rw [Crates.streamsTools]
  obtain ⟨henabled, hschema⟩ := Bool.and_eq_true_iff.mp h
  rw [henabled, hschema, Bool.or_true, Bool.true_and]

theorem name_ne_of_unconstrained (h : req.constrained = false) (hmode : crates.streamsTools req = true) :
    req.usedJsonSchema = false ∧ ∀ name, req.toolChoice ≠ some (.function name) := by
  rw [Crates.streamsTools] at hmode
  rw [ChatCompletionRequest.constrained, (Bool.and_eq_true_iff.mp hmode).1, Bool.true_and] at h
  refine ⟨h, fun name hname => ?_⟩
  rw [ChatCompletionRequest.usedJsonSchema, hname] at h
  cases h

/-- The text of a choice is not parsed for tools. -/
theorem parseTools_plain (hmode : crates.streamsTools req = false) (text : Str) :
    parseTools crates req text = (none, text) := by
  rw [parseTools]
  split
  · next h =>
    rw [Crates.streamsTools, h.1, h.2, Bool.true_and, Bool.true_and] at hmode
    obtain ⟨hnone, hschema⟩ := Bool.or_eq_false_iff.mp hmode
    have hparser : crates.toolParser = none :=
      Option.not_isSome_iff_eq_none.mp (by rw [hnone]; exact Bool.false_ne_true)
    rw [if_neg (by rw [hschema]; exact Bool.false_ne_true), hparser]
  · rfl

theorem parseTools_parsed (hfree : req.constrained = false) {p : ToolParser τ}
    (hparser : crates.toolParser = some p) (hmode : crates.streamsTools req = true) (text : Str) :
    parseTools crates req text = parseToolCalls p text := by
  obtain ⟨hschema, -⟩ := name_ne_of_unconstrained hfree hmode
  rw [Crates.streamsTools] at hmode
  obtain ⟨hboth, -⟩ := Bool.and_eq_true_iff.mp hmode
  rw [parseTools, if_pos (Bool.and_eq_true_iff.mp hboth),
    if_neg (by rw [hschema]; exact Bool.false_ne_true), hparser]

theorem parseTools_constrained (h : req.constrained = true) (text : Str) :
    parseTools crates req text = parseJsonSchemaResponse crates req text := by
  obtain ⟨hboth, hschema⟩ := Bool.and_eq_true_iff.mp h
  rw [parseTools, if_pos (Bool.and_eq_true_iff.mp hboth), if_pos hschema]

theorem parseJsonSchemaResponse_required (h : req.usedJsonSchema = true)
    (hname : ∀ name, req.toolChoice ≠ some (.function name)) (text : Str) :
    parseJsonSchemaResponse crates req text =
      match crates.fromStr text with
      | .ok (.array items) => (some (items.filterMap (callOf crates)), [])
      | _ => (none, text) := by
  rw [ChatCompletionRequest.usedJsonSchema] at h
  rw [parseJsonSchemaResponse]
  cases hchoice : req.toolChoice with
  | none =>
    rw [hchoice] at h
    cases h
  | some toolChoice =>
    rw [hchoice] at h
    cases toolChoice with
    | function name => exact absurd hchoice (hname name)
    | required | allowedTools mode => rfl
    | _ => cases h

/-- A choice is what the response makes of a text, once the reasoning is taken out. -/
structure MadeOf (crates : Crates δ ρ τ) (req : ChatCompletionRequest) (text reason : Str)
    (choice : ChatChoice) : Prop where
  toolCalls : choice.toolCalls = (parseTools crates req text).1
  content : choice.content = nonempty (parseTools crates req text).2
  finishReason : choice.finishReason = if choice.toolCalls.isSome = true then "tool_calls".toList else reason

theorem choiceOf_spec {m : ProtoGenerateComplete} {index : Nat} {text : Str} {choice : ChatChoice}
    (h : choiceOf crates req m index text = .ok choice) :
    ∃ reasoned, parseReasoning crates req text = .ok reasoned ∧ choice.index = index ∧
      choice.reasoningContent = reasoned.1 ∧ MadeOf crates req reasoned.2 m.finishReason choice := by
  rw [choiceOf] at h
  cases hparse : parseReasoning crates req text with
  | error e =>
    rw [hparse] at h
    cases h
  | ok reasoned =>
    rw [hparse] at h
    cases h
    exact ⟨reasoned, rfl, rfl, rfl, rfl, rfl, rfl⟩

section Ways
variable {deltas : List Delta} {text reason : Str} {answer : ChatChoice}

variable (hmade : MadeOf crates req text reason answer)
include hmade

theorem agrees_plain (hmode : crates.streamsTools req = false)
    (hreasoning : streamedReasoning deltas = answer.reasoningContent.getD [])
    (hcontent : streamedContent deltas = text) (harguments : ∀ k, streamedArguments k deltas = [])
    (hfinish : streamedFinish deltas = [reason]) : Agrees crates req deltas text reason answer := by
  have hconstrained : ¬ req.constrained = true := by
    intro h
    have hstreams := streamsTools_of_constrained crates h
    rw [hmode] at hstreams
    cases hstreams
  have hparsed := parseTools_plain hmode text
  have hcalls : answer.toolCalls = none := hmade.toolCalls.trans (congrArg Prod.fst hparsed)
  refine ⟨hreasoning, hmade.finishReason, fun _ _ => ⟨?_, fun k => ?_, ?_⟩,
    fun h => absurd h hconstrained, fun h => absurd h hconstrained⟩
  · rw [hmade.content, hparsed, nonempty_getD, hcontent]
  · rw [hcalls, harguments]
    rfl
  · rw [hcalls, hfinish]
    rfl

theorem agrees_parsed (hfree : req.constrained = false)
    (hmode : crates.streamsTools req = true) {p : ToolParser τ} (hparser : crates.toolParser = some p)
    (hreasoning : streamedReasoning deltas = answer.reasoningContent.getD [])
    (haccepted : ∀ normalText calls, p.parseComplete text = .ok (normalText, calls) →
      streamedContent deltas = normalText ∧ (∀ k, streamedArguments k deltas = callArguments calls k) ∧
        streamedFinish deltas = [finishOf reason !calls.isEmpty]) :
    Agrees crates req deltas text reason answer := by
  have hconstrained : ¬ req.constrained = true := by
    rw [hfree]
    exact Bool.false_ne_true
  have hparsed := parseTools_parsed hfree hparser hmode text
  refine ⟨hreasoning, hmade.finishReason, fun _ haccepts => ?_, fun h => absurd h hconstrained,
    fun h => absurd h hconstrained⟩
  obtain ⟨⟨normalText, calls⟩, hcomplete⟩ := haccepts p hparser hmode
  obtain ⟨hcontent, harguments, hfinish⟩ := haccepted normalText calls hcomplete
  rw [parseToolCalls, hcomplete] at hparsed
  have hcalls : answer.toolCalls = if calls = [] then none else some calls :=
    hmade.toolCalls.trans (congrArg Prod.fst hparsed)
  refine ⟨?_, fun k => (harguments k).trans ?_, hfinish.trans ?_⟩
  · rw [hmade.content, hparsed, nonempty_getD, hcontent]
  · rw [hcalls]
    cases calls <;> rfl
  · rw [hcalls]
    cases calls <;> rfl

theorem agrees_forced (hconstrained : req.constrained = true)
    {name : Str} (hname : req.toolChoice = some (.function name))
    (hreasoning : streamedReasoning deltas = answer.reasoningContent.getD [])
    (hcontent : streamedContent deltas = [])
    (harguments : ∀ k, streamedArguments k deltas = if k = 0 then text else [])
    (hfinish : text ≠ [] → streamedFinish deltas = [finishOf reason true]) :
    Agrees crates req deltas text reason answer := by
  have hparsed : parseTools crates req text = parseJsonSchemaResponse crates req text :=
    parseTools_constrained hconstrained text
  refine ⟨hreasoning, hmade.finishReason, fun h => ?_, fun _ name' hname' => ?_, fun _ hother => ?_⟩
  · rw [hconstrained] at h
    cases h
  · obtain rfl := ToolChoice.function.inj (Option.some.inj (hname.symm.trans hname'))
    refine ⟨hcontent, harguments, hfinish, ?_⟩
    rw [hmade.toolCalls, hmade.content, hparsed, parseJsonSchemaResponse, hname]
    cases crates.fromStr text <;> rfl
  · exact absurd hname (hother name)

theorem agrees_required
    (hconstrained : req.constrained = true) (hname : ∀ name, req.toolChoice ≠ some (.function name))
    (hreasoning : streamedReasoning deltas = answer.reasoningContent.getD [])
    (haccepted : ∀ normalText calls, crates.jsonParser.parseComplete text = .ok (normalText, calls) →
      streamedContent deltas = normalText ∧ (∀ k, streamedArguments k deltas = callArguments calls k) ∧
        streamedFinish deltas = [finishOf reason !calls.isEmpty]) :
    Agrees crates req deltas text reason answer := by
  have hparsed : parseTools crates req text = parseJsonSchemaResponse crates req text :=
    parseTools_constrained hconstrained text
  have hschema : req.usedJsonSchema = true := (Bool.and_eq_true_iff.mp hconstrained).2
  refine ⟨hreasoning, hmade.finishReason, fun h => ?_, fun _ name' hname' => ?_,
    fun _ _ normalText calls hcomplete => ?_⟩
  · rw [hconstrained] at h
    cases h
  · exact absurd hname' (hname name')
  · obtain ⟨hcontent, harguments, hfinish⟩ := haccepted normalText calls hcomplete
    refine ⟨hcontent, harguments, hfinish, ?_⟩
    rw [hmade.toolCalls, hmade.content, hparsed, parseJsonSchemaResponse_required hschema hname]
    cases crates.fromStr text with
    | error e => rfl
    | ok v => cases v <;> rfl

end Ways

/-- What is sent of a choice, to its end. -/
theorem agrees_choice (hlaws : crates.Chunkwise) {chunks : List (List Nat)}
    (hheld : (crates.reasoningParserFor req).isSome = true ∨ crates.streamsTools req = true →
      crates.held chunks = [])
    (hbeside : crates.streamsTools req = true → NothingBeside (crates.pieces req chunks))
    {m : ProtoGenerateComplete} {index : Nat} {answer : ChatChoice}
    (hanswer : choiceOf crates req m index ((crates.decoded chunks).2.flatten ++ crates.held chunks) =
      .ok answer)
    {choice : ChoiceState δ ρ τ} (hemitter : choice.emitter = (crates.emitted req chunks).1)
    {matchedStop : Option Value} (hfinish : choice.finishReason = some (m.finishReason, matchedStop)) :
    answer.index = index ∧ ∃ reasoned,
      parseReasoning crates req ((crates.decoded chunks).2.flatten ++ crates.held chunks) = .ok reasoned ∧
      Agrees crates req
        ((crates.emitted req chunks).2 ++ ((nonempty (crates.held chunks)).map Delta.content).toList ++
          choice.unstreamed crates req ++ choice.finished) reasoned.2 m.finishReason answer := by
  obtain ⟨reasoned, hparse, hindex, hreasoned, hmade⟩ := choiceOf_spec hanswer
  obtain ⟨hreasons, hnormal⟩ := pieces_spec hlaws (fun h => hheld (.inl h)) hparse
  refine ⟨hindex, reasoned, hparse, ?_⟩
  have hcalled : choice.hasToolCalls = (crates.emitted req chunks).1.hasToolCalls :=
    congrArg Emitter.hasToolCalls hemitter
  cases hmode : crates.streamsTools req with
  | false =>
    obtain ⟨hreads, hparser, hcalls⟩ := reads_plain crates req hmode {} (crates.pieces req chunks)
    rw [unstreamed_none ((congrArg Emitter.toolParser hemitter).trans hparser), append_nil]
    obtain ⟨hcontent, hread, harguments, hend⟩ :=
      (hreads.append (Reads.ofContent (crates.held chunks))).finished hfinish
    rw [hcalled.trans hcalls] at hend
    refine agrees_plain hmade hmode (hread.trans ?_) (hcontent.trans hnormal) harguments hend
    rw [append_nil, hreasons, hreasoned]
  | true =>
    have hbeside := hbeside hmode
    rw [hheld (.inr hmode), append_nil] at hnormal
    rw [hheld (.inr hmode), nonempty_nil, Option.map_none, Option.toList_none, append_nil]
    -- What a tool parser makes of the choice, whichever it is.
    have hparsed : ∀ {p : ToolParser τ}, p.Chunkwise → crates.streamParserFor req = some p →
        (∀ name, req.toolChoice ≠ some (.function name)) →
        let sent := (crates.emitted req chunks).2 ++ choice.unstreamed crates req ++ choice.finished
        streamedReasoning sent = answer.reasoningContent.getD [] ∧
          ∀ normalText calls, p.parseComplete reasoned.2 = .ok (normalText, calls) →
            streamedContent sent = normalText ∧
              (∀ k, streamedArguments k sent = callArguments calls k) ∧
              streamedFinish sent = [finishOf m.finishReason !calls.isEmpty] := by
      intro p hlaw hparser hname
      obtain ⟨left, hreads, hleft, hcalls⟩ := reads_parsed_choice hmode hparser hname hbeside hemitter
      refine ⟨?_, fun normalText calls hcomplete => ?_⟩
      · obtain ⟨-, hread, -, -⟩ := hreads.finished hfinish
        rw [hread, hreasons, hreasoned]
      · rw [← hnormal] at hcomplete
        obtain ⟨haccepted, hempty⟩ := reads_accepted hlaw hbeside hreads hleft hcomplete
        obtain ⟨hcontent, -, harguments, hend⟩ := haccepted.finished hfinish
        rw [hcalls, hempty] at hend
        exact ⟨hcontent, harguments, hend⟩
    cases hconstrained : req.constrained with
    | false =>
      obtain ⟨hschema, hname⟩ := name_ne_of_unconstrained hconstrained hmode
      have hsome : crates.toolParser.isSome = true := by
        rw [Crates.streamsTools, hschema, Bool.or_false] at hmode
        exact (Bool.and_eq_true_iff.mp hmode).2
      obtain ⟨p, hp⟩ := Option.isSome_iff_exists.mp hsome
      have hparser : crates.streamParserFor req = some p := by
        rw [Crates.streamParserFor, hschema, if_neg Bool.false_ne_true, hp]
      obtain ⟨hreasoning, haccepted⟩ := hparsed (hlaws.toolParser p hp) hparser hname
      exact agrees_parsed hmade hconstrained hmode hp hreasoning haccepted
    | true =>
      have hschema : req.usedJsonSchema = true := (Bool.and_eq_true_iff.mp hconstrained).2
      by_cases hforced : ∃ name, req.toolChoice = some (.function name)
      · obtain ⟨name, hname⟩ := hforced
        obtain ⟨hreads, hparser, hcalls⟩ := reads_forced crates req hmode hname {} hbeside
        rw [unstreamed_none ((congrArg Emitter.toolParser hemitter).trans hparser), append_nil]
        obtain ⟨hcontent, hread, harguments, hend⟩ := hreads.finished hfinish
        have htext := (flatten_toolTexts hbeside).trans hnormal
        rw [htext] at harguments
        refine agrees_forced hmade hconstrained hname (hread.trans (by rw [hreasons, hreasoned]))
          hcontent harguments fun hne => ?_
        have htexts : toolTexts (crates.pieces req chunks) ≠ [] := by
          intro h
          rw [h] at htext
          exact hne htext.symm
        refine hend.trans ?_
        rw [hcalled.trans hcalls, decide_eq_true htexts, Bool.or_true]
      · have hname : ∀ name, req.toolChoice ≠ some (.function name) :=
          fun name h => hforced ⟨name, h⟩
        have hparser : crates.streamParserFor req = some crates.jsonParser := by
          rw [Crates.streamParserFor, if_pos hschema]
        obtain ⟨hreasoning, haccepted⟩ := hparsed hlaws.jsonParser hparser hname
        exact agrees_required hmade hconstrained hname hreasoning haccepted

/-- **A stream and a response agree** in every choice that is complete at its place, if nothing is held of
it where it is parsed, and no piece that ends within the reasoning has normal text where its tools are.  The
text is what the response makes of the tokens, without the reasoning. -/
theorem streams_as_at_once (hlaws : crates.Chunkwise) (s : δ)
    {order order' : List (Nat × ChoiceState δ ρ τ) → List (Nat × ChoiceState δ ρ τ)}
    (hperm : ∀ l, (order l).Perm l) (hperm' : ∀ l, (order' l).Perm l) {generations : List Generation}
    {variants : List ProtoResponseVariant} (hserved : Served generations variants)
    {choices : List ChatChoice}
    (hchoices : processNonStreamingChatResponse crates req s (variants.map .ok) = .ok choices)
    {i : Nat} {g : Generation} (hg : generations[i]? = some g)
    (hplace : (variants.filterMap ProtoResponseVariant.completed)[i]? = some (g.complete i))
    (hheld : (crates.reasoningParserFor req).isSome = true ∨ crates.streamsTools req = true →
      crates.held g.chunks = [])
    (hbeside : crates.streamsTools req = true → NothingBeside (crates.pieces req g.chunks)) :
    ∃ choice, choices[i]? = some choice ∧ choice.index = i ∧ ∃ s' text reasoned,
      (finalText crates.stopDecoder s' g.chunks.flatten).2 = .ok text ∧
        parseReasoning crates req text = .ok reasoned ∧
        Agrees crates req
          (outputsOf i (processStreamingChunks crates req order order' (variants.map .ok)).2) reasoned.2
          g.finishReason choice := by
  rw [processNonStreamingChatResponse, collectStreamResponses_eq hserved.unbroken] at hchoices
  generalize variants.filterMap ProtoResponseVariant.completed = all at hchoices hplace
  have hprocessed : processChoices crates req s 0 all = .ok choices := by
    by_cases hempty : all = []
    · rw [hempty] at hplace
      cases hplace
    · rw [← hchoices]
      exact (if_neg hempty).symm
  obtain ⟨hlength, hget⟩ := processChoices_get hprocessed
  obtain ⟨choice, hchoice⟩ : ∃ choice, choices[i]? = some choice := by
    obtain ⟨hi, -⟩ := List.getElem?_eq_some_iff.mp hplace
    exact ⟨_, List.getElem?_eq_getElem (hlength ▸ hi)⟩
  obtain ⟨s', text, htext, hanswer⟩ := hget i _ _ hplace hchoice
  have hwhole : text = (crates.decoded g.chunks).2.flatten ++ crates.held g.chunks :=
    hlaws.stopDecoder.finalText_eq s' g.chunks text htext
  rw [hwhole, Nat.zero_add] at hanswer
  have hmessages := hserved.messages i
  rw [hg] at hmessages
  obtain ⟨state, hemitter, hfinish, hsent⟩ := outputsOf_processStreamingChunks crates req
    hlaws.stopDecoder.flush_new hperm hperm' hserved.unbroken hmessages
  obtain ⟨hindex, reasoned, hparse, hagrees⟩ :=
    agrees_choice hlaws hheld hbeside hanswer hemitter hfinish
  rw [hsent]
  exact ⟨choice, hchoice, hindex, s', text, reasoned, htext, hwhole ▸ hparse, hagrees⟩

end

/-! ### Inputs -/

/-- What a client reads of a choice: the content, the reasoning, the arguments of the first call and the
finish reasons. -/
def streamedChoice (req : ChatCompletionRequest) (variants : List ProtoResponseVariant) (i : Nat) :
    Str × Str × Str × List Str :=
  let deltas := outputsOf i (processStreamingChunks charCrates req id id (variants.map .ok)).2
  (streamedContent deltas, streamedReasoning deltas, streamedArguments 0 deltas, streamedFinish deltas)

/-- The same of the choices of a response. -/
def answeredChoices (req : ChatCompletionRequest) (variants : List ProtoResponseVariant) :
    Except InternalError (List (Str × Str × Str × Str)) :=
  (processNonStreamingChatResponse charCrates req [] (variants.map .ok)).map fun choices =>
    choices.map fun choice => (choice.content.getD [], choice.reasoningContent.getD [],
      callArguments (choice.toolCalls.getD []) 0, choice.finishReason)

/-- The messages of one generation. -/
def alone (g : Generation) : List ProtoResponseVariant :=
  g.chunks.map (fun tokenIds => .chunk ⟨0, tokenIds⟩) ++ [.complete (g.complete 0)]

/-- A text in one chunk. -/
def generated (text reason : String) : Generation := ⟨[text.toList.map Char.toNat], reason.toList, none⟩

theorem served_alone (text reason : String) : Served [generated text reason] (alone (generated text reason)) := by
  refine ⟨fun message hmem => ?_, fun i => ?_⟩
  · simp [alone, generated] at hmem
  · cases i <;> rfl

/-- Two generations, each in two chunks. -/
def twoGenerations : List Generation :=
  [⟨["|r|".toList.map Char.toNat, "x1".toList.map Char.toNat], "stop".toList, none⟩,
    ⟨["y".toList.map Char.toNat, "2".toList.map Char.toNat], "length".toList, none⟩]

/-- Their messages, with the chunks interleaved. -/
def interleaved : List ProtoResponseVariant :=
  [.chunk ⟨0, "|r|".toList.map Char.toNat⟩, .chunk ⟨1, "y".toList.map Char.toNat⟩,
    .chunk ⟨0, "x1".toList.map Char.toNat⟩] ++
  (twoGenerations[0]?.map fun g => .complete (g.complete 0)).toList ++
  [.none, .chunk ⟨1, "2".toList.map Char.toNat⟩] ++
  (twoGenerations[1]?.map fun g => .complete (g.complete 1)).toList

theorem served_interleaved : Served twoGenerations interleaved := by
  refine ⟨fun message hmem => ?_, fun i => ?_⟩
  · simp [interleaved, twoGenerations] at hmem
  · rcases i with _ | _ | i <;> rfl

theorem interleaved_agrees :
    let req : ChatCompletionRequest := ⟨true, true, none⟩
    ∃ choices,
      processNonStreamingChatResponse charCrates req [] (interleaved.map .ok) = .ok choices ∧
      ∃ choice, choices[1]? = some choice ∧ choice.index = 1 ∧ ∃ s' text reasoned,
        (finalText charDecoder s' ("y2".toList.map Char.toNat)).2 = .ok text ∧
          parseReasoning charCrates req text = .ok reasoned ∧
          Agrees charCrates req
            (outputsOf 1 (processStreamingChunks charCrates req id id (interleaved.map .ok)).2) reasoned.2
            "length".toList choice := by
  intro req
  have hid : ∀ l : List (Nat × ChoiceState Str Bool Bool), (id l).Perm l := fun l => .refl l
  refine ⟨_, rfl, streams_as_at_once charCrates_chunkwise [] hid hid served_interleaved rfl (i := 1) rfl rfl
    (fun _ => rfl) fun _ => ?_⟩
  unfold NothingBeside
  decide

/-- Two generations, of which the second is complete first. -/
def crossed : List ProtoResponseVariant :=
  [.chunk ⟨0, [97]⟩, .chunk ⟨1, [98]⟩, .complete ((generated "b" "stop").complete 1),
    .complete ((generated "a" "stop").complete 0)]

theorem served_crossed : Served [generated "a" "stop", generated "b" "stop"] crossed := by
  refine ⟨fun message hmem => ?_, fun i => ?_⟩
  · simp [crossed] at hmem
  · rcases i with _ | _ | i <;> rfl

/-- **A stream and a response may differ**, with machines that do in pieces what they do at once. -/
theorem streams_differently :
    let free : ChatCompletionRequest := ⟨true, true, none⟩
    let forced : ChatCompletionRequest := ⟨true, true, some (.function ['f'])⟩
    charCrates.Chunkwise ∧
      (∀ text reason, Served [generated text reason] (alone (generated text reason))) ∧
      Served [generated "a" "stop", generated "b" "stop"] crossed ∧
      -- The arguments of a forced function are not written again.
      (streamedChoice forced (alone (generated "{ }" "stop")) 0 =
          ([], [], "{ }".toList, ["tool_calls".toList]) ∧
        answeredChoices forced (alone (generated "{ }" "stop")) =
          .ok [([], [], "{}".toList, "tool_calls".toList)]) ∧
      -- The finish reason of the backend is kept, if it is not to stop.
      (streamedChoice free (alone (generated "1" "length")) 0 =
          ([], [], "1".toList, ["length".toList]) ∧
        answeredChoices free (alone (generated "1" "length")) =
          .ok [([], [], "1".toList, "tool_calls".toList)]) ∧
      -- The choices are numbered as they are completed.
      (streamedChoice free crossed 0 = ("a".toList, [], [], ["stop".toList]) ∧
        answeredChoices free crossed =
          .ok [("b".toList, [], [], "stop".toList), ("a".toList, [], [], "stop".toList)]) ∧
      -- What is held at the end does not come to the parsers.
      (streamedChoice free (alone (generated "|a<" "stop")) 0 =
          ("<".toList, "a".toList, [], ["stop".toList]) ∧
        answeredChoices free (alone (generated "|a<" "stop")) =
          .ok [([], "a<".toList, [], "stop".toList)]) ∧
      -- Nor does the normal text of a piece that ends within the reasoning.
      (streamedChoice free (alone (generated "1|a" "stop")) 0 =
          ("1".toList, "a".toList, [], ["stop".toList]) ∧
        answeredChoices free (alone (generated "1|a" "stop")) =
          .ok [([], "a".toList, "1".toList, "tool_calls".toList)]) := by
  refine ⟨charCrates_chunkwise, served_alone, served_crossed, ⟨?_, ?_⟩, ⟨?_, ?_⟩, ⟨?_, ?_⟩, ⟨?_, ?_⟩,
    ⟨?_, ?_⟩⟩ <;> rfl

end QwenStack.Chat
