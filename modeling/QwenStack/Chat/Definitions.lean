import QwenStack.Support.Transducer
import QwenStack.Support.Value

/-!
# Chat — Definitions

`gateway/src/routers/grpc/regular/`: a chat completion from the messages of one stream of the backend, as it
is streamed (`process_streaming_chunks` of `streaming.rs`) and at once
(`process_non_streaming_chat_response` of `processor.rs`).

The stop decoder, the reasoning parser and the tool parsers are defined in other crates and are parameters
(`Crates`), with what `serde_json` reads and writes.  A pooled parser is only used at once, and what it
answers is a function of the text.

Of a chunk that is sent its choice is kept and what it says of it (`Delta`), while the receiver is there.
Log probabilities, usage, metrics and the ids of calls are left out.
-/

namespace QwenStack.Chat
open Transducer (stepAt)

/-! ### Other crates -/

/-- `llm_tokenizer::stop::SequenceDecoderOutput`. -/
inductive SequenceDecoderOutput where
  | text (t : Str)
  | stoppedWithText (t : Str)
  | stopped
  | held
  deriving DecidableEq, Repr

/-- `llm_tokenizer::stop::StopSequenceDecoder`, as `create_stop_decoder` builds it for a request. -/
structure StopSequenceDecoder (δ : Type) where
  new : δ
  reset : δ → δ
  processToken : δ → Nat → δ × Except Str SequenceDecoderOutput
  processTokens : δ → List Nat → δ × Except Str (List SequenceDecoderOutput)
  flush : δ → δ × SequenceDecoderOutput

structure ParserResult where
  normalText : Str
  reasoningText : Str
  deriving DecidableEq, Repr

/-- `reasoning_parser::ReasoningParser`. -/
structure ReasoningParser (ρ : Type) where
  new : ρ
  parseReasoningStreamingIncremental : ρ → Str → ρ × Except Str ParserResult
  isInReasoning : ρ → Bool
  detectAndParseReasoning : Str → Except Str ParserResult

structure ToolCallItem where
  toolIndex : Nat
  name : Option Str
  parameters : Str
  deriving DecidableEq, Repr

structure StreamingParseResult where
  normalText : Str
  calls : List ToolCallItem
  deriving DecidableEq, Repr

structure FunctionCall where
  name : Str
  arguments : Str
  deriving DecidableEq, Repr

/-- `tool_parser::ToolParser`, with the tools of a request. -/
structure ToolParser (τ : Type) where
  new : τ
  parseIncremental : τ → Str → τ × Except Str StreamingParseResult
  getUnstreamedToolArgs : τ → Option (List ToolCallItem)
  parseComplete : Str → Except Str (Str × List FunctionCall)

/-- What is defined elsewhere, for the model of a request.  A parser may not be available. -/
structure Crates (δ ρ τ : Type) where
  stopDecoder : StopSequenceDecoder δ
  reasoningParser : Option (ReasoningParser ρ)
  toolParser : Option (ToolParser τ)
  /-- The tool parser with the name `json`. -/
  jsonParser : ToolParser τ
  /-- `serde_json::from_str`. -/
  fromStr : Str → Except Str Value
  /-- `serde_json::to_string`. -/
  toString : Value → Str

/-! ### Requests and messages -/

inductive ToolChoice where
  | none
  | auto
  | required
  | function (name : Str)
  | allowedTools (mode : Str)
  deriving DecidableEq, Repr

/-- `ChatCompletionRequest`: whether it has `tools`, and how they are to be chosen. -/
structure ChatCompletionRequest where
  separateReasoning : Bool
  tools : Bool
  toolChoice : Option ToolChoice
  deriving DecidableEq, Repr

namespace ChatCompletionRequest

/-- Whether the backend was constrained by a JSON schema. -/
def usedJsonSchema (req : ChatCompletionRequest) : Bool :=
  match req.toolChoice with
  | some (.function _) => true
  | some .required => true
  | some (.allowedTools mode) => decide (mode = "required".toList)
  | _ => false

def toolChoiceEnabled (req : ChatCompletionRequest) : Bool := decide (req.toolChoice ≠ some .none)

end ChatCompletionRequest

inductive MatchedStop where
  | tokenId (id : Nat)
  | str (s : Str)
  deriving DecidableEq, Repr

def MatchedStop.toValue : MatchedStop → Value
  | tokenId id => .integer id
  | str s => .string s

structure ProtoGenerateStreamChunk where
  index : Nat
  tokenIds : List Nat
  deriving DecidableEq, Repr

structure ProtoGenerateComplete where
  index : Nat
  outputIds : List Nat
  finishReason : Str
  matchedStop : Option MatchedStop
  deriving DecidableEq, Repr

inductive ProtoResponseVariant where
  | chunk (m : ProtoGenerateStreamChunk)
  | complete (m : ProtoGenerateComplete)
  | error (message : Str)
  | none
  deriving DecidableEq, Repr

/-! ### Streaming -/

/-- What a chunk says of its choice. -/
inductive Delta where
  | role
  | content (text : Str)
  | reasoning (text : Str)
  | toolName (name : Str)
  | toolArgs (arguments : Str)
  | toolCall (index : Nat) (name arguments : Option Str)
  | finish (reason : Str) (matchedStop : Option Value)

/-- The entries of the maps of `process_streaming_chunks` for an index. -/
structure ChoiceState (δ ρ τ : Type) where
  isFirst : Bool := true
  stopDecoder : Option δ := none
  reasoningParser : Option ρ := none
  toolParser : Option τ := none
  hasToolCalls : Bool := false
  finishReason : Option (Str × Option Value) := none

/-- A message for one index. -/
inductive ChoiceMessage where
  | chunk (tokenIds : List Nat)
  | complete (m : ProtoGenerateComplete)

/-- An argument that is empty is not sent. -/
def nonempty (s : Str) : Option Str := if s = [] then none else some s

def ToolCallItem.delta (item : ToolCallItem) : Delta :=
  .toolCall item.toolIndex item.name (nonempty item.parameters)

/-- `process_chunk_tokens`. -/
def processChunkTokens {δ : Type} (d : StopSequenceDecoder δ) : δ → List Nat → δ × Str × Bool
  | s, [] => (s, [], false)
  | s, tokenId :: tokenIds =>
      match (d.processToken s tokenId).2 with
      | .ok (.text t) =>
          let rest := processChunkTokens d (d.processToken s tokenId).1 tokenIds
          (rest.1, t ++ rest.2.1, rest.2.2)
      | .ok (.stoppedWithText t) => ((d.processToken s tokenId).1, t, true)
      | .ok .stopped => ((d.processToken s tokenId).1, [], true)
      -- An error is treated as held.
      | _ => processChunkTokens d (d.processToken s tokenId).1 tokenIds

section
variable {δ ρ τ : Type} (crates : Crates δ ρ τ) (req : ChatCompletionRequest)

/-- The reasoning parser that is used, if one is available and is to be used. -/
def Crates.reasoningParserFor : Option (ReasoningParser ρ) :=
  if req.separateReasoning = true then crates.reasoningParser else none

/-- The tool parser of a stream. -/
def Crates.streamParserFor : Option (ToolParser τ) :=
  if req.usedJsonSchema = true then some crates.jsonParser else crates.toolParser

/-- Whether a stream parses tool calls. -/
def Crates.streamsTools : Bool :=
  req.toolChoiceEnabled && req.tools && (crates.toolParser.isSome || req.usedJsonSchema)

/-- What `process_reasoning_stream` returns, with the entries of the choice. -/
structure Reasoned (δ ρ τ : Type) where
  choice : ChoiceState δ ρ τ
  normalText : Str
  chunk : Option Delta
  inReasoning : Bool

/-- `process_reasoning_stream`. -/
def processReasoningStream (p : ReasoningParser ρ) (choice : ChoiceState δ ρ τ) (delta : Str) :
    Reasoned δ ρ τ :=
  let r := p.parseReasoningStreamingIncremental (choice.reasoningParser.getD p.new) delta
  let choice := { choice with reasoningParser := some r.1 }
  match r.2 with
  | .ok result =>
      ⟨choice, result.normalText, (nonempty result.reasoningText).map .reasoning, p.isInReasoning r.1⟩
  | .error _ => ⟨choice, delta, none, false⟩

/-- The reasoning of a delta, if it is to be parsed. -/
def handleReasoning (choice : ChoiceState δ ρ τ) (delta : Str) : Reasoned δ ρ τ :=
  match crates.reasoningParserFor req with
  | some p => processReasoningStream p choice delta
  | none => ⟨choice, delta, none, false⟩

/-- `process_specific_function_stream`. -/
def processSpecificFunctionStream (name : Str) (choice : ChoiceState δ ρ τ) (delta : Str) :
    ChoiceState δ ρ τ × List Delta :=
  ({ choice with hasToolCalls := true },
    (if choice.hasToolCalls = true then [] else [.toolName name]) ++
      ((nonempty delta).map Delta.toolArgs).toList)

/-- `process_tool_calls_stream`. -/
def processToolCallsStream (p : ToolParser τ) (choice : ChoiceState δ ρ τ) (delta : Str) :
    ChoiceState δ ρ τ × List Delta :=
  let r := p.parseIncremental (choice.toolParser.getD p.new) delta
  let choice := { choice with toolParser := some r.1 }
  match r.2 with
  | .ok result =>
      ({ choice with hasToolCalls := choice.hasToolCalls || !result.calls.isEmpty },
        ((nonempty result.normalText).map Delta.content).toList ++ result.calls.map ToolCallItem.delta)
  | .error _ => (choice, [])

/-- The tool calls of a delta. -/
def handleTools (choice : ChoiceState δ ρ τ) (delta : Str) : ChoiceState δ ρ τ × List Delta :=
  match req.toolChoice with
  | some (.function name) => processSpecificFunctionStream name choice delta
  | _ =>
      match crates.streamParserFor req with
      | some p => processToolCallsStream p choice delta
      | none => (choice, [])

/-- What is left of a delta, for the tools or as content. -/
def handleDelta (r : Reasoned δ ρ τ) : ChoiceState δ ρ τ × List Delta :=
  if r.inReasoning = false ∧ crates.streamsTools req = true then
    handleTools crates req r.choice r.normalText
  else (r.choice, ((nonempty r.normalText).map Delta.content).toList)

/-- A chunk of the backend. -/
def ChoiceState.chunk (choice : ChoiceState δ ρ τ) (tokenIds : List Nat) :
    ChoiceState δ ρ τ × List Delta :=
  let d := crates.stopDecoder
  let r := processChunkTokens d (choice.stopDecoder.getD d.new) tokenIds
  let choice := { choice with stopDecoder := some r.1 }
  if r.2.1 = [] then (choice, [])
  else
    let first := if choice.isFirst = true then [Delta.role] else []
    let reasoned := handleReasoning crates req { choice with isFirst := false } r.2.1
    let handled := handleDelta crates req reasoned
    (handled.1, first ++ reasoned.chunk.toList ++ handled.2)

/-- The text of a flush. -/
def SequenceDecoderOutput.flushed : SequenceDecoderOutput → Str
  | text t => t
  | _ => []

/-- The end of a choice.  What the stop decoder holds is sent as content. -/
def ChoiceState.complete (choice : ChoiceState δ ρ τ) (m : ProtoGenerateComplete) :
    ChoiceState δ ρ τ × List Delta :=
  let finishReason := some (m.finishReason, m.matchedStop.map MatchedStop.toValue)
  match choice.stopDecoder with
  | some s =>
      ({ choice with
          stopDecoder := some (crates.stopDecoder.flush s).1
          finishReason := finishReason },
        ((nonempty (crates.stopDecoder.flush s).2.flushed).map Delta.content).toList)
  | none => ({ choice with finishReason := finishReason }, [])

def ChoiceState.take (choice : ChoiceState δ ρ τ) : ChoiceMessage → ChoiceState δ ρ τ × List Delta
  | .chunk tokenIds => choice.chunk crates req tokenIds
  | .complete m => choice.complete crates m

/-- The main loop: the entries at the end of the stream, unless it fails, and what was sent. -/
def streamLoop : List (Nat × ChoiceState δ ρ τ) → List (Except Str ProtoResponseVariant) →
    Except Str (List (Nat × ChoiceState δ ρ τ)) × List (Nat × Delta)
  | choices, [] => (.ok choices, [])
  | _, .error e :: _ => (.error ("Stream error: ".toList ++ e), [])
  | choices, .ok (.chunk m) :: rest =>
      let s := stepAt (ChoiceState.take crates req) {} choices (m.index, .chunk m.tokenIds)
      ((streamLoop s.1 rest).1, s.2 ++ (streamLoop s.1 rest).2)
  | choices, .ok (.complete m) :: rest =>
      let s := stepAt (ChoiceState.take crates req) {} choices (m.index, .complete m)
      ((streamLoop s.1 rest).1, s.2 ++ (streamLoop s.1 rest).2)
  | _, .ok (.error message) :: _ => (.error message, [])
  | choices, .ok .none :: rest => streamLoop choices rest

/-- The arguments that the tool parser has not streamed. -/
def ChoiceState.unstreamed (choice : ChoiceState δ ρ τ) : List Delta :=
  match choice.toolParser, crates.streamParserFor req with
  | some s, some p =>
      ((p.getUnstreamedToolArgs s).getD []).map fun item =>
        .toolCall item.toolIndex none (nonempty item.parameters)
  | _, _ => []

def ChoiceState.finished (choice : ChoiceState δ ρ τ) : List Delta :=
  match choice.finishReason with
  | some (reason, matchedStop) =>
      [.finish (if choice.hasToolCalls = true ∧ reason = "stop".toList then "tool_calls".toList
        else reason) matchedStop]
  | none => []

/-- `process_streaming_chunks`.  The entries are visited in some order, once for the arguments and once for
the finish reasons. -/
def processStreamingChunks (order order' : List (Nat × ChoiceState δ ρ τ) → List (Nat × ChoiceState δ ρ τ))
    (responses : List (Except Str ProtoResponseVariant)) : Except Str Unit × List (Nat × Delta) :=
  match streamLoop crates req [] responses with
  | (.ok choices, sent) =>
      (.ok (), sent ++
        (order choices).flatMap (fun e => (e.2.unstreamed crates req).map (e.1, ·)) ++
        (order' choices).flatMap fun e => e.2.finished.map (e.1, ·))
  | (.error e, sent) => (.error e, sent)

end

/-! ### At once -/

/-- `ChatChoice`, with its message. -/
structure ChatChoice where
  index : Nat
  content : Option Str
  toolCalls : Option (List FunctionCall)
  reasoningContent : Option Str
  finishReason : Str
  matchedStop : Option Value

/-- A response with status 500. -/
structure InternalError where
  code : Str
  message : Str
  deriving DecidableEq, Repr

/-- The text of the outputs, up to the stop. -/
def accumulate : List SequenceDecoderOutput → Str
  | [] => []
  | .text t :: outputs => t ++ accumulate outputs
  | .stoppedWithText t :: _ => t
  | .stopped :: _ => []
  | .held :: outputs => accumulate outputs

/-- The text of a choice. -/
def finalText {δ : Type} (d : StopSequenceDecoder δ) (s : δ) (outputIds : List Nat) :
    δ × Except Str Str :=
  let r := d.processTokens (d.reset s) outputIds
  match r.2 with
  | .error e => (r.1, .error ("Failed to process tokens: ".toList ++ e))
  | .ok outputs => ((d.flush r.1).1, .ok (accumulate outputs ++ (d.flush r.1).2.flushed))

section
variable {δ ρ τ : Type} (crates : Crates δ ρ τ) (req : ChatCompletionRequest)

/-- The reasoning of a text, and the rest. -/
def parseReasoning (text : Str) : Except Str (Option Str × Str) :=
  match crates.reasoningParserFor req with
  | none => .ok (none, text)
  | some p =>
      match p.detectAndParseReasoning text with
      | .ok result => .ok (nonempty result.reasoningText, result.normalText)
      | .error e => .error ("Reasoning parsing error: ".toList ++ e)

/-- `parse_tool_calls`. -/
def parseToolCalls (p : ToolParser τ) (text : Str) : Option (List FunctionCall) × Str :=
  match p.parseComplete text with
  | .ok (normalText, calls) => (if calls = [] then none else some calls, normalText)
  | .error _ => (none, text)

/-- A call in the array of a response, if it is one. -/
def callOf (item : Value) : Option FunctionCall := do
  let name ← (← item.get "name".toList).asStr
  let parameters ← item.get "parameters".toList
  return ⟨name, crates.toString parameters⟩

/-- `parse_json_schema_response`. -/
def parseJsonSchemaResponse (text : Str) : Option (List FunctionCall) × Str :=
  match req.toolChoice with
  | some (.function name) =>
      match crates.fromStr text with
      | .ok params => (some [⟨name, crates.toString params⟩], [])
      | .error _ => (none, text)
  | some .required | some (.allowedTools _) =>
      match crates.fromStr text with
      | .ok (.array items) => (some (items.filterMap (callOf crates)), [])
      | _ => (none, text)
  | _ => (none, text)

/-- The tool calls of a text, and the rest. -/
def parseTools (text : Str) : Option (List FunctionCall) × Str :=
  if req.toolChoiceEnabled = true ∧ req.tools = true then
    if req.usedJsonSchema = true then parseJsonSchemaResponse crates req text
    else
      match crates.toolParser with
      | some p => parseToolCalls p text
      | none => (none, text)
  else (none, text)

/-- The choice of a text. -/
def choiceOf (complete : ProtoGenerateComplete) (index : Nat) (text : Str) : Except Str ChatChoice :=
  (parseReasoning crates req text).map fun reasoned =>
    let parsed := parseTools crates req reasoned.2
    { index := index
      content := nonempty parsed.2
      toolCalls := parsed.1
      reasoningContent := reasoned.1
      finishReason := if parsed.1.isSome = true then "tool_calls".toList else complete.finishReason
      matchedStop := complete.matchedStop.map MatchedStop.toValue }

/-- `process_single_choice`, with the stop decoder. -/
def processSingleChoice (s : δ) (complete : ProtoGenerateComplete) (index : Nat) :
    δ × Except Str ChatChoice :=
  let r := finalText crates.stopDecoder s complete.outputIds
  (r.1, r.2.bind (choiceOf crates req complete index))

/-- `collect_stream_responses`. -/
def collectStreamResponses :
    List (Except Str ProtoResponseVariant) → Except InternalError (List ProtoGenerateComplete)
  | [] => .ok []
  | .error e :: _ => .error ⟨"worker_stream_failed".toList, "Single stream failed: ".toList ++ e⟩
  | .ok (.error message) :: _ =>
      .error ⟨"worker_generation_failed".toList, "Single generation failed: ".toList ++ message⟩
  | .ok (.complete m) :: rest => (collectStreamResponses rest).map (m :: ·)
  | .ok (.chunk _) :: rest => collectStreamResponses rest
  | .ok .none :: rest => collectStreamResponses rest

/-- The choices, from an index on. -/
def processChoices : δ → Nat → List ProtoGenerateComplete → Except InternalError (List ChatChoice)
  | _, _, [] => .ok []
  | s, index, complete :: rest =>
      let r := processSingleChoice crates req s complete index
      match r.2 with
      | .ok choice => (processChoices r.1 (index + 1) rest).map (choice :: ·)
      | .error e =>
          .error ⟨"process_choice_failed".toList, "Failed to process choice ".toList ++
            (ToString.toString index).toList ++ ": ".toList ++ e⟩

/-- `process_non_streaming_chat_response`: the choices. -/
def processNonStreamingChatResponse (s : δ) (responses : List (Except Str ProtoResponseVariant)) :
    Except InternalError (List ChatChoice) :=
  (collectStreamResponses responses).bind fun all =>
    if all = [] then .error ⟨"no_responses_from_server".toList, "No responses from server".toList⟩
    else processChoices crates req s 0 all

end

end QwenStack.Chat
