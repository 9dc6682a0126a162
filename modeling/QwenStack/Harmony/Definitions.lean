import QwenStack.Support.Utf8

/-!
# Harmony — Definitions

`gateway/src/routers/grpc/harmony/parser.rs`: the adapter feeds the tokens of each chunk to the parser of
`openai_harmony`, and makes one delta of what the parser says after each of them.

The parser is defined in another crate and is a parameter (`StreamableParser`), with the ids that are
generated.  Of a message its channel, its recipient and the text of its content are kept.  The adapter is
not used again after an error.
-/

namespace QwenStack.Harmony

/-- A message that the parser has finished. -/
structure Message where
  channel : Option Str
  recipient : Option Str
  text : Str
  deriving DecidableEq, Repr

/-- `openai_harmony::StreamableParser`. -/
structure StreamableParser (σ : Type) where
  process : σ → Nat → Except Str σ
  currentChannel : σ → Option Str
  currentRecipient : σ → Option Str
  lastContentDelta : σ → Except Str (Option Str)
  messages : σ → List Message

structure FunctionDelta where
  name : Option Str
  arguments : Option Str
  deriving DecidableEq, Repr

structure ToolCallDelta where
  index : Nat
  id : Option Str
  function : Option FunctionDelta
  deriving DecidableEq, Repr

structure HarmonyChannelDelta where
  analysisDelta : Option Str
  commentaryDelta : Option ToolCallDelta
  finalDelta : Option Str
  isFinal : Bool
  deriving DecidableEq, Repr

/-- The name of the function that a recipient is. -/
def functionName (recipient : Str) : Option Str := recipient.dropPrefix? "functions.".toList

/-- A finished call of a function, as it is counted. -/
def Message.isCall (m : Message) : Bool :=
  decide (m.channel = some "commentary".toList) && (m.recipient.bind functionName).isSome

/-- `HarmonyParserAdapter`, with the number of ids that were generated. -/
structure HarmonyParserAdapter (σ : Type) where
  parser : σ
  prevRecipient : Option Str := none
  reasoningTokenCount : Nat := 0
  generated : Nat := 0

/-- What `parse_chunk` keeps while it reads the tokens. -/
structure Chunk (σ : Type) where
  parser : σ
  reasoningTokenCount : Nat
  hasDelta : Bool := false
  analysisDelta : Option Str := none
  finalDelta : Option Str := none
  accumulatedDelta : Str := []

section Parsing
variable {σ : Type} (p : StreamableParser σ) (uuid : Nat → Str)

/-- The tokens of analysis and commentary are counted. -/
def countReasoning (channel : Option Str) (count : Nat) : Nat :=
  if channel = some "analysis".toList ∨ channel = some "commentary".toList then count + 1 else count

/-- The text of a token, by its channel. -/
def Chunk.addDelta (c : Chunk σ) (channel : Option Str) (deltaText : Str) : Chunk σ :=
  let c := { c with hasDelta := true }
  if channel = some "analysis".toList then { c with analysisDelta := some deltaText }
  else if channel = some "final".toList ∨ channel = none then { c with finalDelta := some deltaText }
  else if channel = some "commentary".toList then
    { c with accumulatedDelta := c.accumulatedDelta ++ deltaText }
  else c

/-- One token. -/
def Chunk.processToken (c : Chunk σ) (tokenId : Nat) : Except Str (Chunk σ) :=
  match p.process c.parser tokenId with
  | .error e =>
      .error ("Failed to process token ".toList ++ (toString tokenId).toList ++ ": ".toList ++ e)
  | .ok parser =>
      let c := { c with
        parser := parser
        reasoningTokenCount := countReasoning (p.currentChannel parser) c.reasoningTokenCount }
      match p.lastContentDelta parser with
      | .ok (some deltaText) => .ok (c.addDelta (p.currentChannel parser) deltaText)
      | _ => .ok c

/-- The function that is being called at the end of a chunk, with its recipient. -/
def currentCall (s : σ) : Option (Str × Str) :=
  if p.currentChannel s = some "commentary".toList then
    (p.currentRecipient s).bind fun recipient =>
      (functionName recipient).map fun toolName => (recipient, toolName)
  else none

/-- The number of finished calls. -/
def baseIndex (s : σ) : Nat := (p.messages s).countP Message.isCall

/-- The start of a call. -/
def nameDelta (index : Nat) (callId toolName : Str) : ToolCallDelta where
  index := index
  id := some ("call_".toList ++ callId)
  function := some { name := some toolName, arguments := some [] }

/-- More arguments of a call. -/
def argumentsDelta (index : Nat) (arguments : Str) : ToolCallDelta where
  index := index
  id := none
  function := some { name := none, arguments := some arguments }

/-- The delta of a call at the end of a chunk, and the adapter. -/
def callDelta (a : HarmonyParserAdapter σ) (accumulatedDelta : Str) :
    Option ToolCallDelta × HarmonyParserAdapter σ :=
  match currentCall p a.parser with
  | none => (none, a)
  | some (curRecipient, toolName) =>
      if a.prevRecipient ≠ some curRecipient then
        (some (nameDelta (baseIndex p a.parser) (uuid a.generated) toolName),
          { a with prevRecipient := some curRecipient, generated := a.generated + 1 })
      else if accumulatedDelta ≠ [] then
        (some (argumentsDelta (baseIndex p a.parser) accumulatedDelta), a)
      else (none, a)

/-- `parse_chunk`. -/
def parseChunk (a : HarmonyParserAdapter σ) (chunkIds : List Nat) :
    Except Str (Option HarmonyChannelDelta × HarmonyParserAdapter σ) :=
  match chunkIds.foldlM (Chunk.processToken p) ⟨a.parser, a.reasoningTokenCount, false, none, none, []⟩
    with
  | .error e => .error e
  | .ok c =>
      let a' := { a with parser := c.parser, reasoningTokenCount := c.reasoningTokenCount }
      let (commentaryDelta, a') := callDelta p uuid a' c.accumulatedDelta
      if c.hasDelta = true ∨ (currentCall p c.parser).isSome = true then
        .ok (some {
          analysisDelta := c.analysisDelta
          commentaryDelta := commentaryDelta
          finalDelta := c.finalDelta
          isFinal := decide ((p.messages a.parser).length < (p.messages c.parser).length) }, a')
      else .ok (none, a')

/-- Chunk after chunk. -/
def parseChunks (a : HarmonyParserAdapter σ) :
    List (List Nat) → Except Str (List (Option HarmonyChannelDelta) × HarmonyParserAdapter σ)
  | [] => .ok ([], a)
  | chunkIds :: chunks =>
      match parseChunk p uuid a chunkIds with
      | .error e => .error e
      | .ok (delta, a) =>
          match parseChunks a chunks with
          | .error e => .error e
          | .ok (deltas, a) => .ok (delta :: deltas, a)

end Parsing

end QwenStack.Harmony
