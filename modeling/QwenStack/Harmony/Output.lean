import QwenStack.Harmony.Definitions
import QwenStack.Support.Value

/-!
# Harmony — the output of a whole answer

`gateway/src/routers/grpc/harmony/parser.rs`: `parse_complete` reads all tokens of an answer at once, and
counts those of analysis and commentary by itself; `finalize` comes after the chunks of a stream, which
`parse_chunk` has read and counted.  Both sort the finished messages into the channels
(`parse_messages`), and add the content that is left open.

**They agree** (`finalize_parseChunks`): however the tokens are cut into chunks, both give the same output
up to the ids of the calls, or the same error.
-/

namespace QwenStack.Harmony

inductive Role where
  | user | assistant | system | developer | tool
  deriving DecidableEq, Repr

/-- An item of the content of a message; only text is read. -/
inductive Content where
  | text (text : Str)
  | other
  deriving DecidableEq, Repr

/-- `openai_harmony::chat::Message`. -/
structure ChatMessage where
  role : Role
  channel : Option Str
  recipient : Option Str
  content : List Content
  deriving DecidableEq, Repr

/-- `extract_text_from_content`. -/
def extractTextFromContent (content : List Content) : Str :=
  content.flatMap fun
    | .text text => text
    | .other => []

/-- What is kept of a message where it is only counted. -/
def ChatMessage.kept (msg : ChatMessage) : Message where
  channel := msg.channel
  recipient := msg.recipient
  text := extractTextFromContent msg.content

/-- The parser, with all that it says of the finished messages, and the content of the open one. -/
structure ContentParser (σ : Type) extends StreamableParser σ where
  chatMessages : σ → List ChatMessage
  currentContent : σ → Except Str Str
  messages_eq : ∀ s, messages s = (chatMessages s).map ChatMessage.kept

structure FunctionCallResponse where
  name : Str
  arguments : Option Str
  deriving DecidableEq, Repr

structure ToolCall where
  id : Str
  toolType : Str
  function : FunctionCallResponse
  deriving DecidableEq, Repr

structure HarmonyChannelOutput where
  analysis : Option Str
  commentary : Option (List ToolCall)
  finalText : Str
  finishReason : Str
  matchedStop : Option Value
  reasoningTokenCount : Nat

/-- What the messages are sorted into, with the number of ids that were generated. -/
structure Channels where
  analysis : Option Str := none
  commentary : Option (List ToolCall) := none
  finalText : Str := []
  generated : Nat

namespace Channels

/-- More reasoning, on a line of its own. -/
def addReasoning (c : Channels) (text : Str) : Channels :=
  if text = [] then c
  else
    match c.analysis with
    | some existing => { c with analysis := some (existing ++ '\n' :: text) }
    | none => { c with analysis := some text }

/-- The reasoning, which takes the place of what there was. -/
def setReasoning (c : Channels) (text : Str) : Channels :=
  if text = [] then c else { c with analysis := some text }

def addFinal (c : Channels) (text : Str) : Channels := { c with finalText := c.finalText ++ text }

/-- One item of the content of a call: every text is a call. -/
def addCall (uuid : Nat → Str) (name : Str) (c : Channels) : Content → Channels
  | .other => c
  | .text text =>
      let call : ToolCall := {
        id := "call_".toList ++ uuid c.generated
        toolType := "function".toList
        function := { name := name, arguments := some text } }
      { c with commentary := some (c.commentary.getD [] ++ [call]), generated := c.generated + 1 }

end Channels

/-- A tool that the model has by itself. -/
def isBuiltin (recipient : Str) : Bool :=
  "python".toList.isPrefixOf recipient || "browser".toList.isPrefixOf recipient ||
    "container".toList.isPrefixOf recipient

/-- A message is sorted by its channel. -/
def Channels.addByChannel (c : Channels) (msg : ChatMessage) : Channels :=
  let text := extractTextFromContent msg.content
  if msg.channel = some "analysis".toList then c.setReasoning text
  else if msg.channel = some "commentary".toList then c.addReasoning text
  else c.addFinal text

/-- One message: its recipient comes first. -/
def Channels.addMessage (uuid : Nat → Str) (c : Channels) (msg : ChatMessage) : Channels :=
  if msg.role ≠ .assistant then c
  else
    match msg.recipient with
    | none => c.addByChannel msg
    | some recipient =>
        match functionName recipient with
        | some name => msg.content.foldl (Channels.addCall uuid name) c
        | none =>
            if isBuiltin recipient = true then c.addReasoning (extractTextFromContent msg.content)
            else c.addByChannel msg

/-- `parse_messages`. -/
def parseMessages (uuid : Nat → Str) (generated : Nat) (messages : List ChatMessage) : Channels :=
  messages.foldl (Channels.addMessage uuid) { generated := generated }

section Adapter
variable {σ : Type} (p : ContentParser σ) (uuid : Nat → Str)

/-- `handle_incomplete_content`. -/
def handleIncompleteContent (s : σ) (c : Channels) : Channels :=
  match p.currentContent s with
  | .error _ => c
  | .ok currentContent =>
      if currentContent = [] then c
      else if p.currentChannel s = some "analysis".toList then
        { c with analysis := some currentContent }
      else if p.currentChannel s = some "final".toList ∨ p.currentChannel s = none then
        c.addFinal currentContent
      else c

/-- The output, from what the channels have; calls take the place of the finish reason. -/
def Channels.output (c : Channels) (finishReason : Str) (matchedStop : Option Value)
    (reasoningTokenCount : Nat) : HarmonyChannelOutput where
  analysis := c.analysis
  commentary := c.commentary
  finalText := c.finalText
  finishReason := if c.commentary.isSome = true then "tool_calls".toList else finishReason
  matchedStop := matchedStop
  reasoningTokenCount := reasoningTokenCount

/-- One token of `parse_complete`, with the number of reasoning tokens. -/
def completeToken (read : σ × Nat) (tokenId : Nat) : Except Str (σ × Nat) :=
  match p.process read.1 tokenId with
  | .error e =>
      .error ("Failed to process token ".toList ++ (toString tokenId).toList ++ ": ".toList ++ e)
  | .ok parser => .ok (parser, countReasoning (p.currentChannel parser) read.2)

/-- `parse_complete`. -/
def parseComplete (a : HarmonyParserAdapter σ) (outputIds : List Nat) (finishReason : Str)
    (matchedStop : Option Value) : Except Str HarmonyChannelOutput :=
  match outputIds.foldlM (completeToken p) (a.parser, 0) with
  | .error e => .error e
  | .ok (parser, reasoningTokenCount) =>
      let channels := handleIncompleteContent p parser
        (parseMessages uuid a.generated (p.chatMessages parser))
      .ok (channels.output finishReason matchedStop reasoningTokenCount)

/-- `finalize`. -/
def finalize (a : HarmonyParserAdapter σ) (finishReason : Str) (matchedStop : Option Value) :
    Except Str HarmonyChannelOutput :=
  let channels := handleIncompleteContent p a.parser
    (parseMessages uuid a.generated (p.chatMessages a.parser))
  .ok (channels.output finishReason matchedStop a.reasoningTokenCount)

/-- The chunks of a stream, and its end. -/
def parseStream (a : HarmonyParserAdapter σ) (chunks : List (List Nat)) (finishReason : Str)
    (matchedStop : Option Value) : Except Str HarmonyChannelOutput :=
  match parseChunks p.toStreamableParser uuid a chunks with
  | .error e => .error e
  | .ok (_, a) => finalize p uuid a finishReason matchedStop

end Adapter

/-! ### Ids -/

/-- A call without its id. -/
def ToolCall.eraseId (call : ToolCall) : ToolCall := { call with id := [] }

def HarmonyChannelOutput.eraseIds (o : HarmonyChannelOutput) : HarmonyChannelOutput :=
  { o with commentary := o.commentary.map (·.map ToolCall.eraseId) }

namespace Channels

/-- The same channels, up to the ids of the calls. -/
structure Alike (c c' : Channels) : Prop where
  analysis : c.analysis = c'.analysis
  commentary : c.commentary.map (·.map ToolCall.eraseId) = c'.commentary.map (·.map ToolCall.eraseId)
  finalText : c.finalText = c'.finalText

namespace Alike
variable {c c' : Channels} (h : Alike c c')
include h

theorem addReasoning (text : Str) : Alike (c.addReasoning text) (c'.addReasoning text) := by
  rw [Channels.addReasoning, Channels.addReasoning, ← h.analysis]
  split
  · exact h
  · cases c.analysis with
    | none => exact ⟨rfl, h.commentary, h.finalText⟩
    | some existing => exact ⟨rfl, h.commentary, h.finalText⟩

theorem setReasoning (text : Str) : Alike (c.setReasoning text) (c'.setReasoning text) := by
  rw [Channels.setReasoning, Channels.setReasoning]
  split
  · exact h
  · exact ⟨rfl, h.commentary, h.finalText⟩

theorem addFinal (text : Str) : Alike (c.addFinal text) (c'.addFinal text) :=
  ⟨h.analysis, h.commentary, congrArg (· ++ text) h.finalText⟩

theorem addCall (uuid uuid' : Nat → Str) (name : Str) (item : Content) :
    Alike (c.addCall uuid name item) (c'.addCall uuid' name item) := by
  cases item with
  | other => exact h
  | text text =>
    refine ⟨h.analysis, ?_, h.finalText⟩
    have hcalls : (c.commentary.getD []).map ToolCall.eraseId =
        (c'.commentary.getD []).map ToolCall.eraseId := by
      have hmapped := congrArg (·.getD []) h.commentary
      cases hc : c.commentary <;> cases hc' : c'.commentary <;> rw [hc, hc'] at hmapped <;> exact hmapped
    simp only [Channels.addCall, Option.map_some, List.map_append, hcalls]
    rfl

theorem addByChannel (msg : ChatMessage) : Alike (c.addByChannel msg) (c'.addByChannel msg) := by
  unfold Channels.addByChannel
  split
  · exact h.setReasoning _
  · split
    · exact h.addReasoning _
    · exact h.addFinal _

/-- **A message.** -/
theorem addMessage (uuid uuid' : Nat → Str) (msg : ChatMessage) :
    Alike (c.addMessage uuid msg) (c'.addMessage uuid' msg) := by
  unfold Channels.addMessage
  split
  · exact h
  · split
    · exact h.addByChannel msg
    · next recipient _ =>
      split
      · next name _ =>
        generalize msg.content = items
        induction items generalizing c c' with
        | nil => exact h
        | cons item items ih => exact ih (h.addCall uuid uuid' name item)
      · split
        · exact h.addReasoning _
        · exact h.addByChannel msg

theorem handleIncompleteContent {σ : Type} (p : ContentParser σ) (s : σ) :
    Alike (Harmony.handleIncompleteContent p s c) (Harmony.handleIncompleteContent p s c') := by
  unfold Harmony.handleIncompleteContent
  split
  · exact h
  · split
    · exact h
    · split
      · exact ⟨rfl, h.commentary, h.finalText⟩
      · split
        · exact h.addFinal _
        · exact h

theorem output (finishReason : Str) (matchedStop : Option Value) (count : Nat) :
    (c.output finishReason matchedStop count).eraseIds =
      (c'.output finishReason matchedStop count).eraseIds := by
  have hsome : c.commentary.isSome = c'.commentary.isSome := by
    have hmapped := congrArg Option.isSome h.commentary
    rwa [Option.isSome_map, Option.isSome_map] at hmapped
  simp only [Channels.output, HarmonyChannelOutput.eraseIds, h.analysis, h.commentary, h.finalText, hsome]

end Alike

theorem alike_parseMessages (uuid uuid' : Nat → Str) (generated generated' : Nat)
    (messages : List ChatMessage) :
    Alike (parseMessages uuid generated messages) (parseMessages uuid' generated' messages) := by
  have hfold : ∀ {c c' : Channels}, Alike c c' →
      Alike (messages.foldl (addMessage uuid) c) (messages.foldl (addMessage uuid') c') := by
    induction messages with
    | nil => exact id
    | cons msg messages ih => exact fun h => ih (h.addMessage uuid uuid' msg)
  exact hfold ⟨rfl, rfl, rfl⟩

end Channels

/-! ### Tokens and their count -/

section Counting
variable {σ : Type} (p : ContentParser σ) (uuid : Nat → Str)

/-- What a stream has read, with the number of reasoning tokens. -/
def Chunk.read (c : Chunk σ) : σ × Nat := (c.parser, c.reasoningTokenCount)

def HarmonyParserAdapter.read (a : HarmonyParserAdapter σ) : σ × Nat := (a.parser, a.reasoningTokenCount)

theorem read_addDelta (c : Chunk σ) (channel : Option Str) (text : Str) :
    (c.addDelta channel text).read = c.read := by
  unfold Chunk.addDelta
  split
  · rfl
  · split
    · rfl
    · split <;> rfl

/-- A token is read and counted by both in the same way. -/
theorem read_processToken (c : Chunk σ) (token : Nat) :
    (c.processToken p.toStreamableParser token).map Chunk.read = completeToken p c.read token := by
  unfold Chunk.processToken completeToken Chunk.read
  cases p.process c.parser token with
  | error e => rfl
  | ok parser =>
    dsimp only
    split
    · exact congrArg Except.ok (read_addDelta _ _ _)
    · rfl

theorem read_tokens (tokens : List Nat) (c : Chunk σ) :
    (tokens.foldlM (Chunk.processToken p.toStreamableParser) c).map Chunk.read =
      tokens.foldlM (completeToken p) c.read := by
  induction tokens generalizing c with
  | nil => rfl
  | cons token tokens ih =>
    rw [List.foldlM_cons, List.foldlM_cons, ← read_processToken]
    cases c.processToken p.toStreamableParser token with
    | error e => rfl
    | ok c' => exact ih c'

theorem read_callDelta (a : HarmonyParserAdapter σ) (text : Str) :
    (callDelta p.toStreamableParser uuid a text).2.read = a.read := by
  unfold callDelta
  split
  · rfl
  · split
    · rfl
    · split <;> rfl

theorem read_parseChunk (a : HarmonyParserAdapter σ) (chunk : List Nat) :
    (parseChunk p.toStreamableParser uuid a chunk).map (fun out => out.2.read) =
      chunk.foldlM (completeToken p) a.read := by
  have hread := read_tokens p chunk ⟨a.parser, a.reasoningTokenCount, false, none, none, []⟩
  refine Eq.trans ?_ hread
  unfold parseChunk
  cases chunk.foldlM (Chunk.processToken p.toStreamableParser)
      ⟨a.parser, a.reasoningTokenCount, false, none, none, []⟩ with
  | error e => rfl
  | ok c =>
    dsimp only
    split <;> exact congrArg Except.ok (read_callDelta p uuid _ _)

/-- **Partitions**: the chunks of a stream are read and counted as their tokens are. -/
theorem read_parseChunks (chunks : List (List Nat)) (a : HarmonyParserAdapter σ) :
    (parseChunks p.toStreamableParser uuid a chunks).map (fun out => out.2.read) =
      chunks.flatten.foldlM (completeToken p) a.read := by
  induction chunks generalizing a with
  | nil => rfl
  | cons chunk chunks ih =>
    rw [List.flatten_cons, List.foldlM_append, ← read_parseChunk p uuid, parseChunks]
    cases parseChunk p.toStreamableParser uuid a chunk with
    | error e => rfl
    | ok out =>
      refine Eq.trans ?_ (ih out.2)
      dsimp only
      cases parseChunks p.toStreamableParser uuid out.2 chunks <;> rfl

/-- One of the tokens is rejected. -/
def Rejects (s : σ) : List Nat → Prop
  | [] => False
  | token :: tokens => ∀ s', p.process s token = .ok s' → Rejects s' tokens

theorem error_iff_rejects (tokens : List Nat) (read : σ × Nat) :
    (∃ e, tokens.foldlM (completeToken p) read = .error e) ↔ Rejects p read.1 tokens := by
  induction tokens generalizing read with
  | nil =>
    refine ⟨fun h => ?_, False.elim⟩
    obtain ⟨e, he⟩ := h
    cases he
  | cons token tokens ih =>
    rw [List.foldlM_cons, Rejects]
    unfold completeToken
    cases hprocess : p.process read.1 token with
    | error e => exact ⟨fun _ _ h => (by cases h), fun _ => ⟨_, rfl⟩⟩
    | ok s' =>
      refine (ih (s', _)).trans ⟨fun h s'' hs'' => ?_, fun h => h s' rfl⟩
      cases hs''
      exact h

/-- **Chunks and the whole answer**: both ways to read an answer give the same output up to the ids of the
calls, or the same error; and they give an error exactly if a token is rejected. -/
theorem finalize_parseChunks (p : ContentParser σ) (uuid uuid' : Nat → Str) (start : σ)
    (chunks : List (List Nat)) (finishReason : Str) (matchedStop : Option Value) :
    let streamed := parseStream p uuid { parser := start } chunks finishReason matchedStop
    let complete := parseComplete p uuid' { parser := start } chunks.flatten finishReason matchedStop
    streamed.map HarmonyChannelOutput.eraseIds = complete.map HarmonyChannelOutput.eraseIds ∧
      ((∃ e, streamed = .error e) ↔ Rejects p start chunks.flatten) ∧
      ((∃ e, complete = .error e) ↔ Rejects p start chunks.flatten) := by
  have hread := read_parseChunks p uuid chunks { parser := start }
  have hrejects := error_iff_rejects p chunks.flatten (start, 0)
  change _ = chunks.flatten.foldlM (completeToken p) (start, 0) at hread
  unfold parseStream parseComplete
  cases hchunks : parseChunks p.toStreamableParser uuid { parser := start } chunks with
  | error e =>
    rw [hchunks] at hread
    rw [← hread] at hrejects ⊢
    have herror : Rejects p start chunks.flatten := hrejects.mp ⟨e, rfl⟩
    exact ⟨rfl, ⟨fun _ => herror, fun _ => ⟨e, rfl⟩⟩, ⟨fun _ => herror, fun _ => ⟨e, rfl⟩⟩⟩
  | ok out =>
    rw [hchunks] at hread
    rw [← hread] at hrejects ⊢
    have hnot : ¬ Rejects p start chunks.flatten := fun h => by
      obtain ⟨e, he⟩ := hrejects.mpr h
      cases he
    refine ⟨congrArg Except.ok ?_, ⟨fun h => ?_, fun h => absurd h hnot⟩,
      fun h => ?_, fun h => absurd h hnot⟩
    · exact ((Channels.alike_parseMessages ..).handleIncompleteContent p _).output ..
    · obtain ⟨e, he⟩ := h
      cases he
    · obtain ⟨e, he⟩ := h
      cases he

end Counting

end QwenStack.Harmony
