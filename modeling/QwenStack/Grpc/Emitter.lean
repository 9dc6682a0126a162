import QwenStack.Grpc.ToolLoop

/-!
# Responses over chat — the events of a stream

`gateway/src/routers/grpc/common/responses/streaming.rs`: the emitter builds the events of a streamed
response, and numbers each when it is built; the items that are opened are kept with it, and those that are
done are shown again with the end of the response.

An event is its number and what it shows, and so is an item; the texts of the event types, which are
defined in another crate, are left out, as is what is written and not read.  The client stays connected, so
that sending does not fail.
-/

namespace QwenStack.Grpc
open Harmony (ToolCall ToolCallDelta FunctionDelta)

/-! ### Events -/

/-- An item of the output, as it is shown. -/
inductive Item where
  | mcpListTools (id serverLabel status : Str) (tools : List McpTool)
  | mcpCall (id : Str) (callId : Option Str) (name : Str) (serverLabel : Option Str)
      (status arguments : Str) (output error : Option Str)
  /-- A `function_tool_call`, or a `function_call`. -/
  | functionCall (type id callId name status arguments : Str)
  | message (id : Str) (text : Option Str)
  | reasoning (id : Str) (content : Option Str)

/-- A response that is completed, with the request whose fields it shows. -/
structure CompletedResponse where
  id : Str
  createdAt : Nat
  model : Str
  output : List Item
  usage : Option Value
  request : Option ResponsesRequest

inductive EventBody where
  | created (responseId : Str) (createdAt : Nat) (model : Str)
  | inProgress (responseId : Str)
  | contentPartAdded (outputIndex : Nat) (itemId : Str) (contentIndex : Nat)
  | textDelta (outputIndex : Nat) (itemId : Str) (contentIndex : Nat) (delta : Str)
  | textDone (outputIndex : Nat) (itemId : Str) (contentIndex : Nat) (text : Str)
  | contentPartDone (outputIndex : Nat) (itemId : Str) (contentIndex : Nat) (text : Str)
  | completed (response : CompletedResponse)
  | mcpListToolsInProgress (outputIndex : Nat)
  | mcpListToolsCompleted (outputIndex : Nat) (tools : List McpTool)
  | mcpCallInProgress (outputIndex : Nat) (itemId : Str)
  | mcpCallArgumentsDelta (outputIndex : Nat) (itemId delta : Str)
  | mcpCallArgumentsDone (outputIndex : Nat) (itemId arguments : Str)
  | mcpCallCompleted (outputIndex : Nat) (itemId : Str)
  | mcpCallFailed (outputIndex : Nat) (itemId error : Str)
  | functionCallArgumentsDelta (outputIndex : Nat) (itemId delta : Str)
  | functionCallArgumentsDone (outputIndex : Nat) (itemId arguments : Str)
  | outputItemAdded (outputIndex : Nat) (item : Item)
  | outputItemDone (outputIndex : Nat) (item : Item)
  | error (code message : Str)

structure Event where
  sequenceNumber : Nat
  body : EventBody

/-! ### The emitter -/

inductive OutputItemType where
  | message | mcpListTools | mcpCall | functionCall | reasoning
  deriving DecidableEq, Repr

def OutputItemType.idPrefix : OutputItemType → Str
  | .mcpListTools => "mcpl".toList
  | .mcpCall => "mcp".toList
  | .functionCall => "fc".toList
  | .message => "msg".toList
  | .reasoning => "rs".toList

structure OutputItemState where
  outputIndex : Nat
  completed : Bool := false
  itemData : Option Item := none

/-- `ResponseStreamEventEmitter`, with the number of ids that were generated. -/
structure Emitter where
  sequenceNumber : Nat := 0
  responseId : Str
  model : Str
  createdAt : Nat
  messageId : Str
  accumulatedText : Str := []
  hasEmittedOutputItemAdded : Bool := false
  hasEmittedContentPartAdded : Bool := false
  mcpServerLabel : Option Str := none
  outputItems : List OutputItemState := []
  nextOutputIndex : Nat := 0
  currentMessageOutputIndex : Option Nat := none
  currentItemId : Option Str := none
  originalRequest : Option ResponsesRequest := none
  generated : Nat

/-- A change of the first item at an index. -/
def updateItem (outputIndex : Nat) (f : OutputItemState → OutputItemState) :
    List OutputItemState → List OutputItemState
  | [] => []
  | item :: items =>
      if item.outputIndex = outputIndex then f item :: items
      else item :: updateItem outputIndex f items

namespace Emitter
variable (uuid : Nat → Str) (e : Emitter)

/-- `new`, with the id of a message. -/
def new (responseId model : Str) (createdAt generated : Nat) : Emitter where
  responseId := responseId
  model := model
  createdAt := createdAt
  messageId := "msg_".toList ++ uuid generated
  generated := generated + 1

/-- An event takes the next number. -/
def build (body : EventBody) : Event × Emitter :=
  (⟨e.sequenceNumber, body⟩, { e with sequenceNumber := e.sequenceNumber + 1 })

def emitCreated : Event × Emitter := e.build (.created e.responseId e.createdAt e.model)

def emitInProgress : Event × Emitter := e.build (.inProgress e.responseId)

def emitContentPartAdded (outputIndex : Nat) (itemId : Str) (contentIndex : Nat) : Event × Emitter :=
  { e with hasEmittedContentPartAdded := true }.build
    (.contentPartAdded outputIndex itemId contentIndex)

def emitTextDelta (delta : Str) (outputIndex : Nat) (itemId : Str) (contentIndex : Nat) :
    Event × Emitter :=
  { e with accumulatedText := e.accumulatedText ++ delta }.build
    (.textDelta outputIndex itemId contentIndex delta)

def emitTextDone (outputIndex : Nat) (itemId : Str) (contentIndex : Nat) : Event × Emitter :=
  e.build (.textDone outputIndex itemId contentIndex e.accumulatedText)

def emitContentPartDone (outputIndex : Nat) (itemId : Str) (contentIndex : Nat) : Event × Emitter :=
  e.build (.contentPartDone outputIndex itemId contentIndex e.accumulatedText)

/-- The items that are completed and have their data. -/
def completedItems : List Item :=
  e.outputItems.filterMap fun item => if item.completed = true then item.itemData else none

/-- The items of the output; without any, a message of the text. -/
def output : List Item :=
  if e.completedItems.isEmpty = true then [.message e.messageId (some e.accumulatedText)]
  else e.completedItems

def emitCompleted (usage : Option Value) : Event × Emitter :=
  e.build (.completed {
    id := e.responseId
    createdAt := e.createdAt
    model := e.model
    output := e.output
    usage := usage
    request := e.originalRequest })

def emitMcpListToolsInProgress (outputIndex : Nat) : Event × Emitter :=
  e.build (.mcpListToolsInProgress outputIndex)

def emitMcpListToolsCompleted (outputIndex : Nat) (tools : List McpTool) : Event × Emitter :=
  e.build (.mcpListToolsCompleted outputIndex tools)

def emitMcpCallInProgress (outputIndex : Nat) (itemId : Str) : Event × Emitter :=
  e.build (.mcpCallInProgress outputIndex itemId)

def emitMcpCallArgumentsDelta (outputIndex : Nat) (itemId delta : Str) : Event × Emitter :=
  e.build (.mcpCallArgumentsDelta outputIndex itemId delta)

def emitMcpCallArgumentsDone (outputIndex : Nat) (itemId arguments : Str) : Event × Emitter :=
  e.build (.mcpCallArgumentsDone outputIndex itemId arguments)

def emitMcpCallCompleted (outputIndex : Nat) (itemId : Str) : Event × Emitter :=
  e.build (.mcpCallCompleted outputIndex itemId)

def emitMcpCallFailed (outputIndex : Nat) (itemId error : Str) : Event × Emitter :=
  e.build (.mcpCallFailed outputIndex itemId error)

def emitFunctionCallArgumentsDelta (outputIndex : Nat) (itemId delta : Str) : Event × Emitter :=
  e.build (.functionCallArgumentsDelta outputIndex itemId delta)

def emitFunctionCallArgumentsDone (outputIndex : Nat) (itemId arguments : Str) : Event × Emitter :=
  e.build (.functionCallArgumentsDone outputIndex itemId arguments)

def emitOutputItemAdded (outputIndex : Nat) (item : Item) : Event × Emitter :=
  e.build (.outputItemAdded outputIndex item)

/-- `store_output_item_data`. -/
def storeOutputItemData (outputIndex : Nat) (itemData : Item) : Emitter :=
  { e with
    outputItems := updateItem outputIndex (fun item => { item with itemData := some itemData })
      e.outputItems }

/-- The item is stored, too. -/
def emitOutputItemDone (outputIndex : Nat) (item : Item) : Event × Emitter :=
  (e.storeOutputItemData outputIndex item).build (.outputItemDone outputIndex item)

/-- The error of the emitter has its own code, or `internal_error`. -/
def emitError (errorMsg : Str) (errorCode : Option Str) : Event × Emitter :=
  e.build (.error (errorCode.getD "internal_error".toList) errorMsg)

/-- `allocate_output_index`. -/
def allocateOutputIndex (itemType : OutputItemType) : Nat × Str × Emitter :=
  (e.nextOutputIndex, itemType.idPrefix ++ "_".toList ++ uuid e.generated,
    { e with
      nextOutputIndex := e.nextOutputIndex + 1
      generated := e.generated + 1
      outputItems := e.outputItems ++ [{ outputIndex := e.nextOutputIndex }] })

/-- `complete_output_item`. -/
def completeOutputItem (outputIndex : Nat) : Emitter :=
  { e with
    outputItems := updateItem outputIndex (fun item => { item with completed := true })
      e.outputItems }

end Emitter

/-! ### The client -/

/-- A block that is sent. -/
inductive Sent where
  | event (e : Event)
  /-- An error of the stream, with its message and its kind. -/
  | failure (message kind : Str)
  /-- A block that is passed on, and whether it is an error. -/
  | passed (text : Str) (isError : Bool)
  | done

/-- The emitter, and what the client has been sent. -/
structure Client where
  emitter : Emitter
  sent : List Sent := []

namespace Client
variable (uuid : Nat → Str) (c : Client)

/-- An event is built and sent. -/
def emit (builder : Emitter → Event × Emitter) : Client :=
  let (event, emitter) := builder c.emitter
  { emitter := emitter, sent := c.sent ++ [.event event] }

def send (block : Sent) : Client := { c with sent := c.sent ++ [block] }

/-- A change of the emitter. -/
def update (f : Emitter → Emitter) : Client := { c with emitter := f c.emitter }

/-- An item is opened. -/
def allocate (itemType : OutputItemType) : Nat × Str × Client :=
  let (outputIndex, itemId, emitter) := c.emitter.allocateOutputIndex uuid itemType
  (outputIndex, itemId, { c with emitter := emitter })

/-- `emit_reasoning_item`. -/
def emitReasoningItem (reasoningContent : Option Str) : Client :=
  let (outputIndex, itemId, c) := c.allocate uuid .reasoning
  let item : Item := .reasoning itemId reasoningContent
  let c := c.emit (·.emitOutputItemAdded outputIndex item)
  let c := c.emit (·.emitOutputItemDone outputIndex item)
  c.update (·.completeOutputItem outputIndex)

end Client

/-! ### Chunks -/

structure Delta where
  content : Option Str := none
  reasoningContent : Option Str := none
  toolCalls : Option (List ToolCallDelta) := none
  deriving DecidableEq, Repr

structure ChunkChoice where
  delta : Delta
  finishReason : Option Str := none
  deriving DecidableEq, Repr

/-- The text that is to be shown. -/
def ChunkChoice.text (choice : ChunkChoice) : Str := choice.delta.content.getD []

/-- The message ends here. -/
def ChunkChoice.stops (choice : ChunkChoice) : Bool :=
  choice.finishReason = some "stop".toList ∨ choice.finishReason = some "length".toList

/-- `ChatCompletionStreamResponse`. -/
structure ChatChunk where
  id : Str
  model : Str
  created : Nat := 0
  choices : List ChunkChoice
  usage : Option Usage := none
  deriving DecidableEq, Repr

/-- A block of the stream of a chat: a chunk, an error, something else, the end, or that it broke. -/
inductive Frame where
  | chunk (chunk : ChatChunk)
  | error (event : Str)
  | other (event : Str)
  | done
  | broken (e : Str)
  deriving DecidableEq, Repr

/-- The end of a function that is not its normal one. -/
inductive Halt where
  | failed (message : Str)
  | panic
  deriving DecidableEq, Repr

namespace Client
variable (uuid : Nat → Str) (c : Client)

/-- The message is opened with its first text. -/
def openMessage : Client :=
  match c.emitter.currentItemId with
  | some _ => c
  | none =>
      let (outputIndex, itemId, c) := c.allocate uuid .message
      let c := c.emit (·.emitOutputItemAdded outputIndex (.message itemId none))
      c.update fun e => { e with
        hasEmittedOutputItemAdded := true
        currentItemId := some itemId
        currentMessageOutputIndex := some outputIndex }

/-- The text of a chunk. -/
def processContent (content : Str) : Client × Option Halt :=
  let c := c.openMessage uuid
  match c.emitter.currentMessageOutputIndex, c.emitter.currentItemId with
  | some outputIndex, some itemId =>
      let c := if c.emitter.hasEmittedContentPartAdded = true then c
        else c.emit (·.emitContentPartAdded outputIndex itemId 0)
      (c.emit (·.emitTextDelta content outputIndex itemId 0), none)
  | _, _ => (c, some .panic)

/-- The end of the message; there has to be one. -/
def finishMessage : Client × Option Halt :=
  match c.emitter.currentMessageOutputIndex, c.emitter.currentItemId with
  | some outputIndex, some itemId =>
      let c := if c.emitter.hasEmittedContentPartAdded = true then
          (c.emit (·.emitTextDone outputIndex itemId 0)).emit
            (·.emitContentPartDone outputIndex itemId 0)
        else c
      let c := if c.emitter.hasEmittedOutputItemAdded = true then
          c.emit (·.emitOutputItemDone outputIndex (.message itemId (some c.emitter.accumulatedText)))
        else c
      (c.update (·.completeOutputItem outputIndex), none)
  | _, _ => (c, some .panic)

/-- `process_chunk`. -/
def processChunk (chunk : ChatChunk) : Client × Option Halt :=
  match chunk.choices with
  | [] => (c, none)
  | choice :: _ =>
      match if choice.text = [] then (c, none) else c.processContent uuid choice.text with
      | (c, some halt) => (c, some halt)
      | (c, none) => if choice.stops = true then c.finishMessage else (c, none)

end Client

end QwenStack.Grpc
