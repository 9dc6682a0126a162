import QwenStack.Support.Value

/-!
# Generate — Definitions

`gateway/src/routers/grpc/regular/streaming.rs`: the answer to a `/generate` request as it is streamed, for a
single worker (`process_generate_streaming`) and for the decode worker of a pair
(`process_generate_streaming_with_input_logprobs`, which is given what the prefill worker said).  Both keep a text for each index, to which the decoded
tokens of each chunk are added; they differ in the finish reason and in the log probabilities (`Mode`).

The tokenizer and `serde_json` are parameters.  Log probabilities are exact rationals, and the latency in the
last message of an index is left out, as are metrics and a receiver that is gone.
-/

namespace QwenStack.Generate

/-- `llm_tokenizer::Tokenizer`: `decode` of tokens, with or without the special ones. -/
structure Tokenizer where
  decode : List Nat → Bool → Except Str Str

/-! ### Messages of a worker -/

/-- The rows `[logprob, token_id]` of the generate format. -/
abbrev Rows := List (List (Option Rat))

structure OutputLogProbs where
  tokenLogprobs : List Rat
  tokenIds : List Nat

structure ProtoGenerateStreamChunk where
  index : Nat
  tokenIds : List Nat
  promptTokens : Int := 0
  cachedTokens : Int := 0
  outputLogprobs : Option OutputLogProbs := none

structure ProtoGenerateComplete where
  index : Nat
  outputIds : List Nat := []
  finishReason : Str
  promptTokens : Int := 0
  completionTokens : Int := 0
  cachedTokens : Int := 0

inductive ProtoResponseVariant where
  | chunk (chunk : ProtoGenerateStreamChunk)
  | complete (complete : ProtoGenerateComplete)
  | error (message : Str)
  | none

/-- What comes next in a stream, or why it broke. -/
abbrev Response := Except Str ProtoResponseVariant

/-- `convert_generate_output_logprobs`. -/
def convertGenerateOutputLogprobs (logprobs : OutputLogProbs) : Rows :=
  (logprobs.tokenLogprobs.zip logprobs.tokenIds).map fun (logprob, tokenId) =>
    [some logprob, some (tokenId : Rat)]

/-! ### Messages to the client -/

inductive GenerateFinishReason where
  | stop
  | length (length : Nat)
  | other (value : Value)

/-- What `serde_json::from_str` reads, as a finish reason and as any value. -/
structure FromStr where
  finishReason : Str → Option GenerateFinishReason
  value : Str → Option Value

/-- `parse_finish_reason`. -/
def parseFinishReason (fromStr : FromStr) (reasonStr : Str) (completionTokens : Int) : GenerateFinishReason :=
  if reasonStr = "stop".toList then .stop
  else if reasonStr = "length".toList then .length (max completionTokens 0).toNat
  else
    match fromStr.finishReason reasonStr with
    | some finishReason => finishReason
    | none =>
        match fromStr.value reasonStr with
        | some jsonValue => .other jsonValue
        | none => .other (.string reasonStr)

/-- The finish reason that is sent: the text as it is, or parsed. -/
inductive FinishReason where
  | text (reason : Str)
  | parsed (reason : GenerateFinishReason)

structure Logprobs where
  inputTokenLogprobs : Option Rows
  outputTokenLogprobs : Option Rows

structure MetaInfo where
  id : Str
  /-- Null before the last message of an index. -/
  finishReason : Option FinishReason
  promptTokens : Int
  weightVersion : Str
  /-- Two members that only one of the functions writes. -/
  logprobs : Option Logprobs
  completionTokens : Nat
  cachedTokens : Int

/-- A message to the client. -/
structure Sent where
  text : Str
  outputIds : List Nat
  metaInfo : MetaInfo
  index : Nat

structure GenerateStreamContext where
  requestId : Str
  weightVersion : Str := "default".toList

/-- Which of the two functions it is, with what one of them is called with. -/
inductive Mode where
  | single
  | withInputLogprobs (inputTokenLogprobs : Option Rows)

namespace Mode

def logprobs (outputTokenLogprobs : Option Rows) : Mode → Option Logprobs
  | single => none
  | withInputLogprobs inputTokenLogprobs => some ⟨inputTokenLogprobs, outputTokenLogprobs⟩

def finishReason (fromStr : FromStr) (complete : ProtoGenerateComplete) : Mode → FinishReason
  | single => .text complete.finishReason
  | withInputLogprobs _ =>
      .parsed (parseFinishReason fromStr complete.finishReason complete.completionTokens)

end Mode

/-! ### The loop -/

/-- What is kept for each index; the log probabilities are read by one of the functions. -/
structure Accumulated where
  texts : List (Nat × Str) := []
  outputLogprobs : List (Nat × Rows) := []
  completionTokens : List (Nat × Nat) := []

section Streaming
variable (tokenizer : Tokenizer) (fromStr : FromStr) (ctx : GenerateStreamContext) (mode : Mode)

/-- The text of a chunk; tokens that cannot be decoded have none. -/
def chunkText (tokenIds : List Nat) : Str := (tokenizer.decode tokenIds true).toOption.getD []

def Accumulated.addChunk (a : Accumulated) (chunk : ProtoGenerateStreamChunk) : Accumulated where
  texts := Assoc.upsert chunk.index (· ++ chunkText tokenizer chunk.tokenIds)
    (chunkText tokenizer chunk.tokenIds) a.texts
  outputLogprobs :=
    match chunk.outputLogprobs with
    | some outputLogprobs => Assoc.put chunk.index (convertGenerateOutputLogprobs outputLogprobs) a.outputLogprobs
    | none => a.outputLogprobs
  completionTokens := Assoc.upsert chunk.index (fun count => (count + chunk.tokenIds.length) % 2 ^ 32)
    (chunk.tokenIds.length % 2 ^ 32) a.completionTokens

def Accumulated.text (a : Accumulated) (index : Nat) : Str := (a.texts.lookup index).getD []

/-- The id of an index. -/
def indexId (index : Nat) : Str := ctx.requestId ++ '-' :: (toString index).toList

/-- The message of a chunk, once it is added. -/
def chunkResponse (a : Accumulated) (chunk : ProtoGenerateStreamChunk) : Sent where
  text := a.text chunk.index
  outputIds := chunk.tokenIds
  metaInfo := {
    id := indexId ctx chunk.index
    finishReason := none
    promptTokens := chunk.promptTokens
    weightVersion := ctx.weightVersion
    logprobs := mode.logprobs (a.outputLogprobs.lookup chunk.index)
    completionTokens := (a.completionTokens.lookup chunk.index).getD 0
    cachedTokens := chunk.cachedTokens }
  index := chunk.index

/-- The last message of an index. -/
def finishResponse (a : Accumulated) (complete : ProtoGenerateComplete) : Sent where
  text := a.text complete.index
  outputIds := complete.outputIds.drop (complete.outputIds.length - 1)
  metaInfo := {
    id := indexId ctx complete.index
    finishReason := some (mode.finishReason fromStr complete)
    promptTokens := complete.promptTokens
    weightVersion := ctx.weightVersion
    logprobs := mode.logprobs (a.outputLogprobs.lookup complete.index)
    completionTokens := (a.completionTokens.lookup complete.index).getD 0
    cachedTokens := complete.cachedTokens }
  index := complete.index

/-- The loop over a stream: what is sent, and how it ends. -/
def streamLoop : Accumulated → List Response → List Sent × Except Str Unit
  | _, [] => ([], .ok ())
  | _, .error e :: _ => ([], .error ("Stream error: ".toList ++ e))
  | a, .ok (.chunk chunk) :: rest =>
      let a := a.addChunk tokenizer chunk
      let (sent, result) := streamLoop a rest
      (chunkResponse ctx mode a chunk :: sent, result)
  | a, .ok (.complete complete) :: rest =>
      let (sent, result) := streamLoop a rest
      (finishResponse fromStr ctx mode a complete :: sent, result)
  | _, .ok (.error message) :: _ => ([], .error message)
  | a, .ok .none :: rest => streamLoop a rest

/-- `process_generate_streaming`. -/
def processGenerateStreaming (stream : List Response) : List Sent × Except Str Unit :=
  streamLoop tokenizer fromStr ctx .single {} stream

/-- `process_generate_streaming_with_input_logprobs`. -/
def processGenerateStreamingWithInputLogprobs (inputTokenLogprobs : Option Rows) (stream : List Response) :
    List Sent × Except Str Unit :=
  streamLoop tokenizer fromStr ctx (.withInputLogprobs inputTokenLogprobs) {} stream

end Streaming

end QwenStack.Generate
