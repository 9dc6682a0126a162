import QwenStack.Support.Marker
import QwenStack.Support.Utf8

/-!
# Reasoning — Definitions

`sglang/patches/0006-tc-lookahead/reasoning_parser.py`: `BaseReasoningFormatDetector`, which splits
the output of a model into reasoning and normal text, at once (`detectAndParse`) or while it
arrives (`parseStreamingIncrement`, `finish`), and `Qwen3Detector`.

The attributes that a detector class fixes are a `Format`, those a request fixes are `Options`,
those that change are a `State`.  `t <:+: s` is the source's `t in s`, `t <+: s` its
`s.startswith(t)`, `-1` is `none`.
-/

namespace QwenStack.Reasoning
open Marker

/-- What the class of a detector fixes. -/
structure Format where
  thinkStartToken : Str
  thinkStartSelfLabel : Str
  thinkEndToken : Str
  toolStartToken : Option Str
  tcLookahead : Bool
  tcBlockPrefix : Option Str

/-- What a request fixes.  `previousContent` is empty unless the final message is continued. -/
structure Options where
  streamReasoning : Bool
  forceReasoning : Bool
  forceNonemptyContent : Bool
  previousContent : Str
  deriving DecidableEq, Repr

/-- `StreamingParseResult`. -/
structure Result where
  normalText : Str
  reasoningText : Str
  deriving DecidableEq, Repr

/-- `StreamingParseResult()`. -/
def Result.empty : Result := ⟨[], []⟩

/-- The attributes that parsing changes. -/
structure State where
  buffer : Str
  heldTc : Option Str
  inReasoning : Bool
  strippedThinkStart : Bool
  accumulatedReasoning : Str
  deriving DecidableEq, Repr

/-- `<think>`, `</think>`, `<tool_call>`, `<function=`: the words of Qwen3. -/
def thinkStart : Str := "<think>".toList

@[inherit_doc thinkStart]
def thinkEnd : Str := "</think>".toList

@[inherit_doc thinkStart]
def toolCall : Str := "<tool_call>".toList

@[inherit_doc thinkStart]
def functionPrefix : Str := "<function=".toList

/-- `Qwen3Detector`. -/
def qwen3Detector : Format where
  thinkStartToken := thinkStart
  thinkStartSelfLabel := []
  thinkEndToken := thinkEnd
  toolStartToken := some toolCall
  tcLookahead := true
  tcBlockPrefix := some functionPrefix

/-- `think_start_text`. -/
def Format.thinkStartText (fmt : Format) : Str := fmt.thinkStartToken ++ fmt.thinkStartSelfLabel

/-- `[self.tool_start_token]` where the token is there and is not empty. -/
def Format.toolTokens (fmt : Format) : List Str := fmt.toolStartToken.toList.filter (· ≠ [])

/-- `__init__`. -/
def init (fmt : Format) (opt : Options) : State where
  buffer := []
  heldTc := none
  inReasoning :=
    if fmt.thinkEndToken <:+: opt.previousContent then false
    else if fmt.thinkStartToken <:+: opt.previousContent then true
    else opt.forceReasoning
  strippedThinkStart := false
  accumulatedReasoning := []

/-! ### Whitespace -/

/-- The characters `str.lstrip` removes. -/
def isSpace (c : Char) : Bool :=
  let n := c.toNat
  (9 ≤ n && n ≤ 13) || (28 ≤ n && n ≤ 32) || n == 0x85 || n == 0xA0 || n == 0x1680 ||
    (0x2000 ≤ n && n ≤ 0x200A) || n == 0x2028 || n == 0x2029 || n == 0x202F || n == 0x205F ||
    n == 0x3000

/-- `str.lstrip`. -/
def lstrip (s : Str) : Str := s.dropWhile isSpace

/-- The text after a tool tag opens a block: the block prefix, modulo whitespace. -/
def Format.opensBlock (fmt : Format) (rest : Str) : Bool :=
  match fmt.tcBlockPrefix with
  | some p => decide (p ≠ [] ∧ p <+: lstrip rest)
  | none => false

/-! ### The held tool tag -/

/-- The events that resolve a held tool tag. -/
inductive Event where
  | thinkEnd
  | nextTc
  | wf
  deriving DecidableEq, Repr

/-- `min(candidates, key=lambda x: x[1])`: the first of the least. -/
def earliest : List (Event × Nat) → Option (Event × Nat)
  | [] => none
  | c :: cs => some (cs.foldl (fun m x => if x.2 < m.2 then x else m) c)

/-- The candidates of `_process_tc_held`, and the choice between them. -/
def tcDecision (fmt : Format) (held : Str) : Option (Event × Nat) :=
  let tcLen := (fmt.toolStartToken.getD []).length
  let rest := held.drop tcLen
  let endPos := find fmt.thinkEndToken held
  let nextTc := (find (fmt.toolStartToken.getD []) rest).map (· + tcLen)
  let wfPos :=
    if fmt.opensBlock rest then some (tcLen + (rest.length - (lstrip rest).length)) else none
  earliest
    (endPos.toList.map (Event.thinkEnd, ·) ++ nextTc.toList.map (Event.nextTc, ·) ++
      wfPos.toList.map (Event.wf, ·))

/-- `_process_tc_held`, where `_held_tc` is `held`. -/
def processTcHeld (fmt : Format) (s : State) (held : Str) : State × Result :=
  match tcDecision fmt held with
  | none => ({ s with heldTc := some held }, Result.empty)
  | some (.thinkEnd, endPos) =>
      ({ s with inReasoning := false, heldTc := none, buffer := [] },
        ⟨held.drop (endPos + fmt.thinkEndToken.length), held.take endPos⟩)
  | some (.wf, _) =>
      -- the model omitted the closing token: close at the held tag
      ({ s with inReasoning := false, heldTc := none, buffer := [] }, ⟨held, []⟩)
  | some (.nextTc, nextTc) =>
      -- the held tag was thinking prose; advance
      ({ s with heldTc := some (held.drop nextTc) }, ⟨[], held.take nextTc⟩)

/-! ### Streaming -/

/-- The loop of `_ends_with_partial_token`, from the length `i` down. -/
def partialFrom (buffer token : Str) : Nat → Nat
  | 0 => 0
  | i + 1 =>
      if buffer.drop (buffer.length - (i + 1)) <+: token then i + 1
      else partialFrom buffer token i

/-- `_ends_with_partial_token`. -/
def endsWithPartialToken (buffer token : Str) : Nat :=
  partialFrom buffer token (min buffer.length (token.length - 1))

/-- The tokens that a chunk may cut: the text is kept while it is a proper prefix of one. -/
def tokensToCheck (fmt : Format) : List Str :=
  [fmt.thinkStartText, fmt.thinkEndToken] ++ fmt.toolTokens

/-- The current text is a proper prefix of a token. -/
def keepsBuffering (fmt : Format) (currentText : Str) : Bool :=
  (tokensToCheck fmt).any fun token => decide (currentText <+: token ∧ token ≠ currentText)

/-- The opening token is stripped, once. -/
def stripThinkStart (fmt : Format) (s : State) : State :=
  if ¬ s.strippedThinkStart ∧ fmt.thinkStartText <:+: s.buffer then
    { s with
      buffer := eraseOnce fmt.thinkStartText s.buffer
      strippedThinkStart := true
      inReasoning := true }
  else s

/-- `holdback_tokens`. -/
def holdbackTokens (fmt : Format) (s : State) : List Str :=
  fmt.thinkEndToken :: fmt.toolTokens ++
    if s.strippedThinkStart then [] else [fmt.thinkStartText]

/-- The longest trailing slice that could be a token split across chunks. -/
def holdback (fmt : Format) (s : State) (currentText : Str) : Nat :=
  ((holdbackTokens fmt s).map (endsWithPartialToken currentText)).foldl max 0

/-- The tool tag in reasoning: hold from it, or close there. -/
def interrupt (fmt : Format) (s : State) (currentText : Str) (toolIdx : Nat) : State × Result :=
  if fmt.tcLookahead then
    let (s, ret) := processTcHeld fmt { s with buffer := [] } (currentText.drop toolIdx)
    (s, { ret with reasoningText := currentText.take toolIdx ++ ret.reasoningText })
  else
    ({ s with buffer := [], inReasoning := false },
      ⟨currentText.drop toolIdx, currentText.take toolIdx⟩)

/-- The part of `_parse_streaming_increment_impl` after the stripping: `_buffer` is the current
text. -/
def dispatch (fmt : Format) (opt : Options) (s : State) : State × Result :=
  let currentText := s.buffer
  if s.inReasoning then
    match find fmt.thinkEndToken currentText with
    | some endIdx =>
        ({ s with buffer := [], inReasoning := false },
          ⟨currentText.drop (endIdx + fmt.thinkEndToken.length), currentText.take endIdx⟩)
    | none =>
        match fmt.toolTokens.head?.bind fun tc => find tc currentText with
        | some toolIdx => interrupt fmt s currentText toolIdx
        | none =>
            -- minus any trailing slice that could be a token split across chunks
            if opt.streamReasoning then
              let kept := currentText.length - holdback fmt s currentText
              ({ s with buffer := currentText.drop kept }, ⟨[], currentText.take kept⟩)
            else (s, Result.empty)
  else ({ s with buffer := [] }, ⟨currentText, []⟩)

/-- `_parse_streaming_increment_impl`. -/
def parseStreamingIncrementImpl (fmt : Format) (opt : Options) (s : State) (newText : Str) :
    State × Result :=
  match s.heldTc with
  | some held => processTcHeld fmt s (held ++ newText)
  | none =>
      let s := { s with buffer := s.buffer ++ newText }
      if keepsBuffering fmt s.buffer then (s, Result.empty)
      else dispatch fmt opt (stripThinkStart fmt s)

/-- `parse_streaming_increment`. -/
def parseStreamingIncrement (fmt : Format) (opt : Options) (s : State) (newText : Str) :
    State × Result :=
  let (s, ret) := parseStreamingIncrementImpl fmt opt s newText
  if opt.forceNonemptyContent then
    let acc := if s.inReasoning then s.accumulatedReasoning ++ ret.reasoningText else []
    ({ s with accumulatedReasoning := acc }, ret)
  else (s, ret)

/-- `_strip_leading_think_start`. -/
def stripLeadingThinkStart (fmt : Format) (text : Str) : Str :=
  if fmt.thinkStartText <+: text then text.drop fmt.thinkStartText.length else text

/-- `finish`. -/
def finish (fmt : Format) (opt : Options) (s : State) : State × Result :=
  match s.heldTc with
  | some held =>
      let s := { s with heldTc := none, buffer := [], inReasoning := false }
      -- no closing token arrived, so the last held tool tag is the real tool start
      match fmt.toolTokens.head?.bind fun tc => rfind tc held with
      | some (lastTc + 1) => (s, ⟨held.drop (lastTc + 1), held.take (lastTc + 1)⟩)
      | _ => (s, ⟨held, []⟩)
  | none =>
      if s.inReasoning then
        let buffer := stripLeadingThinkStart fmt s.buffer
        let s := { s with buffer := [] }
        if opt.forceNonemptyContent then
          ({ s with accumulatedReasoning := [] }, ⟨s.accumulatedReasoning ++ buffer, []⟩)
        else (s, ⟨[], buffer⟩)
      else ({ s with buffer := [] }, ⟨s.buffer, []⟩)

/-- The results of a stream: one of each chunk, and the one of `finish`. -/
def results (fmt : Format) (opt : Options) : State → List Str → List Result
  | s, [] => [(finish fmt opt s).2]
  | s, chunk :: chunks =>
      let step := parseStreamingIncrement fmt opt s chunk
      step.2 :: results fmt opt step.1 chunks

/-- The reasoning text and the normal text of a stream. -/
def joined (rs : List Result) : Result := ⟨rs.flatMap (·.normalText), rs.flatMap (·.reasoningText)⟩

/-- A fresh detector over the chunks of a text, to the end. -/
def parseStream (fmt : Format) (opt : Options) (chunks : List Str) : Result :=
  joined (results fmt opt (init fmt opt) chunks)

/-! ### One shot -/

/-- The loop that strips opening tokens; `fuel` bounds the tokens of the text. -/
def stripThinkStarts (thinkStartText : Str) : Nat → Str → Str
  | 0, text => text
  | fuel + 1, text =>
      if thinkStartText <+: text then
        stripThinkStarts thinkStartText fuel (text.drop thinkStartText.length)
      else text

/-- The loop of `_find_real_tool_start`, from `start` on; `fuel` bounds the tags that are left. -/
def realToolStartFrom (fmt : Format) (tc text : Str) : Nat → Nat → Option Nat → Option Nat
  | 0, _, last => last
  | fuel + 1, start, last =>
      match (find tc (text.drop start)).map (· + start) with
      | none => last
      | some pos =>
          if fmt.opensBlock (text.drop (pos + tc.length)) then some pos
          else realToolStartFrom fmt tc text fuel (pos + tc.length) (some pos)

/-- `_find_real_tool_start`. -/
def findRealToolStart (fmt : Format) (tc text : Str) : Option Nat :=
  realToolStartFrom fmt tc text (text.length + 1) 0 none

/-- `tool_idx`, where the text has a tool tag. -/
def toolIdx (fmt : Format) (tc text : Str) : Option Nat :=
  if fmt.tcLookahead then findRealToolStart fmt tc text else find tc text

/-- The text of a reasoning block whose opening tokens are stripped. -/
def splitReasoning (fmt : Format) (opt : Options) (text : Str) : Result :=
  match find fmt.thinkEndToken text with
  | some endIdx => ⟨text.drop (endIdx + fmt.thinkEndToken.length), text.take endIdx⟩
  | none =>
      if fmt.thinkEndToken <:+: opt.previousContent then ⟨text, []⟩
      else
        match fmt.toolStartToken.bind fun tc => toolIdx fmt tc text with
        | some i => ⟨text.drop i, text.take i⟩
        | none => ⟨[], text⟩

/-- `_detect_and_parse_impl`. -/
def detectAndParseImpl (fmt : Format) (opt : Options) (s : State) (text : Str) : Result :=
  if s.inReasoning ∨ fmt.thinkStartToken <:+: text then
    splitReasoning fmt opt (stripThinkStarts fmt.thinkStartText text.length text)
  else ⟨text, []⟩

/-- `detect_and_parse`. -/
def detectAndParse (fmt : Format) (opt : Options) (s : State) (text : Str) : Result :=
  let ret := detectAndParseImpl fmt opt s text
  if opt.forceNonemptyContent ∧ ret.normalText = [] then ⟨ret.reasoningText, ret.normalText⟩
  else ret

end QwenStack.Reasoning
