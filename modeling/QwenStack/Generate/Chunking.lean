import Mathlib.Data.List.Induction
import QwenStack.Generate.Definitions
import QwenStack.Support.Cuts

/-!
# Generate — the texts of a stream and its chunks

`gateway/src/routers/grpc/regular/streaming.rs`: each chunk is decoded by itself.  Of a tokenizer whose tokens
are bytes, read as UTF-8 with U+FFFD for what is not valid, the text of an index is that of all its tokens
exactly if no chunk ends inside a character or inside a sequence that is read as one U+FFFD
(`streamsDecoded_iff`).
-/

namespace QwenStack.Generate

open List
open Str (fromUtf8Lossy Aligned)

/-! ### What is received -/

/-- A message of a worker that is answered. -/
inductive Received where
  | chunk (chunk : ProtoGenerateStreamChunk)
  | complete (complete : ProtoGenerateComplete)

namespace Received

def index : Received → Nat
  | .chunk c => c.index
  | .complete c => c.index

/-- The tokens of a chunk of an index. -/
def tokens? (i : Nat) : Received → Option (List Nat)
  | .chunk c => if c.index = i then some c.tokenIds else none
  | .complete _ => none

end Received

/-- The messages of a stream up to the first error. -/
def received : List Response → List Received
  | [] => []
  | .error _ :: _ => []
  | .ok (.chunk chunk) :: rest => .chunk chunk :: received rest
  | .ok (.complete complete) :: rest => .complete complete :: received rest
  | .ok (.error _) :: _ => []
  | .ok .none :: rest => received rest

/-- The chunks of an index. -/
def chunksOf (i : Nat) (messages : List Received) : List (List Nat) := messages.filterMap (Received.tokens? i)

/-- The last message of an index is that it is complete. -/
def EndsAt (messages : List Received) (k i : Nat) : Prop :=
  (∃ complete, messages[k]? = some (.complete complete) ∧ complete.index = i) ∧
    ∀ k' message, k < k' → messages[k']? = some message → message.index ≠ i

/-- The last message to the client for its index. -/
def IsLast (sent : List Sent) (k : Nat) (message : Sent) : Prop :=
  sent[k]? = some message ∧ message.metaInfo.finishReason.isSome = true ∧
    ∀ k' message', k < k' → sent[k']? = some message' → message'.index ≠ message.index

/-- The text of tokens that are these bytes. -/
def decoded (bytes : Nat → List UInt8) (tokenIds : List Nat) : Str := fromUtf8Lossy (tokenIds.flatMap bytes)

/-- **The property**: the last text of an index is that of all its tokens, and the texts before are
prefixes of it. -/
def StreamsDecoded (bytes : Nat → List UInt8) (stream : List Response) (sent : List Sent) : Prop :=
  ∀ k message, IsLast sent k message →
    message.text = decoded bytes (chunksOf message.index (received stream)).flatten ∧
      ∀ k' message', k' < k → sent[k']? = some message' → message'.index = message.index →
        message'.text <+: decoded bytes (chunksOf message.index (received stream)).flatten

/-- **The condition** for an index: its chunks end where units of the bytes end. -/
def ChunksAligned (bytes : Nat → List UInt8) (messages : List Received) (i : Nat) : Prop :=
  Aligned ((chunksOf i messages).map fun tokenIds => tokenIds.flatMap bytes)

/-! ### What is sent -/

section Sending
variable (tokenizer : Tokenizer) (fromStr : FromStr) (ctx : GenerateStreamContext) (mode : Mode)

def Accumulated.add (a : Accumulated) : Received → Accumulated
  | .chunk chunk => a.addChunk tokenizer chunk
  | .complete _ => a

/-- The answer to a message that has been added. -/
def answer (a : Accumulated) : Received → Sent
  | .chunk chunk => chunkResponse ctx mode a chunk
  | .complete complete => finishResponse fromStr ctx mode a complete

theorem index_answer (a : Accumulated) (message : Received) :
    (answer fromStr ctx mode a message).index = message.index := by
  cases message with
  | chunk chunk => rfl
  | complete complete => rfl

theorem text_answer (a : Accumulated) (message : Received) :
    (answer fromStr ctx mode a message).text = a.text message.index := by
  cases message with
  | chunk chunk => rfl
  | complete complete => rfl

/-- **One answer for each message**, from what has been added by then. -/
theorem streamLoop_getElem? (a : Accumulated) (stream : List Response) (k : Nat) :
    (streamLoop tokenizer fromStr ctx mode a stream).1[k]? = (received stream)[k]?.map
      (answer fromStr ctx mode (((received stream).take (k + 1)).foldl (Accumulated.add tokenizer) a)) := by
  induction stream generalizing a k with
  | nil => rfl
  | cons response rest ih =>
    cases response with
    | error e => rfl
    | ok variant =>
      cases variant with
      | error message => rfl
      | none => exact ih a k
      | chunk chunk =>
        cases k with
        | zero => rfl
        | succ k => exact ih (a.addChunk tokenizer chunk) k
      | complete complete =>
        cases k with
        | zero => rfl
        | succ k => exact ih a k

theorem text_addChunk (a : Accumulated) (chunk : ProtoGenerateStreamChunk) (i : Nat) :
    (a.addChunk tokenizer chunk).text i =
      if i = chunk.index then a.text i ++ chunkText tokenizer chunk.tokenIds else a.text i := by
  rw [Accumulated.text, Accumulated.addChunk, Assoc.lookup_upsert]
  split
  · next hi =>
    subst hi
    rw [Accumulated.text]
    cases a.texts.lookup chunk.index <;> rfl
  · rfl

/-- The text of an index is that of its chunks, whatever other messages there are. -/
theorem text_foldl_add (messages : List Received) (i : Nat) :
    (messages.foldl (Accumulated.add tokenizer) {}).text i =
      (chunksOf i messages).flatMap (chunkText tokenizer) := by
  induction messages using List.reverseRecOn with
  | nil => rfl
  | append_singleton messages message ih =>
    rw [foldl_append, chunksOf, filterMap_append, flatMap_append]
    change (Accumulated.add tokenizer _ message).text i = _
    cases message with
    | complete complete =>
      refine ih.trans ?_
      simp [chunksOf, Received.tokens?]
    | chunk chunk =>
      rw [Accumulated.add, text_addChunk, ih]
      by_cases hi : i = chunk.index
      · simp [chunksOf, Received.tokens?, hi]
      · simp [chunksOf, Received.tokens?, hi, Ne.symm hi]

end Sending

/-! ### The last text of an index -/

section Last
variable {tokenizer : Tokenizer} {fromStr : FromStr} {ctx : GenerateStreamContext} {mode : Mode}
  {stream : List Response}

/-- A message of an index has the text of its chunks by then. -/
theorem sent_getElem? {k : Nat} {message : Sent}
    (h : (streamLoop tokenizer fromStr ctx mode {} stream).1[k]? = some message) :
    ∃ r, (received stream)[k]? = some r ∧ message.index = r.index ∧
      (message.metaInfo.finishReason.isSome = true ↔ ∃ complete, r = .complete complete) ∧
      message.text =
        (chunksOf message.index ((received stream).take (k + 1))).flatMap (chunkText tokenizer) := by
  rw [streamLoop_getElem?, Option.map_eq_some_iff] at h
  obtain ⟨r, hr, rfl⟩ := h
  refine ⟨r, hr, index_answer .., ?_, ?_⟩
  · cases r with
    | chunk c => simp [answer, chunkResponse]
    | complete c => simp [answer, finishResponse]
  · rw [text_answer, index_answer, text_foldl_add]

theorem isLast_iff {k i : Nat} :
    (∃ message, IsLast (streamLoop tokenizer fromStr ctx mode {} stream).1 k message ∧ message.index = i) ↔
      EndsAt (received stream) k i := by
  have hsome : ∀ {k' r}, (received stream)[k']? = some r →
      (streamLoop tokenizer fromStr ctx mode {} stream).1[k']? = some (answer fromStr ctx mode
        (((received stream).take (k' + 1)).foldl (Accumulated.add tokenizer) {}) r) := by
    intro k' r hr
    rw [streamLoop_getElem?, hr]
    rfl
  constructor
  · rintro ⟨message, ⟨hk, hfinish, hlater⟩, rfl⟩
    obtain ⟨r, hr, hindex, hcomplete, -⟩ := sent_getElem? hk
    obtain ⟨complete, rfl⟩ := hcomplete.mp hfinish
    refine ⟨⟨complete, hr, hindex.symm⟩, ?_⟩
    intro k' r' hlt hr'
    have hne := hlater k' _ hlt (hsome hr')
    rwa [index_answer] at hne
  · rintro ⟨⟨complete, hr, rfl⟩, hlater⟩
    refine ⟨_, ⟨hsome hr, rfl, ?_⟩, rfl⟩
    intro k' message' hlt hk'
    obtain ⟨r', hr', hindex', -, -⟩ := sent_getElem? hk'
    rw [hindex']
    exact hlater k' r' hlt hr'

/-- No chunk of an index comes after its last message. -/
theorem chunksOf_take {messages : List Received} {k i : Nat} (h : EndsAt messages k i) :
    chunksOf i (messages.take (k + 1)) = chunksOf i messages := by
  have hrest : chunksOf i (messages.drop (k + 1)) = [] := by
    refine List.filterMap_eq_nil_iff.mpr ?_
    intro message hmem
    obtain ⟨j, hj⟩ := List.getElem?_of_mem hmem
    rw [List.getElem?_drop] at hj
    have hne := h.2 (k + 1 + j) message (by omega) hj
    cases message with
    | complete c => rfl
    | chunk c => exact if_neg hne
  conv_rhs => rw [← take_append_drop (k + 1) messages, chunksOf, filterMap_append]
  change _ = chunksOf i (messages.take (k + 1)) ++ chunksOf i (messages.drop (k + 1))
  rw [hrest, append_nil]

/-- The chunks of an index are read apart as together exactly if they are aligned. -/
theorem flatMap_chunkText_iff {bytes : Nat → List UInt8}
    (htokenizer : ∀ tokenIds, tokenizer.decode tokenIds true = .ok (decoded bytes tokenIds))
    (messages : List Received) (i : Nat) :
    (chunksOf i messages).flatMap (chunkText tokenizer) = decoded bytes (chunksOf i messages).flatten ↔
      ChunksAligned bytes messages i := by
  have htext : chunkText tokenizer = fun tokenIds => fromUtf8Lossy (tokenIds.flatMap bytes) := by
    funext tokenIds
    rw [chunkText, htokenizer]
    rfl
  rw [ChunksAligned, ← Str.flatMap_fromUtf8Lossy_iff, htext, flatMap_map, decoded, flatten_eq_flatMap,
    flatMap_assoc, flatMap_def]
  rfl

/-- **One of the two functions.** -/
theorem streamLoop_decoded_iff {bytes : Nat → List UInt8}
    (htokenizer : ∀ tokenIds, tokenizer.decode tokenIds true = .ok (decoded bytes tokenIds)) :
    StreamsDecoded bytes stream (streamLoop tokenizer fromStr ctx mode {} stream).1 ↔
      ∀ k i, EndsAt (received stream) k i → ChunksAligned bytes (received stream) i := by
  constructor
  · intro h k i hends
    obtain ⟨message, hlast, rfl⟩ := isLast_iff.mpr hends
    obtain ⟨r, -, -, -, htext⟩ := sent_getElem? hlast.1
    rw [chunksOf_take hends, (h k message hlast).1] at htext
    exact (flatMap_chunkText_iff htokenizer _ _).mp htext.symm
  · intro h k message hlast
    have hends := isLast_iff.mp ⟨message, hlast, rfl⟩
    have hall := (flatMap_chunkText_iff htokenizer _ _).mpr (h k message.index hends)
    obtain ⟨r, -, -, -, htext⟩ := sent_getElem? hlast.1
    rw [chunksOf_take hends] at htext
    refine ⟨htext.trans hall, ?_⟩
    intro k' message' hlt hk' hindex
    obtain ⟨r', -, -, -, htext'⟩ := sent_getElem? hk'
    rw [htext', hindex, ← hall]
    obtain ⟨rest, hrest⟩ : chunksOf message.index ((received stream).take (k' + 1)) <+:
        chunksOf message.index (received stream) := (List.take_prefix _ _).filterMap _
    rw [← hrest, flatMap_append]
    exact prefix_append _ _

end Last

/-- **Texts do not depend on the chunks** exactly if no chunk of an index that is complete ends inside a
unit. -/
theorem streamsDecoded_iff (tokenizer : Tokenizer) (bytes : Nat → List UInt8)
    (htokenizer : ∀ tokenIds, tokenizer.decode tokenIds true = .ok (decoded bytes tokenIds))
    (fromStr : FromStr) (ctx : GenerateStreamContext) (inputTokenLogprobs : Option Rows)
    (stream : List Response) :
    (StreamsDecoded bytes stream (processGenerateStreaming tokenizer fromStr ctx stream).1 ↔
        ∀ k i, EndsAt (received stream) k i → ChunksAligned bytes (received stream) i) ∧
      (StreamsDecoded bytes stream
          (processGenerateStreamingWithInputLogprobs tokenizer fromStr ctx inputTokenLogprobs stream).1 ↔
        ∀ k i, EndsAt (received stream) k i → ChunksAligned bytes (received stream) i) :=
  ⟨streamLoop_decoded_iff htokenizer, streamLoop_decoded_iff htokenizer⟩

/-! ### A character of two tokens -/

/-- Two tokens that are the two bytes of a character. -/
def accentBytes : Nat → List UInt8
  | 0 => [0xc3]
  | 1 => [0xa9]
  | _ => []

def accentTokenizer : Tokenizer where
  decode tokenIds _ := .ok (decoded accentBytes tokenIds)

def noFromStr : FromStr where
  finishReason _ := none
  value _ := none

def stopResponse (index : Nat) : Response :=
  .ok (.complete { index := index, finishReason := "stop".toList })

def chunkOf (index : Nat) (tokenIds : List Nat) : Response :=
  .ok (.chunk { index := index, tokenIds := tokenIds })

/-- Two texts at once, and no character of theirs is cut. -/
def accentStream : List Response :=
  [chunkOf 0 [0, 1], chunkOf 1 [0, 1], chunkOf 0 [0, 1], stopResponse 1, stopResponse 0]

theorem streamsDecoded_accent :
    StreamsDecoded accentBytes accentStream
      (processGenerateStreaming accentTokenizer noFromStr { requestId := [] } accentStream).1 := by
  refine (streamsDecoded_iff accentTokenizer accentBytes (fun _ => rfl) noFromStr { requestId := [] } none
    accentStream).1.mpr ?_
  rintro k i ⟨⟨complete, hk, rfl⟩, -⟩
  obtain rfl | rfl : complete = { index := 1, finishReason := "stop".toList } ∨
      complete = { index := 0, finishReason := "stop".toList } := by
    simpa [accentStream, received, chunkOf, stopResponse] using mem_of_getElem? hk
  · exact Str.aligned_cons.mpr ⟨by decide, Str.aligned_nil⟩
  · exact Str.aligned_cons.mpr ⟨by decide, Str.aligned_cons.mpr ⟨by decide, Str.aligned_nil⟩⟩

/-- In two chunks the character is two that are not valid. -/
theorem accent_in_two_chunks :
    (processGenerateStreaming accentTokenizer noFromStr { requestId := [] }
        [chunkOf 0 [0], chunkOf 0 [1], stopResponse 0]).1.map Sent.text =
      [['\uFFFD'], ['\uFFFD', '\uFFFD'], ['\uFFFD', '\uFFFD']] ∧
    decoded accentBytes [0, 1] = ['é'] ∧
    ¬ StreamsDecoded accentBytes [chunkOf 0 [0], chunkOf 0 [1], stopResponse 0]
      (processGenerateStreaming accentTokenizer noFromStr { requestId := [] }
        [chunkOf 0 [0], chunkOf 0 [1], stopResponse 0]).1 := by
  refine ⟨by decide, by decide, ?_⟩
  intro h
  have hlast := (h 2 _ ⟨rfl, rfl, ?_⟩).1
  · exact absurd (congrArg List.length hlast) (by decide)
  · intro k' message' hlt hk'
    obtain ⟨j, rfl⟩ := Nat.exists_eq_add_of_lt hlt
    rw [List.getElem?_eq_none (by simp [processGenerateStreaming, streamLoop, chunkOf, stopResponse])] at hk'
    cases hk'

end QwenStack.Generate
