import QwenStack.Manual.ContentKey
import QwenStack.PdRouter.Logprobs
import QwenStack.Responses.Blocks
import QwenStack.Support.Lines

/-!
# Tool calls of a streamed response — the rewriting of a block

`gateway/src/routers/openai/responses/utils.rs` and `common.rs`: the blocks of a stream that is passed on
are read for their response, whose `store`, `previous_response_id` and `conversation` are set as in the
request, and written again with their other lines.

What is rewritten is the event of the block (`rewrite_refines`), for a block without blanks at its ends: a
block is trimmed first.  The reading of JSON is defined in another crate and is a parameter.
-/

namespace QwenStack.Responses
open JsonScan Lines List
open Manual (trim trimStart isWhitespace)
open PdRouter (trimStartMatches)

/-! ### Blocks -/

def isDataLine (line : Str) : Bool := "data:".toList.isPrefixOf line

/-- What a line gives for the name of the event. -/
def eventField (line : Str) : Option Str := (line.dropPrefix? "event:".toList).map trim

/-- What a line gives for the data. -/
def dataField (line : Str) : Option Str := (line.dropPrefix? "data:".toList).map trimStart

/-- `parse_sse_block`: the name is that of the last line that has one. -/
def parseSseBlock (block : Str) : Option Str × Str :=
  (((lines block).filterMap eventField).getLast?, join ((lines block).filterMap dataField))

/-- `extract_sse_data`; of a line every `data:` at its start is taken off. -/
def extractSseData (block : Str) : Option Str :=
  match ((lines block).filter isDataLine).map fun line =>
      trimStart (trimStartMatches "data:".toList line.length line) with
  | [] => none
  | line :: dataLines => some (join (line :: dataLines))

/-- The line of a payload. -/
def dataLine (newPayload : Str) : Str := "data: ".toList ++ newPayload

/-- The lines of `rebuild_sse_block`, from where data was written or not. -/
def rebuildLines (newPayload : Str) : Bool → List Str → List Str
  | dataWritten, [] => if dataWritten = true then [] else [dataLine newPayload]
  | dataWritten, line :: rest =>
      if isDataLine line = true then
        if dataWritten = true then rebuildLines newPayload true rest
        else dataLine newPayload :: rebuildLines newPayload true rest
      else line :: rebuildLines newPayload dataWritten rest

/-- `rebuild_sse_block`. -/
def rebuildSseBlock (block newPayload : Str) : Str :=
  join (rebuildLines newPayload false (lines block))

section Rewriting
variable (fromStr : Str → Option Value) (types : ProtocolTypes) (r : ResponsesRequest)
  (previousResponseId : Option Str)

/-- The `store` of a response is that of the request. -/
def storeIsSet (response : Value) : Bool :=
  match response.get "store".toList with
  | some (.bool store) => store == r.storeOrDefault
  | _ => false

/-- One of the three members is set. -/
def isChanged (response : Value) : Bool :=
  !storeIsSet r response ||
    (previousResponseId.isSome && isMissingOrEmpty (response.get "previous_response_id".toList)) ||
    r.conversation.isSome

/-- The response that is sent. -/
def rewriteResponse (response : Value) : Value :=
  insertConversation r
    (insertIfMissing "previous_response_id" previousResponseId (insertStore r response))

/-- The data that is sent. -/
def rewritePayload (parsed response : Value) : Value :=
  parsed.insert "response".toList (rewriteResponse r previousResponseId response)

/-- `rewrite_streaming_block`, of the text of a block. -/
def rewriteBlock (block : Str) : Option Str :=
  let trimmed := trim block
  if trimmed = [] then none
  else
    match (extractSseData trimmed).bind fromStr with
    | none => none
    | some parsed =>
        if types.isResponseEvent ((Value.getStr "type".toList parsed).getD []) = false then none
        else
          match parsed.get "response".toList with
          | some (.object entries) =>
              if isChanged r previousResponseId (.object entries) = true then
                some (rebuildSseBlock trimmed
                  (rewritePayload r previousResponseId parsed (.object entries)).render)
              else none
          | _ => none

/-- The event of a block. -/
def blockEvent (block : Str) : Event where
  eventName := (parseSseBlock block).1
  data := fromStr (parseSseBlock block).2

/-- The members of a response that is sent are those of another, but for three: `store` is that of the
request, the previous response is filled in where there is none, and the conversation is that of the
request. -/
structure Filled (response sent : Value) : Prop where
  store : sent.get "store".toList = some (.bool r.storeOrDefault)
  previous : sent.get "previous_response_id".toList =
    if isMissingOrEmpty (response.get "previous_response_id".toList) = true then
      (previousResponseId.map Value.string).or (response.get "previous_response_id".toList)
    else response.get "previous_response_id".toList
  conversation : sent.get "conversation".toList =
    (r.conversation.map fun id => Value.ofMembers [("id", .string id)]).or
      (response.get "conversation".toList)
  others : ∀ key, key ≠ "store".toList → key ≠ "previous_response_id".toList →
    key ≠ "conversation".toList → sent.get key = response.get key

/-- **The property** of a block that is written for another: it is read as the same event but for the
response, has the same other lines, and what is stored of the response is the same. -/
structure Rewrites (block written : Str) (parsed : Value) : Prop where
  eventName : (parseSseBlock written).1 = (parseSseBlock block).1
  otherLines : (written.splitOn '\n').filter (fun line => !isDataLine line) =
    (lines block).filter fun line => !isDataLine line
  payload : ∃ payload response sent, fromStr (parseSseBlock written).2 = some payload ∧
    parsed.get "response".toList = some response ∧ payload.get "response".toList = some sent ∧
    (∀ key, key ≠ "response".toList → payload.get key = parsed.get key) ∧
    Filled r previousResponseId response sent ∧
    ∀ key, (patchResponseWithRequestMetadata r previousResponseId sent).get key =
      (patchResponseWithRequestMetadata r previousResponseId response).get key

end Rewriting

/-! ### Fields of lines -/

theorem dropPrefix?_eq_some {p line rest : Str} :
    line.dropPrefix? p = some rest ↔ line = p ++ rest := by
  rw [List.dropPrefix?_eq_some_iff]
  refine ⟨fun ⟨p', hline, hp⟩ => ?_, fun h => ⟨p, h, by simp⟩⟩
  rw [hline, eq_of_beq hp]

theorem isDataLine_iff {line : Str} : isDataLine line = true ↔ ∃ rest, line = "data:".toList ++ rest := by
  rw [isDataLine, isPrefixOf_iff_prefix]
  exact ⟨fun ⟨rest, h⟩ => ⟨rest, h.symm⟩, fun ⟨rest, h⟩ => ⟨rest, h.symm⟩⟩

theorem dataField_of_not {line : Str} (h : isDataLine line = false) : dataField line = none := by
  rw [dataField, Option.map_eq_none_iff]
  refine Option.eq_none_iff_forall_ne_some.mpr fun rest hrest => ?_
  exact Bool.false_ne_true (h.symm.trans (isDataLine_iff.mpr ⟨rest, dropPrefix?_eq_some.mp hrest⟩))

theorem dataField_append (rest : Str) : dataField ("data:".toList ++ rest) = some (trimStart rest) := by
  rw [dataField, dropPrefix?_eq_some.mpr rfl]
  rfl

theorem eventField_of_data {line : Str} (h : isDataLine line = true) : eventField line = none := by
  obtain ⟨rest, rfl⟩ := isDataLine_iff.mp h
  rw [eventField, Option.map_eq_none_iff]
  refine Option.eq_none_iff_forall_ne_some.mpr fun rest' hrest => ?_
  have heq := dropPrefix?_eq_some.mp hrest
  exact absurd (head_eq_of_cons_eq heq) (by decide)

theorem trim_append_cr (s : Str) : trim (s ++ ['\r']) = trim s := by
  by_cases h : trimStart s = []
  · have hs : ∀ c ∈ s, isWhitespace c = true := List.dropWhile_eq_nil_iff.mp h
    have hcr : trimStart (s ++ ['\r']) = [] := List.dropWhile_eq_nil_iff.mpr fun c hc => by
      rcases List.mem_append.mp hc with hc | hc
      · exact hs c hc
      · exact List.mem_singleton.mp hc ▸ by decide
    rw [Manual.trim_eq, Manual.trim_eq, h, hcr]
  · refine Manual.trim_append_blank h fun c hc => ?_
    exact List.mem_singleton.mp hc ▸ by decide

/-- A CR at the end of a line is not read. -/
theorem eventField_stripCr (line : Str) : eventField (stripCr line) = eventField line := by
  rw [stripCr]
  split
  · next hlast =>
    obtain ⟨init, rfl⟩ := List.getLast?_eq_some_iff.mp hlast
    rw [dropLast_concat, eventField, eventField]
    cases hrest : init.dropPrefix? "event:".toList with
    | some rest =>
      rw [dropPrefix?_eq_some.mp hrest, append_assoc, dropPrefix?_eq_some.mpr rfl,
        Option.map_some, Option.map_some, trim_append_cr]
    | none =>
      rw [eq_comm, Option.map_none, Option.map_eq_none_iff]
      refine Option.eq_none_iff_forall_ne_some.mpr fun rest' hrest' => ?_
      have heq := dropPrefix?_eq_some.mp hrest'
      cases rest' using List.reverseRecOn with
      | nil =>
        rw [append_nil] at heq
        exact absurd (congrArg List.getLast? heq) (by rw [List.getLast?_concat]; decide)
      | append_singleton rest c =>
        rw [← append_assoc] at heq
        rw [(append_inj' heq rfl).1, dropPrefix?_eq_some.mpr rfl] at hrest
        cases hrest
  · rfl

/-! ### Lines that are rebuilt -/

section Rebuilt
variable (newPayload : Str)

theorem isDataLine_dataLine : isDataLine (dataLine newPayload) = true :=
  isDataLine_iff.mpr ⟨' ' :: newPayload, rfl⟩

/-- The lines without data stay. -/
theorem filter_rebuildLines (dataWritten : Bool) (ls : List Str) :
    (rebuildLines newPayload dataWritten ls).filter (fun line => !isDataLine line) =
      ls.filter fun line => !isDataLine line := by
  induction ls generalizing dataWritten with
  | nil =>
    rw [rebuildLines]
    split
    · rfl
    · rw [filter_cons_of_neg (by rw [isDataLine_dataLine]; decide)]
  | cons line rest ih =>
    rw [rebuildLines]
    split
    · next hdata =>
      rw [filter_cons_of_neg (by rw [hdata]; decide)]
      split
      · exact ih true
      · rw [filter_cons_of_neg (by rw [isDataLine_dataLine]; decide), ih]
    · next hdata =>
      rw [filter_cons, filter_cons, ih]

/-- A field that data lines have not. -/
theorem filterMap_rebuildLines {f : Str → Option Str}
    (h : ∀ line, isDataLine line = true → f line = none) (dataWritten : Bool) (ls : List Str) :
    (rebuildLines newPayload dataWritten ls).filterMap f = ls.filterMap f := by
  have hskip : ∀ ls : List Str, ls.filterMap f =
      (ls.filter fun line => !isDataLine line).filterMap f := by
    intro ls
    induction ls with
    | nil => rfl
    | cons line rest ih =>
      cases hdata : isDataLine line with
      | true =>
        rw [filter_cons_of_neg (by rw [hdata]; decide), filterMap_cons_none (h line hdata), ih]
      | false =>
        rw [filter_cons_of_pos (by rw [hdata]; rfl), filterMap_cons, filterMap_cons, ih]
  rw [hskip, filter_rebuildLines, ← hskip]

/-- The data is that of one line. -/
theorem filterMap_dataField_rebuildLines (dataWritten : Bool) (ls : List Str) :
    (rebuildLines newPayload dataWritten ls).filterMap dataField =
      if dataWritten = true then [] else [trimStart (' ' :: newPayload)] := by
  have hline : dataField (dataLine newPayload) = some (trimStart (' ' :: newPayload)) :=
    dataField_append (' ' :: newPayload)
  induction ls generalizing dataWritten with
  | nil =>
    rw [rebuildLines]
    split
    · rfl
    · rw [filterMap_cons_some hline, filterMap_nil]
  | cons line rest ih =>
    rw [rebuildLines]
    split
    · split
      · rw [ih, if_pos rfl]
      · rw [filterMap_cons_some hline, ih, if_pos rfl]
    · next hdata =>
      rw [filterMap_cons_none (dataField_of_not (Bool.eq_false_iff.mpr hdata)), ih]

theorem mem_rebuildLines {dataWritten : Bool} {ls : List Str} {line : Str}
    (h : line ∈ rebuildLines newPayload dataWritten ls) :
    line = dataLine newPayload ∨ line ∈ ls ∧ isDataLine line = false := by
  cases hdata : isDataLine line with
  | false =>
    right
    have hmem : line ∈ (rebuildLines newPayload dataWritten ls).filter fun line => !isDataLine line :=
      List.mem_filter.mpr ⟨h, by rw [hdata]; rfl⟩
    rw [filter_rebuildLines] at hmem
    exact ⟨(List.mem_filter.mp hmem).1, rfl⟩
  | true =>
    left
    induction ls generalizing dataWritten with
    | nil =>
      rw [rebuildLines] at h
      split at h
      · cases h
      · exact List.mem_singleton.mp h
    | cons line' rest ih =>
      rw [rebuildLines] at h
      split at h
      · split at h
        · exact ih h
        · rcases List.mem_cons.mp h with h | h
          · exact h
          · exact ih h
      · next hdata' =>
        rcases List.mem_cons.mp h with rfl | h
        · exact absurd hdata hdata'
        · exact ih h

theorem rebuildLines_ne_nil {ls : List Str} : rebuildLines newPayload false ls ≠ [] := by
  intro h
  have hdata := filterMap_dataField_rebuildLines newPayload false ls
  rw [h] at hdata
  cases hdata

/-- **What is rebuilt** is read with the same name and the new payload, and has the other lines. -/
theorem rebuildSseBlock_parsed (block : Str) (hline : '\n' ∉ newPayload)
    (hcr : newPayload.getLast? ≠ some '\r') (hstart : trimStart newPayload = newPayload) :
    parseSseBlock (rebuildSseBlock block newPayload) = ((parseSseBlock block).1, newPayload) ∧
      ((rebuildSseBlock block newPayload).splitOn '\n').filter (fun line => !isDataLine line) =
        (lines block).filter fun line => !isDataLine line := by
  have hlines : ∀ line ∈ rebuildLines newPayload false (lines block), '\n' ∉ line := by
    intro line hmem
    rcases mem_rebuildLines newPayload hmem with rfl | ⟨hmem, -⟩
    · exact fun h => (List.mem_append.mp h).elim (by decide) hline
    · exact not_mem_of_mem_lines hmem
  have hdata : ∀ line ∈ rebuildLines newPayload false (lines block),
      dataField (stripCr line) = dataField line := by
    intro line hmem
    rcases mem_rebuildLines newPayload hmem with rfl | ⟨-, hnot⟩
    · have hlast : (dataLine newPayload).getLast? = newPayload.getLast?.or (some ' ') :=
        List.getLast?_append
      rw [stripCr, if_neg]
      rw [hlast]
      cases hpayload : newPayload.getLast? with
      | none => decide
      | some c => exact fun h => hcr (hpayload.trans h)
    · refine (dataField_of_not ?_).trans (dataField_of_not hnot).symm
      refine Bool.eq_false_iff.mpr fun h => Bool.false_ne_true (hnot.symm.trans ?_)
      rw [isDataLine, isPrefixOf_iff_prefix] at h ⊢
      exact h.trans (stripCr_isPrefix line)
  have hname : (lines (rebuildSseBlock block newPayload)).filterMap eventField =
      (lines block).filterMap eventField := by
    rw [rebuildSseBlock, filterMap_lines_join hlines (fun line _ => eventField_stripCr line) rfl]
    exact filterMap_rebuildLines newPayload (fun line h => eventField_of_data h) ..
  have hpayload : (lines (rebuildSseBlock block newPayload)).filterMap dataField = [newPayload] := by
    rw [rebuildSseBlock, filterMap_lines_join hlines hdata rfl, filterMap_dataField_rebuildLines,
      if_neg Bool.false_ne_true]
    exact congrArg (fun data => [data]) hstart
  refine ⟨?_, ?_⟩
  · rw [parseSseBlock, hname, hpayload, join_singleton]
    rfl
  · rw [rebuildSseBlock, splitOn_join hlines (rebuildLines_ne_nil newPayload), filter_rebuildLines]

end Rebuilt

/-! ### The data of a block -/

theorem inner_d : Inner 'd' where
  start _ := rfl
  after stack := by
    cases stack with
    | nil => rfl
    | cons frame stack => cases frame <;> rfl
  space := rfl
  other := by decide

theorem trimStartMatches_data {rest : Str} (h : ¬ "data:".toList <+: rest) :
    trimStartMatches "data:".toList ("data:".toList ++ rest).length ("data:".toList ++ rest) = rest := by
  have hlength : ("data:".toList ++ rest).length = rest.length + 4 + 1 := by
    rw [length_append, Nat.add_comm]
    rfl
  rw [hlength, trimStartMatches, if_pos (prefix_append _ _), drop_left, trimStartMatches, if_neg h]

/-- **The data is read alike** where it is JSON. -/
theorem extractSseData_eq {block : Str} (h : isJson (parseSseBlock block).2 = true) :
    extractSseData block = some (parseSseBlock block).2 := by
  have hheads := head_ne_of_isJson_join inner_d h
  have hread : ∀ ls : List Str, (∀ field ∈ ls.filterMap dataField, field.head? ≠ some 'd') →
      ((ls.filter isDataLine).map fun line =>
        trimStart (trimStartMatches "data:".toList line.length line)) = ls.filterMap dataField := by
    intro ls hls
    induction ls with
    | nil => rfl
    | cons line ls ih =>
      cases hdata : isDataLine line with
      | false =>
        rw [filter_cons_of_neg (by rw [hdata]; decide), filterMap_cons_none (dataField_of_not hdata)]
        rw [filterMap_cons_none (dataField_of_not hdata)] at hls
        exact ih hls
      | true =>
        obtain ⟨rest, rfl⟩ := isDataLine_iff.mp hdata
        rw [filterMap_cons_some (dataField_append rest), forall_mem_cons] at hls
        have hrest : ¬ "data:".toList <+: rest := by
          rintro ⟨more, rfl⟩
          exact hls.1 rfl
        rw [filter_cons_of_pos hdata, map_cons, trimStartMatches_data hrest,
          filterMap_cons_some (dataField_append rest), ih hls.2]
  rw [extractSseData, hread _ hheads]
  split
  · next hnil =>
    rw [parseSseBlock, hnil] at h
    exact absurd h (show ¬ isJson [] = true by decide)
  · next line dataLines hcons => rw [parseSseBlock, hcons]

/-! ### The members of a response -/

/-- What a change of an object does to each of its members. -/
structure Acts (f : Value → Value) (member : Str → Option Value → Option Value) : Prop where
  get : ∀ v : Value, v.isObject = true → ∀ key, (f v).get key = member key (v.get key)
  isObject : ∀ v, (f v).isObject = v.isObject

/-- One member is changed. -/
def atKey (key : String) (change : Option Value → Option Value) (key' : Str) (v : Option Value) :
    Option Value :=
  if key' = key.toList then change v else v

section AtKey
variable {key : String} (change : Option Value → Option Value) (v : Option Value)

theorem atKey_self : atKey key change key.toList v = change v := if_pos rfl

theorem atKey_literal {key' : String} (h : key' ≠ key) : atKey key change key'.toList v = v :=
  if_neg fun heq => h (String.toList_inj.mp heq)

theorem atKey_of_ne {key' : Str} (h : key' ≠ key.toList) : atKey key change key' v = v := if_neg h

end AtKey

/-- A text where there is none. -/
def fillText (value : Option Str) (v : Option Value) : Option Value :=
  if isMissingOrEmpty v = true then (value.map Value.string).or v else v

theorem fillText_fillText (value : Option Str) (v : Option Value) :
    fillText value (fillText value v) = fillText value v := by
  unfold fillText
  cases hmissing : isMissingOrEmpty v with
  | false => rw [if_neg Bool.false_ne_true, hmissing, if_neg Bool.false_ne_true]
  | true =>
    rw [if_pos rfl]
    cases value with
    | none => exact if_pos hmissing
    | some s =>
      split
      · rfl
      · rfl

/-- The user where the identifier is `null`. -/
def fillUser (user : Option Str) (v : Option Value) : Option Value :=
  match user, v with
  | some user, some .null => some (.string user)
  | _, v => v

section Members
variable (r : ResponsesRequest) (previousResponseId : Option Str) (key : Str) (v : Option Value)

def fillConversation : Option Value :=
  (r.conversation.map fun id => Value.ofMembers [("id", .string id)]).or v

def fillMetadata : Option Value :=
  if isMissingOrEmpty v = true then (r.metadata.map Value.object).or v else v

/-- A member of a patched response. -/
def patchMember : Option Value :=
  atKey "conversation" (fillConversation r) key <| atKey "safety_identifier" (fillUser r.user) key <|
    atKey "model" (fillText (some r.model)) key <|
    atKey "store" (fun _ => some (.bool r.storeOrDefault)) key <|
    atKey "metadata" (fillMetadata r) key <| atKey "instructions" (fillText r.instructions) key <|
    atKey "previous_response_id" (fillText previousResponseId) key v

/-- A member of a response that is sent. -/
def rewriteMember : Option Value :=
  atKey "conversation" (fillConversation r) key <|
    atKey "previous_response_id" (fillText previousResponseId) key <|
    atKey "store" (fun _ => some (.bool r.storeOrDefault)) key v

end Members

namespace Acts
variable {f g : Value → Value} {m m' : Str → Option Value → Option Value}

theorem comp (hf : Acts f m) (hg : Acts g m') :
    Acts (fun v => f (g v)) fun key v => m key (m' key v) where
  get v hv key := by rw [hf.get (g v) ((hg.isObject v).trans hv), hg.get v hv]
  isObject v := (hf.isObject (g v)).trans (hg.isObject v)

theorem insert (key : String) (value : Value) :
    Acts (fun v => v.insert key.toList value) (atKey key fun _ => some value) where
  get v hv key' := by
    rw [atKey]
    split
    · next hkey => rw [hkey, Value.get_insert_self _ hv]
    · next hkey => exact Value.get_insert_of_ne _ _ hkey
  isObject _ := Value.isObject_insert ..

/-- A member is set to what becomes of it, or nothing is done. -/
theorem of_insert {key : String} {change : Option Value → Option Value}
    (h : ∀ v, (∃ value, f v = v.insert key.toList value ∧ change (v.get key.toList) = some value) ∨
      (f v = v ∧ change (v.get key.toList) = v.get key.toList)) : Acts f (atKey key change) where
  get v hv key' := by
    rw [atKey]
    rcases h v with ⟨value, hf, hchange⟩ | ⟨hf, hchange⟩
    · rw [hf]
      split
      · next hkey => rw [hkey, Value.get_insert_self _ hv, hchange]
      · next hkey => exact Value.get_insert_of_ne _ _ hkey
    · rw [hf]
      split
      · next hkey => rw [hkey, hchange]
      · rfl
  isObject v := by
    rcases h v with ⟨value, hf, -⟩ | ⟨hf, -⟩
    · rw [hf, Value.isObject_insert]
    · rw [hf]

theorem insertIfMissing (key : String) (value : Option Str) :
    Acts (Responses.insertIfMissing key value) (atKey key (fillText value)) := by
  refine of_insert fun v => ?_
  cases value with
  | none => exact .inr ⟨rfl, ite_self _⟩
  | some s =>
    cases hmissing : isMissingOrEmpty (v.get key.toList) with
    | true => exact .inl ⟨_, if_pos hmissing, if_pos hmissing⟩
    | false =>
      have hnot := Bool.eq_false_iff.mp hmissing
      exact .inr ⟨if_neg hnot, if_neg hnot⟩

variable (r : ResponsesRequest)

theorem store : Acts (insertStore r) (atKey "store" fun _ => some (.bool r.storeOrDefault)) :=
  insert "store" _

theorem conversation : Acts (insertConversation r) (atKey "conversation" (fillConversation r)) := by
  refine of_insert fun v => ?_
  cases hid : r.conversation with
  | none => exact .inr ⟨by rw [insertConversation, hid], by rw [fillConversation, hid]; rfl⟩
  | some id => exact .inl ⟨_, by rw [insertConversation, hid], by rw [fillConversation, hid]; rfl⟩

theorem metadata : Acts (insertMetadata r) (atKey "metadata" (fillMetadata r)) := by
  refine of_insert fun v => ?_
  cases hmissing : isMissingOrEmpty (v.get "metadata".toList) with
  | false =>
    have hnot := Bool.eq_false_iff.mp hmissing
    exact .inr ⟨if_neg hnot, if_neg hnot⟩
  | true =>
    cases hentries : r.metadata with
    | none => exact .inr ⟨(if_pos hmissing).trans (by rw [hentries]),
        (if_pos hmissing).trans (by rw [hentries]; rfl)⟩
    | some entries => exact .inl ⟨_, (if_pos hmissing).trans (by rw [hentries]),
        (if_pos hmissing).trans (by rw [hentries]; rfl)⟩

theorem user : Acts (insertUser r) (atKey "safety_identifier" (fillUser r.user)) := by
  refine of_insert fun v => ?_
  rw [insertUser]
  split
  · next user huser hnull => exact .inl ⟨_, rfl, by rw [huser, hnull]; rfl⟩
  · next hnone =>
    refine .inr ⟨rfl, ?_⟩
    unfold fillUser
    split
    · next user huser hnull => exact absurd hnull (hnone _ huser)
    · rfl

theorem patch (previousResponseId : Option Str) :
    Acts (patchResponseWithRequestMetadata r previousResponseId) (patchMember r previousResponseId) :=
  (conversation r).comp ((user r).comp ((insertIfMissing "model" (some r.model)).comp
    ((store r).comp ((metadata r).comp ((insertIfMissing "instructions" r.instructions).comp
      (insertIfMissing "previous_response_id" previousResponseId))))))

theorem rewrite (previousResponseId : Option Str) :
    Acts (rewriteResponse r previousResponseId) (rewriteMember r previousResponseId) :=
  (conversation r).comp ((insertIfMissing "previous_response_id" previousResponseId).comp (store r))

end Acts

/-- **The two agree**: to patch a response after it was rewritten is to patch it. -/
theorem patchMember_rewriteMember (r : ResponsesRequest) (previousResponseId : Option Str) (key : Str)
    (v : Option Value) : patchMember r previousResponseId key
      (rewriteMember r previousResponseId key v) = patchMember r previousResponseId key v := by
  by_cases hprevious : key = "previous_response_id".toList
  · subst hprevious
    simp (disch := decide) only [patchMember, rewriteMember, atKey_self, atKey_literal,
      fillText_fillText]
  by_cases hstore : key = "store".toList
  · subst hstore
    simp (disch := decide) only [patchMember, rewriteMember, atKey_self, atKey_literal]
  by_cases hconversation : key = "conversation".toList
  · subst hconversation
    simp (disch := decide) only [patchMember, rewriteMember, atKey_self, atKey_literal]
    unfold fillConversation
    cases r.conversation <;> rfl
  · simp only [patchMember, rewriteMember, atKey_of_ne _ _ hprevious, atKey_of_ne _ _ hstore,
      atKey_of_ne _ _ hconversation]

theorem filled_rewriteResponse (r : ResponsesRequest) (previousResponseId : Option Str)
    {response : Value} (h : response.isObject = true) :
    Filled r previousResponseId response (rewriteResponse r previousResponseId response) := by
  have hget := (Acts.rewrite r previousResponseId).get response h
  constructor
  · rw [hget]
    simp (disch := decide) only [rewriteMember, atKey_self, atKey_literal]
  · rw [hget]
    simp (disch := decide) only [rewriteMember, atKey_self, atKey_literal, fillText]
  · rw [hget]
    simp (disch := decide) only [rewriteMember, atKey_self, atKey_literal, fillConversation]
  · intro key hstore hprevious hconversation
    rw [hget]
    simp only [rewriteMember, atKey_of_ne _ _ hprevious, atKey_of_ne _ _ hstore,
      atKey_of_ne _ _ hconversation]

/-! ### The block that is written -/

/-- What is read is JSON. -/
structure ReadsJson (fromStr : Str → Option Value) : Prop where
  json : ∀ text v, fromStr text = some v → isJson text = true
  sound : ∀ text v, fromStr text = some v → v.Sound

theorem insert_of_not_object {obj : Value} (key : Str) (v : Value) (h : obj.isObject = false) :
    obj.insert key v = obj := by
  cases obj with
  | object entries => cases h
  | _ => rfl

section Outcome
variable {fromStr : Str → Option Value} {types : ProtocolTypes} {r : ResponsesRequest}
  {previousResponseId : Option Str} {block : Str} {parsed response : Value}

/-- What is no object stays as it is. -/
theorem rewriteResponse_of_not_object (h : response.isObject = false) :
    rewriteResponse r previousResponseId response = response := by
  have hmissing : ∀ value, insertIfMissing "previous_response_id" value response = response := by
    intro value
    unfold insertIfMissing
    cases value with
    | none => rfl
    | some s =>
      dsimp only
      rw [insert_of_not_object _ _ h, ite_self]
  unfold rewriteResponse insertStore
  rw [insert_of_not_object _ _ h, hmissing]
  unfold insertConversation
  cases r.conversation with
  | none => rfl
  | some id => exact insert_of_not_object _ _ h

theorem rewriteResponse_of_unchanged (h : isChanged r previousResponseId response = false) :
    rewriteResponse r previousResponseId response = response := by
  rw [isChanged, Bool.or_eq_false_iff, Bool.or_eq_false_iff, Bool.not_eq_false'] at h
  obtain ⟨⟨hstore, hprevious⟩, hconversation⟩ := h
  have hstore : insertStore r response = response := by
    refine Value.insert_of_get ?_
    rw [storeIsSet] at hstore
    split at hstore
    · next store hget => rw [hget, eq_of_beq hstore]
    · cases hstore
  have hprevious : insertIfMissing "previous_response_id" previousResponseId response = response := by
    unfold insertIfMissing
    cases previousResponseId with
    | none => rfl
    | some s => exact if_neg (Bool.eq_false_iff.mp hprevious)
  rw [rewriteResponse, hstore, hprevious, insertConversation]
  cases hid : r.conversation with
  | none => rfl
  | some id =>
    rw [hid] at hconversation
    cases hconversation

/-- What becomes of a block with data. -/
inductive Outcome (types : ProtocolTypes) (r : ResponsesRequest) (previousResponseId : Option Str)
    (block : Str) (parsed : Value) : Option Str → Prop where
  | ignored
      (htype : types.isResponseEvent ((Value.getStr "type".toList parsed).getD []) = false) :
      Outcome types r previousResponseId block parsed none
  | absent (hresponse : ∀ response, parsed.get "response".toList = some response →
      response.isObject = false) : Outcome types r previousResponseId block parsed none
  | unchanged {response : Value} (hresponse : parsed.get "response".toList = some response)
      (hobject : response.isObject = true)
      (hchanged : isChanged r previousResponseId response = false) :
      Outcome types r previousResponseId block parsed none
  | written {response : Value}
      (htype : types.isResponseEvent ((Value.getStr "type".toList parsed).getD []) = true)
      (hresponse : parsed.get "response".toList = some response)
      (hobject : response.isObject = true) :
      Outcome types r previousResponseId block parsed
        (some (rebuildSseBlock (trim block) (rewritePayload r previousResponseId parsed response).render))

theorem outcome (types : ProtocolTypes) (r : ResponsesRequest) (previousResponseId : Option Str)
    (hreads : ReadsJson fromStr) (hdata : fromStr (parseSseBlock (trim block)).2 = some parsed) :
    Outcome types r previousResponseId block parsed
      (rewriteBlock fromStr types r previousResponseId block) := by
  have hjson := hreads.json _ _ hdata
  have hblock : trim block ≠ [] := by
    intro hnil
    rw [hnil] at hjson
    exact absurd hjson (by decide)
  rw [rewriteBlock, if_neg hblock, extractSseData_eq hjson, Option.bind_some, hdata]
  dsimp only
  split
  · next htype => exact .ignored htype
  · next htype =>
    have htype := Bool.not_eq_false _ ▸ htype
    split
    · next entries hresponse =>
      split
      · exact .written htype hresponse rfl
      · next hchanged =>
        exact .unchanged hresponse rfl (Bool.not_eq_true _ ▸ hchanged)
    · next hnone =>
      refine .absent fun response hresponse => ?_
      cases response with
      | object entries => exact absurd hresponse (hnone entries)
      | _ => rfl

/-- The text of an object is one line of data. -/
theorem render_object {v : Value} (hobject : v.isObject = true) (hsound : v.Sound) :
    '\n' ∉ v.render ∧ v.render.getLast? ≠ some '\r' ∧ trimStart v.render = v.render := by
  refine ⟨fun hmem => absurd (Value.printable_render v hsound _ hmem) (by decide), ?_, ?_⟩
  · cases v with
    | object entries =>
      have hlast : (Value.object entries).render.getLast? = some '\x7d' :=
        List.getLast?_concat (l := '\x7b' :: Value.separated (Value.renderEntries entries))
      rw [hlast]
      decide
    | _ => cases hobject
  · cases v with
    | object entries => exact dropWhile_cons_of_neg (by decide)
    | _ => cases hobject

theorem sound_rewritePayload (hsound : parsed.Sound)
    (hresponse : parsed.get "response".toList = some response) :
    (rewritePayload r previousResponseId parsed response).Sound :=
  hsound.insert _ (sound_insertConversation (sound_insertIfMissing
    ((hsound.get hresponse).insert _ (Value.sound_bool _)) _ _) r)

/-- The block that is written is read as the event with the new payload. -/
theorem parseSseBlock_written (hsound : parsed.Sound)
    (hresponse : parsed.get "response".toList = some response) (block : Str) :
    parseSseBlock (rebuildSseBlock block (rewritePayload r previousResponseId parsed response).render) =
        ((parseSseBlock block).1, (rewritePayload r previousResponseId parsed response).render) ∧
      ((rebuildSseBlock block (rewritePayload r previousResponseId parsed response).render).splitOn
          '\n').filter (fun line => !isDataLine line) =
        (lines block).filter fun line => !isDataLine line := by
  have hobject : (rewritePayload r previousResponseId parsed response).isObject = true :=
    (Value.isObject_insert ..).trans (Value.isObject_of_get hresponse)
  obtain ⟨hline, hcr, hstart⟩ := render_object hobject (sound_rewritePayload hsound hresponse)
  exact rebuildSseBlock_parsed _ block hline hcr hstart

end Outcome

/-- **The text of a block and its event**: what is written is read as the event is rewritten. -/
theorem rewrite_refines {fromStr : Str → Option Value} (types : ProtocolTypes) (r : ResponsesRequest)
    (previousResponseId : Option Str) (block : Str) {parsed : Value} (hreads : ReadsJson fromStr)
    (hdata : fromStr (parseSseBlock (trim block)).2 = some parsed)
    (hback : ∀ response, parsed.get "response".toList = some response →
      fromStr (rewritePayload r previousResponseId parsed response).render =
        some (rewritePayload r previousResponseId parsed response)) :
    blockEvent fromStr ((rewriteBlock fromStr types r previousResponseId block).getD (trim block)) =
      rewriteStreamingBlock types r previousResponseId (blockEvent fromStr (trim block)) := by
  have hevent : rewriteStreamingBlock types r previousResponseId (blockEvent fromStr (trim block)) =
      if types.isResponseEvent ((Value.getStr "type".toList parsed).getD []) = false then
        { eventName := (parseSseBlock (trim block)).1, data := some parsed }
      else
        { eventName := (parseSseBlock (trim block)).1
          data := some (((parsed.get "response".toList).map
            (rewritePayload r previousResponseId parsed)).getD parsed) } := by
    rw [rewriteStreamingBlock, blockEvent, hdata]
    dsimp only
    split
    · rfl
    · cases parsed.get "response".toList <;> rfl
  have hkept : ({ eventName := (parseSseBlock (trim block)).1, data := some parsed } : Event) =
      blockEvent fromStr (trim block) := by rw [blockEvent, hdata]
  have hsame : ∀ response, parsed.get "response".toList = some response →
      rewriteResponse r previousResponseId response = response →
      rewritePayload r previousResponseId parsed response = parsed := fun response hresponse hrewrite => by
    rw [rewritePayload, hrewrite]
    exact Value.insert_of_get hresponse
  have houtcome := outcome types r previousResponseId hreads hdata
  rw [hevent]
  generalize rewriteBlock fromStr types r previousResponseId block = written at houtcome
  cases houtcome with
  | ignored htype => rw [if_pos htype, hkept, Option.getD_none]
  | absent hresponse =>
    rw [Option.getD_none, ← hkept]
    split
    · rfl
    · cases hget : parsed.get "response".toList with
      | none => rfl
      | some response =>
        rw [Option.map_some, Option.getD_some,
          hsame response hget (rewriteResponse_of_not_object (hresponse response hget))]
  | unchanged hresponse hobject hchanged =>
    rw [Option.getD_none, ← hkept, hresponse, Option.map_some, Option.getD_some,
      hsame _ hresponse (rewriteResponse_of_unchanged hchanged), ite_self]
  | written htype hresponse hobject =>
    rw [if_neg (by rw [htype]; decide), hresponse, Option.map_some, Option.getD_some,
      Option.getD_some, blockEvent, (parseSseBlock_written (hreads.sound _ _ hdata) hresponse _).1,
      hback _ hresponse]

/-- **The rewriting of a block**: what is written differs from the trimmed block only in the three members
of its response, and what is stored of the two is the same; where nothing is written the members are as
they are to be, or the block is not of a response. -/
theorem rewritten (fromStr : Str → Option Value) (types : ProtocolTypes) (r : ResponsesRequest)
    (previousResponseId : Option Str) (block : Str) (parsed : Value) (hreads : ReadsJson fromStr)
    (hdata : fromStr (parseSseBlock (trim block)).2 = some parsed)
    (hback : ∀ response, parsed.get "response".toList = some response →
      fromStr (rewritePayload r previousResponseId parsed response).render =
        some (rewritePayload r previousResponseId parsed response)) :
    (∀ written, rewriteBlock fromStr types r previousResponseId block = some written →
      Rewrites fromStr r previousResponseId (trim block) written parsed) ∧
    (rewriteBlock fromStr types r previousResponseId block = none →
      types.isResponseEvent ((Value.getStr "type".toList parsed).getD []) = false ∨
      (∀ response, parsed.get "response".toList = some response → response.isObject = false) ∨
      ∃ response, parsed.get "response".toList = some response ∧
        Filled r previousResponseId response response) := by
  have houtcome := outcome types r previousResponseId hreads hdata
  generalize rewriteBlock fromStr types r previousResponseId block = written at houtcome
  refine ⟨fun b hb => ?_, fun hnone => ?_⟩
  · subst hb
    cases houtcome with
    | @written response htype hresponse hobject =>
      obtain ⟨hparsed, hlines⟩ := parseSseBlock_written (r := r)
        (hreads.sound _ _ hdata) hresponse (trim block)
      refine ⟨by rw [hparsed], hlines, rewritePayload r previousResponseId parsed response, response,
        rewriteResponse r previousResponseId response, ?_, hresponse, ?_, ?_,
        filled_rewriteResponse r previousResponseId hobject, ?_⟩
      · rw [hparsed]
        exact hback response hresponse
      · exact Value.get_insert_self _ (Value.isObject_of_get hresponse)
      · exact fun key hkey => Value.get_insert_of_ne _ _ hkey
      · intro key
        have hrewrite := Acts.rewrite r previousResponseId
        rw [(Acts.patch r previousResponseId).get _ ((hrewrite.isObject response).trans hobject),
          hrewrite.get response hobject, patchMember_rewriteMember,
          (Acts.patch r previousResponseId).get response hobject]
  · subst hnone
    cases houtcome with
    | ignored htype => exact .inl htype
    | absent hresponse => exact .inr (.inl hresponse)
    | @unchanged response hresponse hobject hchanged =>
      refine .inr (.inr ⟨response, hresponse, ?_⟩)
      have hfilled := filled_rewriteResponse r previousResponseId hobject
      rwa [rewriteResponse_of_unchanged hchanged] at hfilled

/-! ### Blocks of two types -/

/-- An event with an empty response. -/
def responseEvent (type : String) : Value :=
  .ofMembers [("type", .string type.toList), ("response", .object [])]

/-- The same with the store of a request that says nothing of it. -/
def storedEvent (type : String) : Value :=
  .ofMembers [("type", .string type.toList),
    ("response", .object [("store".toList, .bool false)])]

/-- A reading of the two. -/
def readEvent (type : String) (text : Str) : Option Value :=
  if text = (responseEvent type).render then some (responseEvent type)
  else if text = (storedEvent type).render then some (storedEvent type)
  else none

theorem sound_responseEvent (type : String) : (responseEvent type).Sound :=
  Value.sound_ofMembers.mpr (by simp)

theorem sound_storedEvent (type : String) : (storedEvent type).Sound :=
  Value.sound_ofMembers.mpr (by simp)

theorem readsJson_readEvent (type : String) : ReadsJson (readEvent type) := by
  have hread : ∀ text v, readEvent type text = some v → text = v.render ∧ v.Sound := by
    intro text v h
    rw [readEvent] at h
    split at h
    · next htext =>
      cases h
      exact ⟨htext, sound_responseEvent type⟩
    · split at h
      · next htext =>
        cases h
        exact ⟨htext, sound_storedEvent type⟩
      · cases h
  exact ⟨fun text v h => (hread text v h).1 ▸ Value.isJson_render (hread text v h).2,
    fun text v h => (hread text v h).2⟩

/-- A block of two lines. -/
def twoLines (first : String) (data : Value) : Str := first.toList ++ '\n' :: dataLine data.render

theorem rewritten_created :
    readEvent "response.created"
        (parseSseBlock (trim (twoLines "event: e" (responseEvent "response.created")))).2 =
      some (responseEvent "response.created") ∧
    ∃ written, rewriteBlock (readEvent "response.created") openAiTypes plainContext.request none
        (twoLines "event: e" (responseEvent "response.created")) = some written ∧
      Rewrites (readEvent "response.created") plainContext.request none
        (trim (twoLines "event: e" (responseEvent "response.created"))) written
        (responseEvent "response.created") := by
  have hdata : readEvent "response.created"
      (parseSseBlock (trim (twoLines "event: e" (responseEvent "response.created")))).2 =
      some (responseEvent "response.created") := by rfl
  refine ⟨hdata, _, rfl, ?_⟩
  refine (rewritten (readEvent "response.created") openAiTypes plainContext.request none
    (twoLines "event: e" (responseEvent "response.created")) (responseEvent "response.created")
    (readsJson_readEvent _) hdata fun response hresponse => ?_).1 _ rfl
  obtain rfl : .object [] = response := Option.some.inj hresponse
  rfl

/-- The same block, as an event. -/
theorem rewrite_refines_created :
    let block := twoLines "event: e" (responseEvent "response.created")
    blockEvent (readEvent "response.created") ((rewriteBlock (readEvent "response.created") openAiTypes
        plainContext.request none block).getD (trim block)) =
      rewriteStreamingBlock openAiTypes plainContext.request none
        (blockEvent (readEvent "response.created") (trim block)) := by
  refine rewrite_refines openAiTypes plainContext.request none _ (readsJson_readEvent _)
    (Eq.refl (some (responseEvent "response.created"))) fun response hresponse => ?_
  obtain rfl : .object [] = response := Option.some.inj hresponse
  rfl

/-- A blank before the first line: its name is read only after the rewriting.  And a response of a type
that is not rewritten keeps its members. -/
theorem name_appears :
    (∃ written, rewriteBlock (readEvent "response.created") openAiTypes plainContext.request none
        (twoLines " event: e" (responseEvent "response.created")) = some written ∧
      (parseSseBlock written).1 = some ['e'] ∧
      (parseSseBlock (twoLines " event: e" (responseEvent "response.created"))).1 = none) ∧
    rewriteBlock (readEvent "response.failed") openAiTypes plainContext.request none
        (twoLines "event: e" (responseEvent "response.failed")) = none ∧
      ¬ Filled plainContext.request none (.object []) (.object []) := by
  refine ⟨⟨_, rfl, by decide, by decide⟩, by rfl, fun h => ?_⟩
  cases h.store

end QwenStack.Responses
