import QwenStack.Responses.Lifecycle
import QwenStack.Support.JsonScan

/-!
# Tool calls of a streamed response — the text of the blocks

`gateway/src/routers/openai/responses/streaming.rs` and `mcp.rs`: the events for the client are written as
JSON, but the messages before the end of a failed run are put between quotes as they are.

So the blocks are well formed exactly when each message, read on inside that string, comes to the inside of
one there again, and when each event of the upstream that is sent on, with its data written again, has a
name in one line: one without a name is sent on without one (`wellFormed_run_iff`).
-/

namespace QwenStack.Responses
open JsonScan List Until

/-! ### The text of a block -/

/-- A line of data, and the end of a block. -/
def dataBlock (payload : Str) : Str := "data: ".toList ++ (payload ++ ['\n', '\n'])

/-- A line with a name before it. -/
def eventBlock (eventName payload : Str) : Str :=
  "event: ".toList ++ (eventName ++ '\n' :: dataBlock payload)

/-- The data of an error event. -/
def errorPayload (message : Str) : Str :=
  "\x7b\"error\": \x7b\"message\": \"".toList ++ (message ++ "\"\x7d\x7d".toList)

/-- The text of a block; that of a block of the upstream stays as it came. -/
def Sent.text : Sent → Option Str
  | .event _ (some name) data => some (eventBlock name data.render)
  | .event _ none data => some (dataBlock data.render)
  | .verbatim _ => none
  | .error message => some (eventBlock "error".toList (errorPayload message))
  | .done => some (dataBlock "[DONE]".toList)

/-- One line of JSON. -/
structure IsPayload (payload : Str) : Prop where
  json : isJson payload = true
  line : '\n' ∉ payload ∧ '\r' ∉ payload

/-- Nothing ends a line in a text. -/
def OneLine (text : Str) : Prop := '\n' ∉ text ∧ '\r' ∉ text

instance (text : Str) : Decidable (OneLine text) := inferInstanceAs (Decidable (_ ∧ _))

/-- A block of one event line and one data line, which is JSON. -/
def IsEvent (text : Str) : Prop :=
  ∃ eventName payload, OneLine eventName ∧ IsPayload payload ∧ text = eventBlock eventName payload

/-- **The property** of a block: it is the end of the stream, or an event. -/
def Sent.WellFormed (b : Sent) : Prop :=
  ∀ text, b.text = some text → text = dataBlock "[DONE]".toList ∨ IsEvent text

/-! ### Events of the upstream -/

/-- An event has a name in one line. -/
def Event.Named (e : Event) : Prop := ∃ n, e.eventName = some n ∧ '\r' ∉ n

/-- A delta of a call is kept from the client. -/
def Event.buffered (types : EventTypes) (e : Event) : Bool :=
  decide (e.eventType = some types.itemDelta) &&
    ((e.data.bind (·.get "delta".toList)).bind (Value.getStr "type".toList)).any types.isFunctionCallType

/-- The event is JSON and sent on: it is not kept, not the end of the response, and not skipped as the start
of one. -/
structure Event.SentOn (types : ProtocolTypes) (first : Bool) (e : Event) : Prop where
  data : e.data ≠ none
  completed : e.eventType ≠ some types.completed
  kept : e.buffered types.toEventTypes = false
  skipped : first = false →
    Stream.dataType e ≠ some types.created ∧ Stream.dataType e ≠ some types.inProgress

/-! ### Messages -/

/-- Inside the message of an error event. -/
def inMessage : JsonScan.State := ⟨.string false, [.object, .object]⟩

/-- **The condition** on a message: it comes to the inside of such a string again, in one line. -/
structure Clean (message : Str) : Prop where
  inside : run inMessage message = some inMessage
  line : '\n' ∉ message ∧ '\r' ∉ message

theorem isJson_errorPayload_iff (message : Str) :
    isJson (errorPayload message) = true ↔ run inMessage message = some inMessage := by
  have hleft : run ⟨.value, []⟩ "\x7b\"error\": \x7b\"message\": \"".toList = some inMessage := by decide
  unfold isJson errorPayload
  rw [run_append, hleft, Option.bind_some, run_append]
  cases hrun : run inMessage message with
  | none => exact iff_of_false Bool.false_ne_true fun h => nomatch h
  | some s =>
    rw [Option.some.injEq]
    exact closes_iff s

theorem isPayload_errorPayload_iff (message : Str) :
    IsPayload (errorPayload message) ↔ Clean message := by
  have hmem : ∀ c, c ∉ "\x7b\"error\": \x7b\"message\": \"".toList → c ∉ "\"\x7d\x7d".toList →
      (c ∉ errorPayload message ↔ c ∉ message) := fun c hleft hright => by
    unfold errorPayload
    rw [mem_append, mem_append]
    exact not_congr ⟨fun h => (h.resolve_left hleft).resolve_right hright, fun h => .inr (.inl h)⟩
  have hlf := hmem '\n' (by decide) (by decide)
  have hcr := hmem '\r' (by decide) (by decide)
  exact ⟨fun h => ⟨(isJson_errorPayload_iff message).mp h.json, hlf.mp h.line.1, hcr.mp h.line.2⟩,
    fun h => ⟨(isJson_errorPayload_iff message).mpr h.inside, hlf.mpr h.line.1, hcr.mpr h.line.2⟩⟩

/-- A line and what follows it are told apart. -/
theorem line_inj {line line' rest rest' : Str} (h : '\n' ∉ line) (h' : '\n' ∉ line')
    (heq : line ++ '\n' :: rest = line' ++ '\n' :: rest') : line = line' ∧ rest = rest' := by
  induction line generalizing line' with
  | nil =>
    cases line' with
    | nil => exact ⟨rfl, tail_eq_of_cons_eq heq⟩
    | cons c line' => exact absurd (head_eq_of_cons_eq heq ▸ mem_cons_self ..) h'
  | cons c line ih =>
    cases line' with
    | nil => exact absurd (head_eq_of_cons_eq heq ▸ mem_cons_self ..) h
    | cons c' line' =>
      obtain ⟨rfl, htail⟩ := List.cons.inj heq
      obtain ⟨rfl, hrest⟩ := ih (fun hmem => h (mem_cons_of_mem _ hmem))
        (fun hmem => h' (mem_cons_of_mem _ hmem)) htail
      exact ⟨rfl, hrest⟩

theorem isEvent_eventBlock_iff (payload : Str) {eventName : Str} (hname : '\n' ∉ eventName) :
    IsEvent (eventBlock eventName payload) ↔ '\r' ∉ eventName ∧ IsPayload payload := by
  refine ⟨?_, fun ⟨hcr, h⟩ => ⟨eventName, payload, ⟨hname, hcr⟩, h, rfl⟩⟩
  rintro ⟨eventName', payload', hname', hpayload, heq⟩
  obtain ⟨rfl, hdata⟩ := line_inj hname hname'.1 (append_cancel_left heq)
  have hend := append_cancel_left hdata
  exact ⟨hname'.2, append_cancel_right hend ▸ hpayload⟩

theorem eventBlock_ne_dataBlock (eventName payload payload' : Str) :
    eventBlock eventName payload ≠ dataBlock payload' := by
  intro heq
  have hhead : 'e' = 'd' := head_eq_of_cons_eq heq
  exact absurd hhead (by decide)

/-- A message makes a well-formed block exactly when it is clean. -/
theorem wellFormed_error_iff (message : Str) : (Sent.error message).WellFormed ↔ Clean message := by
  have hblock := isEvent_eventBlock_iff (errorPayload message) (show '\n' ∉ "error".toList by decide)
  rw [isPayload_errorPayload_iff, and_iff_right (by decide)] at hblock
  refine ⟨fun h => hblock.mp ((h _ rfl).resolve_left (eventBlock_ne_dataBlock _ _ _)), fun h text htext => ?_⟩
  cases htext
  exact .inr (hblock.mpr h)

/-- A message without quotes, backslashes and control characters. -/
theorem clean_of_plain {message : Str} (h : ∀ c ∈ message, c ≠ '"' ∧ c ≠ '\\' ∧ 32 ≤ c.toNat) :
    Clean message := by
  refine ⟨?_, fun hc => absurd (h _ hc).2.2 (by decide), fun hc => absurd (h _ hc).2.2 (by decide)⟩
  induction message with
  | nil => rfl
  | cons c message ih =>
    obtain ⟨⟨hquote, hescape, hcontrol⟩, hrest⟩ := List.forall_mem_cons.mp h
    have hstep : step inMessage c = some inMessage := by
      rw [step]
      simp only [inMessage, if_neg hquote, if_neg hescape, if_neg (Nat.not_lt.mpr hcontrol)]
    rw [run_cons, hstep, Option.bind_some]
    exact ih hrest

/-! ### What the values are made of -/

/-- The names of events that are constants. -/
def ProtocolTypes.constants (types : ProtocolTypes) : List Str :=
  [types.created, types.inProgress, types.completed, types.itemAdded, types.itemDelta, types.itemDone,
    types.argumentsDelta, types.argumentsDone, types.callArgumentsDelta, types.callArgumentsDone,
    types.callInProgress, types.callCompleted, types.listToolsInProgress, types.listToolsCompleted]

/-- What the upstream, the request and the tools bring: the numbers in JSON are numbers, and the name of an
event comes from a line. -/
structure SoundInputs (ctx : Context) (answers : List Answer) : Prop where
  types : ∀ name ∈ ctx.types.constants, OneLine name
  tools : ∀ tool ∈ ctx.tools, tool.inputSchema.Sound
  metadata : ∀ entries, ctx.request.metadata = some entries → (Value.object entries).Sound
  names : ∀ answer ∈ answers, ∀ e ∈ answer.events, ∀ name, e.eventName = some name → '\n' ∉ name
  data : ∀ answer ∈ answers, ∀ e ∈ answer.events, ∀ v, e.data = some v → v.Sound
  again : ∀ answer ∈ answers, ∀ e ∈ answer.events, ∀ v, e.again.2 = some v → v.Sound

section Values
variable {obj : Value} (h : obj.Sound) (r : ResponsesRequest)
include h

theorem sound_modifyMember (key : String) {f : Value → Value} (hf : ∀ v : Value, v.Sound → (f v).Sound) :
    (modifyMember key f obj).Sound := by
  rw [modifyMember]
  split
  · next v hv => exact h.insert _ (hf v (h.get hv))
  · exact h

theorem sound_insertIfMissing (key : String) (value : Option Str) :
    (insertIfMissing key value obj).Sound := by
  unfold insertIfMissing
  split
  · split
    · exact h.insert _ trivial
    · exact h
  · exact h

theorem sound_insertConversation : (insertConversation r obj).Sound := by
  rw [insertConversation]
  split
  · exact h.insert _ (by simp)
  · exact h

theorem sound_insertMetadata
    (hmetadata : ∀ entries, r.metadata = some entries → (Value.object entries).Sound) :
    (insertMetadata r obj).Sound := by
  rw [insertMetadata]
  split
  · split
    · next entries hentries => exact h.insert _ (hmetadata entries hentries)
    · exact h
  · exact h

theorem sound_insertUser : (insertUser r obj).Sound := by
  unfold insertUser
  split
  · exact h.insert _ trivial
  · exact h

theorem sound_patch
    (hmetadata : ∀ entries, r.metadata = some entries → (Value.object entries).Sound)
    (previousResponseId : Option Str) :
    (patchResponseWithRequestMetadata r previousResponseId obj).Sound :=
  sound_insertConversation (sound_insertUser (sound_insertIfMissing ((sound_insertMetadata
    (sound_insertIfMissing (sound_insertIfMissing h _ _) _ _) r hmetadata).insert _
      (Value.sound_bool _)) _ _) r) r

theorem sound_maskToolsAsMcp : (maskToolsAsMcp r obj).Sound := by
  have hoptional : ∀ (key : String) (value : Option Str), ∀ m ∈ optionalMember key value, m.2.Sound := by
    intro key value m hm
    cases value with
    | none => cases hm
    | some s =>
      obtain rfl := List.mem_singleton.mp hm
      trivial
  rw [maskToolsAsMcp]
  split
  · exact h
  · next tool htool =>
    refine Value.Sound.orInsert (h.insert _ ?_) _ trivial
    rw [Value.sound_array, forall_mem_singleton, Value.sound_ofMembers]
    intro m hm
    simp only [mem_append] at hm
    rcases hm with ((((hm | hm) | hm) | hm) | hm) | hm
    · obtain rfl := List.mem_singleton.mp hm
      trivial
    · exact hoptional _ _ m hm
    · exact hoptional _ _ m hm
    · exact hoptional _ _ m hm
    · exact hoptional _ _ m hm
    · split at hm
      · obtain rfl := List.mem_singleton.mp hm
        rw [Value.sound_array, forall_mem_map]
        exact fun _ _ => trivial
      · cases hm

theorem sound_transformId (key : String) : (transformId key obj).Sound := by
  rw [transformId]
  split
  · exact h.insert _ trivial
  · exact h

theorem sound_transformItem (types : ProtocolTypes) (serverLabel : Str) :
    (transformItem types serverLabel obj).Sound := by
  rw [transformItem]
  split
  · exact sound_transformId ((h.insert _ (Value.sound_string _)).insert _ (Value.sound_string _)) _
  · exact h

theorem sound_transformResponse (previousResponseId : Option Str) :
    (transformResponse r previousResponseId obj).Sound := by
  have hobj := sound_insertIfMissing (h.insert "store".toList (Value.sound_bool r.storeOrDefault))
    "previous_response_id" previousResponseId
  unfold transformResponse
  dsimp only
  split
  · split
    · next mcpTools hmcp =>
      obtain ⟨tool, -, rfl⟩ := Option.map_eq_some_iff.mp hmcp
      exact Value.Sound.orInsert (Value.Sound.insert hobj _ (by simp)) _ trivial
    · exact hobj
  · exact hobj

theorem sound_applyEventTransformations (types : ProtocolTypes) (previousResponseId : Option Str) :
    (applyEventTransformations types r previousResponseId obj).Sound := by
  have hresponse : (if types.isResponseEvent ((Value.getStr "type".toList obj).getD []) = true then
      modifyMember "response" (transformResponse r previousResponseId) obj else obj).Sound := by
    split
    · exact sound_modifyMember h _ fun _ hv => sound_transformResponse hv r previousResponseId
    · exact h
  rw [applyEventTransformations]
  split
  · exact sound_modifyMember hresponse _ fun _ hv => sound_transformItem hv types r.serverLabel
  · split
    · exact sound_transformId (hresponse.insert _ (Value.sound_string _)) _
    · exact hresponse

end Values

section Items
variable {ctx : Context} {answers : List Answer}

theorem sound_buildMcpCallItem (types : ProtocolTypes) (id toolName arguments output serverLabel : Str)
    (success : Bool) (error : Option Str) :
    (buildMcpCallItem types id toolName arguments output serverLabel success error).Sound := by
  simp only [buildMcpCallItem, Value.sound_ofMembers, forall_mem_cons, Value.sound_string,
    Value.sound_null, Value.sound_ofOption, true_and]
  exact forall_mem_nil _

theorem SoundInputs.listTools (hin : SoundInputs ctx answers) (serverLabel id : Str) :
    (buildMcpListToolsItem ctx serverLabel id).Sound := by
  have htools : ∀ v ∈ ctx.tools.map fun t => Value.ofMembers [("name", .string t.name),
      ("description", .ofOption t.description), ("input_schema", t.inputSchema),
      ("annotations", .ofMembers [("read_only", .bool false)])], v.Sound := by
    rw [forall_mem_map]
    intro tool htool
    simp [hin.tools tool htool]
  simp only [buildMcpListToolsItem, Value.sound_ofMembers, forall_mem_cons, Value.sound_string,
    Value.sound_array, true_and]
  exact ⟨htools, forall_mem_nil _⟩

theorem SoundInputs.finish (hin : SoundInputs ctx answers) {response : Value} (h : response.Sound)
    (history : List Value) (generated : Nat) (id : Option Str) :
    (finishResponse ctx history generated id response).Sound := by
  have hcalls : ∀ v ∈ buildExecutedMcpCallItems ctx history ctx.request.serverLabel (generated + 1),
      v.Sound := by
    intro v hv
    rw [buildExecutedMcpCallItems, mem_mapIdx] at hv
    obtain ⟨i, -, rfl⟩ := hv
    exact sound_buildMcpCallItem ..
  have hinject : ∀ response : Value, response.Sound →
      (injectMcpMetadata ctx history generated response).Sound := by
    intro response h
    have hlist := hin.listTools ctx.request.serverLabel (ctx.generateId "mcpl".toList generated)
    unfold injectMcpMetadata
    split
    · next outputs houtputs =>
      obtain ⟨v, hv, hitems⟩ := Option.bind_eq_some_iff.mp houtputs
      have hv := h.get hv
      cases v with
      | array items =>
        cases hitems
        refine h.insert _ (Value.sound_array.mpr ?_)
        rw [forall_mem_append, forall_mem_cons]
        exact ⟨⟨hlist, hcalls⟩, fun item hitem =>
          Value.sound_array.mp hv item (List.mem_filter.mp hitem).1⟩
      | _ => cases hitems
    · exact h.insert _ (Value.sound_array.mpr (List.forall_mem_cons.mpr ⟨hlist, hcalls⟩))
  unfold finishResponse
  refine sound_patch (sound_maskToolsAsMcp (hinject _ ?_) _) _ hin.metadata _
  split
  · exact h.insert _ trivial
  · exact h

end Items

/-- What is gathered of a response. -/
structure Accumulator.Sound (acc : Accumulator) : Prop where
  initial : ∀ v, acc.initialResponse = some v → v.Sound
  completed : ∀ v, acc.completedResponse = some v → v.Sound
  outputs : ∀ output ∈ acc.outputItems, output.2.Sound

namespace Accumulator.Sound
variable {acc : Accumulator}

theorem new : ({} : Accumulator).Sound :=
  ⟨fun _ h => (nomatch h), fun _ h => (nomatch h), fun _ h => (nomatch h)⟩

theorem ingest (h : acc.Sound) (types : EventTypes) {e : Event} (hdata : ∀ v, e.data = some v → v.Sound) :
    (acc.ingest types e).Sound := by
  unfold Accumulator.ingest
  split
  · exact h
  · next parsed hparsed =>
    have hparsed := hdata parsed hparsed
    dsimp only
    split
    · refine ⟨fun v hv => ?_, h.completed, h.outputs⟩
      rcases Option.or_eq_some_iff.mp hv with hv | ⟨-, hv⟩
      · exact h.initial v hv
      · exact hparsed.get hv
    split
    · refine ⟨h.initial, fun v hv => ?_, h.outputs⟩
      rcases Option.or_eq_some_iff.mp hv with hv | ⟨-, hv⟩
      · exact hparsed.get hv
      · exact h.completed v hv
    split
    · split
      · next index item hindex hitem =>
        refine ⟨h.initial, h.completed, ?_⟩
        rw [forall_mem_append, forall_mem_singleton]
        exact ⟨h.outputs, hparsed.get hitem⟩
      · exact h
    split
    · exact ⟨h.initial, h.completed, h.outputs⟩
    · exact h

theorem finalResponse (h : acc.Sound) {response : Value} (hresponse : acc.finalResponse = some response) :
    response.Sound := by
  rcases Option.or_eq_some_iff.mp hresponse with hcompleted | ⟨-, hfallback⟩
  · exact h.completed _ hcompleted
  · obtain ⟨initial, hinitial, rfl⟩ := Option.map_eq_some_iff.mp hfallback
    refine ((h.initial _ hinitial).insert _ (Value.sound_string _)).insert _ (Value.sound_array.mpr fun v hv => ?_)
    obtain ⟨output, houtput, rfl⟩ := List.mem_map.mp hv
    exact h.outputs output ((mem_insertionSort _).mp houtput)

end Accumulator.Sound

/-! ### What is sent while the loop goes on -/

/-- An event whose numbers are numbers, with a name that comes from a line if it has one, or a block of the
upstream. -/
def Sent.Plain : Sent → Prop
  | .event _ name data => data.Sound ∧ ∀ n, name = some n → '\n' ∉ n
  | .verbatim _ => True
  | _ => False

/-- An event has a name in one line. -/
def Sent.Named : Sent → Prop
  | .event _ name _ => ∃ n, name = some n ∧ '\r' ∉ n
  | _ => True

/-- An event of the gateway's own. -/
def Sent.Own (b : Sent) : Prop := b.Plain ∧ b.Named

theorem isPayload_render {v : Value} (h : v.Sound) : IsPayload v.render where
  json := Value.isJson_render h
  line := ⟨fun hc => absurd (Value.printable_render v h _ hc) (by decide),
    fun hc => absurd (Value.printable_render v h _ hc) (by decide)⟩

theorem Sent.Plain.wellFormed_iff {b : Sent} (h : b.Plain) : b.WellFormed ↔ b.Named := by
  cases b with
  | event item name data =>
    obtain ⟨hdata, hname⟩ := h
    have hpayload := isPayload_render hdata
    cases name with
    | some name =>
      have hblock := isEvent_eventBlock_iff data.render (hname name rfl)
      rw [and_iff_left hpayload] at hblock
      refine ⟨fun h => ⟨name, rfl, ?_⟩, fun ⟨n, hn, hcr⟩ text htext => .inr ?_⟩
      · exact hblock.mp ((h _ rfl).resolve_left (eventBlock_ne_dataBlock _ _ _))
      · cases htext
        cases hn
        exact hblock.mpr hcr
    | none =>
      refine ⟨fun h => ?_, fun ⟨n, hn, _⟩ => by cases hn⟩
      rcases h _ rfl with hdone | ⟨eventName, payload, -, -, heq⟩
      · have hend := append_cancel_right (append_cancel_left hdone)
        have hjson := hpayload.json
        rw [hend] at hjson
        exact absurd hjson (by decide)
      · exact absurd heq.symm (eventBlock_ne_dataBlock _ _ _)
  | verbatim e => exact iff_of_true (fun _ htext => by cases htext) trivial
  | error message => cases h
  | done => cases h

/-- More is sent of one kind, which is another. -/
theorem Client.Adds.mono {kind kind' : Sent → Prop} {c c' : Client} (h : Adds kind c c')
    (hkind : ∀ b, kind b → kind' b) : Adds kind' c c' := by
  obtain ⟨blocks, heq, hblocks⟩ := h
  exact ⟨blocks, heq, fun b hb => hkind b (hblocks b hb)⟩

/-- All that was sent has a name. -/
def Client.AllNamed (c : Client) : Prop := ∀ b ∈ c.channel, b.Named

theorem Client.Adds.allNamed_iff {c c' : Client} (h : Adds Sent.Own c c') : c'.AllNamed ↔ c.AllNamed := by
  refine ⟨fun hall b hb => hall b (h.mem hb), fun hall b hb => ?_⟩
  exact (h.mem_or hb).elim (hall b) fun hown => hown.2

section Sending
variable {ctx : Context} {answers : List Answer} (hin : SoundInputs ctx answers) {c : Client}

theorem own_sendEvent (item : Option Item) {name : Str} (hname : OneLine name)
    {members : List (String × Value)} (hmembers : ∀ m ∈ members, m.2.Sound) :
    Client.Adds Sent.Own c (c.sendEvent item name members) := by
  refine .one rfl ⟨⟨?_, fun n hn => Option.some.inj hn ▸ hname.1⟩, name, rfl, hname.2⟩
  rw [Value.sound_ofMembers, forall_mem_append]
  exact ⟨by simp, hmembers⟩

/-- Members with an index, and an id. -/
theorem sound_members (i : Nat) (id : Str) : ∀ m ∈
    [("output_index", Value.integer i), ("item_id", Value.string id)], m.2.Sound := by
  simp

/-- Members with an index, and an item. -/
theorem sound_itemMembers (i : Nat) {v : Value} (h : v.Sound) : ∀ m ∈
    [("output_index", Value.integer i), ("item", v)], m.2.Sound := by
  simp [h]

/-- A numbered event is one block, with its name. -/
theorem plain_sendNumbered (item : Option Item) {name : Option Str}
    (hname : ∀ n, name = some n → '\n' ∉ n) {v : Value} (hv : v.Sound) :
    Client.Adds Sent.Plain c (c.sendNumbered item name v) ∧
      ((c.sendNumbered item name v).AllNamed ↔ c.AllNamed ∧ ∃ n, name = some n ∧ '\r' ∉ n) := by
  have hone : ∀ {c' : Client} {v' : Value}, c'.channel = c.channel ++ [.event item name v'] →
      v'.Sound → Client.Adds Sent.Plain c c' ∧ (c'.AllNamed ↔ c.AllNamed ∧ ∃ n, name = some n ∧ '\r' ∉ n) := by
    intro c' v' hchannel hv'
    refine ⟨.one hchannel ⟨hv', hname⟩, ?_⟩
    rw [Client.AllNamed, hchannel, forall_mem_append, forall_mem_singleton]
    exact Iff.rfl
  rw [Client.sendNumbered]
  split
  · exact hone rfl (hv.insert _ (Value.sound_integer _))
  · exact hone rfl hv

theorem sound_transformEvent (ctx : Context) (h : StreamingToolHandler) (acc : Accumulator) (mapped : Option Nat)
    {parsed : Value} (hparsed : parsed.Sound) : (transformEvent ctx h acc mapped parsed).Sound := by
  have hremap : ∀ i, (remapOutputIndex i parsed).Sound := by
    intro i
    cases i with
    | none => exact hparsed
    | some i => exact hparsed.insert _ (Value.sound_integer _)
  have htransformed := sound_applyEventTransformations
    (hremap (mapped.or ((extractOutputIndex parsed).bind h.outputIndexMapper.lookup))) ctx.request ctx.types
    ctx.previousResponseId
  unfold transformEvent restoreResponseId
  split
  · exact sound_modifyMember htransformed _ fun _ hv => hv.insert _ (Value.sound_string _)
  · exact htransformed

include hin

theorem own_sendBuffered (item : Option Item) (h : StreamingToolHandler) (eventName : Option Str)
    {parsed : Value} (hparsed : parsed.Sound) :
    (sendBuffered ctx item h eventName parsed c).1.Sound ∧
      Client.Adds Sent.Own c (sendBuffered ctx item h eventName parsed c).2.2 := by
  rw [sendBuffered]
  split
  · rw [sendBufferedArguments]
    split
    · exact ⟨hparsed, .refl c⟩
    · dsimp only
      split
      · exact ⟨hparsed, .refl c⟩
      · next call hcall =>
        have hinserted := hparsed.insert "arguments".toList (Value.sound_string
          (if call.argumentsBuffer = [] then "{}".toList else call.argumentsBuffer))
        refine ⟨hinserted, own_sendEvent item (hin.types _ (by simp [ProtocolTypes.constants])) ?_⟩
        rw [forall_mem_append]
        refine ⟨by simp, fun m hm => ?_⟩
        -- the obfuscation is that of the call, or of the event
        obtain ⟨v, hv, rfl⟩ := Option.map_eq_some_iff.mp (Option.mem_toList.mp hm)
        rcases Option.or_eq_some_iff.mp hv with hv | ⟨-, hv⟩
        · obtain ⟨s, -, rfl⟩ := Option.map_eq_some_iff.mp hv
          trivial
        · exact hinserted.get hv
  · exact ⟨hparsed, .refl c⟩

theorem own_maybeInject (item : Option Item) (parsed : Value) :
    Client.Adds Sent.Own c (maybeInjectMcpInProgress ctx item parsed c) := by
  rw [maybeInjectMcpInProgress]
  split
  · exact .refl c
  · split
    · split
      · exact own_sendEvent item (hin.types _ (by simp [ProtocolTypes.constants])) (sound_members _ _)
      · exact .refl c
    · exact .refl c

/-- The name of an event of the upstream, and the one it is sent on with. -/
theorem mapEventName_named_iff (name : Option Str) :
    (∃ n, name.map (mapEventName ctx.types) = some n ∧ '\r' ∉ n) ↔ ∃ n, name = some n ∧ '\r' ∉ n := by
  cases name with
  | none => exact iff_of_false (fun ⟨_, h, _⟩ => by cases h) fun ⟨_, h, _⟩ => by cases h
  | some n =>
    simp only [Option.map_some, Option.some.injEq, exists_eq_left', mapEventName]
    split
    · next h =>
      subst h
      exact iff_of_true (hin.types _ (by simp [ProtocolTypes.constants])).2
        (hin.types _ (by simp [ProtocolTypes.constants])).2
    · split
      · next h =>
        subst h
        exact iff_of_true (hin.types _ (by simp [ProtocolTypes.constants])).2
          (hin.types _ (by simp [ProtocolTypes.constants])).2
      · exact Iff.rfl

/-- **An event that is forwarded**: if its data is written again, it is sent with a name exactly if it has
one in one line. -/
theorem plain_forwardStreamingEvent {answer : Answer} (hanswer : answer ∈ answers) {e : Event}
    (he : e ∈ answer.events) (iteration : Nat) (h : StreamingToolHandler) (acc : Accumulator) :
    Client.Adds Sent.Plain c (forwardStreamingEvent ctx iteration h acc c e) ∧
      ((forwardStreamingEvent ctx iteration h acc c e).AllNamed ↔
        c.AllNamed ∧ (e.data ≠ none → e.eventType ≠ some ctx.types.completed → e.Named)) := by
  rw [forwardStreamingEvent]
  split
  · next hname =>
    exact ⟨.refl c, (and_iff_left fun _ _ =>
      ⟨_, hname, (hin.types _ (by simp [ProtocolTypes.constants])).2⟩).symm⟩
  split
  · next hdata =>
    refine ⟨.one rfl trivial, ?_⟩
    rw [Client.AllNamed, Client.send, forall_mem_append, forall_mem_singleton]
    exact and_congr_right fun _ => iff_of_true trivial fun hne => absurd hdata hne
  next parsed hdata =>
  have htype : e.eventType = some (getEventType e.eventName parsed) := by
    rw [Event.eventType, hdata, Option.map_some]
  split
  · next hcompleted =>
    exact ⟨.refl c, (and_iff_left fun _ hne => absurd (htype.trans (congrArg some hcompleted)) hne).symm⟩
  next hcompleted =>
  have hcondition : (e.data ≠ none → e.eventType ≠ some ctx.types.completed → e.Named) ↔ e.Named := by
    refine ⟨fun h => h (hdata ▸ Option.some_ne_none _) fun h => hcompleted ?_, fun h _ _ => h⟩
    exact Option.some.inj (htype.symm.trans h)
  obtain ⟨hbuffered, hadds⟩ := own_sendBuffered hin (c := c)
    ((extractOutputIndex parsed).map (Item.upstream iteration)) h e.eventName (hin.data answer hanswer e he _ hdata)
  have hname : ∀ n, e.eventName.map (mapEventName ctx.types) = some n → '\n' ∉ n := by
    intro n hn
    obtain ⟨name, heventName, rfl⟩ := Option.map_eq_some_iff.mp hn
    rw [mapEventName]
    split
    · exact (hin.types _ (by simp [ProtocolTypes.constants])).1
    · split
      · exact (hin.types _ (by simp [ProtocolTypes.constants])).1
      · exact hin.names answer hanswer e he name heventName
  obtain ⟨hnumbered, hnamed⟩ := plain_sendNumbered (c := (sendBuffered ctx
      ((extractOutputIndex parsed).map (Item.upstream iteration)) h e.eventName parsed c).2.2)
    ((extractOutputIndex parsed).map (Item.upstream iteration)) hname (sound_transformEvent ctx h acc
      (sendBuffered ctx ((extractOutputIndex parsed).map (Item.upstream iteration)) h e.eventName parsed
        c).2.1 hbuffered)
  have hsent := (hadds.mono fun _ hown => hown.1).trans hnumbered
  rw [hadds.allNamed_iff, mapEventName_named_iff hin] at hnamed
  rw [hcondition]
  split
  · exact ⟨hsent.trans ((own_maybeInject hin ..).mono fun _ hown => hown.1),
      (own_maybeInject hin ..).allNamed_iff.trans hnamed⟩
  · exact ⟨hsent, hnamed⟩

theorem own_sendMcpListToolsEvents (outputIndex : Nat) :
    Client.Adds Sent.Own c (sendMcpListToolsEvents ctx outputIndex c) := by
  have hfull := hin.listTools ctx.request.serverLabel (ctx.generateId "mcpl".toList c.generated)
  have hempty := hfull.insert "tools".toList (Value.sound_array.mpr fun v (hv : v ∈ []) => nomatch hv)
  unfold sendMcpListToolsEvents
  exact (((own_sendEvent (c := c.generate) _ (hin.types _ (by simp [ProtocolTypes.constants]))
    (sound_itemMembers _ hempty)).trans
    (own_sendEvent _ (hin.types _ (by simp [ProtocolTypes.constants])) (sound_members _ _))).trans
    (own_sendEvent _ (hin.types _ (by simp [ProtocolTypes.constants])) (sound_members _ _))).trans
    (own_sendEvent _ (hin.types _ (by simp [ProtocolTypes.constants])) (sound_itemMembers _ hfull))

theorem own_sendMcpCallCompletionEvents (iteration : Nat) (call : FunctionCallInProgress) (output : Str)
    (success : Bool) (error : Option Str) : Client.Adds Sent.Own c
      (sendMcpCallCompletionEvents ctx iteration call output success error c) := by
  unfold sendMcpCallCompletionEvents
  exact (own_sendEvent (c := c.generate) _ (hin.types _ (by simp [ProtocolTypes.constants]))
    (sound_members _ _)).trans (own_sendEvent _ (hin.types _ (by simp [ProtocolTypes.constants]))
      (sound_itemMembers _ (sound_buildMcpCallItem ..)))

theorem own_sendFinalResponseEvent (h : StreamingToolHandler) {acc : Accumulator} (hacc : acc.Sound)
    (history : List Value) :
    Client.Adds Sent.Own c (sendFinalResponseEvent ctx h acc history c) := by
  rw [sendFinalResponseEvent]
  split
  · exact .refl c
  · next response hresponse =>
    have hfinal := hin.finish (hacc.finalResponse hresponse) history c.generated (originalResponseId h acc)
    refine own_sendEvent (c := { c with generated := _ }) none
      (hin.types _ (by simp [ProtocolTypes.constants])) ?_
    rw [forall_mem_singleton]
    exact hfinal.insert _ (Value.sound_string _)

end Sending

/-! ### Iterations -/

theorem processEvent_buffer_iff {types : ProtocolTypes} {h : StreamingToolHandler} {e : Event} :
    (h.processEvent types.toEventTypes e).2 = .buffer ↔ e.buffered types.toEventTypes = true := by
  by_cases htype : e.eventType = some types.itemDelta
  · obtain ⟨parsed, hdata, hparsed⟩ := Option.map_eq_some_iff.mp htype
    have hdistinct := types.distinct
    simp only [nodup_cons, mem_cons, not_mem_nil, or_false, not_or] at hdistinct
    obtain ⟨⟨-, -, -, hcreated, -⟩, -, ⟨-, hcompleted, -⟩, ⟨hadded, -⟩, ⟨-, hdelta, hdone⟩, -⟩ := hdistinct
    rw [StreamingToolHandler.processEvent, Event.buffered, htype, hdata]
    simp only [hparsed, if_neg (Ne.symm hcreated), if_neg (Ne.symm hcompleted), if_neg (Ne.symm hadded),
      if_neg hdelta, if_neg hdone, if_true, Option.bind_some, decide_true, Bool.true_and,
      StreamingToolHandler.processOutputDelta]
    cases parsed.get "delta".toList with
    | none => exact iff_of_false StreamAction.noConfusion Bool.false_ne_true
    | some delta =>
      dsimp only [Option.bind_some]
      split
      · next hcall => exact iff_of_true rfl hcall
      · next hcall => exact iff_of_false StreamAction.noConfusion hcall
  · refine iff_of_false (fun h => htype (Stream.eventType_of_buffer h)) fun h => ?_
    rw [Event.buffered, decide_eq_false htype] at h
    cases h

/-- An event that leaves the stream and has no name in one line is not skipped. -/
theorem SoundInputs.not_skipped {ctx : Context} {answers : List Answer} (hin : SoundInputs ctx answers)
    {h : StreamingToolHandler} {e : Event} (hnamed : ¬ e.Named)
    (haction : (h.processEvent ctx.types.toEventTypes e).2 = .executeTools) :
    Stream.dataType e ≠ some ctx.types.created ∧ Stream.dataType e ≠ some ctx.types.inProgress := by
  have htype := (Stream.eventType_of_action haction).2 rfl
  have hdata : e.eventType = (e.data.map fun parsed => (Value.getStr "type".toList parsed).getD []) := by
    cases hname : e.eventName with
    | none => rw [Event.eventType, hname]; rfl
    | some n =>
      -- the name is none of the constants
      have hn : e.eventType = e.data.map fun _ => n := by rw [Event.eventType, hname]; rfl
      refine absurd ⟨n, hname, ?_⟩ hnamed
      rw [hn] at htype
      rcases htype with htype | htype
      · obtain ⟨-, -, rfl⟩ := Option.map_eq_some_iff.mp htype
        exact (hin.types _ (by simp [ProtocolTypes.constants])).2
      · obtain ⟨-, -, rfl⟩ := Option.map_eq_some_iff.mp htype
        exact (hin.types _ (by simp [ProtocolTypes.constants])).2
  have hdistinct := ctx.types.distinct
  simp only [nodup_cons, mem_cons, not_mem_nil, or_false, not_or] at hdistinct
  obtain ⟨⟨-, -, -, -, hdoneC, -, hargumentsC⟩, ⟨-, -, -, hdoneP, -, hargumentsP⟩, -⟩ := hdistinct
  have hother : ∀ t, t ≠ ctx.types.argumentsDone → t ≠ ctx.types.itemDone → Stream.dataType e ≠ some t := by
    intro t harguments hdone ht
    obtain ⟨parsed, hparsed, htypeOf⟩ := Option.bind_eq_some_iff.mp ht
    rw [hdata, hparsed, Option.map_some, htypeOf, Option.getD_some] at htype
    exact htype.elim (fun h => harguments (Option.some.inj h)) fun h => hdone (Option.some.inj h)
  exact ⟨hother _ hargumentsC hdoneC, hother _ hargumentsP hdoneP⟩

/-- What was sent so far. -/
def Client.Plain (c : Client) : Prop := ∀ b ∈ c.channel, b.Plain

theorem Client.Plain.adds {c c' : Client} (h : c.Plain) (hadds : Adds Sent.Plain c c') : c'.Plain :=
  fun _ hb => (hadds.mem_or hb).elim (h _) fun hplain => hplain

theorem Client.Plain.own {c c' : Client} (h : c.Plain) (hadds : Adds Sent.Own c c') : c'.Plain :=
  h.adds (hadds.mono fun _ hown => hown.1)

theorem Client.Plain.wellFormed_iff {c : Client} (h : c.Plain) :
    (∀ b ∈ c.channel, b.WellFormed) ↔ c.AllNamed :=
  forall₂_congr fun b hb => (h b hb).wellFormed_iff

/-- A last block that is no event. -/
theorem Client.Plain.wellFormed_send_iff {c : Client} (h : c.Plain) (b : Sent) :
    (∀ b' ∈ (c.send b).channel, b'.WellFormed) ↔ c.AllNamed ∧ b.WellFormed := by
  rw [Client.send, forall_mem_append, forall_mem_singleton, h.wellFormed_iff]

theorem wellFormed_done : Sent.done.WellFormed := fun _ htext => .inl (Option.some.inj htext).symm

/-- The events that an iteration reads and sends on have names. -/
def Stream.NamesAll (ctx : Context) (s : Stream) (events : List Event) : Prop :=
  ∀ past e s', past ++ [e] <+: events → s.run ctx past = (s', false) →
    e.SentOn ctx.types s.isFirstIteration → e.Named

namespace Stream
variable {ctx : Context} {answers : List Answer} {s s' : Stream} {e : Event}

theorem isFirstIteration_step {r : Option Unit} (h : step ctx s e = (s', r)) :
    s'.isFirstIteration = s.isFirstIteration := by
  rw [step] at h
  cases hprocess : s.process ctx e with
  | mk s₁ action =>
    have hfirst := (iteration_process hprocess).2
    rw [hprocess] at h
    cases action with
    | forward =>
      obtain ⟨rfl, -⟩ := Prod.mk.inj h
      exact iteration_forward.2.trans hfirst
    | buffer =>
      obtain ⟨rfl, -⟩ := Prod.mk.inj h
      exact hfirst
    | executeTools =>
      obtain ⟨rfl, -⟩ := Prod.mk.inj h
      exact hfirst

theorem namesAll_iff {events : List Event} : s.NamesAll ctx events ↔
    Met (step ctx) (fun _ e => e.SentOn ctx.types s.isFirstIteration → e.Named) s events := by
  refine forall_congr' fun past => forall₂_congr fun e s' => imp_congr_right fun _ => imp_congr_left ?_
  rw [run_eq, Prod.ext_iff, Prod.ext_iff, Option.isSome_eq_false_iff, Option.isNone_iff_eq_none]

/-- An event is kept from the client exactly by the action that buffers it. -/
theorem not_buffered_of_action {action : StreamAction}
    (haction : (s.loop.handler.processEvent ctx.types.toEventTypes e).2 = action)
    (hne : action ≠ .buffer) : e.buffered ctx.types.toEventTypes = false := by
  rw [← Bool.not_eq_true, ← processEvent_buffer_iff, haction]
  exact hne

/-- An event that is sent unless its iteration skips it. -/
theorem plain_sendUnlessSkipped (hin : SoundInputs ctx answers) {answer : Answer}
    (hanswer : answer ∈ answers) (he : e ∈ answer.events) (hs : s.client.Plain)
    (hkept : e.buffered ctx.types.toEventTypes = false) : (s.sendUnlessSkipped ctx e).client.Plain ∧
      ((s.sendUnlessSkipped ctx e).client.AllNamed ↔
        s.client.AllNamed ∧ (e.SentOn ctx.types s.isFirstIteration → e.Named)) ∧
      (s.sendUnlessSkipped ctx e).accumulator = s.accumulator := by
  obtain ⟨hsent, hnamed⟩ := plain_forwardStreamingEvent hin (c := s.client) hanswer he s.iteration
    s.loop.handler s.accumulator
  rw [sendUnlessSkipped]
  split
  · next hskipped =>
    refine ⟨hs, (and_iff_left fun hsentOn => ?_).symm, rfl⟩
    obtain ⟨hcreated, hprogress⟩ := hsentOn.skipped hskipped.1
    exact absurd hskipped.2 (not_or.mpr ⟨hcreated, hprogress⟩)
  · next hskipped =>
    refine ⟨hs.adds hsent, hnamed.trans (and_congr_right fun _ => ?_), rfl⟩
    refine ⟨fun h hsentOn => h hsentOn.data hsentOn.completed, fun h hdata hcompleted =>
      h ⟨hdata, hcompleted, hkept, fun hlater => ?_⟩⟩
    exact not_or.mp fun htype => hskipped ⟨hlater, htype⟩

/-- **The step**: an event that is sent on has a name, or a block without one is sent. -/
theorem plain_step (hin : SoundInputs ctx answers) {answer : Answer} (hanswer : answer ∈ answers)
    (he : e ∈ answer.events) {r : Option Unit} (hs : s.client.Plain) (hacc : s.accumulator.Sound)
    (hstep : step ctx s e = (s', r)) : s'.client.Plain ∧ s'.accumulator.Sound ∧
      (s'.client.AllNamed ↔ s.client.AllNamed ∧ (e.SentOn ctx.types s.isFirstIteration → e.Named)) := by
  rw [step] at hstep
  cases hprocess : s.process ctx e with
  | mk s₁ action =>
    have hclient : s₁.client = s.client := congrArg (fun p : Stream × StreamAction => p.1.client) hprocess.symm
    have hfirst := (iteration_process hprocess).2
    have hacc₁ : s₁.accumulator.Sound := by
      have hingested := hacc.ingest ctx.types.toEventTypes (e := e.rewrapped) (hin.again answer hanswer e he)
      have heq : (s.process ctx e).1.accumulator = s₁.accumulator := by rw [hprocess]
      exact heq ▸ hingested
    have haction : (s.loop.handler.processEvent ctx.types.toEventTypes e).2 = action :=
      congrArg Prod.snd hprocess
    rw [← hclient] at hs ⊢
    rw [← hfirst]
    rw [hprocess] at hstep
    cases action with
    | forward =>
      obtain ⟨rfl, -⟩ := Prod.mk.inj hstep
      obtain ⟨hplain, hnamed, haccEq⟩ := plain_sendUnlessSkipped hin hanswer he hs
        (not_buffered_of_action haction StreamAction.noConfusion)
      have hlist : Client.Adds Sent.Own (s₁.sendUnlessSkipped ctx e).client
          ((s₁.sendUnlessSkipped ctx e).sendListTools ctx e) := by
        rw [sendListTools]
        split
        · exact own_sendMcpListToolsEvents hin _
        · exact .refl _
      exact ⟨hplain.own hlist, haccEq ▸ hacc₁, hlist.allNamed_iff.trans hnamed⟩
    | buffer =>
      obtain ⟨rfl, -⟩ := Prod.mk.inj hstep
      refine ⟨hs, hacc₁, (and_iff_left fun hsentOn => ?_).symm⟩
      have hbuffered := processEvent_buffer_iff.mp haction
      rw [hsentOn.kept] at hbuffered
      cases hbuffered
    | executeTools =>
      obtain ⟨rfl, -⟩ := Prod.mk.inj hstep
      obtain ⟨hsent, hnamed⟩ := plain_forwardStreamingEvent hin (c := s₁.client) hanswer he s₁.iteration
        s₁.loop.handler s₁.accumulator
      have hkept := not_buffered_of_action haction StreamAction.noConfusion
      refine ⟨hs.adds hsent, hacc₁, hnamed.trans (and_congr_right fun _ => ?_)⟩
      refine ⟨fun h hsentOn => h hsentOn.data hsentOn.completed, fun h hdata hcompleted =>
        Classical.byContradiction fun hunnamed => hunnamed (h ⟨hdata, hcompleted, hkept, fun _ => ?_⟩)⟩
      exact hin.not_skipped hunnamed haction

/-- **The run** of an iteration. -/
theorem plain_run (hin : SoundInputs ctx answers) {answer : Answer} (hanswer : answer ∈ answers)
    {events : List Event} (hevents : ∀ e ∈ events, e ∈ answer.events) (hs : s.client.Plain)
    (hacc : s.accumulator.Sound) : (s.run ctx events).1.client.Plain ∧
      (s.run ctx events).1.accumulator.Sound ∧
      ((s.run ctx events).1.client.AllNamed ↔ s.client.AllNamed ∧ s.NamesAll ctx events) := by
  have hstep : ∀ {s₁ s₂ : Stream} {r : Option Unit}, ∀ e ∈ events, (s₁.client.Plain ∧
      s₁.accumulator.Sound ∧ s₁.isFirstIteration = s.isFirstIteration) → step ctx s₁ e = (s₂, r) →
      (s₂.client.Plain ∧ s₂.accumulator.Sound ∧ s₂.isFirstIteration = s.isFirstIteration) ∧
        (s₂.client.AllNamed ↔
          s₁.client.AllNamed ∧ (e.SentOn ctx.types s.isFirstIteration → e.Named)) := by
    intro s₁ s₂ r e he ⟨hs₁, hacc₁, hfirst⟩ hstep
    obtain ⟨hs₂, hacc₂, hnamed⟩ := plain_step hin hanswer (hevents e he) hs₁ hacc₁ hstep
    exact ⟨⟨hs₂, hacc₂, (isFirstIteration_step hstep).trans hfirst⟩, hfirst ▸ hnamed⟩
  have hrule := runUntil_iff (E := fun s' _ => s'.client.AllNamed) hstep hstep ⟨hs, hacc, rfl⟩
  rw [run_eq, namesAll_iff]
  rcases hrun : runUntil (step ctx) s events with ⟨s', _ | r⟩
  · obtain ⟨⟨hplain, hsound, -⟩, hnamed⟩ := hrule.1 hrun
    exact ⟨hplain, hsound, hnamed⟩
  · obtain ⟨⟨hplain, hsound, -⟩, hnamed⟩ := hrule.2 hrun
    exact ⟨hplain, hsound, hnamed⟩

end Stream

theorem Interception.own_callTools {ctx : Context} {answers : List Answer} (hin : SoundInputs ctx answers)
    (iteration : Nat) (calls : List ToolCall) (s : Interception) :
    Client.Adds Sent.Own s.client (s.callTools ctx iteration calls).client := by
  induction calls generalizing s with
  | nil => exact .refl _
  | cons t calls ih =>
    have hone : Client.Adds Sent.Own s.client (callTool ctx iteration s t).client :=
      own_sendMcpCallCompletionEvents hin ..
    exact hone.trans (ih (callTool ctx iteration s t))

/-! ### Runs -/

namespace Interception
variable {ctx : Context} {basePayload : Value} {answers : List Answer} {s : Interception}

/-- The message that an answer which is no success is told with, if the stream was not left before. -/
def failure (ctx : Context) (s : Interception) : Answer → Option Str
  | .unreachable e => some e
  | .refused status body => some ("Upstream error ".toList ++ status ++ ": ".toList ++ body)
  | .stream events (some e) =>
      if (s.send.start.run ctx events).2 = true then none else some ("Stream error: ".toList ++ e)
  | .stream _ none => none

/-- **The condition** on an answer: the events that are sent on have names, and the message is clean. -/
structure TellsWell (ctx : Context) (s : Interception) (answer : Answer) : Prop where
  names : s.send.start.NamesAll ctx answer.events
  clean : ∀ message, s.failure ctx answer = some message → Clean message

/-- So do all the answers that a run comes to. -/
def AllTellWell (ctx : Context) (basePayload : Value) (s : Interception) (answers : List Answer) : Prop :=
  ∀ past answer s', past ++ [answer] <+: answers → s.run ctx basePayload past = (s', true) →
    s'.TellsWell ctx answer

theorem wellFormed_stop (hs : s.client.Plain) {message : Str} (hmessage : Clean message) :
    (∀ b ∈ (s.stop message).1.client.channel, b.WellFormed) ↔ s.client.AllNamed := by
  change (∀ b ∈ ((s.client.channel ++ [Sent.error message]) ++ [.done]), b.WellFormed) ↔ _
  rw [forall_mem_append, forall_mem_append, forall_mem_singleton,
    forall_mem_singleton, hs.wellFormed_iff]
  exact ⟨fun h => h.1.1, fun h => ⟨⟨h, (wellFormed_error_iff message).mpr hmessage⟩, wellFormed_done⟩⟩

theorem wellFormed_complete (hin : SoundInputs ctx answers) (hs : s.client.Plain) {stream : Stream}
    (hacc : stream.accumulator.Sound) :
    (∀ b ∈ (s.complete ctx stream).client.channel, b.WellFormed) ↔ s.client.AllNamed := by
  have hfinal := own_sendFinalResponseEvent hin (c := s.client) stream.loop.handler hacc
    s.state.conversationHistory
  have hsent := (hs.own hfinal).wellFormed_send_iff .done
  rw [and_iff_left wellFormed_done, hfinal.allNamed_iff] at hsent
  rw [complete]
  split <;> exact hsent

/-- The error of a resumed payload. -/
theorem error_buildResumePayload {history : List Value} {input : ResponseInput} {tools : Value}
    {isStreaming : Bool} {message : Str}
    (h : buildResumePayload basePayload history input tools isStreaming = .error message) :
    message = "payload not an object".toList := by
  unfold buildResumePayload at h
  split at h
  · exact (Except.error.inj h).symm
  · cases h

/-- **A turn**: whether the loop goes on or ends, the blocks are as before and as the answer makes them. -/
theorem wellFormed_turn (hin : SoundInputs ctx answers) (basePayload : Value)
    (hs : s.client.Plain) {answer : Answer} (hanswer : answer ∈ answers) :
    match s.turn ctx basePayload answer with
    | (s', true) => s'.client.Plain ∧ (s'.client.AllNamed ↔ s.client.AllNamed ∧ s.TellsWell ctx answer)
    | (s', false) => (∀ b ∈ s'.client.channel, b.WellFormed) ↔
        s.client.AllNamed ∧ s.TellsWell ctx answer := by
  -- what a message adds to what was sent before it
  have hfail : ∀ (s' : Interception) {message : Str}, s'.client.Plain →
      (s'.client.AllNamed ↔ s.client.AllNamed ∧ s.send.start.NamesAll ctx answer.events) →
      s.failure ctx answer = some message →
      ((∀ b ∈ (s'.fail message).1.client.channel, b.WellFormed) ↔
        s.client.AllNamed ∧ s.TellsWell ctx answer) := by
    intro s' message hs' hnamed hfailure
    refine (hs'.wellFormed_send_iff _).trans ?_
    rw [wellFormed_error_iff, hnamed, and_assoc]
    refine and_congr_right fun _ => ⟨fun ⟨hnames, hclean⟩ => ⟨hnames, fun message' heq => ?_⟩,
      fun h => ⟨h.names, h.clean message hfailure⟩⟩
    exact Option.some.inj (hfailure.symm.trans heq) ▸ hclean
  have hsucceed : s.failure ctx answer = none →
      (s.send.start.NamesAll ctx answer.events ↔ s.TellsWell ctx answer) := fun hnone =>
    ⟨fun h => ⟨h, fun _ heq => absurd (hnone.symm.trans heq) (Option.some_ne_none _).symm⟩, fun h => h.names⟩
  have hnoEvents : s.send.start.NamesAll ctx [] := fun past _ _ hle =>
    absurd (List.prefix_nil.mp hle) (append_ne_nil_of_right_ne_nil past (cons_ne_nil _ _))
  cases answer with
  | unreachable e => exact hfail s.send hs (and_iff_left hnoEvents).symm rfl
  | refused status body => exact hfail s.send hs (and_iff_left hnoEvents).symm rfl
  | stream events error =>
    have hread : ∀ {stream : Stream} {detected : Bool},
        s.send.start.run ctx events = (stream, detected) →
          stream.client.Plain ∧ stream.accumulator.Sound ∧
            (stream.client.AllNamed ↔ s.client.AllNamed ∧ s.send.start.NamesAll ctx events) := by
      intro stream detected hrun
      have hread := Stream.plain_run hin hanswer (fun _ (he : _ ∈ events) => he) (s := s.send.start) hs
        .new
      rw [hrun] at hread
      exact hread
    have hleft : ∀ {stream : Stream}, s.send.start.run ctx events = (stream, true) →
        s.failure ctx (.stream events error) = none := by
      intro stream hrun
      cases error with
      | none => rfl
      | some e => exact if_pos (congrArg Prod.snd hrun)
    have hcalled : ∀ {stream : Stream}, s.send.start.run ctx events = (stream, true) →
        (called ctx s stream).client.Plain ∧
          ((called ctx s stream).client.AllNamed ↔ s.client.AllNamed ∧ s.TellsWell ctx (.stream events error)) := by
      intro stream hrun
      obtain ⟨hplain, -, hnamed⟩ := hread hrun
      have hadds := own_callTools hin s.state.iteration
        (executeStreamingToolCalls stream.loop.handler.pendingCalls)
        ((s.send.keep stream).count stream.loop.handler.pendingCalls.length)
      refine ⟨Client.Plain.own hplain hadds, hadds.allNamed_iff.trans (hnamed.trans ?_)⟩
      exact and_congr_right fun _ => hsucceed (hleft hrun)
    have hturned := turned ctx basePayload s (.stream events error)
    generalize s.turn ctx basePayload (.stream events error) = result at hturned ⊢
    cases hturned with
    | failed message hanswer => rcases hanswer with ⟨_, hanswer⟩ | ⟨_, _, hanswer⟩ <;> cases hanswer
    | exceeded hrun hlimit =>
      obtain ⟨hplain, -, hnamed⟩ := hread hrun
      refine (wellFormed_stop (s := (s.send.keep _).count _) hplain ⟨by decide, by decide⟩).trans ?_
      exact hnamed.trans (and_congr_right fun _ => hsucceed (hleft hrun))
    | unresumed hrun hlimit hresume =>
      rw [error_buildResumePayload hresume]
      exact (wellFormed_stop (hcalled hrun).1 ⟨by decide, by decide⟩).trans (hcalled hrun).2
    | resumed hrun hlimit hresume => exact hcalled hrun
    | broken hrun =>
      obtain ⟨hplain, -, hnamed⟩ := hread hrun
      exact hfail (s.send.keep _) hplain hnamed
        (if_neg fun hdetected => absurd ((congrArg Prod.snd hrun).symm.trans hdetected) Bool.false_ne_true)
    | completed hrun =>
      obtain ⟨hplain, hacc, hnamed⟩ := hread hrun
      refine (wellFormed_complete (s := s.send.keep _) hin hplain hacc).trans ?_
      exact hnamed.trans (and_congr_right fun _ => hsucceed rfl)

theorem allTellWell_iff {rest : List Answer} : AllTellWell ctx basePayload s rest ↔
    Met (step ctx basePayload) (fun s' answer => s'.TellsWell ctx answer) s rest := by
  refine forall_congr' fun past => forall₂_congr fun answer s' => imp_congr_right fun _ => imp_congr_left ?_
  rw [run_eq, Prod.ext_iff, Prod.ext_iff, Option.isNone_iff_eq_none]

/-- The run from a state where all that was sent is plain. -/
theorem wellFormed_run_iff_of_plain (hin : SoundInputs ctx answers) (hs : s.client.Plain)
    {rest : List Answer} (hrest : ∀ answer ∈ rest, answer ∈ answers) :
    (∀ b ∈ (s.run ctx basePayload rest).1.client.channel, b.WellFormed) ↔
      s.client.AllNamed ∧ AllTellWell ctx basePayload s rest := by
  have hrule := runUntil_iff (l := rest) (F := fun s' answer => s'.TellsWell ctx answer)
    (P := fun s' => s'.client.Plain) (C := fun s' => s'.client.AllNamed) (Q := fun _ _ => True)
    (E := fun s' _ => ∀ b ∈ s'.client.channel, b.WellFormed)
    (fun {s₁ s₂} answer hanswer hs₁ (hstep : step ctx basePayload s₁ answer = (s₂, none)) => ?_)
    (fun {s₁ s₂ r} answer hanswer hs₁ hstep => ?_) hs
  · rw [run_eq, allTellWell_iff]
    rcases hrun : runUntil (step ctx basePayload) s rest with ⟨s', _ | r⟩
    · obtain ⟨hplain, hnamed⟩ := hrule.1 hrun
      exact hplain.wellFormed_iff.trans hnamed
    · exact (hrule.2 hrun).2
  · have hturn := wellFormed_turn hin basePayload hs₁ (hrest answer hanswer)
    rw [turn_of_step hstep] at hturn
    exact hturn
  · have hturn := wellFormed_turn hin basePayload hs₁ (hrest answer hanswer)
    rw [turn_of_step hstep] at hturn
    exact ⟨trivial, hturn⟩

end Interception

/-- **The blocks**: those of a run are well formed exactly when the events that it sends on have names, and
the message of the answer that it fails with, if any, is clean. -/
theorem wellFormed_run_iff (ctx : Context) (payload : Value) (answers : List Answer)
    (hin : SoundInputs ctx answers) :
    (∀ b ∈ (Interception.runFrom ctx payload answers).1.client.channel, b.WellFormed) ↔
      Interception.AllTellWell ctx payload { currentPayload := payload } answers := by
  refine (Interception.wellFormed_run_iff_of_plain hin (fun _ hb => absurd hb not_mem_nil)
    fun _ h => h).trans (and_iff_right fun _ hb => absurd hb not_mem_nil)

/-- The inputs of a run are sound if its events have names, and no numbers but integers. -/
theorem soundInputs_plain {answers : List Answer} (hnames : ∀ answer ∈ answers, ∀ e ∈ answer.events,
      ∀ name, e.eventName = some name → '\n' ∉ name)
    (hdata : ∀ answer ∈ answers, ∀ e ∈ answer.events, ∀ v, e.data = some v ∨ e.again.2 = some v → v.Sound) :
    SoundInputs plainContext answers where
  types := by decide +kernel
  tools _ h := absurd h not_mem_nil
  metadata _ h := nomatch h
  names := hnames
  data answer hanswer e he v hv := hdata answer hanswer e he v (.inl hv)
  again answer hanswer e he v hv := hdata answer hanswer e he v (.inr hv)

/-- A stream that starts a response and breaks off is told well. -/
theorem broken_stream_told : SoundInputs plainContext [.stream [createdEvent] (some "reset".toList)] ∧
    ∀ b ∈ (Interception.runFrom plainContext (.object [])
      [.stream [createdEvent] (some "reset".toList)]).1.client.channel, b.WellFormed := by
  have hcreated : ∀ answer ∈ [Answer.stream [createdEvent] (some "reset".toList)],
      ∀ e ∈ answer.events, e = createdEvent := fun answer hanswer e he => by
    obtain rfl := List.mem_singleton.mp hanswer
    exact List.mem_singleton.mp he
  have hinputs : SoundInputs plainContext [.stream [createdEvent] (some "reset".toList)] := by
    refine soundInputs_plain (fun answer hanswer e he name hname => ?_) fun answer hanswer e he v hv => ?_
    · obtain rfl := hcreated answer hanswer e he
      cases hname
      decide
    · obtain rfl := hcreated answer hanswer e he
      obtain rfl : Value.object [("response".toList, .object [])] = v := hv.elim Option.some.inj Option.some.inj
      exact Value.sound_object.mpr (by simp)
  refine ⟨hinputs, (wellFormed_run_iff plainContext (.object []) _ hinputs).mpr
    fun past answer s' hle hrun => ?_⟩
  cases past with
  | cons answer₁ past =>
    have hlength := hle.length_le
    rw [length_append] at hlength
    exact absurd hlength (by simp)
  | nil =>
    obtain ⟨rfl, -⟩ := List.cons_prefix_cons.mp hle
    obtain ⟨rfl, -⟩ := Prod.mk.inj hrun
    refine ⟨fun read e _ hread _ _ => ?_, fun message hmessage => ?_⟩
    · have he : e ∈ [createdEvent] := hread.subset (mem_append_right _ (mem_singleton_self _))
      obtain rfl := List.mem_singleton.mp he
      exact ⟨_, rfl, by decide⟩
    · cases hmessage
      exact clean_of_plain (by simp)

/-- A body with a quote ends the message in the middle. -/
theorem quote_in_body : SoundInputs plainContext [.refused "400".toList "no such model: \"x\"".toList] ∧
    ¬ ∀ b ∈ (Interception.runFrom plainContext (.object [])
      [.refused "400".toList "no such model: \"x\"".toList]).1.client.channel, b.WellFormed := by
  refine ⟨soundInputs_plain ?_ ?_, fun h => ?_⟩
  · intro answer hanswer e he
    obtain rfl := List.mem_singleton.mp hanswer
    cases he
  · intro answer hanswer e he
    obtain rfl := List.mem_singleton.mp hanswer
    cases he
  · have hclean := (wellFormed_error_iff _).mp (h (.error
      ("Upstream error ".toList ++ "400".toList ++ ": ".toList ++ "no such model: \"x\"".toList))
      (mem_singleton_self _))
    exact absurd hclean.inside (by decide)

end QwenStack.Responses
