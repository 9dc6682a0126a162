import QwenStack.Responses.Completion

/-!
# Tool calls of a streamed response — the items of the client

The client is told when an item is added, what becomes of it, and what the response has in the end.  The
final response starts with a list of tools that is made for it, with an id of its own, so the item to which
the client was told that index 0 belongs is not there.

So the items of a run are those of its final response when there are none: nothing was added by any answer,
and none said that the response was in progress, so that the list of tools was sent.  Where items are added
before their other events and every event that takes an index tells it, they are only then, and it is the
first answer that matters (`lifecycle_iff`).
-/

namespace QwenStack.Responses
open FirstSeen List

/-! ### What the client reads of an item -/

/-- The ids that are named: of an item, and in an item. -/
def itemIds (v : Value) : List Str :=
  (Value.getStr "item_id".toList v).toList ++
    ((v.get "item".toList).bind (Value.getStr "id".toList)).toList

def Event.itemIds (e : Event) : List Str := (e.data.map Responses.itemIds).getD []

namespace Sent

def eventType : Sent → Option Str
  | .event _ name data => some (getEventType name data)
  | .verbatim e => e.eventType
  | _ => none

def itemIds : Sent → List Str
  | .event _ _ data => Responses.itemIds data
  | _ => []

/-- The output of the response in a block. -/
def output (b : Sent) : List Value :=
  ((b.response.bind (·.get "output".toList)).bind Value.asArray).getD []

end Sent

/-- **The property**: an item that is added has one end, all its events name one id and bear one index, and
the output has it with that id at that index. -/
def Lifecycle (types : ProtocolTypes) (channel : List Sent) (output : List Value) : Prop :=
  ∀ b ∈ channel, b.eventType = some types.itemAdded → ∃ o id i, b.item = some o ∧
    (channel.filter fun b' =>
      decide (b'.item = some o) && decide (b'.eventType = some types.itemDone)).length = 1 ∧
    (∀ b' ∈ channel, b'.item = some o → b'.itemIds.head? = some id ∧ b'.outputIndex = some i) ∧
    (output[i]?).bind (Value.getStr "id".toList) = some id

/-- An event adds no item, and does not say that the response is in progress. -/
def Event.Quiet (types : ProtocolTypes) (e : Event) : Prop :=
  e.eventType ≠ some types.itemAdded ∧ Stream.dataType e ≠ some types.inProgress

def QuietEvents (types : ProtocolTypes) (events : List Event) : Prop := ∀ e ∈ events, e.Quiet types

/-- **The condition**: the first answer does neither. -/
def Quiet (types : ProtocolTypes) (answers : List Answer) : Prop :=
  ∀ answer ∈ answers.head?, QuietEvents types answer.events

/-- Each id is generated once, and none of them is named by the upstream. -/
structure FreshIds (ctx : Context) (answers : List Answer) : Prop where
  once : ∀ kind kind' m n, m ≠ n → ctx.generateId kind m ≠ ctx.generateId kind' n
  ne_nil : ∀ kind n, ctx.generateId kind n ≠ []
  upstream : ∀ answer ∈ answers, ∀ e ∈ answer.events, ∀ id ∈ e.itemIds, ∀ kind n,
    ctx.generateId kind n ≠ id ∧ ctx.generateId kind n ≠ transformFcToMcpId id

/-! ### The data of an event for the client -/

theorem itemIds_congr {v v' : Value} (hid : v'.get "item_id".toList = v.get "item_id".toList)
    (hitem : v'.get "item".toList = v.get "item".toList) : itemIds v' = itemIds v := by
  rw [itemIds, itemIds, Value.getStr, Value.getStr, hid, hitem]

theorem getStr_transformId (key : String) (obj : Value) :
    Value.getStr key.toList (transformId key obj) =
      (Value.getStr key.toList obj).map transformFcToMcpId := by
  rw [transformId]
  cases hid : Value.getStr key.toList obj with
  | none => exact hid
  | some id =>
    obtain ⟨v, hv, -⟩ := Option.bind_eq_some_iff.mp hid
    rw [Value.getStr, Value.get_insert_self _ (Value.isObject_of_get hv)]
    rfl

theorem get_modifyMember_self (key : String) (f : Value → Value) (obj : Value) :
    (modifyMember key f obj).get key.toList = (obj.get key.toList).map f := by
  rw [modifyMember]
  cases hget : obj.get key.toList with
  | none => exact hget
  | some v => exact Value.get_insert_self _ (Value.isObject_of_get hget)

/-- The id of an item stays, or is that of an MCP call. -/
theorem id_transformItem (types : ProtocolTypes) (label : Str) (item : Value) :
    Value.getStr "id".toList (transformItem types label item) = Value.getStr "id".toList item ∨
      Value.getStr "id".toList (transformItem types label item) =
        (Value.getStr "id".toList item).map transformFcToMcpId := by
  rw [transformItem]
  split
  · right
    rw [getStr_transformId, Value.getStr, Value.getStr, Value.get_insert_of_ne _ _ (by decide),
      Value.get_insert_of_ne _ _ (by decide)]
  · exact .inl rfl

/-- Some ids are those of a value, or those of the MCP calls instead, or they are empty. -/
def Renamed (ids ids' : List Str) : Prop :=
  ∀ id ∈ ids', id = [] ∨ ∃ id' ∈ ids, id = id' ∨ id = transformFcToMcpId id'

namespace Renamed
variable {ids ids' more more' : List Str}

theorem refl (ids : List Str) : Renamed ids ids := fun id hid => .inr ⟨id, hid, .inl rfl⟩

theorem append (h : Renamed ids ids') (hmore : Renamed more more') :
    Renamed (ids ++ more) (ids' ++ more') := by
  intro id hid
  rcases List.mem_append.mp hid with hid | hid
  · refine (h id hid).imp_right ?_
    rintro ⟨id', hid', heq⟩
    exact ⟨id', mem_append_left _ hid', heq⟩
  · refine (hmore id hid).imp_right ?_
    rintro ⟨id', hid', heq⟩
    exact ⟨id', mem_append_right _ hid', heq⟩

theorem map (o : Option Str) : Renamed o.toList (o.map transformFcToMcpId).toList := by
  intro id hid
  obtain ⟨id', rfl, rfl⟩ := Option.map_eq_some_iff.mp (Option.mem_toList.mp hid)
  exact .inr ⟨id', Option.mem_toList.mpr rfl, .inr rfl⟩

theorem nil (ids : List Str) : Renamed ids [] := fun _ hid => absurd hid not_mem_nil

/-- One of them. -/
theorem of_mem (h : Renamed ids ids') {id : Str} (hid : id ∈ ids') : Renamed ids [id] := by
  intro id' hid'
  obtain rfl := List.mem_singleton.mp hid'
  exact h id' hid

end Renamed

section Transformations
variable (types : ProtocolTypes) (r : ResponsesRequest) (previousResponseId : Option Str)

/-- The response in an event is changed. -/
theorem get_transformedResponse (parsed : Value) (key : Str) (hkey : key ≠ "response".toList) :
    (if types.isResponseEvent ((Value.getStr "type".toList parsed).getD []) = true then
      modifyMember "response" (transformResponse r previousResponseId) parsed else parsed).get key =
        parsed.get key := by
  split
  · exact get_modifyMember_of_ne _ _ hkey
  · rfl

/-- **The ids** of an event for the client. -/
theorem renamed_applyEventTransformations (parsed : Value) : Renamed (itemIds parsed)
    (itemIds (applyEventTransformations types r previousResponseId parsed)) := by
  have hid := get_transformedResponse types r previousResponseId parsed "item_id".toList (by decide)
  have hitem := get_transformedResponse types r previousResponseId parsed "item".toList (by decide)
  rw [applyEventTransformations, itemIds, itemIds]
  split
  · refine .append ?_ ?_
    · rw [Value.getStr, Value.getStr, get_modifyMember_of_ne _ _ (by decide), hid]
      exact .refl _
    · rw [get_modifyMember_self, hitem]
      cases parsed.get "item".toList with
      | none => exact .refl _
      | some item =>
        rw [Option.map_some, Option.bind_some, Option.bind_some]
        rcases id_transformItem types r.serverLabel item with heq | heq
        · exact heq ▸ .refl _
        · exact heq ▸ .map _
  · split
    · refine .append ?_ ?_
      · rw [getStr_transformId, Value.getStr, Value.getStr, Value.get_insert_of_ne _ _ (by decide), hid]
        exact .map _
      · rw [get_transformId_of_ne _ (by decide), Value.get_insert_of_ne _ _ (by decide), hitem]
        exact .refl _
    · rw [Value.getStr, Value.getStr, hid, hitem]
      exact .refl _

/-- The type in the data stays, or it is that of the arguments of an MCP call. -/
theorem type_applyEventTransformations (parsed : Value) :
    (applyEventTransformations types r previousResponseId parsed).get "type".toList =
        parsed.get "type".toList ∨
      (Value.getStr "type".toList parsed).getD [] = types.argumentsDone ∧
        (applyEventTransformations types r previousResponseId parsed).get "type".toList =
          some (.string types.callArgumentsDone) := by
  have htype := get_transformedResponse types r previousResponseId parsed "type".toList (by decide)
  rw [applyEventTransformations]
  split
  · left
    rw [get_modifyMember_of_ne _ _ (by decide), htype]
  · split
    · next hdone =>
      rw [get_transformId_of_ne _ (by decide)]
      generalize (if types.isResponseEvent ((Value.getStr "type".toList parsed).getD []) = true then
        modifyMember "response" (transformResponse r previousResponseId) parsed else parsed) = obj
        at htype
      cases hobject : obj.isObject with
      | true => exact .inr ⟨hdone, Value.get_insert_self _ hobject⟩
      | false =>
        left
        cases obj with
        | object entries => cases hobject
        | _ => exact htype
    · exact .inl htype

end Transformations

/-! ### What is sent of an event -/

theorem ProtocolTypes.ne_itemAdded (types : ProtocolTypes) :
    types.callArgumentsDelta ≠ types.itemAdded ∧ types.callArgumentsDone ≠ types.itemAdded ∧
      types.callInProgress ≠ types.itemAdded ∧ types.callCompleted ≠ types.itemAdded ∧
      types.itemDone ≠ types.itemAdded ∧ types.completed ≠ types.itemAdded ∧
      types.itemDelta ≠ types.itemAdded := by
  have h := types.distinct
  have hown := types.added_ne
  simp only [nodup_cons, mem_cons, not_mem_nil, or_false, not_or] at h hown
  obtain ⟨h₁, h₂, h₃, h₄, -⟩ := hown
  obtain ⟨-, -, ⟨hcompleted, -⟩, ⟨hdelta, hdone, -⟩, -⟩ := h
  exact ⟨fun h => h₁ h.symm, fun h => h₂ h.symm, fun h => h₃ h.symm, fun h => h₄ h.symm,
    fun h => hdone h.symm, hcompleted, fun h => hdelta h.symm⟩

/-- An event is shown as one that adds an item exactly when it is one. -/
theorem eventType_transformed (types : ProtocolTypes) (name : Option Str) {parsed parsed' : Value}
    (htype : parsed'.get "type".toList = parsed.get "type".toList ∨
      (Value.getStr "type".toList parsed).getD [] = types.argumentsDone ∧
        parsed'.get "type".toList = some (.string types.callArgumentsDone)) :
    getEventType (name.map (mapEventName types)) parsed' = types.itemAdded ↔
      getEventType name parsed = types.itemAdded := by
  obtain ⟨-, -, hdeltaNe, hdoneNe⟩ := types.itemAdded_ne
  obtain ⟨hdelta, hdone, -⟩ := types.ne_itemAdded
  cases name with
  | some n =>
    change mapEventName types n = types.itemAdded ↔ n = types.itemAdded
    rw [mapEventName]
    split
    · next hn => exact iff_of_false hdelta fun h => hdeltaNe (h.symm.trans hn)
    · split
      · next hn => exact iff_of_false hdone fun h => hdoneNe (h.symm.trans hn)
      · exact Iff.rfl
  | none =>
    rw [getEventType, getEventType, Option.map_none, Option.none_or, Option.none_or, Value.getStr]
    rcases htype with hsame | ⟨harguments, hcall⟩
    · rw [hsame]
      exact Iff.rfl
    · rw [hcall]
      exact iff_of_false hdone fun h => hdoneNe (h.symm.trans harguments)

/-- More was sent, of which each block is of a kind. -/
def Client.Adds (kind : Sent → Prop) (c c' : Client) : Prop :=
  ∃ blocks, c'.channel = c.channel ++ blocks ∧ ∀ b ∈ blocks, kind b

namespace Client.Adds
variable {kind : Sent → Prop} {c c' c'' : Client}

theorem refl (c : Client) : Adds kind c c := ⟨[], (append_nil _).symm, fun _ h => nomatch h⟩

theorem trans (h : Adds kind c c') (h' : Adds kind c' c'') : Adds kind c c'' := by
  obtain ⟨blocks, heq, hblocks⟩ := h
  obtain ⟨blocks', heq', hblocks'⟩ := h'
  refine ⟨blocks ++ blocks', by rw [heq', heq, append_assoc], fun b hb => ?_⟩
  rcases List.mem_append.mp hb with hb | hb
  · exact hblocks b hb
  · exact hblocks' b hb

theorem one {block : Sent} (h : c'.channel = c.channel ++ [block]) (hblock : kind block) :
    Adds kind c c' :=
  ⟨[block], h, fun _ hb => List.mem_singleton.mp hb ▸ hblock⟩

theorem mem (h : Adds kind c c') {b : Sent} (hb : b ∈ c.channel) : b ∈ c'.channel := by
  obtain ⟨blocks, heq, -⟩ := h
  exact heq ▸ mem_append_left _ hb

theorem mem_or (h : Adds kind c c') {b : Sent} (hb : b ∈ c'.channel) : b ∈ c.channel ∨ kind b := by
  obtain ⟨blocks, heq, hblocks⟩ := h
  rw [heq] at hb
  exact (List.mem_append.mp hb).imp_right (hblocks b)

end Client.Adds

/-- A block that is sent for an event. -/
structure FromEvent (types : ProtocolTypes) (iteration : Nat) (e : Event) (b : Sent) : Prop where
  item : b.item = e.index.map (Item.upstream iteration)
  added : b.eventType = some types.itemAdded → e.eventType = some types.itemAdded
  ids : Renamed e.itemIds b.itemIds

/-- The ids in an event of the gateway's own that names one. -/
theorem itemIds_sendEvent (name : Str) (v i : Value) (id : Str) (more : List (String × Value))
    (hmore : (Value.ofMembers more).get "item".toList = none) :
    itemIds (.ofMembers ([("type", .string name), ("sequence_number", v)] ++
      ("output_index", i) :: ("item_id", .string id) :: more)) = [id] := by
  simp only [itemIds, cons_append, nil_append, Value.getStr_ofMembers_cons,
    Value.get_ofMembers_cons, String.reduceEq, if_false, if_true, hmore]
  rfl

section Forwarding
variable {ctx : Context} {c : Client} {k : Nat} {e : Event} {parsed : Value}

theorem FromEvent.sendEvent (hdata : e.data = some parsed) {name : Str}
    (hname : name ≠ ctx.types.itemAdded) {id : Str} (hid : Renamed e.itemIds [id]) (i : Value)
    (more : List (String × Value))
    (hmore : (Value.ofMembers more).get "item".toList = none) :
    Client.Adds (FromEvent ctx.types k e) c
      (c.sendEvent ((extractOutputIndex parsed).map (Item.upstream k)) name
        (("output_index", i) :: ("item_id", .string id) :: more)) := by
  refine .one rfl ⟨?_, fun h => absurd (Option.some.inj h) hname, ?_⟩
  · rw [Event.index, hdata, Option.bind_some]
    rfl
  · rw [Sent.itemIds, itemIds_sendEvent _ _ _ _ _ hmore]
    exact hid

/-- What a step that sends for an event does. -/
structure SendsFor (ctx : Context) (k : Nat) (e : Event) (c c' : Client) : Prop where
  adds : Client.Adds (FromEvent ctx.types k e) c c'
  generated : c'.generated = c.generated

theorem SendsFor.refl : SendsFor ctx k e c c := ⟨.refl c, rfl⟩

theorem SendsFor.trans {c' c'' : Client} (h : SendsFor ctx k e c c') (h' : SendsFor ctx k e c' c'') :
    SendsFor ctx k e c c'' :=
  ⟨h.adds.trans h'.adds, h'.generated.trans h.generated⟩

/-- The arguments that are sent before their end, and the event then. -/
theorem sendBuffered_sends (hdata : e.data = some parsed) (h : StreamingToolHandler)
    {buffered : Value × Option Nat × Client}
    (hbuffered : sendBuffered ctx ((extractOutputIndex parsed).map (Item.upstream k)) h e.eventName parsed
      c = buffered) :
    SendsFor ctx k e c buffered.2.2 ∧
      ∀ key, key ≠ "arguments".toList → buffered.1.get key = parsed.get key := by
  subst hbuffered
  rw [sendBuffered]
  split
  · rw [sendBufferedArguments]
    split
    · exact ⟨.refl, fun _ _ => rfl⟩
    · dsimp only
      split
      · exact ⟨.refl, fun _ _ => rfl⟩
      · refine ⟨⟨FromEvent.sendEvent hdata ctx.types.ne_itemAdded.1 ?_ _ _ ?_, rfl⟩,
          fun _ hkey => Value.get_insert_of_ne _ _ hkey⟩
        · have hids : e.itemIds = itemIds parsed := by rw [Event.itemIds, hdata]; rfl
          rw [Value.getStr, Value.get_insert_of_ne _ _ (by decide), hids, itemIds, Value.getStr]
          cases (parsed.get "item_id".toList).bind Value.asStr with
          | none => exact fun id hid => .inl (List.mem_singleton.mp hid)
          | some id =>
            intro id' hid'
            exact .inr ⟨id, mem_append_left _ (Option.mem_toList.mpr rfl),
              .inr (List.mem_singleton.mp hid')⟩
        · generalize Option.or _ _ = obfuscation
          refine (Value.get_ofMembers_cons "item" "delta" _ _).trans ?_
          rw [if_neg (by decide)]
          cases obfuscation with
          | none => rfl
          | some v => exact (Value.get_ofMembers_cons "item" "obfuscation" v []).trans (if_neg (by decide))
  · exact ⟨.refl, fun _ _ => rfl⟩

/-- The progress of a call that is added comes after what was sent. -/
theorem SendsFor.maybeInject {c' : Client} (hc : SendsFor ctx k e c c') (hdata : e.data = some parsed)
    {parsed' : Value} (hids : Renamed e.itemIds (itemIds parsed')) :
    SendsFor ctx k e c
        (maybeInjectMcpInProgress ctx ((extractOutputIndex parsed).map (Item.upstream k)) parsed' c') ∧
      ∀ b ∈ c'.channel, b ∈
        (maybeInjectMcpInProgress ctx ((extractOutputIndex parsed).map (Item.upstream k)) parsed'
          c').channel := by
  rw [maybeInjectMcpInProgress]
  split
  · exact ⟨hc, fun _ hb => hb⟩
  · next item hitem =>
    split
    · split
      · next id i hid hi =>
        have hmem : id ∈ itemIds parsed' := by
          rw [itemIds, hitem, Option.bind_some, hid]
          exact mem_append_right _ (Option.mem_toList.mpr rfl)
        have hsent : SendsFor ctx k e c' _ :=
          ⟨FromEvent.sendEvent hdata ctx.types.ne_itemAdded.2.2.1 (hids.of_mem hmem)
            (.integer i) [] rfl, rfl⟩
        exact ⟨hc.trans hsent, fun _ => hsent.adds.mem⟩
      · exact ⟨hc, fun _ hb => hb⟩
    · exact ⟨hc, fun _ hb => hb⟩

/-- A numbered event has the data but for its number. -/
theorem sendNumbered_data (c : Client) (item : Option Item) (name : Option Str) (v : Value) :
    ∃ data, (c.sendNumbered item name v).channel = c.channel ++ [.event item name data] ∧
      (c.sendNumbered item name v).generated = c.generated ∧
      ∀ key, key ≠ "sequence_number".toList → data.get key = v.get key := by
  rw [Client.sendNumbered]
  split
  · exact ⟨_, rfl, rfl, fun _ hkey => Value.get_insert_of_ne _ _ hkey⟩
  · exact ⟨_, rfl, rfl, fun _ _ => rfl⟩

/-- The event itself. -/
theorem sendNumbered_sends (hdata : e.data = some parsed) {parsed' : Value}
    (hids : Renamed e.itemIds (itemIds parsed'))
    (htype : parsed'.get "type".toList = parsed.get "type".toList ∨
      (Value.getStr "type".toList parsed).getD [] = ctx.types.argumentsDone ∧
        parsed'.get "type".toList = some (.string ctx.types.callArgumentsDone)) :
    SendsFor ctx k e c (c.sendNumbered ((extractOutputIndex parsed).map (Item.upstream k))
        (e.eventName.map (mapEventName ctx.types)) parsed') ∧
      (e.eventType = some ctx.types.itemAdded →
        ∃ b ∈ (c.sendNumbered ((extractOutputIndex parsed).map (Item.upstream k))
          (e.eventName.map (mapEventName ctx.types)) parsed').channel,
          b.item = e.index.map (Item.upstream k) ∧ b.eventType = some ctx.types.itemAdded) := by
  obtain ⟨data, hchannel, hgenerated, hsame⟩ := sendNumbered_data c
    ((extractOutputIndex parsed).map (Item.upstream k)) (e.eventName.map (mapEventName ctx.types)) parsed'
  have hindex : (extractOutputIndex parsed).map (Item.upstream k) = e.index.map (Item.upstream k) := by
    rw [Event.index, hdata, Option.bind_some]
  have heventType : e.eventType = some ctx.types.itemAdded ↔
      getEventType e.eventName parsed = ctx.types.itemAdded := by
    rw [Event.eventType, hdata, Option.map_some, Option.some.injEq]
  rw [← hsame "type".toList (by decide)] at htype
  have hadded := eventType_transformed ctx.types e.eventName htype
  have hdataIds : itemIds data = itemIds parsed' :=
    itemIds_congr (hsame _ (by decide)) (hsame _ (by decide))
  have hfrom : FromEvent ctx.types k e (.event ((extractOutputIndex parsed).map (Item.upstream k))
      (e.eventName.map (mapEventName ctx.types)) data) := by
    refine ⟨hindex, fun h => heventType.mpr (hadded.mp (Option.some.inj h)), ?_⟩
    rw [Sent.itemIds, hdataIds]
    exact hids
  refine ⟨⟨.one hchannel hfrom, hgenerated⟩, fun h => ⟨_, ?_, hfrom.item,
    congrArg some (hadded.mpr (heventType.mp h))⟩⟩
  rw [hchannel]
  exact mem_append_right _ (mem_singleton_self _)

/-- The ids and the type of an event for the client. -/
theorem transformEvent_ids (ctx : Context) (h : StreamingToolHandler) (acc : Accumulator)
    (mapped : Option Nat) {parsed v : Value}
    (hsame : ∀ key, key ≠ "arguments".toList → v.get key = parsed.get key) :
    Renamed (itemIds parsed) (itemIds (transformEvent ctx h acc mapped v)) ∧
      ((transformEvent ctx h acc mapped v).get "type".toList = parsed.get "type".toList ∨
        (Value.getStr "type".toList parsed).getD [] = ctx.types.argumentsDone ∧
          (transformEvent ctx h acc mapped v).get "type".toList =
            some (.string ctx.types.callArgumentsDone)) := by
  rw [transformEvent]
  generalize mapped.or ((extractOutputIndex v).bind h.outputIndexMapper.lookup) = i
  have hkept : ∀ key, key ≠ "arguments".toList → key ≠ "output_index".toList →
      (remapOutputIndex i v).get key = parsed.get key := fun key harguments hindex => by
    rw [← hsame key harguments]
    cases i with
    | none => rfl
    | some i => exact Value.get_insert_of_ne _ _ hindex
  have htype := hkept "type".toList (by decide) (by decide)
  have hids : itemIds (remapOutputIndex i v) = itemIds parsed :=
    itemIds_congr (hkept _ (by decide) (by decide)) (hkept _ (by decide) (by decide))
  rw [itemIds_congr (get_restoreResponseId_of_ne _ _ (by decide))
    (get_restoreResponseId_of_ne _ _ (by decide)), get_restoreResponseId_of_ne _ _ (by decide)]
  rw [← hids, ← htype, Value.getStr, ← htype]
  exact ⟨renamed_applyEventTransformations _ _ _ _, type_applyEventTransformations _ _ _ _⟩

/-- **An event that is forwarded**: what is sent is for it, and it adds an item if the event does. -/
theorem forwardStreamingEvent_sends (ctx : Context) (k : Nat) (h : StreamingToolHandler)
    (acc : Accumulator) (c : Client) (e : Event) :
    SendsFor ctx k e c (forwardStreamingEvent ctx k h acc c e) ∧
      (e.eventType = some ctx.types.itemAdded → ∃ b ∈ (forwardStreamingEvent ctx k h acc c e).channel,
          b.item = e.index.map (Item.upstream k) ∧ b.eventType = some ctx.types.itemAdded) := by
  obtain ⟨-, hcompleted, hdelta, -⟩ := ctx.types.itemAdded_ne
  rw [forwardStreamingEvent]
  split
  · next hname =>
    refine ⟨.refl, fun hadded => ?_⟩
    obtain ⟨parsed, -, htype⟩ := Option.map_eq_some_iff.mp hadded
    rw [getEventType, hname] at htype
    exact absurd htype.symm hdelta
  split
  · next hnone =>
    refine ⟨⟨.one rfl ⟨?_, fun h => h, .nil _⟩, rfl⟩, fun hadded => ?_⟩
    · rw [Event.index, hnone]
      rfl
    · rw [Event.eventType, hnone] at hadded
      cases hadded
  next parsed hdata =>
  have heventType : e.eventType = some (getEventType e.eventName parsed) := by
    rw [Event.eventType, hdata, Option.map_some]
  split
  · next htype =>
    refine ⟨.refl, fun hadded => ?_⟩
    rw [heventType, htype] at hadded
    exact absurd (Option.some.inj hadded).symm hcompleted
  dsimp only
  generalize hbuffered : sendBuffered ctx ((extractOutputIndex parsed).map (Item.upstream k)) h e.eventName
    parsed c = buffered
  obtain ⟨hsends, hsame⟩ := sendBuffered_sends hdata h hbuffered
  obtain ⟨hids, htype⟩ := transformEvent_ids ctx h acc buffered.2.1 hsame
  have heventIds : itemIds parsed = e.itemIds := by rw [Event.itemIds, hdata]; rfl
  rw [heventIds] at hids
  obtain ⟨hnumbered, hadded⟩ := sendNumbered_sends (c := buffered.2.2) (k := k) hdata hids htype
  split
  · obtain ⟨hinjected, hmem⟩ := (hsends.trans hnumbered).maybeInject hdata hids
    refine ⟨hinjected, fun h => ?_⟩
    obtain ⟨b, hb, hitem⟩ := hadded h
    exact ⟨b, hmem b hb, hitem⟩
  · exact ⟨hsends.trans hnumbered, hadded⟩

end Forwarding

/-! ### The gateway's own events -/

/-- A block about an item that names one id. -/
structure OwnEvent (o : Item) (id : Str) (b : Sent) : Prop where
  item : b.item = some o
  ids : ∀ id' ∈ b.itemIds, id' = id

/-- The ids in an event of the gateway's own with an item. -/
theorem itemIds_itemEvent (name : Str) (v i item : Value) :
    itemIds (.ofMembers ([("type", .string name), ("sequence_number", v)] ++
      [("output_index", i), ("item", item)])) = (Value.getStr "id".toList item).toList := by
  simp only [itemIds, cons_append, nil_append, Value.getStr_ofMembers_cons,
    Value.get_ofMembers_cons, String.reduceEq, if_false, if_true]
  rfl

theorem OwnEvent.sendEvent {o : Item} {id : Str} {c : Client} (name : Str) (i : Value) :
    Client.Adds (OwnEvent o id) c
      (c.sendEvent (some o) name [("output_index", i), ("item_id", .string id)]) := by
  refine .one rfl ⟨rfl, fun id' hid => ?_⟩
  rw [Sent.itemIds, itemIds_sendEvent _ _ _ _ _ rfl] at hid
  exact List.mem_singleton.mp hid

theorem OwnEvent.sendItem {o : Item} {id : Str} {c : Client} (name : Str) (i : Value) {item : Value}
    (hitem : Value.getStr "id".toList item = some id) :
    Client.Adds (OwnEvent o id) c (c.sendEvent (some o) name [("output_index", i), ("item", item)]) := by
  refine .one rfl ⟨rfl, fun id' hid => ?_⟩
  rw [Sent.itemIds, itemIds_itemEvent, hitem] at hid
  exact (Option.some.inj (Option.mem_toList.mp hid)).symm

/-- The id of the list of tools. -/
theorem id_buildMcpListToolsItem (ctx : Context) (label id : Str) :
    Value.getStr "id".toList (buildMcpListToolsItem ctx label id) = some id :=
  (Value.getStr_ofMembers_cons "id" "id" _ _).trans (if_pos rfl)

/-- The list of tools: it is added, and all its events name a new id. -/
theorem sendMcpListToolsEvents_adds (ctx : Context) (i : Nat) (c : Client) :
    Client.Adds (OwnEvent .listTools (ctx.generateId "mcpl".toList c.generated)) c
        (sendMcpListToolsEvents ctx i c) ∧
      ∃ b ∈ (sendMcpListToolsEvents ctx i c).channel,
        b.item = some .listTools ∧ b.eventType = some ctx.types.itemAdded := by
  have hid := id_buildMcpListToolsItem ctx ctx.request.serverLabel
    (ctx.generateId "mcpl".toList c.generated)
  rw [sendMcpListToolsEvents, hid]
  generalize buildMcpListToolsItem ctx _ _ = full at hid ⊢
  have hempty : Value.getStr "id".toList (full.insert "tools".toList (.array [])) =
      some (ctx.generateId "mcpl".toList c.generated) := by
    rw [Value.getStr, Value.get_insert_of_ne _ _ (by decide)]
    exact hid
  have hadded : Client.Adds (OwnEvent .listTools (ctx.generateId "mcpl".toList c.generated)) c
      (c.generate.sendEvent (some .listTools) ctx.types.itemAdded
        [("output_index", .integer i), ("item", full.insert "tools".toList (.array []))]) :=
    OwnEvent.sendItem _ _ hempty
  have hfirst : ∃ b ∈ (c.generate.sendEvent (some .listTools) ctx.types.itemAdded
      [("output_index", .integer i), ("item", full.insert "tools".toList (.array []))]).channel,
        b.item = some .listTools ∧ b.eventType = some ctx.types.itemAdded :=
    ⟨_, mem_append_right _ (mem_singleton_self _), rfl, rfl⟩
  generalize c.generate.sendEvent (some .listTools) ctx.types.itemAdded _ = c₁ at hadded hfirst ⊢
  have hrest : Client.Adds (OwnEvent .listTools (ctx.generateId "mcpl".toList c.generated)) c₁ _ :=
    ((OwnEvent.sendEvent ctx.types.listToolsInProgress (.integer i)).trans
      (OwnEvent.sendEvent ctx.types.listToolsCompleted (.integer i))).trans
        (OwnEvent.sendItem ctx.types.itemDone (.integer i) hid)
  obtain ⟨b, hb, hitem⟩ := hfirst
  exact ⟨hadded.trans hrest, b, hrest.mem hb, hitem⟩

/-- The end of a call names a new id. -/
theorem sendMcpCallCompletionEvents_adds (ctx : Context) (k : Nat) (call : FunctionCallInProgress)
    (output : Str) (success : Bool) (error : Option Str) (c : Client) :
    Client.Adds (OwnEvent (.upstream k call.outputIndex) (ctx.generateId "mcp".toList c.generated)) c
      (sendMcpCallCompletionEvents ctx k call output success error c) := by
  rw [sendMcpCallCompletionEvents]
  generalize hitem : buildMcpCallItem ctx.types _ _ _ _ _ _ _ = item
  have hid : Value.getStr "id".toList item = some (ctx.generateId "mcp".toList c.generated) := by
    rw [← hitem, buildMcpCallItem, Value.getStr_ofMembers_cons, if_pos rfl]
    rfl
  rw [hid]
  exact Client.Adds.trans (OwnEvent.sendEvent (c := c.generate) _ _) (OwnEvent.sendItem _ _ hid)

/-! ### What holds of the client -/

/-- An item was added. -/
def Client.HasAdded (types : ProtocolTypes) (c : Client) : Prop :=
  ∃ b ∈ c.channel, b.eventType = some types.itemAdded

/-- Each item was added, and no id that was named will be generated. -/
structure Client.Shows (ctx : Context) (c : Client) : Prop where
  opened : ∀ b ∈ c.channel, ∀ o, b.item = some o →
    ∃ b' ∈ c.channel, b'.item = some o ∧ b'.eventType = some ctx.types.itemAdded
  old : ∀ b ∈ c.channel, ∀ id ∈ b.itemIds, ∀ n, c.generated ≤ n →
    ctx.generateId "mcpl".toList n ≠ id

section Shows
variable {ctx : Context} {answers : List Answer} {c c' : Client}

theorem Client.HasAdded.adds {types : ProtocolTypes} {kind : Sent → Prop} (hc : c.HasAdded types)
    (h : Adds kind c c') : c'.HasAdded types := by
  obtain ⟨b, hb, htype⟩ := hc
  exact ⟨b, h.mem hb, htype⟩

/-- More is sent of items that were added, or are added now, and names ids that were not generated or are
generated now. -/
theorem Client.Shows.adds {kind : Sent → Prop} (hc : c.Shows ctx) (h : Adds kind c c')
    (hopened : ∀ b, kind b → ∀ o, b.item = some o → (∃ b' ∈ c.channel, b'.item = some o) ∨
        ∃ b' ∈ c'.channel, b'.item = some o ∧ b'.eventType = some ctx.types.itemAdded)
    (hle : c.generated ≤ c'.generated)
    (hold : ∀ b, kind b → ∀ id ∈ b.itemIds, ∀ n, c'.generated ≤ n →
      ctx.generateId "mcpl".toList n ≠ id) : c'.Shows ctx where
  opened b hb o ho := by
    have hknown : (∃ b' ∈ c.channel, b'.item = some o) ∨
        ∃ b' ∈ c'.channel, b'.item = some o ∧ b'.eventType = some ctx.types.itemAdded :=
      (h.mem_or hb).elim (fun hb => .inl ⟨b, hb, ho⟩) fun hkind => hopened b hkind o ho
    rcases hknown with ⟨b', hb', ho'⟩ | hadded
    · obtain ⟨b'', hb'', hadded⟩ := hc.opened b' hb' o ho'
      exact ⟨b'', h.mem hb'', hadded⟩
    · exact hadded
  old b hb id hid n hn := by
    rcases h.mem_or hb with hb | hkind
    · exact hc.old b hb id hid n (Nat.le_trans hle hn)
    · exact hold b hkind id hid n hn

theorem Client.Shows.own (hc : c.Shows ctx) (hfresh : FreshIds ctx answers) {o : Item} {kind : Str}
    (h : Adds (OwnEvent o (ctx.generateId kind c.generated)) c c')
    (hgenerated : c'.generated = c.generated + 1)
    (ho : (∃ b ∈ c.channel, b.item = some o) ∨
      ∃ b ∈ c'.channel, b.item = some o ∧ b.eventType = some ctx.types.itemAdded) : c'.Shows ctx := by
  refine hc.adds h (fun b hb o' ho' => ?_) (hgenerated ▸ Nat.le_succ _) fun b hb id hid n hn => ?_
  · cases hb.item.symm.trans ho'
    exact ho
  · rw [hgenerated] at hn
    rw [hb.ids id hid]
    exact hfresh.once _ _ _ _ (Nat.ne_of_gt hn)

/-- An event is forwarded, whose item was added or is added by it. -/
theorem Client.Shows.forward (hc : c.Shows ctx) (hfresh : FreshIds ctx answers) {answer : Answer}
    (hanswer : answer ∈ answers) {e : Event} (he : e ∈ answer.events) {k : Nat}
    (hknown : ∀ i, e.index = some i → e.eventType = some ctx.types.itemAdded ∨
      ∃ b ∈ c.channel, b.item = some (.upstream k i)) (h : StreamingToolHandler) (acc : Accumulator) :
    (forwardStreamingEvent ctx k h acc c e).Shows ctx := by
  obtain ⟨hsends, hadded⟩ := forwardStreamingEvent_sends ctx k h acc c e
  refine hc.adds hsends.adds (fun b hb o ho => ?_) (Nat.le_of_eq hsends.generated.symm)
    fun b hb id hid n hn => ?_
  · obtain ⟨i, hi, rfl⟩ := Option.map_eq_some_iff.mp (hb.item.symm.trans ho)
    rcases hknown i hi with htype | hknown
    · obtain ⟨b', hb', hitem, htype'⟩ := hadded htype
      exact .inr ⟨b', hb', hitem.trans (by rw [hi]; rfl), htype'⟩
    · exact .inl hknown
  · rcases hb.ids id hid with rfl | ⟨id', hid', hrenamed⟩
    · exact hfresh.ne_nil _ _
    · obtain ⟨hsame, htransformed⟩ := hfresh.upstream answer hanswer e he id' hid' "mcpl".toList n
      rcases hrenamed with rfl | rfl
      · exact hsame
      · exact htransformed

/-- An item that the client has was added. -/
theorem Client.Shows.hasAdded (hc : c.Shows ctx) {items : List Item} (hl : c.Lists True items) {o : Item}
    (ho : o ∈ items) : c.HasAdded ctx.types := by
  rw [← hl.first trivial, mem_eraseDups, mem_filterMap] at ho
  obtain ⟨b, hb, ho⟩ := ho
  obtain ⟨b', hb', -, htype⟩ := hc.opened b hb o ho
  exact ⟨b', hb', htype⟩

end Shows

/-! ### The stream -/

/-- **The invariant** of a stream: what it was before, and whether an item was added. -/
structure Stream.Core (ctx : Context) (before : Prop) (past : List Event) (items : List Item)
    (s : Stream) : Prop where
  indexed : s.Indexed True items
  known : ∀ e ∈ past, ∀ i, e.index = some i → .upstream s.iteration i ∈ items
  shows : s.client.Shows ctx
  progress : s.loop.seenInProgress = true → s.loop.mcpListToolsSent = true
  sent : s.loop.mcpListToolsSent = true → s.client.HasAdded ctx.types
  hasAdded : s.client.HasAdded ctx.types ↔ before ∨ ¬ QuietEvents ctx.types past

section Concat
variable {types : ProtocolTypes} {c c' : Client} {before : Prop} {past : List Event} {e : Event}

theorem quietEvents_concat :
    QuietEvents types (past ++ [e]) ↔ QuietEvents types past ∧ e.Quiet types := by
  rw [QuietEvents, forall_mem_append, forall_mem_singleton, QuietEvents]

/-- An item is added with an event exactly when the event is not quiet. -/
theorem hasAdded_concat (hhas : c.HasAdded types ↔ before ∨ ¬ QuietEvents types past)
    (hmono : c.HasAdded types → c'.HasAdded types) (hback : c'.HasAdded types → c.HasAdded types ∨ ¬ e.Quiet types)
    (hnoisy : ¬ e.Quiet types → c'.HasAdded types) :
    c'.HasAdded types ↔ before ∨ ¬ QuietEvents types (past ++ [e]) := by
  rw [quietEvents_concat, not_and_or, ← or_assoc, ← hhas]
  exact ⟨hback, fun h => h.elim hmono hnoisy⟩

end Concat

namespace Stream
variable {ctx : Context} {s s' : Stream} {items : List Item} {e : Event} {answers : List Answer}

/-- A stream with calls to make has items. -/
theorem Indexed.hasAdded (hs : s.Indexed True items) (hshows : s.client.Shows ctx)
    (hpending : s.loop.handler.pendingCalls ≠ []) : s.client.HasAdded ctx.types := by
  obtain ⟨call, calls, hcons⟩ := exists_cons_of_ne_nil hpending
  obtain ⟨j, -, hlookup⟩ := hs.calls call (hcons ▸ mem_cons_self ..)
  rw [hs.maps.lookup] at hlookup
  split at hlookup
  · next hmem => exact hshows.hasAdded hs.lists hmem
  · cases hlookup

/-- What an event that is not skipped does to the client. -/
structure Forwards (ctx : Context) (e : Event) (c c' : Client) : Prop where
  shows : c'.Shows ctx
  mono : c.HasAdded ctx.types → c'.HasAdded ctx.types
  back : c'.HasAdded ctx.types → c.HasAdded ctx.types ∨ e.eventType = some ctx.types.itemAdded
  added : e.eventType = some ctx.types.itemAdded → c'.HasAdded ctx.types

theorem sendForward_forwards (hfresh : FreshIds ctx answers) {answer : Answer}
    (hanswer : answer ∈ answers) (he : e ∈ answer.events) (hshows : s.client.Shows ctx)
    (hlists : s.client.Lists True items)
    (hann : ∀ i, e.index = some i →
      e.eventType = some ctx.types.itemAdded ∨ .upstream s.iteration i ∈ items) :
    Forwards ctx e s.client (s.sendForward ctx e).client := by
  obtain ⟨hsends, hadded⟩ := forwardStreamingEvent_sends ctx s.iteration s.loop.handler s.accumulator
    s.client e
  refine ⟨hshows.forward hfresh hanswer he (fun i hi => (hann i hi).imp_right fun hmem => ?_) _ _,
    fun h => h.adds hsends.adds, fun ⟨b, hb, htype⟩ => ?_, fun h => ?_⟩
  · rw [← hlists.first trivial, mem_eraseDups, mem_filterMap] at hmem
    exact hmem
  · exact (hsends.adds.mem_or hb).imp (fun hb => ⟨b, hb, htype⟩) fun hkind => hkind.added htype
  · obtain ⟨b, hb, -, htype⟩ := hadded h
    exact ⟨b, hb, htype⟩

theorem Forwards.refl {c : Client} (hshows : c.Shows ctx) (h : e.eventType ≠ some ctx.types.itemAdded) :
    Forwards ctx e c c :=
  ⟨hshows, fun h => h, .inl, fun hadded => absurd hadded h⟩

theorem sendUnlessSkipped_forwards (hfresh : FreshIds ctx answers) {answer : Answer}
    (hanswer : answer ∈ answers) (he : e ∈ answer.events) (hshows : s.client.Shows ctx)
    (hlists : s.client.Lists True items)
    (hann : ∀ i, e.index = some i →
      e.eventType = some ctx.types.itemAdded ∨ .upstream s.iteration i ∈ items)
    (htold : Told ctx.types.toEventTypes (s.isFirstIteration = false) e) :
    Forwards ctx e s.client (s.sendUnlessSkipped ctx e).client := by
  rw [sendUnlessSkipped]
  split
  · next hskipped =>
    refine .refl hshows fun hadded => ?_
    obtain ⟨hcreated, hprogress⟩ := htold.added hskipped.1 hadded
    exact hskipped.2.elim hcreated hprogress
  · exact sendForward_forwards hfresh hanswer he hshows hlists hann

/-- The list of tools may follow: it does if the response is in progress for the first time. -/
theorem sendListTools_shows (hfresh : FreshIds ctx answers) (hshows : s.client.Shows ctx)
    (hprogress : s.loop.seenInProgress = true → s.loop.mcpListToolsSent = true)
    (hsent : s.loop.mcpListToolsSent = true → s.client.HasAdded ctx.types) :
    (s.sendListTools ctx e).Shows ctx ∧
      (s.client.HasAdded ctx.types → (s.sendListTools ctx e).HasAdded ctx.types) ∧
      ((s.sendListTools ctx e).HasAdded ctx.types →
        s.client.HasAdded ctx.types ∨ dataType e = some ctx.types.inProgress) ∧
      (dataType e = some ctx.types.inProgress → (s.sendListTools ctx e).HasAdded ctx.types) := by
  rw [sendListTools]
  split
  · next hstart =>
    obtain ⟨hadds, hadded⟩ := sendMcpListToolsEvents_adds ctx
      s.loop.handler.allocateSyntheticOutputIndex.1 s.client
    obtain ⟨b, hb, hitem, htype⟩ := hadded
    exact ⟨hshows.own hfresh hadds rfl (.inr ⟨b, hb, hitem, htype⟩), fun h => h.adds hadds,
      fun _ => .inr hstart.2.1, fun _ => ⟨b, hb, htype⟩⟩
  · next hstart =>
    refine ⟨hshows, fun h => h, .inl, fun htype => hsent ?_⟩
    cases hseen : s.loop.seenInProgress with
    | true => exact hprogress hseen
    | false =>
      cases hlist : s.loop.mcpListToolsSent with
      | true => rfl
      | false => exact absurd ⟨hseen, htype, hlist⟩ hstart

theorem not_quiet_iff : ¬ e.Quiet ctx.types ↔
    e.eventType = some ctx.types.itemAdded ∨ dataType e = some ctx.types.inProgress := by
  rw [Event.Quiet, not_and_or, not_not, not_not]

/-- Only a delta is kept from the client, and the stream is left only at an end. -/
theorem eventType_of_action {h : StreamingToolHandler} {et : EventTypes} {action : StreamAction}
    (haction : (h.processEvent et e).2 = action) :
    (action = .buffer → e.eventType = some et.itemDelta) ∧ (action = .executeTools →
        e.eventType = some et.argumentsDone ∨ e.eventType = some et.itemDone) := by
  rcases eq_or_ne action .forward with rfl | hforward
  · exact ⟨StreamAction.noConfusion, StreamAction.noConfusion⟩
  have hdone : ∀ h : StreamingToolHandler, h.actionOfDone ≠ .buffer := by
    intro h
    rw [StreamingToolHandler.actionOfDone]
    split <;> exact StreamAction.noConfusion
  rw [StreamingToolHandler.processEvent] at haction
  split at haction
  · exact absurd haction.symm hforward
  · next parsed hdata =>
    have htype : ∀ {type : Str}, getEventType e.eventName parsed = type → e.eventType = some type := fun h => by
      rw [Event.eventType, hdata, Option.map_some, h]
    dsimp only at haction
    split at haction
    · exact absurd haction.symm hforward
    split at haction
    · exact absurd haction.symm hforward
    split at haction
    · rw [action_handleOutputItemAdded] at haction
      exact absurd haction.symm hforward
    split at haction
    · rw [StreamingToolHandler.handleArgumentsDelta] at haction
      split at haction
      · exact absurd haction.symm hforward
      · dsimp only at haction
        split at haction <;> exact absurd haction.symm hforward
    split at haction
    · next h => exact ⟨fun h' => absurd (haction.trans h') (hdone _), fun _ => .inl (htype h)⟩
    split at haction
    · next h =>
      refine ⟨fun _ => htype h, fun h' => ?_⟩
      rw [StreamingToolHandler.processOutputDelta] at haction
      dsimp only at haction
      split at haction
      · cases haction.trans h'
      · split at haction <;> cases haction.trans h'
    split at haction
    · next h => exact ⟨fun h' => absurd (haction.trans h') (hdone _), fun _ => .inr (htype h)⟩
    · exact absurd haction.symm hforward

theorem eventType_of_buffer {h : StreamingToolHandler} {et : EventTypes}
    (haction : (h.processEvent et e).2 = .buffer) : e.eventType = some et.itemDelta :=
  (eventType_of_action haction).1 rfl

section Step
variable {before : Prop} {past : List Event} {s₁ : Stream}

/-- An event is forwarded. -/
theorem Core.forward (hs : s.Core ctx before past items) (hclient : s₁.client = s.client)
    (hsent : s₁.loop.mcpListToolsSent = s.loop.mcpListToolsSent)
    (hseen : s₁.loop.seenInProgress = s.loop.seenInProgress) (hfresh : FreshIds ctx answers)
    (hforwards : Forwards ctx e s₁.client (s₁.sendUnlessSkipped ctx e).client) {items' : List Item}
    (hindexed : (s₁.forward ctx e).Indexed True items')
    (hknown : ∀ e' ∈ past ++ [e], ∀ i, e'.index = some i →
      .upstream (s₁.forward ctx e).iteration i ∈ items') :
    (s₁.forward ctx e).Core ctx before (past ++ [e]) items' := by
  have hlists := sendListTools_shows (e := e) (s := s₁.sendUnlessSkipped ctx e) hfresh hforwards.shows
    (by rw [sendUnlessSkipped_loop, hseen, hsent]; exact hs.progress)
    (by
      rw [sendUnlessSkipped_loop, hsent]
      exact fun h => hforwards.mono (hclient ▸ hs.sent h))
  obtain ⟨hshows, hmono, hback, hprogress⟩ := hlists
  have hloop : (s₁.forward ctx e).loop = s₁.loop.afterForward ctx.types.toEventTypes e := by
    rw [Stream.forward, sendUnlessSkipped_loop]
  refine ⟨hindexed, hknown, hshows, ?_, ?_, ?_⟩
  · rw [hloop]
    by_cases hstart : s₁.loop.seenInProgress = false ∧ dataType e = some ctx.types.inProgress
    · rw [afterForward_of hstart]
      exact fun _ => rfl
    · rw [afterForward_of_not hstart, hseen, hsent]
      exact hs.progress
  · rw [hloop]
    by_cases hstart : s₁.loop.seenInProgress = false ∧ dataType e = some ctx.types.inProgress
    · exact fun _ => hprogress hstart.2
    · rw [afterForward_of_not hstart, hsent]
      exact fun h => hmono (hforwards.mono (hclient ▸ hs.sent h))
  · refine hasAdded_concat hs.hasAdded (fun h => hmono (hforwards.mono (hclient ▸ h))) (fun h => ?_) fun h => ?_
    · rw [not_quiet_iff]
      rcases hback h with h | htype
      · exact (hforwards.back h).imp (fun h => hclient ▸ h) .inl
      · exact .inr (.inr htype)
    · rcases not_quiet_iff.mp h with hadded | htype
      · exact hmono (hforwards.added hadded)
      · exact hprogress htype

/-- **The step.** -/
theorem Core.step (hs : s.Core ctx before past items)
    (hfresh : FreshIds ctx answers) {answer : Answer} (hanswer : answer ∈ answers)
    (he : e ∈ answer.events)
    (hann : ∀ i, e.index = some i →
      e.eventType = some ctx.types.itemAdded ∨ .upstream s.iteration i ∈ items)
    (htold : Told ctx.types.toEventTypes (s.isFirstIteration = false) e) {r : Option Unit}
    (hstep : Stream.step ctx s e = (s', r)) :
    ∃ items', s'.Core ctx before (past ++ [e]) items' ∧ s'.iteration = s.iteration ∧
      s'.isFirstIteration = s.isFirstIteration := by
  obtain ⟨items', hle, hmem, hnext⟩ := hs.indexed.step hann fun _ => htold
  have hknown : ∀ e' ∈ past ++ [e], ∀ i, e'.index = some i → .upstream s.iteration i ∈ items' := by
    intro e' he' i hi
    rcases List.mem_append.mp he' with he' | he'
    · exact hle.subset (hs.known e' he' i hi)
    · obtain rfl := List.mem_singleton.mp he'
      exact hmem i hi
  rw [Stream.step] at hstep
  cases hprocess : s.process ctx e with
  | mk s₁ action =>
    obtain ⟨hiteration, hfirst⟩ := iteration_process hprocess
    have hs₁ : (s.process ctx e).1 = s₁ := congrArg Prod.fst hprocess
    have hclient : s₁.client = s.client := hs₁ ▸ rfl
    have hsent : s₁.loop.mcpListToolsSent = s.loop.mcpListToolsSent := hs₁ ▸ rfl
    have hseen : s₁.loop.seenInProgress = s.loop.seenInProgress := hs₁ ▸ rfl
    have hshows : s₁.client.Shows ctx := hclient ▸ hs.shows
    have hlists : s₁.client.Lists True items := hclient ▸ hs.indexed.lists
    rw [← hiteration] at hknown hann
    rw [← hfirst] at htold
    rw [hprocess] at hstep hnext
    cases action with
    | forward =>
      obtain ⟨rfl, -⟩ := Prod.mk.inj hstep
      refine ⟨items', hs.forward hclient hsent hseen hfresh
        (sendUnlessSkipped_forwards hfresh hanswer he hshows hlists hann htold) hnext ?_,
        iteration_forward.1.trans hiteration, iteration_forward.2.trans hfirst⟩
      rw [iteration_forward.1]
      exact hknown
    | buffer =>
      obtain ⟨rfl, -⟩ := Prod.mk.inj hstep
      refine ⟨items', ⟨hnext, hknown, hshows, ?_, ?_, ?_⟩, hiteration, hfirst⟩
      · rw [hseen, hsent]
        exact hs.progress
      · rw [hsent]
        exact fun h => hclient ▸ hs.sent h
      · refine hasAdded_concat hs.hasAdded (fun h => hclient ▸ h) (fun h => .inl (hclient ▸ h)) fun _ => ?_
        -- the item of the event was added before
        have hdelta := eventType_of_buffer (congrArg Prod.snd hprocess)
        obtain ⟨i, hi⟩ := Option.ne_none_iff_exists'.mp (htold.delta hdelta)
        exact hshows.hasAdded hnext.lists (hknown e (mem_append_right _ (mem_singleton_self e)) i hi)
    | executeTools =>
      obtain ⟨rfl, -⟩ := Prod.mk.inj hstep
      have hforwards := sendForward_forwards (s := s₁) hfresh hanswer he hshows hlists hann
      -- there are calls to make
      have hcomplete := hasCompleteCalls_of_executeTools (congrArg Prod.snd hprocess)
      rw [StreamingToolHandler.hasCompleteCalls, Bool.and_eq_true] at hcomplete
      have hadded : (s₁.sendForward ctx e).client.HasAdded ctx.types :=
        Indexed.hasAdded hnext hforwards.shows (hs₁ ▸ of_decide_eq_true hcomplete.1)
      refine ⟨items', ⟨hnext, hknown, hforwards.shows, ?_, fun _ => hadded, ?_⟩, hiteration, hfirst⟩
      · change s₁.loop.seenInProgress = true → s₁.loop.mcpListToolsSent = true
        rw [hseen, hsent]
        exact hs.progress
      · refine hasAdded_concat hs.hasAdded (fun _ => hadded) (fun h => ?_) fun _ => hadded
        rw [not_quiet_iff]
        exact (hforwards.back h).imp (fun h => hclient ▸ h) .inl

/-- **The run** of a stream. -/
theorem Core.run (hs : s.Core ctx before [] items) (hfresh : FreshIds ctx answers) {events : List Event}
    {error : Option Str} (hanswer : .stream events error ∈ answers)
    (hann : Announced ctx.types.toEventTypes events)
    (htold : ∀ e ∈ events, Told ctx.types.toEventTypes (s.isFirstIteration = false) e)
    {detected : Bool} (hrun : s.run ctx events = (s', detected)) :
    s'.iteration = s.iteration ∧ ∃ past items', past <+: events ∧ (detected = false → past = events) ∧
      s'.Core ctx before past items' := by
  have hrule := run_rule ctx events
    (P := fun past s' => s'.iteration = s.iteration ∧ s'.isFirstIteration = s.isFirstIteration ∧
      ∃ items', s'.Core ctx before past items')
    (Q := fun s' => s'.iteration = s.iteration ∧ ∃ past items', past <+: events ∧
      s'.Core ctx before past items') (s := s)
  have hone : ∀ {past : List Event} {e : Event} {s₁ s₂ : Stream} {r : Option Unit},
      past ++ [e] <+: events → (s₁.iteration = s.iteration ∧
        s₁.isFirstIteration = s.isFirstIteration ∧ ∃ items', s₁.Core ctx before past items') →
      Stream.step ctx s₁ e = (s₂, r) → s₂.iteration = s.iteration ∧
        s₂.isFirstIteration = s.isFirstIteration ∧ ∃ items', s₂.Core ctx before (past ++ [e]) items' := by
    intro past e s₁ s₂ r hle hP hstep
    obtain ⟨hiteration, hfirst, items', hcore⟩ := hP
    obtain ⟨post, hpost⟩ := hle
    have he : e ∈ events := by
      rw [← hpost]
      exact mem_append_left _ (mem_append_right _ (mem_singleton_self e))
    obtain ⟨items'', hcore', hiteration', hfirst'⟩ := hcore.step hfresh hanswer he (fun i hi => by
        refine (hann past e post i ?_ hi).imp_right fun ⟨e', he', _, hi'⟩ => hcore.known e' he' i hi'
        rw [← hpost, append_assoc, singleton_append])
      (hfirst ▸ htold e he) hstep
    exact ⟨hiteration'.trans hiteration, hfirst'.trans hfirst, items'', hcore'⟩
  have hend := hrule (fun past e s₁ s₂ hle hP hstep => hone hle hP hstep)
    (fun past e s₁ s₂ u hle hP hstep => by
      obtain ⟨hiteration, -, items', hcore⟩ := hone hle hP hstep
      exact ⟨hiteration, past ++ [e], items', hle, hcore⟩)
    ⟨rfl, rfl, items, hs⟩
  rw [hrun] at hend
  cases detected with
  | false =>
    obtain ⟨hiteration, -, items', hcore⟩ := hend
    exact ⟨hiteration, events, items', prefix_refl _, fun _ => rfl, hcore⟩
  | true =>
    obtain ⟨hiteration, past, items', hle, hcore⟩ := hend
    exact ⟨hiteration, past, items', hle, Bool.noConfusion, hcore⟩

end Step

end Stream

/-! ### The loop -/

namespace Interception
variable {ctx : Context} {s : Interception} {answers : List Answer}

/-- **The invariant** between two answers: an item was added exactly if there was an answer. -/
structure Core (ctx : Context) (past : List Answer) (items : List Item) (s : Interception) : Prop where
  indexed : s.Indexed True items
  shows : s.client.Shows ctx
  sent : s.mcpListToolsSent = true → s.client.HasAdded ctx.types
  first : s.isFirstIteration = false → past ≠ []
  hasAdded : s.client.HasAdded ctx.types ↔ past ≠ []
  noisy : past ≠ [] → ¬ Quiet ctx.types past

theorem Core.start {past : List Answer} {items : List Item} (hs : s.Core ctx past items) :
    s.send.start.Core ctx (past ≠ []) [] items where
  indexed := Indexed.start (s := s.send) ⟨⟨hs.indexed.next, hs.indexed.lists⟩, hs.indexed.listTools,
    hs.indexed.past⟩
  known _ he := absurd he not_mem_nil
  shows := hs.shows
  progress := Bool.noConfusion
  sent := hs.sent
  hasAdded := by
    have hquiet : QuietEvents ctx.types [] := fun _ he => absurd he not_mem_nil
    rw [or_iff_left (not_not_intro hquiet)]
    exact hs.hasAdded

/-- The calls of an iteration, whose items the client has. -/
theorem callTools_shows (hfresh : FreshIds ctx answers) {k : Nat} {calls : List ToolCall}
    (hs : s.client.Shows ctx)
    (hcalls : ∀ t ∈ calls, ∃ b ∈ s.client.channel, b.item = some (.upstream k t.call.outputIndex)) :
    (s.callTools ctx k calls).client.Shows ctx ∧
      (s.client.HasAdded ctx.types → (s.callTools ctx k calls).client.HasAdded ctx.types) := by
  induction calls generalizing s with
  | nil => exact ⟨hs, fun h => h⟩
  | cons t calls ih =>
    have hadds : Client.Adds _ s.client (callTool ctx k s t).client :=
      sendMcpCallCompletionEvents_adds ctx k t.call _ _ _ s.client
    obtain ⟨hshows, hmono⟩ := ih (hs.own hfresh hadds rfl (.inl (hcalls t (mem_cons_self ..))))
      fun t' ht' => by
        obtain ⟨b, hb, hitem⟩ := hcalls t' (mem_cons_of_mem _ ht')
        exact ⟨b, hadds.mem hb, hitem⟩
    exact ⟨hshows, fun h => hmono (h.adds hadds)⟩

/-- The condition depends on the first answer alone. -/
theorem quiet_append {types : ProtocolTypes} {past more : List Answer} (h : past ≠ []) :
    Quiet types (past ++ more) ↔ Quiet types past := by
  rw [Quiet, List.head?_append_of_ne_nil past h, Quiet]

/-- An item was added after an answer exactly when the first answer is not quiet. -/
theorem Core.hasAdded_iff {past : List Answer} {items items' : List Item} (hs : s.Core ctx past items)
    {stream : Stream} {read events : List Event} (hread : read <+: events)
    (hstream : stream.Core ctx (past ≠ []) read items')
    (hall : read ≠ events → stream.client.HasAdded ctx.types) (error : Option Str) (rest : List Answer) :
    stream.client.HasAdded ctx.types ↔ ¬ Quiet ctx.types (past ++ .stream events error :: rest) := by
  by_cases hpast : past = []
  · subst hpast
    have hquiet : Quiet ctx.types ([] ++ .stream events error :: rest) ↔ QuietEvents ctx.types events :=
      ⟨fun h => h _ rfl, fun h answer hanswer => Option.some.inj hanswer ▸ h⟩
    have hadded : stream.client.HasAdded ctx.types ↔ ¬ QuietEvents ctx.types read := by
      rw [hstream.hasAdded, or_iff_right (not_not_intro rfl)]
    rw [hquiet]
    refine ⟨fun h hevents => hadded.mp h fun e he => hevents e (hread.subset he), fun h => ?_⟩
    by_cases heq : read = events
    · rw [hadded, heq]
      exact h
    · exact hall heq
  · rw [quiet_append hpast]
    exact iff_of_true (hstream.hasAdded.mpr (.inl hpast)) (hs.noisy hpast)

/-- **The turn** of a loop that goes on. -/
theorem Core.turn (hfresh : FreshIds ctx answers) {past : List Answer} {items : List Item}
    (hs : s.Core ctx past items) {answer : Answer} (hanswer : answer ∈ answers) (basePayload : Value)
    (hann : Announced ctx.types.toEventTypes answer.events)
    (htold : ∀ e ∈ answer.events, Told ctx.types.toEventTypes (s.isFirstIteration = false) e)
    {s' : Interception} (hturn : s.turn ctx basePayload answer = (s', true)) :
    ∃ items', s'.Core ctx (past ++ [answer]) items' := by
  obtain ⟨items', -, hindexed⟩ := hs.indexed.turn basePayload hann fun _ => htold
  rw [hturn] at hindexed
  refine ⟨items', ?_⟩
  have hturned := turned ctx basePayload s answer
  rw [hturn] at hturned
  cases hturned with
  | @resumed events error stream payload hrun hlimit hresume =>
    obtain ⟨hiteration, read, items'', hread, -, hstream⟩ :=
      hs.start.run hfresh hanswer hann htold hrun
    have hdetected := @Stream.pendingCalls_of_detected ctx s.send.start events
    rw [hrun] at hdetected
    have hleft := hstream.indexed.hasAdded hstream.shows (hdetected rfl)
    have hcalls : ∀ t ∈ executeStreamingToolCalls stream.loop.handler.pendingCalls,
        ∃ b ∈ stream.client.channel, b.item = some (.upstream s.state.iteration t.call.outputIndex) := by
      intro t ht
      have hmem := (effectiveOutputIndex_of_mem hstream.indexed ht).1
      rw [hiteration, ← hstream.indexed.lists.first trivial, mem_eraseDups, mem_filterMap] at hmem
      exact hmem
    obtain ⟨hshows, hmono⟩ := callTools_shows
      (s := (s.send.keep stream).count stream.loop.handler.pendingCalls.length) hfresh hstream.shows hcalls
    have hne : past ++ [.stream events error] ≠ [] :=
      append_ne_nil_of_right_ne_nil _ (cons_ne_nil _ _)
    exact ⟨hindexed rfl, hshows, fun _ => hmono hleft, fun _ => hne, iff_of_true (hmono hleft) hne,
      fun _ => (hs.hasAdded_iff hread hstream (fun _ => hleft) error []).mp hleft⟩

theorem core_start (ctx : Context) (payload : Value) :
    ({ currentPayload := payload } : Interception).Core ctx [] [] where
  indexed := ⟨⟨rfl, Enumerates.nil⟩, fun _ => not_mem_nil, fun _ _ hmem => absurd hmem not_mem_nil⟩
  shows := ⟨fun _ hb => absurd hb not_mem_nil, fun _ hb => absurd hb not_mem_nil⟩
  sent := Bool.noConfusion
  first := Bool.noConfusion
  hasAdded := iff_of_false (fun ⟨_, hb, _⟩ => absurd hb not_mem_nil) (not_not_intro rfl)
  noisy h := absurd rfl h

/-- A run that goes on, as a loop that ends by itself. -/
theorem runUntil_of_goesOn {payload : Value} {past : List Answer}
    (h : runFrom ctx payload past = (s, true)) :
    Until.runUntil (step ctx payload) { currentPayload := payload } past = (s, none) := by
  rw [runFrom, run_eq] at h
  obtain ⟨hs, hnone⟩ := Prod.mk.inj h
  exact Prod.ext hs (Option.isNone_iff_eq_none.mp hnone)

/-- **The run** while it goes on. -/
theorem core_of_run (hfresh : FreshIds ctx answers) {payload : Value}
    (hann : ∀ answer ∈ answers, Announced ctx.types.toEventTypes answer.events)
    (htold : AllTold ctx.types.toEventTypes answers) {past : List Answer} (hle : past <+: answers)
    (hrun : runFrom ctx payload past = (s, true)) : ∃ items, s.Core ctx past items := by
  have hrule := Until.runUntil_rule (l := past)
    (P := fun past (s : Interception) => ∃ items, s.Core ctx past items) (Q := fun _ _ _ => True)
    (fun before answer s₁ s₂ hbefore hP (hstep : step ctx payload s₁ answer = (s₂, none)) => by
      obtain ⟨items, hs⟩ := hP
      have hprefix := hbefore.trans hle
      have hmem : answer ∈ answers :=
        hprefix.subset (mem_append_right _ (mem_singleton_self _))
      have hget : answers[before.length]? = some answer := by
        obtain ⟨rest, hrest⟩ := hprefix
        rw [← hrest, append_assoc, List.getElem?_append_right (Nat.le_refl _), Nat.sub_self]
        rfl
      have hturn : s₁.turn ctx payload answer = (s₂, true) := by
        have hgoesOn := congrArg Prod.snd hstep
        have hstate := congrArg Prod.fst hstep
        refine Prod.ext hstate ?_
        rw [step] at hgoesOn
        split at hgoesOn
        · next h => exact h
        · cases hgoesOn
      refine hs.turn hfresh hmem payload (hann answer hmem) (fun e he => ?_) hturn
      have htold := htold before.length answer hget e he
      exact ⟨htold.delta, fun hfirst => htold.added (length_pos_of_ne_nil (hs.first hfirst))⟩)
    (fun _ _ _ _ _ _ _ _ => trivial) ⟨[], core_start ctx payload⟩
  exact hrule.1 s (runUntil_of_goesOn hrun)

/-- How a run ends. -/
theorem Completes.runFrom_eq {payload : Value} {events : List Event} {stream : Stream}
    (h : Completes ctx payload answers s events stream) :
    runFrom ctx payload answers = ((s.send.keep stream).complete ctx stream, false) := by
  obtain ⟨past, ⟨rest, rfl⟩, hpast, hrun⟩ := h
  have hturn : s.turn ctx payload (.stream events none) =
      ((s.send.keep stream).complete ctx stream, false) := by
    rw [turn, hrun]
    rfl
  have hstep : step ctx payload s (.stream events none) =
      ((s.send.keep stream).complete ctx stream, some ()) := by
    rw [step, hturn]
    rfl
  rw [runFrom, run_eq, append_assoc, singleton_append,
    Until.runUntil_append_none _ (runUntil_of_goesOn hpast), Until.runUntil_cons_some _ hstep]
  rfl

section Final
variable {stream : Stream} {block : Sent}

/-- The final event and the end of the stream come last. -/
theorem complete_channel (hfinal : finalEvent ctx s stream = some block) :
    ((s.send.keep stream).complete ctx stream).client.channel = stream.client.channel ++ [block, .done] := by
  rw [finalEvent_eq] at hfinal
  obtain ⟨response, hresponse, hblock⟩ := Option.map_eq_some_iff.mp hfinal
  have hchannel : (sendFinalResponseEvent ctx stream.loop.handler stream.accumulator
      s.state.conversationHistory stream.client).channel = stream.client.channel ++ [block] := by
    rw [sendFinalResponseEvent, hresponse, ← hblock]
    rfl
  have hcomplete : ((s.send.keep stream).complete ctx stream).client.channel =
      (sendFinalResponseEvent ctx stream.loop.handler stream.accumulator
        s.state.conversationHistory stream.client).channel ++ [.done] := by
    rw [complete]
    split <;> rfl
  rw [hcomplete, hchannel, append_assoc]
  rfl

/-- The output of a response for the client starts with a list of tools that has a new id. -/
theorem output_finishResponse (ctx : Context) (history : List Value) (generated : Nat) (id : Option Str)
    (response : Value) :
    (finishResponse ctx history generated id response).get "output".toList = none ∨
      ∃ more, (finishResponse ctx history generated id response).get "output".toList =
        some (.array (buildMcpListToolsItem ctx ctx.request.serverLabel
          (ctx.generateId "mcpl".toList generated) :: more)) := by
  have hkeeps : KeepsMember "output".toList fun v => patchResponseWithRequestMetadata ctx.request
      ctx.previousResponseId (maskToolsAsMcp ctx.request v) :=
    (KeepsMember.patch _ _ (by decide)).comp (KeepsMember.mask _ (by decide) (by decide))
  have hinsert : ∀ v more : Value, (v.insert "output".toList more).get "output".toList = none ∨
      (v.insert "output".toList more).get "output".toList = some more := fun v more => by
    cases v with
    | object entries => exact .inr (Value.get_insert_self more rfl)
    | _ => exact .inl rfl
  unfold finishResponse
  rw [hkeeps.get, injectMcpMetadata]
  split
  · exact (hinsert _ _).imp_right fun h => ⟨_, h⟩
  · exact (hinsert _ _).imp_right fun h => ⟨_, h⟩

theorem output_finalEvent (hfinal : finalEvent ctx s stream = some block) {v : Value}
    (hv : block.output[0]? = some v) :
    Value.getStr "id".toList v = some (ctx.generateId "mcpl".toList stream.client.generated) := by
  rw [finalEvent_eq] at hfinal
  obtain ⟨response, -, rfl⟩ := Option.map_eq_some_iff.mp hfinal
  simp only [Sent.output, Sent.response, cons_append, nil_append, Value.get_ofMembers_cons,
    String.reduceEq, if_false, if_true, Option.bind_some] at hv
  rw [Value.get_insert_of_ne _ _ (by decide)] at hv
  rcases output_finishResponse ctx s.state.conversationHistory (s.send.keep stream).client.generated
    (originalResponseId stream.loop.handler stream.accumulator) response with hnone | ⟨more, hsome⟩
  · rw [hnone] at hv
    cases hv
  · rw [hsome] at hv
    cases hv
    exact id_buildMcpListToolsItem ..

end Final

/-- **The items of the client**: if an item was added, the one at index 0 is not in the final output. -/
theorem not_lifecycle {stream : Stream} {block : Sent} {before : Prop} {events : List Event}
    {items : List Item} (hstream : stream.Core ctx before events items)
    (hfinal : finalEvent ctx s stream = some block) (hadded : stream.client.HasAdded ctx.types) :
    ¬ Lifecycle ctx.types (stream.client.channel ++ [block, .done]) block.output := by
  intro hlifecycle
  obtain ⟨b, hb, htype⟩ := hadded
  obtain ⟨o, -, -, ho, -⟩ := hlifecycle b (mem_append_left _ hb) htype
  have hmem : o ∈ items := hstream.indexed.lists.mem_items hb ho
  -- the first item has index 0
  obtain ⟨o₀, rest, rfl⟩ := exists_cons_of_ne_nil (ne_nil_of_mem hmem)
  have hfirst : o₀ ∈ o₀ :: rest := mem_cons_self ..
  rw [← hstream.indexed.lists.first trivial, mem_eraseDups, mem_filterMap] at hfirst
  obtain ⟨b₁, hb₁, ho₁⟩ := hfirst
  obtain ⟨b₀, hb₀, ho₀, htype₀⟩ := hstream.shows.opened b₁ hb₁ o₀ ho₁
  obtain ⟨o', id, i, ho', -, hsame, houtput⟩ := hlifecycle b₀ (mem_append_left _ hb₀) htype₀
  obtain ⟨hid, hindex⟩ := hsame b₀ (mem_append_left _ hb₀) ho'
  rw [(hstream.indexed.lists.placed b₀ hb₀ o₀ ho₀).2, idxOf_cons_self] at hindex
  cases hindex
  obtain ⟨v, hv, hvid⟩ := Option.bind_eq_some_iff.mp houtput
  rw [output_finalEvent hfinal hv] at hvid
  exact hstream.shows.old b₀ hb₀ id (List.mem_of_mem_head? hid) _ (Nat.le_refl _) (Option.some.inj hvid)

end Interception

/-! ### Runs in which nothing is added -/

section Quiet
variable {ctx : Context} {c : Client}

theorem hasAdded_sendEvent {item : Option Item} {name : Str} (hname : name ≠ ctx.types.itemAdded)
    {members : List (String × Value)} (h : ¬ c.HasAdded ctx.types) :
    ¬ (c.sendEvent item name members).HasAdded ctx.types := by
  rintro ⟨b, hb, htype⟩
  rcases List.mem_append.mp hb with hb | hb
  · exact h ⟨b, hb, htype⟩
  · obtain rfl := List.mem_singleton.mp hb
    exact hname (Option.some.inj htype)

theorem Stream.quiet_forward {s : Stream} {e : Event} (he : e.Quiet ctx.types)
    (h : ¬ s.client.HasAdded ctx.types) : ¬ (s.sendForward ctx e).client.HasAdded ctx.types := by
  rintro ⟨b, hb, htype⟩
  rcases (forwardStreamingEvent_sends ctx s.iteration s.loop.handler s.accumulator
    s.client e).1.adds.mem_or hb with hb | hfor
  · exact h ⟨b, hb, htype⟩
  · exact he.1 (hfor.added htype)

/-- **The step**: a quiet event adds nothing. -/
theorem Stream.quiet_step {s s' : Stream} {e : Event} {r : Option Unit} (he : e.Quiet ctx.types)
    (h : ¬ s.client.HasAdded ctx.types) (hstep : Stream.step ctx s e = (s', r)) :
    ¬ s'.client.HasAdded ctx.types := by
  rw [Stream.step] at hstep
  cases hprocess : s.process ctx e with
  | mk s₁ action =>
    have hs₁ : ¬ s₁.client.HasAdded ctx.types := by
      have hclient : (s.process ctx e).1.client = s.client := rfl
      rw [hprocess] at hclient
      exact hclient ▸ h
    rw [hprocess] at hstep
    cases action with
    | forward =>
      obtain ⟨rfl, -⟩ := Prod.mk.inj hstep
      change ¬ ((s₁.sendUnlessSkipped ctx e).sendListTools ctx e).HasAdded ctx.types
      rw [sendListTools, if_neg fun hstart => he.2 hstart.2.1, sendUnlessSkipped]
      split
      · exact hs₁
      · exact quiet_forward he hs₁
    | buffer =>
      obtain ⟨rfl, -⟩ := Prod.mk.inj hstep
      exact hs₁
    | executeTools =>
      obtain ⟨rfl, -⟩ := Prod.mk.inj hstep
      exact quiet_forward he hs₁

theorem Stream.quiet_run {s : Stream} {events : List Event} (hevents : QuietEvents ctx.types events)
    (h : ¬ s.client.HasAdded ctx.types) : ¬ (s.run ctx events).1.client.HasAdded ctx.types := by
  have hone : ∀ {past : List Event} {e : Event} {s₁ s₂ : Stream} {r : Option Unit}, past ++ [e] <+: events →
      ¬ s₁.client.HasAdded ctx.types → Stream.step ctx s₁ e = (s₂, r) → ¬ s₂.client.HasAdded ctx.types :=
    fun hle hs₁ hstep => quiet_step (hevents _ (hle.subset (mem_append_right _ (mem_singleton_self _))))
      hs₁ hstep
  have hrule := run_rule ctx events (P := fun _ s => ¬ s.client.HasAdded ctx.types)
    (Q := fun s => ¬ s.client.HasAdded ctx.types) (fun _ _ _ _ hle hs₁ hstep => hone hle hs₁ hstep)
    (fun _ _ _ _ _ hle hs₁ hstep => hone hle hs₁ hstep) h
  cases hrun : s.run ctx events with
  | mk s' detected =>
    rw [hrun] at hrule
    cases detected <;> exact hrule

namespace Interception

theorem quiet_callTools (k : Nat) (calls : List ToolCall) {s : Interception}
    (h : ¬ s.client.HasAdded ctx.types) : ¬ (s.callTools ctx k calls).client.HasAdded ctx.types := by
  obtain ⟨-, -, -, hcompleted, hdone, -⟩ := ctx.types.ne_itemAdded
  induction calls generalizing s with
  | nil => exact h
  | cons t calls ih =>
    exact ih (s := callTool ctx k s t)
      (hasAdded_sendEvent hdone (hasAdded_sendEvent hcompleted (c := s.client.generate) h))

/-- **The run** while it goes on. -/
theorem quiet_run {payload : Value} {answers past : List Answer} {s : Interception}
    (hquiet : ∀ answer ∈ answers, QuietEvents ctx.types answer.events) (hle : past <+: answers)
    (hrun : runFrom ctx payload past = (s, true)) : ¬ s.client.HasAdded ctx.types := by
  have hrule := run_rule ctx payload past (P := fun _ s => ¬ s.client.HasAdded ctx.types) (Q := fun _ => True)
    (fun before answer s₁ s₂ hbefore hs₁ hturn => by
      have hevents := hquiet answer
        ((hbefore.trans hle).subset (mem_append_right _ (mem_singleton_self _)))
      cases hturn with
      | @resumed events error stream payload hstream hlimit hresume =>
        have hread : ¬ (s₁.send.start.run ctx events).1.client.HasAdded ctx.types :=
          Stream.quiet_run hevents hs₁
        rw [hstream] at hread
        exact quiet_callTools _ _ (s := (s₁.send.keep stream).count _) hread)
    (fun _ _ _ _ _ _ _ => trivial) (s := { currentPayload := payload })
    fun ⟨_, hb, _⟩ => absurd hb not_mem_nil
  rw [runFrom] at hrun
  rw [hrun] at hrule
  exact hrule

/-- A client that was told of no item. -/
theorem lifecycle_of_not_added {s : Interception} {stream : Stream} {block : Sent}
    (hfinal : finalEvent ctx s stream = some block) (h : ¬ stream.client.HasAdded ctx.types) :
    Lifecycle ctx.types (stream.client.channel ++ [block, .done]) block.output := by
  intro b hb htype
  rcases List.mem_append.mp hb with hb | hb
  · exact absurd ⟨b, hb, htype⟩ h
  · rcases List.mem_cons.mp hb with rfl | hb
    · rw [finalEvent_eq] at hfinal
      obtain ⟨response, -, rfl⟩ := Option.map_eq_some_iff.mp hfinal
      exact absurd (Option.some.inj htype) ctx.types.ne_itemAdded.2.2.2.2.2.1
    · obtain rfl := List.mem_singleton.mp hb
      cases htype

end Interception

end Quiet

/-- **The items of a run** that ends with a response: each that was added has its events and is in the output
if no answer adds one; and where items are added before their other events and every event that takes an
index tells it, exactly if the first answer adds none. -/
theorem lifecycle_iff (ctx : Context) (payload : Value) (answers : List Answer) (s : Interception)
    (events : List Event) (stream : Stream)
    (hends : Interception.Completes ctx payload answers s events stream) (block : Sent)
    (hfinal : Interception.finalEvent ctx s stream = some block) :
    ((∀ answer ∈ answers, QuietEvents ctx.types answer.events) →
      Lifecycle ctx.types (Interception.runFrom ctx payload answers).1.client.channel block.output) ∧
    (FreshIds ctx answers → (∀ answer ∈ answers, Announced ctx.types.toEventTypes answer.events) →
      AllTold ctx.types.toEventTypes answers →
      (Lifecycle ctx.types (Interception.runFrom ctx payload answers).1.client.channel block.output ↔
        Quiet ctx.types answers)) := by
  rw [hends.runFrom_eq, Interception.complete_channel hfinal]
  obtain ⟨past, ⟨rest, hanswers⟩, hpast, hrun⟩ := hends
  have hpastLe : past <+: answers := ⟨_, (append_assoc ..).symm.trans hanswers⟩
  have hget : answers[past.length]? = some (.stream events none) := by
    rw [← hanswers, append_assoc, List.getElem?_append_right (Nat.le_refl _), Nat.sub_self]
    rfl
  have hmem : .stream events none ∈ answers := List.mem_of_getElem? hget
  refine ⟨fun hquiet => Interception.lifecycle_of_not_added hfinal ?_, fun hfresh hann htold => ?_⟩
  · have hread : ¬ (s.send.start.run ctx events).1.client.HasAdded ctx.types :=
      Stream.quiet_run (s := s.send.start) (hquiet _ hmem)
        (Interception.quiet_run (s := s) hquiet hpastLe hpast)
    rw [hrun] at hread
    exact hread
  · obtain ⟨items, hs⟩ := Interception.core_of_run hfresh hann htold hpastLe hpast
    obtain ⟨-, read, items', hread, hall, hstream⟩ := hs.start.run hfresh hmem (hann _ hmem)
      (fun e he =>
        have htold := htold past.length _ hget e he
        ⟨htold.delta, fun hfirst => htold.added (length_pos_of_ne_nil (hs.first hfirst))⟩) hrun
    have hiff := hs.hasAdded_iff hread hstream (fun hne => absurd (hall rfl) hne) none rest
    rw [← hanswers, append_assoc, singleton_append]
    exact ⟨fun hlifecycle => Classical.byContradiction fun hnoisy =>
      Interception.not_lifecycle hstream hfinal (hiff.mpr hnoisy) hlifecycle,
      fun hquiet => Interception.lifecycle_of_not_added hfinal fun hadded => hiff.mp hadded hquiet⟩

/-! ### Runs -/

/-- The ids of the plain context are generated once, and have an underscore. -/
theorem freshIds_plain {answers : List Answer} (h : ∀ answer ∈ answers, ∀ e ∈ answer.events,
    ∀ id ∈ e.itemIds, '_' ∉ id ∧ transformFcToMcpId id = id) : FreshIds plainContext answers := by
  have hdigits : ∀ n : Nat, (toString n).toList = Nat.toDigits 10 n := fun _ => Nat.toList_repr
  have hunderscore : ∀ kind n, '_' ∈ plainContext.generateId kind n := fun kind n =>
    mem_append_right _ (mem_cons_self ..)
  have hnumber : ∀ kind n, (plainContext.generateId kind n).reverse.takeWhile (· ≠ '_') =
      (Nat.toDigits 10 n).reverse := fun kind n => by
    have hid : plainContext.generateId kind n = kind ++ '_' :: Nat.toDigits 10 n :=
      congrArg (fun digits => kind ++ '_' :: digits) (hdigits n)
    have hall : ∀ c ∈ (Nat.toDigits 10 n).reverse, decide (c ≠ '_') = true := fun c hc =>
      decide_eq_true fun heq => Nat.underscore_not_in_toDigits (heq ▸ List.mem_reverse.mp hc)
    rw [hid, reverse_append, reverse_cons, append_assoc, takeWhile_append_of_pos hall]
    exact (congrArg _ (takeWhile_cons_of_neg (by decide))).trans (append_nil _)
  refine ⟨fun kind kind' m n hne heq => hne ?_, fun kind n heq => ?_, fun answer hanswer e he id hid kind n => ?_⟩
  · have hreverse := hnumber kind m
    rw [heq, hnumber kind' n] at hreverse
    calc m = Nat.ofDigitChars 10 (Nat.toDigits 10 m) 0 := Nat.ofDigitChars_ten_toDigits.symm
      _ = Nat.ofDigitChars 10 (Nat.toDigits 10 n) 0 := by rw [reverse_injective hreverse]
      _ = n := Nat.ofDigitChars_ten_toDigits
  · exact ne_nil_of_mem (hunderscore kind n) heq
  · obtain ⟨hnone, hsame⟩ := h answer hanswer e he id hid
    rw [hsame]
    have hne : plainContext.generateId kind n ≠ id := fun heq => hnone (heq ▸ hunderscore kind n)
    exact ⟨hne, hne⟩

/-- A response starts. -/
def createdEvent : Event where
  eventName := some openAi.created
  data := some (.object [("response".toList, .object [])])

/-- A response of one message. -/
def messageEvents : List Event :=
  [createdEvent,
    itemEvent openAi.itemAdded 0 [("item".toList, .object [("id".toList, .string ['m'])])],
    itemEvent openAi.itemDone 0 [("item".toList, .object [("id".toList, .string ['m'])])]]

/-- The message is told at index 0, where the final response has the list of tools. -/
theorem message_misplaced : FreshIds plainContext [.stream messageEvents none] ∧
    ∃ s stream block, Interception.Completes plainContext (.object []) [.stream messageEvents none] s
        messageEvents stream ∧
      Interception.finalEvent plainContext s stream = some block ∧
      ¬ Lifecycle openAiTypes (Interception.runFrom plainContext (.object [])
        [.stream messageEvents none]).1.client.channel block.output := by
  refine ⟨freshIds_plain ?_, { currentPayload := .object [] }, _, _, ⟨[], prefix_refl _, rfl, rfl⟩, rfl,
    fun hlifecycle => ?_⟩
  · intro answer hanswer
    obtain rfl := List.mem_singleton.mp hanswer
    decide
  · obtain ⟨o, id, i, ho, -, hsame, houtput⟩ :=
      hlifecycle _ (List.mem_of_getElem? (i := 1) rfl) (by decide)
    obtain ⟨hid, hindex⟩ := hsame _ (List.mem_of_getElem? (i := 1) rfl) ho
    obtain rfl : ['m'] = id := Option.some.inj hid
    obtain rfl : 0 = i := Option.some.inj hindex
    revert houtput
    decide

/-- A response without output. -/
theorem empty_response_told : ∃ s stream block,
    Interception.Completes plainContext (.object []) [.stream [createdEvent] none] s [createdEvent] stream ∧
      Interception.finalEvent plainContext s stream = some block ∧
      Lifecycle openAiTypes (Interception.runFrom plainContext (.object [])
        [.stream [createdEvent] none]).1.client.channel block.output ∧
      Quiet openAiTypes [.stream [createdEvent] none] := by
  have hends : Interception.Completes plainContext (.object []) [.stream [createdEvent] none]
      { currentPayload := .object [] } [createdEvent] _ := ⟨[], prefix_refl _, rfl, rfl⟩
  have hplain : ∀ answer ∈ [Answer.stream [createdEvent] none], ∀ e ∈ answer.events, e = createdEvent :=
    fun answer hanswer e he => by
      obtain rfl := List.mem_singleton.mp hanswer
      exact List.mem_singleton.mp he
  obtain ⟨htold, hiff⟩ := lifecycle_iff plainContext (.object []) _ _ _ _ hends _ rfl
  have hlifecycle := htold fun answer hanswer e he => by
    obtain rfl := hplain answer hanswer e he
    exact ⟨by decide, by decide⟩
  refine ⟨_, _, _, hends, rfl, hlifecycle, (hiff (freshIds_plain ?_) ?_ ?_).mp hlifecycle⟩
  · intro answer hanswer e he id hid
    obtain rfl := hplain answer hanswer e he
    cases hid
  · intro answer hanswer pre e post i heq hi
    have he : e ∈ answer.events := heq ▸ mem_append_right _ (mem_cons_self ..)
    obtain rfl := hplain answer hanswer e he
    cases hi
  · intro n answer hanswer e he
    obtain rfl := hplain answer (List.mem_of_getElem? hanswer) e he
    exact ⟨fun h => absurd h (by decide), fun _ h => absurd h (by decide)⟩

end QwenStack.Responses
