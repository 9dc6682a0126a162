import QwenStack.Responses.Interception
import QwenStack.Responses.ToolLoop
import QwenStack.Support.FirstSeen

/-!
# Tool calls of a streamed response — output indices

The upstream numbers its items from 0 in each iteration, and the gateway has one of its own, so the items
of a run get indices of the client: a new one when an item is added, which is kept for its other events.

If an item is added before its other events (`Announced`), it has one index with the client, and two items
have two.  The indices in use are 0, 1, 2 and so on in the order of first appearance, if besides every event
that makes the gateway take an index tells it to the client (`Told`): `indices_run`.  Two kinds of events
take one and do not: an `output_item.delta` without an index, which is taken to be about item 0, and in a
later iteration an `output_item.added` whose data has the type of the start of a response, which is skipped
(`index_taken`).
-/

namespace QwenStack.Responses
open FirstSeen List

/-! ### What the client reads -/

namespace Sent

/-- The item that a block is about. -/
def item : Sent → Option Item
  | .event item _ _ => item
  | _ => none

/-- A number that is an index. -/
def indexOf : Option Value → Option Nat
  | some (.integer n) => if 0 ≤ n then some n.toNat else none
  | _ => none

/-- The index that the client reads in a block. -/
def outputIndex : Sent → Option Nat
  | .event _ _ data => indexOf (data.get "output_index".toList)
  | _ => none

@[simp] theorem indexOf_integer (n : Nat) : indexOf (some (.integer n)) = some n := by
  rw [indexOf, if_pos (Int.natCast_nonneg n), Int.toNat_natCast]

end Sent

/-- The items are numbered, and if `T` holds in the order in which they appear. -/
def Client.Lists (T : Prop) (c : Client) (items : List Item) : Prop :=
  Enumerates T Sent.item Sent.outputIndex items c.channel

/-! ### The upstream -/

/-- The item that an event is about. -/
def Event.index (e : Event) : Option Nat := e.data.bind extractOutputIndex

/-- The type that the handler goes by. -/
def Event.eventType (e : Event) : Option Str := e.data.map (getEventType e.eventName)

/-- An item is added before its other events. -/
def Announced (types : EventTypes) (events : List Event) : Prop :=
  ∀ pre e post i, events = pre ++ e :: post → e.index = some i →
    e.eventType = some types.itemAdded ∨
    ∃ e' ∈ pre, e'.eventType = some types.itemAdded ∧ e'.index = some i

/-- An `output_item.delta` has an index, and what adds an item is not skipped. -/
structure Told (types : EventTypes) (skips : Prop) (e : Event) : Prop where
  delta : e.eventType = some types.itemDelta → e.index ≠ none
  added : skips → e.eventType = some types.itemAdded →
    Stream.dataType e ≠ some types.created ∧ Stream.dataType e ≠ some types.inProgress

/-! ### The mapper -/

/-- The indices of an iteration: those of its items. -/
structure OutputIndexMapper.Maps (k : Nat) (items : List Item) (m : OutputIndexMapper) : Prop where
  next : m.nextIndex = items.length
  lookup : ∀ i, m.lookup i =
    if .upstream k i ∈ items then some (items.idxOf (.upstream k i)) else none

namespace OutputIndexMapper.Maps
variable {k : Nat} {items : List Item} {m : OutputIndexMapper}

theorem lookup_of_mem (h : m.Maps k items) {i : Nat} (hi : .upstream k i ∈ items) :
    m.lookup i = some (items.idxOf (.upstream k i)) := by
  rw [h.lookup, if_pos hi]

theorem ensure_of_mem (h : m.Maps k items) {i : Nat} (hi : .upstream k i ∈ items) :
    m.ensureMapping i = (items.idxOf (.upstream k i), m) := by
  have hlookup : m.assigned.lookup i = some (items.idxOf (.upstream k i)) := h.lookup_of_mem hi
  rw [ensureMapping, hlookup]

theorem idxOf_concat {o : Item} (ho : o ∉ items) : (items ++ [o]).idxOf o = items.length := by
  rw [idxOf_append, if_neg ho, idxOf_cons_self, Nat.zero_add]

/-- A new item leaves the indices of the others. -/
theorem lookup_append (h : m.Maps k items) {j : Nat} {o : Item} (hne : Item.upstream k j ≠ o) :
    m.lookup j = if .upstream k j ∈ items ++ [o] then some ((items ++ [o]).idxOf (.upstream k j))
      else none := by
  have hmem : Item.upstream k j ∈ items ++ [o] ↔ .upstream k j ∈ items := by
    rw [mem_append, mem_singleton, or_iff_left hne]
  refine (h.lookup j).trans (if_ctx_congr hmem.symm (fun hin => ?_) fun _ => rfl)
  rw [idxOf_append, if_pos (hmem.mp hin)]

/-- A new item gets the next index. -/
theorem ensure_of_not_mem (h : m.Maps k items) {i : Nat} (hi : .upstream k i ∉ items) :
    (m.ensureMapping i).1 = items.length ∧ (m.ensureMapping i).2.Maps k (items ++ [.upstream k i]) := by
  have hlookup : m.assigned.lookup i = none := (h.lookup i).trans (if_neg hi)
  have hensure : m.ensureMapping i =
      (m.nextIndex, ⟨m.nextIndex + 1, Assoc.put i m.nextIndex m.assigned⟩) := by
    rw [ensureMapping, hlookup]
  rw [hensure]
  refine ⟨h.next, ?_, fun j => ?_⟩
  · rw [length_append, length_singleton, h.next]
  · rw [OutputIndexMapper.lookup, Assoc.lookup_put, h.next]
    by_cases hj : j = i
    · subst hj
      rw [if_pos rfl, if_pos (mem_append_right _ (mem_singleton_self _)), idxOf_concat hi]
    · rw [if_neg hj]
      exact h.lookup_append fun heq => hj (Item.upstream.inj heq).2

/-- The list of tools gets the next index. -/
theorem allocate (h : m.Maps k items) : m.allocateSynthetic.1 = items.length ∧
      m.allocateSynthetic.2.Maps k (items ++ [.listTools]) := by
  refine ⟨h.next, ?_, fun j => h.lookup_append Item.noConfusion⟩
  rw [length_append, length_singleton, ← h.next]
  rfl

end OutputIndexMapper.Maps

/-! ### The handler and its mapper -/

namespace OutputIndexMapper
variable (m : OutputIndexMapper) (i : Nat)

theorem lookup_ensureMapping_self : (m.ensureMapping i).2.lookup i = some (m.ensureMapping i).1 := by
  rw [ensureMapping]
  split
  · next j hj => exact hj
  · exact (Assoc.lookup_put i i _ _).trans (if_pos rfl)

theorem lookup_ensureMapping_of_some {j x : Nat} (h : m.lookup x = some j) :
    (m.ensureMapping i).2.lookup x = some j := by
  rw [ensureMapping]
  split
  · exact h
  · next hnone =>
    have hne : x ≠ i := by
      rintro rfl
      exact Option.some_ne_none _ (h.symm.trans hnone)
    exact (Assoc.lookup_put x i _ _).trans ((if_neg hne).trans h)

theorem ensureMapping_again :
    ((m.ensureMapping i).2.ensureMapping i).2 = (m.ensureMapping i).2 := by
  have hlookup : (m.ensureMapping i).2.assigned.lookup i = some (m.ensureMapping i).1 :=
    m.lookup_ensureMapping_self i
  rw [ensureMapping.eq_def (m.ensureMapping i).2, hlookup]

/-- The index of an event is mapped, if it has one. -/
def ensureIndex : Option Nat → OutputIndexMapper
  | some i => (m.ensureMapping i).2
  | none => m

end OutputIndexMapper

section Mapper
variable (h : StreamingToolHandler) (parsed : Value)

theorem mapper_getOrCreateCall (i : Nat) (delta : Value) :
    (h.getOrCreateCall i delta).outputIndexMapper = h.outputIndexMapper := by
  rw [StreamingToolHandler.getOrCreateCall]
  split <;> rfl

theorem mapper_ensureEventIndex : (h.ensureEventIndex parsed).outputIndexMapper =
    h.outputIndexMapper.ensureIndex (extractOutputIndex parsed) := by
  rw [StreamingToolHandler.ensureEventIndex]
  cases extractOutputIndex parsed <;> rfl

theorem mapper_handleOutputItemAdded (et : EventTypes) :
    (h.handleOutputItemAdded et parsed).1.outputIndexMapper =
      h.outputIndexMapper.ensureIndex (extractOutputIndex parsed) := by
  have hevent := mapper_ensureEventIndex h parsed
  rw [StreamingToolHandler.handleOutputItemAdded]
  split
  · exact hevent
  · split
    · exact hevent
    · split
      · exact hevent
      · split
        · exact hevent
        · next i hindex =>
          rw [hindex] at hevent ⊢
          refine (mapper_getOrCreateCall _ _ _).trans ?_
          refine (congrArg (fun m => (m.ensureMapping i).2) hevent).trans ?_
          exact h.outputIndexMapper.ensureMapping_again i

theorem mapper_handleArgumentsDelta : (h.handleArgumentsDelta parsed).1.outputIndexMapper =
    h.outputIndexMapper.ensureIndex (extractOutputIndex parsed) := by
  rw [StreamingToolHandler.handleArgumentsDelta]
  cases extractOutputIndex parsed with
  | none => rfl
  | some i => cases Value.getStr "delta".toList parsed <;> rfl

theorem mapper_handleArgumentsDone : (h.handleArgumentsDone parsed).1.outputIndexMapper =
    h.outputIndexMapper.ensureIndex (extractOutputIndex parsed) := by
  rw [StreamingToolHandler.handleArgumentsDone]
  cases extractOutputIndex parsed <;> rfl

/-- A delta without an index is taken to be about item 0. -/
theorem mapper_processOutputDelta (et : EventTypes) :
    (h.processOutputDelta et parsed).1.outputIndexMapper =
      h.outputIndexMapper.ensureIndex (some ((extractOutputIndex parsed).getD 0)) := by
  rw [StreamingToolHandler.processOutputDelta]
  cases parsed.get "delta".toList with
  | none => rfl
  | some delta =>
    dsimp only
    split
    · exact mapper_getOrCreateCall _ _ _
    · rfl

end Mapper

/-- **The mapper after an event**: the index of the event is mapped, or nothing is done to it; of a delta
without an index, index 0 is. -/
theorem mapper_processEvent {et : EventTypes} {h : StreamingToolHandler} {e : Event} :
    (h.processEvent et e).1.outputIndexMapper = h.outputIndexMapper ∨
      (h.processEvent et e).1.outputIndexMapper = h.outputIndexMapper.ensureIndex e.index ∨
      (e.eventType = some et.itemDelta ∧ e.index = none) ∧
        (h.processEvent et e).1.outputIndexMapper = h.outputIndexMapper.ensureIndex (some 0) := by
  rw [StreamingToolHandler.processEvent, Event.index, Event.eventType]
  cases hdata : e.data with
  | none => exact .inl rfl
  | some parsed =>
    simp only [Option.bind_some]
    split
    · exact .inl rfl
    split
    · exact .inl rfl
    split
    · exact .inr (.inl (mapper_handleOutputItemAdded h parsed et))
    split
    · exact .inr (.inl (mapper_handleArgumentsDelta h parsed))
    split
    · exact .inr (.inl (mapper_handleArgumentsDone h parsed))
    split
    · next htype =>
      have hmapper := mapper_processOutputDelta h parsed et
      cases hi : extractOutputIndex parsed with
      | some i =>
        rw [hi] at hmapper
        exact .inr (.inl hmapper)
      | none =>
        rw [hi] at hmapper
        exact .inr (.inr ⟨⟨congrArg some htype, rfl⟩, hmapper⟩)
    split
    · exact .inr (.inl (mapper_ensureEventIndex h parsed))
    · exact .inl rfl

theorem ProtocolTypes.itemAdded_ne (types : ProtocolTypes) : types.itemAdded ≠ types.created ∧
    types.itemAdded ≠ types.completed ∧ types.itemAdded ≠ types.argumentsDelta ∧
    types.itemAdded ≠ types.argumentsDone := by
  have h := types.distinct
  simp only [nodup_cons, mem_cons, not_mem_nil, or_false, not_or] at h
  obtain ⟨⟨-, -, h₁, -⟩, -, ⟨h₂, -⟩, ⟨-, -, h₃, h₄⟩, -⟩ := h
  exact ⟨fun h => h₁ h.symm, fun h => h₂ h.symm, h₃, h₄⟩

theorem action_handleOutputItemAdded (h : StreamingToolHandler) (et : EventTypes) (parsed : Value) :
    (h.handleOutputItemAdded et parsed).2 = .forward := by
  rw [StreamingToolHandler.handleOutputItemAdded]
  split
  · rfl
  · split
    · rfl
    · split
      · rfl
      · split <;> rfl

/-- What adds an item is forwarded, and its item has an index then. -/
theorem processEvent_added {types : ProtocolTypes} {h : StreamingToolHandler} {e : Event}
    (hadded : e.eventType = some types.itemAdded) :
    (h.processEvent types.toEventTypes e).2 = .forward ∧
      (h.processEvent types.toEventTypes e).1.outputIndexMapper =
        h.outputIndexMapper.ensureIndex e.index := by
  obtain ⟨parsed, hdata, htype⟩ := Option.map_eq_some_iff.mp hadded
  obtain ⟨hcreated, hcompleted, -, -⟩ := types.itemAdded_ne
  rw [StreamingToolHandler.processEvent, Event.index]
  simp only [hdata, htype, if_neg hcreated, if_neg hcompleted, if_true, Option.bind_some]
  exact ⟨action_handleOutputItemAdded h _ parsed, mapper_handleOutputItemAdded h parsed _⟩

/-! ### The pending calls -/

/-- A call has the index of its item. -/
def FunctionCallInProgress.AssignedBy (m : OutputIndexMapper) (c : FunctionCallInProgress) : Prop :=
  ∃ j, c.assignedOutputIndex = some j ∧ m.lookup c.outputIndex = some j

/-- The calls of a handler have the indices of their items. -/
def StreamingToolHandler.Assigned (h : StreamingToolHandler) : Prop :=
  ∀ c ∈ h.pendingCalls, c.AssignedBy h.outputIndexMapper

theorem mem_updateCall {i : Nat} {f : FunctionCallInProgress → FunctionCallInProgress}
    {calls : List FunctionCallInProgress} {c : FunctionCallInProgress}
    (hc : c ∈ updateCall i f calls) : c ∈ calls ∨ ∃ d ∈ calls, d.outputIndex = i ∧ c = f d := by
  induction calls with
  | nil => exact .inl hc
  | cons d calls ih =>
    rw [updateCall] at hc
    split at hc
    · next hd =>
      rcases List.mem_cons.mp hc with rfl | hc
      · exact .inr ⟨d, mem_cons_self .., hd, rfl⟩
      · exact .inl (mem_cons_of_mem _ hc)
    · rcases List.mem_cons.mp hc with rfl | hc
      · exact .inl (mem_cons_self ..)
      · rcases ih hc with hc | ⟨d', hd', hi, rfl⟩
        · exact .inl (mem_cons_of_mem _ hc)
        · exact .inr ⟨d', mem_cons_of_mem _ hd', hi, rfl⟩

section Assigned
variable {h : StreamingToolHandler}

section
variable (hh : h.Assigned)
include hh

theorem StreamingToolHandler.Assigned.ensure (i : Nat) : (h.ensureOutputIndex i).2.Assigned := by
  intro c hc
  obtain ⟨j, hj, hlookup⟩ := hh c hc
  exact ⟨j, hj, h.outputIndexMapper.lookup_ensureMapping_of_some i hlookup⟩

theorem StreamingToolHandler.Assigned.ensureEvent (parsed : Value) :
    (h.ensureEventIndex parsed).Assigned := by
  rw [StreamingToolHandler.ensureEventIndex]
  split
  · exact hh.ensure _
  · exact hh

theorem StreamingToolHandler.Assigned.update {i : Nat}
    {f : FunctionCallInProgress → FunctionCallInProgress}
    (hf : ∀ c, c.outputIndex = i → c.AssignedBy h.outputIndexMapper →
      (f c).AssignedBy h.outputIndexMapper) : (h.updateCall i f).Assigned := by
  intro c hc
  rcases mem_updateCall hc with hc | ⟨d, hd, hi, rfl⟩
  · exact hh c hc
  · exact hf d hi (hh d hd)

/-- The call of an item, old or new, gets the index of the item. -/
theorem StreamingToolHandler.Assigned.create {i : Nat} (delta : Value)
    {f : FunctionCallInProgress → FunctionCallInProgress}
    (hf : ∀ c, c.outputIndex = i → (f c).AssignedBy h.outputIndexMapper) :
    ((h.getOrCreateCall i delta).updateCall i f).Assigned := by
  have hmapper := mapper_getOrCreateCall h i delta
  intro c hc
  rw [StreamingToolHandler.updateCall] at hc ⊢
  rw [hmapper]
  by_cases hany : (h.pendingCalls.any fun c => c.outputIndex = i) = true
  · rw [StreamingToolHandler.getOrCreateCall, if_pos hany] at hc
    rcases mem_updateCall hc with hc | ⟨d, hd, hi, rfl⟩
    · exact hh c hc
    · exact hf d hi
  · have hnew : ∀ c ∈ h.pendingCalls, c.outputIndex ≠ i := fun c hc hi =>
      hany (List.any_eq_true.mpr ⟨c, hc, decide_eq_true hi⟩)
    rw [pendingCalls_getOrCreateCall delta hnew, updateCall_concat f hnew rfl] at hc
    rcases List.mem_append.mp hc with hc | hc
    · exact hh c hc
    · obtain rfl := List.mem_singleton.mp hc
      exact hf _ rfl

theorem assigned_handleOutputItemAdded (et : EventTypes) (parsed : Value) :
    (h.handleOutputItemAdded et parsed).1.Assigned := by
  have hevent := hh.ensureEvent parsed
  rw [StreamingToolHandler.handleOutputItemAdded]
  split
  · exact hevent
  · split
    · exact hevent
    · split
      · exact hevent
      · split
        · exact hevent
        · next i hindex =>
          have hlookup := (h.ensureEventIndex parsed).outputIndexMapper.lookup_ensureMapping_self i
          exact (hevent.ensure i).create _ fun c hc => ⟨_, rfl, hc ▸ hlookup⟩

theorem assigned_handleArgumentsDelta (parsed : Value) :
    (h.handleArgumentsDelta parsed).1.Assigned := by
  rw [StreamingToolHandler.handleArgumentsDelta]
  split
  · exact hh
  · next i hindex =>
    dsimp only
    split
    · exact hh.ensure i
    · refine (hh.ensure i).update fun c hc hassigned => ?_
      obtain ⟨j, hj, hlookup⟩ := hassigned
      exact ⟨j, congrArg (Option.or · _) hj, hlookup⟩

theorem assigned_handleArgumentsDone (parsed : Value) :
    (h.handleArgumentsDone parsed).1.Assigned := by
  rw [StreamingToolHandler.handleArgumentsDone]
  split
  · exact hh
  · next i hindex =>
    refine (hh.ensure i).update fun c hc hassigned => ?_
    obtain ⟨j, hj, hlookup⟩ := hassigned
    exact ⟨j, congrArg (Option.or · _) hj, hlookup⟩

theorem assigned_processOutputDelta (et : EventTypes) (parsed : Value) :
    (h.processOutputDelta et parsed).1.Assigned := by
  rw [StreamingToolHandler.processOutputDelta]
  dsimp only
  split
  · exact hh.ensure _
  · split
    · have hlookup := h.outputIndexMapper.lookup_ensureMapping_self
        ((extractOutputIndex parsed).getD 0)
      exact (hh.ensure _).create _ fun c hc => ⟨_, rfl, hc ▸ hlookup⟩
    · exact hh.ensure _

end

/-- The calls have the indices of their items after any event. -/
theorem assigned_processEvent {et : EventTypes} {e : Event} (hh : h.Assigned) :
    (h.processEvent et e).1.Assigned := by
  rw [StreamingToolHandler.processEvent]
  split
  · exact hh
  · dsimp only
    split
    · exact hh
    split
    · exact hh
    split
    · exact assigned_handleOutputItemAdded hh _ _
    split
    · exact assigned_handleArgumentsDelta hh _
    split
    · exact assigned_handleArgumentsDone hh _
    split
    · exact assigned_processOutputDelta hh _ _
    split
    · exact hh.ensureEvent _
    · exact hh

end Assigned

/-! ### The index in what is sent -/

theorem get_modifyMember_of_ne {key : String} {key' : Str} (f : Value → Value) (obj : Value)
    (h : key' ≠ key.toList) : (modifyMember key f obj).get key' = obj.get key' := by
  rw [modifyMember]
  split
  · exact Value.get_insert_of_ne _ _ h
  · rfl

theorem get_transformId_of_ne {key : String} {key' : Str} (obj : Value) (h : key' ≠ key.toList) :
    (transformId key obj).get key' = obj.get key' := by
  rw [transformId]
  split
  · exact Value.get_insert_of_ne _ _ h
  · rfl

theorem get_restoreResponseId_of_ne {key : Str} (id : Option Str) (obj : Value)
    (h : key ≠ "response".toList) : (restoreResponseId id obj).get key = obj.get key := by
  cases id with
  | none => rfl
  | some id => exact get_modifyMember_of_ne _ _ h

/-- The transformations of an event leave its index. -/
theorem outputIndex_applyEventTransformations (types : ProtocolTypes) (r : ResponsesRequest)
    (previousResponseId : Option Str) (parsed : Value) :
    (applyEventTransformations types r previousResponseId parsed).get "output_index".toList =
      parsed.get "output_index".toList := by
  have hresponse : (if types.isResponseEvent ((Value.getStr "type".toList parsed).getD []) = true then
      modifyMember "response" (transformResponse r previousResponseId) parsed else parsed).get
        "output_index".toList = parsed.get "output_index".toList := by
    split
    · exact get_modifyMember_of_ne _ _ (by decide)
    · rfl
  rw [applyEventTransformations]
  split
  · rw [get_modifyMember_of_ne _ _ (by decide), hresponse]
  · split
    · rw [get_transformId_of_ne _ (by decide), Value.get_insert_of_ne _ _ (by decide), hresponse]
    · exact hresponse

theorem outputIndex_transformEvent (ctx : Context) (h : StreamingToolHandler) (acc : Accumulator)
    {mapped : Option Nat} {parsed : Value} {i j : Nat} (hi : extractOutputIndex parsed = some i)
    (hj : mapped.or (h.outputIndexMapper.lookup i) = some j) :
    (transformEvent ctx h acc mapped parsed).get "output_index".toList = some (.integer j) := by
  have hobject : parsed.isObject = true := by
    obtain ⟨v, hv, -⟩ := Option.bind_eq_some_iff.mp hi
    exact Value.isObject_of_get hv
  rw [transformEvent, hi, Option.bind_some, hj]
  have hremapped : (applyEventTransformations ctx.types ctx.request ctx.previousResponseId
      (remapOutputIndex (some j) parsed)).get "output_index".toList = some (.integer j) := by
    rw [outputIndex_applyEventTransformations]
    exact Value.get_insert_self _ hobject
  rw [get_restoreResponseId_of_ne _ _ (by decide), hremapped]

/-- The arguments are put into an event beside its index. -/
theorem sendBuffered_parsed (ctx : Context) (item : Option Item) (h : StreamingToolHandler)
    (eventName : Option Str) (parsed : Value) (c : Client) :
    extractOutputIndex (sendBuffered ctx item h eventName parsed c).1 = extractOutputIndex parsed := by
  rw [sendBuffered]
  split
  · rw [sendBufferedArguments]
    split
    · rfl
    · split
      · rfl
      · rw [extractOutputIndex, Value.get_insert_of_ne _ _ (by decide), extractOutputIndex]
  · rfl

/-- The index that is known before the arguments are sent. -/
theorem sendBuffered_mapped (ctx : Context) (item : Option Item) (h : StreamingToolHandler)
    (eventName : Option Str) {parsed : Value} (c : Client) {i j : Nat}
    (hi : extractOutputIndex parsed = some i) (hj : h.outputIndexMapper.lookup i = some j) :
    (sendBuffered ctx item h eventName parsed c).2.1.or (h.outputIndexMapper.lookup i) = some j := by
  rw [sendBuffered]
  split
  · rw [sendBufferedArguments, hi]
    dsimp only
    rw [hj]
    split <;> rfl
  · exact hj

/-! ### The items in what is sent -/

section Lists
variable {T : Prop} {ctx : Context} {c : Client} {items : List Item}

theorem Client.Lists.send (h : c.Lists T items) {block : Sent} (hblock : block.item = none) :
    (c.send block).Lists T items :=
  Enumerates.concat_none h hblock

theorem outputIndex_sendEvent (o : Option Item) (name : Str) (v : Value) (i : Nat)
    (members : List (String × Value)) :
    (Sent.event o (some name) (.ofMembers ([("type", .string name), ("sequence_number", v)] ++
      ("output_index", .integer i) :: members))).outputIndex = some i := by
  rw [Sent.outputIndex, cons_append, cons_append, nil_append,
    Value.get_ofMembers_cons, if_neg (by decide), Value.get_ofMembers_cons, if_neg (by decide),
    Value.get_ofMembers_cons, if_pos rfl, Sent.indexOf_integer]

/-- An event of the gateway's own, about an item that has an index. -/
theorem Client.Lists.sendEvent (h : c.Lists T items) {o : Item} (ho : o ∈ items) {i : Nat}
    (hi : i = items.idxOf o) (name : Str) (members : List (String × Value)) :
    (c.sendEvent (some o) name (("output_index", .integer i) :: members)).Lists T items := by
  refine Enumerates.concat_old h (k := o) rfl ho ?_
  rw [outputIndex_sendEvent, hi]

/-- The first event about an item of the gateway's. -/
theorem Client.Lists.sendEvent_new (h : c.Lists T items) {o : Item} (ho : o ∉ items) {i : Nat}
    (hi : i = items.length) (name : Str) (members : List (String × Value)) :
    (c.sendEvent (some o) name (("output_index", .integer i) :: members)).Lists T (items ++ [o]) := by
  refine Enumerates.concat_new h (k := o) rfl ho ?_
  rw [outputIndex_sendEvent, hi]

theorem Client.Lists.sendEvent_none (h : c.Lists T items) (name : Str)
    (members : List (String × Value)) : (c.sendEvent none name members).Lists T items :=
  Enumerates.concat_none h rfl

theorem Client.Lists.sendNumbered_none (h : c.Lists T items) (name : Option Str) (parsed : Value) :
    (c.sendNumbered none name parsed).Lists T items := by
  rw [sendNumbered]
  split
  · exact Enumerates.concat_none h rfl
  · exact Enumerates.concat_none h rfl

/-- The index of a numbered event. -/
theorem channel_sendNumbered (c : Client) (item : Option Item) (name : Option Str) {parsed : Value}
    {j : Nat} (hj : parsed.get "output_index".toList = some (.integer j)) :
    ∃ block, block.item = item ∧ block.outputIndex = some j ∧
      (c.sendNumbered item name parsed).channel = c.channel ++ [block] := by
  rw [Client.sendNumbered]
  split
  · refine ⟨_, rfl, ?_, rfl⟩
    rw [Sent.outputIndex, Value.get_insert_of_ne _ _ (by decide), hj, Sent.indexOf_integer]
  · refine ⟨_, rfl, ?_, rfl⟩
    rw [Sent.outputIndex, hj, Sent.indexOf_integer]

theorem Client.Lists.sendNumbered (h : c.Lists T items) {o : Item} (ho : o ∈ items)
    (name : Option Str) {parsed : Value}
    (hj : parsed.get "output_index".toList = some (.integer (items.idxOf o))) :
    (c.sendNumbered (some o) name parsed).Lists T items := by
  obtain ⟨block, hitem, hindex, hchannel⟩ := channel_sendNumbered c (some o) name hj
  rw [Lists, hchannel]
  exact Enumerates.concat_old h hitem ho hindex

/-- The first event about an item. -/
theorem Client.Lists.sendNumbered_new (h : c.Lists T items) {o : Item} (ho : o ∉ items)
    (name : Option Str) {parsed : Value}
    (hj : parsed.get "output_index".toList = some (.integer items.length)) :
    (c.sendNumbered (some o) name parsed).Lists T (items ++ [o]) := by
  obtain ⟨block, hitem, hindex, hchannel⟩ := channel_sendNumbered c (some o) name hj
  rw [Lists, hchannel]
  exact Enumerates.concat_new h hitem ho hindex

/-! ### Forwarding -/

variable (hl : c.Lists T items)
include hl

theorem Client.Lists.sendBuffered {k i : Nat} {h : StreamingToolHandler}
    (hmaps : h.outputIndexMapper.Maps k items) (hi : .upstream k i ∈ items)
    (eventName : Option Str) {parsed : Value} (hindex : extractOutputIndex parsed = some i) :
    (Responses.sendBuffered ctx (some (.upstream k i)) h eventName parsed c).2.2.Lists T items := by
  rw [Responses.sendBuffered]
  split
  · rw [sendBufferedArguments, hindex]
    dsimp only
    split
    · exact hl
    · refine hl.sendEvent hi ?_ _ _
      rw [hmaps.lookup_of_mem hi]
      rfl
  · exact hl

/-- The progress of a call that is added has the index of the event before it. -/
theorem Client.Lists.maybeInject {o : Item} (ho : o ∈ items) {parsed : Value}
    (hj : parsed.get "output_index".toList = some (.integer (items.idxOf o))) :
    (maybeInjectMcpInProgress ctx (some o) parsed c).Lists T items := by
  rw [maybeInjectMcpInProgress]
  split
  · exact hl
  · split
    · split
      · next itemId x hid hx =>
        refine hl.sendEvent ho ?_ _ _
        rw [extractOutputIndex, hj, Option.bind_some, Value.asU64] at hx
        split at hx
        · exact (Option.some.inj hx).symm.trans (Int.toNat_natCast _)
        · cases hx
      · exact hl
    · exact hl

theorem Client.Lists.maybeInject_none (parsed : Value) :
    (maybeInjectMcpInProgress ctx none parsed c).Lists T items := by
  rw [maybeInjectMcpInProgress]
  split
  · exact hl
  · split
    · split
      · exact hl.sendEvent_none _ _
      · exact hl
    · exact hl

/-- An event about an item that has an index, or about none. -/
theorem Client.Lists.forward {k : Nat} {h : StreamingToolHandler}
    (acc : Accumulator) {e : Event} (hmaps : h.outputIndexMapper.Maps k items)
    (hold : ∀ i, e.index = some i → .upstream k i ∈ items) :
    (forwardStreamingEvent ctx k h acc c e).Lists T items := by
  rw [forwardStreamingEvent]
  split
  · exact hl
  split
  · exact hl.send rfl
  next parsed hdata =>
  split
  · exact hl
  have hindex : e.index = extractOutputIndex parsed := by rw [Event.index, hdata, Option.bind_some]
  cases hi : extractOutputIndex parsed with
  | none =>
    have hbuffered : (Responses.sendBuffered ctx none h e.eventName parsed c).2.2 = c := by
      rw [Responses.sendBuffered, sendBufferedArguments, hi]
      split <;> rfl
    rw [Option.map_none]
    dsimp only
    rw [hbuffered]
    split
    · exact (hl.sendNumbered_none _ _).maybeInject_none _
    · exact hl.sendNumbered_none _ _
  | some i =>
    have ho := hold i (hindex.trans hi)
    have hj := outputIndex_transformEvent ctx h acc
      ((sendBuffered_parsed ctx (some (.upstream k i)) h e.eventName parsed c).trans hi)
      (sendBuffered_mapped ctx (some (.upstream k i)) h e.eventName c hi (hmaps.lookup_of_mem ho))
    have hbuffered : (Responses.sendBuffered ctx (some (.upstream k i)) h e.eventName parsed
        c).2.2.Lists T items := hl.sendBuffered hmaps ho e.eventName hi
    have hsent := hbuffered.sendNumbered ho (e.eventName.map (mapEventName ctx.types)) hj
    rw [Option.map_some]
    split
    · exact hsent.maybeInject ho hj
    · exact hsent

/-- An event that adds a new item. -/
theorem Client.Lists.forward_new {k i : Nat} {h : StreamingToolHandler}
    (acc : Accumulator) {e : Event} (hadded : e.eventType = some ctx.types.itemAdded)
    (hmaps : h.outputIndexMapper.Maps k (items ++ [.upstream k i])) (hi : e.index = some i)
    (hnew : .upstream k i ∉ items) :
    (forwardStreamingEvent ctx k h acc c e).Lists T (items ++ [.upstream k i]) := by
  obtain ⟨parsed, hdata, htype⟩ := Option.map_eq_some_iff.mp hadded
  obtain ⟨-, hcompleted, hdelta, hdone⟩ := ctx.types.itemAdded_ne
  have hname : ∀ t, ctx.types.itemAdded ≠ t → e.eventName ≠ some t := by
    rintro t ht hname
    rw [getEventType, hname] at htype
    exact ht htype.symm
  rw [Event.index, hdata, Option.bind_some] at hi
  have ho : Item.upstream k i ∈ items ++ [.upstream k i] :=
    mem_append_right _ (mem_singleton_self _)
  have hj : (transformEvent ctx h acc none parsed).get "output_index".toList =
      some (.integer ((items ++ [Item.upstream k i]).idxOf (.upstream k i))) :=
    outputIndex_transformEvent ctx h acc hi (hmaps.lookup_of_mem ho)
  have hsent := hl.sendNumbered_new hnew (e.eventName.map (mapEventName ctx.types))
    (hj.trans (by rw [OutputIndexMapper.Maps.idxOf_concat hnew]))
  rw [forwardStreamingEvent, if_neg (hname _ hdelta)]
  simp only [hdata, htype, if_neg hcompleted, Responses.sendBuffered, if_neg (hname _ hdone), hi,
    Option.map_some]
  split
  · exact hsent.maybeInject ho hj
  · exact hsent

/-- The list of tools appears. -/
theorem Client.Lists.listTools (hnew : .listTools ∉ items) {i : Nat} (hi : i = items.length) :
    (sendMcpListToolsEvents ctx i c).Lists T (items ++ [.listTools]) := by
  have ho : Item.listTools ∈ items ++ [.listTools] :=
    mem_append_right _ (mem_singleton_self _)
  have hidx : i = (items ++ [Item.listTools]).idxOf .listTools := by
    rw [OutputIndexMapper.Maps.idxOf_concat hnew, hi]
  have hadded : c.generate.Lists T items := hl
  exact (((hadded.sendEvent_new hnew hi _ _).sendEvent ho hidx _ _).sendEvent ho hidx _ _).sendEvent
    ho hidx _ _

end Lists

/-! ### The stream -/

/-- **The invariant**: the mapper and the client have the same items, in one order. -/
structure Stream.Indexed (T : Prop) (s : Stream) (items : List Item) : Prop where
  maps : s.loop.handler.outputIndexMapper.Maps s.iteration items
  lists : s.client.Lists T items
  calls : s.loop.handler.Assigned
  listTools : s.loop.mcpListToolsSent = false → .listTools ∉ items
  past : ∀ k i, .upstream k i ∈ items → k ≤ s.iteration

namespace Stream
variable {T : Prop} {ctx : Context} {s : Stream} {items : List Item} {e : Event}

@[simp] theorem sendUnlessSkipped_loop : (s.sendUnlessSkipped ctx e).loop = s.loop := by
  rw [sendUnlessSkipped]
  split <;> rfl

@[simp] theorem sendUnlessSkipped_iteration :
    (s.sendUnlessSkipped ctx e).iteration = s.iteration := by
  rw [sendUnlessSkipped]
  split <;> rfl

@[simp] theorem sendUnlessSkipped_isFirstIteration :
    (s.sendUnlessSkipped ctx e).isFirstIteration = s.isFirstIteration := by
  rw [sendUnlessSkipped]
  split <;> rfl

/-- An event about an item that has an index, or about none, is sent. -/
theorem Indexed.sendForward (hs : s.Indexed T items)
    (hold : ∀ i, e.index = some i → .upstream s.iteration i ∈ items) :
    (s.sendForward ctx e).Indexed T items where
  maps := hs.maps
  lists := hs.lists.forward s.accumulator hs.maps hold
  calls := hs.calls
  listTools := hs.listTools
  past := hs.past

theorem Indexed.sendUnlessSkipped (hs : s.Indexed T items)
    (hold : ∀ i, e.index = some i → .upstream s.iteration i ∈ items) :
    (s.sendUnlessSkipped ctx e).Indexed T items := by
  rw [Stream.sendUnlessSkipped]
  split
  · exact hs
  · exact hs.sendForward hold

theorem afterForward_of {loop : Loop}
    (h : loop.seenInProgress = false ∧ dataType e = some ctx.types.inProgress) :
    loop.afterForward ctx.types.toEventTypes e =
      { handler :=
          if loop.mcpListToolsSent = true then loop.handler
          else loop.handler.allocateSyntheticOutputIndex.2
        mcpListToolsSent := true
        seenInProgress := true } :=
  if_pos h

theorem afterForward_of_not {loop : Loop}
    (h : ¬ (loop.seenInProgress = false ∧ dataType e = some ctx.types.inProgress)) :
    loop.afterForward ctx.types.toEventTypes e = loop :=
  if_neg h

/-- The list of tools may follow. -/
theorem Indexed.afterForward (ctx : Context) (e : Event) (hs : s.Indexed T items) :
    ∃ items', items <+: items' ∧ Stream.Indexed T { s with
        loop := s.loop.afterForward ctx.types.toEventTypes e
        client := s.sendListTools ctx e } items' := by
  rw [sendListTools]
  by_cases hstart : s.loop.seenInProgress = false ∧ dataType e = some ctx.types.inProgress
  · rw [afterForward_of hstart]
    cases hsent : s.loop.mcpListToolsSent with
    | true =>
      simp only [if_true, reduceCtorEq, and_false, if_false]
      exact ⟨items, prefix_refl _, hs.maps, hs.lists, hs.calls, Bool.noConfusion, hs.past⟩
    | false =>
      have hnew := hs.listTools hsent
      have halloc := hs.maps.allocate
      simp only [reduceCtorEq, if_false, hstart.1, hstart.2, and_self, if_true]
      refine ⟨items ++ [.listTools], prefix_append _ _, halloc.2,
        hs.lists.listTools hnew halloc.1, hs.calls, Bool.noConfusion, fun k i hi => ?_⟩
      rcases List.mem_append.mp hi with hi | hi
      · exact hs.past k i hi
      · cases List.mem_singleton.mp hi
  · rw [afterForward_of_not hstart, if_neg fun h => hstart ⟨h.1, h.2.1⟩]
    exact ⟨items, prefix_refl _, hs⟩

section Concat
variable {k i : Nat}

theorem listTools_concat (h : .listTools ∉ items) : Item.listTools ∉ items ++ [.upstream k i] := by
  intro hmem
  rcases List.mem_append.mp hmem with hmem | hmem
  · exact h hmem
  · cases List.mem_singleton.mp hmem

theorem past_concat (h : ∀ k' j, .upstream k' j ∈ items → k' ≤ k) :
    ∀ k' j, .upstream k' j ∈ items ++ [.upstream k i] → k' ≤ k := by
  intro k' j hmem
  rcases List.mem_append.mp hmem with hmem | hmem
  · exact h k' j hmem
  · obtain ⟨rfl, -⟩ := Item.upstream.inj (List.mem_singleton.mp hmem)
    exact Nat.le_refl _

end Concat

/-- An event that adds a new item is forwarded, or skipped. -/
theorem Indexed.forward_new {i : Nat} (hmaps :
      s.loop.handler.outputIndexMapper.Maps s.iteration (items ++ [.upstream s.iteration i]))
    (hl : s.client.Lists T items) (hcalls : s.loop.handler.Assigned)
    (hlist : s.loop.mcpListToolsSent = false → .listTools ∉ items)
    (hpast : ∀ k i, .upstream k i ∈ items → k ≤ s.iteration)
    (hadded : e.eventType = some ctx.types.itemAdded) (hi : e.index = some i)
    (hnew : .upstream s.iteration i ∉ items)
    (htold : T → Told ctx.types.toEventTypes (s.isFirstIteration = false) e) :
    (s.sendUnlessSkipped ctx e).Indexed T (items ++ [.upstream s.iteration i]) := by
  have hlist' := fun h => listTools_concat (k := s.iteration) (i := i) (hlist h)
  have hpast' := past_concat (i := i) hpast
  rw [Stream.sendUnlessSkipped]
  split
  · next hskipped =>
    -- the index is taken, and no event bears it
    have hT : ¬ T := fun hT => by
      obtain ⟨hcreated, hprogress⟩ := (htold hT).added hskipped.1 hadded
      exact hskipped.2.elim hcreated hprogress
    exact ⟨hmaps, hl.extend hT _, hcalls, hlist', hpast'⟩
  · exact ⟨hmaps, hl.forward_new s.accumulator hadded hmaps hi hnew, hcalls, hlist', hpast'⟩

/-- Before an event is sent: its item, if it has one, has an index, or the event adds it. -/
theorem Indexed.process (hs : s.Indexed T items) (hann : ∀ i, e.index = some i →
      e.eventType = some ctx.types.itemAdded ∨ .upstream s.iteration i ∈ items)
    (htold : T → Told ctx.types.toEventTypes (s.isFirstIteration = false) e) :
    (∃ items', items <+: items' ∧ (s.process ctx e).1.Indexed T items' ∧
        ∀ i, e.index = some i → .upstream s.iteration i ∈ items') ∨
      ∃ i, e.index = some i ∧ .upstream s.iteration i ∉ items ∧
        e.eventType = some ctx.types.itemAdded ∧ (s.process ctx e).2 = .forward ∧
        (s.process ctx e).1.loop.handler.outputIndexMapper.Maps s.iteration
          (items ++ [.upstream s.iteration i]) := by
  by_cases hnew : ∃ i, e.index = some i ∧ .upstream s.iteration i ∉ items
  · obtain ⟨i, hi, hnew⟩ := hnew
    have hadded := (hann i hi).resolve_right hnew
    obtain ⟨haction, hensured⟩ := processEvent_added (h := s.loop.handler) hadded
    rw [hi] at hensured
    exact .inr ⟨i, hi, hnew, hadded, haction, hensured ▸ (hs.maps.ensure_of_not_mem hnew).2⟩
  · have hold : ∀ i, e.index = some i → .upstream s.iteration i ∈ items := fun i hi =>
      Classical.byContradiction fun hmem => hnew ⟨i, hi, hmem⟩
    have hcalls : (s.loop.handler.processEvent ctx.types.toEventTypes e).1.Assigned :=
      assigned_processEvent hs.calls
    have hsame : (s.loop.handler.processEvent ctx.types.toEventTypes e).1.outputIndexMapper.Maps s.iteration
        items → ∃ items', items <+: items' ∧ (s.process ctx e).1.Indexed T items' ∧
          ∀ i, e.index = some i → .upstream s.iteration i ∈ items' := fun hmaps =>
      ⟨items, prefix_refl _, ⟨hmaps, hs.lists, hcalls, hs.listTools, hs.past⟩, hold⟩
    refine .inl ?_
    rcases mapper_processEvent (h := s.loop.handler) with hkept | hensured | ⟨⟨hdelta, hnone⟩, hensured⟩
    · exact hsame (hkept ▸ hs.maps)
    · cases hi : e.index with
      | none =>
        rw [hi] at hensured
        exact hi ▸ hsame (hensured ▸ hs.maps)
      | some i =>
        rw [hi, OutputIndexMapper.ensureIndex, hs.maps.ensure_of_mem (hold i hi)] at hensured
        exact hi ▸ hsame (hensured ▸ hs.maps)
    -- a delta without an index
    · rw [OutputIndexMapper.ensureIndex] at hensured
      by_cases hzero : Item.upstream s.iteration 0 ∈ items
      · rw [hs.maps.ensure_of_mem hzero] at hensured
        exact hsame (hensured ▸ hs.maps)
      · have hT : ¬ T := fun hT => (htold hT).delta hdelta hnone
        refine ⟨items ++ [.upstream s.iteration 0], prefix_append _ _,
          ⟨hensured ▸ (hs.maps.ensure_of_not_mem hzero).2, hs.lists.extend hT _, hcalls,
            fun h => listTools_concat (hs.listTools h), past_concat hs.past⟩,
          fun i hi => absurd (hnone.symm.trans hi) (Option.some_ne_none i).symm⟩

/-- **The step**: an event that comes after its item was added. -/
theorem Indexed.step (hs : s.Indexed T items) (hann : ∀ i, e.index = some i →
      e.eventType = some ctx.types.itemAdded ∨ .upstream s.iteration i ∈ items)
    (htold : T → Told ctx.types.toEventTypes (s.isFirstIteration = false) e) :
    ∃ items', items <+: items' ∧ (∀ i, e.index = some i → .upstream s.iteration i ∈ items') ∧
      match s.process ctx e with
      | (s', .forward) => (s'.forward ctx e).Indexed T items'
      | (s', .buffer) => s'.Indexed T items'
      | (s', .executeTools) => (s'.sendForward ctx e).Indexed T items' := by
  rcases hs.process hann htold with ⟨items₁, hle₁, hs', hold⟩ | ⟨i, hi, hnew, hadded, haction, hmaps⟩
  · cases hprocess : s.process ctx e with
    | mk s' action =>
      have heq : (s.process ctx e).1 = s' := congrArg Prod.fst hprocess
      have hiteration : s'.iteration = s.iteration := heq ▸ rfl
      rw [hprocess] at hs'
      have hold' : ∀ i, e.index = some i → .upstream s'.iteration i ∈ items₁ := by
        rw [hiteration]
        exact hold
      cases action with
      | forward =>
        obtain ⟨items', hle, hforward⟩ := (hs'.sendUnlessSkipped hold').afterForward ctx e
        exact ⟨items', hle₁.trans hle, fun i hi => hle.subset (hold i hi), hforward⟩
      | buffer => exact ⟨items₁, hle₁, hold, hs'⟩
      | executeTools => exact ⟨items₁, hle₁, hold, hs'.sendForward hold'⟩
  · cases hprocess : s.process ctx e with
    | mk s' action =>
      have hs' : (s.process ctx e).1 = s' := congrArg Prod.fst hprocess
      obtain rfl : action = .forward := (congrArg Prod.snd hprocess).symm.trans haction
      have hsent : (s'.sendUnlessSkipped ctx e).Indexed T (items ++ [.upstream s'.iteration i]) := by
        subst hs'
        exact Indexed.forward_new hmaps hs.lists (assigned_processEvent hs.calls) hs.listTools
          hs.past hadded hi hnew htold
      have hiteration : s'.iteration = s.iteration := hs' ▸ rfl
      obtain ⟨items', hle, hforward⟩ := hsent.afterForward ctx e
      rw [hiteration] at hle
      refine ⟨items', (prefix_append _ _).trans hle, fun j hj => ?_, hforward⟩
      cases hi.symm.trans hj
      exact hle.subset (mem_append_right _ (mem_singleton_self _))

theorem iteration_process {s' : Stream} {action : StreamAction} (h : s.process ctx e = (s', action)) :
    s'.iteration = s.iteration ∧ s'.isFirstIteration = s.isFirstIteration := by
  have heq : (s.process ctx e).1 = s' := congrArg Prod.fst h
  exact heq ▸ ⟨rfl, rfl⟩

theorem iteration_forward : (s.forward ctx e).iteration = s.iteration ∧
    (s.forward ctx e).isFirstIteration = s.isFirstIteration :=
  ⟨sendUnlessSkipped_iteration, sendUnlessSkipped_isFirstIteration⟩

/-- **The run** of an iteration: the items keep their indices, and new ones come after them. -/
theorem Indexed.run {events : List Event} (hs : s.Indexed T items)
    (hann : ∀ pre e post i, events = pre ++ e :: post → e.index = some i →
      e.eventType = some ctx.types.itemAdded ∨ .upstream s.iteration i ∈ items ∨
      ∃ e' ∈ pre, e'.eventType = some ctx.types.itemAdded ∧ e'.index = some i)
    (htold : T → ∀ e ∈ events, Told ctx.types.toEventTypes (s.isFirstIteration = false) e) :
    ∃ items', items <+: items' ∧ (s.run ctx events).1.Indexed T items' ∧
      (s.run ctx events).1.iteration = s.iteration := by
  induction events generalizing s items with
  | nil => exact ⟨items, prefix_refl _, hs, rfl⟩
  | cons e events ih =>
    have hhead : ∀ i, e.index = some i →
        e.eventType = some ctx.types.itemAdded ∨ .upstream s.iteration i ∈ items := by
      intro i hi
      rcases hann [] e events i rfl hi with h | h | ⟨e', he', -⟩
      · exact .inl h
      · exact .inr h
      · cases he'
    obtain ⟨items', hle, hmem, hstep⟩ := hs.step hhead fun hT => htold hT e (mem_cons_self ..)
    -- the rest, after `e` has given its item an index
    have hrest : ∀ {s' : Stream}, s'.Indexed T items' → s'.iteration = s.iteration →
        s'.isFirstIteration = s.isFirstIteration →
        ∃ items'', items <+: items'' ∧ (s'.run ctx events).1.Indexed T items'' ∧
          (s'.run ctx events).1.iteration = s.iteration := by
      intro s' hs' hiteration hfirst
      obtain ⟨items'', hle', hrun, hiteration'⟩ := ih hs' (fun pre e' post i heq hi => by
          rw [hiteration]
          rcases hann (e :: pre) e' post i (congrArg (List.cons e) heq) hi with h | h | ⟨e'', he'', h⟩
          · exact .inl h
          · exact .inr (.inl (hle.subset h))
          · rcases List.mem_cons.mp he'' with rfl | he''
            · exact .inr (.inl (hmem i h.2))
            · exact .inr (.inr ⟨e'', he'', h⟩))
        (fun hT e' he' => hfirst ▸ htold hT e' (mem_cons_of_mem _ he'))
      exact ⟨items'', hle.trans hle', hrun, hiteration'.trans hiteration⟩
    rw [Stream.run]
    cases hprocess : s.process ctx e with
    | mk s' action =>
      obtain ⟨hiteration, hfirst⟩ := iteration_process hprocess
      rw [hprocess] at hstep
      cases action with
      | forward =>
        exact hrest hstep (iteration_forward.1.trans hiteration) (iteration_forward.2.trans hfirst)
      | buffer => exact hrest hstep hiteration hfirst
      | executeTools => exact ⟨items', hle, hstep, hiteration⟩

end Stream

/-! ### The loop -/

/-- The events of an answer. -/
def Answer.events : Answer → List Event
  | .stream events _ => events
  | _ => []

/-- **The property**: every event of an item carries the index of the item, two items have two indices. -/
structure OneIndexEach (channel : List Sent) : Prop where
  same : ∀ b ∈ channel, ∀ b' ∈ channel, ∀ o, b.item = some o → b'.item = some o →
    b.outputIndex ≠ none ∧ b.outputIndex = b'.outputIndex
  apart : ∀ b ∈ channel, ∀ b' ∈ channel, ∀ o o', b.item = some o → b'.item = some o' → o ≠ o' →
    b.outputIndex ≠ b'.outputIndex

/-- The indices in use are 0 up to `next`, in the order of first appearance. -/
def InOrder (channel : List Sent) (next : Nat) : Prop :=
  (channel.filterMap fun b => b.item.bind fun _ => b.outputIndex).eraseDups = List.range next

/-- The client has the items of a run, and the next index comes after them. -/
structure Interception.Listed (T : Prop) (s : Interception) (items : List Item) : Prop where
  next : s.nextOutputIndex = items.length
  lists : s.client.Lists T items

/-- The invariant between two iterations: the items are of earlier ones. -/
structure Interception.Indexed (T : Prop) (s : Interception) (items : List Item) : Prop extends
    s.Listed T items where
  listTools : s.mcpListToolsSent = false → .listTools ∉ items
  past : ∀ k i, .upstream k i ∈ items → k < s.state.iteration

namespace Interception
variable {T : Prop} {ctx : Context} {s : Interception} {items : List Item}

theorem Listed.oneIndexEach (hs : s.Listed T items) : OneIndexEach s.client.channel where
  same b hb b' hb' o ho ho' := by
    refine ⟨?_, hs.lists.same hb hb' ho ho'⟩
    rw [(hs.lists.placed b hb o ho).2]
    exact Option.some_ne_none _
  apart b hb b' hb' o o' ho ho' hne := hs.lists.apart hb hb' ho ho' hne

theorem Listed.inOrder (hs : s.Listed T items) (hT : T) : InOrder s.client.channel s.nextOutputIndex :=
  hs.next ▸ Enumerates.inOrder hs.lists hT

theorem Indexed.start (hs : s.Indexed T items) : s.start.Indexed T items where
  maps := by
    refine ⟨hs.next, fun i => ?_⟩
    have hnew : Item.upstream s.start.iteration i ∉ items := fun hmem =>
      Nat.lt_irrefl _ (hs.past _ _ hmem)
    rw [if_neg hnew]
    rfl
  lists := hs.lists
  calls _ hc := absurd hc not_mem_nil
  listTools := hs.listTools
  past k i hmem := Nat.le_of_lt (hs.past k i hmem)

theorem Listed.stop (hs : s.Listed T items) (message : Str) : (s.stop message).1.Listed T items :=
  ⟨hs.next, (hs.lists.send rfl).send rfl⟩

theorem Listed.complete (hs : s.Listed T items) (stream : Stream) :
    (s.complete ctx stream).Listed T items := by
  have hfinal : (sendFinalResponseEvent ctx stream.loop.handler stream.accumulator
      s.state.conversationHistory s.client).Lists T items := by
    rw [sendFinalResponseEvent]
    split
    · exact hs.lists
    · exact Client.Lists.sendEvent_none hs.lists _ _
  rw [Interception.complete]
  split
  · exact ⟨hs.next, hfinal.send rfl⟩
  · exact ⟨hs.next, hfinal.send rfl⟩

/-- The end of a call bears the index of its item. -/
theorem Indexed.callTool (hs : s.Indexed T items) {k : Nat} {t : ToolCall}
    (ho : .upstream k t.call.outputIndex ∈ items)
    (hidx : t.call.effectiveOutputIndex = items.idxOf (.upstream k t.call.outputIndex)) :
    (Interception.callTool ctx k s t).Indexed T items := by
  have hgenerated : s.client.generate.Lists T items := hs.lists
  exact ⟨⟨hs.next, (hgenerated.sendEvent ho hidx _ _).sendEvent ho hidx _ _⟩, hs.listTools, hs.past⟩

theorem Indexed.callTools (ctx : Context) (hs : s.Indexed T items) {k : Nat} {calls : List ToolCall}
    (hcalls : ∀ t ∈ calls, .upstream k t.call.outputIndex ∈ items ∧
      t.call.effectiveOutputIndex = items.idxOf (.upstream k t.call.outputIndex)) :
    (s.callTools ctx k calls).Indexed T items := by
  induction calls generalizing s with
  | nil => exact hs
  | cons t calls ih =>
    obtain ⟨ho, hidx⟩ := hcalls t (mem_cons_self ..)
    exact ih (hs.callTool ho hidx) fun t' ht' => hcalls t' (mem_cons_of_mem _ ht')

/-- The pending calls of a stream have the indices of their items. -/
theorem effectiveOutputIndex_of_mem {stream : Stream} (hstream : stream.Indexed T items) {t : ToolCall}
    (ht : t ∈ executeStreamingToolCalls stream.loop.handler.pendingCalls) :
    .upstream stream.iteration t.call.outputIndex ∈ items ∧ t.call.effectiveOutputIndex =
      items.idxOf (.upstream stream.iteration t.call.outputIndex) := by
  rw [executeStreamingToolCalls, mem_map] at ht
  obtain ⟨call, hcall, rfl⟩ := ht
  obtain ⟨j, hj, hlookup⟩ := hstream.calls call (mem_of_mem_filter hcall)
  rw [hstream.maps.lookup] at hlookup
  split at hlookup
  · next hmem =>
    refine ⟨hmem, ?_⟩
    rw [FunctionCallInProgress.effectiveOutputIndex, hj, ← Option.some.inj hlookup]
    rfl
  · cases hlookup

theorem Indexed.resume (ctx : Context) (hs : s.Indexed T items) (basePayload : Value) :
    (s.resume ctx basePayload).1.Indexed T items := by
  rw [Interception.resume]
  split
  · exact ⟨⟨hs.next, hs.lists⟩, hs.listTools, hs.past⟩
  · exact ⟨hs.toListed.stop _, hs.listTools, hs.past⟩

/-- **A turn** of the loop. -/
theorem Indexed.turn (hs : s.Indexed T items) {answer : Answer} (basePayload : Value)
    (hann : Announced ctx.types.toEventTypes answer.events)
    (htold : T → ∀ e ∈ answer.events, Told ctx.types.toEventTypes (s.isFirstIteration = false) e) :
    ∃ items', (s.turn ctx basePayload answer).1.Listed T items' ∧
      ((s.turn ctx basePayload answer).2 = true →
        (s.turn ctx basePayload answer).1.Indexed T items') := by
  cases answer with
  | unreachable e => exact ⟨items, ⟨hs.next, hs.lists.send rfl⟩, Bool.noConfusion⟩
  | refused status body => exact ⟨items, ⟨hs.next, hs.lists.send rfl⟩, Bool.noConfusion⟩
  | stream events error =>
    have hsend : s.send.Indexed T items := ⟨⟨hs.next, hs.lists⟩, hs.listTools, hs.past⟩
    obtain ⟨items', hle, hstream, hiteration⟩ : ∃ items', items <+: items' ∧
        (s.send.start.run ctx events).1.Indexed T items' ∧
        (s.send.start.run ctx events).1.iteration = s.send.start.iteration :=
      hsend.start.run (fun pre e post i heq hi => (hann pre e post i heq hi).imp_right .inr) htold
    have hkept : (s.send.keep (s.send.start.run ctx events).1).Listed T items' :=
      ⟨hstream.maps.next, hstream.lists⟩
    rw [Interception.turn]
    cases hrun : s.send.start.run ctx events with
    | mk stream detected =>
      rw [hrun] at hstream hiteration hkept
      dsimp only
      unfold Interception.leave
      cases detected with
      | true =>
        have hcounted : ((s.send.keep stream).count
            stream.loop.handler.pendingCalls.length).Indexed T items' := by
          refine ⟨⟨hkept.next, hkept.lists⟩, hstream.listTools, fun k i hmem => ?_⟩
          have hk := hstream.past k i hmem
          rw [hiteration] at hk
          exact Nat.lt_succ_of_le hk
        rw [if_pos rfl, executeTools]
        split
        · exact ⟨items', hcounted.toListed.stop _, Bool.noConfusion⟩
        · have hcalled := hcounted.callTools ctx fun t ht =>
            effectiveOutputIndex_of_mem hstream ht
          rw [hiteration] at hcalled
          have hresumed := hcalled.resume ctx basePayload
          exact ⟨items', hresumed.toListed, fun _ => hresumed⟩
      | false =>
        rw [if_neg Bool.false_ne_true]
        split
        · exact ⟨items', ⟨hkept.next, hkept.lists.send rfl⟩, Bool.noConfusion⟩
        · exact ⟨items', hkept.complete stream, Bool.noConfusion⟩

theorem isFirstIteration_turn {basePayload : Value} {answer : Answer}
    (h : (s.turn ctx basePayload answer).2 = true) :
    (s.turn ctx basePayload answer).1.isFirstIteration = false := by
  cases answer with
  | unreachable e => cases h
  | refused status body => cases h
  | stream events error =>
    rw [Interception.turn] at h ⊢
    dsimp only at h ⊢
    unfold Interception.leave at h ⊢
    split at h
    · next hdetected =>
      rw [if_pos hdetected]
      rw [executeTools] at h ⊢
      split at h
      · cases h
      · next hlimit =>
        rw [if_neg hlimit]
        rw [resume] at h ⊢
        split at h
        · rfl
        · cases h
    · split at h
      · cases h
      · cases h

/-- **A run** of the loop; only the first iteration may not skip anything. -/
theorem Indexed.run (ctx : Context) {answers : List Answer} (hs : s.Indexed T items) (basePayload : Value)
    (hann : ∀ answer ∈ answers, Announced ctx.types.toEventTypes answer.events)
    (htold : T → ∀ n answer, answers[n]? = some answer → ∀ e ∈ answer.events,
      Told ctx.types.toEventTypes (s.isFirstIteration = false ∨ 0 < n) e) :
    ∃ items', (s.run ctx basePayload answers).1.Listed T items' := by
  induction answers generalizing s items with
  | nil => exact ⟨items, hs.toListed⟩
  | cons answer answers ih =>
    have hhead : T → ∀ e ∈ answer.events,
        Told ctx.types.toEventTypes (s.isFirstIteration = false) e := fun hT e he =>
      have htold := htold hT 0 answer rfl e he
      ⟨htold.delta, fun hfirst => htold.added (.inl hfirst)⟩
    obtain ⟨items', hlisted, hnext⟩ :=
      hs.turn basePayload (hann answer (mem_cons_self ..)) hhead
    have hfirst : (s.turn ctx basePayload answer).2 = true →
        (s.turn ctx basePayload answer).1.isFirstIteration = false := isFirstIteration_turn
    rw [Interception.run]
    cases hturn : s.turn ctx basePayload answer with
    | mk s' goesOn =>
      rw [hturn] at hlisted hnext hfirst
      cases goesOn with
      | false => exact ⟨items', hlisted⟩
      | true =>
        refine ih (hnext rfl) (fun a ha => hann a (mem_cons_of_mem _ ha)) ?_
        intro hT n a hn e he
        have htold := htold hT (n + 1) a hn e he
        exact ⟨htold.delta, fun _ => htold.added (.inr (Nat.succ_pos n))⟩

end Interception

/-- Every event that takes an index tells it; only the first answer may not skip anything. -/
def AllTold (types : EventTypes) (answers : List Answer) : Prop :=
  ∀ n answer, answers[n]? = some answer → ∀ e ∈ answer.events, Told types (0 < n) e

/-- **Output indices**: over every run in which each item is added before its other events, each item has
one index of the client, and two items have two; and if every event that takes an index tells it, the
indices in use are 0, 1, 2 and so on in the order of first appearance. -/
theorem indices_run (ctx : Context) (payload : Value) (answers : List Answer)
    (hann : ∀ answer ∈ answers, Announced ctx.types.toEventTypes answer.events) :
    OneIndexEach (Interception.runFrom ctx payload answers).1.client.channel ∧
      (AllTold ctx.types.toEventTypes answers →
        InOrder (Interception.runFrom ctx payload answers).1.client.channel
          (Interception.runFrom ctx payload answers).1.nextOutputIndex) := by
  have hstart : ({ currentPayload := payload } : Interception).Indexed
      (AllTold ctx.types.toEventTypes answers) [] :=
    ⟨⟨rfl, Enumerates.nil⟩, fun _ => not_mem_nil, fun _ _ hmem => absurd hmem not_mem_nil⟩
  obtain ⟨items, hlisted⟩ := hstart.run ctx payload hann fun htold n answer hn e he => by
    have htold := htold n answer hn e he
    exact ⟨htold.delta, fun hskips => htold.added (hskips.resolve_left Bool.noConfusion)⟩
  exact ⟨hlisted.oneIndexEach, hlisted.inOrder⟩

/-! ### Runs -/

/-- The names of the events for the client. -/
def openAiTypes : ProtocolTypes where
  toEventTypes := openAi
  callArgumentsDelta := "response.mcp_call_arguments.delta".toList
  callArgumentsDone := "response.mcp_call_arguments.done".toList
  callInProgress := "response.mcp_call.in_progress".toList
  callCompleted := "response.mcp_call.completed".toList
  listToolsInProgress := "response.mcp_list_tools.in_progress".toList
  listToolsCompleted := "response.mcp_list_tools.completed".toList
  functionCall := "function_call".toList
  mcpCall := "mcp_call".toList
  mcpListTools := "mcp_list_tools".toList
  isResponseEvent t := t = openAi.created ∨ t = openAi.inProgress ∨ t = openAi.completed
  distinct := by decide
  functionCall_ne := by decide
  added_ne := by decide

/-- A request without input, and tools that answer `r`. -/
def plainContext : Context where
  types := openAiTypes
  request := { input := .items [], model := [] }
  previousResponseId := none
  tools := []
  maxIterations := 10
  generateId kind n := kind ++ '_' :: (toString n).toList
  callTool _ _ _ := .ok ['r']
  fromStr _ := none

/-- An `output_item.delta` without an index. -/
def deltaWithoutIndex : Event where
  eventName := some openAi.itemDelta
  data := some (.object [])

/-- An item is added under the type of a response that starts. -/
def addedAsCreated : Event where
  eventName := some openAi.itemAdded
  data := some (.object [("type".toList, .string openAi.created), ("output_index".toList, .integer 0)])

/-- An index is taken that no event bears: by a delta without an index, and by an item of the second
iteration that is skipped. -/
theorem index_taken :
    (Announced openAi [deltaWithoutIndex] ∧
      ¬ InOrder
        (Interception.runFrom plainContext (.object []) [.stream [deltaWithoutIndex] none]).1.client.channel
        (Interception.runFrom plainContext (.object [])
          [.stream [deltaWithoutIndex] none]).1.nextOutputIndex) ∧
    Announced openAi [addedAsCreated] ∧
      ¬ InOrder
        (Interception.runFrom plainContext (.object [])
          [.stream (callEvents 0 ['f'] ['1']) none, .stream [addedAsCreated] none]).1.client.channel
        (Interception.runFrom plainContext (.object [])
          [.stream (callEvents 0 ['f'] ['1']) none, .stream [addedAsCreated] none]).1.nextOutputIndex := by
  have single : ∀ {e : Event}, (∀ i, e.index = some i → e.eventType = some openAi.itemAdded) →
      Announced openAi [e] := by
    intro e he pre e' post i heq hi
    cases pre with
    | nil =>
      obtain ⟨rfl, -⟩ := List.cons.inj heq
      exact .inl (he i hi)
    | cons d pre => cases pre <;> cases (List.cons.inj heq).2
  refine ⟨⟨single fun _ hi => absurd hi (Option.some_ne_none _).symm, ?_⟩, single fun _ _ => by decide, ?_⟩
  · rw [InOrder]
    decide
  · rw [InOrder]
    decide

/-- An event comes after the one that adds its item, which is the first or the second. -/
theorem announced_of_two {types : EventTypes} {e e' : Event} {rest : List Event}
    (hadded : e.eventType = some types.itemAdded) (hadded' : e'.eventType = some types.itemAdded)
    (hrest : ∀ d ∈ rest, d.index = e.index ∨ d.index = e'.index) :
    Announced types (e :: e' :: rest) := by
  intro pre d post j heq hj
  match pre with
  | [] =>
    obtain ⟨rfl, -⟩ := List.cons.inj heq
    exact .inl hadded
  | [_] =>
    obtain ⟨rfl, -⟩ := List.cons.inj (List.cons.inj heq).2
    exact .inl hadded'
  | d₁ :: d₂ :: pre =>
    obtain ⟨hfirst, hcons⟩ := List.cons.inj heq
    obtain ⟨hsecond, hrest'⟩ := List.cons.inj hcons
    subst hfirst hsecond hrest'
    obtain hsame | hsame := hrest d (mem_append_right _ (mem_cons_self ..))
    · exact .inr ⟨_, mem_cons_self .., hadded, hsame.symm.trans hj⟩
    · exact .inr ⟨_, mem_cons_of_mem _ (mem_cons_self ..), hadded', hsame.symm.trans hj⟩

/-- Two calls of tools whose events alternate, and in the second iteration two items again. -/
theorem indices_of_alternating : OneIndexEach
    (Interception.runFrom plainContext (.object [])
      [.stream alternatingCalls none, .stream alternatingCalls none]).1.client.channel ∧
    InOrder
      (Interception.runFrom plainContext (.object [])
        [.stream alternatingCalls none, .stream alternatingCalls none]).1.client.channel
      (Interception.runFrom plainContext (.object [])
        [.stream alternatingCalls none, .stream alternatingCalls none]).1.nextOutputIndex := by
  have hboth : ∀ answer ∈ [Answer.stream alternatingCalls none, .stream alternatingCalls none],
      answer.events = alternatingCalls := by
    intro answer hanswer
    simp only [mem_cons, not_mem_nil, or_false, or_self] at hanswer
    rw [hanswer, Answer.events]
  obtain ⟨hone, horder⟩ := indices_run plainContext (.object [])
    [.stream alternatingCalls none, .stream alternatingCalls none] fun answer hanswer => by
      rw [hboth answer hanswer]
      exact announced_of_two (by decide) (by decide) (by decide)
  refine ⟨hone, horder fun n answer hanswer e he => ?_⟩
  rw [hboth answer (List.mem_of_getElem? hanswer)] at he
  have hkinds : ∀ e ∈ alternatingCalls, e.eventType ≠ some openAi.itemDelta := by decide
  have hplain : ∀ e ∈ alternatingCalls,
      Stream.dataType e ≠ some openAi.created ∧ Stream.dataType e ≠ some openAi.inProgress := by decide
  exact ⟨fun htype => absurd htype (hkinds e he), fun _ _ => hplain e he⟩

end QwenStack.Responses
