import Mathlib.Data.List.Induction
import QwenStack.Responses.Definitions

/-!
# Tool calls of a streamed response — what the model asked for

The events of a response come in any interleaving of its items, and those of one function call in an
order: the call is added, then come the pieces of its arguments, then the ends of the arguments and of the
item (`WellFormed`).  What the model asks for is then a matter of the events alone (`askedFor`).

The handler keeps what has been asked for so far (`Tracks`), and takes a call to be complete when it has a
name.  It has one from the start, so the stream is left at the first end of any item after a call was
added (`beforeTools`), and whatever comes later is not read.

`tools_iff`: the calls that are made are those that the model asked for exactly if all of them have been
added, and all of their arguments have come, when the stream is left.
-/

namespace QwenStack.Responses

open List

/-! ### What the model asks for -/

/-- An event of the response.  `malformed` is one that a well-formed response has not: of a function call
without its index or the text of the piece, or `output_item.delta` of a function call. -/
inductive Upstream where
  | callAdded (index : Nat) (callId name : Str)
  | arguments (index : Nat) (delta : Str)
  | argumentsDone (index : Nat)
  | itemDone (index : Nat)
  | other
  | malformed
  deriving DecidableEq

namespace Upstream

/-- The item that an event is about. -/
def index : Upstream → Option Nat
  | callAdded i _ _ => some i
  | arguments i _ => some i
  | argumentsDone i => some i
  | itemDone i => some i
  | other => none
  | malformed => none

/-- The end of an item, or of its arguments. -/
def isDone : Upstream → Bool
  | argumentsDone _ => true
  | itemDone _ => true
  | _ => false

/-- A function call that is added. -/
def added : Upstream → Option (Nat × Str × Str)
  | callAdded i callId name => some (i, callId, name)
  | _ => none

/-- What an event adds to the arguments of an item. -/
def argument (i : Nat) : Upstream → Str
  | arguments j delta => if j = i then delta else []
  | _ => []

end Upstream

open Upstream

/-- The type of an item, and of the delta of one. -/
def typeOf (key : Str) (parsed : Value) : Option Str :=
  (parsed.get key).bind (Value.getStr "type".toList)

/-- A text of the item that an event carries. -/
def ofItem (key : Str) (parsed : Value) : Str :=
  ((parsed.get "item".toList).bind (Value.getStr key)).getD []

def readingAdded (et : EventTypes) (parsed : Value) : Upstream :=
  if (typeOf "item".toList parsed).any et.isFunctionCallType = true then
    match extractOutputIndex parsed with
    | some i => callAdded i (ofItem "call_id".toList parsed) (ofItem "name".toList parsed)
    | none => malformed
  else other

def readingArguments (parsed : Value) : Upstream :=
  match extractOutputIndex parsed, Value.getStr "delta".toList parsed with
  | some i, some delta => arguments i delta
  | _, _ => malformed

def readingDone (done : Nat → Upstream) (parsed : Value) : Upstream :=
  match extractOutputIndex parsed with
  | some i => done i
  | none => malformed

/-- What an event says. -/
def reading (et : EventTypes) (e : Event) : Upstream :=
  match e.data with
  | none => other
  | some parsed =>
      let eventType := getEventType e.eventName parsed
      if eventType = et.created ∨ eventType = et.completed then other
      else if eventType = et.itemAdded then readingAdded et parsed
      else if eventType = et.argumentsDelta then readingArguments parsed
      else if eventType = et.argumentsDone then readingDone argumentsDone parsed
      else if eventType = et.itemDelta then
        if (typeOf "delta".toList parsed).any et.isFunctionCallType = true then malformed else other
      else if eventType = et.itemDone then readingDone itemDone parsed
      else other

/-- The events of one item. -/
def eventsOf (i : Nat) (us : List Upstream) : List Upstream :=
  us.filter fun u => u.index = some i

/-- **A well-formed response**: the events of each function call come in their order. -/
structure WellFormed (us : List Upstream) : Prop where
  wellFormed : malformed ∉ us
  inOrder : ∀ i callId name, callAdded i callId name ∈ us → ∃ deltas : List Str,
    eventsOf i us =
      callAdded i callId name :: deltas.map (arguments i) ++ [argumentsDone i, itemDone i]

/-- A function call that the model asks for. -/
structure Asked where
  index : Nat
  callId : Str
  name : Str
  arguments : Str
  deriving DecidableEq, Repr

/-- The function calls of a response: index, id and name. -/
def callsAdded (us : List Upstream) : List (Nat × Str × Str) := us.filterMap added

/-- The arguments of an item: all its pieces. -/
def argumentsOf (i : Nat) (us : List Upstream) : Str := us.flatMap (argument i)

/-- What the model asks for. -/
def askedFor (us : List Upstream) : List Asked :=
  (callsAdded us).map fun call => ⟨call.1, call.2.1, call.2.2, argumentsOf call.1 us⟩

/-- A call of a tool, as what it was asked for. -/
def ToolCall.asked (t : ToolCall) : Asked := ⟨t.call.outputIndex, t.call.callId, t.call.name, t.args⟩

/-- **The property**: if the stream is left to call tools, each function call of the response is made
once, with all of its arguments. -/
def MakesAll (et : EventTypes) (s : Loop) (events : List Event) : Prop :=
  ∀ limits calls, iteration et limits s events = some calls →
    (calls.map ToolCall.asked).Perm (askedFor (events.map (reading et)))

/-! ### Where the stream is left -/

/-- The event ends an item, function calls have been added before, and they have names. -/
def Leaves (us : List Upstream) (u : Upstream) : Prop :=
  u.isDone = true ∧ callsAdded us ≠ [] ∧ ∀ call ∈ callsAdded us, call.2.2 ≠ []

instance (us : List Upstream) (u : Upstream) : Decidable (Leaves us u) :=
  inferInstanceAs (Decidable (_ ∧ _ ∧ _))

/-- The events before the first that leaves the stream; `us` are those read before. -/
def beforeTools (us : List Upstream) : List Upstream → Option (List Upstream)
  | [] => none
  | u :: rest => if Leaves us u then some us else beforeTools (us ++ [u]) rest

/-- All arguments have come, or they are `{}` and none has. -/
def Ready (arrived all : Str) : Prop :=
  (arrived ≠ [] ∧ arrived = all) ∨ (arrived = [] ∧ all = "{}".toList)

/-- **The condition**: where the stream is left, every function call has been added and its arguments
have come. -/
def Complete (us : List Upstream) : Prop :=
  ∀ pre, beforeTools [] us = some pre →
    callsAdded pre = callsAdded us ∧
    ∀ call ∈ callsAdded us, Ready (argumentsOf call.1 pre) (argumentsOf call.1 us)

/-! ### One event more -/

theorem callsAdded_concat (us : List Upstream) (u : Upstream) :
    callsAdded (us ++ [u]) = callsAdded us ++ u.added.toList := by
  rw [callsAdded, filterMap_append]
  cases h : u.added with
  | none => rw [filterMap_cons_none h]; rfl
  | some call => rw [filterMap_cons_some h]; rfl

@[simp] theorem argumentsOf_concat (i : Nat) (us : List Upstream) (u : Upstream) :
    argumentsOf i (us ++ [u]) = argumentsOf i us ++ u.argument i := by
  rw [argumentsOf, flatMap_append, flatMap_singleton, argumentsOf]

theorem argument_of_index {u : Upstream} {i : Nat} (h : u.index ≠ some i) : u.argument i = [] := by
  cases u with
  | arguments j delta => exact if_neg fun hj => h (congrArg some hj)
  | _ => rfl

theorem argumentsOf_of_index {us : List Upstream} {i : Nat} (h : ∀ u ∈ us, u.index ≠ some i) :
    argumentsOf i us = [] :=
  List.flatMap_eq_nil_iff.mpr fun u hu => argument_of_index (h u hu)

theorem mem_callsAdded {us : List Upstream} {call : Nat × Str × Str} :
    call ∈ callsAdded us ↔ callAdded call.1 call.2.1 call.2.2 ∈ us := by
  rw [callsAdded, mem_filterMap]
  constructor
  · rintro ⟨u, hu, hadded⟩
    cases u with
    | callAdded i callId name =>
      cases hadded
      exact hu
    | _ => cases hadded
  · exact fun h => ⟨_, h, rfl⟩

/-- What has been asked for changes with a call that is added, and with a piece of arguments. -/
theorem askedFor_concat_of_silent {us : List Upstream} {u : Upstream} (hadded : u.added = none)
    (hargument : ∀ i, u.argument i = []) : askedFor (us ++ [u]) = askedFor us := by
  rw [askedFor, callsAdded_concat, hadded, Option.toList_none, append_nil]
  exact map_congr_left fun call _ => by rw [argumentsOf_concat, hargument, append_nil]

theorem askedFor_concat_of_done {us : List Upstream} {u : Upstream} (hdone : u.isDone = true) :
    askedFor (us ++ [u]) = askedFor us := by
  cases u with
  | argumentsDone i => exact askedFor_concat_of_silent rfl fun _ => rfl
  | itemDone i => exact askedFor_concat_of_silent rfl fun _ => rfl
  | _ => cases hdone

theorem askedFor_concat_arguments (us : List Upstream) (i : Nat) (delta : Str) :
    askedFor (us ++ [arguments i delta]) = (askedFor us).map fun a =>
      if a.index = i then { a with arguments := a.arguments ++ delta } else a := by
  rw [askedFor, callsAdded_concat, askedFor, map_map]
  simp only [added, Option.toList_none, append_nil]
  refine map_congr_left fun call _ => ?_
  rw [argumentsOf_concat, Function.comp_apply]
  by_cases h : call.1 = i
  · rw [if_pos h, argument, if_pos h.symm]
  · rw [if_neg h, argument, if_neg (Ne.symm h), append_nil]

theorem askedFor_concat_callAdded {us : List Upstream} {i : Nat} (callId name : Str)
    (hnew : ∀ u ∈ us, u.index ≠ some i) :
    askedFor (us ++ [callAdded i callId name]) = askedFor us ++ [⟨i, callId, name, []⟩] := by
  rw [askedFor, callsAdded_concat]
  simp only [added, Option.toList_some, argumentsOf_concat, argument, append_nil]
  rw [map_append, map_singleton, argumentsOf_of_index hnew]
  rfl

/-! ### Calls come first -/

/-- Nothing is malformed, and an item starts with its call. -/
structure Ordered (us : List Upstream) : Prop where
  wellFormed : malformed ∉ us
  first : ∀ {pre i callId name post}, us = pre ++ callAdded i callId name :: post →
    ∀ u ∈ pre, u.index ≠ some i

theorem WellFormed.ordered {us : List Upstream} (h : WellFormed us) : Ordered us := by
  refine ⟨h.wellFormed, ?_⟩
  rintro pre i callId name post rfl u hu hindex
  obtain ⟨deltas, hevents⟩ := h.inOrder i callId name (mem_append_right _ (mem_cons_self ..))
  have hcall : eventsOf i (callAdded i callId name :: post) =
      callAdded i callId name :: eventsOf i post := filter_cons_of_pos (decide_eq_true rfl)
  rw [eventsOf, filter_append, ← eventsOf, ← eventsOf, hcall] at hevents
  -- the call would be there a second time, after what is there before it
  cases hpre : eventsOf i pre with
  | nil => exact List.filter_eq_nil_iff.mp hpre u hu (decide_eq_true hindex)
  | cons v vs =>
    rw [hpre] at hevents
    have htail : vs ++ callAdded i callId name :: eventsOf i post =
        deltas.map (arguments i) ++ [argumentsDone i, itemDone i] := (List.cons.inj hevents).2
    have hmem : callAdded i callId name ∈ vs ++ callAdded i callId name :: eventsOf i post :=
      mem_append_right _ (mem_cons_self ..)
    rw [htail] at hmem
    rcases List.mem_append.mp hmem with hmem | hmem
    · obtain ⟨delta, -, hdelta⟩ := List.mem_map.mp hmem
      cases hdelta
    · simp only [mem_cons, reduceCtorEq, not_mem_nil, or_self] at hmem

theorem Ordered.of_append {us more : List Upstream} (h : Ordered (us ++ more)) : Ordered us where
  wellFormed hmem := h.wellFormed (mem_append_left _ hmem)
  first hus := h.first (by rw [hus, append_assoc, cons_append])

theorem not_ordered_malformed {us : List Upstream} : ¬ Ordered (us ++ [malformed]) :=
  fun h => h.wellFormed (mem_append_right _ (mem_singleton_self _))

/-- The index of a function call is its own. -/
theorem Ordered.nodup {us : List Upstream} (h : Ordered us) :
    ((callsAdded us).map Prod.fst).Nodup := by
  induction us using List.reverseRecOn with
  | nil => exact nodup_nil
  | append_singleton us u ih =>
    rw [callsAdded_concat]
    cases u with
    | callAdded i callId name =>
      rw [added, Option.toList_some, map_append, map_singleton, ← concat_eq_append]
      refine (ih h.of_append).concat fun hmem => ?_
      obtain ⟨call, hcall, hindex⟩ := List.mem_map.mp hmem
      exact h.first rfl _ (mem_callsAdded.mp hcall) (congrArg some hindex)
    | _ =>
      simp only [added, Option.toList_none, append_nil]
      exact ih h.of_append

/-! ### The handler -/

/-- A function call that the handler keeps. -/
def FunctionCallInProgress.asked (c : FunctionCallInProgress) : Asked :=
  ⟨c.outputIndex, c.callId, c.name, c.argumentsBuffer⟩

/-- **The invariant**: the handler keeps what has been asked for. -/
def Tracks (us : List Upstream) (h : StreamingToolHandler) : Prop :=
  h.pendingCalls.map FunctionCallInProgress.asked = askedFor us

theorem index_askedFor (us : List Upstream) :
    (askedFor us).map Asked.index = (callsAdded us).map Prod.fst := by
  rw [askedFor, map_map]
  rfl

theorem Tracks.indexes {us : List Upstream} {h : StreamingToolHandler} (ht : Tracks us h) :
    h.pendingCalls.map FunctionCallInProgress.outputIndex = (callsAdded us).map Prod.fst := by
  rw [← index_askedFor, ← ht, map_map]
  rfl

/-- A change of a call, seen from what is asked for. -/
theorem map_updateCall {f : FunctionCallInProgress → FunctionCallInProgress} {g : Asked → Asked}
    {i : Nat} (hf : ∀ c, (f c).asked = g c.asked) {calls : List FunctionCallInProgress}
    (hnd : (calls.map FunctionCallInProgress.outputIndex).Nodup) :
    (updateCall i f calls).map FunctionCallInProgress.asked =
      (calls.map FunctionCallInProgress.asked).map fun a => if a.index = i then g a else a := by
  induction calls with
  | nil => rfl
  | cons c calls ih =>
    rw [map_cons, nodup_cons] at hnd
    rw [updateCall, map_cons, map_cons]
    by_cases hc : c.outputIndex = i
    · rw [if_pos hc, map_cons, hf, if_pos (show c.asked.index = i from hc), map_map]
      refine congrArg (List.cons _) (map_congr_left fun d hd => ?_).symm
      refine if_neg fun (hd' : d.outputIndex = i) => hnd.1 ?_
      exact List.mem_map.mpr ⟨d, hd, hd'.trans hc.symm⟩
    · rw [if_neg hc, map_cons, ih hnd.2, if_neg (show ¬ c.asked.index = i from hc)]

section Frame
variable (h : StreamingToolHandler)

@[simp] theorem pendingCalls_ensureOutputIndex (i : Nat) :
    (h.ensureOutputIndex i).2.pendingCalls = h.pendingCalls := rfl

@[simp] theorem pendingCalls_ensureEventIndex (parsed : Value) :
    (h.ensureEventIndex parsed).pendingCalls = h.pendingCalls := by
  rw [StreamingToolHandler.ensureEventIndex]
  cases extractOutputIndex parsed <;> rfl

theorem pendingCalls_afterForward (et : EventTypes) (s : Loop) (e : Event) :
    (s.afterForward et e).handler.pendingCalls = s.handler.pendingCalls := by
  rw [Loop.afterForward]
  split
  · dsimp only
    split <;> rfl
  · rfl

end Frame

/-- The calls are complete when they have names. -/
theorem Tracks.hasCompleteCalls_iff {us : List Upstream} {h : StreamingToolHandler}
    (ht : Tracks us h) : h.hasCompleteCalls = true ↔
      callsAdded us ≠ [] ∧ ∀ call ∈ callsAdded us, call.2.2 ≠ [] := by
  have hnames : h.pendingCalls.map FunctionCallInProgress.name =
      (callsAdded us).map fun call => call.2.2 := by
    have := congrArg (List.map Asked.name) ht
    rwa [askedFor, map_map, map_map] at this
  have hall : (∀ c ∈ h.pendingCalls, c.name ≠ []) ↔ ∀ call ∈ callsAdded us, call.2.2 ≠ [] := by
    rw [← forall_mem_map (P := fun name => name ≠ []), hnames, forall_mem_map]
  have hnil : h.pendingCalls = [] ↔ callsAdded us = [] := by
    rw [← map_eq_nil_iff, hnames, map_eq_nil_iff]
  rw [StreamingToolHandler.hasCompleteCalls, Bool.and_eq_true, decide_eq_true_iff,
    all_eq_true, ← hall, ne_eq, hnil]
  simp only [FunctionCallInProgress.isComplete, decide_eq_true_iff]

/-- What the handler makes of an event: what has been asked for, and whether the stream is left. -/
structure Follows (us : List Upstream) (u : Upstream)
    (result : StreamingToolHandler × StreamAction) : Prop where
  tracks : Tracks (us ++ [u]) result.1
  leaves : result.2 = .executeTools ↔ Leaves us u

section Step
variable {us : List Upstream} {h : StreamingToolHandler}

/-- An event that is no end leaves the stream to go on. -/
theorem not_leaves {u : Upstream} (hu : u.isDone = false) {action : StreamAction}
    (haction : action ≠ .executeTools) : action = .executeTools ↔ Leaves us u := by
  refine iff_of_false haction fun hleaves => ?_
  rw [hleaves.1] at hu
  cases hu

theorem follows_other (ht : Tracks us h) {h' : StreamingToolHandler}
    (hcalls : h'.pendingCalls = h.pendingCalls) : Follows us other (h', .forward) where
  tracks := by
    rw [Tracks, askedFor_concat_of_silent rfl fun _ => rfl, hcalls]
    exact ht
  leaves := not_leaves rfl StreamAction.noConfusion

/-- An event that ends an item, or its arguments. -/
theorem follows_done (ht : Tracks us h) {u : Upstream} (hdone : u.isDone = true)
    {h' : StreamingToolHandler} (hcalls : h'.pendingCalls.map FunctionCallInProgress.asked =
      h.pendingCalls.map FunctionCallInProgress.asked) : Follows us u (h', h'.actionOfDone) where
  tracks := by
    rw [Tracks, askedFor_concat_of_done hdone, hcalls]
    exact ht
  leaves := by
    have ht' : Tracks us h' := hcalls.trans ht
    rw [Leaves, hdone, ← ht'.hasCompleteCalls_iff, StreamingToolHandler.actionOfDone]
    split
    · next hcomplete => exact iff_of_true rfl ⟨rfl, hcomplete⟩
    · next hcomplete => exact iff_of_false StreamAction.noConfusion fun hc => hcomplete hc.2

theorem Tracks.nodup (ht : Tracks us h) (ho : Ordered us) :
    (h.pendingCalls.map FunctionCallInProgress.outputIndex).Nodup :=
  ht.indexes ▸ ho.nodup

theorem updateCall_concat {i : Nat} (f : FunctionCallInProgress → FunctionCallInProgress)
    {calls : List FunctionCallInProgress} (hnew : ∀ c ∈ calls, c.outputIndex ≠ i)
    {c : FunctionCallInProgress} (hc : c.outputIndex = i) :
    updateCall i f (calls ++ [c]) = calls ++ [f c] := by
  induction calls with
  | nil => exact if_pos hc
  | cons d calls ih =>
    rw [cons_append, updateCall, if_neg (hnew d (mem_cons_self ..)),
      ih fun c hc => hnew c (mem_cons_of_mem _ hc), cons_append]

/-- A call with a new index is a new call. -/
theorem pendingCalls_getOrCreateCall {i : Nat} (delta : Value)
    (hnew : ∀ c ∈ h.pendingCalls, c.outputIndex ≠ i) :
    (h.getOrCreateCall i delta).pendingCalls = h.pendingCalls ++ [{
      callId := (Value.getStr "call_id".toList delta).getD []
      outputIndex := i
      lastObfuscation := Value.getStr "obfuscation".toList delta }] := by
  rw [StreamingToolHandler.getOrCreateCall, if_neg]
  rw [any_eq_true]
  rintro ⟨c, hc, hindex⟩
  exact hnew c hc (of_decide_eq_true hindex)

theorem Tracks.callAdded (ht : Tracks us h) {i : Nat} {callId name : Str}
    (ho : Ordered (us ++ [callAdded i callId name])) (delta : Value)
    {f : FunctionCallInProgress → FunctionCallInProgress}
    (hf : ∀ c, (f c).asked = { c.asked with callId := callId, name := name }) :
    (updateCall i f (h.getOrCreateCall i delta).pendingCalls).map FunctionCallInProgress.asked =
      askedFor (us ++ [.callAdded i callId name]) := by
  have hfresh := ho.first rfl
  have hnew : ∀ c ∈ h.pendingCalls, c.outputIndex ≠ i := by
    rintro c hc rfl
    have hmem := mem_map_of_mem (f := FunctionCallInProgress.outputIndex) hc
    rw [ht.indexes, mem_map] at hmem
    obtain ⟨call, hcall, hindex⟩ := hmem
    exact hfresh _ (mem_callsAdded.mp hcall) (congrArg some hindex)
  rw [pendingCalls_getOrCreateCall delta hnew, updateCall_concat f hnew rfl, map_append, ht,
    map_singleton, hf, askedFor_concat_callAdded callId name hfresh]
  rfl

theorem handleOutputItemAdded_follows (et : EventTypes) {parsed : Value} (ht : Tracks us h)
    (ho : Ordered (us ++ [readingAdded et parsed])) :
    Follows us (readingAdded et parsed) (h.handleOutputItemAdded et parsed) := by
  have hcalls := pendingCalls_ensureEventIndex h parsed
  have hother := follows_other ht hcalls
  cases hitem : parsed.get "item".toList with
  | none =>
    simp only [readingAdded, typeOf, StreamingToolHandler.handleOutputItemAdded, hitem]
    exact hother
  | some item =>
    cases htype : Value.getStr "type".toList item with
    | none =>
      simp only [readingAdded, typeOf, StreamingToolHandler.handleOutputItemAdded, hitem,
        Option.bind_some, htype]
      exact hother
    | some itemType =>
      cases hcall : et.isFunctionCallType itemType with
      | false =>
        simp only [readingAdded, typeOf, StreamingToolHandler.handleOutputItemAdded, hitem,
          Option.bind_some, htype, Option.any_some, hcall, if_true]
        exact hother
      | true =>
        cases hindex : extractOutputIndex parsed with
        | none =>
          simp only [readingAdded, typeOf, hitem, Option.bind_some, htype, Option.any_some,
            hcall, if_true, hindex] at ho
          exact absurd ho not_ordered_malformed
        | some i =>
          simp only [readingAdded, typeOf, StreamingToolHandler.handleOutputItemAdded,
            ofItem, hitem, Option.bind_some, htype, Option.any_some, hcall, if_true, hindex,
            reduceCtorEq, if_false] at ho ⊢
          have ht' : Tracks us ((h.ensureEventIndex parsed).ensureOutputIndex i).2 := by
            rw [Tracks, pendingCalls_ensureOutputIndex, hcalls]
            exact ht
          exact ⟨ht'.callAdded ho item fun _ => rfl, not_leaves rfl StreamAction.noConfusion⟩

theorem handleArgumentsDelta_follows {parsed : Value} (ht : Tracks us h)
    (ho : Ordered (us ++ [readingArguments parsed])) :
    Follows us (readingArguments parsed) (h.handleArgumentsDelta parsed) := by
  rw [StreamingToolHandler.handleArgumentsDelta]
  rw [readingArguments] at ho ⊢
  cases hindex : extractOutputIndex parsed with
  | none =>
    rw [hindex] at ho
    exact absurd ho not_ordered_malformed
  | some i =>
    cases hdelta : Value.getStr "delta".toList parsed with
    | none =>
      rw [hindex, hdelta] at ho
      exact absurd ho not_ordered_malformed
    | some delta =>
      refine ⟨?_, not_leaves rfl StreamAction.noConfusion⟩
      rw [Tracks, askedFor_concat_arguments, ← ht]
      exact map_updateCall (fun _ => rfl) (ht.nodup ho.of_append)

/-- The ends of the arguments, whose call may get its index of the client. -/
theorem handleArgumentsDone_follows {parsed : Value} (ht : Tracks us h)
    (ho : Ordered (us ++ [readingDone argumentsDone parsed])) :
    Follows us (readingDone argumentsDone parsed) (h.handleArgumentsDone parsed) := by
  rw [readingDone] at ho ⊢
  cases hindex : extractOutputIndex parsed with
  | none =>
    rw [hindex] at ho
    exact absurd ho not_ordered_malformed
  | some i =>
    rw [StreamingToolHandler.handleArgumentsDone, hindex]
    refine follows_done ht rfl ?_
    refine (map_updateCall (g := fun a => a) ?_ (ht.nodup ho.of_append)).trans ?_
    · exact fun _ => rfl
    · simp only [ite_self, map_id']

theorem processOutputDelta_follows {et : EventTypes} {parsed : Value} (ht : Tracks us h)
    (hcall : ¬ (typeOf "delta".toList parsed).any et.isFunctionCallType = true) :
    Follows us other (h.processOutputDelta et parsed) := by
  have hother := follows_other ht
    (pendingCalls_ensureOutputIndex h ((extractOutputIndex parsed).getD 0))
  rw [StreamingToolHandler.processOutputDelta]
  cases hdelta : parsed.get "delta".toList with
  | none => exact hother
  | some delta =>
    rw [typeOf, hdelta, Option.bind_some] at hcall
    simp only [if_neg hcall]
    exact hother

/-- **The step**: the handler keeps what has been asked for, and leaves the stream at an end. -/
theorem processEvent_follows {et : EventTypes} {e : Event} (ht : Tracks us h)
    (ho : Ordered (us ++ [reading et e])) : Follows us (reading et e) (h.processEvent et e) := by
  rw [StreamingToolHandler.processEvent]
  rw [reading] at ho ⊢
  cases hdata : e.data with
  | none => exact follows_other ht rfl
  | some parsed =>
    simp only [hdata] at ho ⊢
    by_cases hcreated : getEventType e.eventName parsed = et.created
    · rw [if_pos (.inl hcreated), if_pos hcreated]
      exact follows_other ht rfl
    rw [if_neg hcreated]
    by_cases hcompleted : getEventType e.eventName parsed = et.completed
    · rw [if_pos (.inr hcompleted), if_pos hcompleted]
      exact follows_other ht rfl
    rw [if_neg hcompleted]
    rw [if_neg (not_or.mpr ⟨hcreated, hcompleted⟩)] at ho ⊢
    split at ho
    · next hadded =>
      rw [if_pos hadded, if_pos hadded]
      exact handleOutputItemAdded_follows et ht ho
    next hadded =>
    rw [if_neg hadded, if_neg hadded]
    split at ho
    · next harguments =>
      rw [if_pos harguments, if_pos harguments]
      exact handleArgumentsDelta_follows ht ho
    next harguments =>
    rw [if_neg harguments, if_neg harguments]
    split at ho
    · next hdone =>
      rw [if_pos hdone, if_pos hdone]
      exact handleArgumentsDone_follows ht ho
    next hdone =>
    rw [if_neg hdone, if_neg hdone]
    split at ho
    · next hdelta =>
      rw [if_pos hdelta, if_pos hdelta]
      split at ho
      · exact absurd ho not_ordered_malformed
      · next hcall =>
        rw [if_neg hcall]
        exact processOutputDelta_follows ht hcall
    next hdelta =>
    rw [if_neg hdelta, if_neg hdelta]
    split at ho
    · next hitem =>
      rw [if_pos hitem, if_pos hitem]
      rw [readingDone] at ho ⊢
      cases hindex : extractOutputIndex parsed with
      | none =>
        rw [hindex] at ho
        exact absurd ho not_ordered_malformed
      | some i =>
        exact follows_done ht rfl (congrArg _ (pendingCalls_ensureEventIndex h parsed))
    · next hitem =>
      rw [if_neg hitem, if_neg hitem]
      exact follows_other ht rfl

end Step

/-! ### The stream -/

/-- **The run**: the stream is left where the events say, with what has been asked for until then. -/
theorem run_follows {et : EventTypes} {us : List Upstream} {s : Loop} {events : List Event}
    (ht : Tracks us s.handler) (ho : Ordered (us ++ events.map (reading et))) :
    (s.run et events).2 = (beforeTools us (events.map (reading et))).isSome ∧
    ∀ pre, beforeTools us (events.map (reading et)) = some pre →
      Tracks pre (s.run et events).1.handler := by
  induction events generalizing us s with
  | nil => exact ⟨rfl, fun _ h => nomatch h⟩
  | cons e events ih =>
    rw [map_cons, ← singleton_append, ← append_assoc] at ho
    obtain ⟨htracks, hleaves⟩ : Follows us (reading et e) (s.handler.processEvent et e) :=
      processEvent_follows ht ho.of_append
    rw [map_cons, beforeTools, Loop.run]
    cases hevent : s.handler.processEvent et e with
    | mk h' action =>
      rw [hevent] at htracks hleaves
      cases action with
      | executeTools =>
        have hl := hleaves.mp rfl
        simp only [if_pos hl, Option.isSome_some, Option.some.injEq, forall_eq', true_and]
        rw [Tracks, askedFor_concat_of_done hl.1] at htracks
        exact htracks
      | forward =>
        have hl : ¬ Leaves us (reading et e) := fun hl => nomatch hleaves.mpr hl
        simp only [if_neg hl]
        refine ih ?_ ho
        rw [Tracks, pendingCalls_afterForward]
        exact htracks
      | buffer =>
        have hl : ¬ Leaves us (reading et e) := fun hl => nomatch hleaves.mpr hl
        simp only [if_neg hl]
        exact ih htracks ho

theorem prefix_of_beforeTools {us rest pre : List Upstream} (h : beforeTools us rest = some pre) :
    pre <+: us ++ rest ∧ ∀ call ∈ callsAdded pre, call.2.2 ≠ [] := by
  induction rest generalizing us with
  | nil => cases h
  | cons u rest ih =>
    rw [beforeTools] at h
    split at h
    · next hleaves =>
      obtain rfl := Option.some.inj h
      exact ⟨prefix_append us _, hleaves.2.2⟩
    · rw [← singleton_append, ← append_assoc]
      exact ih h

/-! ### The tools that are called -/

/-- The argument string of a call: `{}` for an empty buffer. -/
def argsStr (buffer : Str) : Str := if buffer = [] then "{}".toList else buffer

theorem argsStr_eq_iff {arrived all : Str} : argsStr arrived = all ↔ Ready arrived all := by
  rw [argsStr, Ready]
  split
  · next h => exact ⟨fun hall => .inr ⟨h, hall.symm⟩, fun hall => by
      rcases hall with ⟨hne, -⟩ | ⟨-, hall⟩
      · exact absurd h hne
      · exact hall.symm⟩
  · next h => exact ⟨fun hall => .inl ⟨h, hall⟩, fun hall => by
      rcases hall with ⟨-, hall⟩ | ⟨hnil, -⟩
      · exact hall
      · exact absurd hnil h⟩

/-- What is called for what has been asked for. -/
theorem asked_execute {pre : List Upstream} {h : StreamingToolHandler} (ht : Tracks pre h)
    (hnames : ∀ call ∈ callsAdded pre, call.2.2 ≠ []) :
    (executeStreamingToolCalls h.pendingCalls).map ToolCall.asked = (callsAdded pre).map fun call =>
        ⟨call.1, call.2.1, call.2.2, argsStr (argumentsOf call.1 pre)⟩ := by
  have hfilter : h.pendingCalls.filter (fun call => decide (call.name ≠ [])) = h.pendingCalls := by
    refine List.filter_eq_self.mpr fun c hc => decide_eq_true ?_
    have hmem := mem_map_of_mem (f := FunctionCallInProgress.asked) hc
    rw [ht, askedFor, mem_map] at hmem
    obtain ⟨call, hcall, heq⟩ := hmem
    have hname : call.2.2 = c.name := congrArg Asked.name heq
    exact hname ▸ hnames call hcall
  have hcalls := congrArg (List.map fun a : Asked => { a with arguments := argsStr a.arguments }) ht
  rw [map_map, askedFor, map_map] at hcalls
  rw [executeStreamingToolCalls, hfilter, map_map]
  exact hcalls

/-- The calls of an iteration: those that have been asked for when the stream is left. -/
theorem iteration_eq_some_iff {et : EventTypes} {limits : Limits} {s : Loop} {events : List Event}
    {calls : List ToolCall} : iteration et limits s events = some calls ↔
      (s.run et events).2 = true ∧
      limits.totalCalls + (s.run et events).1.handler.pendingCalls.length ≤ limits.effectiveLimit ∧
      executeStreamingToolCalls (s.run et events).1.handler.pendingCalls = calls := by
  rw [iteration]
  cases hrun : s.run et events with
  | mk s' detected =>
    cases detected with
    | false => exact iff_of_false (fun h => nomatch h) fun h => nomatch h.1
    | true =>
      simp only [reduceCtorEq, if_false, true_and]
      split
      · next hlimit => exact iff_of_false (fun h => nomatch h) fun h => by omega
      · next hlimit =>
        rw [Option.some.injEq]
        exact ⟨fun h => ⟨Nat.not_lt.mp hlimit, h⟩, fun h => h.2⟩

theorem new_tracks (nextOutputIndex : Nat) (preservedResponseId : Option Str)
    (mcpListToolsSent : Bool) :
    Tracks [] (Loop.new nextOutputIndex preservedResponseId mcpListToolsSent).handler := rfl

/-- **Tools as asked for**: over every well-formed response, the calls of tools are those that the model
asked for exactly if they have all been added, with all their arguments, when the stream is left. -/
theorem tools_iff (et : EventTypes) (nextOutputIndex : Nat) (preservedResponseId : Option Str)
    (mcpListToolsSent : Bool) (events : List Event)
    (hwf : WellFormed (events.map (reading et))) :
    MakesAll et (Loop.new nextOutputIndex preservedResponseId mcpListToolsSent) events ↔
      Complete (events.map (reading et)) := by
  have ho : Ordered ([] ++ events.map (reading et)) := hwf.ordered
  obtain ⟨hleft, htracks⟩ :=
    run_follows (new_tracks nextOutputIndex preservedResponseId mcpListToolsSent) ho
  constructor
  · intro hmakes pre hpre
    have ht := htracks pre hpre
    obtain ⟨hstart, hnames⟩ := prefix_of_beforeTools hpre
    let s := Loop.new nextOutputIndex preservedResponseId mcpListToolsSent
    -- limits that allow all the calls
    have hperm := hmakes ⟨none, (s.run et events).1.handler.pendingCalls.length, 0⟩ _
      (iteration_eq_some_iff.mpr ⟨by rw [hleft, hpre]; rfl, Nat.le_of_eq (Nat.zero_add _), rfl⟩)
    rw [asked_execute ht hnames, askedFor] at hperm
    have hcalls : callsAdded pre = callsAdded (events.map (reading et)) := by
      refine (hstart.filterMap added).eq_of_length ?_
      have hlen := hperm.length_eq
      rwa [length_map, length_map] at hlen
    refine ⟨hcalls, fun call hcall => argsStr_eq_iff.mp ?_⟩
    rw [hcalls] at hperm
    have hmem := hperm.mem_iff.mp (mem_map_of_mem hcall)
    obtain ⟨call', hcall', heq⟩ := List.mem_map.mp hmem
    obtain rfl : call' = call :=
      inj_on_of_nodup_map ho.nodup hcall' hcall (congrArg Asked.index heq)
    exact (congrArg Asked.arguments heq).symm
  · intro hcomplete limits calls hcalls
    obtain ⟨hdetected, -, rfl⟩ := iteration_eq_some_iff.mp hcalls
    rw [hleft] at hdetected
    obtain ⟨pre, hpre⟩ := Option.isSome_iff_exists.mp hdetected
    obtain ⟨hsame, hready⟩ := hcomplete pre hpre
    rw [asked_execute (htracks pre hpre) (prefix_of_beforeTools hpre).2, askedFor, hsame]
    refine List.Perm.of_eq (map_congr_left fun call hcall => ?_)
    rw [argsStr_eq_iff.mpr (hready call hcall)]

/-! ### Responses -/

/-- The names of the events. -/
def openAi : EventTypes where
  created := "response.created".toList
  inProgress := "response.in_progress".toList
  completed := "response.completed".toList
  itemAdded := "response.output_item.added".toList
  itemDelta := "response.output_item.delta".toList
  itemDone := "response.output_item.done".toList
  argumentsDelta := "response.function_call_arguments.delta".toList
  argumentsDone := "response.function_call_arguments.done".toList
  isFunctionCallType itemType := itemType = "function_call".toList

/-- An event about an item. -/
def itemEvent (eventType : Str) (i : Nat) (more : List (Str × Value)) : Event :=
  { eventName := some eventType, data := some (.object (("output_index".toList, .integer i) :: more)) }

/-- A function call in four events. -/
def callEvents (i : Nat) (name args : Str) : List Event :=
  [itemEvent openAi.itemAdded i [("item".toList, .object [
      ("type".toList, .string "function_call".toList), ("call_id".toList, .string name),
      ("name".toList, .string name)])],
    itemEvent openAi.argumentsDelta i [("delta".toList, .string args)],
    itemEvent openAi.argumentsDone i [], itemEvent openAi.itemDone i []]

/-- Two calls, one after the other. -/
def twoCalls : List Event := callEvents 0 ['f'] ['1'] ++ callEvents 1 ['g'] ['2']

/-- The second call is never made: the stream is left at the end of the first. -/
theorem second_call_lost :
    WellFormed (twoCalls.map (reading openAi)) ∧ ¬ MakesAll openAi (Loop.new 0 none false) twoCalls := by
  have hreading : twoCalls.map (reading openAi) =
      [callAdded 0 ['f'] ['f'], arguments 0 ['1'], argumentsDone 0, itemDone 0,
        callAdded 1 ['g'] ['g'], arguments 1 ['2'], argumentsDone 1, itemDone 1] := by decide +kernel
  rw [hreading]
  refine ⟨⟨by decide, ?_⟩, fun hmakes => ?_⟩
  · intro i callId name hmem
    simp only [mem_cons, callAdded.injEq, reduceCtorEq, not_mem_nil, or_false,
      false_or] at hmem
    rcases hmem with ⟨rfl, rfl, rfl⟩ | ⟨rfl, rfl, rfl⟩
    · exact ⟨[['1']], rfl⟩
    · exact ⟨[['2']], rfl⟩
  · have hcalls : (iteration openAi ⟨none, 10, 0⟩ (Loop.new 0 none false) twoCalls).map
        (List.map ToolCall.asked) = some [⟨0, ['f'], ['f'], ['1']⟩] := by decide +kernel
    obtain ⟨calls, hsome, hcalls⟩ := Option.map_eq_some_iff.mp hcalls
    have hlen := (hmakes _ _ hsome).length_eq
    rw [hcalls, hreading] at hlen
    cases hlen

/-- Two calls whose events alternate: both have their arguments when the first ends. -/
def alternatingCalls : List Event :=
  (List.zipWith (fun e e' => [e, e']) (callEvents 0 ['f'] ['1']) (callEvents 1 ['g'] ['2'])).flatten

/-- Their tools are called as asked for. -/
theorem alternating_calls_made : MakesAll openAi (Loop.new 0 none false) alternatingCalls := by
  have hreading : alternatingCalls.map (reading openAi) =
      [callAdded 0 ['f'] ['f'], callAdded 1 ['g'] ['g'], arguments 0 ['1'], arguments 1 ['2'],
        argumentsDone 0, argumentsDone 1, itemDone 0, itemDone 1] := by decide +kernel
  refine (tools_iff openAi 0 none false _ ?_).mpr ?_
  · rw [hreading]
    refine ⟨by decide, fun i callId name hmem => ?_⟩
    simp only [mem_cons, callAdded.injEq, reduceCtorEq, not_mem_nil, or_false] at hmem
    rcases hmem with ⟨rfl, rfl, rfl⟩ | ⟨rfl, rfl, rfl⟩
    · exact ⟨[['1']], rfl⟩
    · exact ⟨[['2']], rfl⟩
  · rw [hreading]
    intro pre hpre
    have hleft : beforeTools [] [callAdded 0 ['f'] ['f'], callAdded 1 ['g'] ['g'], arguments 0 ['1'],
        arguments 1 ['2'], argumentsDone 0, argumentsDone 1, itemDone 0, itemDone 1] =
        some [callAdded 0 ['f'] ['f'], callAdded 1 ['g'] ['g'], arguments 0 ['1'], arguments 1 ['2']] := by
      decide
    rw [hleft] at hpre
    cases hpre
    refine ⟨rfl, fun call hcall => .inl ?_⟩
    revert call
    decide

end QwenStack.Responses
