import QwenStack.Grpc.Continuation

/-!
# Responses over chat — the history of an item

What the client has been told of one item of the output is the events at its index, its history.  An item
is told consistently if it is done once after it was added, as the item that was added, and with what its
deltas say (`Told`).

Events of one item do not change the history of another, so a stream is consistent if each history is
(`consistent_of_histories`).  A client is settled when they all are, and the indices that are not taken
have none (`Settled`); an item that is told in one go keeps it so (`Settled.tell`).
-/

namespace QwenStack.Grpc

open List

/-! ### Items and their events -/

def Item.id : Item → Str
  | .mcpListTools id .. => id
  | .mcpCall id .. => id
  | .functionCall _ id .. => id
  | .message id _ => id
  | .reasoning id _ => id

/-- The call id of a call of a tool. -/
def Item.toolCallId : Item → Option Str
  | .mcpCall _ callId .. => callId
  | .functionCall _ _ callId .. => some callId
  | _ => none

/-- The name of a call of a tool. -/
def Item.toolName : Item → Option Str
  | .mcpCall _ _ name .. => some name
  | .functionCall _ _ _ name .. => some name
  | _ => none

namespace EventBody

/-- The item that an event is about. -/
def index : EventBody → Option Nat
  | .created .. => none
  | .inProgress _ => none
  | .contentPartAdded i .. => some i
  | .textDelta i .. => some i
  | .textDone i .. => some i
  | .contentPartDone i .. => some i
  | .completed _ => none
  | .mcpListToolsInProgress i => some i
  | .mcpListToolsCompleted i _ => some i
  | .mcpCallInProgress i _ => some i
  | .mcpCallArgumentsDelta i .. => some i
  | .mcpCallArgumentsDone i .. => some i
  | .mcpCallCompleted i _ => some i
  | .mcpCallFailed i .. => some i
  | .functionCallArgumentsDelta i .. => some i
  | .functionCallArgumentsDone i .. => some i
  | .outputItemAdded i _ => some i
  | .outputItemDone i _ => some i
  | .error .. => none

def itemAdded : EventBody → Option Item
  | .outputItemAdded _ item => some item
  | _ => none

def itemDone : EventBody → Option Item
  | .outputItemDone _ item => some item
  | _ => none

def textDelta? : EventBody → Option Str
  | .textDelta _ _ _ delta => some delta
  | _ => none

def textDone? : EventBody → Option Str
  | .textDone _ _ _ text => some text
  | _ => none

def argumentsDelta? : EventBody → Option Str
  | .mcpCallArgumentsDelta _ _ delta => some delta
  | .functionCallArgumentsDelta _ _ delta => some delta
  | _ => none

def argumentsDone? : EventBody → Option Str
  | .mcpCallArgumentsDone _ _ arguments => some arguments
  | .functionCallArgumentsDone _ _ arguments => some arguments
  | _ => none

end EventBody

/-- The events of an item. -/
def history (i : Nat) (bodies : List EventBody) : List EventBody :=
  bodies.filter fun body => body.index = some i

theorem history_append (i : Nat) (bodies bodies' : List EventBody) :
    history i (bodies ++ bodies') = history i bodies ++ history i bodies' :=
  filter_append ..

theorem history_eq_self {i : Nat} {bodies : List EventBody}
    (h : ∀ body ∈ bodies, body.index = some i) : history i bodies = bodies :=
  List.filter_eq_self.mpr fun body hbody => decide_eq_true (h body hbody)

theorem history_eq_nil {i : Nat} {bodies : List EventBody}
    (h : ∀ body ∈ bodies, body.index ≠ some i) : history i bodies = [] :=
  List.filter_eq_nil_iff.mpr fun body hbody => by simp [h body hbody]

/-! ### Consistency -/

/-- What is told of an item after it was added: it is done once, as itself; the text of a message and the
arguments of a call are what their deltas say, and a call keeps its name. -/
def Told (item : Item) (later : List EventBody) : Prop :=
  ∃ done, later.filterMap EventBody.itemDone = [done] ∧ done.id = item.id ∧
    done.toolCallId = item.toolCallId ∧
    match item with
    | .message .. =>
        later.filterMap EventBody.textDone? = [(later.filterMap EventBody.textDelta?).flatten] ∧
          done = .message item.id (some (later.filterMap EventBody.textDelta?).flatten)
    | .mcpCall .. | .functionCall .. =>
        later.filterMap EventBody.argumentsDone? =
            [(later.filterMap EventBody.argumentsDelta?).flatten] ∧ done.toolName = item.toolName
    | .mcpListTools .. | .reasoning .. => True

/-- Every item that is added is told consistently. -/
def Consistent (bodies : List EventBody) : Prop :=
  ∀ past i item later, bodies = past ++ .outputItemAdded i item :: later → Told item (history i later)

theorem consistent_nil : Consistent [] := by
  intro past i item later heq
  cases past <;> cases heq

/-- An item that is added first, and told. -/
theorem consistent_cons {i : Nat} {item : Item} {later : List EventBody}
    (hadded : ∀ body ∈ later, body.itemAdded = none) (h : Told item (history i later)) :
    Consistent (.outputItemAdded i item :: later) := by
  intro past i' item' later' heq
  cases past with
  | nil =>
    obtain ⟨hitem, rfl⟩ := List.cons.inj heq
    cases hitem
    exact h
  | cons body past =>
    have hmem : EventBody.outputItemAdded i' item' ∈ later := by
      rw [(List.cons.inj heq).2]
      exact mem_append_right _ mem_cons_self
    exact nomatch hadded _ hmem

/-- **A stream is consistent if each of its items is.** -/
theorem consistent_of_histories {bodies : List EventBody} (h : ∀ i, Consistent (history i bodies)) :
    Consistent bodies := by
  rintro past i item later rfl
  have hadded : (EventBody.outputItemAdded i item).index = some i := rfl
  have hhistory : history i (past ++ .outputItemAdded i item :: later) =
      history i past ++ .outputItemAdded i item :: history i later := by
    rw [history_append]
    refine congrArg (history i past ++ ·) ?_
    exact filter_cons_of_pos (p := fun body : EventBody => body.index = some i) (decide_eq_true hadded)
  have htold := h i _ _ _ _ hhistory
  rwa [show history i (history i later) = history i later from
    history_eq_self fun body hbody => of_decide_eq_true (List.mem_filter.mp hbody).2] at htold

/-! ### Clients -/

/-- What an event that is sent says. -/
def Sent.body : Sent → Option EventBody
  | .event e => some e.body
  | _ => none

namespace Client

/-- The events that the client has been sent. -/
def told (c : Client) : List EventBody := c.sent.filterMap Sent.body

theorem told_emit (c : Client) (builder : Emitter → Event × Emitter) :
    (c.emit builder).told = c.told ++ [(builder c.emitter).1.body] := by
  rw [told, emit, filterMap_append]
  rfl

theorem told_update (c : Client) (f : Emitter → Emitter) : (c.update f).told = c.told := rfl

/-- Each history is consistent but that of the item that is being told, if there is one; the indices that
are not taken yet have none. -/
structure Settled (c : Client) (open_ : Option Nat) : Prop where
  consistent : ∀ i, open_ ≠ some i → Consistent (history i c.told)
  taken : ∀ i, open_ = some i → i < c.emitter.nextOutputIndex
  fresh : ∀ i, c.emitter.nextOutputIndex ≤ i → history i c.told = []

variable {c c' : Client} {open_ : Option Nat}

theorem Settled.told_consistent (h : c.Settled none) : Consistent c.told :=
  consistent_of_histories fun i => h.consistent i (by simp)

/-- Events of other items do not change a history. -/
theorem history_of_told {i n : Nat} {bodies : List EventBody} (htold : c'.told = c.told ++ bodies)
    (hbodies : ∀ body ∈ bodies, body.index = some n ∨ body.index = none) (hi : i ≠ n) :
    history i c'.told = history i c.told := by
  have hnone : history i bodies = [] := by
    refine history_eq_nil fun body hbody => ?_
    rcases hbodies body hbody with h | h
    · simp [h, Ne.symm hi]
    · simp [h]
  rw [htold, history_append, hnone, append_nil]

/-- Events that are about no item. -/
theorem Settled.aside (h : c.Settled open_) {bodies : List EventBody}
    (htold : c'.told = c.told ++ bodies)
    (hnext : c'.emitter.nextOutputIndex = c.emitter.nextOutputIndex)
    (hbodies : ∀ body ∈ bodies, body.index = none) : c'.Settled open_ := by
  have hhistory : ∀ i, history i c'.told = history i c.told := fun i =>
    history_of_told htold (fun body hbody => .inr (hbodies body hbody)) (Nat.ne_add_one i)
  refine ⟨fun i hi => ?_, fun i hi => hnext ▸ h.taken i hi, fun i hi => ?_⟩
  · rw [hhistory]
    exact h.consistent i hi
  · rw [hhistory]
    exact h.fresh i (hnext ▸ hi)

/-- **An item that is told in one go**, at the next index. -/
theorem Settled.tell (h : c.Settled open_) (item : Item) (later : List EventBody)
    (htold : c'.told = c.told ++ .outputItemAdded c.emitter.nextOutputIndex item :: later)
    (hnext : c'.emitter.nextOutputIndex = c.emitter.nextOutputIndex + 1)
    (hlater : ∀ body ∈ later, body.index = some c.emitter.nextOutputIndex ∧ body.itemAdded = none)
    (hitem : Told item later) :
    c'.Settled open_ ∧ ∀ i, i < c.emitter.nextOutputIndex → history i c'.told = history i c.told := by
  set n := c.emitter.nextOutputIndex with hn
  have hindex : ∀ body ∈ EventBody.outputItemAdded n item :: later, body.index = some n := by
    intro body hbody
    rcases List.mem_cons.mp hbody with rfl | hbody
    · rfl
    · exact (hlater body hbody).1
  have hown : history n c'.told = .outputItemAdded n item :: later := by
    rw [htold, history_append, h.fresh n (Nat.le_refl _), nil_append]
    exact history_eq_self hindex
  have hself : history n later = later := history_eq_self fun body hbody => (hlater body hbody).1
  have hother : ∀ i, i ≠ n → history i c'.told = history i c.told := fun i hi =>
    history_of_told htold (fun body hbody => .inl (hindex body hbody)) hi
  refine ⟨⟨fun i hi => ?_, fun i hi => ?_, fun i hi => ?_⟩, fun i hi => hother i hi.ne⟩
  · by_cases heq : i = n
    · rw [heq, hown]
      exact consistent_cons (fun body hbody => (hlater body hbody).2) (hself.symm ▸ hitem)
    · rw [hother i heq]
      exact h.consistent i hi
  · rw [hnext]
    exact Nat.lt_succ_of_lt (h.taken i hi)
  · rw [hother i (by omega)]
    exact h.fresh i (by omega)

/-- The reasoning is told in one go. -/
theorem Settled.emitReasoningItem (h : c.Settled open_) (uuid : Nat → Str) (content : Option Str) :
    (c.emitReasoningItem uuid content).Settled open_ ∧ ∀ i, i < c.emitter.nextOutputIndex →
        history i (c.emitReasoningItem uuid content).told = history i c.told := by
  set item : Item := .reasoning (OutputItemType.reasoning.idPrefix ++ "_".toList ++
    uuid c.emitter.generated) content with hitem
  refine h.tell item [.outputItemDone c.emitter.nextOutputIndex item] ?_ rfl ?_ ?_
  · rw [Client.emitReasoningItem, told_update, told_emit, told_emit, append_assoc]
    rfl
  · intro body hbody
    obtain rfl := List.mem_singleton.mp hbody
    exact ⟨rfl, rfl⟩
  · exact ⟨_, rfl, rfl, rfl, trivial⟩

/-! ### A message -/

/-- A message is being told: it was added, its part was, and these are its deltas. -/
structure Opened (c : Client) (i : Nat) (itemId : Str) (deltas : List Str) : Prop where
  settled : c.Settled (some i)
  own : history i c.told =
    .outputItemAdded i (.message itemId none) :: .contentPartAdded i itemId 0 ::
      deltas.map fun delta => .textDelta i itemId 0 delta

variable {i : Nat} {itemId : Str} {deltas : List Str}

/-- The first text of a message. -/
theorem Settled.openMessage (h : c.Settled none) (text : Str)
    (htold : c'.told = c.told ++ [.outputItemAdded c.emitter.nextOutputIndex (.message itemId none),
      .contentPartAdded c.emitter.nextOutputIndex itemId 0,
      .textDelta c.emitter.nextOutputIndex itemId 0 text])
    (hnext : c'.emitter.nextOutputIndex = c.emitter.nextOutputIndex + 1) :
    c'.Opened c.emitter.nextOutputIndex itemId [text] := by
  set n := c.emitter.nextOutputIndex with hn
  have hindex : ∀ body ∈ [EventBody.outputItemAdded n (.message itemId none),
      .contentPartAdded n itemId 0, .textDelta n itemId 0 text], body.index = some n := by
    simp [EventBody.index]
  have hother : ∀ i, i ≠ n → history i c'.told = history i c.told := fun i hi =>
    history_of_told htold (fun body hbody => .inl (hindex body hbody)) hi
  refine ⟨⟨fun i hi => ?_, fun i hi => ?_, fun i hi => ?_⟩, ?_⟩
  · rw [hother i fun heq => hi (heq ▸ rfl)]
    exact h.consistent i (by simp)
  · cases hi
    omega
  · rw [hother i (by omega)]
    exact h.fresh i (by omega)
  · rw [htold, history_append, h.fresh n (Nat.le_refl _), history_eq_self hindex]
    rfl

/-- More events of the open item. -/
theorem Settled.more {open_ : Nat} (h : c.Settled (some open_)) {bodies : List EventBody}
    (htold : c'.told = c.told ++ bodies)
    (hnext : c'.emitter.nextOutputIndex = c.emitter.nextOutputIndex)
    (hindex : ∀ body ∈ bodies, body.index = some open_) :
    c'.Settled (some open_) ∧ history open_ c'.told = history open_ c.told ++ bodies := by
  have hother : ∀ i, i ≠ open_ → history i c'.told = history i c.told := fun i hi =>
    history_of_told htold (fun body hbody => .inl (hindex body hbody)) hi
  refine ⟨⟨fun i hi => ?_, fun i hi => hnext ▸ h.taken i hi, fun i hi => ?_⟩, ?_⟩
  · rw [hother i fun heq => hi (heq ▸ rfl)]
    exact h.consistent i hi
  · have := h.taken open_ rfl
    rw [hother i (by omega)]
    exact h.fresh i (hnext ▸ hi)
  · rw [htold, history_append, history_eq_self hindex]

theorem Opened.delta (h : c.Opened i itemId deltas) (text : Str)
    (htold : c'.told = c.told ++ [.textDelta i itemId 0 text])
    (hnext : c'.emitter.nextOutputIndex = c.emitter.nextOutputIndex) :
    c'.Opened i itemId (deltas ++ [text]) := by
  obtain ⟨hsettled, hown⟩ := h.settled.more htold hnext (by simp [EventBody.index])
  refine ⟨hsettled, ?_⟩
  rw [hown, h.own]
  simp

/-- Another item is told meanwhile. -/
theorem Opened.emitReasoningItem (h : c.Opened i itemId deltas) (uuid : Nat → Str)
    (content : Option Str) : (c.emitReasoningItem uuid content).Opened i itemId deltas := by
  obtain ⟨hsettled, hhistory⟩ := h.settled.emitReasoningItem uuid content
  exact ⟨hsettled, (hhistory i (h.settled.taken i rfl)).trans h.own⟩

theorem told_message (i : Nat) (itemId : Str) (deltas : List Str) :
    Told (.message itemId none) (.contentPartAdded i itemId 0 ::
      (deltas.map fun delta => .textDelta i itemId 0 delta) ++
        [.textDone i itemId 0 deltas.flatten, .contentPartDone i itemId 0 deltas.flatten,
          .outputItemDone i (.message itemId (some deltas.flatten))]) := by
  set told := deltas.map fun delta => EventBody.textDelta i itemId 0 delta with htold
  have hdeltas : told.filterMap EventBody.textDelta? = deltas := by
    rw [htold, filterMap_map]
    exact filterMap_some
  have hdone : told.filterMap EventBody.itemDone = [] := by
    simp [htold, filterMap_eq_nil_iff, EventBody.itemDone]
  have htext : told.filterMap EventBody.textDone? = [] := by
    simp [htold, filterMap_eq_nil_iff, EventBody.textDone?]
  refine ⟨.message itemId (some deltas.flatten), ?_, rfl, rfl, ?_, ?_⟩
  · simp [filterMap_cons, hdone, EventBody.itemDone]
  · simp [filterMap_cons, htext, hdeltas, EventBody.textDone?, EventBody.textDelta?]
  · simp [filterMap_cons, hdeltas, EventBody.textDelta?, Item.id]

/-- **The end of a message**, with the text of its deltas. -/
theorem Opened.close (h : c.Opened i itemId deltas)
    (htold : c'.told = c.told ++ [.textDone i itemId 0 deltas.flatten,
      .contentPartDone i itemId 0 deltas.flatten,
      .outputItemDone i (.message itemId (some deltas.flatten))])
    (hnext : c'.emitter.nextOutputIndex = c.emitter.nextOutputIndex) : c'.Settled none := by
  obtain ⟨hsettled, hown⟩ := h.settled.more htold hnext (by simp [EventBody.index])
  have hconsistent : Consistent (history i c'.told) := by
    rw [hown, h.own, cons_append]
    have hlater : ∀ body ∈ EventBody.contentPartAdded i itemId 0 ::
        (deltas.map fun delta => EventBody.textDelta i itemId 0 delta) ++
          [.textDone i itemId 0 deltas.flatten, .contentPartDone i itemId 0 deltas.flatten,
            .outputItemDone i (.message itemId (some deltas.flatten))],
        body.itemAdded = none ∧ body.index = some i := by
      intro body hbody
      simp only [cons_append, mem_cons, mem_append, mem_map, not_mem_nil, or_false] at hbody
      rcases hbody with rfl | ⟨_, -, rfl⟩ | rfl | rfl | rfl <;> exact ⟨rfl, rfl⟩
    refine consistent_cons (fun body hbody => (hlater body hbody).1) ?_
    rw [history_eq_self fun body hbody => (hlater body hbody).2]
    exact told_message i itemId deltas
  refine ⟨fun j _ => ?_, fun j hj => (nomatch hj), hsettled.fresh⟩
  by_cases heq : j = i
  · exact heq ▸ hconsistent
  · exact hsettled.consistent j fun hj => heq (Option.some.inj hj).symm

end Client

end QwenStack.Grpc
