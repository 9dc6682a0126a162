import Mathlib.Algebra.Order.BigOperators.Group.Finset
import QwenStack.Harmony.Deltas

/-!
# Harmony — the calls of a stream

A message to `functions.X` is a call of `X`, and the deltas are to tell its name once and all of its text.
The parser opens a message, reads its text token by token, and closes it (`Behaves`); `parse_chunk` looks
only where a chunk ends.  The first chunk that ends in a call gives its name, if the call before that was
seen so had another one, and drops the text that the chunk had; the chunks after it give their text; and
the text after the last of them is dropped.

So the calls are complete exactly when each of them is on the commentary channel, the chunk in which it is
opened and the one in which it is closed are two and have none of its text, and the call that was seen
before it is of another function: `calls_iff`.
-/

namespace QwenStack.Harmony

open List

/-! ### What the parser does -/

/-- What the parser has: the finished messages, and the one that it reads. -/
structure View where
  messages : List Message := []
  current : Option Message := none

/-- What a token does. -/
inductive Move where
  | opened (channel recipient : Option Str)
  | text (text : Str)
  | held
  | closed

/-- A message is opened, gets more text, and is closed. -/
def View.apply (v : View) (m : Move) : View :=
  match v.current, m with
  | none, .opened channel recipient => { v with current := some ⟨channel, recipient, []⟩ }
  | some msg, .text text => { v with current := some { msg with text := msg.text ++ text } }
  | some msg, .closed => { messages := v.messages ++ [msg], current := none }
  | _, _ => v

/-- The text of a token in a message. -/
def View.delta (v : View) (m : Move) : Option Str :=
  match v.current, m with
  | some _, .text text => some text
  | _, _ => none

/-- The parser reads messages: it has the channel and the recipient of the one that it reads, and says the
text of each token. -/
structure Behaves {σ : Type} (p : StreamableParser σ) (view : σ → View) (move : σ → Nat → Move) :
    Prop where
  messages : ∀ s, p.messages s = (view s).messages
  channel : ∀ s, p.currentChannel s = (view s).current.bind Message.channel
  recipient : ∀ s, p.currentRecipient s = (view s).current.bind Message.recipient
  step : ∀ s token s', p.process s token = .ok s' →
    view s' = (view s).apply (move s token) ∧
      p.lastContentDelta s' = .ok ((view s).delta (move s token))

/-! ### Messages over chunks -/

/-- A message over the chunks: its text in the chunk in which it is opened, and in each later one, the last of
them first. -/
structure Spread where
  channel : Option Str
  recipient : Option Str
  first : Str := []
  later : List Str := []
  deriving DecidableEq, Repr

namespace Spread
variable (m : Spread)

def text : Str := m.first ++ m.later.reverse.flatten

/-- The text in the chunks between that in which it is opened and the last one. -/
def middle : Str := m.later.tail.reverse.flatten

def message : Message := ⟨m.channel, m.recipient, m.text⟩

/-- It is addressed to a function. -/
def isAddressed : Bool := (m.recipient.bind functionName).isSome

/-- It is so on the commentary channel. -/
def isCall : Bool := m.channel = some "commentary".toList && m.isAddressed

def name : Str := (m.recipient.bind functionName).getD []

def addText (text : Str) : Spread :=
  match m.later with
  | [] => { m with first := m.first ++ text }
  | last :: before => { m with later := (last ++ text) :: before }

/-- A chunk ends in it. -/
def endChunk : Spread := { m with later := [] :: m.later }

end Spread

/-- The messages that are closed, and the one that is open. -/
structure Layout where
  closed : List Spread := []
  current : Option Spread := none
  deriving DecidableEq, Repr

namespace Layout
variable (l : Layout)

def all : List Spread := l.closed ++ l.current.toList

def apply (m : Move) : Layout :=
  match l.current, m with
  | none, .opened channel recipient => { l with current := some { channel, recipient } }
  | some msg, .text text => { l with current := some (msg.addText text) }
  | some msg, .closed => { closed := l.closed ++ [msg], current := none }
  | _, _ => l

def endChunk : Layout := { l with current := l.current.map Spread.endChunk }

def view : View where
  messages := l.closed.map Spread.message
  current := l.current.map Spread.message

end Layout

section Laying
variable {σ : Type} (p : StreamableParser σ) (move : σ → Nat → Move)

/-- The messages after the tokens of a chunk, as far as they are accepted. -/
def layTokens (s : σ) (l : Layout) : List Nat → σ × Layout
  | [] => (s, l)
  | token :: tokens =>
      match p.process s token with
      | .ok s' => layTokens s' (l.apply (move s token)) tokens
      | .error _ => (s, l)

/-- The messages after some chunks. -/
def layChunks (s : σ) (l : Layout) : List (List Nat) → Layout
  | [] => l
  | chunk :: chunks =>
      layChunks (layTokens p move s l chunk).1 (layTokens p move s l chunk).2.endChunk chunks

end Laying

/-! ### The property -/

/-- The names that are told at an index, each with an id. -/
def namesAt (deltas : List ToolCallDelta) (index : Nat) : List Str :=
  (deltas.filter fun d => decide (d.index = index) && d.id.isSome).map fun d =>
    (d.function.bind FunctionDelta.name).getD []

/-- The arguments that are told at an index. -/
def argumentsAt (deltas : List ToolCallDelta) (index : Nat) : Str :=
  (deltas.filter fun d => decide (d.index = index)).flatMap fun d =>
    (d.function.bind FunctionDelta.arguments).getD []

/-- The messages that are addressed to functions. -/
def addressed (messages : List Spread) : List Spread := messages.filter Spread.isAddressed

/-- Each call has an index of its own, where its name is told once and all of its text. -/
def CallsComplete (messages : List Spread) (deltas : List ToolCallDelta) : Prop :=
  ∃ index : Nat → Nat,
    (∀ i < (addressed messages).length, ∀ j < (addressed messages).length, index i = index j → i = j) ∧
    ∀ i m, (addressed messages)[i]? = some m →
      namesAt deltas (index i) = [m.name] ∧ argumentsAt deltas (index i) = m.text

/-! ### The condition -/

/-- The recipient of the last call in which a chunk ended. -/
def lastSeen (messages : List Spread) : Option Str :=
  (messages.filter fun m => m.isCall && decide (m.later ≠ [])).getLast?.bind Spread.recipient

/-- Each call is on the commentary channel, a chunk ends in it, it has no text in the first and in the last of
its chunks, and the call that was seen before it is of another function. -/
def CallsApart (messages : List Spread) : Prop :=
  ∀ i m, (addressed messages)[i]? = some m →
    m.channel = some "commentary".toList ∧ m.first = [] ∧ m.later.head? = some [] ∧
      lastSeen ((addressed messages).take i) ≠ m.recipient

/-! ### More text, and ends of chunks -/

namespace Spread
variable (m : Spread) (t : Str)

theorem text_addText : (m.addText t).text = m.text ++ t := by
  rw [addText, text, text]
  cases m.later with
  | nil => simp only [reverse_nil, flatten_nil, append_nil]
  | cons last before =>
    simp only [reverse_cons, flatten_append, flatten_singleton, append_assoc]

theorem text_endChunk : m.endChunk.text = m.text := by
  rw [endChunk, text, text, reverse_cons, flatten_append, flatten_singleton, append_nil]

theorem middle_addText : (m.addText t).middle = m.middle := by
  rw [addText, middle, middle]
  cases m.later <;> rfl

theorem middle_endChunk : m.endChunk.middle = m.middle ++ m.later.headD [] := by
  rw [endChunk, middle, middle, tail_cons]
  cases m.later with
  | nil => rfl
  | cons last before => rw [reverse_cons, flatten_append, flatten_singleton]; rfl

/-- The text is that of the first chunk, of those between, and of the last one. -/
theorem text_eq : m.text = m.first ++ m.middle ++ m.later.headD [] := by
  rw [text, middle]
  cases m.later with
  | nil => rw [append_assoc]; rfl
  | cons last before =>
    rw [reverse_cons, flatten_append, flatten_singleton, ← append_assoc]
    rfl

theorem later_addText : (m.addText t).later = [] ↔ m.later = [] := by
  rw [addText]
  cases hlater : m.later with
  | nil => exact iff_of_true rfl rfl
  | cons last before => exact iff_of_false (cons_ne_nil _ _) (cons_ne_nil _ _)

theorem headD_addText (h : m.later ≠ []) : (m.addText t).later.headD [] = m.later.headD [] ++ t := by
  rw [addText]
  cases hlater : m.later with
  | nil => exact absurd hlater h
  | cons last before => rfl

@[simp] theorem channel_addText : (m.addText t).channel = m.channel := by
  rw [addText]
  split <;> rfl

@[simp] theorem recipient_addText : (m.addText t).recipient = m.recipient := by
  rw [addText]
  split <;> rfl

@[simp] theorem isCall_addText : (m.addText t).isCall = m.isCall := by
  rw [isCall, isAddressed, channel_addText, recipient_addText, isCall, isAddressed]

@[simp] theorem isCall_endChunk : m.endChunk.isCall = m.isCall := rfl

theorem name_addText : (m.addText t).name = m.name := by
  rw [name, recipient_addText, name]

theorem message_addText : (m.addText t).message = { m.message with text := m.message.text ++ t } := by
  rw [message, channel_addText, recipient_addText, text_addText, message]

theorem message_endChunk : m.endChunk.message = m.message := by
  rw [message, text_endChunk]
  rfl

end Spread

namespace Layout
variable (l : Layout)

theorem view_apply (m : Move) : (l.apply m).view = l.view.apply m := by
  obtain ⟨closed, current⟩ := l
  cases current with
  | none => cases m <;> rfl
  | some msg =>
    cases m with
    | text t =>
      exact congrArg (fun msg => View.mk (closed.map Spread.message) (some msg)) (msg.message_addText t)
    | closed => exact congrArg (View.mk · none) map_append
    | opened channel recipient => rfl
    | held => rfl

theorem all_some (closed : List Spread) (msg : Spread) :
    (Layout.mk closed (some msg)).all = closed ++ [msg] := rfl

theorem all_none (closed : List Spread) : (Layout.mk closed none).all = closed :=
  append_nil closed

/-- **The moves**: the messages are the same, or one is opened, or the open one gets more text. -/
theorem apply_cases (m : Move) :
    ((l.apply m).all = l.all ∧ ((l.apply m).current = l.current ∨ (l.apply m).current = none) ∧
        l.view.delta m = none) ∨
      (∃ channel recipient, (l.apply m).all = l.all ++ [(⟨channel, recipient, [], []⟩ : Spread)] ∧
        (l.apply m).current = some ⟨channel, recipient, [], []⟩ ∧ l.view.delta m = none) ∨
      ∃ msg t, l.current = some msg ∧ m = .text t ∧
        l.apply m = { l with current := some (msg.addText t) } := by
  obtain ⟨closed, current⟩ := l
  cases current with
  | none =>
    cases m with
    | opened channel recipient =>
      rw [all_none]
      exact .inr (.inl ⟨channel, recipient, rfl, rfl, rfl⟩)
    | text t => exact .inl ⟨rfl, .inl rfl, rfl⟩
    | held => exact .inl ⟨rfl, .inl rfl, rfl⟩
    | closed => exact .inl ⟨rfl, .inl rfl, rfl⟩
  | some msg =>
    cases m with
    | opened channel recipient => exact .inl ⟨rfl, .inl rfl, rfl⟩
    | text t => exact .inr (.inr ⟨msg, t, rfl, rfl, rfl⟩)
    | held => exact .inl ⟨rfl, .inl rfl, rfl⟩
    | closed => exact .inl ⟨all_none _, .inr rfl, rfl⟩

theorem view_endChunk : l.endChunk.view = l.view := by
  rw [endChunk, view, view, Option.map_map]
  congr 2
  funext m
  exact m.message_endChunk

end Layout

/-! ### What is told at an index -/

section Indices
variable (deltas : List ToolCallDelta)

theorem namesAt_concat (d : ToolCallDelta) (i : Nat) : namesAt (deltas ++ [d]) i = namesAt deltas i ++
      if d.index = i ∧ d.id.isSome = true then [(d.function.bind FunctionDelta.name).getD []]
      else [] := by
  simp only [namesAt, filter_append, map_append, filter_cons, filter_nil,
    Bool.and_eq_true, decide_eq_true_eq]
  split <;> rfl

theorem argumentsAt_concat (d : ToolCallDelta) (i : Nat) :
    argumentsAt (deltas ++ [d]) i = argumentsAt deltas i ++
      if d.index = i then (d.function.bind FunctionDelta.arguments).getD [] else [] := by
  simp only [argumentsAt, filter_append, flatMap_append, filter_cons, filter_nil, decide_eq_true_eq]
  split
  · rw [flatMap_singleton]
  · rfl

/-- The start of a call tells its name. -/
theorem at_nameDelta (i : Nat) (callId toolName : Str) :
    namesAt (deltas ++ [nameDelta i callId toolName]) i = namesAt deltas i ++ [toolName] ∧
      argumentsAt (deltas ++ [nameDelta i callId toolName]) i = argumentsAt deltas i := by
  have hindex : (nameDelta i callId toolName).index = i := rfl
  rw [namesAt_concat, argumentsAt_concat, if_pos ⟨hindex, rfl⟩, if_pos hindex]
  exact ⟨rfl, append_nil _⟩

/-- More arguments tell no name. -/
theorem at_argumentsDelta (i : Nat) (arguments : Str) :
    namesAt (deltas ++ [argumentsDelta i arguments]) i = namesAt deltas i ∧
      argumentsAt (deltas ++ [argumentsDelta i arguments]) i = argumentsAt deltas i ++ arguments := by
  have hindex : (argumentsDelta i arguments).index = i := rfl
  rw [namesAt_concat, argumentsAt_concat, if_neg fun hd => Bool.false_ne_true hd.2, if_pos hindex]
  exact ⟨append_nil _, rfl⟩

variable {deltas}

/-- Nothing is told at an index that no delta has. -/
theorem at_of_bounded {i : Nat} (h : ∀ d ∈ deltas, d.index < i) :
    namesAt deltas i = [] ∧ argumentsAt deltas i = [] := by
  have hnone : deltas.filter (fun d => decide (d.index = i)) = [] :=
    List.filter_eq_nil_iff.mpr fun d hd => by
      rw [decide_eq_true_iff]
      exact Nat.ne_of_lt (h d hd)
  refine ⟨?_, by rw [argumentsAt, hnone]; rfl⟩
  have hsome : deltas.filter (fun d => decide (d.index = i) && d.id.isSome) = [] :=
    List.filter_eq_nil_iff.mpr fun d hd => by
      rw [Bool.and_eq_true, decide_eq_true_iff]
      exact fun hi => Nat.ne_of_lt (h d hd) hi.1
  rw [namesAt, hsome]
  rfl

end Indices

/-- The calls among some messages. -/
def calls (messages : List Spread) : List Spread := messages.filter Spread.isCall

theorem calls_concat (messages : List Spread) (m : Spread) :
    calls (messages ++ [m]) = calls messages ++ if m.isCall = true then [m] else [] := by
  rw [calls, filter_append, calls, filter_cons, filter_nil]

theorem lastSeen_calls (messages : List Spread) : lastSeen (calls messages) = lastSeen messages := by
  rw [lastSeen, calls, filter_filter, lastSeen]
  congr 3
  funext m
  cases m.isCall with
  | true => exact Bool.and_true _
  | false => rfl

theorem lastSeen_concat (messages : List Spread) (m : Spread) : lastSeen (messages ++ [m]) =
      if m.isCall = true ∧ m.later ≠ [] then m.recipient else lastSeen messages := by
  rw [lastSeen, filter_append, lastSeen]
  by_cases h : m.isCall = true ∧ m.later ≠ []
  · rw [if_pos h, filter_cons_of_pos (by rw [h.1, Bool.true_and]; exact decide_eq_true h.2),
      filter_nil, List.getLast?_concat]
    rfl
  · rw [if_neg h, filter_cons_of_neg, filter_nil, append_nil]
    rw [Bool.and_eq_true, decide_eq_true_iff]
    exact h

/-- What is told of a call: if the call that was seen before it is of another function its name, once a chunk
has ended in it, and the text of the chunks between its first and its last; else no name. -/
structure Told (previous : Option Str) (m : Spread) (names : List Str) (arguments : Str) : Prop where
  fresh : previous ≠ m.recipient →
    names = (if m.later = [] then [] else [m.name]) ∧ arguments = m.middle
  stale : previous = m.recipient → names = []

namespace Told
variable {previous : Option Str} {m : Spread} {names : List Str} {arguments : Str}

theorem addText (h : Told previous m names arguments) (t : Str) :
    Told previous (m.addText t) names arguments where
  fresh hprevious := by
    rw [m.recipient_addText] at hprevious
    obtain ⟨hnames, harguments⟩ := h.fresh hprevious
    rw [m.middle_addText, m.name_addText]
    simp only [m.later_addText]
    exact ⟨hnames, harguments⟩
  stale hprevious := h.stale (hprevious.trans (m.recipient_addText t))

/-- A chunk that began in the call ends in it. -/
theorem endChunk_seen (h : Told previous m names arguments) (hseen : m.later ≠ []) :
    Told previous m.endChunk names (arguments ++ m.later.headD []) where
  fresh hprevious := by
    obtain ⟨hnames, harguments⟩ := h.fresh hprevious
    rw [if_neg hseen] at hnames
    rw [m.middle_endChunk, harguments, hnames]
    exact ⟨(if_neg (cons_ne_nil _ _)).symm, rfl⟩
  stale hprevious := h.stale hprevious

/-- The first chunk ends in the call. -/
theorem endChunk_fresh (h : Told previous m names arguments) (hseen : m.later = [])
    (hprevious : previous ≠ m.recipient) : Told previous m.endChunk (names ++ [m.name]) arguments where
  fresh _ := by
    obtain ⟨hnames, harguments⟩ := h.fresh hprevious
    rw [if_pos hseen] at hnames
    rw [m.middle_endChunk, harguments, hnames, hseen]
    exact ⟨(if_neg (cons_ne_nil _ _)).symm, (append_nil _).symm⟩
  stale heq := absurd heq hprevious

/-- No name is told of a call of the function that was seen before. -/
theorem endChunk_stale (h : Told previous m names arguments) (hprevious : previous = m.recipient)
    (more : Str) : Told previous m.endChunk names more where
  fresh hne := absurd hprevious hne
  stale _ := h.stale hprevious

end Told

/-- **The invariant**: what was told is that of the calls so far, by their numbers. -/
structure Explains (messages : List Spread) (deltas : List ToolCallDelta) : Prop where
  bounded : ∀ d ∈ deltas, d.index < (calls messages).length
  told : ∀ i m, (calls messages)[i]? = some m →
    Told (lastSeen ((calls messages).take i)) m (namesAt deltas i) (argumentsAt deltas i)

namespace Explains
variable {messages : List Spread} {m m' : Spread} {deltas more : List ToolCallDelta}

/-- The last message changes, and more may be told of it. -/
theorem replace (h : Explains (messages ++ [m]) deltas) (hcall : m'.isCall = m.isCall)
    (hmore : ∀ d ∈ more, m.isCall = true ∧ d.index = (calls messages).length)
    (hlast : m.isCall = true → Told (lastSeen messages) m (namesAt deltas (calls messages).length)
        (argumentsAt deltas (calls messages).length) →
      Told (lastSeen messages) m' (namesAt (deltas ++ more) (calls messages).length)
        (argumentsAt (deltas ++ more) (calls messages).length)) :
    Explains (messages ++ [m']) (deltas ++ more) := by
  have hlength : (calls (messages ++ [m'])).length = (calls (messages ++ [m])).length := by
    rw [calls_concat, calls_concat, hcall, length_append, length_append]
    split <;> rfl
  refine ⟨fun d hd => ?_, fun i m'' hi => ?_⟩
  · rcases List.mem_append.mp hd with hd | hd
    · exact hlength ▸ h.bounded d hd
    · obtain ⟨hm, hindex⟩ := hmore d hd
      rw [calls_concat, if_pos (hcall.trans hm), hindex, length_append]
      exact Nat.lt_succ_self _
  · rw [calls_concat] at hi ⊢
    by_cases hlt : i < (calls messages).length
    · -- a call before the last one: nothing more is told of it
      have hsame : namesAt (deltas ++ more) i = namesAt deltas i ∧
          argumentsAt (deltas ++ more) i = argumentsAt deltas i := by
        clear hi hlast
        induction more using List.reverseRecOn with
        | nil => rw [append_nil]; exact ⟨rfl, rfl⟩
        | append_singleton more d ih =>
          have hindex : d.index ≠ i := by
            rw [(hmore d (mem_append_right _ (mem_singleton_self d))).2]
            exact (Nat.ne_of_lt hlt).symm
          obtain ⟨hnames, harguments⟩ := ih fun d' hd' => hmore d' (mem_append_left _ hd')
          rw [← append_assoc, namesAt_concat, argumentsAt_concat, if_neg hindex,
            if_neg fun hd => hindex hd.1, append_nil, append_nil]
          exact ⟨hnames, harguments⟩
      have htold := h.told i m''
      rw [calls_concat, List.getElem?_append_left hlt,
        take_append_of_le_length (Nat.le_of_lt hlt)] at htold
      rw [List.getElem?_append_left hlt] at hi
      rw [take_append_of_le_length (Nat.le_of_lt hlt), hsame.1, hsame.2]
      exact htold hi
    · -- the last one, if it is a call
      have hle := Nat.le_of_not_lt hlt
      rw [List.getElem?_append_right hle] at hi
      by_cases hm : m.isCall = true
      · rw [hcall, if_pos hm] at hi ⊢
        obtain ⟨hzero, hlastOne⟩ := List.getElem?_eq_some_iff.mp hi
        obtain rfl : i = (calls messages).length :=
          Nat.le_antisymm (Nat.le_of_sub_eq_zero (Nat.lt_one_iff.mp hzero)) hle
        rw [getElem_singleton] at hlastOne
        subst hlastOne
        have htold := h.told (calls messages).length m
        rw [calls_concat, if_pos hm, take_left, lastSeen_calls] at htold
        rw [take_left, lastSeen_calls]
        exact hlast hm (htold List.getElem?_concat_length)
      · rw [hcall, if_neg hm] at hi
        cases hi

/-- A message is opened. -/
theorem opened (h : Explains messages deltas) (channel recipient : Option Str) :
    Explains (messages ++ [(⟨channel, recipient, [], []⟩ : Spread)]) deltas := by
  refine ⟨fun d hd => ?_, fun i m'' hi => ?_⟩
  · rw [calls_concat, length_append]
    exact Nat.lt_add_right _ (h.bounded d hd)
  · rw [calls_concat] at hi ⊢
    by_cases hlt : i < (calls messages).length
    · rw [List.getElem?_append_left hlt] at hi
      rw [take_append_of_le_length (Nat.le_of_lt hlt)]
      exact h.told i m'' hi
    · have hle := Nat.le_of_not_lt hlt
      obtain ⟨hnames, harguments⟩ := at_of_bounded fun d hd => Nat.lt_of_lt_of_le (h.bounded d hd) hle
      rw [List.getElem?_append_right hle] at hi
      have hmem := List.mem_of_getElem? hi
      rw [hnames, harguments]
      split at hmem
      · obtain rfl := List.mem_singleton.mp hmem
        exact ⟨fun _ => ⟨rfl, rfl⟩, fun _ => rfl⟩
      · cases hmem

variable (h : Explains (messages ++ [m]) deltas)
include h

/-- The last message changes, and nothing more is told. -/
theorem replace_silent (hcall : m'.isCall = m.isCall)
    (hlast : m.isCall = true → ∀ names arguments, Told (lastSeen messages) m names arguments →
      Told (lastSeen messages) m' names arguments) :
    Explains (messages ++ [m']) deltas := by
  have hreplaced : Explains (messages ++ [m']) (deltas ++ []) :=
    h.replace hcall (fun d hd => absurd hd not_mem_nil) fun hm htold => by
      rw [append_nil]
      exact hlast hm _ _ htold
  rwa [append_nil] at hreplaced

/-- The open message gets more text. -/
theorem addText (t : Str) : Explains (messages ++ [m.addText t]) deltas :=
  h.replace_silent (m.isCall_addText t) fun _ _ _ htold => htold.addText t

/-- A chunk ends in the open message, which is no call. -/
theorem endChunk_other (hcall : m.isCall = false) : Explains (messages ++ [m.endChunk]) deltas :=
  h.replace_silent m.isCall_endChunk fun htrue => absurd (hcall.symm.trans htrue) Bool.false_ne_true

/-- The first chunk ends in a call of another function than the last one that was seen. -/
theorem endChunk_fresh (hcall : m.isCall = true)
    (hseen : m.later = []) (hprevious : lastSeen messages ≠ m.recipient) (callId : Str) :
    Explains (messages ++ [m.endChunk]) (deltas ++ [nameDelta (calls messages).length callId m.name]) :=
  h.replace m.isCall_endChunk
    (fun d hd => by rw [List.mem_singleton.mp hd]; exact ⟨hcall, rfl⟩)
    fun _ htold => by
      rw [(at_nameDelta deltas _ callId m.name).1, (at_nameDelta deltas _ callId m.name).2]
      exact htold.endChunk_fresh hseen hprevious

/-- A chunk ends in a call of the function that was seen last: its text is told. -/
theorem endChunk_arguments (hcall : m.isCall = true)
    {text : Str} (htext : m.later ≠ [] → m.later.headD [] = text)
    (hprevious : m.later = [] → lastSeen messages = m.recipient) :
    Explains (messages ++ [m.endChunk])
        (deltas ++ [argumentsDelta (calls messages).length text]) ∧
      (text = [] → Explains (messages ++ [m.endChunk]) deltas) := by
  -- the call may be the one that was seen, or a later one of the same function
  have hends : ∀ {names : List Str} {arguments : Str}, Told (lastSeen messages) m names arguments →
        Told (lastSeen messages) m.endChunk names (arguments ++ text) := fun htold => by
    by_cases hseen : m.later = []
    · exact htold.endChunk_stale (hprevious hseen) _
    · rw [← htext hseen]
      exact htold.endChunk_seen hseen
  refine ⟨h.replace m.isCall_endChunk
    (fun d hd => by rw [List.mem_singleton.mp hd]; exact ⟨hcall, rfl⟩) fun _ htold => ?_,
    fun hnil => ?_⟩
  · rw [(at_argumentsDelta deltas _ text).1, (at_argumentsDelta deltas _ text).2]
    exact hends htold
  · refine h.replace_silent m.isCall_endChunk fun _ names arguments htold => ?_
    rw [← append_nil arguments, ← hnil]
    exact hends htold

end Explains

/-! ### The tokens of a chunk -/

/-- The text that was read in the chunk is that of the open call, if a chunk has ended in it before. -/
def Layout.Accumulates (l : Layout) (accumulated : Str) : Prop :=
  ∀ m, l.current = some m → m.isCall = true → m.later ≠ [] → m.later.headD [] = accumulated

/-- **Within a chunk**: the parser has the messages, what was told is that of the calls, and the recipient that
the adapter keeps is that of the last call that was seen. -/
structure Midway (v : View) (l : Layout) (accumulated : Str) (prevRecipient : Option Str)
    (deltas : List ToolCallDelta) : Prop where
  view : v = l.view
  accumulates : l.Accumulates accumulated
  explains : Explains l.all deltas
  seen : lastSeen l.all = prevRecipient

/-- The text of a token that goes to calls. -/
def View.commentary (v : View) (m : Move) : Str :=
  if (v.apply m).current.bind Message.channel = some "commentary".toList then (v.delta m).getD [] else []

namespace Midway
variable {v : View} {l : Layout} {accumulated : Str} {prevRecipient : Option Str}
  {deltas : List ToolCallDelta}

/-- **A token.** -/
theorem apply (h : Midway v l accumulated prevRecipient deltas) (move : Move) :
    Midway (v.apply move) (l.apply move) (accumulated ++ v.commentary move) prevRecipient deltas := by
  obtain ⟨rfl, haccumulates, hexplains, rfl⟩ := h
  have hnone : l.view.delta move = none → accumulated ++ l.view.commentary move = accumulated :=
    fun hdelta => by rw [View.commentary, hdelta, Option.getD_none, ite_self, append_nil]
  obtain ⟨hall, hcurrent, hdelta⟩ | ⟨channel, recipient, hall, hcurrent, hdelta⟩ |
    ⟨msg, t, hcurrent, rfl, happly⟩ := l.apply_cases move
  · refine ⟨(l.view_apply move).symm, ?_, hall ▸ hexplains, by rw [hall]⟩
    rw [hnone hdelta]
    rcases hcurrent with hcurrent | hcurrent
    · exact fun m hm => haccumulates m (hcurrent.symm.trans hm)
    · exact fun m hm => absurd (hcurrent.symm.trans hm) nofun
  · refine ⟨(l.view_apply move).symm, ?_, hall ▸ hexplains.opened channel recipient, ?_⟩
    · -- no chunk has ended in it
      intro m hm _ hlater
      cases hcurrent.symm.trans hm
      exact absurd rfl hlater
    · rw [hall, lastSeen_concat, if_neg fun hm => hm.2 rfl]
  · obtain ⟨closed, current⟩ := l
    obtain rfl : current = some msg := hcurrent
    rw [happly]
    refine ⟨(Layout.view_apply _ _).symm.trans (congrArg Layout.view happly), ?_,
      Explains.addText hexplains t, ?_⟩
    · rintro m ⟨⟩ hcall hlater
      rw [msg.isCall_addText] at hcall
      have hseen : msg.later ≠ [] := fun hnil => hlater ((msg.later_addText t).mpr hnil)
      have hchannel : msg.channel = some "commentary".toList :=
        of_decide_eq_true (Bool.and_eq_true_iff.mp hcall).1
      have htext : (Layout.mk closed (some msg)).view.commentary (.text t) = t := if_pos hchannel
      rw [msg.headD_addText t hseen, haccumulates msg rfl hcall hseen, htext]
    · rw [Layout.all_some, Layout.all_some, lastSeen_concat, lastSeen_concat, msg.isCall_addText,
        msg.recipient_addText]
      simp only [ne_eq, msg.later_addText]

end Midway

section Parsing
variable {σ : Type} {p : StreamableParser σ} {view : σ → View} {move : σ → Nat → Move}

/-- The text of a token, by what the parser says. -/
theorem Behaves.commentary (hp : Behaves p view move) {s s' : σ} {token : Nat}
    (h : p.process s token = .ok s') :
    textOf ContentDelta.isCommentary (p.contentDelta s').toList = (view s).commentary (move s token) := by
  obtain ⟨hview, hdelta⟩ := hp.step s token s' h
  rw [StreamableParser.contentDelta, hdelta, View.commentary, hp.channel, hview]
  cases (view s).delta (move s token) with
  | none => exact (ite_self _).symm
  | some t =>
    rw [Option.toList_some, ← nil_append [_], textOf_concat]
    simp only [ContentDelta.isCommentary_iff]
    rfl

/-- **The tokens of a chunk.** -/
theorem Midway.tokens (hp : Behaves p view move) {s s' : σ} {tokens : List Nat}
    {said : List ContentDelta} (hreads : Reads p s tokens said s') {l : Layout} {accumulated : Str}
    {prevRecipient : Option Str} {deltas : List ToolCallDelta}
    (h : Midway (view s) l accumulated prevRecipient deltas) :
    ∃ l', layTokens p move s l tokens = (s', l') ∧
      Midway (view s') l' (accumulated ++ textOf ContentDelta.isCommentary said) prevRecipient deltas := by
  induction hreads generalizing l accumulated with
  | nil s => exact ⟨l, rfl, by rw [textOf, filter_nil, flatMap_nil, append_nil]; exact h⟩
  | @cons s s₁ s' token tokens said head _ ih =>
    have hone := h.apply (move s token)
    rw [← (hp.step s token s₁ head).1, ← hp.commentary head] at hone
    obtain ⟨l', hlay, hmid⟩ := ih hone
    refine ⟨l', by rw [layTokens, head]; exact hlay, ?_⟩
    rwa [append_assoc, textOf, textOf, ← flatMap_append, ← filter_append] at hmid

/-- The finished calls are counted. -/
theorem Behaves.baseIndex (hp : Behaves p view move) {s : σ} {l : Layout} (hview : view s = l.view) :
    baseIndex p s = (calls l.closed).length := by
  rw [Harmony.baseIndex, hp.messages, hview, Layout.view, countP_map, calls, countP_eq_length_filter]
  rfl

/-- The function that is being called is that of the open message. -/
theorem Behaves.currentCall (hp : Behaves p view move) {s : σ} {l : Layout} (hview : view s = l.view) :
    (Harmony.currentCall p s = none ∧ ∀ m, l.current = some m → m.isCall = false) ∨
      ∃ m recipient, l.current = some m ∧ m.isCall = true ∧ m.recipient = some recipient ∧
        Harmony.currentCall p s = some (recipient, m.name) := by
  obtain ⟨closed, current⟩ := l
  have hcurrent : (view s).current = current.map Spread.message := by rw [hview]; rfl
  have hchannelOf := hp.channel s
  have hrecipientOf := hp.recipient s
  rw [hcurrent] at hchannelOf hrecipientOf
  cases current with
  | none =>
    rw [Harmony.currentCall, hchannelOf]
    exact .inl ⟨rfl, fun m hm => nomatch hm⟩
  | some m =>
    obtain ⟨channel, recipient, first, later⟩ := m
    change p.currentChannel s = channel at hchannelOf
    change p.currentRecipient s = recipient at hrecipientOf
    rw [Harmony.currentCall, hchannelOf, hrecipientOf]
    by_cases hchannel : channel = some "commentary".toList
    · rw [if_pos hchannel]
      subst hchannel
      cases recipient with
      | none => exact .inl ⟨rfl, by rintro m ⟨⟩; rfl⟩
      | some recipient =>
        rw [Option.bind_some]
        cases hname : functionName recipient with
        | none =>
          refine .inl ⟨rfl, ?_⟩
          rintro m ⟨⟩
          rw [Spread.isCall, Spread.isAddressed, Option.bind_some, hname]
          rfl
        | some toolName =>
          refine .inr ⟨_, recipient, rfl, ?_, rfl, ?_⟩
          · rw [Spread.isCall, Spread.isAddressed, Option.bind_some, hname]
            rfl
          · rw [Spread.name, Option.bind_some, hname]
            rfl
    · rw [if_neg hchannel]
      refine .inl ⟨rfl, ?_⟩
      rintro m ⟨⟩
      rw [Spread.isCall, decide_eq_false hchannel, Bool.false_and]

/-- The call of which a chunk has ended is the last one that was seen. -/
theorem lastSeen_endChunk {closed : List Spread} {m : Spread} :
    lastSeen (closed ++ [m.endChunk]) = if m.isCall = true then m.recipient else lastSeen closed := by
  rw [lastSeen_concat, m.isCall_endChunk]
  by_cases hcall : m.isCall = true
  · rw [if_pos hcall, if_pos ⟨hcall, cons_ne_nil _ _⟩]
    rfl
  · rw [if_neg hcall, if_neg fun h => hcall h.1]

/-- **The end of a chunk.** -/
theorem Midway.endChunk (hp : Behaves p view move) (uuid : Nat → Str) {a : HarmonyParserAdapter σ}
    {l : Layout} {accumulated : Str} {deltas : List ToolCallDelta}
    (h : Midway (view a.parser) l accumulated a.prevRecipient deltas) :
    Midway (view a.parser) l.endChunk [] (callDelta p uuid a accumulated).2.prevRecipient
      (deltas ++ (callDelta p uuid a accumulated).1.toList) := by
  obtain ⟨hview, haccumulates, hexplains, hseen⟩ := h
  have hview' : view a.parser = l.endChunk.view := by rw [l.view_endChunk]; exact hview
  have haccumulates' : l.endChunk.Accumulates [] := by
    intro m hm _ _
    obtain ⟨m, -, rfl⟩ := Option.map_eq_some_iff.mp hm
    rfl
  have hbase := hp.baseIndex hview
  obtain ⟨hnone, hother⟩ | ⟨m, recipient, hcurrent, hcall, hrecipient, hsome⟩ := hp.currentCall hview
  · rw [callDelta, hnone]
    rw [Option.toList_none, append_nil]
    obtain ⟨closed, current⟩ := l
    cases current with
    | none => exact ⟨hview', haccumulates', hexplains, hseen⟩
    | some m =>
      have hcall : ¬ m.isCall = true := by rw [hother m rfl]; exact Bool.false_ne_true
      refine ⟨hview', haccumulates', Explains.endChunk_other hexplains (hother m rfl), ?_⟩
      rw [Layout.all_some, lastSeen_concat, if_neg fun h => hcall h.1] at hseen
      exact lastSeen_endChunk.trans ((if_neg hcall).trans hseen)
  · obtain ⟨closed, current⟩ := l
    obtain rfl : current = some m := hcurrent
    rw [Layout.all_some] at hexplains hseen
    rw [lastSeen_concat] at hseen
    have hseen' : lastSeen (closed ++ [m.endChunk]) = some recipient :=
      lastSeen_endChunk.trans ((if_pos hcall).trans hrecipient)
    rw [callDelta, hsome]
    dsimp only
    rw [hbase]
    by_cases hnew : a.prevRecipient ≠ some recipient
    · -- no chunk had ended in the call
      have hlater : m.later = [] := Classical.byContradiction fun hne =>
        hnew (hseen.symm.trans ((if_pos ⟨hcall, hne⟩).trans hrecipient))
      rw [if_neg fun hm => hm.2 hlater] at hseen
      rw [if_pos hnew]
      refine ⟨hview', haccumulates', hexplains.endChunk_fresh hcall hlater ?_ _, hseen'⟩
      rw [hseen, hrecipient]
      exact hnew
    · have hsame : a.prevRecipient = some recipient := Classical.not_not.mp hnew
      rw [if_neg hnew]
      obtain ⟨htold, htoldNil⟩ := hexplains.endChunk_arguments hcall (haccumulates m rfl hcall)
        fun hlater => by
          rw [if_neg fun hm => hm.2 hlater] at hseen
          rw [hseen, hrecipient]
          exact hsame
      by_cases hempty : accumulated = []
      · rw [if_neg (not_not_intro hempty), Option.toList_none, append_nil]
        exact ⟨hview', haccumulates', htoldNil hempty, hseen'.trans hsame.symm⟩
      · rw [if_pos hempty]
        exact ⟨hview', haccumulates', htold, hseen'.trans hsame.symm⟩

/-- **The chunks**: what they say is that of the calls among the messages, which are those of the parser. -/
theorem Midway.chunks (hp : Behaves p view move) (uuid : Nat → Str) {s s' : σ}
    {chunks : List (List Nat)} {each : List (List ContentDelta)}
    (hreads : ReadsChunks p s chunks each s') {a : HarmonyParserAdapter σ} (hs : a.parser = s)
    {l : Layout} {deltas : List ToolCallDelta}
    (h : Midway (view a.parser) l [] a.prevRecipient deltas) :
    ∃ outs a', parseChunks p uuid a chunks = .ok (outs, a') ∧ Explains (layChunks p move s l chunks).all
        (deltas ++ outs.filterMap (·.bind HarmonyChannelDelta.commentaryDelta)) ∧
      view s' = (layChunks p move s l chunks).view := by
  induction hreads generalizing a l deltas with
  | nil s =>
    exact ⟨[], a, rfl, by rw [filterMap_nil, append_nil]; exact h.explains, hs ▸ h.view⟩
  | cons head _ ih =>
    subst hs
    obtain ⟨out, a₁, hone, hgives⟩ := parseChunk_reads uuid head
    obtain ⟨count, hcall⟩ := hgives.call
    obtain ⟨l', hlay, hmid⟩ := h.tokens hp head
    rw [nil_append] at hmid
    have hend := Midway.endChunk hp uuid
      (a := { a with parser := _, reasoningTokenCount := count }) hmid
    rw [hcall] at hend
    rw [← hgives.parser] at hend
    obtain ⟨outs, a', hrest, hexplains, hview⟩ := ih hgives.parser hend
    refine ⟨out :: outs, a', by rw [parseChunks, hone]; dsimp only; rw [hrest], ?_, ?_⟩
    · have hcons : (out :: outs).filterMap (·.bind HarmonyChannelDelta.commentaryDelta) =
          (out.bind HarmonyChannelDelta.commentaryDelta).toList ++
            outs.filterMap (·.bind HarmonyChannelDelta.commentaryDelta) := by
        rw [filterMap_cons]
        cases out.bind HarmonyChannelDelta.commentaryDelta <;> rfl
      rw [layChunks, hlay, hcons, ← append_assoc]
      exact hexplains
    · rw [layChunks, hlay]
      exact hview

end Parsing

/-! ### When the calls are complete -/

/-- An injection of the first numbers into themselves meets each of them, and where what it meets is never
smaller it is equal. -/
theorem eq_of_injective {n : Nat} {index f g : Nat → Nat} (hlt : ∀ i < n, index i < n)
    (hinj : ∀ i < n, ∀ j < n, index i = index j → i = j) :
    (∀ j < n, ∃ i < n, index i = j) ∧
      ((∀ j < n, f j ≤ g j) → (∀ i < n, f (index i) = g i) → ∀ j < n, f j = g j) := by
  have hinjOn : Set.InjOn index (Finset.range n) := fun i hi j hj =>
    hinj i (Finset.mem_range.mp hi) j (Finset.mem_range.mp hj)
  have himage : (Finset.range n).image index = Finset.range n := by
    refine Finset.eq_of_subset_of_card_le (fun j hj => ?_) ?_
    · obtain ⟨i, hi, rfl⟩ := Finset.mem_image.mp hj
      exact Finset.mem_range.mpr (hlt i (Finset.mem_range.mp hi))
    · rw [Finset.card_image_of_injOn hinjOn]
  refine ⟨fun j hj => ?_, fun hle hmeets j hj => ?_⟩
  · rw [← Finset.mem_range, ← himage] at hj
    obtain ⟨i, hi, hij⟩ := Finset.mem_image.mp hj
    exact ⟨i, Finset.mem_range.mp hi, hij⟩
  · have hsum : ∑ j ∈ Finset.range n, f j = ∑ j ∈ Finset.range n, g j := by
      calc ∑ j ∈ Finset.range n, f j
          = ∑ j ∈ (Finset.range n).image index, f j := by rw [himage]
        _ = ∑ i ∈ Finset.range n, f (index i) := Finset.sum_image hinjOn
        _ = ∑ i ∈ Finset.range n, g i :=
            Finset.sum_congr rfl fun i hi => hmeets i (Finset.mem_range.mp hi)
    exact (Finset.sum_eq_sum_iff_of_le fun j hj => hle j (Finset.mem_range.mp hj)).mp hsum j
      (Finset.mem_range.mpr hj)

/-- The calls are those on the commentary channel. -/
theorem calls_eq (messages : List Spread) :
    calls messages = (addressed messages).filter fun m => m.channel = some "commentary".toList := by
  rw [calls, addressed, filter_filter]
  rfl

/-- The text is that of the chunks between exactly when there is none in the first and in the last. -/
theorem Spread.length_middle (m : Spread) : m.middle.length ≤ m.text.length ∧
      (m.middle.length = m.text.length ↔ m.first = [] ∧ m.later.headD [] = []) := by
  rw [m.text_eq, length_append, length_append, ← length_eq_zero_iff, ← length_eq_zero_iff]
  constructor <;> omega

namespace Explains
variable {messages : List Spread} {deltas : List ToolCallDelta}

variable (h : Explains messages deltas)
include h

/-- An index where a name is told is that of a call. -/
theorem lt_of_named {i : Nat} {name : Str}
    (hname : namesAt deltas i = [name]) : i < (calls messages).length := by
  refine Classical.byContradiction fun hge => ?_
  rw [(at_of_bounded fun d hd => Nat.lt_of_lt_of_le (h.bounded d hd) (Nat.le_of_not_lt hge)).1] at hname
  exact cons_ne_nil _ _ hname.symm

/-- If a name is told of a call, the one that was seen before it is of another function. -/
theorem fresh_of_named {i : Nat} {m : Spread} {name : Str}
    (hm : (calls messages)[i]? = some m) (hname : namesAt deltas i = [name]) :
    lastSeen ((calls messages).take i) ≠ m.recipient ∧ m.later ≠ [] ∧ argumentsAt deltas i = m.middle := by
  have htold := h.told i m hm
  have hprevious : lastSeen ((calls messages).take i) ≠ m.recipient := fun heq => by
    rw [htold.stale heq] at hname
    exact cons_ne_nil _ _ hname.symm
  obtain ⟨hnames, harguments⟩ := htold.fresh hprevious
  refine ⟨hprevious, fun hnil => ?_, harguments⟩
  rw [hnames, if_pos hnil] at hname
  exact cons_ne_nil _ _ hname.symm

/-- If what is told is complete, all messages to functions are calls. -/
theorem calls_of_complete (hcomplete : CallsComplete messages deltas) :
    calls messages = addressed messages := by
  obtain ⟨index, hinj, htold⟩ := hcomplete
  have hlt : ∀ i < (addressed messages).length, index i < (calls messages).length := fun i hi =>
    h.lt_of_named (htold i _ (List.getElem?_eq_getElem hi)).1
  have hcard := Finset.card_le_card_of_injOn index
    (s := Finset.range (addressed messages).length) (t := Finset.range (calls messages).length)
    (fun i hi => Finset.mem_coe.mpr (Finset.mem_range.mpr (hlt i (Finset.mem_range.mp hi))))
    fun i hi j hj => hinj i (Finset.mem_range.mp hi) j (Finset.mem_range.mp hj)
  rw [Finset.card_range, Finset.card_range] at hcard
  rw [calls_eq] at hcard ⊢
  exact List.filter_sublist.eq_of_length_le hcard

/-- **The condition**: what is told is complete exactly when the calls are apart. -/
theorem complete_iff : CallsComplete messages deltas ↔ CallsApart messages := by
  constructor
  · intro hcomplete
    have hcalls := h.calls_of_complete hcomplete
    obtain ⟨index, hinj, hall⟩ := hcomplete
    have hlt : ∀ i < (addressed messages).length, index i < (addressed messages).length := fun i hi => by
      rw [← hcalls]
      exact h.lt_of_named (hall i _ (List.getElem?_eq_getElem hi)).1
    obtain ⟨honto, hequal⟩ := eq_of_injective (f := fun j => (argumentsAt deltas j).length)
      (g := fun i => (addressed messages)[i]?.elim 0 (·.text.length)) hlt hinj
    -- a name is told of each call, and so all that is told of it is its middle
    have hfresh : ∀ j m, (addressed messages)[j]? = some m →
        lastSeen ((addressed messages).take j) ≠ m.recipient ∧ m.later ≠ [] ∧
          argumentsAt deltas j = m.middle := fun j m hm => by
      obtain ⟨i, hi, rfl⟩ := honto j (List.getElem?_eq_some_iff.mp hm).1
      rw [← hcalls] at hm ⊢
      exact h.fresh_of_named hm (hall i _ (List.getElem?_eq_getElem hi)).1
    have hlengths := hequal (fun j hj => by
        have hm := List.getElem?_eq_getElem hj
        rw [hm, (hfresh j _ hm).2.2]
        exact (Spread.length_middle _).1)
      (fun i hi => by
        have hm := List.getElem?_eq_getElem hi
        rw [hm, (hall i _ hm).2]
        rfl)
    intro j m hm
    obtain ⟨hprevious, hlater, harguments⟩ := hfresh j m hm
    have hlength := hlengths j (List.getElem?_eq_some_iff.mp hm).1
    rw [hm, harguments] at hlength
    obtain ⟨hfirst, hlast⟩ := m.length_middle.2.mp hlength
    refine ⟨?_, hfirst, ?_, hprevious⟩
    · have hmem := List.mem_of_getElem? hm
      rw [← hcalls, calls_eq] at hmem
      exact of_decide_eq_true (List.mem_filter.mp hmem).2
    · obtain ⟨last, before, hcons⟩ := exists_cons_of_ne_nil hlater
      rw [hcons] at hlast ⊢
      exact congrArg some hlast
  · intro hapart
    have hcalls : calls messages = addressed messages := by
      rw [calls_eq, filter_eq_self]
      intro m hm
      obtain ⟨i, hi⟩ := List.mem_iff_getElem?.mp hm
      exact decide_eq_true (hapart i m hi).1
    refine ⟨id, fun i _ j _ hij => hij, fun i m hi => ?_⟩
    obtain ⟨-, hfirst, hlast, hprevious⟩ := hapart i m hi
    rw [← hcalls] at hi hprevious
    obtain ⟨hnames, harguments⟩ := (h.told i m hi).fresh hprevious
    have hlater : m.later ≠ [] := fun hnil => by rw [hnil] at hlast; cases hlast
    rw [if_neg hlater] at hnames
    refine ⟨hnames, harguments.trans ?_⟩
    rw [m.text_eq, hfirst, List.headD_eq_head?_getD, hlast]
    exact (append_nil _).symm

end Explains

section Streams
variable {σ : Type} (p : StreamableParser σ) (view : σ → View) (move : σ → Nat → Move)

/-- **The calls of a stream**: of the messages over the chunks, which are those of the parser, the calls are
told completely exactly when each is on the commentary channel, a chunk ends in it and it has no text in its
first chunk and in its last, and the call that was seen before it is of another function. -/
theorem calls_iff (hp : Behaves p view move) (uuid : Nat → Str) (a : HarmonyParserAdapter σ)
    (hprevRecipient : a.prevRecipient = none) (hview : view a.parser = {}) (chunks : List (List Nat))
    (each : List (List ContentDelta)) (s' : σ) (hreads : ReadsChunks p a.parser chunks each s') :
    (layChunks p move a.parser {} chunks).view = view s' ∧
      ((∃ outs a', parseChunks p uuid a chunks = .ok (outs, a') ∧
          CallsComplete (layChunks p move a.parser {} chunks).all
            (outs.filterMap (·.bind HarmonyChannelDelta.commentaryDelta))) ↔
        CallsApart (layChunks p move a.parser {} chunks).all) := by
  have hstart : Midway (view a.parser) {} [] a.prevRecipient [] := by
    refine ⟨hview, (fun m hm => nomatch hm),
      ⟨fun d hd => absurd hd not_mem_nil, fun i m hm => ?_⟩, hprevRecipient.symm⟩
    cases hm
  obtain ⟨outs, a', hparse, hexplains, hview'⟩ := hstart.chunks hp uuid hreads rfl
  refine ⟨hview'.symm, ?_⟩
  rw [← hexplains.complete_iff, nil_append]
  refine ⟨fun ⟨outs', a'', hparse', hcomplete⟩ => ?_, fun hcomplete => ⟨outs, a', hparse, hcomplete⟩⟩
  obtain ⟨rfl, -⟩ := Prod.mk.inj (Except.ok.inj (hparse.symm.trans hparse'))
  exact hcomplete

end Streams

/-! ### Calls in letters -/

namespace Letters
variable (s : Letters)

def view : View := ⟨s.messages, s.current⟩

def move (token : Nat) : Move :=
  match s.current, s.header with
  | some _, _ =>
      if token = 200007 ∨ token = 200012 ∨ token = 200002 then .closed else .text (letterText token)
  | none, some header =>
      if token = 200008 then .opened (opened header).channel (opened header).recipient else .held
  | none, none => .held

theorem behaves : Behaves letterParser view move where
  messages _ := rfl
  channel _ := rfl
  recipient _ := rfl
  step s token s' h := by
    obtain ⟨header, current, messages, delta⟩ := s
    change Letters.process _ token = .ok s' at h
    rw [Letters.process] at h
    rw [Letters.move]
    cases current with
    | some m =>
      dsimp only at h ⊢
      split at h
      · next hend =>
        cases h
        rw [if_pos hend]
        exact ⟨rfl, rfl⟩
      · next hend =>
        cases h
        rw [if_neg hend]
        exact ⟨rfl, rfl⟩
    | none =>
      cases header with
      | none =>
        dsimp only at h ⊢
        split at h
        · cases h
          exact ⟨rfl, rfl⟩
        · cases h
      | some header =>
        dsimp only at h ⊢
        split at h
        · next hopen =>
          cases h
          rw [if_pos hopen]
          exact ⟨rfl, rfl⟩
        · next hopen =>
          cases h
          rw [if_neg hopen]
          exact ⟨rfl, rfl⟩

end Letters

/-- The tokens of a call of a function of one letter, up to its text. -/
def callHeader (letter : Nat) : List Nat :=
  [200005, 12606, 815, 220, 83, 78, 28, 69, 84, 77, 66, 83, 72, 78, 77, 82, 13, letter, 200008]

/-- A call in one chunk: it is not told at all. -/
theorem whole_call_lost :
    (∃ each s, ReadsChunks letterParser {} [callHeader 64 ++ [64, 200012]] each s) ∧
    ¬ ∃ outs a', parseChunks letterParser (fun _ => []) { parser := {} }
        [callHeader 64 ++ [64, 200012]] = .ok (outs, a') ∧
      CallsComplete (layChunks letterParser Letters.move {} {} [callHeader 64 ++ [64, 200012]]).all
        (outs.filterMap (·.bind HarmonyChannelDelta.commentaryDelta)) := by
  refine ⟨⟨_, _, readsChunks_of_read rfl⟩, ?_⟩
  rintro ⟨outs, a', hparse, index, -, htold⟩
  have houts : (parseChunks letterParser (fun _ => []) { parser := {} }
      [callHeader 64 ++ [64, 200012]]).map Prod.fst =
        .ok [some { analysisDelta := none, commentaryDelta := none, finalDelta := none, isFinal := true }] :=
    rfl
  rw [hparse] at houts
  cases houts
  have hnames := (htold 0 ⟨some "commentary".toList, some "functions.a".toList, ['a'], []⟩ (by decide)).1
  exact cons_ne_nil _ _ hnames.symm

/-- Two calls of two functions, their texts in chunks of their own. -/
def twoCalls : List (List Nat) :=
  [callHeader 64, [64], [200012, 200006] ++ callHeader 65, [65, 66], [200012]]

/-- They are told completely. -/
theorem two_calls_told :
    (layChunks letterParser Letters.move {} {} twoCalls).view.messages =
      [⟨some "commentary".toList, some "functions.a".toList, ['a']⟩,
        ⟨some "commentary".toList, some "functions.b".toList, ['b', 'c']⟩] ∧
    ∃ outs a', parseChunks letterParser (fun _ => []) { parser := {} } twoCalls = .ok (outs, a') ∧
      CallsComplete (layChunks letterParser Letters.move {} {} twoCalls).all
        (outs.filterMap (·.bind HarmonyChannelDelta.commentaryDelta)) := by
  have hiff := calls_iff letterParser Letters.view Letters.move Letters.behaves (fun _ => [])
    { parser := {} } rfl rfl twoCalls _ _ (readsChunks_of_read rfl)
  refine ⟨by rw [hiff.1]; rfl, hiff.2.mpr ?_⟩
  have haddressed : addressed (layChunks letterParser Letters.move {} {} twoCalls).all =
      [⟨some "commentary".toList, some "functions.a".toList, [], [[], ['a']]⟩,
        ⟨some "commentary".toList, some "functions.b".toList, [], [[], ['b', 'c']]⟩] := rfl
  intro i m hm
  rw [haddressed] at hm ⊢
  rcases i with _ | _ | i
  · cases hm
    exact ⟨rfl, rfl, rfl, by decide⟩
  · cases hm
    exact ⟨rfl, rfl, rfl, by decide⟩
  · cases hm

end QwenStack.Harmony
