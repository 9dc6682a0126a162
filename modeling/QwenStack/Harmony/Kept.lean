import QwenStack.Harmony.Output
import QwenStack.Support.Lines
import QwenStack.Support.Preceded

/-!
# Harmony — the text that is kept

`gateway/src/routers/grpc/harmony/parser.rs`: what `parse_complete` gives has the text of the messages in
it: the texts of a call as arguments, the others in the analysis, each on lines of its own, or in the final
text.

`parse_messages` appends, but for a message of the analysis channel, which takes the place of all reasoning
before it, as the open content of that channel does; the open content of other channels may go nowhere.
`keepsText_iff` says which messages lose nothing.  The open message is taken to be the model's.
-/

namespace QwenStack.Harmony

open List
open Lines (join)
open Preceded (Each)

/-! ### Where texts belong -/

namespace ChatMessage

def text (msg : ChatMessage) : Str := extractTextFromContent msg.content

/-- The texts of a message, one for each item. -/
def texts (msg : ChatMessage) : List Str :=
  msg.content.filterMap fun
    | .text text => some text
    | .other => none

/-- The function that a message calls. -/
def calledName (msg : ChatMessage) : Option Str := msg.recipient.bind functionName

/-- The message is for a tool that the model has by itself. -/
def isForBuiltin (msg : ChatMessage) : Bool := msg.recipient.any isBuiltin

end ChatMessage

/-- Where the text of a message belongs. -/
inductive Place where
  | calls (functions : List FunctionCallResponse)
  | reasoning (text : Str)
  | final (text : Str)
  | nowhere
  deriving DecidableEq, Repr

/-- A message of an assistant is a call, reasoning or a part of the answer. -/
def ChatMessage.place (msg : ChatMessage) : Place :=
  if msg.role ≠ .assistant then .nowhere
  else
    match msg.calledName with
    | some name => .calls (msg.texts.map fun text => ⟨name, some text⟩)
    | none =>
        if msg.isForBuiltin = true ∨ msg.channel = some "analysis".toList ∨
            msg.channel = some "commentary".toList then
          .reasoning msg.text
        else .final msg.text

namespace Place

def functions : Place → List FunctionCallResponse
  | .calls functions => functions
  | _ => []

/-- Reasoning that is not empty. -/
def reasoning? : Place → Option Str
  | .reasoning text => if text = [] then none else some text
  | _ => none

def final? : Place → Option Str
  | .final text => some text
  | _ => none

/-- A text that is no call. -/
def plain? (place : Place) : Option Str := place.reasoning?.or place.final?

end Place

section Places
variable (messages : List ChatMessage)

/-- The calls that the messages are. -/
def calledFunctions : List FunctionCallResponse := messages.flatMap fun msg => msg.place.functions

def reasoningTexts : List Str := messages.filterMap fun msg => msg.place.reasoning?

def finalTexts : List Str := messages.filterMap fun msg => msg.place.final?

def plainTexts : List Str := messages.filterMap fun msg => msg.place.plain?

end Places

/-- The message that is open, if it has content. -/
def openMessage {σ : Type} (p : ContentParser σ) (s : σ) : List ChatMessage :=
  match p.currentContent s with
  | .error _ => []
  | .ok content =>
      if content = [] then []
      else [⟨.assistant, p.currentChannel s, p.currentRecipient s, [.text content]⟩]

/-- The functions that are called in an output. -/
def HarmonyChannelOutput.functions (o : HarmonyChannelOutput) : List FunctionCallResponse :=
  (o.commentary.getD []).map ToolCall.function

/-- **The property**: every call is a call of the output; the reasoning is in the analysis and the other
texts are in the final text, in order; what is open is the last of one of them. -/
structure KeepsText (messages opened : List ChatMessage) (o : HarmonyChannelOutput) : Prop where
  calls : (calledFunctions (messages ++ opened)).Sublist o.functions
  texts : ∃ reasoning finals, reasoning ++ finals = plainTexts opened ∧
    join (reasoningTexts messages ++ reasoning) <:+: o.analysis.getD [] ∧
    (finalTexts messages ++ finals).flatten <:+: o.finalText

/-- The message takes the place of the reasoning before it. -/
def ChatMessage.Replaces (msg : ChatMessage) : Prop :=
  msg.place.reasoning?.isSome = true ∧ msg.isForBuiltin = false ∧
    msg.channel = some "analysis".toList

/-- No message takes the place of reasoning. -/
def ReplacesNothing (messages : List ChatMessage) : Prop :=
  Each (fun before msg => msg.Replaces → reasoningTexts before = []) messages

/-- **The condition**: no reasoning is replaced, and what is open is no call, and reasoning only if it is the
first. -/
structure LosesNothing (messages opened : List ChatMessage) : Prop where
  replaced : ReplacesNothing messages
  opened : ∀ msg ∈ opened, msg.calledName = none ∧
    (msg.channel = some "analysis".toList ∧ reasoningTexts messages = [] ∨
      msg.channel = some "final".toList ∨ msg.channel = none)

/-! ### What a message adds -/

/-- A message that is no call. -/
theorem ChatMessage.place_of_not_call {msg : ChatMessage} (hrole : msg.role = .assistant)
    (hcall : msg.calledName = none) :
    msg.place = if msg.isForBuiltin = true ∨ msg.channel = some "analysis".toList ∨
      msg.channel = some "commentary".toList then .reasoning msg.text else .final msg.text := by
  rw [ChatMessage.place, if_neg (not_not.mpr hrole), hcall]

namespace Channels

def functions (c : Channels) : List FunctionCallResponse := (c.commentary.getD []).map ToolCall.function

/-- Reasoning changes nothing but the analysis. -/
theorem exists_addReasoning (c : Channels) (text : Str) :
    ∃ analysis, c.addReasoning text = { c with analysis := analysis } := by
  unfold addReasoning
  split
  · exact ⟨_, rfl⟩
  · split
    · exact ⟨_, rfl⟩
    · exact ⟨_, rfl⟩

theorem exists_setReasoning (c : Channels) (text : Str) :
    ∃ analysis, c.setReasoning text = { c with analysis := analysis } := by
  unfold setReasoning
  split
  · exact ⟨_, rfl⟩
  · exact ⟨_, rfl⟩

/-- The items of a call. -/
theorem foldl_addCall (uuid : Nat → Str) (name : Str) (content : List Content) (c : Channels) :
    (content.foldl (addCall uuid name) c).functions =
        c.functions ++ ((ChatMessage.mk .assistant none none content).texts.map fun text =>
          ⟨name, some text⟩) ∧
      (content.foldl (addCall uuid name) c).analysis = c.analysis ∧
      (content.foldl (addCall uuid name) c).finalText = c.finalText := by
  induction content generalizing c with
  | nil => simp [ChatMessage.texts]
  | cons item content ih =>
    obtain ⟨hfunctions, hanalysis, hfinal⟩ := ih (c.addCall uuid name item)
    rw [foldl_cons, hfunctions, hanalysis, hfinal]
    cases item with
    | other => exact ⟨rfl, rfl, rfl⟩
    | text text => simp [addCall, functions, ChatMessage.texts]

/-- What a message leaves in the channels. -/
structure Adds (msg : ChatMessage) (c c' : Channels) : Prop where
  functions : c'.functions = c.functions ++ msg.place.functions
  finalText : c'.finalText = c.finalText ++ msg.place.final?.toList.flatten
  kept : msg.place.reasoning? = none → c'.analysis = c.analysis
  replaced : ∀ text, msg.place.reasoning? = some text → msg.Replaces → c'.analysis = some text
  added : ∀ text, msg.place.reasoning? = some text → ¬ msg.Replaces →
    c'.analysis = some ((c.analysis.map (· ++ ['\n'])).getD [] ++ text)

section
variable {msg : ChatMessage}

/-- A message without reasoning. -/
theorem Adds.of_none {c c' : Channels} (hnone : msg.place.reasoning? = none)
    (hfunctions : c'.functions = c.functions ++ msg.place.functions)
    (hfinal : c'.finalText = c.finalText ++ msg.place.final?.toList.flatten)
    (hanalysis : c'.analysis = c.analysis) : Adds msg c c' := by
  refine ⟨hfunctions, hfinal, fun _ => hanalysis, ?_, ?_⟩
  · intro text hsome
    rw [hnone] at hsome
    cases hsome
  · intro text hsome
    rw [hnone] at hsome
    cases hsome

/-- A message with reasoning, which may be empty. -/
theorem Adds.of_reasoning {c c' : Channels} (hplace : msg.place = .reasoning msg.text)
    (hsame : ∃ analysis, c' = { c with analysis := analysis })
    (hempty : msg.text = [] → c'.analysis = c.analysis)
    (hreplaced : msg.text ≠ [] → msg.Replaces → c'.analysis = some msg.text)
    (hadded : msg.text ≠ [] → ¬ msg.Replaces →
      c'.analysis = some ((c.analysis.map (· ++ ['\n'])).getD [] ++ msg.text)) : Adds msg c c' := by
  obtain ⟨analysis, rfl⟩ := hsame
  have hfunctions : c.functions = c.functions ++ msg.place.functions := by
    rw [hplace]
    exact (append_nil c.functions).symm
  have hfinal : c.finalText = c.finalText ++ msg.place.final?.toList.flatten := by
    simp [hplace, Place.final?]
  by_cases htext : msg.text = []
  · have hnone : msg.place.reasoning? = none := by
      rw [hplace]
      exact if_pos htext
    exact .of_none hnone hfunctions hfinal (hempty htext)
  · have hsome : msg.place.reasoning? = some msg.text := by
      rw [hplace]
      exact if_neg htext
    refine ⟨hfunctions, hfinal, ?_, ?_, ?_⟩
    · intro hnone
      rw [hsome] at hnone
      cases hnone
    · intro text htext'
      cases hsome.symm.trans htext'
      exact hreplaced htext
    · intro text htext'
      cases hsome.symm.trans htext'
      exact hadded htext

theorem adds_addReasoning (c : Channels) (hplace : msg.place = .reasoning msg.text)
    (hnot : ¬ msg.Replaces) : Adds msg c (c.addReasoning msg.text) := by
  refine .of_reasoning hplace (exists_addReasoning c _) ?_ ?_ ?_
  · intro hempty
    rw [addReasoning, if_pos hempty]
  · intro _ hreplaces
    exact absurd hreplaces hnot
  · intro hne _
    rw [addReasoning, if_neg hne]
    cases c.analysis <;> simp

theorem adds_setReasoning (c : Channels) (hplace : msg.place = .reasoning msg.text)
    (hbuiltin : msg.isForBuiltin = false) (hchannel : msg.channel = some "analysis".toList) :
    Adds msg c (c.setReasoning msg.text) := by
  refine .of_reasoning hplace (exists_setReasoning c _) ?_ ?_ ?_
  · intro hempty
    rw [setReasoning, if_pos hempty]
  · intro hne _
    rw [setReasoning, if_neg hne]
  · intro hne hnot
    refine absurd ⟨?_, hbuiltin, hchannel⟩ hnot
    rw [hplace, Place.reasoning?, if_neg hne]
    rfl

/-- A message that is no call, by its channel. -/
theorem adds_addByChannel (c : Channels) (hrole : msg.role = .assistant)
    (hcall : msg.calledName = none) (hbuiltin : msg.isForBuiltin = false) :
    Adds msg c (c.addByChannel msg) := by
  have hplace := ChatMessage.place_of_not_call hrole hcall
  simp only [hbuiltin, Bool.false_eq_true, false_or] at hplace
  unfold addByChannel
  split
  · next hanalysis =>
    rw [if_pos (.inl hanalysis)] at hplace
    exact adds_setReasoning c hplace hbuiltin hanalysis
  · next hanalysis =>
    split
    · next hcommentary =>
      rw [if_pos (.inr hcommentary)] at hplace
      exact adds_addReasoning c hplace fun h => hanalysis h.2.2
    · next hcommentary =>
      rw [if_neg (not_or.mpr ⟨hanalysis, hcommentary⟩)] at hplace
      refine .of_none (by rw [hplace]; rfl) ?_
        (by simp [hplace, Place.final?, addFinal, ChatMessage.text]) rfl
      rw [hplace]
      exact (append_nil c.functions).symm

end

/-- **One message.** -/
theorem adds_addMessage (uuid : Nat → Str) (c : Channels) (msg : ChatMessage) :
    Adds msg c (c.addMessage uuid msg) := by
  unfold addMessage
  split
  · next hrole =>
    have hplace : msg.place = .nowhere := by rw [ChatMessage.place, if_pos hrole]
    exact .of_none (by rw [hplace]; rfl) (by simp [hplace, Place.functions])
      (by simp [hplace, Place.final?]) rfl
  · next hrole =>
    replace hrole : msg.role = .assistant := not_not.mp hrole
    split
    · next hrecipient =>
      exact adds_addByChannel c hrole (by simp [ChatMessage.calledName, hrecipient])
        (by simp [ChatMessage.isForBuiltin, hrecipient])
    · next recipient hrecipient =>
      split
      · next name hname =>
        have hcall : msg.calledName = some name := by rw [ChatMessage.calledName, hrecipient]; exact hname
        have hplace : msg.place = .calls (msg.texts.map fun text => ⟨name, some text⟩) := by
          rw [ChatMessage.place, if_neg (not_not.mpr hrole), hcall]
        obtain ⟨hfunctions, hanalysis, hfinal⟩ := foldl_addCall uuid name msg.content c
        refine .of_none (by rw [hplace]; rfl) ?_ (by simp [hplace, hfinal, Place.final?]) hanalysis
        rw [hfunctions, hplace]
        rfl
      · next hname =>
        have hcall : msg.calledName = none := by rw [ChatMessage.calledName, hrecipient]; exact hname
        have hfor : msg.isForBuiltin = isBuiltin recipient := by
          rw [ChatMessage.isForBuiltin, hrecipient, Option.any_some]
        split
        · next hbuiltin =>
          refine adds_addReasoning c ?_ ?_
          · rw [ChatMessage.place_of_not_call hrole hcall, if_pos (.inl (hfor.trans hbuiltin))]
          · intro hreplaces
            exact Bool.false_ne_true (hreplaces.2.1.symm.trans (hfor.trans hbuiltin))
        · next hbuiltin =>
          exact adds_addByChannel c hrole hcall (hfor.trans (Bool.eq_false_iff.mpr hbuiltin))

end Channels

/-! ### All messages -/

theorem replacesNothing_snoc {messages : List ChatMessage} {msg : ChatMessage} :
    ReplacesNothing (messages ++ [msg]) ↔
      ReplacesNothing messages ∧ (msg.Replaces → reasoningTexts messages = []) :=
  Preceded.each_snoc

theorem replacesNothing_of_nil {messages : List ChatMessage} (h : reasoningTexts messages = []) :
    ReplacesNothing messages := by
  intro before msg after hsplit _
  rw [hsplit, reasoningTexts, filterMap_append] at h
  exact (List.append_eq_nil_iff.mp h).1

/-- The analysis of some reasoning. -/
def joined : List Str → Option Str
  | [] => none
  | text :: rest => some (join (text :: rest))

theorem joined_singleton (text : Str) : joined [text] = some text := by
  rw [joined, Lines.join_singleton]

theorem getD_joined (texts : List Str) : (joined texts).getD [] = join texts := by
  cases texts <;> rfl

theorem joined_append_singleton (texts : List Str) (text : Str) :
    joined (texts ++ [text]) = some (((joined texts).map (· ++ ['\n'])).getD [] ++ text) := by
  cases texts with
  | nil => exact joined_singleton text
  | cons first rest =>
    refine (congrArg some (Lines.join_append_singleton (cons_ne_nil first rest) text)).trans ?_
    simp [joined]

theorem reasoningTexts_ne_nil {messages : List ChatMessage} : ∀ text ∈ reasoningTexts messages, text ≠ [] := by
  intro text hmem
  obtain ⟨msg, -, hsome⟩ := List.mem_filterMap.mp hmem
  cases hplace : msg.place with
  | reasoning text' =>
    rw [hplace, Place.reasoning?] at hsome
    split at hsome
    · cases hsome
    · next hne =>
      cases hsome
      exact hne
  | _ =>
    rw [hplace] at hsome
    cases hsome

/-- The channels of some messages: of the reasoning the last texts are kept. -/
structure Channels.Holds (messages : List ChatMessage) (overwritten kept : List Str) (c : Channels) :
    Prop where
  functions : c.functions = calledFunctions messages
  finalText : c.finalText = (finalTexts messages).flatten
  reasoning : reasoningTexts messages = overwritten ++ kept
  analysis : c.analysis = joined kept
  replaced : overwritten = [] ↔ ReplacesNothing messages

/-- One more message. -/
theorem Channels.Holds.addMessage {messages : List ChatMessage} {overwritten kept : List Str} {c c' : Channels}
    {msg : ChatMessage} (h : Holds messages overwritten kept c) (hadds : Adds msg c c') :
    ∃ overwritten kept, Holds (messages ++ [msg]) overwritten kept c' := by
  have hfunctions : c'.functions = calledFunctions (messages ++ [msg]) := by
    simp [calledFunctions, hadds.functions, h.functions]
  have hfinal : c'.finalText = (finalTexts (messages ++ [msg])).flatten := by
    rw [hadds.finalText, h.finalText, finalTexts, finalTexts, filterMap_append, flatten_append]
    cases hplace : msg.place.final? <;> simp [hplace]
  have hreasoning : reasoningTexts (messages ++ [msg]) =
      overwritten ++ kept ++ msg.place.reasoning?.toList := by
    rw [reasoningTexts, filterMap_append, ← h.reasoning]
    cases hplace : msg.place.reasoning? <;> simp [hplace, reasoningTexts]
  cases hsome : msg.place.reasoning? with
  | none =>
    refine ⟨overwritten, kept, hfunctions, hfinal, by simp [hreasoning, hsome],
      (hadds.kept hsome).trans h.analysis, ?_⟩
    rw [h.replaced, replacesNothing_snoc]
    refine ⟨fun hr => ⟨hr, fun hreplaces => ?_⟩, And.left⟩
    rw [ChatMessage.Replaces, hsome] at hreplaces
    exact absurd hreplaces.1 Bool.false_ne_true
  | some text =>
    by_cases hreplaces : msg.Replaces
    · refine ⟨overwritten ++ kept, [text], hfunctions, hfinal, by simp [hreasoning, hsome],
        (hadds.replaced text hsome hreplaces).trans (joined_singleton text).symm, ?_⟩
      rw [replacesNothing_snoc, ← h.replaced, h.reasoning]
      exact ⟨fun hnil => ⟨(List.append_eq_nil_iff.mp hnil).1, fun _ => hnil⟩, fun hr => hr.2 hreplaces⟩
    · refine ⟨overwritten, kept ++ [text], hfunctions, hfinal, by simp [hreasoning, hsome], ?_, ?_⟩
      · rw [hadds.added text hsome hreplaces, h.analysis, joined_append_singleton]
      · rw [h.replaced, replacesNothing_snoc]
        exact ⟨fun hr => ⟨hr, fun h' => absurd h' hreplaces⟩, And.left⟩

/-- **`parse_messages`**, by induction on the messages. -/
theorem holds_parseMessages (uuid : Nat → Str) (generated : Nat) (messages : List ChatMessage) :
    ∃ overwritten kept, Channels.Holds messages overwritten kept (parseMessages uuid generated messages) := by
  induction messages using List.reverseRecOn with
  | nil =>
    exact ⟨[], [], rfl, rfl, rfl, rfl, fun _ => Preceded.each_nil, fun _ => rfl⟩
  | append_singleton messages msg ih =>
    obtain ⟨overwritten, kept, hholds⟩ := ih
    rw [parseMessages, foldl_append]
    exact hholds.addMessage (Channels.adds_addMessage uuid _ msg)

/-! ### What is open -/

theorem losesNothing_singleton {messages : List ChatMessage} {msg : ChatMessage} :
    LosesNothing messages [msg] ↔ ReplacesNothing messages ∧ msg.calledName = none ∧
      (msg.channel = some "analysis".toList ∧ reasoningTexts messages = [] ∨
        msg.channel = some "final".toList ∨ msg.channel = none) := by
  constructor
  · rintro ⟨hreplaced, hopened⟩
    exact ⟨hreplaced, hopened msg (mem_singleton_self msg)⟩
  · rintro ⟨hreplaced, hopened⟩
    refine ⟨hreplaced, ?_⟩
    intro other hmem
    rw [List.mem_singleton.mp hmem]
    exact hopened

open Channels (Holds)

section Opened
variable {messages : List ChatMessage} {overwritten kept : List Str} {c : Channels}
  {finishReason : Str} {matchedStop : Option Value} {count : Nat}

theorem Channels.Holds.isInfix_join_iff (h : Holds messages overwritten kept c) :
    join (reasoningTexts messages) <:+: join kept ↔ ReplacesNothing messages := by
  rw [← h.replaced]
  constructor
  · intro hpiece
    by_contra hne
    have hlt := Lines.length_join_lt_append kept (fun text hmem => reasoningTexts_ne_nil text
      (h.reasoning ▸ mem_append_left kept hmem)) hne
    rw [← h.reasoning] at hlt
    exact absurd hpiece.length_le (Nat.not_le.mpr hlt)
  · intro hnil
    rw [h.reasoning, hnil]
    exact infix_rfl

/-- More reasoning than there is. -/
theorem Channels.Holds.not_isInfix_join (h : Holds messages overwritten kept c) {text : Str}
    (htext : text ≠ []) : ¬ join (reasoningTexts messages ++ [text]) <:+: join kept := by
  intro hpiece
  have hle : (join kept).length ≤ (join (reasoningTexts messages)).length := by
    rw [h.reasoning]
    by_cases hnil : overwritten = []
    · exact Nat.le_of_eq (by rw [hnil, nil_append])
    · exact Nat.le_of_lt (Lines.length_join_lt_append kept (fun text hmem => reasoningTexts_ne_nil text
        (h.reasoning ▸ mem_append_left kept hmem)) hnil)
  have hlt := Lines.length_join_lt_singleton (reasoningTexts messages) htext
  exact absurd (Nat.le_trans hpiece.length_le hle) (Nat.not_le_of_lt hlt)

theorem not_isInfix_flatten (finals : List Str) {text : Str} (htext : text ≠ []) :
    ¬ (finals ++ [text]).flatten <:+: finals.flatten := by
  intro hpiece
  have hle := hpiece.length_le
  have hpos := List.length_pos_iff.mpr htext
  rw [flatten_append, length_append, flatten_singleton] at hle
  omega

/-- Nothing is open. -/
theorem Channels.Holds.keepsText_nil (h : Holds messages overwritten kept c) :
    KeepsText messages [] (c.output finishReason matchedStop count) ↔ LosesNothing messages [] := by
  have hanalysis : (c.output finishReason matchedStop count).analysis.getD [] = join kept := by
    rw [Channels.output, h.analysis, getD_joined]
  constructor
  · rintro ⟨-, reasoning, finals, hsplit, hpiece, -⟩
    obtain ⟨rfl, rfl⟩ := List.append_eq_nil_iff.mp hsplit
    rw [append_nil, hanalysis, h.isInfix_join_iff] at hpiece
    exact ⟨hpiece, by simp⟩
  · intro hloses
    refine ⟨?_, [], [], rfl, ?_, ?_⟩
    · rw [append_nil, ← h.functions]
      exact List.Sublist.refl _
    · rw [append_nil, hanalysis, h.isInfix_join_iff]
      exact hloses.replaced
    · rw [append_nil, ← h.finalText]
      exact infix_rfl

/-- A call that is open is in no call. -/
theorem Channels.Holds.not_keepsText_call (h : Holds messages overwritten kept c) {msg : ChatMessage}
    {o : HarmonyChannelOutput} (hfunctions : o.functions = c.functions) (hcall : msg.place.functions ≠ []) :
    ¬ KeepsText messages [msg] o := by
  intro hkeeps
  have hle := hkeeps.calls.length_le
  rw [hfunctions, h.functions, calledFunctions, calledFunctions, flatMap_append, length_append,
    flatMap_singleton] at hle
  have hpos := List.length_pos_iff.mpr hcall
  omega

theorem plainTexts_singleton {msg : ChatMessage} (hrole : msg.role = .assistant)
    (hcall : msg.calledName = none) (htext : msg.text ≠ []) :
    msg.place.functions = [] ∧ plainTexts [msg] = [msg.text] := by
  have hplace : msg.place = .reasoning msg.text ∨ msg.place = .final msg.text := by
    rw [ChatMessage.place_of_not_call hrole hcall]
    split
    · exact .inl rfl
    · exact .inr rfl
  rcases hplace with hplace | hplace
  · simp [plainTexts, hplace, Place.functions, Place.plain?, Place.reasoning?, htext]
  · simp [plainTexts, hplace, Place.functions, Place.plain?, Place.reasoning?, Place.final?]

/-! An open text that is no call, by where it goes. -/

section Plain
variable {msg : ChatMessage} {o : HarmonyChannelOutput} (h : Holds messages overwritten kept c)
  (hfunctions : o.functions = c.functions) (hrole : msg.role = .assistant) (hcall : msg.calledName = none)
  (htext : msg.text ≠ [])
include h hfunctions hrole hcall htext

theorem keepsText_plain : KeepsText messages [msg] o ↔
      join (reasoningTexts messages ++ [msg.text]) <:+: o.analysis.getD [] ∧
          (finalTexts messages).flatten <:+: o.finalText ∨
        join (reasoningTexts messages) <:+: o.analysis.getD [] ∧
          (finalTexts messages ++ [msg.text]).flatten <:+: o.finalText := by
  obtain ⟨hnone, hplain⟩ := plainTexts_singleton hrole hcall htext
  constructor
  · rintro ⟨-, reasoning, finals, hsplit, hanalysis, hfinal⟩
    rw [hplain, append_eq_singleton_iff] at hsplit
    rcases hsplit with ⟨rfl, rfl⟩ | ⟨rfl, rfl⟩
    · exact .inr ⟨by simpa using hanalysis, hfinal⟩
    · exact .inl ⟨hanalysis, by simpa using hfinal⟩
  · intro hpiece
    have hcalls : (calledFunctions (messages ++ [msg])).Sublist o.functions := by
      rw [hfunctions, h.functions]
      simp [calledFunctions, hnone]
    rcases hpiece with ⟨hanalysis, hfinal⟩ | ⟨hanalysis, hfinal⟩
    · exact ⟨hcalls, [msg.text], [], by simp [hplain], hanalysis, by simpa using hfinal⟩
    · exact ⟨hcalls, [], [msg.text], by simp [hplain], by simpa using hanalysis, hfinal⟩

/-- It takes the place of the analysis. -/
theorem keepsText_analysis (hanalysis : o.analysis = some msg.text) (hfinal : o.finalText = c.finalText) :
    KeepsText messages [msg] o ↔ reasoningTexts messages = [] := by
  rw [keepsText_plain h hfunctions hrole hcall htext, hanalysis, hfinal, h.finalText, Option.getD_some]
  constructor
  · rintro (⟨hpiece, -⟩ | ⟨-, hpiece⟩)
    · by_contra hne
      have hlt := Lines.length_join_lt_append [msg.text] reasoningTexts_ne_nil hne
      rw [Lines.join_singleton] at hlt
      exact absurd hpiece.length_le (Nat.not_le_of_lt hlt)
    · exact absurd hpiece (not_isInfix_flatten _ htext)
  · intro hnil
    rw [hnil, nil_append, Lines.join_singleton]
    exact .inl ⟨infix_rfl, infix_rfl⟩

/-- It is added to the final text. -/
theorem keepsText_final (hanalysis : o.analysis = c.analysis) (hfinal : o.finalText = c.finalText ++ msg.text) :
    KeepsText messages [msg] o ↔ ReplacesNothing messages := by
  rw [keepsText_plain h hfunctions hrole hcall htext, hanalysis, hfinal, h.analysis, getD_joined, h.finalText,
    ← h.isInfix_join_iff]
  constructor
  · rintro (⟨hpiece, -⟩ | ⟨hpiece, -⟩)
    · exact absurd hpiece (h.not_isInfix_join htext)
    · exact hpiece
  · intro hpiece
    have hflat : (finalTexts messages ++ [msg.text]).flatten = (finalTexts messages).flatten ++ msg.text := by
      rw [flatten_append, flatten_singleton]
    exact .inr ⟨hpiece, hflat ▸ infix_rfl⟩

/-- It goes nowhere. -/
theorem not_keepsText_dropped (hanalysis : o.analysis = c.analysis) (hfinal : o.finalText = c.finalText) :
    ¬ KeepsText messages [msg] o := by
  rw [keepsText_plain h hfunctions hrole hcall htext, hanalysis, hfinal, h.analysis, getD_joined, h.finalText]
  rintro (⟨hpiece, -⟩ | ⟨-, hpiece⟩)
  · exact h.not_isInfix_join htext hpiece
  · exact not_isInfix_flatten _ htext hpiece

end Plain

/-- **What is open**, at the end of `parse_complete`. -/
theorem Channels.Holds.keepsText_handled_iff {σ : Type} (h : Holds messages overwritten kept c)
    (p : ContentParser σ) (s : σ) :
    KeepsText messages (openMessage p s)
        ((handleIncompleteContent p s c).output finishReason matchedStop count) ↔
      LosesNothing messages (openMessage p s) := by
  unfold openMessage handleIncompleteContent
  cases p.currentContent s with
  | error e => exact h.keepsText_nil
  | ok content =>
    dsimp only
    by_cases hempty : content = []
    · rw [if_pos hempty, if_pos hempty]
      exact h.keepsText_nil
    rw [if_neg hempty, if_neg hempty]
    generalize hmsg : ChatMessage.mk .assistant (p.currentChannel s) (p.currentRecipient s) [.text content] =
      msg
    have hrole : msg.role = .assistant := by rw [← hmsg]
    obtain ⟨hchannel, htext⟩ : msg.channel = p.currentChannel s ∧ msg.text = content := by
      rw [← hmsg]
      exact ⟨rfl, append_nil content⟩
    rw [← htext] at hempty ⊢
    rw [← hchannel]
    rw [losesNothing_singleton]
    cases hcall : msg.calledName with
    | some name =>
      refine iff_of_false (h.not_keepsText_call ?_ ?_) fun h' => by cases h'.2.1
      · split
        · rfl
        · split <;> rfl
      · rw [ChatMessage.place, if_neg (not_not.mpr hrole), hcall, ← hmsg]
        exact cons_ne_nil _ _
    | none =>
      split
      · next hanalysis =>
        rw [keepsText_analysis h rfl hrole hcall hempty rfl rfl]
        refine ⟨fun hnil => ⟨replacesNothing_of_nil hnil, rfl, .inl ⟨hanalysis, hnil⟩⟩, ?_⟩
        rintro ⟨-, -, ⟨-, hnil⟩ | hchannel | hchannel⟩
        · exact hnil
        · exact absurd (hanalysis.symm.trans hchannel) (by decide)
        · exact absurd (hanalysis.symm.trans hchannel) (by decide)
      · next hanalysis =>
        split
        · next hfinal =>
          rw [keepsText_final h rfl hrole hcall hempty rfl rfl]
          exact ⟨fun hr => ⟨hr, rfl, .inr hfinal⟩, And.left⟩
        · next hfinal =>
          refine iff_of_false (not_keepsText_dropped h rfl hrole hcall hempty rfl rfl) ?_
          rintro ⟨-, -, ⟨hchannel, -⟩ | hchannel⟩
          · exact hanalysis hchannel
          · exact hfinal hchannel

end Opened

/-! ### Whole answers -/

/-- **Texts are kept** by `parse_complete` exactly if no reasoning is replaced and what is open has its
place. -/
theorem keepsText_iff {σ : Type} (p : ContentParser σ) (uuid : Nat → Str) (a : HarmonyParserAdapter σ)
    (outputIds : List Nat) (finishReason : Str) (matchedStop : Option Value) (s : σ) (count : Nat)
    (hread : outputIds.foldlM (completeToken p) (a.parser, 0) = .ok (s, count)) :
    ∃ o, parseComplete p uuid a outputIds finishReason matchedStop = .ok o ∧
      (KeepsText (p.chatMessages s) (openMessage p s) o ↔
        LosesNothing (p.chatMessages s) (openMessage p s)) := by
  obtain ⟨overwritten, kept, hholds⟩ := holds_parseMessages uuid a.generated (p.chatMessages s)
  rw [parseComplete, hread]
  exact ⟨_, rfl, hholds.keepsText_handled_iff p s⟩

/-! ### Two thoughts -/

/-- A parser whose tokens are whole messages: token `n` begins the message after the first `n`. -/
def scriptedParser (script : List ChatMessage) : ContentParser Nat where
  process _ token := .ok token
  currentChannel n := (script.drop n).head?.bind ChatMessage.channel
  currentRecipient n := (script.drop n).head?.bind ChatMessage.recipient
  lastContentDelta _ := .ok none
  chatMessages n := script.take n
  messages n := (script.take n).map ChatMessage.kept
  currentContent n := .ok (((script.drop n).head?.map ChatMessage.text).getD [])
  messages_eq _ := rfl

def assistantMessage (channel text : String) : ChatMessage :=
  ⟨.assistant, some channel.toList, none, [.text text.toList]⟩

theorem keepsText_answer :
    ∃ o, parseComplete (scriptedParser [assistantMessage "analysis" "a", assistantMessage "final" "b"])
        (fun _ => []) { parser := 0 } [0, 1] "stop".toList none = .ok o ∧
      KeepsText [assistantMessage "analysis" "a"] [assistantMessage "final" "b"] o := by
  obtain ⟨o, hcomplete, hkeeps⟩ := keepsText_iff
    (scriptedParser [assistantMessage "analysis" "a", assistantMessage "final" "b"]) (fun _ => [])
    { parser := 0 } [0, 1] "stop".toList none 1 1 rfl
  refine ⟨o, hcomplete, hkeeps.mpr ⟨?_, ?_⟩⟩
  · change ReplacesNothing ([] ++ [_])
    exact replacesNothing_snoc.mpr ⟨replacesNothing_of_nil rfl, fun _ => rfl⟩
  · intro msg hmem
    obtain rfl := List.mem_singleton.mp hmem
    exact ⟨rfl, .inr (.inl rfl)⟩

/-- Of two messages of the analysis channel the second is left, whether it is finished or not. -/
theorem first_thought_lost :
    (∃ o, parseComplete (scriptedParser [assistantMessage "analysis" "a", assistantMessage "analysis" "b"])
        (fun _ => []) { parser := 0 } [0, 1, 2] "stop".toList none = .ok o ∧ o.analysis = some ['b'] ∧
      ¬ KeepsText [assistantMessage "analysis" "a", assistantMessage "analysis" "b"] [] o) ∧
    ∃ o, parseComplete (scriptedParser [assistantMessage "analysis" "a", assistantMessage "analysis" "b"])
        (fun _ => []) { parser := 0 } [0, 1] "length".toList none = .ok o ∧ o.analysis = some ['b'] ∧
      ¬ KeepsText [assistantMessage "analysis" "a"] [assistantMessage "analysis" "b"] o := by
  refine ⟨⟨_, rfl, rfl, ?_⟩, _, rfl, rfl, ?_⟩
  · rintro ⟨-, reasoning, finals, hsplit, hpiece, -⟩
    obtain ⟨rfl, rfl⟩ := List.append_eq_nil_iff.mp hsplit
    exact absurd hpiece.length_le (by decide)
  · rintro ⟨-, reasoning, finals, hsplit, hanalysis, hfinal⟩
    rcases List.append_eq_singleton_iff.mp hsplit with ⟨rfl, rfl⟩ | ⟨rfl, rfl⟩
    · exact absurd hfinal.length_le (by decide)
    · exact absurd hanalysis.length_le (by decide)

end QwenStack.Harmony
