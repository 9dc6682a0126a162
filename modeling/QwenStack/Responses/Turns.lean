import QwenStack.Responses.ToolLoop
import QwenStack.Support.Until

/-!
# Tool calls of a streamed response — the turns of the loops

What a turn of a loop can come to, said once (`Interception.Turned`, `ToolLoop.Turned`), so that what a run
keeps is shown turn by turn: the runs are loops that end by themselves (`Until`).  The stream of a turn is
left for tools only if there are calls to make (`Stream.pendingCalls_of_detected`).
-/

namespace QwenStack.Responses
open Until

/-! ### The stream of a turn -/

namespace Stream
variable {ctx : Context} {s : Stream}

/-- One event, and whether the stream is left at it. -/
def step (ctx : Context) (s : Stream) (e : Event) : Stream × Option Unit :=
  match s.process ctx e with
  | (s, .forward) => (s.forward ctx e, none)
  | (s, .buffer) => (s, none)
  | (s, .executeTools) => (s.sendForward ctx e, some ())

theorem run_eq (ctx : Context) (s : Stream) (events : List Event) : s.run ctx events =
      ((runUntil (step ctx) s events).1, (runUntil (step ctx) s events).2.isSome) := by
  induction events generalizing s with
  | nil => rfl
  | cons e events ih =>
    rw [run, runUntil, step]
    cases s.process ctx e with
    | mk s' action =>
      cases action with
      | forward => exact ih _
      | buffer => exact ih _
      | executeTools => rfl

/-- **The rule for streams**: `P` holds while events are read, `Q` when the stream is left. -/
theorem run_rule (ctx : Context) (events : List Event) {s : Stream}
    {P : List Event → Stream → Prop} {Q : Stream → Prop}
    (hgo : ∀ past e s s', past ++ [e] <+: events → P past s → step ctx s e = (s', none) →
      P (past ++ [e]) s')
    (hleave : ∀ past e s s' u, past ++ [e] <+: events → P past s → step ctx s e = (s', some u) → Q s')
    (hs : P [] s) : match s.run ctx events with
      | (s', false) => P events s'
      | (s', true) => Q s' := by
  obtain ⟨hnone, hsome⟩ := runUntil_rule (Q := fun _ s _ => Q s) hgo hleave hs
  rw [run_eq]
  cases hrun : runUntil (step ctx) s events with
  | mk s' result =>
    cases result with
    | none => exact hnone s' hrun
    | some u =>
      obtain ⟨past, -, hQ⟩ := hsome s' u hrun
      exact hQ

end Stream

/-- Tools are called only if there are calls to make, each with a name. -/
theorem hasCompleteCalls_of_executeTools {et : EventTypes} {h : StreamingToolHandler} {e : Event}
    (haction : (h.processEvent et e).2 = .executeTools) :
    (h.processEvent et e).1.hasCompleteCalls = true := by
  have hdone : ∀ h : StreamingToolHandler, h.actionOfDone = .executeTools →
      h.hasCompleteCalls = true := by
    intro h hh
    rw [StreamingToolHandler.actionOfDone] at hh
    split at hh
    · next hcomplete => exact hcomplete
    · cases hh
  rw [StreamingToolHandler.processEvent] at haction ⊢
  split at haction
  · cases haction
  · dsimp only at haction ⊢
    split at haction
    · cases haction
    split at haction
    · cases haction
    split at haction
    · next hcreated hcompleted hadded =>
      rw [StreamingToolHandler.handleOutputItemAdded] at haction
      split at haction
      · cases haction
      · split at haction
        · cases haction
        · split at haction
          · cases haction
          · split at haction <;> cases haction
    split at haction
    · rw [StreamingToolHandler.handleArgumentsDelta] at haction
      split at haction
      · cases haction
      · dsimp only at haction
        split at haction <;> cases haction
    split at haction
    · next h₁ h₂ h₃ h₄ h₅ =>
      rw [if_neg h₁, if_neg h₂, if_neg h₃, if_neg h₄, if_pos h₅]
      exact hdone _ haction
    split at haction
    · rw [StreamingToolHandler.processOutputDelta] at haction
      dsimp only at haction
      split at haction
      · cases haction
      · split at haction <;> cases haction
    split at haction
    · next h₁ h₂ h₃ h₄ h₅ h₆ h₇ =>
      rw [if_neg h₁, if_neg h₂, if_neg h₃, if_neg h₄, if_neg h₅, if_neg h₆, if_pos h₇]
      exact hdone _ haction
    · cases haction

namespace Stream
variable {ctx : Context} {s : Stream}

/-- **The boundary of a stream**: it is left with calls to make, each with a name. -/
theorem hasCompleteCalls_of_detected {events : List Event} (h : (s.run ctx events).2 = true) :
    (s.run ctx events).1.loop.handler.hasCompleteCalls = true := by
  induction events generalizing s with
  | nil => cases h
  | cons e events ih =>
    rw [run] at h ⊢
    cases hprocess : s.process ctx e with
    | mk s' action =>
      rw [hprocess] at h
      cases action with
      | forward => exact ih h
      | buffer => exact ih h
      | executeTools =>
        have haction : (s.loop.handler.processEvent ctx.types.toEventTypes e).2 = .executeTools :=
          congrArg Prod.snd hprocess
        have hhandler : s'.loop.handler =
            (s.loop.handler.processEvent ctx.types.toEventTypes e).1 :=
          congrArg (fun r => r.1.loop.handler) hprocess.symm
        exact (congrArg StreamingToolHandler.hasCompleteCalls hhandler).trans
          (hasCompleteCalls_of_executeTools haction)

theorem pendingCalls_of_detected {events : List Event} (h : (s.run ctx events).2 = true) :
    (s.run ctx events).1.loop.handler.pendingCalls ≠ [] := by
  have hcomplete := hasCompleteCalls_of_detected h
  rw [StreamingToolHandler.hasCompleteCalls, Bool.and_eq_true] at hcomplete
  exact of_decide_eq_true hcomplete.1

end Stream

/-! ### The streaming loop -/

namespace Interception
variable {ctx : Context} {basePayload : Value} {s : Interception}

/-! #### The calls of an iteration -/

section Calls
variable (ctx : Context) (s : Interception) (iteration : Nat) (calls : List ToolCall)

/-- A field that no call changes. -/
theorem callTools_same {α : Type*} (field : Interception → α)
    (hfield : ∀ s t, field (callTool ctx iteration s t) = field s) :
    field (s.callTools ctx iteration calls) = field s := by
  induction calls generalizing s with
  | nil => rfl
  | cons t calls ih => exact (ih (callTool ctx iteration s t)).trans (hfield s t)

@[simp] theorem callTools_requests : (s.callTools ctx iteration calls).requests = s.requests :=
  callTools_same ctx s iteration calls requests fun _ _ => rfl

@[simp] theorem callTools_recorded : (s.callTools ctx iteration calls).recorded = s.recorded :=
  callTools_same ctx s iteration calls recorded fun _ _ => rfl

@[simp] theorem callTools_persisted : (s.callTools ctx iteration calls).persisted = s.persisted :=
  callTools_same ctx s iteration calls persisted fun _ _ => rfl

@[simp] theorem callTools_totalCalls :
    (s.callTools ctx iteration calls).state.totalCalls = s.state.totalCalls :=
  callTools_same ctx s iteration calls (·.state.totalCalls) fun _ _ => rfl

@[simp] theorem length_callTools : (s.callTools ctx iteration calls).state.invocations.length =
    s.state.invocations.length + calls.length := by
  induction calls generalizing s with
  | nil => rfl
  | cons t calls ih =>
    have hone : (callTool ctx iteration s t).state.invocations.length =
        s.state.invocations.length + 1 := List.length_append
    rw [callTools, List.foldl_cons, ← callTools, ih, hone, List.length_cons, Nat.add_assoc,
      Nat.add_comm 1]

end Calls

@[simp] theorem complete_state (stream : Stream) : (s.complete ctx stream).state = s.state := by
  rw [complete]
  split <;> rfl

@[simp] theorem complete_requests (stream : Stream) :
    (s.complete ctx stream).requests = s.requests := by
  rw [complete]
  split <;> rfl

@[simp] theorem complete_recorded (stream : Stream) :
    (s.complete ctx stream).recorded = s.recorded ++ [true] := by
  rw [complete]
  split <;> rfl

/-- The run after the calls of an iteration. -/
def called (ctx : Context) (s : Interception) (stream : Stream) : Interception :=
  ((s.send.keep stream).count stream.loop.handler.pendingCalls.length).callTools ctx s.state.iteration
    (executeStreamingToolCalls stream.loop.handler.pendingCalls)

/-- What a turn can come to. -/
inductive Turned (ctx : Context) (basePayload : Value) (s : Interception) :
    Answer → Interception × Bool → Prop where
  | failed {answer : Answer} (message : Str)
      (hanswer : (∃ e, answer = .unreachable e) ∨ ∃ status body, answer = .refused status body) :
      Turned ctx basePayload s answer (s.send.fail message)
  | exceeded {events : List Event} {error : Option Str} {stream : Stream}
      (hrun : s.send.start.run ctx events = (stream, true))
      (hlimit : ctx.effectiveLimit < s.state.totalCalls + stream.loop.handler.pendingCalls.length) :
      Turned ctx basePayload s (.stream events error)
        (((s.send.keep stream).count stream.loop.handler.pendingCalls.length).stop
          "Exceeded max_tool_calls limit".toList)
  | unresumed {events : List Event} {error : Option Str} {stream : Stream} {message : Str}
      (hrun : s.send.start.run ctx events = (stream, true))
      (hlimit : s.state.totalCalls + stream.loop.handler.pendingCalls.length ≤ ctx.effectiveLimit)
      (hresume : buildResumePayload basePayload (called ctx s stream).state.conversationHistory
        ctx.request.input (toolsOf basePayload) true = .error message) :
      Turned ctx basePayload s (.stream events error)
        ((called ctx s stream).stop ("Failed to build resume payload: ".toList ++ message))
  | resumed {events : List Event} {error : Option Str} {stream : Stream} {payload : Value}
      (hrun : s.send.start.run ctx events = (stream, true))
      (hlimit : s.state.totalCalls + stream.loop.handler.pendingCalls.length ≤ ctx.effectiveLimit)
      (hresume : buildResumePayload basePayload (called ctx s stream).state.conversationHistory
        ctx.request.input (toolsOf basePayload) true = .ok payload) :
      Turned ctx basePayload s (.stream events error)
        ({ called ctx s stream with currentPayload := payload, isFirstIteration := false }, true)
  | broken {events : List Event} {stream : Stream} {error : Str}
      (hrun : s.send.start.run ctx events = (stream, false)) :
      Turned ctx basePayload s (.stream events (some error))
        ((s.send.keep stream).fail ("Stream error: ".toList ++ error))
  | completed {events : List Event} {stream : Stream}
      (hrun : s.send.start.run ctx events = (stream, false)) :
      Turned ctx basePayload s (.stream events none) ((s.send.keep stream).complete ctx stream, false)

/-- **The turns.** -/
theorem turned (ctx : Context) (basePayload : Value) (s : Interception) (answer : Answer) :
    Turned ctx basePayload s answer (s.turn ctx basePayload answer) := by
  cases answer with
  | unreachable e => exact .failed _ (.inl ⟨e, rfl⟩)
  | refused status body => exact .failed _ (.inr ⟨status, body, rfl⟩)
  | stream events error =>
    rw [turn]
    cases hrun : s.send.start.run ctx events with
    | mk stream detected =>
      dsimp only
      unfold leave
      cases detected with
      | true =>
        rw [if_pos rfl, executeTools]
        split
        · next hlimit => exact .exceeded hrun hlimit
        · next hlimit =>
          rw [resume]
          split
          · next payload hresume => exact .resumed hrun (Nat.le_of_not_lt hlimit) hresume
          · next message hresume => exact .unresumed hrun (Nat.le_of_not_lt hlimit) hresume
      | false =>
        rw [if_neg Bool.false_ne_true]
        cases error with
        | some e => exact .broken hrun
        | none => exact .completed hrun

/-- A turn, and whether the loop ends with it. -/
def step (ctx : Context) (basePayload : Value) (s : Interception) (answer : Answer) :
    Interception × Option Unit :=
  ((s.turn ctx basePayload answer).1, if (s.turn ctx basePayload answer).2 = true then none else some ())

theorem run_eq (ctx : Context) (basePayload : Value) (s : Interception) (answers : List Answer) :
    s.run ctx basePayload answers = ((runUntil (step ctx basePayload) s answers).1,
        (runUntil (step ctx basePayload) s answers).2.isNone) := by
  induction answers generalizing s with
  | nil => rfl
  | cons answer answers ih =>
    rw [run, runUntil, step]
    cases s.turn ctx basePayload answer with
    | mk s' goesOn =>
      cases goesOn with
      | true => exact ih s'
      | false => rfl

theorem turn_of_step {s s' : Interception} {answer : Answer} {result : Option Unit}
    (h : step ctx basePayload s answer = (s', result)) :
    s.turn ctx basePayload answer = (s', result.isNone) := by
  cases h
  cases hturn : s.turn ctx basePayload answer with
  | mk s' goesOn => cases goesOn <;> rfl

/-- A turn of the loop that ends by itself is one of the loop. -/
theorem turned_of_step {s s' : Interception} {answer : Answer} {result : Option Unit}
    (h : step ctx basePayload s answer = (s', result)) :
    Turned ctx basePayload s answer (s', result.isNone) :=
  turn_of_step h ▸ turned ctx basePayload s answer

/-- A run that ended did so with one of the answers, and went on until then. -/
theorem run_last {s s' : Interception} {answers : List Answer}
    (h : s.run ctx basePayload answers = (s', false)) :
    ∃ past answer s'', past ++ [answer] <+: answers ∧
      s.run ctx basePayload past = (s'', true) ∧
      s.run ctx basePayload (past ++ [answer]) = (s', false) ∧
      Turned ctx basePayload s'' answer (s', false) := by
  rw [run_eq] at h
  cases hrun : runUntil (step ctx basePayload) s answers with
  | mk s₁ result =>
    rw [hrun] at h
    obtain rfl : s₁ = s' := congrArg Prod.fst h
    cases result with
    | none => cases congrArg Prod.snd h
    | some u =>
      obtain ⟨past, answer, s'', hle, hpast, hstep⟩ := runUntil_last hrun
      refine ⟨past, answer, s'', hle, ?_, ?_, turned_of_step hstep⟩
      · rw [run_eq, hpast]
        rfl
      · rw [run_eq, runUntil_append_some hpast hstep]
        rfl

/-- **The rule for runs**: `P` holds while the loop goes on, `Q` when it ends. -/
theorem run_rule (ctx : Context) (basePayload : Value) (answers : List Answer)
    {s : Interception} {P : List Answer → Interception → Prop}
    {Q : Interception → Prop}
    (hgo : ∀ past answer s s', past ++ [answer] <+: answers → P past s →
      Turned ctx basePayload s answer (s', true) → P (past ++ [answer]) s')
    (hend : ∀ past answer s s', past ++ [answer] <+: answers → P past s →
      Turned ctx basePayload s answer (s', false) → Q s')
    (hs : P [] s) : match s.run ctx basePayload answers with
      | (s', true) => P answers s'
      | (s', false) => Q s' := by
  obtain ⟨hnone, hsome⟩ := runUntil_rule (Q := fun _ s _ => Q s) (l := answers)
    (fun past answer s s' hle hP h => hgo past answer s s' hle hP (turned_of_step h))
    (fun past answer s s' _ hle hP h => hend past answer s s' hle hP (turned_of_step h)) hs
  rw [run_eq]
  cases hrun : runUntil (step ctx basePayload) s answers with
  | mk s' result =>
    cases result with
    | none => exact hnone s' hrun
    | some u =>
      obtain ⟨past, -, hQ⟩ := hsome s' u hrun
      exact hQ

/-- The rule for whole runs: what holds at an end also holds where the answers stop. -/
theorem runFrom_rule (ctx : Context) (payload : Value) (answers : List Answer)
    {P : List Answer → Interception → Prop} {Q : Interception → Prop}
    (hgo : ∀ past answer s s', past ++ [answer] <+: answers → P past s →
      Turned ctx payload s answer (s', true) → P (past ++ [answer]) s')
    (hend : ∀ past answer s s', past ++ [answer] <+: answers → P past s →
      Turned ctx payload s answer (s', false) → Q s')
    (hs : P [] { currentPayload := payload }) (hstop : ∀ s, P answers s → Q s) :
    Q (runFrom ctx payload answers).1 ∧
      ((runFrom ctx payload answers).2 = true → P answers (runFrom ctx payload answers).1) := by
  have hrun := run_rule ctx payload answers hgo hend hs
  rw [runFrom]
  split at hrun
  · next s' heq =>
    rw [heq]
    exact ⟨hstop s' hrun, fun _ => hrun⟩
  · next s' heq =>
    rw [heq]
    exact ⟨hrun, Bool.noConfusion⟩

end Interception

/-! ### The loop without a stream -/

namespace ToolLoop
variable {ctx : Context} {basePayload : Value} {s : ToolLoop}

/-- The loop after a call. -/
def called (ctx : Context) (s : ToolLoop) (callId name args : Str) : ToolLoop :=
  let output := output (ctx.callTool s.state.invocations.length name args)
  { s with
    requests := s.requests ++ [s.currentPayload]
    state := { s.state with
      iteration := s.state.iteration + 1
      totalCalls := s.state.totalCalls + 1 }.recordCall ctx.types ⟨callId, name, args, args, output⟩ }

/-- What a turn can come to. -/
inductive Turned (ctx : Context) (basePayload : Value) (s : ToolLoop) :
    Reply → ToolLoop × Option (Except Str Value) → Prop where
  | failed {reply : Reply} (message : Str) (hreply : ∀ response, reply ≠ .json response) :
      Turned ctx basePayload s reply
        ({ s with requests := s.requests ++ [s.currentPayload] }, some (.error message))
  | exceeded {response : Value} {callId name args : Str} (result : Except Str Value)
      (hcall : extractFunctionCall ctx.types response = some (callId, name, args))
      (hlimit : ctx.effectiveLimit < s.state.totalCalls + 1) :
      Turned ctx basePayload s (.json response)
        ({ s with
          requests := s.requests ++ [s.currentPayload]
          state := { s.state with
            iteration := s.state.iteration + 1
            totalCalls := s.state.totalCalls + 1 } }, some result)
  | unresumed {response : Value} {callId name args message : Str}
      (hcall : extractFunctionCall ctx.types response = some (callId, name, args))
      (hlimit : s.state.totalCalls + 1 ≤ ctx.effectiveLimit)
      (hresume : buildResumePayload basePayload (called ctx s callId name args).state.conversationHistory
        ctx.request.input (toolsOf basePayload) false = .error message) :
      Turned ctx basePayload s (.json response)
        (called ctx s callId name args, some (.error message))
  | resumed {response payload : Value} {callId name args : Str}
      (hcall : extractFunctionCall ctx.types response = some (callId, name, args))
      (hlimit : s.state.totalCalls + 1 ≤ ctx.effectiveLimit)
      (hresume : buildResumePayload basePayload (called ctx s callId name args).state.conversationHistory
        ctx.request.input (toolsOf basePayload) false = .ok payload) :
      Turned ctx basePayload s (.json response)
        ({ called ctx s callId name args with currentPayload := payload }, none)
  | completed {response : Value} (result : Value)
      (hcall : extractFunctionCall ctx.types response = none) :
      Turned ctx basePayload s (.json response)
        ({ s with requests := s.requests ++ [s.currentPayload] }, some (.ok result))

/-- **The turns.** -/
theorem turned (ctx : Context) (basePayload : Value) (s : ToolLoop) (reply : Reply) :
    Turned ctx basePayload s reply (s.turn ctx basePayload reply) := by
  cases reply with
  | unreachable e => exact .failed _ fun _ h => by cases h
  | refused status body => exact .failed _ fun _ h => by cases h
  | broken e => exact .failed _ fun _ h => by cases h
  | notJson e => exact .failed _ fun _ h => by cases h
  | json response =>
    rw [turn]
    dsimp only
    split
    · next callId name args hcall =>
      split
      · next hlimit => exact .exceeded _ hcall hlimit
      · next hlimit =>
        have hlimit := Nat.le_of_not_lt hlimit
        split
        · next payload hresume => exact .resumed hcall hlimit hresume
        · next message hresume => exact .unresumed hcall hlimit hresume
    · next hcall => exact .completed _ hcall

theorem run_eq (ctx : Context) (basePayload : Value) (s : ToolLoop) (replies : List Reply) :
    s.run ctx basePayload replies = runUntil (turn ctx · basePayload) s replies := by
  induction replies generalizing s with
  | nil => rfl
  | cons reply replies ih =>
    rw [run, runUntil]
    cases s.turn ctx basePayload reply with
    | mk s' result =>
      cases result with
      | none => exact ih s'
      | some result => rfl

/-- A run that returned did so with one of the replies, and went on until then. -/
theorem run_last {s s' : ToolLoop} {replies : List Reply} {result : Except Str Value}
    (h : s.run ctx basePayload replies = (s', some result)) :
    ∃ past reply s'', past ++ [reply] <+: replies ∧
      s.run ctx basePayload past = (s'', none) ∧
      s.run ctx basePayload (past ++ [reply]) = (s', some result) ∧
      Turned ctx basePayload s'' reply (s', some result) := by
  rw [run_eq] at h
  obtain ⟨past, reply, s'', hle, hpast, hstep⟩ := runUntil_last h
  refine ⟨past, reply, s'', hle, (run_eq ..).trans hpast,
    (run_eq ..).trans (runUntil_append_some hpast hstep), ?_⟩
  exact hstep ▸ turned ctx basePayload s'' reply

/-- **The rule for runs**: `P` holds while the loop goes on, `Q` when it returns. -/
theorem run_rule (ctx : Context) (basePayload : Value) (replies : List Reply) {s : ToolLoop}
    {P : List Reply → ToolLoop → Prop} {Q : ToolLoop → Prop}
    (hgo : ∀ past reply s s', past ++ [reply] <+: replies → P past s →
      Turned ctx basePayload s reply (s', none) → P (past ++ [reply]) s')
    (hend : ∀ past reply s s' result, past ++ [reply] <+: replies → P past s →
      Turned ctx basePayload s reply (s', some result) → Q s')
    (hs : P [] s) : match s.run ctx basePayload replies with
      | (s', none) => P replies s'
      | (s', some _) => Q s' := by
  have hstep : ∀ {s s' : ToolLoop} {reply : Reply} {result : Option (Except Str Value)},
      s.turn ctx basePayload reply = (s', result) → Turned ctx basePayload s reply (s', result) :=
    fun {s _ reply _} h => h ▸ turned ctx basePayload s reply
  obtain ⟨hnone, hsome⟩ := @runUntil_rule _ _ _ (turn ctx · basePayload) P (fun _ s _ => Q s) s replies
    (fun past reply s s' hle hP h => hgo past reply s s' hle hP (hstep h))
    (fun past reply s s' result hle hP h => hend past reply s s' result hle hP (hstep h)) hs
  rw [run_eq]
  cases hrun : runUntil (turn ctx · basePayload) s replies with
  | mk s' result =>
    cases result with
    | none => exact hnone s' hrun
    | some result =>
      obtain ⟨past, -, hQ⟩ := hsome s' result hrun
      exact hQ

theorem runFrom_rule (ctx : Context) (payload : Value) (replies : List Reply)
    {P : List Reply → ToolLoop → Prop} {Q : ToolLoop → Prop}
    (hgo : ∀ past reply s s', past ++ [reply] <+: replies → P past s →
      Turned ctx payload s reply (s', none) → P (past ++ [reply]) s')
    (hend : ∀ past reply s s' result, past ++ [reply] <+: replies → P past s →
      Turned ctx payload s reply (s', some result) → Q s')
    (hs : P [] { currentPayload := payload }) (hstop : ∀ s, P replies s → Q s) :
    Q (runFrom ctx payload replies).1 ∧
      ((runFrom ctx payload replies).2 = none → P replies (runFrom ctx payload replies).1) := by
  have hrun := run_rule ctx payload replies hgo hend hs
  rw [runFrom]
  split at hrun
  · next s' heq =>
    rw [heq]
    exact ⟨hstop s' hrun, fun _ => hrun⟩
  · next s' result heq =>
    rw [heq]
    exact ⟨hrun, fun h => absurd h (Option.some_ne_none _)⟩

end ToolLoop

end QwenStack.Responses
