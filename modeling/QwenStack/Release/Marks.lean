import QwenStack.Grpc.Numbering
import QwenStack.Release.Definitions

/-!
# Worker streams — what is marked

A stream is marked as completed only after it was read to its end, with nothing in it that was taken for an
error.  The streams of a chat and of a generation that are streamed are marked exactly if the whole request
succeeds; those that are collected, as soon as they are collected, whatever is then made of them
(`marked_iff`).
-/

namespace QwenStack.Release

open List
open Grpc (ErrorResponse)

variable {σ κ γ ρ ε : Type}

/-- Each stream of the request is marked exactly if `P`. -/
def Fates.MarkedIff (f : Fates ε ρ) (P : Prop) : Prop :=
  ∀ marked, f.prefill = some marked ∨ f.stream = some marked → (marked = true ↔ P)

/-- The request succeeds. -/
def Fates.Succeeds (f : Fates ε ρ) : Prop := succeeds f.result = true

/-- No error of the transport. -/
def Unbroken (stream : ProtoStream κ γ) : Prop := ∀ e, .error e ∉ stream

/-- No error at all. -/
def Clean (stream : ProtoStream κ γ) : Prop :=
  Unbroken stream ∧ ∀ message, .ok (.error message) ∉ stream

/-- An error of the worker comes before its first answer. -/
def FailsFirst (stream : ProtoStream κ γ) : Prop :=
  ∃ past message rest, stream = past ++ .ok (.error message) :: rest ∧
    ∀ complete, .ok (.complete complete) ∉ past

namespace Fates

theorem failed_markedIff {e : ε} {hasPrefill : Bool} {P : Prop} (h : ¬ P) :
    (failed e hasPrefill : Fates ε ρ).MarkedIff P := by
  intro marked hmarked
  have hfalse : marked = false := by
    rcases hmarked with hmarked | hmarked
    · cases hasPrefill with
      | false => cases hmarked
      | true => exact (Option.some.inj hmarked).symm
    · exact (Option.some.inj hmarked).symm
  rw [hfalse]
  exact iff_of_false Bool.noConfusion h

/-- A request that failed, and marked nothing. -/
theorem failed_markedIff_succeeds (e : ε) (hasPrefill : Bool) :
    (failed e hasPrefill : Fates ε ρ).MarkedIff (failed e hasPrefill : Fates ε ρ).Succeeds :=
  failed_markedIff fun h => by cases h

/-- Both are marked. -/
theorem markedIff_of_both {f : Fates ε ρ} {P : Prop} (hprefill : ∀ marked, f.prefill = some marked → marked = true)
    (hstream : f.stream = some true) (h : P) : f.MarkedIff P := by
  rintro marked (hmarked | hmarked)
  · exact iff_of_true (hprefill marked hmarked) h
  · rw [hstream] at hmarked
    exact iff_of_true (Option.some.inj hmarked).symm h

end Fates

/-! ### Streamed chats and generations -/

/-- A stream is marked when all is done. -/
theorem process_markedIff (P : Processor σ κ γ ρ) (texts : Texts) (stream : ProtoStream κ γ) :
    (P.process texts stream).MarkedIff (P.process texts stream).Succeeds := by
  unfold Processor.process
  cases P.readStream texts stream with
  | error e => exact Fates.failed_markedIff_succeeds e false
  | ok s =>
    dsimp only
    cases P.conclude s with
    | error e => exact Fates.failed_markedIff_succeeds e false
    | ok r => exact Fates.markedIff_of_both (fun _ h => by cases h) rfl rfl

/-- The prefill stream follows the other. -/
theorem withPrefill_markedIff {f : Fates Str ρ} (h : f.MarkedIff f.Succeeds) :
    f.withPrefill.MarkedIff f.withPrefill.Succeeds := by
  rintro marked (hmarked | hmarked)
  · cases hmarked
    exact Iff.rfl
  · exact h marked (.inr hmarked)

/-- An error that comes first is reported. -/
theorem awaitPrefill_failsFirst {prefill : ProtoStream κ γ} (h : FailsFirst prefill) :
    ∃ e, awaitPrefill prefill = .error e := by
  obtain ⟨past, message, rest, rfl, hpast⟩ := h
  induction past with
  | nil => exact ⟨_, rfl⟩
  | cons item past ih =>
    have hrest := ih fun complete hmem => hpast complete (mem_cons_of_mem item hmem)
    rcases item with e | _ | complete | message' | _
    · exact ⟨_, rfl⟩
    · exact hrest
    · exact absurd (mem_cons_self ..) (hpast complete)
    · exact ⟨_, rfl⟩
    · exact hrest

theorem inputLogprobs_failsFirst {prefill : ProtoStream κ γ} (h : FailsFirst prefill) :
    ∃ e, inputLogprobs true prefill = .error e :=
  awaitPrefill_failsFirst h

/-- **A chat.** -/
theorem processStreamingResponse_markedIff (logprobs : Bool) (P : Processor σ κ γ ρ)
    (result : ExecutionResult κ γ) :
    (processStreamingResponse logprobs P result).MarkedIff
      (processStreamingResponse logprobs P result).Succeeds := by
  cases result with
  | single stream => exact process_markedIff P regularTexts stream
  | dual prefill decode =>
    unfold processStreamingResponse processDualStreamingChunks
    dsimp only
    cases inputLogprobs logprobs prefill with
    | error e => exact Fates.failed_markedIff_succeeds e true
    | ok complete => exact withPrefill_markedIff (process_markedIff P regularTexts decode)
  | embedding =>
    rintro marked (hmarked | hmarked)
    · cases hmarked
    · cases hmarked

/-- **A generation.** -/
theorem processStreamingGenerate_markedIff (returnLogprob : Bool) (P : Processor σ κ γ ρ)
    (dualP : Option γ → Processor σ κ γ ρ) (result : ExecutionResult κ γ) :
    (processStreamingGenerate returnLogprob P dualP result).MarkedIff
      (processStreamingGenerate returnLogprob P dualP result).Succeeds := by
  cases result with
  | single stream => exact process_markedIff P regularTexts stream
  | dual prefill decode =>
    unfold processStreamingGenerate processGenerateStreamingDual
    dsimp only
    cases inputLogprobs returnLogprob prefill with
    | error e => exact Fates.failed_markedIff_succeeds e true
    | ok complete => exact withPrefill_markedIff (process_markedIff (dualP complete) regularTexts decode)
  | embedding =>
    rintro marked (hmarked | hmarked)
    · cases hmarked
    · cases hmarked

/-- An error of the prefill stream that comes first ends the request, if the stream is read. -/
theorem prefill_failsFirst (P : Processor σ κ γ ρ) (dualP : Option γ → Processor σ κ γ ρ)
    {prefill : ProtoStream κ γ} (h : FailsFirst prefill) (decode : ProtoStream κ γ) :
    ¬ (processStreamingResponse true P (.dual prefill decode)).Succeeds ∧
      ¬ (processStreamingGenerate true P dualP (.dual prefill decode)).Succeeds := by
  obtain ⟨e, he⟩ := inputLogprobs_failsFirst h
  unfold processStreamingResponse processDualStreamingChunks processStreamingGenerate
    processGenerateStreamingDual
  dsimp only
  rw [he]
  exact ⟨fun h => (by cases h), fun h => by cases h⟩

/-! ### Harmony models -/

/-- What is read of a prefill stream, if the transport does not fail. -/
theorem prefillCompletes_ok_iff (prefill : ProtoStream κ γ) :
    (∃ completes, prefillCompletes prefill = .ok completes) ↔ Unbroken prefill := by
  induction prefill with
  | nil => exact iff_of_true ⟨[], rfl⟩ fun e he => absurd he not_mem_nil
  | cons item rest ih =>
    have hrest : ∀ v, Unbroken (.ok v :: rest) ↔ Unbroken rest := by
      intro v
      unfold Unbroken
      simp
    rcases item with e | _ | complete | message | _
    · exact iff_of_false (fun ⟨completes, h⟩ => by cases h) fun h => h e (mem_cons_self ..)
    · exact ih.trans (hrest _).symm
    · rw [hrest, ← ih, prefillCompletes]
      cases prefillCompletes rest with
      | error e => exact iff_of_false (fun ⟨completes, h⟩ => by cases h) fun ⟨completes, h⟩ => by cases h
      | ok completes => exact iff_of_true ⟨_, rfl⟩ ⟨_, rfl⟩
    · exact ih.trans (hrest _).symm
    · exact ih.trans (hrest _).symm

/-- **A chat of a Harmony model with one stream.** -/
theorem processSingleStream_markedIff (P : Processor σ κ γ ρ) (stream : ProtoStream κ γ) :
    (processSingleStream P stream).MarkedIff (processSingleStream P stream).Succeeds :=
  process_markedIff P _ stream

/-- **With two**: they are marked together, when the decode stream was read. -/
theorem processDualStream_marked (P : List γ → Processor σ κ γ ρ) (prefill decode : ProtoStream κ γ) :
    (processDualStream P prefill decode).prefill = (processDualStream P prefill decode).stream ∧
    ((processDualStream P prefill decode).stream = some true →
      Unbroken prefill ∧ ∃ completes s, (P completes).readStream decodeTexts decode = .ok s) ∧
    ((processDualStream P prefill decode).Succeeds →
      (processDualStream P prefill decode).stream = some true) := by
  have hprefill := prefillCompletes_ok_iff prefill
  unfold processDualStream
  cases hcompletes : prefillCompletes prefill with
  | error e => exact ⟨rfl, fun h => (by cases h), fun h => by cases h⟩
  | ok completes =>
    dsimp only
    cases hread : (P completes).readStream decodeTexts decode with
    | error e => exact ⟨rfl, fun h => (by cases h), fun h => by cases h⟩
    | ok s => exact ⟨rfl, fun _ => ⟨hprefill.mp ⟨completes, hcompletes⟩, completes, s, hread⟩, fun _ => rfl⟩

/-- **A response of a Harmony model**: its stream is marked when it was read. -/
theorem processDecodeStream_markedIff (P : Processor σ κ γ ρ) (decode : ProtoStream κ γ) :
    (processDecodeStreamWithToolLookup P decode).MarkedIff (∃ s, P.readStream decodeTexts decode = .ok s) := by
  unfold processDecodeStreamWithToolLookup
  cases P.readStream decodeTexts decode with
  | error e => exact Fates.failed_markedIff fun ⟨s, h⟩ => by cases h
  | ok s => exact Fates.markedIff_of_both (fun _ h => by cases h) rfl ⟨s, rfl⟩

theorem processDecodeStream_succeeds {P : Processor σ κ γ ρ} {decode : ProtoStream κ γ}
    (h : (processDecodeStreamWithToolLookup P decode).Succeeds) :
    ∃ s, P.readStream decodeTexts decode = .ok s := by
  unfold processDecodeStreamWithToolLookup at h
  cases hread : P.readStream decodeTexts decode with
  | error e =>
    rw [hread] at h
    cases h
  | ok s => exact ⟨s, rfl⟩

/-- **With two streams**: that of the decode. -/
theorem processResponsesDualStreamMixed_stream (P : Processor σ κ γ ρ) (prefill decode : ProtoStream κ γ) :
    ((processResponsesDualStreamMixed P prefill decode).stream = some true →
      Unbroken prefill ∧ ∃ s, P.readStream decodeTexts decode = .ok s) ∧
    ((processResponsesDualStreamMixed P prefill decode).Succeeds →
      (processResponsesDualStreamMixed P prefill decode).stream = some true) := by
  have hprefill := prefillCompletes_ok_iff prefill
  unfold processResponsesDualStreamMixed
  cases hcompletes : prefillCompletes prefill with
  | error e => exact ⟨fun h => (by cases h), fun h => by cases h⟩
  | ok completes =>
    have hmarked := processDecodeStream_markedIff P decode
    refine ⟨fun h => ⟨hprefill.mp ⟨completes, hcompletes⟩, (hmarked true (.inr h)).mp rfl⟩, fun h => ?_⟩
    obtain ⟨s, hread⟩ := processDecodeStream_succeeds h
    rw [processDecodeStreamWithToolLookup, hread]

/-! ### Requests that are not streamed -/

/-- A stream is collected unless there is an error in it. -/
theorem collectStreamResponses_ok_iff (workerName : Str) (stream : ProtoStream κ γ) :
    (∃ responses, collectStreamResponses workerName stream = .ok responses) ↔ Clean stream := by
  induction stream with
  | nil =>
    exact iff_of_true ⟨[], rfl⟩
      ⟨fun e he => absurd he not_mem_nil, fun message he => absurd he not_mem_nil⟩
  | cons item rest ih =>
    have hrest : ∀ v : Variant κ γ, (∀ message, v ≠ .error message) → (Clean (.ok v :: rest) ↔ Clean rest) := by
      intro v hv
      unfold Clean Unbroken
      simp only [mem_cons, reduceCtorEq, false_or, Except.ok.injEq, not_or]
      exact and_congr_right fun _ => forall_congr' fun message => and_iff_right (hv message).symm
    rcases item with e | _ | complete | message | _
    · exact iff_of_false (fun ⟨responses, h⟩ => by cases h) fun h => h.1 e (mem_cons_self ..)
    · exact ih.trans (hrest _ fun _ h => by cases h).symm
    · rw [hrest _ fun _ h => (by cases h), ← ih, collectStreamResponses]
      cases collectStreamResponses workerName rest with
      | error e => exact iff_of_false (fun ⟨responses, h⟩ => by cases h) fun ⟨responses, h⟩ => by cases h
      | ok responses => exact iff_of_true ⟨_, rfl⟩ ⟨_, rfl⟩
    · exact iff_of_false (fun ⟨responses, h⟩ => by cases h) fun h => h.2 message (mem_cons_self ..)
    · exact ih.trans (hrest _ fun _ h => by cases h).symm

/-- No stream of the request has an error. -/
def ExecutionResult.Clean : ExecutionResult κ γ → Prop
  | .single stream => Release.Clean stream
  | .dual prefill decode => Release.Clean prefill ∧ Release.Clean decode
  | .embedding => True

/-- The streams are marked when all of them are collected, and only then there are any answers. -/
theorem collectResponses_markedIff (merge : List γ → List γ → List γ) (result : ExecutionResult κ γ) :
    (collectResponses merge result).MarkedIff result.Clean ∧
      ((collectResponses merge result).Succeeds → result.Clean) := by
  cases result with
  | single stream =>
    have hclean := collectStreamResponses_ok_iff "Single".toList stream
    unfold collectResponses
    dsimp only
    cases hcollected : collectStreamResponses "Single".toList stream with
    | error e =>
      refine ⟨Fates.failed_markedIff fun h => ?_, fun h => by cases h⟩
      obtain ⟨responses, hok⟩ := hclean.mpr h
      rw [hcollected] at hok
      cases hok
    | ok responses =>
      have h := hclean.mp ⟨responses, hcollected⟩
      exact ⟨Fates.markedIff_of_both (fun _ hmarked => by cases hmarked) rfl h, fun _ => h⟩
  | dual prefill decode =>
    have hprefill := collectStreamResponses_ok_iff "Prefill".toList prefill
    have hdecode := collectStreamResponses_ok_iff "Decode".toList decode
    unfold collectResponses
    dsimp only
    cases hfirst : collectStreamResponses "Prefill".toList prefill with
    | error e =>
      refine ⟨Fates.failed_markedIff fun h => ?_, fun h => by cases h⟩
      obtain ⟨responses, hok⟩ := hprefill.mpr h.1
      rw [hfirst] at hok
      cases hok
    | ok prefillResponses =>
      cases hsecond : collectStreamResponses "Decode".toList decode with
      | error e =>
        refine ⟨Fates.failed_markedIff fun h => ?_, fun h => by cases h⟩
        obtain ⟨responses, hok⟩ := hdecode.mpr h.2
        rw [hsecond] at hok
        cases hok
      | ok decodeResponses =>
        have h : (ExecutionResult.dual prefill decode).Clean :=
          ⟨hprefill.mp ⟨_, hfirst⟩, hdecode.mp ⟨_, hsecond⟩⟩
        refine ⟨Fates.markedIff_of_both (fun _ hmarked => ?_) rfl h, fun _ => h⟩
        exact (Option.some.inj hmarked).symm
  | embedding =>
    refine ⟨?_, fun _ => trivial⟩
    rintro marked (hmarked | hmarked)
    · cases hmarked
    · cases hmarked

/-- **A request that is not streamed**: what is made of the answers marks nothing. -/
theorem processCollected_markedIff (merge : List γ → List γ → List γ)
    (make : List γ → Except ErrorResponse ρ) (result : ExecutionResult κ γ) :
    (processCollected merge make result).MarkedIff result.Clean ∧
      ((processCollected merge make result).Succeeds → result.Clean) := by
  obtain ⟨hmarked, hsucceeds⟩ := collectResponses_markedIff merge result
  refine ⟨hmarked, fun h => hsucceeds ?_⟩
  unfold processCollected Fates.Succeeds at h
  unfold Fates.Succeeds
  dsimp only at h
  cases hcollected : (collectResponses merge result).result with
  | error e =>
    rw [hcollected] at h
    cases h
  | ok responses => rfl

/-! ### All requests -/

/-- **When a stream is marked.**  The streams of a chat or a generation that is streamed, and the stream of a
Harmony chat that has one: exactly if the whole request succeeds.  Those that are collected: exactly if there
is no error in any of them.  The two of a Harmony chat, and the decode stream of a Harmony response: only if
the decode was read to its end. -/
theorem marked_iff {σ κ γ ρ : Type} :
    (∀ (logprobs : Bool) (P : Processor σ κ γ ρ) (result : ExecutionResult κ γ),
      (processStreamingResponse logprobs P result).MarkedIff
        (processStreamingResponse logprobs P result).Succeeds) ∧
    (∀ (returnLogprob : Bool) (P : Processor σ κ γ ρ) (dualP : Option γ → Processor σ κ γ ρ)
      (result : ExecutionResult κ γ),
      (processStreamingGenerate returnLogprob P dualP result).MarkedIff
        (processStreamingGenerate returnLogprob P dualP result).Succeeds) ∧
    (∀ (P : Processor σ κ γ ρ) (dualP : Option γ → Processor σ κ γ ρ) (prefill decode : ProtoStream κ γ),
      FailsFirst prefill →
      ¬ (processStreamingResponse true P (.dual prefill decode)).Succeeds ∧
        ¬ (processStreamingGenerate true P dualP (.dual prefill decode)).Succeeds) ∧
    (∀ (P : Processor σ κ γ ρ) (dualP : List γ → Processor σ κ γ ρ) (stream : ProtoStream κ γ),
      (processStreamingChatResponse P dualP (.single stream)).MarkedIff
        (processStreamingChatResponse P dualP (.single stream)).Succeeds) ∧
    (∀ (P : Processor σ κ γ ρ) (dualP : List γ → Processor σ κ γ ρ) (prefill decode : ProtoStream κ γ),
      let f := processStreamingChatResponse P dualP (.dual prefill decode)
      f.prefill = f.stream ∧ (f.Succeeds → f.stream = some true) ∧
        (f.stream = some true →
          Unbroken prefill ∧ ∃ completes s, (dualP completes).readStream decodeTexts decode = .ok s)) ∧
    (∀ (P : Processor σ κ γ ρ) (stream : ProtoStream κ γ),
      let f := processResponsesIterationStream P (.single stream)
      f.MarkedIff (∃ s, P.readStream decodeTexts stream = .ok s) ∧ (f.Succeeds → f.stream = some true)) ∧
    (∀ (P : Processor σ κ γ ρ) (prefill decode : ProtoStream κ γ),
      let f := processResponsesIterationStream P (.dual prefill decode)
      (f.Succeeds → f.stream = some true) ∧
        (f.stream = some true → Unbroken prefill ∧ ∃ s, P.readStream decodeTexts decode = .ok s)) ∧
    ∀ (merge : List γ → List γ → List γ) (make : List γ → Except ErrorResponse ρ)
      (result : ExecutionResult κ γ),
      (processCollected merge make result).MarkedIff result.Clean ∧
        ((processCollected merge make result).Succeeds → result.Clean) := by
  refine ⟨processStreamingResponse_markedIff, processStreamingGenerate_markedIff,
    fun P dualP prefill decode h => prefill_failsFirst P dualP h decode,
    fun P dualP stream => processSingleStream_markedIff P stream,
    fun P dualP prefill decode => ?_, fun P stream => ⟨processDecodeStream_markedIff P stream, fun h => ?_⟩,
    fun P prefill decode => ?_, processCollected_markedIff⟩
  · obtain ⟨htogether, hmarked, hsucceeds⟩ := processDualStream_marked dualP prefill decode
    exact ⟨htogether, hsucceeds, hmarked⟩
  · obtain ⟨s, hread⟩ := processDecodeStream_succeeds h
    change (processDecodeStreamWithToolLookup P stream).stream = some true
    rw [processDecodeStreamWithToolLookup, hread]
  · obtain ⟨hmarked, hsucceeds⟩ := processResponsesDualStreamMixed_stream P prefill decode
    exact ⟨hsucceeds, hmarked⟩

/-- A client that stays is sent a block for each message. -/
def sentBlocks : Processor Nat Unit Unit Nat where
  start := .ok 0
  chunk n _ := .ok (n + 1)
  complete n _ := .ok (n + 1)
  conclude n := .ok n

/-- A parser that takes no token. -/
def rejectingParser : Harmony.ContentParser Unit :=
  { Grpc.silentParser with process := fun _ _ => .error "unexpected token".toList }

/-- A generation whose prefill fails, and whose log probabilities are not wanted. -/
def unreadPrefill : Fates Str Nat :=
  processStreamingGenerate false sentBlocks (fun _ => sentBlocks)
    (.dual [.ok (.error "out of memory".toList)] [.ok (.complete ())])

/-- A response that cannot be parsed. -/
def unparsedAnswer : Fates ErrorResponse Harmony.ResponsesIterationResult :=
  processCollected (κ := List Nat) (fun _ decode => decode)
    (responsesIteration rejectingParser (.ok ()) (fun n => (toString n).toList) 0 "resp_1".toList
      "gpt-oss".toList 0)
    (.single [.ok (.complete ⟨[200005], "stop".toList, none, 1, 1⟩)])

/-- The one succeeds, with the error in its prefill stream; the other fails, and its stream is marked. -/
theorem marked_early :
    (unreadPrefill.Succeeds ∧ unreadPrefill.prefill = some true ∧ unreadPrefill.stream = some true) ∧
      unparsedAnswer.stream = some true ∧ ¬ unparsedAnswer.Succeeds :=
  ⟨⟨rfl, rfl, rfl⟩, rfl, fun h => by cases h⟩

end QwenStack.Release
