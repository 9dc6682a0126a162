import QwenStack.PdRouter.Definitions
import QwenStack.Retry.Runs

/-!
# PD router — errors of the client

`execute_dual_dispatch` is the retry executor around one attempt after another.  An error of the client is
meant to come through with its status ("4xx forwarded"), so that it is neither tried again nor charged to
the server.  The tables of `process_prefill_response` and `handle_decode_error_response` know two such
statuses, 400 and 404; any other becomes a 500, which is retried (`unprocessable_retried`).

`client_errors_stay_iff` says that nothing else goes wrong: in any run, the errors of the client stay what
they are exactly if the workers answer with these two only.  The errors of prefill are errors of the server
in every case.
-/

namespace QwenStack.PdRouter
open Health (isSuccess)
open Retry (Caller RetryConfig Execution Event isRetryableStatus executeResponseWithRetry)

/-- What `execute_dual_dispatch` has the executor do: an attempt, if `select_pd_pair` finds a pair. -/
def dispatchAttempt : Option Attempt → Response
  | none => createError 503 "server_selection_failed"
  | some a =>
      if a.serialized = false then createError 500 "serialization_failed"
      else (executeDualDispatchInternal a).2

/-- `execute_dual_dispatch` over what its attempts meet. -/
def executeDualDispatch {δ : Type*} (config : RetryConfig) (calculateDelay : Nat → δ)
    (attempts : Nat → Option Attempt) (turns : Nat) : Execution δ × Option Response :=
  executeResponseWithRetry config
    ⟨fun i => dispatchAttempt (attempts i), fun res _ => isRetryableStatus res.status, calculateDelay⟩
    turns

/-! ### What the workers answer -/

/-- The requests go out. -/
def Attempt.sent (a : Attempt) : Bool := a.serialized && a.prepared

/-- The error of the client that prefill answers with, or decode behind a successful prefill if the answer
is not streamed. -/
def clientError : Option Attempt → Option Nat
  | none => none
  | some a =>
      if a.sent = false then none
      else match a.prefill with
        | .error _ => none
        | .ok p =>
            if isClientError p.status = true then some p.status
            else if isSuccess p.status = false ∨ a.context.isStream = true then none
            else match a.decode with
              | .error _ => none
              | .ok d => if isClientError d.status = true then some d.status else none

/-- Prefill does not answer, or with an error of the server. -/
def prefillBroken : Option Attempt → Bool
  | none => false
  | some a => a.sent && match a.prefill with
    | .error _ => true
    | .ok p => isServerError p.status

/-- The attempt of a run that ended after `k` attempts with a response: an error of the client is
forwarded, and if it is not to be retried it is the last answer. -/
structure ErrorsStay (attempts : Nat → Option Attempt) (k : Nat) (answer : Response) (i : Nat) : Prop where
  forwarded : ∀ s, clientError (attempts i) = some s → (dispatchAttempt (attempts i)).status = s
  final : ∀ s, clientError (attempts i) = some s → isRetryableStatus s = false →
    i + 1 = k ∧ answer.status = s
  server : prefillBroken (attempts i) = true →
    isServerError (dispatchAttempt (attempts i)).status = true

/-! ### One attempt -/

@[simp] theorem createError_status (status : Nat) (code : String) :
    (createError status code).status = status := rfl

/-- The statuses the tables know. -/
theorem mapError_status (status : Nat) (s₁ s₂ s₃ s₄ s₅ s₆ : String) :
    (mapError status s₁ s₂ s₃ s₄ s₅ s₆).status =
      if status ∈ [400, 404, 500, 503, 502] then status else 500 := by
  simp only [mapError, List.mem_cons, List.not_mem_nil, or_false]
  split_ifs <;> simp_all

/-- An error of the client, as a table maps it. -/
theorem mapError_client {status : Nat} (h : isClientError status = true) (s₁ s₂ s₃ s₄ s₅ s₆ : String) :
    (mapError status s₁ s₂ s₃ s₄ s₅ s₆).status = if status = 400 ∨ status = 404 then status else 500 := by
  have hrange : 400 ≤ status ∧ status < 500 := of_decide_eq_true h
  have hknown : status ∈ [400, 404, 500, 503, 502] ↔ status = 400 ∨ status = 404 := by
    simp only [List.mem_cons, List.not_mem_nil, or_false]
    omega
  rw [mapError_status]
  simp only [hknown]

/-- An error of the server stays one. -/
theorem mapError_server {status : Nat} (h : isServerError status = true) (s₁ s₂ s₃ s₄ s₅ s₆ : String) :
    isServerError (mapError status s₁ s₂ s₃ s₄ s₅ s₆).status = true := by
  rw [mapError_status]
  split
  · exact h
  · rfl

theorem not_success_of_client {status : Nat} (h : isClientError status = true) :
    isSuccess status = false := by
  have hrange : 400 ≤ status ∧ status < 500 := of_decide_eq_true h
  exact decide_eq_false (by omega)

theorem not_success_of_server {status : Nat} (h : isServerError status = true) :
    isSuccess status = false := by
  have hrange : 500 ≤ status ∧ status < 600 := of_decide_eq_true h
  exact decide_eq_false (by omega)

section
variable {a : Attempt} {p d : HttpResponse}

/-- The answer to a prefill that failed. -/
theorem dispatch_prefill (hs : a.sent = true) (h : a.prefill = .ok p) (hf : isSuccess p.status = false) :
    (dispatchAttempt (some a)).status = (mapError p.status "prefill_bad_request" "prefill_not_found"
      "prefill_internal_error" "prefill_unavailable" "prefill_bad_gateway" "prefill_error").status := by
  obtain ⟨hserialized, hprepared⟩ := Bool.and_eq_true_iff.mp hs
  simp [dispatchAttempt, executeDualDispatchInternal, hserialized, hprepared, h, hf,
    processPrefillResponse]

theorem dispatch_prefill_error (hs : a.sent = true) (h : a.prefill = .error ()) :
    (dispatchAttempt (some a)).status = 502 := by
  obtain ⟨hserialized, hprepared⟩ := Bool.and_eq_true_iff.mp hs
  simp [dispatchAttempt, executeDualDispatchInternal, hserialized, hprepared, h, processPrefillResponse]

/-- The answer to a decode that failed behind a successful prefill, where it is not streamed. -/
theorem dispatch_decode (hs : a.sent = true) (h : a.prefill = .ok p) (hf : isSuccess p.status = true)
    (hi : a.context.isStream = false) (hd : a.decode = .ok d) (hg : isSuccess d.status = false) :
    ∃ s₁ s₂ s₃ s₄ s₅ s₆, (dispatchAttempt (some a)).status =
      (mapError d.status s₁ s₂ s₃ s₄ s₅ s₆).status := by
  obtain ⟨hserialized, hprepared⟩ := Bool.and_eq_true_iff.mp hs
  have hresponse : (dispatchAttempt (some a)).status =
      (handleDecodeErrorResponse d a.context a.errorPayload).status := by
    cases hc : a.decodeFirst <;>
      simp [dispatchAttempt, executeDualDispatchInternal, hserialized, hprepared, h, hf, hd, hg, hc, hi]
  rw [hresponse, handleDecodeErrorResponse, hi, if_neg Bool.false_ne_true]
  split
  · exact ⟨_, _, _, _, _, _, rfl⟩
  · exact ⟨_, _, _, _, _, _, rfl⟩

end

/-- **What becomes of an error of the client.** -/
theorem dispatch_clientError {attempt : Option Attempt} {s : Nat} (h : clientError attempt = some s) :
    isClientError s = true ∧
      (dispatchAttempt attempt).status = if s = 400 ∨ s = 404 then s else 500 := by
  cases attempt with
  | none => cases h
  | some a =>
    rw [clientError] at h
    split at h
    · cases h
    next hs =>
    rw [Bool.not_eq_false] at hs
    split at h
    · cases h
    next p hp =>
    split at h
    · next hclient =>
      cases h
      refine ⟨hclient, ?_⟩
      rw [dispatch_prefill hs hp (not_success_of_client hclient), mapError_client hclient]
    split at h
    · cases h
    next hbehind =>
    obtain ⟨hf, hi⟩ := not_or.mp hbehind
    split at h
    · cases h
    next d hd =>
    split at h
    · next hclient =>
      cases h
      refine ⟨hclient, ?_⟩
      obtain ⟨_, _, _, _, _, _, hstatus⟩ := dispatch_decode hs hp (Bool.not_eq_false _ ▸ hf)
        (Bool.not_eq_true _ ▸ hi) hd (not_success_of_client hclient)
      rw [hstatus, mapError_client hclient]
    · cases h

/-- A prefill that is broken always gives an error of the server. -/
theorem dispatch_prefillBroken {attempt : Option Attempt} (h : prefillBroken attempt = true) :
    isServerError (dispatchAttempt attempt).status = true := by
  cases attempt with
  | none => cases h
  | some a =>
    obtain ⟨hs, hbroken⟩ := Bool.and_eq_true_iff.mp h
    split at hbroken
    · next hp =>
      rw [dispatch_prefill_error hs hp]
      rfl
    · next p hp =>
      rw [dispatch_prefill hs hp (not_success_of_server hbroken)]
      exact mapError_server hbroken _ _ _ _ _ _

/-! ### A run -/

/-- **When errors of the client stay such.**  In any run of `execute_dual_dispatch`, however many turns its
loop may take, and whatever its attempts meet: each attempt that was made forwards an error of the client,
and with a status that is not retried it is the last and its status the answer, exactly if these errors
are 400 or 404.  A prefill that is broken gives an error of the server. -/
theorem client_errors_stay_iff {δ : Type*} (config : RetryConfig) (calculateDelay : Nat → δ)
    (attempts : Nat → Option Attempt) {turns : Nat} (hturns : config.max ≤ turns) :
    ∃ k e answer, executeDualDispatch config calculateDelay attempts turns = (e, some answer) ∧
      e.events.filterMap Event.attempt? = List.range k ∧
      ((∀ i < k, ErrorsStay attempts k answer i) ↔
        ∀ i < k, ∀ s, clientError (attempts i) = some s → s = 400 ∨ s = 404) := by
  obtain ⟨k, e, answer, hrun, hreturned⟩ := Retry.executeResponseWithRetry_returned config
    ⟨fun i => dispatchAttempt (attempts i), fun res _ => isRetryableStatus res.status, calculateDelay⟩
    hturns
  have hattempts : e.events.filterMap Event.attempt? = List.range k := by
    rw [hreturned.events]
    exact Retry.attempts_runEvents _ hreturned.pos
  refine ⟨k, e, answer, hrun, hattempts, fun hstay i hi s hs => ?_, fun hknown i hi => ?_⟩
  · have hforwarded := (hstay i hi).forwarded s hs
    obtain ⟨hclient, hstatus⟩ := dispatch_clientError hs
    rw [hforwarded] at hstatus
    split at hstatus
    · assumption
    · rw [hstatus] at hclient
      cases hclient
  · have hforward : ∀ s, clientError (attempts i) = some s →
        (dispatchAttempt (attempts i)).status = s := by
      intro s hs
      rw [(dispatch_clientError hs).2, if_pos (hknown i hi s hs)]
    refine ⟨hforward, fun s hs hfinal => ?_, dispatch_prefillBroken⟩
    -- An attempt before the last would have been retried.
    have hlast : i + 1 = k := by
      by_contra hne
      have hretry : isRetryableStatus (dispatchAttempt (attempts i)).status = true :=
        hreturned.retried i (by omega)
      rw [hforward s hs, hfinal] at hretry
      cases hretry
    refine ⟨hlast, ?_⟩
    rw [hreturned.response, ← hlast, Nat.add_sub_cancel]
    exact hforward s hs

/-- A request that prefill cannot process. -/
def unprocessable : Attempt where
  context := ⟨false, false⟩
  prefill := .ok { status := 422, bytes := .ok [] }
  decode := .error ()

/-- It is tried again, and reported as an error of the server. -/
theorem unprocessable_retried :
    let answer := { createError 500 "prefill_error" with outcomesRecorded := true }
    clientError (some unprocessable) = some 422 ∧ isRetryableStatus 422 = false ∧
      executeDualDispatch ⟨2⟩ id (fun _ => some unprocessable) 2 =
        (⟨1, 2, [.operation 0, .onBackoff 0 1, .sleep 0, .operation 1, .onExhausted]⟩, some answer) ∧
      ¬ ErrorsStay (fun _ => some unprocessable) 2 answer 0 := by
  intro answer
  refine ⟨by decide +kernel, by decide +kernel, by decide +kernel, fun h => ?_⟩
  have hstatus : (dispatchAttempt (some unprocessable)).status = 422 := h.forwarded 422 rfl
  cases hstatus

/-- A request that prefill rejects as bad is answered so, at once. -/
theorem bad_request_stays :
    let attempts : Nat → Option Attempt := fun _ =>
      some { unprocessable with prefill := .ok { status := 400, bytes := .ok [] } }
    ∃ k e answer, executeDualDispatch ⟨2⟩ id attempts 2 = (e, some answer) ∧
      e.events.filterMap Event.attempt? = List.range k ∧ ∀ i < k, ErrorsStay attempts k answer i := by
  intro attempts
  obtain ⟨k, e, answer, hrun, hattempts, hiff⟩ :=
    client_errors_stay_iff ⟨2⟩ id attempts (Nat.le_refl 2)
  exact ⟨k, e, answer, hrun, hattempts, hiff.mpr fun i _ s hs => Or.inl (Option.some.inj hs).symm⟩

end QwenStack.PdRouter
