import Mathlib.Data.List.Nodup
import QwenStack.PdRouter.Definitions

/-!
# PD router — whose fault it was

An attempt records one outcome for each worker at most, but not always its own.  Most branches of the
inner dispatch record the outcomes themselves and mark the response.  Three do not charge the right
worker:

* a request that cannot be prepared leaves an unmarked 500, and the outer dispatch charges the workers
  with it;
* so does the body of decode, if it breaks off and is not streamed: prefill is charged too;
* an answer that is neither a success nor an error of the client or the server, such as a redirect,
  counts as a failure.

`attributed_iff` says that these are all.
-/

namespace QwenStack.PdRouter

open List
open Health (isSuccess)

/-- The body of a response breaks off. -/
def HttpResponse.broken (r : HttpResponse) : Bool :=
  match r.bytes with
  | .ok _ => false
  | .error _ => true

/-- Who reads a stream comes to an error. -/
def meetsError : Nat → List Item → Bool
  | _, .error :: _ => true
  | listening + 1, .chunk bytes :: items =>
      !decide (doneMarker <:+: bytes) && meetsError listening items
  | _, _ => false

/-- The body of prefill is read: of an error, and of a success when decode succeeds too, with log
probabilities or without. -/
def Attempt.readsPrefill (a : Attempt) (p : HttpResponse) : Bool :=
  !isSuccess p.status || match a.decode with
    | .ok d => isSuccess d.status
    | .error _ => false

/-- The worker's own exchange fails: no answer, an error of the server, or a body that is read and breaks
off. -/
def Attempt.fails (a : Attempt) : Role → Bool
  | .prefill => a.serialized && a.prepared && match a.prefill with
    | .error _ => true
    | .ok p => isServerError p.status || a.readsPrefill p && p.broken
  | .decode => a.serialized && a.prepared && match a.decode with
    | .error _ => true
    | .ok d => isServerError d.status ||
        if (a.context.isStream && isSuccess d.status) = true then meetsError a.listening d.stream
        else d.broken

/-- The outcomes of an attempt are those of the workers. -/
structure Attributed (a : Attempt) : Prop where
  once : ∀ role, a.outcomes.countP (fun o => decide (o.1 = role)) ≤ 1
  own : ∀ role, (role, false) ∈ a.outcomes → a.fails role = true

/-- An answer of no known kind, with a body. -/
def HttpResponse.odd (r : HttpResponse) : Bool :=
  !isSuccess r.status && !isClientError r.status && !isServerError r.status && !r.broken

/-- The body of decode breaks off after both have answered, and the one of prefill does not. -/
def breaksOff (context : PDRequestContext) (p d : HttpResponse) : Bool :=
  !context.isStream && isSuccess d.status && d.broken && !p.broken

/-- The attempt charges a worker with what it did not do. -/
def Attempt.misattributes (a : Attempt) : Bool :=
  a.serialized && (!a.prepared || match a.prefill with
    | .error _ => false
    | .ok p => p.odd || isSuccess p.status && match a.decode with
      | .error _ => false
      | .ok d => d.odd || breaksOff a.context p d)

/-! ### Streams -/

section
variable {n : Nat} {t t' : Terminal} {items : List Item}

theorem markCompleted_ne_errored (h : t ≠ .errored) : t.markCompleted ≠ .errored := by
  cases t with
  | active => exact nofun
  | completed => exact nofun
  | errored => exact absurd rfl h

/-- A stream ends as an error only if its reader meets one. -/
theorem meetsError_of_forward (h : forward n t items = some .errored) (ht : t ≠ .errored) :
    meetsError n items = true := by
  induction items generalizing n t with
  | nil =>
    rw [forward] at h
    exact absurd (Option.some.inj h) (markCompleted_ne_errored ht)
  | cons item items ih =>
    cases item with
    | error => rw [meetsError]
    | closed =>
      rw [forward] at h
      exact absurd (Option.some.inj h) ht
    | pending =>
      rw [forward] at h
      cases h
    | chunk bytes =>
      cases hd : decide (doneMarker <:+: bytes) with
      | true =>
        cases n <;> simp only [forward, hd, if_true, Option.some.injEq] at h <;>
          exact absurd h (markCompleted_ne_errored ht)
      | false =>
        cases n with
        | zero =>
          simp only [forward, hd, Bool.false_eq_true, if_false, Option.some.injEq] at h
          exact absurd h ht
        | succ n =>
          simp only [forward, hd, Bool.false_eq_true, if_false] at h
          rw [meetsError, hd, ih h ht]
          rfl

/-- One chunk does not change whether a stream is marked as an error. -/
theorem forward_chunk_errored_iff (n : Nat) (bytes : Bytes) :
    forward n t [.chunk bytes] = some .errored ↔ t = .errored := by
  cases t <;> cases n <;> cases hd : decide (doneMarker <:+: bytes) <;>
    simp [forward, Terminal.markCompleted, hd]

/-- A stream records nothing, or one outcome of decode. -/
theorem streamOutcomes_small (n : Nat) (t : Terminal) (items : List Item) :
    streamOutcomes n t items = [] ∨ streamOutcomes n t items = [(.decode, true)] ∨
      streamOutcomes n t items = [(.decode, false)] := by
  rw [streamOutcomes]
  split
  next t' _ =>
    cases t' with
    | active => exact .inl rfl
    | completed => exact .inr (.inl rfl)
    | errored => exact .inr (.inr rfl)
  · exact .inl rfl

theorem failure_mem_streamOutcomes :
    (.decode, false) ∈ streamOutcomes n t items ↔ forward n t items = some .errored := by
  rw [streamOutcomes]
  cases forward n t items with
  | none => exact iff_of_false not_mem_nil nofun
  | some t => cases t <;> simp [Terminal.outcomes]

end

/-! ### What an attempt records -/

theorem not_client_of_success {status : Nat} (h : isSuccess status = true) :
    isClientError status = false ∧ isServerError status = false := by
  rw [isSuccess, decide_eq_true_eq] at h
  constructor
  · rw [isClientError, decide_eq_false_iff_not]
    omega
  · rw [isServerError, decide_eq_false_iff_not]
    omega

theorem not_success_500 : isSuccess 500 = false ∧ isClientError 500 = false := by
  decide

@[simp] theorem mapError_tracked (status : Nat) (s₁ s₂ s₃ s₄ s₅ s₆ : String) :
    (mapError status s₁ s₂ s₃ s₄ s₅ s₆).tracked = none := by
  simp only [mapError, createError]
  repeat' split
  all_goals rfl

section
variable {a : Attempt} {p d : HttpResponse}

section
variable (hs : a.serialized = true)
include hs

theorem outcomes_unprepared (hp : a.prepared = false) :
    a.outcomes = (.prefill, false) :: if a.context.isStream = true then [] else [(.decode, false)] := by
  simp [Attempt.outcomes, executeDualDispatchInternal, hs, hp, createError, isSuccess, isClientError]

theorem outcomes_prefill_error (hp : a.prepared = true)
    (h : a.prefill = .error ()) : a.outcomes = [(.prefill, false)] := by
  simp [Attempt.outcomes, executeDualDispatchInternal, hs, hp, h, processPrefillResponse, createError]

variable (hp : a.prepared = true) (h : a.prefill = .ok p)
include hp h

theorem outcomes_prefill_failed (hf : isSuccess p.status = false) :
    a.outcomes = [(.prefill, isClientError p.status)] := by
  simp [Attempt.outcomes, executeDualDispatchInternal, hs, hp, h, hf, processPrefillResponse]

theorem outcomes_decode_error (hf : isSuccess p.status = true) (hd : a.decode = .error ()) :
    a.outcomes = [(.decode, false), (.prefill, true)] := by
  cases hc : a.decodeFirst <;>
    simp [Attempt.outcomes, executeDualDispatchInternal, hs, hp, h, hf, hd, hc, createError]

theorem outcomes_decode_failed (hf : isSuccess p.status = true) (hd : a.decode = .ok d)
    (hg : isSuccess d.status = false) :
    a.outcomes = (.prefill, true) :: if a.context.isStream = true then
      streamOutcomes a.listening (if isClientError d.status = true then .active else .errored)
        [.chunk (sseData a.errorPayload)]
      else [(.decode, isClientError d.status)] := by
  cases hi : a.context.isStream with
  | true =>
    cases hc : a.decodeFirst <;>
      simp [Attempt.outcomes, executeDualDispatchInternal, hs, hp, h, hf, hd, hg, hi, hc,
        handleDecodeErrorResponse, createStreamingResponse]
  | false =>
    cases hc : a.decodeFirst <;> cases hb : d.bytes <;>
      simp [Attempt.outcomes, executeDualDispatchInternal, hs, hp, h, hf, hd, hg, hi, hc, hb,
        handleDecodeErrorResponse]

end

theorem processPrefillResponse_success (hf : isSuccess p.status = true) (returnLogprob : Bool) :
    ∃ result, processPrefillResponse (.ok p) returnLogprob = .ok result := by
  cases returnLogprob <;> simp [processPrefillResponse, hf]

theorem outcomes_success (hs : a.serialized = true) (hp : a.prepared = true)
    (h : a.prefill = .ok p) (hf : isSuccess p.status = true) (hd : a.decode = .ok d)
    (hg : isSuccess d.status = true) :
    a.outcomes = if a.context.isStream = true then
      (.prefill, true) :: streamOutcomes a.listening .active d.stream
      else [(.prefill, !d.broken), (.decode, !d.broken)] := by
  obtain ⟨result, hr⟩ := processPrefillResponse_success hf a.context.returnLogprob
  cases hi : a.context.isStream with
  | true =>
    cases hc : a.decodeFirst <;>
      simp [Attempt.outcomes, executeDualDispatchInternal, hs, hp, h, hf, hd, hg, hi, hc, hr,
        createStreamingResponse]
  | false =>
    cases hc : a.decodeFirst <;> cases hl : a.context.returnLogprob <;> cases hb : d.bytes <;>
      simp [Attempt.outcomes, executeDualDispatchInternal, hs, hp, h, hf, hd, hg, hi, hc, hl ▸ hr, hl,
        hb, processNonStreamingResponse, HttpResponse.broken, createError, not_success_500]

/-! ### Whose fault it was -/

/-- Of outcomes of different workers, only the failures are in question. -/
theorem attributed_iff_own {l : Outcomes} (h : a.outcomes = l) (hl : (l.map Prod.fst).Nodup) :
    Attributed a ↔ ∀ o ∈ l, o.2 = false → a.fails o.1 = true := by
  have hcount (role : Role) : a.outcomes.countP (fun o => decide (o.1 = role)) ≤ 1 := by
    have hone := List.nodup_iff_count_le_one.mp hl role
    rw [List.count, countP_map] at hone
    rw [h]
    exact hone
  constructor
  · rintro ⟨-, own⟩ ⟨role, b⟩ ho rfl
    exact own role (h ▸ ho)
  · intro own
    exact ⟨hcount, fun role ho => own (role, false) (h ▸ ho) rfl⟩

theorem attributed_unprepared (hs : a.serialized = true) (hp : a.prepared = false) :
    ¬ Attributed a := by
  intro h
  have hmem : (.prefill, false) ∈ a.outcomes := outcomes_unprepared hs hp ▸ mem_cons_self
  have hfail := h.own .prefill hmem
  rw [Attempt.fails, hp, Bool.and_false, Bool.false_and] at hfail
  cases hfail

/-- A failed answer is charged unless it is the client's error. -/
theorem odd_eq_false_iff (h : isSuccess p.status = false) :
    p.odd = false ↔ (isClientError p.status = false → (isServerError p.status || p.broken) = true) := by
  rw [HttpResponse.odd, h]
  cases isClientError p.status <;> cases isServerError p.status <;> cases p.broken <;> decide

theorem attributed_prefill_failed (hs : a.serialized = true) (hp : a.prepared = true)
    (h : a.prefill = .ok p) (hf : isSuccess p.status = false) : Attributed a ↔ p.odd = false := by
  rw [attributed_iff_own (outcomes_prefill_failed hs hp h hf) (nodup_singleton _),
    forall_mem_singleton, odd_eq_false_iff hf]
  simp [Attempt.fails, Attempt.readsPrefill, hs, hp, h, hf]

theorem attributed_decode_error (hs : a.serialized = true) (hp : a.prepared = true)
    (h : a.prefill = .ok p) (hf : isSuccess p.status = true) (hd : a.decode = .error ()) :
    Attributed a := by
  rw [attributed_iff_own (outcomes_decode_error hs hp h hf hd) (by decide)]
  simp [Attempt.fails, hs, hp, hd]

/-- With prefill a success and one outcome of decode at most, decode is the one in question. -/
theorem attributed_decode {l : Outcomes} (h : a.outcomes = (.prefill, true) :: l)
    (hl : l = [] ∨ l = [(.decode, true)] ∨ l = [(.decode, false)]) :
    Attributed a ↔ ((.decode, false) ∈ l → a.fails .decode = true) := by
  obtain rfl | rfl | rfl := hl
  · rw [attributed_iff_own h (by decide)]
    simp
  · rw [attributed_iff_own h (by decide)]
    simp
  · rw [attributed_iff_own h (by decide)]
    simp

theorem attributed_decode_failed (hs : a.serialized = true) (hp : a.prepared = true)
    (h : a.prefill = .ok p) (hf : isSuccess p.status = true) (hd : a.decode = .ok d)
    (hg : isSuccess d.status = false) : Attributed a ↔ d.odd = false := by
  have hfails : a.fails .decode = (isServerError d.status || d.broken) := by
    simp [Attempt.fails, hs, hp, hd, hg]
  have hout := outcomes_decode_failed hs hp h hf hd hg
  rw [odd_eq_false_iff hg]
  cases hi : a.context.isStream with
  | true =>
    rw [hi, if_pos rfl] at hout
    rw [attributed_decode hout (streamOutcomes_small _ _ _), failure_mem_streamOutcomes,
      forward_chunk_errored_iff, hfails]
    cases isClientError d.status <;> simp
  | false =>
    rw [hi, if_neg Bool.false_ne_true] at hout
    rw [attributed_decode hout (by cases isClientError d.status <;> simp), hfails,
      mem_singleton, Prod.mk.injEq, eq_comm (a := false)]
    simp

theorem attributed_success (hs : a.serialized = true) (hp : a.prepared = true)
    (h : a.prefill = .ok p) (hf : isSuccess p.status = true) (hd : a.decode = .ok d)
    (hg : isSuccess d.status = true) : Attributed a ↔ breaksOff a.context p d = false := by
  have hout := outcomes_success hs hp h hf hd hg
  cases hi : a.context.isStream with
  | true =>
    rw [hi, if_pos rfl] at hout
    rw [attributed_decode hout (streamOutcomes_small _ _ _), failure_mem_streamOutcomes]
    simp only [breaksOff, hi, Bool.not_true, Bool.false_and, iff_true]
    intro herr
    have hmeets := meetsError_of_forward herr nofun
    simp [Attempt.fails, hs, hp, hd, hg, hi, hmeets]
  | false =>
    rw [hi, if_neg Bool.false_ne_true] at hout
    rw [attributed_iff_own hout (by simp)]
    cases hb : d.broken <;>
      simp [Attempt.fails, Attempt.readsPrefill, breaksOff, hs, hp, h, hd, hf, hg, hi, hb,
        not_client_of_success hf]

end

/-- An attempt charges the workers with their own faults, and once, exactly if it does not charge one
with what it did not do: the request could be prepared, no worker answers with a status of no known
kind, and a body that decode breaks off is streamed, or prefill breaks off too. -/
theorem attributed_iff (a : Attempt) : Attributed a ↔ a.misattributes = false := by
  cases hs : a.serialized with
  | false =>
    have hout : a.outcomes = [] := by
      rw [Attempt.outcomes, hs, if_pos rfl]
    rw [attributed_iff_own hout nodup_nil, Attempt.misattributes, hs, Bool.false_and]
    exact iff_of_true (fun _ ho => absurd ho not_mem_nil) rfl
  | true =>
    rw [Attempt.misattributes, hs, Bool.true_and]
    cases hp : a.prepared with
    | false => exact iff_of_false (attributed_unprepared hs hp) nofun
    | true =>
      rw [Bool.not_true, Bool.false_or]
      cases h : a.prefill with
      | error e =>
        rw [attributed_iff_own (outcomes_prefill_error hs hp h) (nodup_singleton _)]
        simp [Attempt.fails, hs, hp, h]
      | ok p =>
        cases hf : isSuccess p.status with
        | false =>
          rw [attributed_prefill_failed hs hp h hf]
          simp [hf]
        | true =>
          have hodd : p.odd = false := by simp [HttpResponse.odd, hf]
          simp only [hodd, hf, Bool.false_or, Bool.true_and]
          cases hd : a.decode with
          | error e => exact iff_of_true (attributed_decode_error hs hp h hf hd) rfl
          | ok d =>
            cases hg : isSuccess d.status with
            | false =>
              rw [attributed_decode_failed hs hp h hf hd hg]
              simp [breaksOff, hg]
            | true =>
              rw [attributed_success hs hp h hf hd hg]
              simp [HttpResponse.odd, hg]

/-- Both workers answer with 200, and the body of decode breaks off. -/
def brokenDecode : Attempt where
  context := { isStream := false, returnLogprob := false }
  prefill := .ok { status := 200, bytes := .ok [] }
  decode := .ok { status := 200, bytes := .error () }

/-- The prefill worker is charged with the body of decode. -/
theorem broken_decode_charges_prefill :
    (.prefill, false) ∈ brokenDecode.outcomes ∧ brokenDecode.fails .prefill = false ∧
      ¬ Attributed brokenDecode := by
  have hcharged : (.prefill, false) ∈ brokenDecode.outcomes := by decide
  have hfine : brokenDecode.fails .prefill = false := by decide
  exact ⟨hcharged, hfine, fun h => Bool.false_ne_true (hfine.symm.trans (h.own _ hcharged))⟩

end QwenStack.PdRouter
