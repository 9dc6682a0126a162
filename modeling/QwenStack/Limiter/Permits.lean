import Mathlib.Algebra.Order.Ring.NNRat
import QwenStack.Limiter.Definitions
import QwenStack.Support.Runs
import QwenStack.Support.Threads

/-!
# Concurrency limiter — permits

Every token that is not in the bucket should be with somebody: a request that runs, the body of a
response, or a permit on its way to a request that waits.  `step_permits` says which operations lose
one.  They come from two omissions.  The middleware makes the guard of the token only after the
handler is done, so a request that is cancelled before leaves its token with nobody.  And the queue
takes tokens for requests that are gone, since nobody looks whether the receiver of a permit is there.

`permits_iff`: the tokens are all accounted for in every state of a run exactly when no operation of
it is of these.
-/

namespace QwenStack.Limiter
open Threads List

/-! ### Who has a token -/

/-- The request has a token. -/
def RequestStage.holds : RequestStage → Bool
  | .running => true
  | .responding => true
  | .waiting (some (.ok ())) => true
  | _ => false

/-- The request waits, and nothing has been sent to it. -/
def awaits (requests : List RequestStage) (r : Nat) : Bool :=
  decide (requests[r]? = some (.waiting none))

/-- The request that the processor has read. -/
def ProcessorStage.ticket : ProcessorStage → List Nat
  | .idle => []
  | .received queued => [queued.request]
  | .trying queued => [queued.request]
  | .granting queued => [queued.request]

/-- The request that the processor has a token for. -/
def ProcessorStage.grant : ProcessorStage → List Nat
  | .granting queued => [queued.request]
  | _ => []

/-- The task has not sent anything. -/
def Waiter.isOpen (w : Waiter) : Bool := !w.sent

/-- The task has a token to send. -/
def Waiter.grants (w : Waiter) : Bool := !w.sent && decide (w.stage = .acquired)

namespace Middleware

/-- The requests whose channel has a sender. -/
def tickets (s : Middleware) : List Nat :=
  s.queue.map QueuedRequest.request ++
    (s.processor.ticket ++ (s.waiters.filter Waiter.isOpen).map Waiter.request)

/-- The requests that a token was taken for and not sent yet. -/
def grants (s : Middleware) : List Nat :=
  s.processor.grant ++ (s.waiters.filter Waiter.grants).map Waiter.request

/-- The tokens that somebody has: requests and bodies, and permits on their way to a request. -/
def held (s : Middleware) : Nat :=
  s.requests.countP RequestStage.holds + s.grants.countP (awaits s.requests)

/-- Every token is in the bucket or somebody has it. -/
def Conserved (c : LimiterConfig) (s : Middleware) : Prop := s.inner.tokens + s.held = c.capacity

/-- The operation loses a token: a request is cancelled that has one or is about to get one, or a token
is taken for a request that is gone. -/
def Loses (c : LimiterConfig) (s : Middleware) : Operation → Prop
  | .cancel i => ∃ stage, s.requests[i]? = some stage ∧ awaiting stage = true ∧
      (stage.holds = true ∨ stage = .waiting none ∧ i ∈ s.grants)
  | .processor now => ∃ queued, s.processor = .trying queued ∧ (s.tryAcquire c now).2 = true ∧
      awaits s.requests queued.request = false
  | .waiter j now => ∃ w, s.waiters[j]? = some w ∧ w.sent = false ∧
      (w.stage = .trying ∨ w.stage = .woken) ∧ (s.tryAcquire c now).2 = true ∧
      awaits s.requests w.request = false
  | _ => False

end Middleware

open Middleware

/-! ### The bucket -/

section
variable {c : LimiterConfig} {s : Middleware} {n : Nat}

/-- A try takes one token or leaves them as they are. -/
theorem tryAcquire_tokens (hn : s.inner.tokens = n) (hle : n ≤ c.capacity) (now : ℚ≥0) :
    ∃ n' : Nat, (s.tryAcquire c now).1.tokens = n' ∧
      n' + (if (s.tryAcquire c now).2 = true then 1 else 0) = n := by
  have hrefill : ((TokenBucket.new c.capacity 0).1.refill s.inner now).tokens = n := by
    have hcap : (n : ℚ≥0) ≤ c.capacity := Nat.cast_le.mpr hle
    simp [TokenBucket.refill, TokenBucket.new, hn, hcap]
  rw [Middleware.tryAcquire, TokenBucket.tryAcquire]
  rw [hrefill]
  split
  · next hone =>
    have hpos : 1 ≤ n := by exact_mod_cast hone
    refine ⟨n - 1, ?_, ?_⟩
    · rw [Nat.cast_tsub, Nat.cast_one]
    · rw [if_pos rfl]
      omega
  · exact ⟨n, hrefill, rfl⟩

/-- A token that comes back has room. -/
theorem returnTokens_tokens (hn : s.inner.tokens = n) (hle : n + 1 ≤ c.capacity) :
    ((TokenBucket.new c.capacity 0).1.returnTokens s.inner 1).tokens = (n + 1 : Nat) := by
  have hcap : ((n + 1 : Nat) : ℚ≥0) ≤ c.capacity := Nat.cast_le.mpr hle
  rw [Nat.cast_succ] at hcap ⊢
  simp [TokenBucket.returnTokens, TokenBucket.new, hn, hcap]

/-- The tokens in whole numbers. -/
theorem conserved_iff : Conserved c s ↔ ∃ n : Nat, s.inner.tokens = n ∧ n + s.held = c.capacity := by
  constructor
  · intro h
    have hle : s.held ≤ c.capacity := by
      have : ((s.held : Nat) : ℚ≥0) ≤ c.capacity := by
        rw [← h]
        exact le_add_self
      exact_mod_cast this
    refine ⟨c.capacity - s.held, ?_, Nat.sub_add_cancel hle⟩
    rw [Nat.cast_tsub, ← h, add_tsub_cancel_right]
  · rintro ⟨n, hn, hsum⟩
    rw [Conserved, hn, ← hsum, Nat.cast_add]

end

/-! ### Tickets -/

/-- A request has one sender at most, and it waits or is cancelled. -/
structure Ticketed (s : Middleware) : Prop where
  nodup : s.tickets.Nodup
  waiting : ∀ r ∈ s.tickets,
    s.requests[r]? = some (.waiting none) ∨ s.requests[r]? = some .cancelled

section
variable {s s' : Middleware} {i r : Nat} {stage stage' : RequestStage}

theorem ticketed_init (c : LimiterConfig) : Ticketed (Middleware.init c) :=
  ⟨nodup_nil, fun _ hr => absurd hr not_mem_nil⟩

/-- A grant is a ticket. -/
theorem mem_tickets_of_grants (h : r ∈ s.grants) : r ∈ s.tickets := by
  rw [grants, mem_append] at h
  rw [tickets, mem_append, mem_append]
  refine Or.inr (h.imp (fun h => ?_) fun h => ?_)
  · cases hp : s.processor with
    | granting queued =>
      rw [hp] at h
      exact h
    | idle => rw [hp] at h; cases h
    | received queued => rw [hp] at h; cases h
    | trying queued => rw [hp] at h; cases h
  · obtain ⟨w, hw, rfl⟩ := List.mem_map.mp h
    obtain ⟨hw, hgrants⟩ := List.mem_filter.mp hw
    refine mem_map_of_mem (List.mem_filter.mpr ⟨hw, ?_⟩)
    rw [Waiter.grants, Bool.and_eq_true] at hgrants
    exact hgrants.1

/-- A request that neither waits nor is cancelled has no ticket. -/
theorem Ticketed.not_mem (h : Ticketed s) (hi : s.requests[i]? = some stage)
    (hwaiting : stage ≠ .waiting none) (hcancelled : stage ≠ .cancelled) : i ∉ s.tickets := by
  intro hmem
  rcases h.waiting i hmem with hw | hw
  · exact hwaiting (Option.some.inj (hi.symm.trans hw))
  · exact hcancelled (Option.some.inj (hi.symm.trans hw))

/-- The tickets are those of before, and one request that has none moves. -/
theorem Ticketed.setRequest (h : Ticketed s) (hno : i ∉ s.tickets)
    (hrequests : s'.requests = s.requests.set i stage') (htickets : s'.tickets = s.tickets) :
    Ticketed s' := by
  refine ⟨htickets ▸ h.nodup, fun r hr => ?_⟩
  rw [htickets] at hr
  have hne : i ≠ r := fun heq => hno (heq ▸ hr)
  rw [hrequests, List.getElem?_set_ne hne]
  exact h.waiting r hr

/-- Only the tickets change, to some of those of before. -/
theorem Ticketed.of_perm {l : List Nat} (h : Ticketed s) (hrequests : s'.requests = s.requests)
    (htickets : (s'.tickets ++ l).Perm s.tickets) : Ticketed s' := by
  refine ⟨(List.nodup_append.mp (htickets.nodup_iff.mpr h.nodup)).1, fun r hr => ?_⟩
  rw [hrequests]
  exact h.waiting r (htickets.subset (mem_append_left _ hr))

theorem awaits_set_ne (hne : i ≠ r) : awaits (s.requests.set i stage') r = awaits s.requests r := by
  rw [awaits, awaits, List.getElem?_set_ne hne]

theorem countP_awaits_set {l : List Nat} (hno : i ∉ l) :
    l.countP (awaits (s.requests.set i stage')) = l.countP (awaits s.requests) := by
  refine countP_congr fun r hr => ?_
  have hne : i ≠ r := fun heq => hno (heq ▸ hr)
  rw [awaits_set_ne hne]

/-- The tokens that are held after a request has moved that has no permit on its way. -/
theorem held_setRequest (s' : Middleware) (hi : s.requests[i]? = some stage) (hno : i ∉ s.grants)
    (hrequests : s'.requests = s.requests.set i stage') (hgrants : s'.grants = s.grants) :
    s'.held + (if stage.holds = true then 1 else 0) =
      s.held + if stage'.holds = true then 1 else 0 := by
  have hcount := countP_move hi stage' RequestStage.holds
  rw [held, held, hrequests, hgrants, countP_awaits_set hno]
  omega

end

/-! ### The operations of a request -/

/-- The tokens after an operation that loses none. -/
def Whole (c : LimiterConfig) (s : Middleware) : Prop :=
  ∃ n : Nat, s.inner.tokens = n ∧ n + s.held = c.capacity

section
variable {c : LimiterConfig} {s s' : Middleware} {i n : Nat} {now : ℚ≥0} {stage stage' : RequestStage}

/-- A request moves that has no ticket, and its token with it. -/
theorem whole_setRequest {inner : TokenBucketInner} {n' : Nat} (h : Ticketed s)
    (hcap : n + s.held = c.capacity) (hi : s.requests[i]? = some stage)
    (hwaiting : stage ≠ .waiting none) (hcancelled : stage ≠ .cancelled) (hn' : inner.tokens = n')
    (hmoved : n' + (if stage'.holds = true then 1 else 0) = n + if stage.holds = true then 1 else 0) :
    Ticketed ({ s with inner := inner }.setRequest i stage') ∧
      Whole c ({ s with inner := inner }.setRequest i stage') := by
  have hno := h.not_mem hi hwaiting hcancelled
  have hheld := held_setRequest ({ s with inner := inner }.setRequest i stage') hi
    (fun hg => hno (mem_tickets_of_grants hg)) rfl rfl
  exact ⟨h.setRequest hno rfl rfl, n', hn', by omega⟩

/-- A request goes to the queue. -/
theorem whole_enqueue (h : Ticketed s) (hn : s.inner.tokens = n) (hcap : n + s.held = c.capacity)
    (hi : s.requests[i]? = some .refused) :
    Ticketed ({ s with queue := s.queue ++ [QueuedRequest.mk now i] }.setRequest i (.waiting none)) ∧
      Whole c ({ s with queue := s.queue ++ [QueuedRequest.mk now i] }.setRequest i (.waiting none)) := by
  have hno := h.not_mem hi nofun nofun
  have hheld := held_setRequest
    ({ s with queue := s.queue ++ [QueuedRequest.mk now i] }.setRequest i (.waiting none)) hi
    (fun hg => hno (mem_tickets_of_grants hg)) rfl rfl
  have hlt := (List.getElem?_eq_some_iff.mp hi).1
  have hperm : (tickets ({ s with queue := s.queue ++ [QueuedRequest.mk now i] }.setRequest i (.waiting none))).Perm
      (i :: s.tickets) := by
    simp only [tickets, Middleware.setRequest, map_append, map_singleton, append_assoc,
      singleton_append]
    exact perm_middle
  refine ⟨⟨hperm.nodup_iff.mpr (List.nodup_cons.mpr ⟨hno, h.nodup⟩), fun r hr => ?_⟩, n, hn, ?_⟩
  · rcases List.mem_cons.mp (hperm.subset hr) with rfl | hr
    · exact Or.inl (List.getElem?_set_self hlt)
    · have hne : i ≠ r := fun heq => hno (heq ▸ hr)
      simp only [Middleware.setRequest, List.getElem?_set_ne hne]
      exact h.waiting r hr
  · simp only [RequestStage.holds, Bool.false_eq_true, if_false, Nat.add_zero] at hheld
    rw [hheld, hcap]

/-- A notification moves no ticket and no token. -/
theorem tickets_notify (s : Middleware) {requests : List RequestStage} : tickets { s with
      requests := requests
      waiters := s.waiters.map fun w => { w with stage := w.stage.notify } } = s.tickets := by
  simp only [tickets, filter_map, map_map]
  rfl

theorem grants_notify (s : Middleware) {requests : List RequestStage} : grants { s with
      requests := requests
      waiters := s.waiters.map fun w => { w with stage := w.stage.notify } } = s.grants := by
  have hsame : (Waiter.grants ∘ fun w => { w with stage := w.stage.notify }) = Waiter.grants := by
    funext w
    obtain ⟨r, stage, sent⟩ := w
    cases stage <;> simp [Waiter.grants, AcquireStage.notify]
  simp only [grants, filter_map, map_map, hsame]
  rfl

/-- **No operation of a request loses a token.** -/
theorem request_permits (h : Ticketed s) (hn : s.inner.tokens = n) (hcap : n + s.held = c.capacity)
    (hi : s.requests[i]? = some stage) (hstep : s.moveRequest c i now stage = some s') :
    Ticketed s' ∧ Whole c s' := by
  cases stage with
  | arrived =>
    cases hstep
    obtain ⟨n', hn', hsum⟩ := tryAcquire_tokens (c := c) hn (by omega) now
    have hmoved : n' + (if (if (s.tryAcquire c now).2 = true then RequestStage.running
        else .refused).holds = true then 1 else 0) =
        n + if RequestStage.holds .arrived = true then 1 else 0 := by
      cases hok : (s.tryAcquire c now).2 <;> simpa [RequestStage.holds, hok] using hsum
    exact whole_setRequest h hcap hi nofun nofun hn' hmoved
  | refused =>
    rw [moveRequest] at hstep
    split at hstep
    · cases hstep
      exact whole_enqueue h hn hcap hi
    · cases hstep
      exact whole_setRequest h hcap hi nofun nofun hn rfl
  | waiting permit =>
    cases permit with
    | none => cases hstep
    | some permit =>
      cases permit with
      | ok u =>
        cases hstep
        exact whole_setRequest h hcap hi nofun nofun hn rfl
      | error status =>
        cases hstep
        exact whole_setRequest h hcap hi nofun nofun hn rfl
  | running =>
    cases hstep
    exact whole_setRequest h hcap hi nofun nofun hn rfl
  | responding =>
    cases hstep
    have hone : 0 < s.requests.countP RequestStage.holds := countP_pos hi rfl
    have hroom : n + 1 ≤ c.capacity := by
      rw [held] at hcap
      omega
    exact whole_setRequest h hcap hi nofun nofun (returnTokens_tokens hn hroom) rfl
  | returned =>
    cases hstep
    have hno := h.not_mem hi nofun nofun
    have hheld := held_setRequest (Middleware.setRequest { s with
      waiters := s.waiters.map fun w => { w with stage := w.stage.notify } } i .finished) hi
      (fun hg => hno (mem_tickets_of_grants hg)) rfl (grants_notify s)
    simp only [RequestStage.holds, Bool.false_eq_true, if_false, Nat.add_zero] at hheld
    exact ⟨h.setRequest hno rfl (tickets_notify s), n, hn, by omega⟩
  | finished => cases hstep
  | rejected status => cases hstep
  | cancelled => cases hstep

/-! ### Cancellation -/

theorem nodup_grants (h : Ticketed s) : s.grants.Nodup := by
  have hsub : s.grants.Sublist s.tickets := by
    rw [grants, tickets]
    refine List.Sublist.trans (List.Sublist.append ?_ (List.Sublist.map _ ?_))
      (sublist_append_right _ _)
    · cases s.processor with
      | granting queued => exact List.Sublist.refl _
      | idle => exact List.Sublist.refl _
      | received queued => exact nil_sublist _
      | trying queued => exact nil_sublist _
    · refine monotone_filter_right _ fun w hw => ?_
      rw [Waiter.grants, Bool.and_eq_true] at hw
      exact hw.1
  exact h.nodup.sublist hsub

/-- A permit on its way to a request that stops waiting. -/
theorem countP_awaits_gone (hnodup : s.grants.Nodup) (hi : s.requests[i]? = some (.waiting none))
    (hstage' : stage' ≠ .waiting none) (hmem : i ∈ s.grants) :
    s.grants.countP (awaits (s.requests.set i stage')) + 1 = s.grants.countP (awaits s.requests) := by
  have hlt := (List.getElem?_eq_some_iff.mp hi).1
  have hperm := perm_cons_erase hmem
  have hno : i ∉ s.grants.erase i := fun h => (List.Nodup.mem_erase_iff hnodup).mp h |>.1 rfl
  have hbefore : awaits s.requests i = true := decide_eq_true hi
  have hafter : awaits (s.requests.set i stage') i = false := by
    rw [awaits, List.getElem?_set_self hlt, decide_eq_false_iff_not]
    exact fun h => hstage' (Option.some.inj h)
  rw [hperm.countP_eq, hperm.countP_eq, countP_cons_of_pos hbefore,
    countP_cons_of_neg (by rw [hafter]; exact Bool.false_ne_true), countP_awaits_set hno]

/-- **A cancellation loses the token that the request has, or is about to get.** -/
theorem cancel_permits (h : Ticketed s)
    (hi : s.requests[i]? = some stage) (hawaiting : awaiting stage = true) :
    Ticketed (s.setRequest i .cancelled) ∧
      (s.setRequest i .cancelled).held + (if stage.holds = true ∨ stage = .waiting none ∧ i ∈ s.grants
        then 1 else 0) = s.held := by
  have hlt := (List.getElem?_eq_some_iff.mp hi).1
  refine ⟨⟨h.nodup, fun r hr => ?_⟩, ?_⟩
  · by_cases hne : i = r
    · subst hne
      exact Or.inr (List.getElem?_set_self hlt)
    · simp only [Middleware.setRequest, List.getElem?_set_ne hne]
      exact h.waiting r hr
  · by_cases hw : stage = .waiting none
    · subst hw
      have hcount := countP_move hi RequestStage.cancelled RequestStage.holds
      simp only [RequestStage.holds, Bool.false_eq_true, if_false, Nat.add_zero] at hcount
      have hheld : (s.setRequest i .cancelled).held = s.requests.countP RequestStage.holds +
          s.grants.countP (awaits (s.requests.set i .cancelled)) := by
        rw [← hcount]
        rfl
      rw [hheld, held]
      by_cases hmem : i ∈ s.grants
      · have hgone : s.grants.countP (awaits (s.requests.set i .cancelled)) + 1 =
            s.grants.countP (awaits s.requests) := countP_awaits_gone (nodup_grants h) hi nofun hmem
        rw [if_pos (Or.inr ⟨rfl, hmem⟩)]
        omega
      · rw [countP_awaits_set hmem, if_neg (by simp [RequestStage.holds, hmem])]
        rfl
    · have hcancelled : stage ≠ .cancelled := by
        rintro rfl
        cases hawaiting
      have hno := h.not_mem hi hw hcancelled
      have hheld := held_setRequest (s.setRequest i .cancelled) hi
        (fun hg => hno (mem_tickets_of_grants hg)) rfl rfl
      simp only [hw, false_and, or_false]
      simpa [RequestStage.holds] using hheld

/-! ### The queue -/

theorem send_waiters (s : Middleware) (r : Nat) (permit : Except Nat Unit) :
    (s.send r permit).waiters = s.waiters := by
  rw [Middleware.send]
  split <;> rfl

theorem send_processor (s : Middleware) (r : Nat) (permit : Except Nat Unit) :
    (s.send r permit).processor = s.processor := by
  rw [Middleware.send]
  split <;> rfl

/-- What is sent reaches a request that waits, with the token if it is a permit. -/
theorem send_permits (processor : ProcessorStage) (waiters : List Waiter) (r : Nat)
    (permit : Except Nat Unit) (h : Ticketed s) (hn : s.inner.tokens = n)
    (hcap : n + s.held = c.capacity)
    (hperm : s.tickets.Perm (r :: tickets { s with processor := processor, waiters := waiters }))
    (hgrants : s.grants.countP (awaits s.requests) =
      (grants { s with processor := processor, waiters := waiters }).countP (awaits s.requests) +
        if awaits s.requests r = true ∧ permit = .ok () then 1 else 0) :
    Ticketed { s.send r permit with processor := processor, waiters := waiters } ∧
      Whole c { s.send r permit with processor := processor, waiters := waiters } := by
  have hnodup := List.nodup_cons.mp (hperm.nodup_iff.mp h.nodup)
  have hother : ∀ r' ∈ tickets { s with processor := processor, waiters := waiters }, r' ∈ s.tickets :=
    fun r' hr' => hperm.symm.subset (mem_cons_of_mem _ hr')
  have hno : r ∉ grants { s with processor := processor, waiters := waiters } :=
    fun hg => hnodup.1 (mem_tickets_of_grants hg)
  rw [held] at hcap
  rw [Middleware.send]
  split
  · next hw =>
    have hcount := countP_move hw (.waiting (some permit)) RequestStage.holds
    refine ⟨⟨hnodup.2, fun r' hr' => ?_⟩, n, hn, ?_⟩
    · have hne : r ≠ r' := fun heq => hnodup.1 (heq ▸ hr')
      simp only [Middleware.setRequest, List.getElem?_set_ne hne]
      exact h.waiting r' (hother r' hr')
    · have hheld : held { s.setRequest r (.waiting (some permit)) with
          processor := processor, waiters := waiters } =
          (s.requests.set r (.waiting (some permit))).countP RequestStage.holds +
            (grants { s with processor := processor, waiters := waiters }).countP
              (awaits s.requests) := by
        rw [← countP_awaits_set hno]
        rfl
      simp only [awaits, hw, decide_true, true_and] at hgrants
      rw [hheld]
      cases permit with
      | ok u =>
        simp only [RequestStage.holds, Bool.false_eq_true, if_false, if_true, Nat.add_zero] at hcount
        simp only [if_true] at hgrants
        omega
      | error status =>
        simp only [RequestStage.holds, Bool.false_eq_true, if_false, Nat.add_zero] at hcount
        simp only [reduceCtorEq, if_false, Nat.add_zero] at hgrants
        omega
  · next hw =>
    refine ⟨⟨hnodup.2, fun r' hr' => h.waiting r' (hother r' hr')⟩, n, hn, ?_⟩
    rw [if_neg (by simp [awaits, hw]), Nat.add_zero] at hgrants
    rw [hgrants] at hcap
    exact hcap

/-- The state after an operation: one token less is accounted for if it was lost. -/
def After (c : LimiterConfig) (s : Middleware) (lost : Prop) : Prop :=
  Ticketed s ∧ ∃ n : Nat, s.inner.tokens = n ∧ (lost → n + s.held + 1 = c.capacity) ∧
    (¬ lost → n + s.held = c.capacity)

theorem Whole.after {lost : Prop} (h : Ticketed s ∧ Whole c s) (hlost : ¬ lost) : After c s lost := by
  obtain ⟨n, hn, hsum⟩ := h.2
  exact ⟨h.1, n, hn, fun hl => absurd hl hlost, fun _ => hsum⟩

/-- **A token is taken for a request**: it is on its way if the request waits, and lost otherwise. -/
theorem after_grant {inner : TokenBucketInner} {n' r : Nat} {lost : Prop}
    (hcap : n + s.held = c.capacity) (hticketed : Ticketed s') (hinner : s'.inner = inner)
    (hn' : inner.tokens = n') (htaken : n' + 1 = n) (hrequests : s'.requests = s.requests)
    (hgrants : s'.grants.Perm (r :: s.grants)) (hlost : lost ↔ awaits s.requests r = false) :
    After c s' lost := by
  have hheld : s'.held = s.held + if awaits s.requests r = true then 1 else 0 := by
    rw [held, held, hrequests, hgrants.countP_eq, countP_cons]
    omega
  refine ⟨hticketed, n', hinner ▸ hn', fun hl => ?_, fun hl => ?_⟩
  · rw [hheld, hlost.mp hl, if_neg Bool.false_ne_true]
    omega
  · have hwaits : awaits s.requests r = true := by
      by_contra hno
      exact hl (hlost.mpr (Bool.not_eq_true _ ▸ hno))
    rw [hheld, if_pos hwaits]
    omega

/-- **The queue processor.** -/
theorem processor_permits (h : Ticketed s) (hn : s.inner.tokens = n) (hcap : n + s.held = c.capacity)
    (hstep : s.moveProcessor c now = some s') : After c s' (Loses c s (.processor now)) := by
  have hnone : ∀ stage, s.processor = stage → (∀ queued, stage ≠ .trying queued) →
      ¬ Loses c s (.processor now) := by
    rintro stage hp hne ⟨queued, hq, -⟩
    exact hne queued (hp.symm.trans hq)
  rw [moveProcessor] at hstep
  split at hstep
  -- idle: the next request leaves the queue for the processor, ticket and all
  · next hp =>
    split at hstep
    · cases hstep
    · next queued queue hq =>
      cases hstep
      refine Whole.after ⟨?_, n, hn, ?_⟩ (hnone _ hp (by simp))
      · refine h.of_perm (l := []) rfl ?_
        rw [append_nil]
        simp only [tickets, hp, hq, ProcessorStage.ticket, map_cons, nil_append, cons_append]
        exact perm_middle
      · simpa [held, grants, hp, ProcessorStage.grant] using hcap
  -- received: the time in the queue is up and the request is refused, or it tries for a token
  · next queued hp =>
    split at hstep
    · cases hstep
      dsimp only
      rw [send_waiters]
      refine Whole.after (send_permits .idle s.waiters queued.request (.error requestTimeout) h hn hcap
        ?_ ?_) (hnone _ hp (by simp))
      · simp only [tickets, hp, ProcessorStage.ticket, nil_append, singleton_append]
        exact perm_middle
      · simp [grants, hp, ProcessorStage.grant]
    · cases hstep
      refine Whole.after ⟨?_, n, hn, ?_⟩ (hnone _ hp (by simp))
      · refine h.of_perm (l := []) rfl ?_
        rw [append_nil]
        simp only [tickets, hp, ProcessorStage.ticket]
        exact List.Perm.refl _
      · simpa [held, grants, hp, ProcessorStage.grant] using hcap
  -- trying: the one arm that can take a token with nobody left to have it
  · next queued hp =>
    obtain ⟨n', hn', hsum⟩ := tryAcquire_tokens (c := c) hn (by omega) now
    dsimp only at hstep
    split at hstep
    · next hok =>
      cases hstep
      rw [if_pos hok] at hsum
      refine after_grant (r := queued.request) hcap ?_ rfl hn' hsum rfl ?_ ?_
      · refine h.of_perm (l := []) rfl ?_
        rw [append_nil]
        simp only [tickets, hp, ProcessorStage.ticket]
        exact List.Perm.refl _
      · simp only [grants, hp, ProcessorStage.grant]
        exact List.Perm.refl _
      · constructor
        · rintro ⟨queued', hq, -, hgone⟩
          obtain rfl := ProcessorStage.trying.inj (hp.symm.trans hq)
          exact hgone
        · exact fun hgone => ⟨queued, hp, hok, hgone⟩
    · next hok =>
      cases hstep
      -- no token: the ticket passes to the task that is spawned to wait
      rw [if_neg hok, Nat.add_zero] at hsum
      have hkept : ¬ Loses c s (.processor now) := by
        rintro ⟨_, _, hlost, _⟩
        exact hok hlost
      refine Whole.after ⟨?_, n', hn', ?_⟩ hkept
      · refine h.of_perm (l := []) rfl ?_
        rw [append_nil]
        simp only [tickets, hp, ProcessorStage.ticket, filter_append, map_append, nil_append]
        exact List.Perm.append_left _ perm_append_comm
      · rw [hsum]
        simpa [held, grants, hp, ProcessorStage.grant, Waiter.grants] using hcap
  -- granting: the token taken is sent, and counted at its request from here on
  · next queued hp =>
    cases hstep
    dsimp only
    rw [send_waiters]
    refine Whole.after (send_permits .idle s.waiters queued.request (.ok ()) h hn hcap ?_ ?_)
      (hnone _ hp (by simp))
    · simp only [tickets, hp, ProcessorStage.ticket, nil_append, singleton_append]
      exact perm_middle
    · simp only [grants, hp, ProcessorStage.grant, singleton_append, countP_cons, and_true, nil_append]

section
variable {j : Nat} {w : Waiter} {l₁ l₂ : List Waiter}

/-- The tickets and the grants with one task between the others. -/
theorem tickets_split (hl : s.waiters = l₁ ++ w :: l₂) (hopen : w.isOpen = true) :
    s.tickets.Perm (w.request :: (s.queue.map QueuedRequest.request ++ (s.processor.ticket ++
      ((l₁.filter Waiter.isOpen).map Waiter.request ++ (l₂.filter Waiter.isOpen).map Waiter.request)))) := by
  rw [tickets, hl, filter_append, filter_cons_of_pos hopen, map_append, map_cons,
    ← append_assoc, ← append_assoc, ← append_assoc, ← append_assoc]
  exact perm_middle

theorem tickets_closed (hl : s.waiters = l₁ ++ w :: l₂) (hopen : w.isOpen = false) :
    s.tickets = s.queue.map QueuedRequest.request ++ (s.processor.ticket ++
      ((l₁.filter Waiter.isOpen).map Waiter.request ++ (l₂.filter Waiter.isOpen).map Waiter.request)) := by
  rw [tickets, hl, filter_append, filter_cons_of_neg (by rw [hopen]; exact Bool.false_ne_true),
    map_append]

theorem grants_split (hl : s.waiters = l₁ ++ w :: l₂) (hgrants : w.grants = true) :
    s.grants.Perm (w.request :: (s.processor.grant ++
      ((l₁.filter Waiter.grants).map Waiter.request ++ (l₂.filter Waiter.grants).map Waiter.request))) := by
  rw [grants, hl, filter_append, filter_cons_of_pos hgrants, map_append, map_cons,
    ← append_assoc, ← append_assoc]
  exact perm_middle

theorem grants_without (hl : s.waiters = l₁ ++ w :: l₂) (hgrants : w.grants = false) :
    s.grants = s.processor.grant ++
      ((l₁.filter Waiter.grants).map Waiter.request ++ (l₂.filter Waiter.grants).map Waiter.request) := by
  rw [grants, hl, filter_append,
    filter_cons_of_neg (by rw [hgrants]; exact Bool.false_ne_true), map_append]

/-- A task sends, and its ticket is gone. -/
theorem waiter_sends (permit : Except Nat Unit) (h : Ticketed s) (hn : s.inner.tokens = n)
    (hcap : n + s.held = c.capacity) (hj : s.waiters[j]? = some w) (hsent : w.sent = false)
    (hpermit : w.grants = true ↔ permit = .ok ()) :
    Ticketed { s.send w.request permit with waiters := s.waiters.set j { w with sent := true } } ∧
      Whole c { s.send w.request permit with
        waiters := s.waiters.set j { w with sent := true } } := by
  obtain ⟨l₁, l₂, hl, hset⟩ := exists_split hj
  have hopen : w.isOpen = true := by rw [Waiter.isOpen, hsent]; rfl
  have hclosed : Waiter.isOpen { w with sent := true } = false := rfl
  have hempty : Waiter.grants { w with sent := true } = false := rfl
  dsimp only
  rw [send_processor]
  refine send_permits s.processor _ w.request permit h hn hcap ?_ ?_
  · have htickets := tickets_closed (s := { s with
      waiters := s.waiters.set j { w with sent := true } }) (hset _) hclosed
    rw [htickets]
    exact tickets_split hl hopen
  · have hgrants := grants_without (s := { s with
      waiters := s.waiters.set j { w with sent := true } }) (hset _) hempty
    rw [hgrants]
    cases hg : w.grants with
    | true =>
      rw [(grants_split hl hg).countP_eq, countP_cons]
      simp only [hpermit.mp hg, and_true]
    | false =>
      have hne : permit ≠ .ok () := fun heq => by
        rw [hpermit.mpr heq] at hg
        cases hg
      rw [grants_without hl hg, if_neg fun hor => hne hor.2]
      rfl

/-- A task moves on and has no token. -/
theorem waiter_moves {inner : TokenBucketInner} {n' : Nat} {stage' : AcquireStage} (h : Ticketed s)
    (hcap : n' + s.held = c.capacity) (hn' : inner.tokens = n') (hj : s.waiters[j]? = some w)
    (hbefore : w.grants = false) (hafter : Waiter.grants { w with stage := stage' } = false) :
    Ticketed { s with inner := inner, waiters := s.waiters.set j { w with stage := stage' } } ∧
      Whole c { s with inner := inner, waiters := s.waiters.set j { w with stage := stage' } } := by
  obtain ⟨l₁, l₂, hl, hset⟩ := exists_split hj
  have hset' := hset { w with stage := stage' }
  refine ⟨h.of_perm (l := []) rfl ?_, n', hn', ?_⟩
  · rw [append_nil]
    cases hopen : w.isOpen with
    | true =>
      have htickets := tickets_split (s := { s with
        inner := inner, waiters := s.waiters.set j { w with stage := stage' } }) hset' hopen
      exact htickets.trans (tickets_split hl hopen).symm
    | false =>
      have htickets := tickets_closed (s := { s with
        inner := inner, waiters := s.waiters.set j { w with stage := stage' } }) hset' hopen
      rw [htickets, tickets_closed hl hopen]
  · have hgrants := grants_without (s := { s with
      inner := inner, waiters := s.waiters.set j { w with stage := stage' } }) hset' hafter
    rw [← hcap, held, held, hgrants, grants_without hl hbefore]

end

/-- What a task does. -/
theorem moveWaiter_cases {j : Nat} {w : Waiter} (h : s.moveWaiter c j now w = some s') :
    w.sent = false ∧ (w.stage = .acquired ∧ s' = { s.send w.request (.ok ()) with
          waiters := s.waiters.set j { w with sent := true } } ∨
        w.stage = .elapsed ∧ s' = { s.send w.request (.error requestTimeout) with
          waiters := s.waiters.set j { w with sent := true } } ∨
        w.stage = .refused ∧ s' = { s with
          waiters := s.waiters.set j { w with stage := .parked } } ∨
        (w.stage = .trying ∨ w.stage = .woken) ∧ s' = { s with
          inner := (s.tryAcquire c now).1
          waiters := s.waiters.set j { w with
            stage := if (s.tryAcquire c now).2 = true then .acquired else .refused } }) := by
  obtain ⟨r, stage, sent⟩ := w
  cases sent with
  | true => cases h
  | false =>
    refine ⟨rfl, ?_⟩
    cases stage with
    | acquired => exact Or.inl ⟨rfl, (Option.some.inj h).symm⟩
    | elapsed => exact Or.inr (Or.inl ⟨rfl, (Option.some.inj h).symm⟩)
    | refused => exact Or.inr (Or.inr (Or.inl ⟨rfl, (Option.some.inj h).symm⟩))
    | trying => exact Or.inr (Or.inr (Or.inr ⟨Or.inl rfl, (Option.some.inj h).symm⟩))
    | woken => exact Or.inr (Or.inr (Or.inr ⟨Or.inr rfl, (Option.some.inj h).symm⟩))
    | parked => cases h

/-- **A task that waits for a token.** -/
theorem waiter_permits {j : Nat} {w : Waiter} (h : Ticketed s) (hn : s.inner.tokens = n)
    (hcap : n + s.held = c.capacity) (hj : s.waiters[j]? = some w)
    (hstep : s.moveWaiter c j now w = some s') : After c s' (Loses c s (.waiter j now)) := by
  have hlost : Loses c s (.waiter j now) ↔ w.sent = false ∧ (w.stage = .trying ∨ w.stage = .woken) ∧
      (s.tryAcquire c now).2 = true ∧ awaits s.requests w.request = false := by
    constructor
    · rintro ⟨w', hw', hlost⟩
      cases hj.symm.trans hw'
      exact hlost
    · exact fun hlost => ⟨w, hj, hlost⟩
  obtain ⟨hsent, ⟨hstage, rfl⟩ | ⟨hstage, rfl⟩ | ⟨hstage, rfl⟩ | ⟨hstage, rfl⟩⟩ := moveWaiter_cases hstep
  · refine Whole.after (waiter_sends (.ok ()) h hn hcap hj hsent ?_) ?_
    · simp [Waiter.grants, hsent, hstage]
    · simp [hlost, hstage]
  · refine Whole.after (waiter_sends (.error requestTimeout) h hn hcap hj hsent ?_) ?_
    · simp [Waiter.grants, hstage]
    · simp [hlost, hstage]
  · refine Whole.after (waiter_moves h hcap hn hj ?_ ?_) ?_
    · simp [Waiter.grants, hstage]
    · simp [Waiter.grants]
    · simp [hlost, hstage]
  · have hbefore : w.grants = false := by
      rcases hstage with hstage | hstage <;> simp [Waiter.grants, hstage]
    obtain ⟨n', hn', hsum⟩ := tryAcquire_tokens (c := c) hn (by omega) now
    cases hok : (s.tryAcquire c now).2 with
    | false =>
      rw [hok, if_neg Bool.false_ne_true, Nat.add_zero] at hsum
      refine Whole.after (waiter_moves h (by omega) hn' hj hbefore ?_) (by simp [hlost, hok])
      simp [Waiter.grants]
    | true =>
      rw [hok, if_pos rfl] at hsum
      obtain ⟨l₁, l₂, hl, hset⟩ := exists_split hj
      have hset' := hset { w with stage := .acquired }
      have hopen : w.isOpen = true := by rw [Waiter.isOpen, hsent]; rfl
      have hgrants : Waiter.grants { w with stage := .acquired } = true := by
        simp [Waiter.grants, hsent]
      rw [if_pos rfl]
      refine after_grant (r := w.request) hcap ?_ rfl hn' hsum rfl ?_ (by simp [hlost, hok, hsent, hstage])
      · refine h.of_perm (l := []) rfl ?_
        rw [append_nil]
        have htickets := tickets_split (s := { s with
          inner := (s.tryAcquire c now).1
          waiters := s.waiters.set j { w with stage := .acquired } }) hset' hopen
        exact htickets.trans (tickets_split hl hopen).symm
      · have hmore := grants_split (s := { s with
          inner := (s.tryAcquire c now).1
          waiters := s.waiters.set j { w with stage := .acquired } }) hset' hgrants
        rw [grants_without hl hbefore]
        exact hmore

/-! ### Every operation -/

/-- **What an operation does to the tokens**: each is where it was, has moved, or is lost. -/
theorem step_permits {op : Operation} (h : Ticketed s) (hn : s.inner.tokens = n)
    (hcap : n + s.held = c.capacity) (hstep : s.step c op = some s') :
    After c s' (Loses c s op) := by
  cases op with
  | arrive exceeded =>
    cases hstep
    have hnew : ∀ r stage, s.requests[r]? = some stage →
        (s.requests ++ [if exceeded = true then RequestStage.rejected tooManyRequests
          else .arrived])[r]? = some stage := fun r stage hr => by
      rw [List.getElem?_append_left (List.getElem?_eq_some_iff.mp hr).1, hr]
    refine Whole.after ⟨⟨h.nodup, fun r hr => (h.waiting r hr).imp (hnew r _) (hnew r _)⟩, n, hn, ?_⟩ id
    rw [← hcap, held, held]
    congr 2
    · cases exceeded <;> simp [countP_append, RequestStage.holds]
    · refine countP_congr fun r hr => ?_
      have hw := h.waiting r (mem_tickets_of_grants hr)
      simp only [awaits, decide_eq_true_eq]
      rcases hw with hw | hw
      · simp only [hnew r _ hw, hw]
      · simp only [hnew r _ hw, hw]
  | request i now =>
    obtain ⟨stage, hi, hstep⟩ := Option.bind_eq_some_iff.mp hstep
    exact Whole.after (request_permits h hn hcap hi hstep) id
  | cancel i =>
    obtain ⟨stage, hi, hstep⟩ := Option.bind_eq_some_iff.mp hstep
    split at hstep
    · next hawaiting =>
      cases hstep
      obtain ⟨hticketed, hheld⟩ := cancel_permits h hi hawaiting
      have hlost : Loses c s (.cancel i) ↔
          stage.holds = true ∨ stage = .waiting none ∧ i ∈ s.grants := by
        constructor
        · rintro ⟨stage', hi', -, hlost⟩
          cases hi.symm.trans hi'
          exact hlost
        · exact fun hlost => ⟨stage, hi, hawaiting, hlost⟩
      refine ⟨hticketed, n, hn, fun hl => ?_, fun hl => ?_⟩
      · rw [if_pos (hlost.mp hl)] at hheld
        omega
      · rw [if_neg fun hl' => hl (hlost.mpr hl')] at hheld
        omega
    · cases hstep
  | processor now => exact processor_permits h hn hcap hstep
  | waiter j now =>
    obtain ⟨w, hj, hstep⟩ := Option.bind_eq_some_iff.mp hstep
    exact waiter_permits h hn hcap hj hstep
  | elapse j =>
    obtain ⟨w, hj, hstep⟩ := Option.bind_eq_some_iff.mp hstep
    split at hstep
    · next hparked =>
      cases hstep
      refine Whole.after (waiter_moves h hcap hn hj ?_ ?_) id
      · simp [Waiter.grants, hparked]
      · simp [Waiter.grants]
    · cases hstep

end

/-! ### Runs -/

/-- The invariant of a run that has lost nothing. -/
def Kept (c : LimiterConfig) (s : Middleware) : Prop := Ticketed s ∧ Conserved c s

theorem kept_init (c : LimiterConfig) : Kept c (Middleware.init c) := by
  refine ⟨ticketed_init c, ?_⟩
  rw [Conserved]
  exact add_zero _

theorem Kept.step {c : LimiterConfig} {s s' : Middleware} {op : Operation} (h : Kept c s)
    (hkeeps : ¬ Loses c s op) (hstep : s.step c op = some s') : Kept c s' := by
  obtain ⟨n, hn, hcap⟩ := conserved_iff.mp h.2
  obtain ⟨hticketed, n', hn', -, hwhole⟩ := step_permits h.1 hn hcap hstep
  exact ⟨hticketed, conserved_iff.mpr ⟨n', hn', hwhole hkeeps⟩⟩

/-- An operation that loses a token can be done. -/
theorem step_of_loses {c : LimiterConfig} {s : Middleware} {op : Operation} (h : Loses c s op) :
    ∃ s', s.step c op = some s' := by
  cases op with
  | arrive exceeded => cases h
  | request i now => cases h
  | elapse j => cases h
  | cancel i =>
    obtain ⟨stage, hi, hawaiting, -⟩ := h
    exact ⟨_, by simp only [Middleware.step, hi, Option.bind_some, if_pos hawaiting]; rfl⟩
  | processor now =>
    obtain ⟨queued, hp, hok, -⟩ := h
    exact ⟨_, by simp only [Middleware.step, moveProcessor, hp, hok, if_true]; rfl⟩
  | waiter j now =>
    obtain ⟨w, hj, hsent, hstage, -⟩ := h
    rcases hstage with hstage | hstage
    · exact ⟨_, by simp only [Middleware.step, hj, Option.bind_some, moveWaiter, hsent,
        if_neg Bool.false_ne_true, hstage, TokenBucket.acquireStep]; rfl⟩
    · exact ⟨_, by simp only [Middleware.step, hj, Option.bind_some, moveWaiter, hsent,
        if_neg Bool.false_ne_true, hstage, TokenBucket.acquireStep]; rfl⟩

/-- **Every token is accounted for in every state of a run, and no more requests than the capacity have
one, exactly when no operation of the run cancels a request that has a token or is about to get one,
or takes a token for a request that is gone.** -/
theorem permits_iff (c : LimiterConfig) (ops : List Operation) :
    (∀ k s, Runs.exec (Middleware.step c) (Middleware.init c) (ops.take k) = some s →
        Conserved c s ∧ s.requests.countP RequestStage.holds ≤ c.capacity) ↔
      ∀ k s op, Runs.exec (Middleware.step c) (Middleware.init c) (ops.take k) = some s →
        ops[k]? = some op → ¬ Loses c s op := by
  constructor
  · intro hconserved k s op hs hop hloses
    have hkept : Ticketed s := Runs.exec_invariant (J := Ticketed) (C := fun s _ => Conserved c s)
      (fun h hc hstep => by
        obtain ⟨n, hn, hcap⟩ := conserved_iff.mp hc
        exact (step_permits h hn hcap hstep).1)
      (ticketed_init c) (fun k s _ hs _ => (hconserved k s hs).1) k s hs
    obtain ⟨n, hn, hcap⟩ := conserved_iff.mp (hconserved k s hs).1
    obtain ⟨s', hstep⟩ := step_of_loses hloses
    have hs' : Runs.exec (Middleware.step c) (Middleware.init c) (ops.take (k + 1)) = some s' := by
      rw [Runs.exec_take_succ _ hop, hs]
      exact hstep
    obtain ⟨n₁, hn₁, hcap₁⟩ := conserved_iff.mp (hconserved (k + 1) s' hs').1
    obtain ⟨-, n₂, hn₂, hlost, -⟩ := step_permits hkept hn hcap hstep
    have hsame : n₁ = n₂ := Nat.cast_injective (hn₁.symm.trans hn₂)
    have := hlost hloses
    omega
  · intro hkeeps k s hs
    have hkept : Kept c s := Runs.exec_invariant (J := Kept c) (C := fun s op => ¬ Loses c s op)
      (fun h hc hstep => h.step hc hstep) (kept_init c) hkeeps k s hs
    obtain ⟨n, -, hcap⟩ := conserved_iff.mp hkept.2
    rw [held] at hcap
    exact ⟨hkept.2, by omega⟩

/-- **A disconnect loses a token**: one request, cancelled while its handler runs. -/
theorem cancelled_request_loses_token :
    ¬ ∀ c ops s, Runs.exec (Middleware.step c) (Middleware.init c) ops = some s → Conserved c s := by
  intro h
  have hrun : Runs.exec (Middleware.step ⟨1, 0, 0⟩) (Middleware.init ⟨1, 0, 0⟩)
      [.arrive false, .request 0 0, .cancel 0] =
        some { inner := ⟨0, 0⟩, requests := [.cancelled] } := by
    decide +kernel
  have hsum := h ⟨1, 0, 0⟩ _ _ hrun
  rw [Conserved] at hsum
  exact absurd hsum (by decide +kernel)

end QwenStack.Limiter
