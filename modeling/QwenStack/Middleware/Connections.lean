import QwenStack.Support.Assoc
import QwenStack.Support.Runs
import QwenStack.Support.Threads

/-!
# Middleware — the requests in flight

`HttpMetricsMiddleware` of `gateway/src/middleware.rs` and the tracker of
`gateway/src/observability/inflight_tracker.rs`: two counts of the requests in flight, a number that the future
of a request adds to and takes from, and a map of the requests, out of which a guard takes its entry when it
is dropped.

A future is at the operation it does next, and futures interleave operation by operation.  A future that is
dropped at its await, or unwound by a panic of the inner service, drops its guard, and runs no more of its
code.  So it stays in the number for good, and the counts are right in the states that have no such future,
nor one that is between the operations of one poll (`accurate_iff`).

The counts are `u64` and start at zero; a process serves fewer than `2 ^ 64` requests, so they have no bound
here.  The metrics are left out.
-/

namespace QwenStack.Middleware
open Assoc List

/-! ### The tracker -/

/-- `InFlightRequestTracker`: when the requests came, by id. -/
structure InFlightRequestTracker where
  requests : List (Nat × Nat) := []
  nextId : Nat := 0
  deriving DecidableEq, Repr

namespace InFlightRequestTracker

/-- The first operation of `track`. -/
def drawId (t : InFlightRequestTracker) : InFlightRequestTracker × Nat :=
  ({ t with nextId := t.nextId + 1 }, t.nextId)

/-- The second operation of `track`; `now` is the clock. -/
def insert (t : InFlightRequestTracker) (requestId now : Nat) : InFlightRequestTracker :=
  { t with requests := put requestId now t.requests }

/-- `InFlightGuard::drop`. -/
def remove (t : InFlightRequestTracker) (requestId : Nat) : InFlightRequestTracker :=
  { t with requests := del requestId t.requests }

/-- `len`. -/
def len (t : InFlightRequestTracker) : Nat := t.requests.length

end InFlightRequestTracker

/-! ### The futures -/

/-- The future of a request, by how far it is; `R` is what the inner service returns, which may be an error.
A guard is its request id. -/
inductive RequestFuture (R : Type) where
  /-- It has not been polled. -/
  | unpolled
  /-- After `fetch_add`. -/
  | counted
  /-- In `track`, after the id is drawn. -/
  | drawn (requestId : Nat)
  /-- At the await. -/
  | awaiting (guard : Nat)
  /-- The inner service has returned. -/
  | resumed (guard : Nat) (result : R)
  /-- After `drop(guard)`. -/
  | released (result : R)
  /-- After `fetch_sub`. -/
  | finished (result : R)
  /-- Dropped before it was polled. -/
  | discarded
  /-- Dropped at the await. -/
  | cancelled
  deriving DecidableEq, Repr

namespace RequestFuture
variable {R : Type}

/-- It has started, and neither finished nor been dropped. -/
def isLive : RequestFuture R → Bool
  | counted | drawn _ | awaiting _ | resumed _ _ | released _ => true
  | _ => false

def isCancelled : RequestFuture R → Bool
  | cancelled => true
  | _ => false

/-- Between the operations of one poll, where the number has it and the tracker has it not. -/
def isMidway : RequestFuture R → Bool
  | counted | drawn _ | released _ => true
  | _ => false

/-- The id it has drawn and may have in the tracker. -/
def requestId : RequestFuture R → Option Nat
  | drawn id | awaiting id | resumed id _ => some id
  | _ => none

/-- The id it has in the tracker. -/
def trackedId : RequestFuture R → Option Nat
  | awaiting id | resumed id _ => some id
  | _ => none

end RequestFuture

/-! ### Runs -/

structure State (R : Type) where
  /-- `ACTIVE_HTTP_CONNECTIONS`. -/
  activeHttpConnections : Nat := 0
  tracker : InFlightRequestTracker := {}
  futures : List (RequestFuture R) := []
  deriving DecidableEq, Repr

inductive Action (R : Type) where
  /-- `HttpMetricsMiddleware::call` makes a future. -/
  | call
  /-- A future does its next operation. -/
  | advance (i now : Nat)
  /-- The inner service returns. -/
  | answer (i : Nat) (result : R)
  /-- A future is dropped that is not under way in a poll. -/
  | drop (i : Nat)
  deriving DecidableEq, Repr

namespace State
variable {R : Type} (s : State R)

/-- The requests that have started, and neither finished nor been dropped. -/
def live : Nat := s.futures.countP RequestFuture.isLive

/-- The next operation of the `i`-th future. -/
def advance (i now : Nat) : RequestFuture R → Option (State R)
  | .unpolled => some { s with
      activeHttpConnections := s.activeHttpConnections + 1
      futures := s.futures.set i .counted }
  | .counted => some { s with
      tracker := s.tracker.drawId.1
      futures := s.futures.set i (.drawn s.tracker.drawId.2) }
  | .drawn id => some { s with
      tracker := s.tracker.insert id now
      futures := s.futures.set i (.awaiting id) }
  | .resumed id result => some { s with
      tracker := s.tracker.remove id
      futures := s.futures.set i (.released result) }
  | .released result => some { s with
      activeHttpConnections := s.activeHttpConnections - 1
      futures := s.futures.set i (.finished result) }
  | _ => none

/-- The inner service returns to the `i`-th future. -/
def answer (i : Nat) (result : R) : RequestFuture R → Option (State R)
  | .awaiting id => some { s with futures := s.futures.set i (.resumed id result) }
  | _ => none

/-- The drop of the `i`-th future. -/
def drop (i : Nat) : RequestFuture R → Option (State R)
  | .unpolled => some { s with futures := s.futures.set i .discarded }
  | .awaiting id => some { s with
      tracker := s.tracker.remove id
      futures := s.futures.set i .cancelled }
  | _ => none

def step (s : State R) : Action R → Option (State R)
  | .call => some { s with futures := s.futures ++ [.unpolled] }
  | .advance i now => (s.futures[i]?).bind (s.advance i now)
  | .answer i result => (s.futures[i]?).bind (s.answer i result)
  | .drop i => (s.futures[i]?).bind (s.drop i)

/-- The state after some actions. -/
def run (actions : List (Action R)) : Option (State R) := Runs.exec step {} actions

/-- Both counts are the number of the requests in flight. -/
structure Accurate : Prop where
  connections : s.activeHttpConnections = s.live
  tracked : s.activeHttpConnections = s.tracker.len

end State

/-! ### The invariant -/

open State RequestFuture

section
variable {R : Type} {s : State R} {futures rest : List (RequestFuture R)}

/-- Each entry has its future, and each future that has started is counted, until it finishes. -/
structure Held (s : State R) (futures : List (RequestFuture R)) : Prop where
  connections : s.activeHttpConnections = futures.countP isLive + futures.countP isCancelled
  entries : (keys s.tracker.requests).Perm (futures.filterMap trackedId)
  ids : (futures.filterMap requestId).Nodup
  lt : ∀ id ∈ futures.filterMap requestId, id < s.tracker.nextId

theorem Held.perm (h : Held s futures) {futures' : List (RequestFuture R)}
    (hperm : futures.Perm futures') : Held s futures' where
  connections := by rw [h.connections, hperm.countP_eq, hperm.countP_eq]
  entries := h.entries.trans (hperm.filterMap _)
  ids := (hperm.filterMap _).nodup_iff.mp h.ids
  lt id hid := h.lt id ((hperm.filterMap _).mem_iff.mpr hid)

/-- After a future has moved. -/
theorem Held.of_set (hperm : s.futures.Perm futures) (h : Held s futures) : Held s s.futures :=
  h.perm hperm.symm

theorem held_empty : Held ({} : State R) [] :=
  ⟨rfl, .nil, nodup_nil, fun _ h => absurd h not_mem_nil⟩

theorem trackedId_sublist : (futures.filterMap trackedId).Sublist (futures.filterMap requestId) := by
  induction futures with
  | nil => exact .slnil
  | cons f futures ih =>
    cases f with
    | drawn id => exact ih.cons id
    | awaiting id | resumed id => exact ih.cons_cons id
    | _ => exact ih

/-- The entry of the first future is taken out. -/
theorem keys_remove {id : Nat} (hids : (id :: rest.filterMap requestId).Nodup)
    (hkeys : (keys s.tracker.requests).Perm (id :: rest.filterMap trackedId)) :
    (keys (s.tracker.remove id).requests).Perm (rest.filterMap trackedId) := by
  have hnodup : (keys s.tracker.requests).Nodup :=
    hkeys.nodup_iff.mpr (hids.sublist (trackedId_sublist.cons_cons id))
  obtain ⟨now, hnow⟩ := mem_keys_iff.mp (hkeys.mem_iff.mpr mem_cons_self)
  have hdel : (keys s.tracker.requests).Perm (id :: keys (s.tracker.remove id).requests) :=
    (perm_del hnodup hnow).map Prod.fst
  exact (hdel.symm.trans hkeys).cons_inv

/-- A future does its next operation. -/
theorem Held.advance {i now : Nat} {f : RequestFuture R} {s' : State R} (h : Held s (f :: rest))
    (hset : ∀ f', (s.futures.set i f').Perm (f' :: rest)) (hstep : s.advance i now f = some s') :
    Held s' s'.futures := by
  obtain ⟨hconnections, hkeys, hids, hlt⟩ := h
  cases f with
  | unpolled =>
    cases hstep
    refine Held.of_set (hset _) ⟨?_, hkeys, hids, hlt⟩
    simp [countP_cons, isLive, isCancelled] at hconnections ⊢
    omega
  | counted =>
    cases hstep
    refine Held.of_set (hset _) ⟨hconnections, hkeys, ?_, ?_⟩
    · exact List.nodup_cons.mpr ⟨fun hmem => absurd (hlt _ hmem) (Nat.lt_irrefl _), hids⟩
    · intro id hid
      rcases List.mem_cons.mp hid with rfl | hid
      · exact Nat.lt_succ_self _
      · exact Nat.lt_succ_of_lt (hlt id hid)
  | drawn id =>
    cases hstep
    refine Held.of_set (hset _) ⟨hconnections, ?_, hids, hlt⟩
    have hnew : id ∉ keys s.tracker.requests := fun hmem =>
      (List.nodup_cons.mp hids).1 (trackedId_sublist.subset (hkeys.mem_iff.mp hmem))
    rw [InFlightRequestTracker.insert, keys_put, if_neg hnew]
    exact (perm_append_singleton id _).trans (hkeys.cons id)
  | awaiting id => cases hstep
  | resumed id result =>
    cases hstep
    exact Held.of_set (hset _) ⟨hconnections, keys_remove hids hkeys, hids.of_cons,
      fun id hid => hlt id (mem_cons_of_mem _ hid)⟩
  | released result =>
    cases hstep
    refine Held.of_set (hset _) ⟨?_, hkeys, hids, hlt⟩
    simp [countP_cons, isLive, isCancelled] at hconnections ⊢
    omega
  | finished result => cases hstep
  | discarded => cases hstep
  | cancelled => cases hstep

theorem Held.answer {i : Nat} {result : R} {f : RequestFuture R} {s' : State R}
    (h : Held s (f :: rest)) (hset : ∀ f', (s.futures.set i f').Perm (f' :: rest))
    (hstep : s.answer i result f = some s') : Held s' s'.futures := by
  cases f with
  | awaiting id =>
    cases hstep
    exact Held.of_set (hset _) ⟨h.connections, h.entries, h.ids, h.lt⟩
  | _ => cases hstep

/-- A dropped future stays in the number if it was at the await. -/
theorem Held.drop {i : Nat} {f : RequestFuture R} {s' : State R} (h : Held s (f :: rest))
    (hset : ∀ f', (s.futures.set i f').Perm (f' :: rest)) (hstep : s.drop i f = some s') :
    Held s' s'.futures := by
  obtain ⟨hconnections, hkeys, hids, hlt⟩ := h
  cases f with
  | unpolled =>
    cases hstep
    exact Held.of_set (hset _) ⟨hconnections, hkeys, hids, hlt⟩
  | awaiting id =>
    cases hstep
    refine Held.of_set (hset _) ⟨?_, keys_remove hids hkeys, hids.of_cons,
      fun id hid => hlt id (mem_cons_of_mem _ hid)⟩
    simp [countP_cons, isLive, isCancelled] at hconnections ⊢
    omega
  | _ => cases hstep

theorem Held.step {a : Action R} {s' : State R} (h : Held s s.futures) (hstep : s.step a = some s') :
    Held s' s'.futures := by
  cases a with
  | call =>
    cases hstep
    exact Held.of_set (perm_append_singleton _ _) ⟨h.connections, h.entries, h.ids, h.lt⟩
  | advance i now =>
    obtain ⟨f, hf, hstep⟩ := Option.bind_eq_some_iff.mp hstep
    obtain ⟨rest, hperm, hset⟩ := Threads.exists_perm hf
    exact (h.perm hperm).advance hset hstep
  | answer i result =>
    obtain ⟨f, hf, hstep⟩ := Option.bind_eq_some_iff.mp hstep
    obtain ⟨rest, hperm, hset⟩ := Threads.exists_perm hf
    exact (h.perm hperm).answer hset hstep
  | drop i =>
    obtain ⟨f, hf, hstep⟩ := Option.bind_eq_some_iff.mp hstep
    obtain ⟨rest, hperm, hset⟩ := Threads.exists_perm hf
    exact (h.perm hperm).drop hset hstep

/-- **Every run holds the counts.** -/
theorem held_run {actions : List (Action R)} (h : run actions = some s) : Held s s.futures :=
  Runs.exec_keeps Held.step held_empty h

/-- A request in flight is in the tracker, or midway. -/
theorem countP_isLive (futures : List (RequestFuture R)) : futures.countP isLive =
    (futures.filterMap trackedId).length + futures.countP isMidway := by
  induction futures with
  | nil => rfl
  | cons f futures ih =>
    cases f <;> simp [countP_cons, filterMap_cons, isLive, isMidway, trackedId, ih] <;> omega

/-- The gauge is off by the futures that were cancelled, the tracker by those that are midway. -/
theorem Held.accurate (hheld : Held s s.futures) : s.Accurate ↔
    s.futures.countP isCancelled = 0 ∧ s.futures.countP isMidway = 0 := by
  have hconnections : s.activeHttpConnections = s.live + s.futures.countP isCancelled :=
    hheld.connections
  have hlen : s.live = s.tracker.len + s.futures.countP isMidway := by
    rw [InFlightRequestTracker.len, ← length_map Prod.fst, ← Assoc.keys, hheld.entries.length_eq]
    exact countP_isLive s.futures
  constructor
  · rintro ⟨hlive, htracked⟩
    omega
  · rintro ⟨hcancelled, hmidway⟩
    exact ⟨by omega, by omega⟩

/-- **The counts are right in the states in which no future has been dropped at its await**, and none is
between the operations of one poll. -/
theorem accurate_iff {actions : List (Action R)} (h : run actions = some s) :
    s.Accurate ↔ ∀ f ∈ s.futures, f.isCancelled = false ∧ f.isMidway = false := by
  simp only [(held_run h).accurate, countP_eq_zero, Bool.not_eq_true]
  constructor
  · rintro ⟨hcancelled, hmidway⟩ f hf
    exact ⟨hcancelled f hf, hmidway f hf⟩
  · intro h
    exact ⟨fun f hf => (h f hf).1, fun f hf => (h f hf).2⟩

end

/-! ### Two requests -/

/-- The first is served, with an error, while the second is at its await. -/
def oneServed : List (Action (Except Nat Nat)) :=
  [.call, .call, .advance 0 5, .advance 0 5, .advance 1 6, .advance 0 7, .advance 1 7, .advance 1 8,
    .answer 0 (.error 3), .advance 0 9, .advance 0 9]

/-- The state then. -/
def oneWaits : State (Except Nat Nat) := ⟨1, ⟨[(1, 8)], 2⟩, [.finished (.error 3), .awaiting 1]⟩

theorem oneServed_accurate : run oneServed = some oneWaits ∧ oneWaits.Accurate := by
  have hrun : run oneServed = some oneWaits := rfl
  exact ⟨hrun, (accurate_iff hrun).mpr (by decide)⟩

/-- A client goes away while its request is served: the number keeps it. -/
theorem cancelled_stays : ∃ s : State Nat,
    run [.call, .advance 0 5, .advance 0 5, .advance 0 5, .drop 0] = some s ∧
      s.activeHttpConnections = 1 ∧ s.live = 0 ∧ s.tracker.len = 0 ∧ ¬ s.Accurate :=
  ⟨_, rfl, rfl, rfl, rfl, fun h => absurd h.connections (by decide)⟩

end QwenStack.Middleware
