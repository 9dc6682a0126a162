import Mathlib.Algebra.Order.BigOperators.Group.List
import Mathlib.Tactic.IntervalCases
import QwenStack.Load.Accounting
import QwenStack.PdRouter.Definitions

/-!
# PD router — the load of a session

A request is in the load of its two workers by two `WorkerLoadGuard`s.  One that is not streamed has
them on the stack of `execute_dual_dispatch_internal`, with the routing key of its headers, and loses
them when that returns.  A streamed one gets them in `create_streaming_response`, with the headers of
the answer, and its body holds them until it is dropped.

Requests interleave by the operations of the guards: `program` has them in order.  In every state the
load of a worker is the number of the guards that are there (`sessions_accounted`).
-/

namespace QwenStack.PdRouter
open Load Threads List
open Manual (HeaderMap extractRoutingKey headerRoutingKey)

variable {W : Type}

/-- A request, the workers it goes to, and what decode answers with. -/
structure Request (W : Type) where
  isStream : Bool
  headers : Option HeaderMap := none
  /-- What `preserve_response_headers` leaves of the answer. -/
  responseHeaders : HeaderMap := []
  prefill : W
  decode : W

def Request.worker (request : Request W) : Role → W
  | .prefill => request.prefill
  | .decode => request.decode

/-! ### The guards of a request -/

/-- An operation of a guard on its worker. -/
inductive Operation where
  | incrementLoad
  | incrementKey
  | decrementLoad
  | decrementKey
  deriving DecidableEq, Repr

def Operation.run (routingKey : Option Str) (worker : Worker) : Operation → Worker × List Warning
  | .incrementLoad => (worker.incrementLoad, [])
  | .incrementKey => (worker.incrementKey routingKey, [])
  | .decrementLoad => worker.decrementLoad
  | .decrementKey => worker.decrementKey routingKey

/-- `WorkerLoadGuard::new`. -/
def guardNew (role : Role) : List (Role × Operation) := [(role, .incrementLoad), (role, .incrementKey)]

/-- The `Drop` of `WorkerLoadGuard`. -/
def guardDrop (role : Role) : List (Role × Operation) := [(role, .decrementLoad), (role, .decrementKey)]

/-- The operations of a request's guards.  Variables are dropped in the reverse order, the elements of
a `Vec` are not. -/
def program (isStream : Bool) : List (Role × Operation) :=
  guardNew .prefill ++ guardNew .decode ++
    if isStream = true then guardDrop .prefill ++ guardDrop .decode
    else guardDrop .decode ++ guardDrop .prefill

/-- A request on its way. -/
structure Session (W : Type) where
  request : Request W
  /-- The number of operations done. -/
  done : Nat := 0
  /-- The response is dropped, or there is none. -/
  ended : Bool := false

namespace Session

/-- The routing key of the guards. -/
def routingKey (x : Session W) : Option Str :=
  extractRoutingKey (if x.request.isStream = true then some x.request.responseHeaders
    else x.request.headers)

/-- `execute_dual_dispatch_internal` runs, with the guards it begins with. -/
def dispatching (x : Session W) : Bool :=
  !x.ended && decide (x.done = if x.request.isStream = true then 0 else 4)

/-- The response is there, with the guards in its body. -/
def responding (x : Session W) : Bool :=
  !x.ended && decide (x.done = if x.request.isStream = true then 4 else 8)

end Session

theorem dispatching_done {x : Session W} (h : x.dispatching = true) :
    x.done = if x.request.isStream = true then 0 else 4 :=
  of_decide_eq_true (Bool.and_eq_true_iff.mp h).2

theorem responding_done {x : Session W} (h : x.responding = true) :
    x.done = if x.request.isStream = true then 4 else 8 :=
  of_decide_eq_true (Bool.and_eq_true_iff.mp h).2

/-! ### Requests together -/

structure State (W : Type) where
  workers : W → Worker := fun _ => {}
  sessions : List (Session W) := []
  warnings : List Warning := []

inductive Action (W : Type) where
  /-- A request is dispatched. -/
  | dispatch (request : Request W)
  /-- A request does its next operation. -/
  | operate (session : Nat)
  /-- The response is dropped; a request that is to be streamed may come to no stream. -/
  | close (session : Nat)

variable [DecidableEq W]

def State.step (s : State W) : Action W → Option (State W)
  | .dispatch request => some { s with sessions := s.sessions ++ [⟨request, 0, false⟩] }
  | .operate i => do
      let x ← s.sessions[i]?
      let (role, operation) ← (program x.request.isStream)[x.done]?
      if x.ended = true then none
      else
        let w := x.request.worker role
        let (worker, warnings) := operation.run x.routingKey (s.workers w)
        some ⟨Function.update s.workers w worker, s.sessions.set i { x with done := x.done + 1 },
          s.warnings ++ warnings⟩
  | .close i => do
      let x ← s.sessions[i]?
      if x.dispatching && x.request.isStream || decide (x.done = (program x.request.isStream).length)
        then some { s with sessions := s.sessions.set i { x with ended := true } }
      else none

/-! ### Who holds what -/

/-- The guard is in the load of its worker after so many operations. -/
def loadHeld (isStream : Bool) (done : Nat) (role : Role) : Bool :=
  decide ((role, .incrementLoad) ∈ (program isStream).take done) &&
    !decide ((role, .decrementLoad) ∈ (program isStream).take done)

/-- The guard is in the count of its routing key. -/
def keyHeld (isStream : Bool) (done : Nat) (role : Role) : Bool :=
  decide ((role, .incrementKey) ∈ (program isStream).take done) &&
    !decide ((role, .decrementKey) ∈ (program isStream).take done)

namespace Session

def holdsLoad (x : Session W) (role : Role) : Bool := loadHeld x.request.isStream x.done role

def holdsKey (x : Session W) (role : Role) : Bool := keyHeld x.request.isStream x.done role

/-- The guard is in the count of a key. -/
def holdsWith (key : Str) (x : Session W) (role : Role) : Bool :=
  x.holdsKey role && decide (x.routingKey = some key)

/-- It is the guard of a request with this key that is not streamed. -/
def holdsOwn (key : Str) (x : Session W) (role : Role) : Bool :=
  !x.request.isStream && x.holdsKey role && decide (extractRoutingKey x.request.headers = some key)

/-- It is the guard of a streamed request. -/
def holdsStreamed (x : Session W) (role : Role) : Bool := x.request.isStream && x.holdsKey role

end Session

/-- The guards of a worker, of those with `p`. -/
def holders (sessions : List (Session W)) (p : Session W → Role → Bool) (w : W) : Nat :=
  sessions.countP (fun x => decide (x.request.prefill = w) && p x .prefill) +
    sessions.countP fun x => decide (x.request.decode = w) && p x .decode

/-- What a request is to a worker. -/
def Session.share (x : Session W) (p : Session W → Role → Bool) (w : W) : Nat :=
  (if x.request.prefill = w ∧ p x .prefill = true then 1 else 0) +
    if x.request.decode = w ∧ p x .decode = true then 1 else 0

/-! ### One operation -/

/-- One, if it is so. -/
def tick (p : Prop) [Decidable p] : Nat := if p then 1 else 0

/-- **What an operation does** to the guards: the one of its role comes to hold a counter, or ceases
to. -/
theorem program_step {b : Bool} {n : Nat} {role : Role} {operation : Operation}
    (h : (program b)[n]? = some (role, operation)) (r : Role) :
    tick (loadHeld b (n + 1) r = true) + tick (r = role ∧ operation = .decrementLoad) =
        tick (loadHeld b n r = true) + tick (r = role ∧ operation = .incrementLoad) ∧
      tick (keyHeld b (n + 1) r = true) + tick (r = role ∧ operation = .decrementKey) =
        tick (keyHeld b n r = true) + tick (r = role ∧ operation = .incrementKey) := by
  have hn : n < 8 := by
    have := (List.getElem?_eq_some_iff.mp h).1
    cases b <;> exact this
  cases b <;> interval_cases n <;> cases h <;> cases r <;> decide

/-- The counters of a worker after an operation on it. -/
theorem run_counters {worker : Worker} {routingKey : Option Str} {operation : Operation}
    {n n' : Str → Nat} (hload : operation = .decrementLoad → 1 ≤ worker.loadCounter)
    (hkeys : Tally worker.workerRoutingKeyLoad.activeRoutingKeys n)
    (hn : ∀ k, n' k + tick (operation = .decrementKey ∧ routingKey = some k) =
      n k + tick (operation = .incrementKey ∧ routingKey = some k)) :
    (operation.run routingKey worker).1.loadCounter + tick (operation = .decrementLoad) =
        worker.loadCounter + tick (operation = .incrementLoad) ∧
      Tally (operation.run routingKey worker).1.workerRoutingKeyLoad.activeRoutingKeys n' ∧
      (operation.run routingKey worker).2 = [] := by
  cases operation with
  | incrementLoad =>
    have hsame : n' = n := funext fun k => by simpa [tick] using hn k
    exact ⟨rfl, hsame ▸ hkeys, rfl⟩
  | incrementKey =>
    refine ⟨?_, tally_incrementKey hkeys routingKey fun k => by simpa [tick] using hn k, rfl⟩
    exact congrArg (· + 0) (Worker.incrementKey_loadCounter routingKey)
  | decrementLoad =>
    have hsame : n' = n := funext fun k => by simpa [tick] using hn k
    rw [Operation.run, Worker.decrementLoad, if_pos (hload rfl)]
    exact ⟨Nat.sub_add_cancel (hload rfl), hsame ▸ hkeys, rfl⟩
  | decrementKey =>
    obtain ⟨hwarnings, htally⟩ := tally_decrementKey hkeys routingKey
      fun k => by simpa [tick] using (hn k).symm
    refine ⟨?_, htally, hwarnings⟩
    exact congrArg (· + 0) (Worker.decrementKey_loadCounter routingKey)

section
variable {s : State W} {l : List (Session W)} {i : Nat} {x : Session W} {role : Role}
  {operation : Operation}

/-- The holders after one session has moved. -/
theorem holders_move (h : l[i]? = some x) (x' : Session W) (p : Session W → Role → Bool) (w : W) :
    holders (l.set i x') p w + x.share p w = holders l p w + x'.share p w := by
  have hprefill := countP_move h x' fun x => decide (x.request.prefill = w) && p x .prefill
  have hdecode := countP_move h x' fun x => decide (x.request.decode = w) && p x .decode
  simp only [Bool.and_eq_true, decide_eq_true_eq] at hprefill hdecode
  simp only [holders, Session.share]
  omega

/-- The share of a request after its next operation. -/
theorem share_operate (h : (program x.request.isStream)[x.done]? = some (role, operation)) (w : W) :
    Session.share { x with done := x.done + 1 } Session.holdsLoad w +
        tick (x.request.worker role = w ∧ operation = .decrementLoad) =
      x.share Session.holdsLoad w + tick (x.request.worker role = w ∧ operation = .incrementLoad) := by
  have hprefill := (program_step h .prefill).1
  have hdecode := (program_step h .decode).1
  cases role <;> by_cases hp : x.request.prefill = w <;> by_cases hd : x.request.decode = w <;>
    simp [tick, Session.share, Session.holdsLoad, Request.worker, hp, hd] at * <;> omega

theorem share_operate_key (h : (program x.request.isStream)[x.done]? = some (role, operation)) (w : W)
    (key : Str) :
    Session.share { x with done := x.done + 1 } (Session.holdsWith key) w +
        tick (x.request.worker role = w ∧ operation = .decrementKey ∧ x.routingKey = some key) =
      x.share (Session.holdsWith key) w +
        tick (x.request.worker role = w ∧ operation = .incrementKey ∧ x.routingKey = some key) := by
  have hprefill := (program_step h .prefill).2
  have hdecode := (program_step h .decode).2
  have hsame : Session.routingKey { x with done := x.done + 1 } = x.routingKey := rfl
  by_cases hk : x.routingKey = some key
  · cases role <;> by_cases hp : x.request.prefill = w <;> by_cases hd : x.request.decode = w <;>
      simp [tick, Session.share, Session.holdsWith, Session.holdsKey, Request.worker, hsame, hk, hp, hd]
        at * <;> omega
  · simp [tick, Session.share, Session.holdsWith, hsame, hk]

/-- The holders of a load after the next operation of a session. -/
theorem holders_operate (hx : l[i]? = some x)
    (h : (program x.request.isStream)[x.done]? = some (role, operation)) (w : W) :
    holders (l.set i { x with done := x.done + 1 }) Session.holdsLoad w +
        tick (x.request.worker role = w ∧ operation = .decrementLoad) =
      holders l Session.holdsLoad w +
        tick (x.request.worker role = w ∧ operation = .incrementLoad) := by
  have hshare := share_operate h w
  have hmove := holders_move hx { x with done := x.done + 1 } Session.holdsLoad w
  omega

theorem holders_operate_key (hx : l[i]? = some x)
    (h : (program x.request.isStream)[x.done]? = some (role, operation)) (w : W) (key : Str) :
    holders (l.set i { x with done := x.done + 1 }) (Session.holdsWith key) w +
        tick (x.request.worker role = w ∧ operation = .decrementKey ∧ x.routingKey = some key) =
      holders l (Session.holdsWith key) w +
        tick (x.request.worker role = w ∧ operation = .incrementKey ∧ x.routingKey = some key) := by
  have hshare := share_operate_key h w key
  have hmove := holders_move hx { x with done := x.done + 1 } (Session.holdsWith key) w
  omega

/-! ### The invariant -/

/-- Each counter is the number of the guards that hold it. -/
structure Accounted (s : State W) : Prop where
  load : ∀ w, (s.workers w).loadCounter = holders s.sessions Session.holdsLoad w
  keys : ∀ w, Tally (s.workers w).workerRoutingKeyLoad.activeRoutingKeys
    fun key => holders s.sessions (Session.holdsWith key) w
  warnings : s.warnings = []

theorem accounted_empty : Accounted ({} : State W) := ⟨fun _ => rfl, fun _ => Tally.empty, rfl⟩

/-- A change of the sessions that no holder sees. -/
theorem Accounted.of_holders (h : Accounted s)
    (hload : ∀ w, holders l Session.holdsLoad w = holders s.sessions Session.holdsLoad w)
    (hkeys : ∀ key w,
      holders l (Session.holdsWith key) w = holders s.sessions (Session.holdsWith key) w) :
    Accounted { s with sessions := l } := by
  refine ⟨fun w => ?_, fun w => ?_, h.warnings⟩
  · exact (h.load w).trans (hload w).symm
  · simp only [hkeys]
    exact h.keys w

theorem Accounted.dispatch (h : Accounted s) (request : Request W) :
    Accounted { s with sessions := s.sessions ++ [⟨request, 0, false⟩] } :=
  h.of_holders (fun w => by simp [holders, Session.holdsLoad, loadHeld])
    fun key w => by simp [holders, Session.holdsWith, Session.holdsKey, keyHeld]

section
variable (h : Accounted s) (hx : s.sessions[i]? = some x)
include h hx

theorem Accounted.close :
    Accounted { s with sessions := s.sessions.set i { x with ended := true } } :=
  h.of_holders (fun w => Nat.add_right_cancel (holders_move hx _ Session.holdsLoad w))
    fun key w => Nat.add_right_cancel (holders_move hx _ (Session.holdsWith key) w)

/-- A guard that is to leave the load of a worker is in it. -/
theorem Accounted.load_pos
    (hp : (program x.request.isStream)[x.done]? = some (role, .decrementLoad)) :
    1 ≤ (s.workers (x.request.worker role)).loadCounter := by
  have hout := holders_operate hx hp (x.request.worker role)
  have hheld := h.load (x.request.worker role)
  simp only [tick, and_self, if_true, reduceCtorEq, and_false, if_false] at hout
  omega

/-- **One operation.** -/
theorem Accounted.operate (hp : (program x.request.isStream)[x.done]? = some (role, operation)) :
    Accounted ⟨Function.update s.workers (x.request.worker role)
        (operation.run x.routingKey (s.workers (x.request.worker role))).1,
      s.sessions.set i { x with done := x.done + 1 },
      s.warnings ++ (operation.run x.routingKey (s.workers (x.request.worker role))).2⟩ := by
  have hpos : operation = .decrementLoad → 1 ≤ (s.workers (x.request.worker role)).loadCounter := by
    rintro rfl
    exact h.load_pos hx hp
  have hown (key : Str) := holders_operate_key hx hp (x.request.worker role) key
  simp only [true_and] at hown
  obtain ⟨hcounter, htally, hwarnings⟩ := run_counters hpos (h.keys _) hown
  refine ⟨fun w => ?_, fun w => ?_, List.append_eq_nil_iff.mpr ⟨h.warnings, hwarnings⟩⟩
  · have hload := holders_operate hx hp w
    have hheld := h.load w
    by_cases he : w = x.request.worker role
    · subst he
      simp only [true_and] at hload
      simp only [Function.update_self]
      omega
    · simp only [Ne.symm he, false_and, tick, if_false, Nat.add_zero] at hload
      simp only [Function.update_of_ne he]
      omega
  · by_cases he : w = x.request.worker role
    · subst he
      simp only [Function.update_self]
      exact htally
    · have hkeys := holders_operate_key hx hp w
      simp only [Ne.symm he, false_and, tick, if_false, Nat.add_zero] at hkeys
      simp only [Function.update_of_ne he, hkeys]
      exact h.keys w

end

/-- **One step.** -/
theorem Accounted.step {s' : State W} {a : Action W} (h : Accounted s) (hstep : s.step a = some s') :
    Accounted s' := by
  cases a with
  | dispatch request =>
    cases hstep
    exact h.dispatch request
  | operate i =>
    obtain ⟨x, hx, hstep⟩ := Option.bind_eq_some_iff.mp hstep
    obtain ⟨⟨role, operation⟩, hp, hstep⟩ := Option.bind_eq_some_iff.mp hstep
    dsimp only at hstep
    split at hstep
    · cases hstep
    · cases hstep
      exact h.operate hx hp
  | close i =>
    obtain ⟨x, hx, hstep⟩ := Option.bind_eq_some_iff.mp hstep
    split at hstep
    · cases hstep
      exact h.close hx
    · cases hstep

theorem run_accounted {actions : List (Action W)} (h : Runs.exec State.step {} actions = some s) :
    Accounted s :=
  Runs.exec_keeps (J := Accounted) (fun h hstep => h.step hstep) accounted_empty h

end

/-! ### Runs -/

/-- The workers of a request that `w` is. -/
def Request.workersAt (request : Request W) (w : W) : Nat :=
  tick (request.prefill = w) + tick (request.decode = w)

theorem holders_eq_sum (l : List (Session W)) (p : Session W → Role → Bool) (w : W) :
    holders l p w = (l.map fun x => x.share p w).sum := by
  induction l with
  | nil => rfl
  | cons x l ih =>
    rw [map_cons, sum_cons, ← ih]
    simp only [holders, Session.share, countP_cons, Bool.and_eq_true, decide_eq_true_eq]
    omega

/-- A guard with a key is that of a request with the key, or of a streamed one. -/
theorem share_holdsWith (x : Session W) (key : Str) (w : W) :
    x.share (Session.holdsOwn key) w ≤ x.share (Session.holdsWith key) w ∧
      x.share (Session.holdsWith key) w ≤
        x.share (Session.holdsOwn key) w + x.share Session.holdsStreamed w := by
  cases hi : x.request.isStream with
  | true =>
    have hle (p q : Prop) [Decidable p] [Decidable q] (h : p → q) :
        (if p then 1 else 0) ≤ (if q then 1 else 0 : Nat) := by
      split
      · next hp => rw [if_pos (h hp)]
      · exact Nat.zero_le _
    simp only [Session.share, Session.holdsOwn, Session.holdsWith, Session.holdsStreamed, hi,
      Bool.not_true, Bool.false_and, Bool.true_and, Bool.and_eq_true, and_false, if_false,
      Bool.false_eq_true, Nat.zero_add, Nat.zero_le, true_and]
    exact Nat.add_le_add (hle _ _ fun h => ⟨h.1, h.2.1⟩) (hle _ _ fun h => ⟨h.1, h.2.1⟩)
  | false =>
    simp [Session.share, Session.holdsOwn, Session.holdsWith, Session.holdsStreamed,
      Session.routingKey, hi]

/-- Both guards of a request hold, or none does. -/
theorem share_of_holds {x : Session W} {p : Session W → Role → Bool} {b : Bool}
    (h : ∀ role, p x role = b) (w : W) :
    x.share p w = if b = true then x.request.workersAt w else 0 := by
  rw [Session.share, h, h]
  cases b <;> simp [Request.workersAt, tick]

/-- Between the creation of the guards and their drop both hold, before and after none does. -/
theorem held_at (b : Bool) (role : Role) : (loadHeld b 0 role = false ∧ keyHeld b 0 role = false) ∧
      (loadHeld b 4 role = true ∧ keyHeld b 4 role = true) ∧
      loadHeld b 8 role = false ∧ keyHeld b 8 role = false := by
  cases b <;> cases role <;> decide

/-- A request has a share in nothing: not in a load, not in a count of a key. -/
structure Session.Idle (x : Session W) (w : W) : Prop where
  load : x.share Session.holdsLoad w = 0
  own : ∀ key, x.share (Session.holdsOwn key) w = 0
  streamed : x.share Session.holdsStreamed w = 0

/-- Before the first operation, and after the last. -/
theorem Session.idle {x : Session W} (h : x.done = 0 ∨ x.done = 8) (w : W) : x.Idle w := by
  have hload (role : Role) : x.holdsLoad role = false := by
    obtain h | h := h <;> rw [holdsLoad, h]
    · exact (held_at _ role).1.1
    · exact (held_at _ role).2.2.1
  have hkey (role : Role) : x.holdsKey role = false := by
    obtain h | h := h <;> rw [holdsKey, h]
    · exact (held_at _ role).1.2
    · exact (held_at _ role).2.2.2
  refine ⟨share_of_holds (b := false) hload w, fun key => share_of_holds (b := false) (fun role => ?_) w,
    share_of_holds (b := false) (fun role => ?_) w⟩
  · rw [holdsOwn, hkey, Bool.and_false, Bool.false_and]
  · rw [holdsStreamed, hkey, Bool.and_false]

/-- A request whose response is dropped has done all its operations, or none. -/
def Finished (s : State W) : Prop := ∀ x ∈ s.sessions, x.ended = true → x.done = 0 ∨ x.done = 8

theorem program_length (b : Bool) : (program b).length = 8 := by cases b <;> rfl

omit [DecidableEq W] in
theorem Finished.set {s : State W} (h : Finished s) {x : Session W}
    (hx : x.ended = true → x.done = 0 ∨ x.done = 8) (i : Nat) :
    ∀ y ∈ s.sessions.set i x, y.ended = true → y.done = 0 ∨ y.done = 8 := by
  intro y hy hended
  obtain hy | rfl := mem_or_eq_of_mem_set hy
  · exact h y hy hended
  · exact hx hended

theorem Finished.step {s s' : State W} {a : Action W} (h : Finished s) (hstep : s.step a = some s') :
    Finished s' := by
  cases a with
  | dispatch request =>
    cases hstep
    intro x hx hended
    obtain hx | hx := List.mem_append.mp hx
    · exact h x hx hended
    · obtain rfl := List.mem_singleton.mp hx
      exact .inl rfl
  | operate i =>
    obtain ⟨x, -, hstep⟩ := Option.bind_eq_some_iff.mp hstep
    obtain ⟨⟨role, operation⟩, -, hstep⟩ := Option.bind_eq_some_iff.mp hstep
    dsimp only at hstep
    split at hstep
    · cases hstep
    · next hopen =>
        cases hstep
        exact h.set (x := { x with done := x.done + 1 }) (fun hended => absurd hended hopen) i
  | close i =>
    obtain ⟨x, -, hstep⟩ := Option.bind_eq_some_iff.mp hstep
    split at hstep
    · next hclose =>
        cases hstep
        refine h.set (fun _ => ?_) i
        simp only [Bool.or_eq_true, Bool.and_eq_true, decide_eq_true_eq, program_length] at hclose
        obtain ⟨hd, hi⟩ | hdone := hclose
        · exact .inl ((dispatching_done hd).trans (if_pos hi))
        · exact .inr hdone
    · cases hstep

theorem run_finished {actions : List (Action W)} {s : State W}
    (h : Runs.exec State.step {} actions = some s) : Finished s :=
  Runs.exec_keeps (J := Finished) (fun h hstep => h.step hstep) (fun _ hx => absurd hx not_mem_nil) h

/-- **The load is the requests that are served**, in every state of every run.  The load of a worker is
the sum of what the requests are to it, and so is the count of a routing key, but for the streamed
requests.  A request that is not streamed is one to each of its workers, and one to its own key, while
the dispatch runs, and nothing afterwards; one that is streamed is one to each while the response is
there, and nothing before; and when its response is dropped a request is nothing. -/
theorem sessions_accounted (actions : List (Action W)) (s : State W)
    (h : Runs.exec State.step {} actions = some s) (w : W) :
    (s.workers w).load = (s.sessions.map fun x => x.share Session.holdsLoad w).sum ∧
      (∀ key,
        let count := ((s.workers w).workerRoutingKeyLoad.activeRoutingKeys.lookup key).getD 0
        let own := (s.sessions.map fun x => x.share (Session.holdsOwn key) w).sum
        own ≤ count ∧ count ≤ own + (s.sessions.map fun x => x.share Session.holdsStreamed w).sum) ∧
      ∀ x ∈ s.sessions,
        (x.request.isStream = false →
          (x.dispatching = true → x.share Session.holdsLoad w = x.request.workersAt w ∧
            ∀ key, x.share (Session.holdsOwn key) w =
              if extractRoutingKey x.request.headers = some key then x.request.workersAt w else 0) ∧
          (x.responding = true → x.Idle w)) ∧
        (x.request.isStream = true →
          (x.responding = true → x.share Session.holdsLoad w = x.request.workersAt w) ∧
          (x.dispatching = true → x.Idle w)) ∧
        (x.ended = true → x.Idle w) := by
  have hacc := run_accounted h
  refine ⟨(hacc.load w).trans (holders_eq_sum _ _ _), fun key => ?_, fun x hx => ?_⟩
  · dsimp only
    rw [(hacc.keys w).getD, holders_eq_sum]
    constructor
    · exact sum_le_sum fun x _ => (share_holdsWith x key w).1
    · rw [← sum_map_add]
      exact sum_le_sum fun x _ => (share_holdsWith x key w).2
  have hboth (hdone : x.done = 4) : x.share Session.holdsLoad w = x.request.workersAt w :=
    share_of_holds (b := true) (fun role => by
      rw [Session.holdsLoad, hdone]
      exact (held_at _ role).2.1.1) w
  refine ⟨fun hi => ⟨fun hd => ?_, fun hr => ?_⟩, fun hi => ⟨fun hr => ?_, fun hd => ?_⟩,
    fun hended => Session.idle (run_finished h x hx hended) w⟩
  · have hdone := dispatching_done hd
    rw [hi, if_neg Bool.false_ne_true] at hdone
    refine ⟨hboth hdone, fun key => ?_⟩
    have hown (role : Role) :
        x.holdsOwn key role = decide (extractRoutingKey x.request.headers = some key) := by
      rw [Session.holdsOwn, Session.holdsKey, hdone, (held_at _ role).2.1.2, hi]
      rfl
    rw [share_of_holds hown w]
    simp only [decide_eq_true_eq]
  · have hdone := responding_done hr
    rw [hi, if_neg Bool.false_ne_true] at hdone
    exact Session.idle (.inr hdone) w
  · have hdone := responding_done hr
    rw [hi, if_pos rfl] at hdone
    exact hboth hdone
  · have hdone := dispatching_done hd
    rw [hi, if_pos rfl] at hdone
    exact Session.idle (.inl hdone) w

/-- A request of a session, for the workers `false` and `true`. -/
def sessionRequest (isStream : Bool) : Request Bool where
  isStream := isStream
  headers := sessionHeaders
  prefill := false
  decode := true

/-- One that is streamed beside one that is not; both have their guards. -/
def bothServed : List (Action Bool) :=
  [.dispatch (sessionRequest true), .dispatch (sessionRequest false), .operate 0, .operate 1,
    .operate 1, .operate 0, .operate 1, .operate 0, .operate 0, .operate 1]

theorem bothServed_accounted : ∃ s, Runs.exec State.step {} bothServed = some s ∧
    (s.workers true).load = 2 ∧
      (s.workers true).load = (s.sessions.map fun x => x.share Session.holdsLoad true).sum := by
  obtain ⟨s, hs⟩ : ∃ s, Runs.exec State.step {} bothServed = some s := ⟨_, rfl⟩
  have hload : (s.workers true).load = 2 := by
    cases hs
    decide
  exact ⟨s, hs, hload, (sessions_accounted bothServed s hs true).1⟩

/-- The actions of one request up to an operation. -/
def upTo (isStream : Bool) (n : Nat) : List (Action Bool) :=
  .dispatch (sessionRequest isStream) :: List.replicate n (.operate 0)

/-- A request that is to be streamed is not in the load while it is dispatched, one that is not streamed
is not while its response is there, and one that is streamed is not in the count of its key. -/
theorem served_request_not_counted :
    (∃ s x, Runs.exec State.step {} (upTo true 0) = some s ∧ x ∈ s.sessions ∧
      x.dispatching = true ∧ (s.workers x.request.prefill).load = 0) ∧
    (∃ s x, Runs.exec State.step {} (upTo false 8) = some s ∧ x ∈ s.sessions ∧
      x.responding = true ∧ (s.workers x.request.prefill).load = 0) ∧
    ∃ s x key, Runs.exec State.step {} (upTo true 4) = some s ∧ x ∈ s.sessions ∧
      x.responding = true ∧ extractRoutingKey x.request.headers = some key ∧
      (s.workers x.request.prefill).workerRoutingKeyLoad.activeRoutingKeys.lookup key = none := by
  refine ⟨⟨_, ⟨sessionRequest true, 0, false⟩, rfl, mem_singleton_self _, ?_, ?_⟩,
    ⟨_, ⟨sessionRequest false, 8, false⟩, rfl, mem_singleton_self _, ?_, ?_⟩,
    ⟨_, ⟨sessionRequest true, 4, false⟩, ['s'], rfl, mem_singleton_self _, ?_, ?_, ?_⟩⟩
  all_goals decide

end QwenStack.PdRouter
