import QwenStack.Load.Definitions
import QwenStack.Support.Tables
import QwenStack.Support.Threads

/-!
# Worker load — the counters are the guards

A guard holds a place in the load of its worker from the first operation of its creation to the first
of its drop, and one in the count of its routing key from the second to the second.  In every state
the counters are the numbers of these guards, so no decrement finds a counter at zero
(`run_held`).  A worker none of whose guards is halfway has the numbers of its live guards
(`guards_accounted`).
-/

namespace QwenStack.Load
open Assoc Manual Threads List

variable {W : Type*} [DecidableEq W]

namespace WorkerLoadGuard

def isLive (g : WorkerLoadGuard W) : Bool := decide (g.stage = .live)

/-- The guard is in the load of its worker. -/
def holdsLoad (g : WorkerLoadGuard W) : Bool := decide (g.stage = .creating) || decide (g.stage = .live)

/-- The guard is in the count of its routing key. -/
def holdsKey (g : WorkerLoadGuard W) : Bool := decide (g.stage = .live) || decide (g.stage = .dropping)

end WorkerLoadGuard

namespace Fleet

/-- The guards of a worker, of those with `p`. -/
def guardsOf (s : Fleet W) (p : WorkerLoadGuard W → Bool) (w : W) : Nat :=
  s.guards.countP fun g => decide (g.worker = w) && p g

/-- Those created with a routing key. -/
def guardsWith (s : Fleet W) (p : WorkerLoadGuard W → Bool) (w : W) (key : Str) : Nat :=
  s.guards.countP fun g => decide (g.worker = w) && decide (g.routingKey = some key) && p g

/-- The routing keys of the guards of a worker. -/
def keysOf (s : Fleet W) (p : WorkerLoadGuard W → Bool) (w : W) : List Str :=
  (s.guards.filter fun g => decide (g.worker = w) && p g).filterMap WorkerLoadGuard.routingKey

/-- The counters of a worker are the numbers of its guards: those with `p` in the load, those with `q`
by routing key. -/
structure Counts (s : Fleet W) (p q : WorkerLoadGuard W → Bool) (w : W) : Prop where
  load : (s.workers w).load = s.guardsOf p w
  keys : ∀ key, (s.workers w).workerRoutingKeyLoad.activeRoutingKeys.lookup key =
    if s.guardsWith q w key = 0 then none else some (s.guardsWith q w key)
  value : (s.workers w).workerRoutingKeyLoad.value = (s.keysOf q w).dedup.length

/-- No guard of the worker is halfway through its creation or its drop. -/
def Settled (s : Fleet W) (w : W) : Prop :=
  ∀ g ∈ s.guards, g.worker = w → g.stage ≠ .creating ∧ g.stage ≠ .dropping

end Fleet

open Fleet

/-! ### One operation -/

section
variable {s s' : Fleet W}

/-- **What an operation does.** -/
theorem step_cases {a : Action W} (h : s.step a = some s') : (∃ w headers, a = .create w headers ∧
      s' = { s.setWorker w (s.workers w).incrementLoad with
        guards := s.guards ++ [⟨w, extractRoutingKey headers, .creating⟩] }) ∨
    (∃ i g, a = .finish i ∧ s.guards[i]? = some g ∧ g.stage = .creating ∧
      s' = (s.setWorker g.worker ((s.workers g.worker).incrementKey g.routingKey)).move i g .live) ∨
    (∃ i g, a = .drop i ∧ s.guards[i]? = some g ∧ g.stage = .live ∧
      s' = ((s.setWorker g.worker (s.workers g.worker).decrementLoad.1).warn
        (s.workers g.worker).decrementLoad.2).move i g .dropping) ∨
    ∃ i g, a = .release i ∧ s.guards[i]? = some g ∧ g.stage = .dropping ∧
      s' = ((s.setWorker g.worker ((s.workers g.worker).decrementKey g.routingKey).1).warn
        ((s.workers g.worker).decrementKey g.routingKey).2).move i g .dropped := by
  cases a with
  | create w headers => exact Or.inl ⟨w, headers, rfl, (Option.some.inj h).symm⟩
  | finish i =>
    obtain ⟨g, hg, h⟩ := Option.bind_eq_some_iff.mp h
    split at h
    · next hstage => exact Or.inr (Or.inl ⟨i, g, rfl, hg, hstage, (Option.some.inj h).symm⟩)
    · cases h
  | drop i =>
    obtain ⟨g, hg, h⟩ := Option.bind_eq_some_iff.mp h
    split at h
    · next hstage => exact Or.inr (Or.inr (Or.inl ⟨i, g, rfl, hg, hstage, (Option.some.inj h).symm⟩))
    · cases h
  | release i =>
    obtain ⟨g, hg, h⟩ := Option.bind_eq_some_iff.mp h
    split at h
    · next hstage => exact Or.inr (Or.inr (Or.inr ⟨i, g, rfl, hg, hstage, (Option.some.inj h).symm⟩))
    · cases h

/-- The guards of a worker after one has moved. -/
theorem guardsOf_move {i : Nat} {g : WorkerLoadGuard W} (h : s.guards[i]? = some g) (stage : Stage)
    (p : WorkerLoadGuard W → Bool) (w : W) :
    (s.move i g stage).guardsOf p w + (if g.worker = w ∧ p g = true then 1 else 0) =
      s.guardsOf p w + if g.worker = w ∧ p { g with stage := stage } = true then 1 else 0 := by
  have := countP_move h { g with stage := stage } fun g => decide (g.worker = w) && p g
  simpa only [Bool.and_eq_true, decide_eq_true_eq, guardsOf, move] using this

theorem guardsWith_move {i : Nat} {g : WorkerLoadGuard W} (h : s.guards[i]? = some g) (stage : Stage)
    (p : WorkerLoadGuard W → Bool) (w : W) (key : Str) :
    (s.move i g stage).guardsWith p w key +
        (if (g.worker = w ∧ g.routingKey = some key) ∧ p g = true then 1 else 0) =
      s.guardsWith p w key +
        if (g.worker = w ∧ g.routingKey = some key) ∧ p { g with stage := stage } = true
        then 1 else 0 := by
  have := countP_move h { g with stage := stage }
    fun g => decide (g.worker = w) && decide (g.routingKey = some key) && p g
  simpa only [Bool.and_eq_true, decide_eq_true_eq, guardsWith, move] using this

end

/-! ### The counts by key -/

section
variable {w : Worker} {n n' : Str → Nat}

theorem Worker.incrementKey_loadCounter (key : Option Str) :
    (w.incrementKey key).loadCounter = w.loadCounter := by
  cases key <;> rfl

theorem Worker.decrementKey_loadCounter (key : Option Str) :
    (w.decrementKey key).1.loadCounter = w.loadCounter := by
  cases key <;> rfl

/-- One more with a key. -/
theorem tally_incrementKey (h : Tally w.workerRoutingKeyLoad.activeRoutingKeys n) (key : Option Str)
    (hn : ∀ k, n' k = n k + if key = some k then 1 else 0) :
    Tally (w.incrementKey key).workerRoutingKeyLoad.activeRoutingKeys n' := by
  cases key with
  | none =>
    have hsame : n' = n := funext fun k => by simpa using hn k
    exact hsame ▸ h
  | some key =>
    refine h.up ?_ fun k hk => ?_
    · simpa using hn key
    · simpa [Ne.symm hk] using hn k

/-- One less with a key that counts. -/
theorem tally_decrementKey (h : Tally w.workerRoutingKeyLoad.activeRoutingKeys n) (key : Option Str)
    (hn : ∀ k, n k = n' k + if key = some k then 1 else 0) :
    (w.decrementKey key).2 = [] ∧
      Tally (w.decrementKey key).1.workerRoutingKeyLoad.activeRoutingKeys n' := by
  cases key with
  | none =>
    have hsame : n' = n := funext fun k => by simpa using (hn k).symm
    exact ⟨rfl, hsame ▸ h⟩
  | some key =>
    have hkey : n key = n' key + 1 := by simpa using hn key
    have hpos : 0 < n key := by omega
    have hdown := h.down hkey fun k hk => by simpa [Ne.symm hk] using (hn k).symm
    simp only [Worker.decrementKey, WorkerRoutingKeyLoad.decrement, h.lookup_pos hpos, if_pos hpos]
    exact ⟨trivial, hdown⟩

end

/-! ### The invariant -/

/-- Each counter is the number of the guards that hold it. -/
structure Held (s : Fleet W) : Prop where
  load : ∀ w, (s.workers w).loadCounter = s.guardsOf WorkerLoadGuard.holdsLoad w
  keys : ∀ w, Tally (s.workers w).workerRoutingKeyLoad.activeRoutingKeys
    (s.guardsWith WorkerLoadGuard.holdsKey w)
  warnings : s.warnings = []

section
variable {s : Fleet W} {i : Nat} {g : WorkerLoadGuard W}

@[simp] theorem setWorker_apply (s : Fleet W) (w w' : W) (worker : Worker) :
    (s.setWorker w worker).workers w' = if w' = w then worker else s.workers w' :=
  Function.update_apply _ _ _ _

theorem held_empty : Held ({} : Fleet W) := ⟨fun _ => rfl, fun _ => Tally.empty, rfl⟩

/-- A guard is created: one more in the load of its worker. -/
theorem Held.create (h : Held s) (w : W) (key : Option Str) :
    Held { s.setWorker w (s.workers w).incrementLoad with
      guards := s.guards ++ [⟨w, key, .creating⟩] } := by
  refine ⟨fun w' => ?_, fun w' => ?_, h.warnings⟩
  · have := h.load w'
    simp only [setWorker_apply, guardsOf, countP_append]
    by_cases hw : w' = w
    · subst hw
      simpa [Worker.incrementLoad, WorkerLoadGuard.holdsLoad, guardsOf] using this
    · simpa [hw, Ne.symm hw, guardsOf] using this
  · have hkeys : Fleet.guardsWith { s.setWorker w (s.workers w).incrementLoad with
        guards := s.guards ++ [⟨w, key, .creating⟩] } WorkerLoadGuard.holdsKey w' =
        s.guardsWith WorkerLoadGuard.holdsKey w' := by
      funext k
      simp [guardsWith, countP_append, WorkerLoadGuard.holdsKey]
    rw [hkeys]
    simp only [setWorker_apply]
    split
    · next hw => exact hw ▸ h.keys w
    · exact h.keys w'

/-- **One guard moves**: the counters of its worker change by what it holds before and after. -/
theorem Held.move {s' : Fleet W} {worker : Worker} {stage : Stage} (h : Held s)
    (hg : s.guards[i]? = some g)
    (hworkers : ∀ w, s'.workers w = if w = g.worker then worker else s.workers w)
    (hguards : s'.guards = s.guards.set i { g with stage := stage }) (hwarnings : s'.warnings = [])
    (hload : worker.loadCounter + (if g.holdsLoad = true then 1 else 0) =
      (s.workers g.worker).loadCounter +
        if WorkerLoadGuard.holdsLoad { g with stage := stage } = true then 1 else 0)
    (hkeys : ∀ n : Str → Nat, (∀ k, n k +
        (if g.routingKey = some k ∧ g.holdsKey = true then 1 else 0) =
        s.guardsWith WorkerLoadGuard.holdsKey g.worker k +
          if g.routingKey = some k ∧ WorkerLoadGuard.holdsKey { g with stage := stage } = true
          then 1 else 0) →
      Tally worker.workerRoutingKeyLoad.activeRoutingKeys n) : Held s' := by
  have hof : ∀ p w, s'.guardsOf p w = (s.move i g stage).guardsOf p w := fun p w => by
    rw [guardsOf, hguards]
    rfl
  have hwith : ∀ p w, s'.guardsWith p w = (s.move i g stage).guardsWith p w := fun p w => by
    funext k
    rw [guardsWith, hguards]
    rfl
  refine ⟨fun w => ?_, fun w => ?_, hwarnings⟩
  · have hcount := guardsOf_move hg stage WorkerLoadGuard.holdsLoad w
    have hw := h.load w
    rw [hof, hworkers]
    split
    · next hself =>
      subst hself
      simp only [true_and] at hcount
      omega
    · next hother =>
      simp only [Ne.symm hother, false_and, if_false, Nat.add_zero] at hcount
      rw [hcount, hw]
  · have hcount := guardsWith_move hg stage WorkerLoadGuard.holdsKey w
    rw [hwith, hworkers]
    split
    · next hself =>
      subst hself
      simp only [true_and] at hcount
      exact hkeys _ hcount
    · next hother =>
      simp only [Ne.symm hother, false_and, if_false, Nat.add_zero] at hcount
      have hsame := funext hcount
      rw [hsame]
      exact h.keys w

/-- It is there: one more with its key. -/
theorem Held.finish (h : Held s) (hg : s.guards[i]? = some g) (hstage : g.stage = .creating) :
    Held ((s.setWorker g.worker ((s.workers g.worker).incrementKey g.routingKey)).move i g .live) := by
  refine h.move hg (setWorker_apply s _ · _) rfl h.warnings ?_ fun n hn => ?_
  · rw [Worker.incrementKey_loadCounter]
    simp [WorkerLoadGuard.holdsLoad, hstage]
  · refine tally_incrementKey (h.keys g.worker) g.routingKey fun k => ?_
    simpa [WorkerLoadGuard.holdsKey, hstage] using hn k

/-- It is dropped: one less in the load, which is not zero. -/
theorem Held.drop (h : Held s) (hg : s.guards[i]? = some g) (hstage : g.stage = .live) :
    Held (((s.setWorker g.worker (s.workers g.worker).decrementLoad.1).warn
      (s.workers g.worker).decrementLoad.2).move i g .dropping) := by
  have hpos : 1 ≤ (s.workers g.worker).loadCounter := by
    rw [h.load]
    exact countP_pos hg (by simp [WorkerLoadGuard.holdsLoad, hstage])
  rw [Worker.decrementLoad, if_pos hpos]
  refine h.move hg (setWorker_apply s _ · _) rfl ?_ ?_ fun n hn => ?_
  · exact (append_nil _).trans h.warnings
  · simp only [WorkerLoadGuard.holdsLoad, hstage]
    simpa using Nat.sub_add_cancel hpos
  · have hsame : n = s.guardsWith WorkerLoadGuard.holdsKey g.worker :=
      funext fun k => by simpa [WorkerLoadGuard.holdsKey, hstage] using hn k
    exact hsame ▸ h.keys g.worker

/-- It is gone: one less with its key, which is there. -/
theorem Held.release (h : Held s) (hg : s.guards[i]? = some g) (hstage : g.stage = .dropping) :
    Held (((s.setWorker g.worker ((s.workers g.worker).decrementKey g.routingKey).1).warn
      ((s.workers g.worker).decrementKey g.routingKey).2).move i g .dropped) := by
  have hdown : ∀ k, s.guardsWith WorkerLoadGuard.holdsKey g.worker k =
      (s.move i g .dropped).guardsWith WorkerLoadGuard.holdsKey g.worker k +
        if g.routingKey = some k then 1 else 0 := fun k => by
    simpa [WorkerLoadGuard.holdsKey, hstage] using
      (guardsWith_move hg .dropped WorkerLoadGuard.holdsKey g.worker k).symm
  obtain ⟨hwarnings, -⟩ := tally_decrementKey (h.keys g.worker) g.routingKey hdown
  refine h.move hg (setWorker_apply s _ · _) rfl ?_ ?_ fun n hn => ?_
  · rw [hwarnings]
    exact (append_nil _).trans h.warnings
  · rw [Worker.decrementKey_loadCounter]
    simp [WorkerLoadGuard.holdsLoad, hstage]
  · refine (tally_decrementKey (h.keys g.worker) g.routingKey fun k => ?_).2
    simpa [WorkerLoadGuard.holdsKey, hstage] using (hn k).symm

/-- **One operation.** -/
theorem Held.step {s' : Fleet W} {a : Action W} (h : Held s) (hstep : s.step a = some s') :
    Held s' := by
  obtain ⟨w, headers, -, rfl⟩ | ⟨i, g, -, hg, hstage, rfl⟩ | ⟨i, g, -, hg, hstage, rfl⟩ |
    ⟨i, g, -, hg, hstage, rfl⟩ := step_cases hstep
  · exact h.create w _
  · exact h.finish hg hstage
  · exact h.drop hg hstage
  · exact h.release hg hstage

/-- The numbers in the words of the workers. -/
theorem Held.counts (h : Held s) (w : W) :
    s.Counts WorkerLoadGuard.holdsLoad WorkerLoadGuard.holdsKey w := by
  refine ⟨h.load w, (h.keys w).lookup, (h.keys w).length_eq fun key => ?_⟩
  rw [keysOf, guardsWith, countP_pos_iff, mem_filterMap]
  simp only [mem_filter, Bool.and_eq_true, decide_eq_true_eq]
  constructor
  · rintro ⟨g, ⟨hg, hw, hp⟩, hkey⟩
    exact ⟨g, hg, ⟨hw, hkey⟩, hp⟩
  · rintro ⟨g, hg, ⟨hw, hkey⟩, hp⟩
    exact ⟨g, ⟨hg, hw, hp⟩, hkey⟩

/-- The counts read the predicates at the guards of the worker only. -/
theorem Fleet.Counts.congr {p p' q q' : WorkerLoadGuard W → Bool} {w : W} (h : s.Counts p q w)
    (hp : ∀ g ∈ s.guards, g.worker = w → p g = p' g)
    (hq : ∀ g ∈ s.guards, g.worker = w → q g = q' g) : s.Counts p' q' w := by
  have hof : s.guardsOf p w = s.guardsOf p' w := by
    refine countP_congr fun g hg => ?_
    by_cases hw : g.worker = w
    · rw [hp g hg hw]
    · simp [hw]
  have hwith : ∀ key, s.guardsWith q w key = s.guardsWith q' w key := fun key => by
    refine countP_congr fun g hg => ?_
    by_cases hw : g.worker = w
    · rw [hq g hg hw]
    · simp [hw]
  have hkeys : s.keysOf q w = s.keysOf q' w := by
    rw [keysOf, keysOf]
    congr 1
    refine filter_congr fun g hg => ?_
    by_cases hw : g.worker = w
    · rw [hq g hg hw]
    · simp [hw]
  refine ⟨h.load.trans hof, fun key => ?_, h.value.trans (by rw [hkeys])⟩
  rw [← hwith]
  exact h.keys key

end

/-! ### Runs -/

/-- **The counters are the guards that hold them, and no decrement is refused**, in every state. -/
theorem run_held {actions : List (Action W)} {s : Fleet W}
    (h : Runs.exec Fleet.step {} actions = some s) : Held s :=
  Runs.exec_keeps (J := Held) (fun h hstep => h.step hstep) held_empty h

/-- **The counters of a worker are its guards** in every state of every run: the load those between
`increment_load` and `decrement_load`, the counts by routing key those between `increment` and
`decrement`.  These are the live guards, when no guard of the worker is halfway.  No decrement is
refused. -/
theorem guards_accounted (actions : List (Action W)) (s : Fleet W)
    (h : Runs.exec Fleet.step {} actions = some s) :
    s.warnings = [] ∧ ∀ w,
      s.Counts WorkerLoadGuard.holdsLoad WorkerLoadGuard.holdsKey w ∧
      (s.Settled w → s.Counts WorkerLoadGuard.isLive WorkerLoadGuard.isLive w) := by
  have hheld := run_held h
  refine ⟨hheld.warnings, fun w => ⟨hheld.counts w, fun hsettled => ?_⟩⟩
  refine (hheld.counts w).congr (fun g hg hw => ?_) fun g hg hw => ?_
  · have := (hsettled g hg hw).1
    simp [WorkerLoadGuard.holdsLoad, WorkerLoadGuard.isLive, this]
  · have := (hsettled g hg hw).2
    simp [WorkerLoadGuard.holdsKey, WorkerLoadGuard.isLive, this]

/-- The headers of a session. -/
def sessionHeaders : Option HeaderMap := some [(headerRoutingKey, [115])]

/-- Two guards of one worker share a key; one of them goes while a third is created. -/
def sharedKey : List (Action Bool) :=
  [.create true sessionHeaders, .finish 0, .create true sessionHeaders, .create true none, .finish 1,
    .drop 0, .finish 2, .release 0]

theorem sharedKey_accounted : ∃ s, Runs.exec Fleet.step {} sharedKey = some s ∧ s.Settled true ∧
    (s.workers true).load = 2 ∧
      (s.workers true).workerRoutingKeyLoad.activeRoutingKeys = [(['s'], 1)] ∧
      s.Counts WorkerLoadGuard.isLive WorkerLoadGuard.isLive true := by
  obtain ⟨s, hs⟩ : ∃ s, Runs.exec Fleet.step {} sharedKey = some s := ⟨_, rfl⟩
  have hguards : s.guards = [⟨true, some ['s'], .dropped⟩, ⟨true, some ['s'], .live⟩,
      ⟨true, none, .live⟩] := by
    cases hs
    decide
  have hsettled : s.Settled true := by
    rw [Fleet.Settled, hguards]
    decide
  have hload : (s.workers true).load = 2 := by cases hs; decide
  have hkeys : (s.workers true).workerRoutingKeyLoad.activeRoutingKeys = [(['s'], 1)] := by
    cases hs
    decide
  exact ⟨s, hs, hsettled, hload, hkeys, ((guards_accounted sharedKey s hs).2 true).2 hsettled⟩

end QwenStack.Load
