import Mathlib.Logic.Function.Basic
import QwenStack.Manual.Definitions

/-!
# Worker load — Definitions

`gateway/src/core/worker.rs`: a worker counts the requests it serves, and by routing key those that
name one.  A `WorkerLoadGuard` stands for a request: its creation counts the request, its drop
uncounts it.

Both take two operations, one for each counter, and threads interleave them: a guard is at the
operation it does next.  A counter that cannot be decremented stays as it is and a warning is logged.
The counters have no bound here; a guard has a place in memory, so there are fewer than `usize::MAX`.
The metrics are left out, and `reset_load`, which no guard calls.
-/

namespace QwenStack.Load
open Assoc Manual

/-- A decrement that is refused. -/
inductive Warning where
  /-- "Attempted to decrement load counter that is already at 0". -/
  | loadAtZero
  /-- "Attempted to decrement routing key counter that is already at 0". -/
  | routingKeyAtZero (routingKey : Str)
  /-- "Attempted to decrement non-existent routing key". -/
  | noRoutingKey (routingKey : Str)
  deriving DecidableEq, Repr

/-- `WorkerRoutingKeyLoad`. -/
structure WorkerRoutingKeyLoad where
  activeRoutingKeys : List (Str × Nat) := []
  deriving DecidableEq, Repr

namespace WorkerRoutingKeyLoad

def value (l : WorkerRoutingKeyLoad) : Nat := l.activeRoutingKeys.length

def increment (l : WorkerRoutingKeyLoad) (routingKey : Str) : WorkerRoutingKeyLoad where
  activeRoutingKeys :=
    put routingKey ((l.activeRoutingKeys.lookup routingKey).getD 0 + 1) l.activeRoutingKeys

def decrement (l : WorkerRoutingKeyLoad) (routingKey : Str) :
    WorkerRoutingKeyLoad × List Warning :=
  match l.activeRoutingKeys.lookup routingKey with
  | some counter =>
      if 0 < counter then
        (⟨if counter - 1 = 0 then del routingKey l.activeRoutingKeys
          else put routingKey (counter - 1) l.activeRoutingKeys⟩, [])
      else (l, [.routingKeyAtZero routingKey])
  | none => (l, [.noRoutingKey routingKey])

end WorkerRoutingKeyLoad

/-- The counters of a `BasicWorker`. -/
structure Worker where
  loadCounter : Nat := 0
  workerRoutingKeyLoad : WorkerRoutingKeyLoad := {}
  deriving DecidableEq, Repr

namespace Worker

def load (w : Worker) : Nat := w.loadCounter

def incrementLoad (w : Worker) : Worker := { w with loadCounter := w.loadCounter + 1 }

def decrementLoad (w : Worker) : Worker × List Warning :=
  if 1 ≤ w.loadCounter then ({ w with loadCounter := w.loadCounter - 1 }, [])
  else (w, [.loadAtZero])

/-- The second operation of `WorkerLoadGuard::new`. -/
def incrementKey (w : Worker) : Option Str → Worker
  | some key => { w with workerRoutingKeyLoad := w.workerRoutingKeyLoad.increment key }
  | none => w

/-- The second operation of the drop. -/
def decrementKey (w : Worker) : Option Str → Worker × List Warning
  | some key =>
      let (l, warnings) := w.workerRoutingKeyLoad.decrement key
      ({ w with workerRoutingKeyLoad := l }, warnings)
  | none => (w, [])

end Worker

/-! ### Guards -/

/-- How far a guard is. -/
inductive Stage where
  /-- In `new`, after `increment_load`. -/
  | creating
  | live
  /-- In `drop`, after `decrement_load`. -/
  | dropping
  | dropped
  deriving DecidableEq, Repr

/-- `WorkerLoadGuard`. -/
structure WorkerLoadGuard (W : Type*) where
  worker : W
  routingKey : Option Str
  stage : Stage
  deriving DecidableEq, Repr

/-- The workers, and every guard ever created. -/
structure Fleet (W : Type*) where
  workers : W → Worker := fun _ => {}
  guards : List (WorkerLoadGuard W) := []
  warnings : List Warning := []

/-- One operation. -/
inductive Action (W : Type*) where
  /-- `new` begins. -/
  | create (worker : W) (headers : Option HeaderMap)
  /-- `new` ends. -/
  | finish (guard : Nat)
  /-- `drop` begins. -/
  | drop (guard : Nat)
  /-- `drop` ends. -/
  | release (guard : Nat)
  deriving DecidableEq

namespace Fleet

variable {W : Type*} [DecidableEq W]

/-- A worker's counters change. -/
def setWorker (s : Fleet W) (w : W) (worker : Worker) : Fleet W :=
  { s with workers := Function.update s.workers w worker }

/-- A guard moves on. -/
def move (s : Fleet W) (i : Nat) (g : WorkerLoadGuard W) (stage : Stage) : Fleet W :=
  { s with guards := s.guards.set i { g with stage := stage } }

/-- Warnings are logged. -/
def warn (s : Fleet W) (warnings : List Warning) : Fleet W :=
  { s with warnings := s.warnings ++ warnings }

/-- One operation, if the guard is at it. -/
def step (s : Fleet W) : Action W → Option (Fleet W)
  | .create w headers =>
      let s := s.setWorker w (s.workers w).incrementLoad
      some { s with guards := s.guards ++ [⟨w, extractRoutingKey headers, .creating⟩] }
  | .finish i => do
      let g ← s.guards[i]?
      if g.stage = .creating then
        some ((s.setWorker g.worker ((s.workers g.worker).incrementKey g.routingKey)).move i g .live)
      else none
  | .drop i => do
      let g ← s.guards[i]?
      if g.stage = .live then
        let (worker, warnings) := (s.workers g.worker).decrementLoad
        some (((s.setWorker g.worker worker).warn warnings).move i g .dropping)
      else none
  | .release i => do
      let g ← s.guards[i]?
      if g.stage = .dropping then
        let (worker, warnings) := (s.workers g.worker).decrementKey g.routingKey
        some (((s.setWorker g.worker worker).warn warnings).move i g .dropped)
      else none

end Fleet

end QwenStack.Load
