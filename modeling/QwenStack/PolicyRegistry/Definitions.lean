import QwenStack.Support.Assoc
import QwenStack.Support.Runs
import QwenStack.Support.Threads
import QwenStack.Support.Utf8

/-!
# Policy registry — Definitions

`gateway/src/policies/registry.rs`: the policy of each model, created with the first worker of the
model and dropped with the last.

`on_worker_added` and `on_worker_removed` are three operations each on two concurrent maps, and the
locks are given back in between.  A thread is a call with the operation it does next; a run
interleaves the operations of any number of threads.  What a policy is does not matter here: `P` is
any type, and a call carries the object that `PolicyFactory` makes for it.  The sync to the mesh is
left out.
-/

namespace QwenStack.PolicyRegistry
open Assoc

abbrev ModelId := Str

/-- `PolicyRegistry`, less the policies for prefill and decode. -/
structure Registry (P : Type) where
  modelPolicies : List (ModelId × P)
  modelWorkerCounts : List (ModelId × Nat)
  defaultPolicy : P

/-- A call.  `created` is what a policy of the hinted type is created as, if there is such a type. -/
inductive Call (P : Type) where
  | onWorkerAdded (modelId : ModelId) (policyHint : Option Str) (created : Option P)
  | onWorkerRemoved (modelId : ModelId)

/-- The next operation of a call, or that it has returned. -/
inductive Stage where
  | first
  | second
  | third
  | returned
  deriving DecidableEq, Repr

/-- A running call. -/
structure Thread (P : Type) where
  call : Call P
  stage : Stage

section
variable {P : Type}

def Call.modelId : Call P → ModelId
  | .onWorkerAdded modelId _ _ => modelId
  | .onWorkerRemoved modelId => modelId

def Call.isAddition : Call P → Bool
  | .onWorkerAdded _ _ _ => true
  | .onWorkerRemoved _ => false

/-- `determine_policy_for_model`. -/
def determinePolicyForModel (defaultPolicy : P) (policyHint : Option Str) (created : Option P) : P :=
  match policyHint with
  | some _ => created.getD defaultPolicy
  | none => defaultPolicy

/-- The next operation of a call on the registry, and where the call is then. -/
def Registry.operate (r : Registry P) : Call P → Stage → Registry P × Stage
  -- `on_worker_added`: count the worker, look for a policy, store a new one
  | .onWorkerAdded modelId _ _, .first =>
      ({ r with modelWorkerCounts := upsert modelId (· + 1) 1 r.modelWorkerCounts }, .second)
  | .onWorkerAdded modelId _ _, .second =>
      match r.modelPolicies.lookup modelId with
      | some _ => (r, .returned)
      | none => (r, .third)
  | .onWorkerAdded modelId policyHint created, .third =>
      let policy := determinePolicyForModel r.defaultPolicy policyHint created
      ({ r with modelPolicies := put modelId policy r.modelPolicies }, .returned)
  -- `on_worker_removed`: count the worker out, and at zero remove the count, then the policy
  | .onWorkerRemoved modelId, .first =>
      match r.modelWorkerCounts.lookup modelId with
      | some count =>
          ({ r with modelWorkerCounts := put modelId (count - 1) r.modelWorkerCounts },
            if count - 1 = 0 then .second else .returned)
      | none => (r, .returned)
  | .onWorkerRemoved modelId, .second =>
      ({ r with modelWorkerCounts := del modelId r.modelWorkerCounts }, .third)
  | .onWorkerRemoved modelId, .third =>
      ({ r with modelPolicies := del modelId r.modelPolicies }, .returned)
  | _, .returned => (r, .returned)

/-! ### Runs -/

/-- The registry, its calls, and for each model what the first addition since its count was last
zero would choose.  The last is read by no operation. -/
structure State (P : Type) where
  registry : Registry P
  threads : List (Thread P)
  firstChoice : List (ModelId × P)

/-- The start. -/
def State.init (defaultPolicy : P) : State P := ⟨⟨[], [], defaultPolicy⟩, [], []⟩

/-- The additions of a model that have returned. -/
def State.completedAdditions (s : State P) (modelId : ModelId) : Nat :=
  s.threads.countP fun t =>
    t.call.isAddition && decide (t.stage = .returned) && decide (t.call.modelId = modelId)

/-- The removals of a model that were called. -/
def State.startedRemovals (s : State P) (modelId : ModelId) : Nat :=
  s.threads.countP fun t => !t.call.isAddition && decide (t.call.modelId = modelId)

/-- A call begins, or the `i`-th call does its next operation. -/
inductive Action (P : Type) where
  | begin (call : Call P)
  | operate (i : Nat)

/-- The ghost of the first choice: set by the addition that counts up from zero. -/
def State.noteChoice (s : State P) (t : Thread P) : List (ModelId × P) :=
  match t.call, t.stage with
  | .onWorkerAdded modelId policyHint created, .first =>
      if (s.registry.modelWorkerCounts.lookup modelId).getD 0 = 0 then
        put modelId (determinePolicyForModel s.registry.defaultPolicy policyHint created)
          s.firstChoice
      else s.firstChoice
  | _, _ => s.firstChoice

/-- One action.  A removal begins only for a worker whose addition has returned. -/
def step (s : State P) : Action P → Option (State P)
  | .begin call =>
      if call.isAddition = true ∨
          s.startedRemovals call.modelId < s.completedAdditions call.modelId then
        some { s with threads := s.threads ++ [⟨call, .first⟩] }
      else none
  | .operate i => do
      let t ← s.threads[i]?
      if t.stage = .returned then none
      else
        let (registry, stage) := s.registry.operate t.call t.stage
        some ⟨registry, s.threads.set i ⟨t.call, stage⟩, s.noteChoice t⟩

/-- The state after some actions. -/
def run (defaultPolicy : P) (actions : List (Action P)) : Option (State P) :=
  Runs.exec step (State.init defaultPolicy) actions

end

end QwenStack.PolicyRegistry
