import QwenStack.Registry.Definitions

/-!
# Job queue — Definitions

`gateway/src/core/job_queue.rs`: jobs of the control plane go through a bounded channel to one dispatcher,
which spawns a task for each as soon as it has a permit.  A status is kept by worker URL: it is written when
a job is submitted, when its task begins and when it fails, and removed when it has succeeded, when a worker
is removed and when it is five minutes old.

The operations on the status map are atomic, and tasks interleave them.  A workflow is one change of the
registration of its URL, at some moment while the job executes; what a registration has found out, and what
an update does, are given by the environment, for each job.  `JobStatus` is of a package outside the
repository: a status has the time at which it is made, in seconds.
-/

namespace QwenStack.Jobs
open Assoc
open Registry (Url)

/-! ### Jobs -/

/-- `Job`, with what its status is tracked by. -/
inductive Job where
  | addWorker (url : Url)
  | updateWorker (url : Url)
  | removeWorker (url : Url)
  | initializeWorkersFromConfig
  | initializeMcpServers
  | registerMcpServer (name : Str)
  | addWasmModule (name : Str)
  | removeWasmModule (uuidString : Str)
  | addTokenizer (id : Str)
  | removeTokenizer (id : Str)
  deriving DecidableEq, Repr

namespace Job

def jobType : Job → Str
  | addWorker _ => "AddWorker".toList
  | updateWorker _ => "UpdateWorker".toList
  | removeWorker _ => "RemoveWorker".toList
  | initializeWorkersFromConfig => "InitializeWorkersFromConfig".toList
  | initializeMcpServers => "InitializeMcpServers".toList
  | registerMcpServer _ => "RegisterMcpServer".toList
  | addWasmModule _ => "AddWasmModule".toList
  | removeWasmModule _ => "RemoveWasmModule".toList
  | addTokenizer _ => "AddTokenizer".toList
  | removeTokenizer _ => "RemoveTokenizer".toList

def workerUrl : Job → Url
  | addWorker url | updateWorker url | removeWorker url => url
  | initializeWorkersFromConfig | initializeMcpServers => "startup".toList
  | registerMcpServer name | addWasmModule name => name
  | removeWasmModule uuidString => uuidString
  | addTokenizer id | removeTokenizer id => id

end Job

/-! ### Statuses -/

inductive Phase where
  | pending
  | processing
  | failed
  deriving DecidableEq, Repr

structure JobStatus where
  jobType : Str
  workerUrl : Url
  status : Phase
  message : Option Str := none
  timestamp : UInt64
  deriving DecidableEq, Repr

namespace JobStatus

/-- A status of a job. -/
def of (job : Job) (status : Phase) (message : Option Str) (now : UInt64) : JobStatus :=
  ⟨job.jobType, job.workerUrl, status, message, now⟩

def pending (job : Job) (now : UInt64) : JobStatus := of job .pending none now

def processing (job : Job) (now : UInt64) : JobStatus := of job .processing none now

def failed (job : Job) (error : Str) (now : UInt64) : JobStatus := of job .failed (some error) now

/-- `STATUS_TTL`. -/
def ttl : UInt64 := 300

/-- `now - value.timestamp < STATUS_TTL`. -/
def fresh (now : UInt64) (status : JobStatus) : Bool := decide (now - status.timestamp < ttl)

end JobStatus

/-! ### The queue -/

/-- `JobQueueConfig`. -/
structure JobQueueConfig where
  queueCapacity : Nat := 1000
  maxConcurrentJobs : Nat := 200
  deriving DecidableEq, Repr

/-- Where an accepted job is. -/
inductive Stage where
  /-- In the channel, or with the dispatcher. -/
  | queued
  /-- It has its permit. -/
  | spawned
  /-- At `context.upgrade()`. -/
  | processing
  | executing
  /-- The workflow is over. -/
  | applied
  /-- And the status of a removed worker is, too. -/
  | cleaned
  /-- The completion is recorded. -/
  | recorded (failed : Bool)
  /-- It found that the context is dropped. -/
  | dropped
  deriving DecidableEq, Repr

structure Entry where
  job : Job
  stage : Stage := .queued
  deriving DecidableEq, Repr

/-- The queue, its tasks and the registrations. -/
structure JobQueue (W : Type) where
  statusMap : List (Url × JobStatus) := []
  /-- The calls of `submit` that wait for room in the channel. -/
  sending : List Job := []
  /-- In the order of the channel. -/
  accepted : List Entry := []
  /-- How many of them have a task. -/
  dispatched : Nat := 0
  /-- The dispatcher has received the next one. -/
  holds : Bool := false
  /-- The dispatcher has stopped. -/
  closed : Bool := false
  contextAlive : Bool := true
  permits : Nat
  registry : Url → Option W

/-- What the queue is given. -/
structure Env (W : Type) where
  config : JobQueueConfig
  /-- What the registration of a job makes, unless it fails. -/
  created : Nat → Option W
  updated : Nat → W → W

/-- Every registration succeeds, and updates do nothing. -/
def Env.plain (config : JobQueueConfig) : Env Unit where
  config := config
  created _ := some ()
  updated _ := id

variable {W : Type}

/-- The change of the registration of its URL by the `i`-th job.  A worker is registered once. -/
def Env.change (env : Env W) (i : Nat) : Job → Option W → Option W
  | .addWorker _, r => r.or (env.created i)
  | .updateWorker _, r => r.map (env.updated i)
  | .removeWorker _, _ => none
  | _, r => r

namespace JobQueue

def new (config : JobQueueConfig) (registry : Url → Option W) : JobQueue W where
  permits := config.maxConcurrentJobs
  registry := registry

def getStatus (s : JobQueue W) (url : Url) : Option JobStatus := s.statusMap.lookup url

/-- `status_map.insert`. -/
def setStatus (s : JobQueue W) (status : JobStatus) : JobQueue W :=
  { s with statusMap := put status.workerUrl status s.statusMap }

/-- `remove_status`. -/
def removeStatus (s : JobQueue W) (url : Url) : JobQueue W := { s with statusMap := del url s.statusMap }

def setStage (s : JobQueue W) (i : Nat) (stage : Stage) : JobQueue W :=
  { s with accepted := s.accepted.modify i fun e => { e with stage := stage } }

/-- The messages in the channel. -/
def depth (s : JobQueue W) : Nat := s.accepted.length - s.dispatched - s.holds.toNat

/-- `record_job_completion`, and the permit is released. -/
def recordJobCompletion (s : JobQueue W) (i : Nat) (job : Job) (result : Except Str Str) (now : UInt64) :
    JobQueue W :=
  match result with
  | .ok _ =>
      let s := (s.removeStatus job.workerUrl).setStage i (.recorded false)
      { s with permits := s.permits + 1 }
  | .error error =>
      let s := (s.setStatus (.failed job error now)).setStage i (.recorded true)
      { s with permits := s.permits + 1 }

/-- `cleanup_old_statuses`, once. -/
def cleanupOldStatuses (s : JobQueue W) (now : UInt64) : JobQueue W :=
  { s with statusMap := s.statusMap.filter fun e => e.2.fresh now }

end JobQueue

/-! ### Steps -/

inductive Action where
  /-- `submit` begins. -/
  | submit (job : Job) (now : UInt64)
  /-- The message of a `submit` is in the channel, and it returns `Ok`. -/
  | send (k : Nat)
  /-- The channel is closed, and a `submit` returns an error. -/
  | sendFails (k : Nat)
  /-- The dispatcher receives the next job. -/
  | recv
  /-- It gets a permit, and spawns the task. -/
  | acquire
  /-- The task begins. -/
  | process (i : Nat) (now : UInt64)
  /-- `context.upgrade()`. -/
  | upgrade (i : Nat) (now : UInt64)
  /-- The workflow makes its change. -/
  | execute (i : Nat)
  /-- The status is removed with the worker. -/
  | removeStatus (i : Nat)
  /-- The result is recorded. -/
  | record (i : Nat) (result : Except Str Str) (now : UInt64)
  | cleanup (now : UInt64)
  | dropContext
  | stop

/-- A job that executes has the context. -/
def Stage.keepsContext : Stage → Bool
  | .executing | .applied | .cleaned => true
  | .queued | .spawned | .processing | .recorded _ | .dropped => false

/-- `execute_job` may return.  One that removes a worker removes its status before, unless it could not start
the workflow. -/
def Stage.returns (job : Job) (result : Except Str Str) : Stage → Bool
  | .applied =>
      match job, result with
      | .removeWorker _, .ok _ => false
      | _, _ => true
  | .cleaned => true
  | .queued | .spawned | .processing | .executing | .recorded _ | .dropped => false

open JobQueue in
/-- One operation of a task, or `none` if it is not its turn. -/
def step (env : Env W) (s : JobQueue W) : Action → Option (JobQueue W)
  | .submit job now =>
      if s.contextAlive = true then
        some { s.setStatus (.pending job now) with sending := s.sending ++ [job] }
      else some s
  | .send k => do
      let job ← s.sending[k]?
      guard (s.closed = false ∧ s.depth < env.config.queueCapacity)
      some { s with sending := s.sending.eraseIdx k, accepted := s.accepted ++ [{ job }] }
  | .sendFails k => do
      let job ← s.sending[k]?
      guard (s.closed = true)
      some { s.removeStatus job.workerUrl with sending := s.sending.eraseIdx k }
  | .recv => do
      guard (s.closed = false ∧ s.holds = false ∧ s.dispatched < s.accepted.length)
      some { s with holds := true }
  | .acquire => do
      guard (s.closed = false ∧ s.holds = true ∧ 0 < s.permits)
      some { s.setStage s.dispatched .spawned with
        dispatched := s.dispatched + 1, holds := false, permits := s.permits - 1 }
  | .process i now => do
      let e ← s.accepted[i]?
      guard (e.stage = .spawned)
      some ((s.setStatus (.processing e.job now)).setStage i .processing)
  | .upgrade i now => do
      let e ← s.accepted[i]?
      guard (e.stage = .processing)
      if s.contextAlive = true then some (s.setStage i .executing)
      else
        let s := (s.setStatus (.failed e.job "AppContext dropped".toList now)).setStage i .dropped
        some { s with permits := s.permits + 1 }
  | .execute i => do
      let e ← s.accepted[i]?
      guard (e.stage = .executing)
      let url := e.job.workerUrl
      some { s.setStage i .applied with
        registry := fun u => if u = url then env.change i e.job (s.registry u) else s.registry u }
  | .removeStatus i => do
      let e ← s.accepted[i]?
      guard (e.stage = .applied ∧ e.job = .removeWorker e.job.workerUrl)
      some ((s.removeStatus e.job.workerUrl).setStage i .cleaned)
  | .record i result now => do
      let e ← s.accepted[i]?
      guard (e.stage.returns e.job result = true)
      some (s.recordJobCompletion i e.job result now)
  | .cleanup now => some (s.cleanupOldStatuses now)
  | .dropContext => do
      guard (s.accepted.all (fun e => !e.stage.keepsContext) = true)
      some { s with contextAlive := false }
  | .stop => some { s with closed := true }

end QwenStack.Jobs
