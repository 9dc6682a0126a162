import QwenStack.Breaker.Definitions
import QwenStack.Health.Definitions
import QwenStack.Load.Definitions
import QwenStack.Workflows.Ranks

/-!
# Worker updates — Definitions

`gateway/src/core/worker_builder.rs` and `update_worker_properties.rs` of `gateway/src/core/steps/worker/local/`:
what a worker is made of, the two builders, and the update workflow, which builds each worker it finds again.

`Workflows/Definitions.lean` has the same workflow with what the other workflows read of a worker.  Here a
worker has all its fields, those that requests and health checks change among them, and the workflow runs
while nothing else changes them.  The step that follows, on the policies, touches no worker and is left out,
and so are the metrics and their labels.
-/

namespace QwenStack.Update
open Assoc
open Breaker (CircuitBreaker CircuitBreakerConfig)
open Registry (Url ModelId WorkerType ConnectionMode RuntimeType Keyed Registered)
open Workflows (Labels UrlParse parseBootstrapHostFromUrl rankUrl)

/-- What is fixed while the process runs.  A `ModelCard` is an `M`. -/
structure Env (P M : Type) extends Workflows.Env P where
  uuid_injective : Function.Injective uuid
  urlParse : UrlParse
  /-- The `id` of a card. -/
  cardId : M → ModelId

/-! ### What a worker is made of -/

/-- `HealthConfig`. -/
structure HealthConfig extends Health.HealthConfig where
  timeoutSecs : UInt64 := 5
  checkIntervalSecs : UInt64 := 30
  endpoint : Str := "/health".toList
  deriving DecidableEq, Repr

/-- `ProviderType`. -/
inductive ProviderType where
  | openAI
  | xAI
  | anthropic
  | gemini
  | custom (name : Str)
  deriving DecidableEq, Repr

/-- The bits of a `ModelType`. -/
abbrev ModelType := UInt16

/-- `ModelType::LLM`: chat, completions, responses and tools. -/
def ModelType.llm : ModelType := 1 ||| 2 ||| 4 ||| 128

/-- The port of a prefill worker. -/
def bootstrapPort : WorkerType → Option UInt16
  | .prefill bootstrapPort => bootstrapPort
  | _ => none

section
variable {P M : Type}

/-- `WorkerMetadata`.  Only the builders make it, and it never changes. -/
structure WorkerMetadata (env : Env P M) where
  url : Url
  workerType : WorkerType
  connectionMode : ConnectionMode
  runtimeType : RuntimeType
  labels : Labels
  healthConfig : HealthConfig
  apiKey : Option Str
  bootstrapHost : Str
  bootstrapPort : Option UInt16
  models : List M
  defaultProvider : Option ProviderType
  defaultModelType : ModelType
  bootstrapHost_eq : bootstrapHost = parseBootstrapHostFromUrl env.urlParse url
  bootstrapPort_eq : bootstrapPort = Update.bootstrapPort workerType
  defaultProvider_eq : defaultProvider = none
  defaultModelType_eq : defaultModelType = .llm

/-- `BasicWorker`.  A `GrpcClient` is a `G`. -/
structure BasicWorker (env : Env P M) (G : Type) where
  metadata : WorkerMetadata env
  /-- `load_counter` and `worker_routing_key_load`. -/
  counters : Load.Worker
  processedCounter : Nat
  healthy : Bool
  consecutiveFailures : Nat
  consecutiveSuccesses : Nat
  circuitBreakerConfig : CircuitBreakerConfig
  circuitBreaker : CircuitBreaker
  grpcClient : Option G
  modelsOverride : Option (List M)

/-- `DPAwareWorker`. -/
structure DPAwareWorker (env : Env P M) (G : Type) where
  baseWorker : BasicWorker env G
  dpRank : Nat
  dpSize : Nat
  baseUrl : Url
  bootstrapHost : Str
  url_eq : baseWorker.metadata.url = rankUrl baseUrl dpRank
  bootstrapHost_eq : bootstrapHost = parseBootstrapHostFromUrl env.urlParse baseUrl

end

/-! ### The builders -/

/-- `BasicWorkerBuilder`, as `new` makes it from a URL. -/
structure BasicWorkerBuilder (M G : Type) where
  url : Url
  apiKey : Option Str := none
  workerType : WorkerType := .regular
  connectionMode : ConnectionMode := .http
  runtimeType : RuntimeType := .sglang
  labels : Labels := []
  models : List M := []
  healthConfig : HealthConfig := {}
  circuitBreakerConfig : CircuitBreakerConfig := .default
  grpcClient : Option G := none

/-- `DPAwareWorkerBuilder`, as `new` makes it from a base URL and a rank. -/
structure DPAwareWorkerBuilder (M G : Type) where
  baseUrl : Url
  apiKey : Option Str := none
  dpRank : Nat
  dpSize : Nat
  workerType : WorkerType := .regular
  connectionMode : ConnectionMode := .http
  runtimeType : RuntimeType := .sglang
  labels : Labels := []
  models : List M := []
  healthConfig : HealthConfig := {}
  circuitBreakerConfig : CircuitBreakerConfig := .default
  grpcClient : Option G := none

section
variable {P M G : Type} {env : Env P M}

/-- `BasicWorkerBuilder::build`; `now` is what `now_ms` returns in it. -/
def BasicWorkerBuilder.build (now : Nat) (b : BasicWorkerBuilder M G) : BasicWorker env G where
  metadata :=
    { url := b.url
      apiKey := b.apiKey
      workerType := b.workerType
      connectionMode := b.connectionMode
      runtimeType := b.runtimeType
      labels := b.labels
      healthConfig := b.healthConfig
      bootstrapHost := parseBootstrapHostFromUrl env.urlParse b.url
      bootstrapPort := bootstrapPort b.workerType
      models := b.models
      defaultProvider := none
      defaultModelType := .llm
      bootstrapHost_eq := rfl
      bootstrapPort_eq := rfl
      defaultProvider_eq := rfl
      defaultModelType_eq := rfl }
  counters := {}
  processedCounter := 0
  healthy := true
  consecutiveFailures := 0
  consecutiveSuccesses := 0
  circuitBreakerConfig := b.circuitBreakerConfig
  circuitBreaker := .new now
  grpcClient := b.grpcClient
  modelsOverride := none

/-- `DPAwareWorkerBuilder::build`. -/
def DPAwareWorkerBuilder.build (now : Nat) (b : DPAwareWorkerBuilder M G) : DPAwareWorker env G where
  baseWorker := BasicWorkerBuilder.build now
    { url := rankUrl b.baseUrl b.dpRank
      models := b.models
      workerType := b.workerType
      connectionMode := b.connectionMode
      runtimeType := b.runtimeType
      labels := b.labels
      healthConfig := b.healthConfig
      circuitBreakerConfig := b.circuitBreakerConfig
      grpcClient := b.grpcClient
      apiKey := b.apiKey }
  dpRank := b.dpRank
  dpSize := b.dpSize
  baseUrl := b.baseUrl
  bootstrapHost := parseBootstrapHostFromUrl env.urlParse b.baseUrl
  url_eq := rfl
  bootstrapHost_eq := rfl

/-! ### Workers -/

/-- The two kinds of `Worker`. -/
inductive Worker (env : Env P M) (G : Type) where
  | basic (w : BasicWorker env G)
  | dpAware (w : DPAwareWorker env G)

namespace Worker

/-- The `BasicWorker` that answers for the worker. -/
def base : Worker env G → BasicWorker env G
  | basic w => w
  | dpAware w => w.baseWorker

def metadata (w : Worker env G) : WorkerMetadata env := w.base.metadata

def url (w : Worker env G) : Url := w.metadata.url

def isHealthy (w : Worker env G) : Bool := w.base.healthy

def load (w : Worker env G) : Nat := w.base.counters.load

/-- `is_available`. -/
def isAvailable (now : Nat) (w : Worker env G) : Bool :=
  w.isHealthy && (w.base.circuitBreaker.canExecute w.base.circuitBreakerConfig now).2

def isDpAware : Worker env G → Bool
  | basic _ => false
  | dpAware _ => true

def baseUrl : Worker env G → Url
  | basic w => w.metadata.url
  | dpAware w => w.baseUrl

def dpRank : Worker env G → Option Nat
  | basic _ => none
  | dpAware w => some w.dpRank

def dpSize : Worker env G → Option Nat
  | basic _ => none
  | dpAware w => some w.dpSize

/-- What the workflows read besides what the registry reads. -/
def toMetadata (w : Worker env G) : Workflows.Metadata where
  models := w.metadata.models.map env.cardId
  labels := w.metadata.labels
  dp :=
    match w with
    | basic _ => none
    | dpAware w => some (w.baseUrl, w.dpRank, w.dpSize)

/-- What the registry reads. -/
def toRegistry (handle : Nat) (w : Worker env G) : Registry.Worker where
  handle := handle
  url := w.url
  modelId := w.toMetadata.modelId env.unknownModelId
  workerType := w.metadata.workerType
  connectionMode := w.metadata.connectionMode
  runtimeType := w.metadata.runtimeType

end Worker

/-! ### The update workflow -/

/-- `WorkerUpdateRequest`. -/
structure WorkerUpdateRequest extends Workflows.WorkerUpdateRequest where
  apiKey : Option Str
  healthCheckTimeoutSecs : Option UInt64
  healthCheckIntervalSecs : Option UInt64
  healthSuccessThreshold : Option UInt32
  healthFailureThreshold : Option UInt32
  disableHealthCheck : Option Bool
  deriving DecidableEq, Repr

namespace WorkerUpdateRequest

/-- `updated_labels`. -/
def updatedLabels (request : WorkerUpdateRequest) (labels : Labels) : Labels :=
  let labels := labels.extend (request.labels.getD [])
  let labels := (request.priority.map fun p => put "priority".toList p labels).getD labels
  (request.cost.map fun c => put "cost".toList c labels).getD labels

/-- `updated_health_config`. -/
def updatedHealthConfig (request : WorkerUpdateRequest) (existingHealth : HealthConfig) :
    HealthConfig where
  timeoutSecs := request.healthCheckTimeoutSecs.getD existingHealth.timeoutSecs
  checkIntervalSecs := request.healthCheckIntervalSecs.getD existingHealth.checkIntervalSecs
  endpoint := existingHealth.endpoint
  failureThreshold := request.healthFailureThreshold.getD existingHealth.failureThreshold
  successThreshold := request.healthSuccessThreshold.getD existingHealth.successThreshold
  disableHealthCheck := request.disableHealthCheck.getD existingHealth.disableHealthCheck

end WorkerUpdateRequest

/-- `new_worker`. -/
def newWorker (request : WorkerUpdateRequest) (now : Nat) (worker : Worker env G) : Worker env G :=
  let updatedLabels := request.updatedLabels worker.metadata.labels
  let updatedHealthConfig := request.updatedHealthConfig worker.metadata.healthConfig
  let updatedApiKey := request.apiKey <|> worker.metadata.apiKey
  if worker.isDpAware = true then
    let dpRank := worker.dpRank.getD 0
    let dpSize := worker.dpSize.getD 1
    .dpAware <| DPAwareWorkerBuilder.build now
      { baseUrl := worker.baseUrl
        dpRank := dpRank
        dpSize := dpSize
        workerType := worker.metadata.workerType
        connectionMode := worker.metadata.connectionMode
        runtimeType := worker.metadata.runtimeType
        labels := updatedLabels
        healthConfig := updatedHealthConfig
        models := worker.metadata.models
        apiKey := updatedApiKey }
  else
    .basic <| BasicWorkerBuilder.build now
      { url := worker.url
        workerType := worker.metadata.workerType
        connectionMode := worker.metadata.connectionMode
        runtimeType := worker.metadata.runtimeType
        labels := updatedLabels
        healthConfig := updatedHealthConfig
        models := worker.metadata.models
        apiKey := updatedApiKey }

/-- The registry and the workers; the one with handle `n` is the `n`-th.  Each registered worker is there. -/
structure App (env : Env P M) (G : Type) where
  registry : Registry.State
  workers : List (Worker env G)
  keyed : Keyed env.uuid registry
  housed : ∀ r, Registered registry.registry r →
    ∃ w, workers[r.handle]? = some w ∧ w.toRegistry r.handle = r

namespace App

theorem housed_new (r : Registry.Worker) (h : Registered .new r) :
    ∃ w : Worker env G, [][r.handle]? = some w ∧ w.toRegistry r.handle = r := by
  obtain ⟨_, h⟩ := h
  cases h

/-- The start. -/
def new : App env G where
  registry := ⟨.new, 0⟩
  workers := []
  keyed := .init
  housed := housed_new

/-- `get_by_url`. -/
def getByUrl (app : App env G) (url : Url) : Option (Worker env G) :=
  (app.registry.registry.getByUrl url).bind fun r => app.workers[r.handle]?

/-- `find_workers_by_url`. -/
def findWorkersByUrl (app : App env G) (url : Url) (dpAware : Bool) : List (Worker env G) :=
  (Workflows.findWorkersByUrl app.registry.registry url dpAware).filterMap fun r =>
    app.workers[r.handle]?

/-- The registry once the worker is registered. -/
def callRegister (app : App env G) (worker : Worker env G) : Registry.State :=
  app.registry.call env.blake3 env.uuid (.register (worker.toRegistry app.workers.length))

section
variable (app : App env G) (worker : Worker env G)

theorem keyed_callRegister : Keyed env.uuid (app.callRegister worker) :=
  app.keyed.call env.uuid_injective _

theorem getByUrl_callRegister (u : Url) : (app.callRegister worker).registry.getByUrl u =
      if u = worker.url then some (worker.toRegistry app.workers.length)
      else app.registry.registry.getByUrl u :=
  Registry.getByUrl_register app.keyed env.uuid_injective _ u

theorem housed_callRegister (r : Registry.Worker)
    (h : Registered (app.callRegister worker).registry r) :
    ∃ w, (app.workers ++ [worker])[r.handle]? = some w ∧ w.toRegistry r.handle = r := by
  have hget := (app.keyed_callRegister worker).registered_iff.mp h
  rw [getByUrl_callRegister] at hget
  split at hget
  · cases hget
    exact ⟨worker, List.getElem?_concat_length, rfl⟩
  · obtain ⟨w, hw, hwr⟩ := app.housed r (app.keyed.registered_iff.mpr hget)
    exact ⟨w, by rw [List.getElem?_append_left (List.getElem?_eq_some_iff.mp hw).1, hw], hwr⟩

end

/-- `register`. -/
def register (app : App env G) (worker : Worker env G) : App env G where
  registry := app.callRegister worker
  workers := app.workers ++ [worker]
  keyed := app.keyed_callRegister worker
  housed := app.housed_callRegister worker

/-- The loop of `UpdateWorkerPropertiesStep`.  At a URL, `now` is what `now_ms` returns as its worker is
built. -/
def updateWorkerProperties (request : WorkerUpdateRequest) (now : Url → Nat) :
    List (Worker env G) → App env G → App env G × List (Worker env G)
  | [], app => (app, [])
  | worker :: workers, app =>
      let new := newWorker request (now worker.url) worker
      let (app, updated) := updateWorkerProperties request now workers (app.register new)
      (app, new :: updated)

/-- What `FindWorkerToUpdateStep` finds. -/
def workersToUpdate (app : App env G) (url : Url) : List (Worker env G) :=
  app.findWorkersByUrl url (Workflows.updateDpAware url)

/-- The update workflow, and the new workers. -/
def updateWorkers (url : Url) (request : WorkerUpdateRequest) (now : Url → Nat) (app : App env G) :
    App env G × Except Workflows.WorkflowError (List (Worker env G)) :=
  match app.workersToUpdate url with
  | [] => (app, .error (.stepFailed "find_worker_to_update".toList
      (Workflows.notFoundMessage url (Workflows.updateDpAware url))))
  | worker :: workers =>
      let (app, updated) := app.updateWorkerProperties request now (worker :: workers)
      (app, .ok updated)

end App

end

end QwenStack.Update
