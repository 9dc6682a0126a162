import QwenStack.BucketPolicy.Definitions
import QwenStack.PolicyRegistry.Definitions
import QwenStack.Registry.Definitions

/-!
# Worker workflows — Definitions

`gateway/src/core/steps/worker/` and `gateway/src/core/worker_service.rs`: the jobs that add, update and
remove workers, each a workflow over the worker registry, the policies of the models and the buckets of
the prefill workers.

A step that fails fails its workflow.  What a server answers to the steps that probe it is given to the
job (`Discovery`), as is the outside of the process (`Env`).  Workflows run one after another here.  The
cache-aware policies, activation, the tokenizer job, the metrics and the logs are left out, and so is
what a worker holds that none of these steps reads.
-/

namespace QwenStack.Workflows
open Assoc
open BucketPolicy (Bucket)
open PolicyRegistry (Registry)
open Registry (Url ModelId WorkerId Worker WorkerType ConnectionMode RuntimeType WorkerRegistry Blake3)

abbrev Labels := List (Str × Str)

/-- `insert` of every entry. -/
def Labels.extend (labels entries : Labels) : Labels :=
  entries.foldl (fun labels e => put e.1 e.2 labels) labels

/-- `WorkerConfigRequest`; the priority and the cost are as they are printed. -/
structure WorkerConfigRequest where
  url : Url
  apiKey : Option Str
  modelId : Option ModelId
  workerType : Option Str
  bootstrapPort : Option UInt16
  runtime : Option Str
  labels : Labels
  priority : Option Str
  cost : Option Str
  dpAware : Bool
  deriving DecidableEq, Repr

structure WorkerUpdateRequest where
  labels : Option Labels
  priority : Option Str
  cost : Option Str
  deriving DecidableEq, Repr

inductive WorkflowError where
  | stepFailed (stepId message : Str)
  | contextValueNotFound (key : Str)
  deriving DecidableEq, Repr

/-- What a server answers to the steps of one job that probe it, or why they fail. -/
structure Discovery where
  httpHealth : Except Str Unit
  grpcHealth : Except Str Unit
  labels : Labels
  detectedRuntimeType : Option Str
  dpSize : Except Str Nat
  models : Except Str (List ModelId)

/-- What is fixed while the process runs. -/
structure Env (P : Type) where
  blake3 : Blake3
  uuid : Nat → WorkerId
  unknownModelId : ModelId
  /-- `create_policy_from_type`, if there is such a type. -/
  createPolicyFromType : Str → Option P
  /-- The prefill policy is set, and is a bucket policy. -/
  prefillIsBucket : Bool
  bucketAdjustIntervalSecs : Nat
  /-- `dp_aware` of the router. -/
  dpAware : Bool
  /-- `Uuid::parse_str`. -/
  parseUuid : Str → Except Str Unit

/-! ### Workers -/

/-- What is read of a worker besides what the registry reads.  `dp` is its base URL, rank and size. -/
structure Metadata where
  models : List ModelId
  labels : Labels
  dp : Option (Url × Nat × Nat)
  deriving DecidableEq, Repr

/-- `Worker::model_id`. -/
def Metadata.modelId (unknownModelId : ModelId) (m : Metadata) : ModelId :=
  (m.models.head? <|> m.labels.lookup "model_id".toList).getD unknownModelId

/-- A worker object. -/
structure Object where
  worker : Worker
  metadata : Metadata
  deriving DecidableEq, Repr

/-- `BasicWorkerBuilder::build`. -/
def basicWorker (unknownModelId : ModelId) (handle : Nat) (url : Url) (workerType : WorkerType)
    (connectionMode : ConnectionMode) (runtimeType : RuntimeType) (labels : Labels)
    (models : List ModelId) (dp : Option (Url × Nat × Nat)) : Object :=
  let metadata : Metadata := ⟨models, labels, dp⟩
  ⟨⟨handle, url, metadata.modelId unknownModelId, workerType, connectionMode, runtimeType⟩, metadata⟩

/-- The URL of a rank. -/
def rankUrl (baseUrl : Url) (dpRank : Nat) : Url := baseUrl ++ '@' :: Nat.toDigits 10 dpRank

/-- `DPAwareWorkerBuilder::build`. -/
def dpAwareWorker (unknownModelId : ModelId) (handle : Nat) (baseUrl : Url) (dpRank dpSize : Nat)
    (workerType : WorkerType) (connectionMode : ConnectionMode) (runtimeType : RuntimeType)
    (labels : Labels) (models : List ModelId) : Object :=
  basicWorker unknownModelId handle (rankUrl baseUrl dpRank) workerType connectionMode runtimeType
    labels models (some (baseUrl, dpRank, dpSize))

/-! ### The state -/

/-- `AppContext`.  The worker with handle `n` has the `n`-th metadata. -/
structure App (P : Type) where
  registry : Registry.State
  objects : List Metadata
  policies : PolicyRegistry.Registry P
  buckets : List (ModelId × Bucket)

section
variable {P : Type}

/-- The start. -/
def App.new (defaultPolicy : P) : App P := ⟨⟨WorkerRegistry.new, 0⟩, [], ⟨[], [], defaultPolicy⟩, []⟩

/-- A call on the worker registry. -/
def App.call (env : Env P) (app : App P) (c : Registry.Call) : App P :=
  { app with registry := app.registry.call env.blake3 env.uuid c }

/-- A call on the policies, with no other at a time. -/
def notify (policies : PolicyRegistry.Registry P) (c : PolicyRegistry.Call P) :
    PolicyRegistry.Registry P :=
  let (policies, stage) := policies.operate c .first
  let (policies, stage) := policies.operate c stage
  (policies.operate c stage).1

/-- `normalize_model_key`. -/
def normalizeModelKey (unknownModelId modelId : ModelId) : ModelId :=
  if modelId = [] then unknownModelId else modelId

/-- `BucketPolicy::init_prefill_worker_urls`. -/
def initPrefillWorkerUrls (env : Env P) (prefillWorkers : List Worker)
    (buckets : List (ModelId × Bucket)) : List (ModelId × Bucket) :=
  let modelWorkers := prefillWorkers.foldl (fun groups w =>
    upsert (normalizeModelKey env.unknownModelId w.modelId) (· ++ [w]) [w] groups) []
  modelWorkers.foldl (fun buckets group =>
    let bucket := (buckets.lookup group.1).getD (Bucket.new (env.bucketAdjustIntervalSecs * 1000))
    put group.1 (bucket.initPrefillWorkerUrls (group.2.map Worker.url)) buckets) buckets

/-! ### Adding -/

/-- `DetectConnectionModeStep`. -/
def detectConnectionMode (url : Url) (d : Discovery) : Except WorkflowError ConnectionMode :=
  match d.httpHealth, d.grpcHealth with
  | .ok _, _ => .ok .http
  | _, .ok _ => .ok (.grpc none)
  | .error http, .error grpc => .error (.stepFailed "detect_connection_mode".toList
      ("Both HTTP and gRPC health checks failed for ".toList ++ url ++ ": HTTP: ".toList ++ http ++
        ", gRPC: ".toList ++ grpc))

/-- `DiscoverDPInfoStep`. -/
def discoverDpInfo (config : WorkerConfigRequest) (d : Discovery) :
    Except WorkflowError (Option Nat) :=
  if config.dpAware = false then .ok none
  else
    match d.dpSize with
    | .ok dpSize => .ok (some dpSize)
    | .error e => .error (.stepFailed "discover_dp_info".toList
        ("Failed to get DP info: ".toList ++ e))

def hasHttpScheme (url : Url) : Bool :=
  "http://".toList.isPrefixOf url || "https://".toList.isPrefixOf url

def hasScheme (url : Url) : Bool := hasHttpScheme url || "grpc://".toList.isPrefixOf url

/-- `normalize_url`. -/
def normalizeUrl (url : Url) (connectionMode : ConnectionMode) : Url :=
  if hasScheme url = true then url
  else
    match connectionMode with
    | .http => "http://".toList ++ url
    | .grpc _ => "grpc://".toList ++ url

/-- `parse_worker_type`. -/
def parseWorkerType (config : WorkerConfigRequest) : WorkerType :=
  match config.workerType with
  | some t =>
      if t = "prefill".toList then .prefill config.bootstrapPort
      else if t = "decode".toList then .decode
      else .regular
  | none => .regular

/-- `determine_runtime_type`. -/
def determineRuntimeType (connectionMode : ConnectionMode) (detected runtime : Option Str) :
    RuntimeType :=
  match connectionMode with
  | .http => .sglang
  | .grpc _ =>
      match detected <|> runtime with
      | some t => if t = "vllm".toList then .vllm else .sglang
      | none => .sglang

/-- The labels of the request, with its priority and its cost. -/
def configLabels (config : WorkerConfigRequest) : Labels :=
  let labels := config.labels
  let labels := (config.priority.map fun p => put "priority".toList p labels).getD labels
  (config.cost.map fun c => put "cost".toList c labels).getD labels

/-- The model of the worker: of the request, or else as the server names it. -/
def determineModelId (unknownModelId : ModelId) (config : WorkerConfigRequest)
    (finalLabels : Labels) : ModelId :=
  (config.modelId <|> finalLabels.lookup "served_model_name".toList <|>
    finalLabels.lookup "model_path".toList).getD unknownModelId

/-- `CreateLocalWorkerStep`: the workers, with their labels. -/
def createLocalWorker (env : Env P) (config : WorkerConfigRequest) (connectionMode : ConnectionMode)
    (d : Discovery) (dpInfo : Option Nat) (app : App P) :
    Except WorkflowError (List Object × Labels) :=
  match app.registry.registry.getByUrl config.url with
  | some _ => .error (.stepFailed "create_worker".toList
      ("Worker ".toList ++ config.url ++ " already exists".toList))
  | none =>
      let finalLabels := d.labels.extend (configLabels config)
      let modelId := determineModelId env.unknownModelId config finalLabels
      let workerType := parseWorkerType config
      let runtimeType := determineRuntimeType connectionMode d.detectedRuntimeType config.runtime
      let normalizedUrl := normalizeUrl config.url connectionMode
      let handle := app.objects.length
      if config.dpAware = true then
        match dpInfo with
        | none => .error (.contextValueNotFound "dp_info".toList)
        | some dpSize => .ok ((List.range dpSize).map fun rank =>
            dpAwareWorker env.unknownModelId (handle + rank) normalizedUrl rank dpSize workerType
              connectionMode runtimeType finalLabels [modelId], finalLabels)
      else .ok ([basicWorker env.unknownModelId handle normalizedUrl workerType connectionMode
        runtimeType finalLabels [modelId] none], finalLabels)

/-- The loop of `RegisterWorkersStep`. -/
def registerAll (env : Env P) (workers : List Worker) (s : Registry.State) : Registry.State :=
  workers.foldl (fun s w => s.call env.blake3 env.uuid (.register w)) s

/-- `RegisterWorkersStep`. -/
def registerWorkers (env : Env P) (objects : List Object) (app : App P) : App P :=
  { app with
    registry := registerAll env (objects.map Object.worker) app.registry
    objects := app.objects ++ objects.map Object.metadata }

/-- `UpdatePoliciesStep`. -/
def updatePolicies (env : Env P) (workers : List Worker) (labels : Labels) (app : App P) : App P :=
  let policyHint := labels.lookup "policy".toList
  let policies := workers.foldl (fun policies w => notify policies
    (.onWorkerAdded w.modelId policyHint (policyHint.bind env.createPolicyFromType))) app.policies
  let prefillWorkers := app.registry.registry.getPrefillWorkers
  { app with
    policies := policies
    buckets :=
      if prefillWorkers ≠ [] ∧ env.prefillIsBucket = true then
        initPrefillWorkerUrls env prefillWorkers app.buckets
      else app.buckets }

/-- What the steps before the registration of a local worker make. -/
def prepareLocal (env : Env P) (config : WorkerConfigRequest) (d : Discovery) (app : App P) :
    Except WorkflowError (List Object × Labels) := do
  let connectionMode ← detectConnectionMode config.url d
  let dpInfo ← discoverDpInfo config d
  createLocalWorker env config connectionMode d dpInfo app

/-- `DiscoverModelsStep`. -/
def discoverModels (config : WorkerConfigRequest) (d : Discovery) :
    Except WorkflowError (List ModelId) :=
  if config.apiKey.all (fun key => key.isEmpty) then .ok []
  else
    match d.models with
    | .error e => .error (.stepFailed "discover_models".toList
        ("Failed to discover models from ".toList ++ config.url ++ ": ".toList ++ e))
    | .ok [] => .error (.stepFailed "discover_models".toList
        ("No models discovered from ".toList ++ config.url))
    | .ok (m :: ms) => .ok (m :: ms)

/-- `normalize_external_url`. -/
def normalizeExternalUrl (url : Url) : Url :=
  if hasHttpScheme url = true then url else "https://".toList ++ url

/-- `CreateExternalWorkersStep`. -/
def createExternalWorkers (env : Env P) (config : WorkerConfigRequest) (modelCards : List ModelId)
    (app : App P) : List Object × Labels :=
  let labels := configLabels config
  let url := normalizeExternalUrl config.url
  let worker := fun (handle : Nat) (models : List ModelId) =>
    basicWorker env.unknownModelId handle url .regular .http .external labels models none
  let handle := app.objects.length
  if modelCards = [] then ([worker handle []], labels)
  else (modelCards.zipIdx.map fun card => worker (handle + card.2) [card.1], labels)

/-- What the steps before the registration of external workers make. -/
def prepareExternal (env : Env P) (config : WorkerConfigRequest) (d : Discovery) (app : App P) :
    Except WorkflowError (List Object × Labels) := do
  let modelCards ← discoverModels config d
  return createExternalWorkers env config modelCards app

/-- The job is for the external workflow. -/
def WorkerConfigRequest.isExternal (config : WorkerConfigRequest) : Bool :=
  decide (config.runtime = some "external".toList)

/-- What the steps before the registration make. -/
def prepare (env : Env P) (config : WorkerConfigRequest) (d : Discovery) (app : App P) :
    Except WorkflowError (List Object × Labels) :=
  if config.isExternal = true then prepareExternal env config d app
  else prepareLocal env config d app

/-- The registration workflow, and the workers it creates. -/
def addWorkers (env : Env P) (config : WorkerConfigRequest) (d : Discovery) (app : App P) :
    App P × Except WorkflowError (List Worker) :=
  match prepare env config d app with
  | .error e => (app, .error e)
  | .ok (objects, labels) =>
      let workers := objects.map Object.worker
      (updatePolicies env workers labels (registerWorkers env objects app), .ok workers)

/-! ### Updating and removing -/

/-- `find_workers_by_url`. -/
def findWorkersByUrl (registry : WorkerRegistry) (url : Url) (dpAware : Bool) : List Worker :=
  if dpAware = true then registry.getAll.filter fun w => (url ++ ['@']).isPrefixOf w.url
  else
    match registry.getByUrl url with
    | some w => [w]
    | none => []

/-- The text of a failed find step. -/
def notFoundMessage (url : Url) (dpAware : Bool) : Str :=
  if dpAware = true then "No workers found with prefix ".toList ++ url ++ ['@']
  else "Worker ".toList ++ url ++ " not found".toList

/-- The new object for a worker. -/
def updatedWorker (env : Env P) (request : WorkerUpdateRequest) (w : Worker) (app : App P) : Object :=
  let metadata := (app.objects[w.handle]?).getD ⟨[], [], none⟩
  let labels := metadata.labels.extend (request.labels.getD [])
  let labels := (request.priority.map fun p => put "priority".toList p labels).getD labels
  let labels := (request.cost.map fun c => put "cost".toList c labels).getD labels
  let handle := app.objects.length
  match metadata.dp with
  | some (baseUrl, dpRank, dpSize) => dpAwareWorker env.unknownModelId handle baseUrl dpRank dpSize
      w.workerType w.connectionMode w.runtimeType labels metadata.models
  | none => basicWorker env.unknownModelId handle w.url w.workerType w.connectionMode w.runtimeType
      labels metadata.models none

/-- The loop of `UpdateWorkerPropertiesStep`. -/
def updateWorkerProperties (env : Env P) (request : WorkerUpdateRequest) :
    List Worker → App P → App P × List Worker
  | [], app => (app, [])
  | w :: workers, app =>
      let object := updatedWorker env request w app
      let (app, updated) := updateWorkerProperties env request workers
        (registerWorkers env [object] app)
      (app, object.worker :: updated)

/-- The flag of `create_worker_update_workflow_data`. -/
def updateDpAware (workerUrl : Url) : Bool := decide ('@' ∈ workerUrl)

/-- The update workflow, and the new workers. -/
def updateWorkers (env : Env P) (url : Url) (request : WorkerUpdateRequest) (app : App P) :
    App P × Except WorkflowError (List Worker) :=
  let dpAware := updateDpAware url
  match findWorkersByUrl app.registry.registry url dpAware with
  | [] => (app, .error (.stepFailed "find_worker_to_update".toList (notFoundMessage url dpAware)))
  | w :: workers =>
      let (app, updated) := updateWorkerProperties env request (w :: workers) app
      let affectedModels := (updated.map Worker.modelId).dedup
      let policies := affectedModels.foldl (fun policies modelId =>
        notify policies (.onWorkerAdded modelId none none)) app.policies
      ({ app with policies := policies }, .ok updated)

/-- The loop of `RemoveFromWorkerRegistryStep`. -/
def removeAll (env : Env P) (workers : List Worker) (s : Registry.State) : Registry.State :=
  workers.foldl (fun s w => s.call env.blake3 env.uuid (.removeByUrl w.url)) s

/-- The removal workflow, and the workers it removes. -/
def removeWorkers (env : Env P) (url : Url) (app : App P) :
    App P × Except WorkflowError (List Worker) :=
  match findWorkersByUrl app.registry.registry url env.dpAware with
  | [] => (app, .error (.stepFailed "find_workers_to_remove".toList (notFoundMessage url env.dpAware)))
  | w :: workers =>
      let policies := (w :: workers).foldl (fun policies w =>
        notify policies (.onWorkerRemoved w.modelId)) app.policies
      ({ app with policies := policies, registry := removeAll env (w :: workers) app.registry },
        .ok (w :: workers))

/-! ### Jobs and runs -/

/-- The jobs of `Job` that are about workers. -/
inductive Job where
  | addWorker (config : WorkerConfigRequest)
  | updateWorker (url : Url) (update : WorkerUpdateRequest)
  | removeWorker (url : Url)
  deriving DecidableEq, Repr

/-- `execute_job`. -/
def executeJob (env : Env P) (job : Job) (d : Discovery) (app : App P) :
    App P × Except WorkflowError (List Worker) :=
  match job with
  | .addWorker config => addWorkers env config d app
  | .updateWorker url update => updateWorkers env url update app
  | .removeWorker url => removeWorkers env url app

/-- `WorkerService::create_worker`: the id it returns, and the job it submits. -/
def createWorker (env : Env P) (config : WorkerConfigRequest) (app : App P) :
    App P × WorkerId × Job :=
  let config := { config with dpAware := env.dpAware }
  let workerId :=
    (app.registry.registry.reserveIdForUrl (env.uuid app.registry.drawn) config.url).2
  (app.call env (.reserveIdForUrl config.url), workerId, .addWorker config)

inductive WorkerServiceError where
  | invalidId (raw message : Str)
  | notFound (workerId : Str)
  deriving DecidableEq, Repr

/-- The URL that `update_worker` and `delete_worker` put in their job. -/
def urlOfId (env : Env P) (workerIdRaw : Str) (app : App P) : Except WorkerServiceError Url :=
  match env.parseUuid workerIdRaw with
  | .error e => .error (.invalidId workerIdRaw e)
  | .ok _ =>
      match app.registry.registry.getUrlById workerIdRaw with
      | none => .error (.notFound workerIdRaw)
      | some url => .ok url

/-- The job `WorkerService::update_worker` submits. -/
def updateWorkerJob (env : Env P) (workerIdRaw : Str) (update : WorkerUpdateRequest) (app : App P) :
    Except WorkerServiceError Job :=
  (urlOfId env workerIdRaw app).map fun url => .updateWorker url update

/-- The job `WorkerService::delete_worker` submits. -/
def deleteWorkerJob (env : Env P) (workerIdRaw : Str) (app : App P) :
    Except WorkerServiceError Job :=
  (urlOfId env workerIdRaw app).map fun url => .removeWorker url

/-- What the find step of a job selects. -/
def Job.select (env : Env P) (job : Job) (app : App P) : List Worker :=
  match job with
  | .addWorker _ => []
  | .updateWorker url _ => findWorkersByUrl app.registry.registry url (updateDpAware url)
  | .removeWorker url => findWorkersByUrl app.registry.registry url env.dpAware

/-- An id is reserved, or a job is executed. -/
inductive Action where
  | reserveId (url : Url)
  | execute (job : Job) (d : Discovery)

/-- One action; a job that fails is not one. -/
def step (env : Env P) (app : App P) : Action → Option (App P)
  | .reserveId url => some (app.call env (.reserveIdForUrl url))
  | .execute job d =>
      match executeJob env job d app with
      | (app, .ok _) => some app
      | (_, .error _) => none

/-- The state after some actions. -/
def run (env : Env P) (defaultPolicy : P) (actions : List Action) : Option (App P) :=
  Runs.exec (step env) (App.new defaultPolicy) actions

end

end QwenStack.Workflows
