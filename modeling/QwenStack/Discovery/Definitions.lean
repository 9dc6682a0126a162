import QwenStack.Registry.Routing
import QwenStack.Workflows.Definitions

/-!
# Service discovery — Definitions

`gateway/src/service_discovery.rs`: a watcher reports the pods of the cluster, each report a full object.
A pod that is healthy becomes a worker, and stops being one when it is about to be deleted; which pods are
workers is kept as the set of what was reported of them.

The watcher is the list of its reports, and the job queue is what it answers to each of them.  The discovery
of routers for the mesh, the metrics and the logs are left out.
-/

namespace QwenStack.Discovery
open Registry (Url)

/-! ### Pods -/

/-- `ServiceDiscoveryConfig`; a selector is a list of labels. -/
structure ServiceDiscoveryConfig where
  selector : List (Str × Str) := []
  port : UInt16 := 8000
  pdMode : Bool := false
  prefillSelector : List (Str × Str) := []
  decodeSelector : List (Str × Str) := []
  bootstrapPortAnnotation : Str := "sglang.ai/bootstrap-port".toList
  routerSelector : List (Str × Str) := []
  routerMeshPortAnnotation : Str := "sglang.ai/ha-port".toList
  igwMode : Bool := false
  deriving DecidableEq, Repr

structure PodCondition where
  type : Str
  status : Str
  deriving DecidableEq, Repr

structure PodStatus where
  podIp : Option Str
  phase : Option Str
  conditions : Option (List PodCondition)
  deriving DecidableEq, Repr

/-- What is read of a Kubernetes `Pod`. -/
structure Pod where
  name : Option Str
  labels : Option (List (Str × Str))
  annotations : Option (List (Str × Str))
  /-- There is a `deletion_timestamp`. -/
  isDeleted : Bool
  status : Option PodStatus
  deriving DecidableEq, Repr

inductive PodType where
  | prefill
  | decode
  | regular
  deriving DecidableEq, Repr

structure PodInfo where
  name : Str
  ip : Str
  status : Str
  isReady : Bool
  podType : Option PodType
  bootstrapPort : Option UInt16
  isRouter : Bool
  meshPort : Option UInt16
  deriving DecidableEq, Repr

/-- `str::parse::<u16>`. -/
def parseU16 (s : Str) : Option UInt16 := do
  let n ← Registry.parseUsize s
  if n < 2 ^ 16 then some (.ofNat n) else none

def matchesSelector (pod : Pod) (selector : List (Str × Str)) : Bool :=
  if selector = [] then false
  else pod.labels.any fun labels => selector.all fun e => labels.lookup e.1 = some e.2

def shouldInclude (pod : Pod) (config : ServiceDiscoveryConfig) : Bool :=
  if config.pdMode = true then
    if config.prefillSelector = [] ∧ config.decodeSelector = [] ∧
        (config.igwMode = false ∨ config.selector = []) then false
    else
      let matchesPd :=
        matchesSelector pod config.prefillSelector || matchesSelector pod config.decodeSelector
      let matchesRegular :=
        config.igwMode && config.selector ≠ [] && matchesSelector pod config.selector
      matchesPd || matchesRegular
  else if config.selector = [] then false
  else matchesSelector pod config.selector

/-- A port in an annotation. -/
def annotatedPort (pod : Pod) (key : Str) : Option UInt16 := do
  let annotations ← pod.annotations
  let portStr ← annotations.lookup key
  parseU16 portStr

def podTypeOf (pod : Pod) (config : ServiceDiscoveryConfig) : PodType :=
  if config.pdMode = true then
    if matchesSelector pod config.prefillSelector = true then .prefill
    else if matchesSelector pod config.decodeSelector = true then .decode
    else .regular
  else .regular

namespace PodInfo

def fromPod (pod : Pod) (config : Option ServiceDiscoveryConfig) : Option PodInfo := do
  let name ← pod.name
  let status ← pod.status
  let podIp ← status.podIp
  let isReady := status.conditions.any fun conditions =>
    conditions.any fun c => c.type = "Ready".toList && c.status = "True".toList
  let podStatus := status.phase.getD "Unknown".toList
  let podType := config.map (podTypeOf pod)
  let bootstrapPort :=
    if podType = some .prefill then
      config.bind fun config => annotatedPort pod config.bootstrapPortAnnotation
    else none
  let isRouter := config.any fun config =>
    config.routerSelector ≠ [] && matchesSelector pod config.routerSelector
  let meshPort :=
    if isRouter = true then
      config.bind fun config => annotatedPort pod config.routerMeshPortAnnotation
    else none
  return {
    name := name
    ip := podIp
    status := podStatus
    isReady := isReady
    podType := podType
    bootstrapPort := bootstrapPort
    isRouter := isRouter
    meshPort := meshPort }

def isHealthy (p : PodInfo) : Bool := p.isReady && p.status = "Running".toList

def workerUrl (p : PodInfo) (port : UInt16) : Url :=
  "http://".toList ++ p.ip ++ ':' :: Nat.toDigits 10 port.toNat

end PodInfo

/-! ### Jobs -/

structure HealthCheckConfig where
  failureThreshold : UInt32
  successThreshold : UInt32
  timeoutSecs : UInt64
  checkIntervalSecs : UInt64
  disableHealthCheck : Bool
  deriving DecidableEq, Repr

/-- What is read of the `RouterConfig`. -/
structure RouterConfig where
  apiKey : Option Str
  healthCheck : HealthCheckConfig
  dpAware : Bool
  deriving DecidableEq, Repr

/-- A `WorkerConfigRequest` with its health checks. -/
structure WorkerConfigRequest extends Workflows.WorkerConfigRequest where
  healthCheckTimeoutSecs : UInt64
  healthCheckIntervalSecs : UInt64
  healthSuccessThreshold : UInt32
  healthFailureThreshold : UInt32
  disableHealthCheck : Bool
  maxConnectionAttempts : UInt32
  deriving DecidableEq, Repr

inductive Job where
  | addWorker (config : WorkerConfigRequest)
  | removeWorker (url : Url)
  deriving DecidableEq, Repr

/-- What `submit` answers, if the queue is there. -/
inductive Queue where
  | accepts
  | rejects
  | notInitialized
  deriving DecidableEq, Repr

/-- What is fixed while the process runs. -/
structure Env where
  config : ServiceDiscoveryConfig
  routerConfig : RouterConfig
  deriving DecidableEq, Repr

/-- The pods that are tracked, and the jobs that the queue has taken. -/
structure State where
  trackedPods : List PodInfo := []
  jobs : List Job := []
  deriving DecidableEq, Repr

namespace Env

def workerUrl (env : Env) (p : PodInfo) : Url := p.workerUrl env.config.port

def workerType (env : Env) (p : PodInfo) : Option Str :=
  if env.config.pdMode = true then
    match p.podType with
    | some .prefill => some "prefill".toList
    | some .decode => some "decode".toList
    | some .regular | none => none
  else none

def bootstrapPort (env : Env) (p : PodInfo) : Option UInt16 :=
  if env.config.pdMode = true then
    match p.podType with
    | some .prefill => p.bootstrapPort
    | _ => none
  else none

/-- The request for a pod. -/
def workerConfig (env : Env) (p : PodInfo) : WorkerConfigRequest where
  url := env.workerUrl p
  apiKey := env.routerConfig.apiKey
  modelId := none
  workerType := env.workerType p
  bootstrapPort := env.bootstrapPort p
  runtime := none
  labels := []
  priority := none
  cost := none
  dpAware := env.routerConfig.dpAware
  healthCheckTimeoutSecs := env.routerConfig.healthCheck.timeoutSecs
  healthCheckIntervalSecs := env.routerConfig.healthCheck.checkIntervalSecs
  healthSuccessThreshold := env.routerConfig.healthCheck.successThreshold
  healthFailureThreshold := env.routerConfig.healthCheck.failureThreshold
  disableHealthCheck := env.routerConfig.healthCheck.disableHealthCheck
  maxConnectionAttempts := env.routerConfig.healthCheck.successThreshold * 20

end Env

/-! ### Reports -/

def handlePodEvent (env : Env) (queue : Queue) (podInfo : PodInfo) (s : State) : State :=
  if podInfo.isHealthy = true then
    if podInfo ∈ s.trackedPods then s
    else
      let tracker := podInfo :: s.trackedPods
      match queue with
      | .accepts => ⟨tracker, s.jobs ++ [.addWorker (env.workerConfig podInfo)]⟩
      | .rejects => { s with trackedPods := tracker.erase podInfo }
      | .notInitialized => { s with trackedPods := tracker }
  else s

def handlePodDeletion (env : Env) (queue : Queue) (podInfo : PodInfo) (s : State) : State :=
  if podInfo ∈ s.trackedPods then
    let tracked := s.trackedPods.erase podInfo
    match queue with
    | .accepts => ⟨tracked, s.jobs ++ [.removeWorker (env.workerUrl podInfo)]⟩
    | .rejects | .notInitialized => { s with trackedPods := tracked }
  else s

/-- A report of the watcher, and what the queue answers. -/
structure Report where
  pod : Pod
  queue : Queue := .accepts
  deriving DecidableEq, Repr

/-- What `start_service_discovery` does with a report. -/
def handle (env : Env) (s : State) (r : Report) : State :=
  if shouldInclude r.pod env.config = true then
    match PodInfo.fromPod r.pod (some env.config) with
    | some podInfo =>
        if r.pod.isDeleted = true then handlePodDeletion env r.queue podInfo s
        else handlePodEvent env r.queue podInfo s
    | none => s
  else s

/-- The reports of a run. -/
def run (env : Env) (reports : List Report) : State := reports.foldl (handle env) {}

end QwenStack.Discovery
