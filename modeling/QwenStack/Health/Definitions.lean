import Mathlib.Algebra.Group.Nat.Defs
import QwenStack.Support.Utf8

/-!
# Health checks — Definitions

`gateway/src/core/worker.rs`: `check_health_async` probes a worker, over HTTP or gRPC, and marks it
healthy or unhealthy after enough probes in a row.  What the network answers is an argument (`Reply`).
`normalised_url` never fails, so an HTTP probe is its answer; where it is sent, and the metrics and
logs, are left out.  The counters are machine words.
-/

namespace QwenStack.Health

/-- `ConnectionMode`. -/
inductive ConnectionMode where
  | http
  | grpc
  deriving DecidableEq, Repr

/-- What the checks read of `HealthConfig`. -/
structure HealthConfig where
  failureThreshold : UInt32 := 3
  successThreshold : UInt32 := 2
  disableHealthCheck : Bool := false
  deriving DecidableEq, Repr

/-- What the checks read of `WorkerMetadata`. -/
structure WorkerMetadata where
  url : Str
  connectionMode : ConnectionMode
  healthConfig : HealthConfig
  deriving DecidableEq, Repr

/-- The state of the checks of a `BasicWorker`. -/
structure BasicWorker where
  healthy : Bool := true
  consecutiveFailures : Nat := 0
  consecutiveSuccesses : Nat := 0
  /-- The `OnceCell` of the client is set. -/
  grpcClient : Bool := false
  deriving DecidableEq, Repr

/-- `fetch_add(1) + 1` on a `usize`. -/
def increment (n : Nat) : Nat := (n + 1) % 2 ^ 64

inductive WorkerError where
  | healthCheckFailed (url reason : Str)
  | connectionFailed (url reason : Str)
  deriving DecidableEq, Repr

/-! ### What the network answers -/

/-- `req.send()`: the status, or an error, which may be that the time is up. -/
inductive SendResult where
  | response (status : Nat)
  | error
  deriving DecidableEq, Repr

/-- `time::timeout(timeout, grpc_client.health_check())`. -/
inductive HealthResult where
  | response (healthy : Bool)
  | error
  | elapsed
  deriving DecidableEq, Repr

/-- What a probe would be answered; `connect` is used only where there is no client yet. -/
structure Reply where
  send : SendResult := .error
  connect : Except Str Unit := .ok ()
  healthCheck : HealthResult := .error

/-- `StatusCode::is_success`. -/
def isSuccess (status : Nat) : Bool := decide (200 ≤ status ∧ status < 300)

/-! ### The checks -/

/-- `http_health_check`. -/
def httpHealthCheck (r : Reply) : Bool :=
  match r.send with
  | .response status => isSuccess status
  | .error => false

/-- `get_grpc_client`, of a gRPC worker. -/
def BasicWorker.getGrpcClient (w : BasicWorker) (m : WorkerMetadata) (r : Reply) :
    Except WorkerError BasicWorker :=
  if w.grpcClient = true then .ok w
  else
    match r.connect with
    | .ok () => .ok { w with grpcClient := true }
    | .error e =>
        .error (.connectionFailed m.url ("Failed to connect to gRPC server: ".toList ++ e))

/-- `grpc_health_check`. -/
def BasicWorker.grpcHealthCheck (w : BasicWorker) (m : WorkerMetadata) (r : Reply) :
    Except WorkerError (BasicWorker × Bool) := do
  let w ← w.getGrpcClient m r
  return (w, match r.healthCheck with
    | .response healthy => healthy
    | .error => false
    | .elapsed => false)

/-- The part of `check_health_async` after the probe. -/
def BasicWorker.recordHealth (w : BasicWorker) (m : WorkerMetadata) (healthResult : Bool) :
    BasicWorker × Except WorkerError Unit :=
  if healthResult = true then
    let successes := increment w.consecutiveSuccesses
    let w := { w with consecutiveFailures := 0, consecutiveSuccesses := successes }
    (if w.healthy = false ∧ m.healthConfig.successThreshold.toNat ≤ successes then
        { w with healthy := true, consecutiveSuccesses := 0 }
      else w, .ok ())
  else
    let failures := increment w.consecutiveFailures
    let w := { w with consecutiveSuccesses := 0, consecutiveFailures := failures }
    (if w.healthy = true ∧ m.healthConfig.failureThreshold.toNat ≤ failures then
        { w with healthy := false, consecutiveFailures := 0 }
      else w,
      .error (.healthCheckFailed m.url
        ("Health check failed (consecutive failures: ".toList ++ Nat.toDigits 10 failures ++ [')'])))

/-- `check_health_async`. -/
def BasicWorker.checkHealthAsync (m : WorkerMetadata) (w : BasicWorker) (r : Reply) :
    BasicWorker × Except WorkerError Unit :=
  if m.healthConfig.disableHealthCheck = true then ({ w with healthy := true }, .ok ())
  else
    match m.connectionMode with
    | .http => w.recordHealth m (httpHealthCheck r)
    | .grpc =>
        match w.grpcHealthCheck m r with
        | .ok (w, healthResult) => w.recordHealth m healthResult
        | .error e => (w, .error e)

end QwenStack.Health
