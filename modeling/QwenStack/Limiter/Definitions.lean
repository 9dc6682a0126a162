import Mathlib.Algebra.Order.Field.Rat
import Mathlib.Algebra.Order.Ring.Rat

/-!
# Concurrency limiter — Definitions

`gateway/src/core/token_bucket.rs`: a bucket of tokens behind a lock, and a `Notify` for those who wait
for tokens.  Tokens and seconds are exact here.

With a refill rate of zero, `acquire` tries, and as long as it is refused it waits for a notification
and tries again.  The notifications are those of `tokio::sync::Notify`: `notify_waiters` wakes the
`Notified` futures that exist, and nothing is kept for later ones.  Threads interleave the operations:
a try, the creation of a `Notified` future, a return of tokens, a notification.

`gateway/src/middleware.rs`: `concurrency_limit_middleware` takes one token for each request, and the
body of its response gives it back.  A request that finds no token goes to a bounded queue and waits
for a permit; one task reads the queue (`QueueProcessor::run`), takes a token for the request it has
read, or leaves that to a task of its own (`Waiter`), and sends the permit through a channel.

A request can be cancelled where it awaits something: the handler, or the permit.  A channel whose
receiver is gone drops what is sent.  The bucket has a refill rate of zero, and the queue processor
lives as long as the requests.  The metrics, and the number of queued embedding requests, which
nothing reads, are left out.
-/

namespace QwenStack.Limiter

/-- `TokenBucketInner`, what the lock protects. -/
structure TokenBucketInner where
  tokens : ℚ≥0
  lastRefill : ℚ≥0 := 0
  deriving DecidableEq

/-- The fixed part of a `TokenBucket`. -/
structure TokenBucket where
  capacity : ℚ≥0
  /-- In tokens per second. -/
  refillRate : ℚ≥0
  deriving DecidableEq

/-- `TokenBucket::new`. -/
def TokenBucket.new (capacity refillRate : Nat) : TokenBucket × TokenBucketInner :=
  (⟨capacity, refillRate⟩, { tokens := capacity })

namespace TokenBucket

/-- The tokens since the last refill.  A clock that runs backwards gives none. -/
def refill (b : TokenBucket) (inner : TokenBucketInner) (now : ℚ≥0) : TokenBucketInner where
  tokens := min (inner.tokens + (now - inner.lastRefill) * b.refillRate) b.capacity
  lastRefill := now

/-- `try_acquire_sync`: whether the tokens were there. -/
def tryAcquire (b : TokenBucket) (inner : TokenBucketInner) (now tokens : ℚ≥0) :
    TokenBucketInner × Bool :=
  let inner := b.refill inner now
  if tokens ≤ inner.tokens then ({ inner with tokens := inner.tokens - tokens }, true)
  else (inner, false)

/-- `return_tokens_sync`, the part under the lock. -/
def returnTokens (b : TokenBucket) (inner : TokenBucketInner) (tokens : ℚ≥0) : TokenBucketInner :=
  { inner with tokens := min (inner.tokens + tokens) b.capacity }

end TokenBucket

/-! ### Threads -/

/-- Where `acquire` is, with a refill rate of zero. -/
inductive AcquireStage where
  /-- At its first try. -/
  | trying
  /-- After a try that was refused, before the next `Notified` future. -/
  | refused
  /-- A `Notified` future exists, and waits. -/
  | parked
  /-- At the try after a notification. -/
  | woken
  | acquired
  /-- The timeout of `acquire_timeout` has dropped it. -/
  | elapsed
  deriving DecidableEq, Repr

/-- The next operation of `acquire`, by itself.  One that is parked has none. -/
def TokenBucket.acquireStep (b : TokenBucket) (inner : TokenBucketInner) (now tokens : ℚ≥0) :
    AcquireStage → Option (TokenBucketInner × AcquireStage)
  | .trying | .woken =>
      let (inner, ok) := b.tryAcquire inner now tokens
      some (inner, if ok = true then .acquired else .refused)
  | .refused => some (inner, .parked)
  | .parked | .acquired | .elapsed => none

/-- `notify_waiters`, for one who may wait. -/
def AcquireStage.notify : AcquireStage → AcquireStage
  | .parked => .woken
  | stage => stage

/-- Where `return_tokens_sync` is. -/
inductive ReturnStage where
  | returning
  | notifying
  | done
  deriving DecidableEq, Repr

inductive Thread where
  | acquirer (tokens : ℚ≥0) (stage : AcquireStage)
  | returner (tokens : ℚ≥0) (stage : ReturnStage)
  deriving DecidableEq

/-- A notification reaches a thread. -/
def Thread.notify : Thread → Thread
  | .acquirer tokens stage => .acquirer tokens stage.notify
  | .returner tokens stage => .returner tokens stage

structure State where
  inner : TokenBucketInner
  threads : List Thread := []
  deriving DecidableEq

/-- One operation. -/
inductive Action where
  /-- A call of `acquire` begins. -/
  | acquire (tokens : ℚ≥0)
  /-- A call of `return_tokens_sync` begins. -/
  | returnTokens (tokens : ℚ≥0)
  /-- A call of `try_acquire`. -/
  | tryAcquire (now tokens : ℚ≥0)
  /-- A thread does its next operation. -/
  | move (thread : Nat) (now : ℚ≥0)
  /-- The timeout of a thread that waits. -/
  | elapse (thread : Nat)
  deriving DecidableEq

/-- One operation, if the thread is at one. -/
def State.step (b : TokenBucket) (s : State) : Action → Option State
  | .acquire tokens => some { s with threads := s.threads ++ [.acquirer tokens .trying] }
  | .returnTokens tokens => some { s with threads := s.threads ++ [.returner tokens .returning] }
  | .tryAcquire now tokens => some { s with inner := (b.tryAcquire s.inner now tokens).1 }
  | .move i now =>
      match s.threads[i]? with
      | some (.acquirer tokens stage) => do
          let (inner, stage) ← b.acquireStep s.inner now tokens stage
          return ⟨inner, s.threads.set i (.acquirer tokens stage)⟩
      | some (.returner tokens .returning) =>
          some ⟨b.returnTokens s.inner tokens, s.threads.set i (.returner tokens .notifying)⟩
      | some (.returner tokens .notifying) =>
          some ⟨s.inner, (s.threads.map Thread.notify).set i (.returner tokens .done)⟩
      | some (.returner _ .done) => none
      | none => none
  | .elapse i =>
      match s.threads[i]? with
      | some (.acquirer tokens .parked) =>
          some { s with threads := s.threads.set i (.acquirer tokens .elapsed) }
      | _ => none

/-! ### The middleware -/

/-- `StatusCode::TOO_MANY_REQUESTS`. -/
def tooManyRequests : Nat := 429

/-- `StatusCode::REQUEST_TIMEOUT`. -/
def requestTimeout : Nat := 408

/-- Where a request is in `concurrency_limit_middleware`. -/
inductive RequestStage where
  /-- Before `try_acquire`. -/
  | arrived
  /-- No token was there. -/
  | refused
  /-- At `permit_rx.await`, with what is in the channel. -/
  | waiting (permit : Option (Except Nat Unit))
  /-- At `next.run`, with a token. -/
  | running
  /-- The response is out, and its `TokenGuardBody` has the token. -/
  | responding
  /-- The body is dropped and the token is back; `notify_waiters` is next. -/
  | returned
  | finished
  | rejected (status : Nat)
  | cancelled
  deriving DecidableEq

/-- `QueuedRequest`: the request at the other end of its channel. -/
structure QueuedRequest where
  queuedAt : ℚ≥0
  request : Nat
  deriving DecidableEq

/-- Where `QueueProcessor::run` is. -/
inductive ProcessorStage where
  | idle
  | received (queued : QueuedRequest)
  /-- The request is in time. -/
  | trying (queued : QueuedRequest)
  /-- A token was there. -/
  | granting (queued : QueuedRequest)
  deriving DecidableEq

/-- The task that waits for a token for a queued request. -/
structure Waiter where
  request : Nat
  stage : AcquireStage
  /-- It has sent the permit, or the error. -/
  sent : Bool := false
  deriving DecidableEq

structure LimiterConfig where
  capacity : Nat
  /-- With a size of zero there is no queue. -/
  queueSize : Nat
  queueTimeout : ℚ≥0
  deriving DecidableEq

structure Middleware where
  inner : TokenBucketInner
  requests : List RequestStage := []
  queue : List QueuedRequest := []
  processor : ProcessorStage := .idle
  waiters : List Waiter := []
  deriving DecidableEq

namespace Middleware

def init (c : LimiterConfig) : Middleware := { inner := (TokenBucket.new c.capacity 0).2 }

/-- `try_acquire(1.0)`. -/
def tryAcquire (c : LimiterConfig) (s : Middleware) (now : ℚ≥0) : TokenBucketInner × Bool :=
  (TokenBucket.new c.capacity 0).1.tryAcquire s.inner now 1

def setRequest (s : Middleware) (i : Nat) (stage : RequestStage) : Middleware :=
  { s with requests := s.requests.set i stage }

/-- `permit_tx.send`. -/
def send (s : Middleware) (i : Nat) (permit : Except Nat Unit) : Middleware :=
  if s.requests[i]? = some (.waiting none) then s.setRequest i (.waiting (some permit)) else s

/-- The next operation of a request. -/
def moveRequest (c : LimiterConfig) (s : Middleware) (i : Nat) (now : ℚ≥0) :
    RequestStage → Option Middleware
  | .arrived =>
      let (inner, ok) := s.tryAcquire c now
      some ({ s with inner := inner }.setRequest i (if ok = true then .running else .refused))
  | .refused =>
      if s.queue.length < c.queueSize then
        let queue := s.queue ++ [{ queuedAt := now, request := i }]
        some ({ s with queue := queue }.setRequest i (.waiting none))
      else some (s.setRequest i (.rejected tooManyRequests))
  | .waiting none => none
  | .waiting (some (.ok ())) => some (s.setRequest i .running)
  | .waiting (some (.error status)) => some (s.setRequest i (.rejected status))
  | .running => some (s.setRequest i .responding)
  | .responding =>
      let inner := (TokenBucket.new c.capacity 0).1.returnTokens s.inner 1
      some ({ s with inner := inner }.setRequest i .returned)
  | .returned =>
      let waiters := s.waiters.map fun w => { w with stage := w.stage.notify }
      some ({ s with waiters := waiters }.setRequest i .finished)
  | .finished | .rejected _ | .cancelled => none

/-- The next operation of the queue processor. -/
def moveProcessor (c : LimiterConfig) (s : Middleware) (now : ℚ≥0) : Option Middleware :=
  match s.processor with
  | .idle =>
      match s.queue with
      | [] => none
      | queued :: queue => some { s with queue := queue, processor := .received queued }
  | .received queued =>
      if c.queueTimeout ≤ now - queued.queuedAt then
        some { s.send queued.request (.error requestTimeout) with processor := .idle }
      else some { s with processor := .trying queued }
  | .trying queued =>
      let (inner, ok) := s.tryAcquire c now
      if ok = true then some { s with inner := inner, processor := .granting queued }
      else some { s with
        inner := inner
        processor := .idle
        waiters := s.waiters ++ [{ request := queued.request, stage := .trying }] }
  | .granting queued => some { s.send queued.request (.ok ()) with processor := .idle }

/-- The next operation of a waiting task. -/
def moveWaiter (c : LimiterConfig) (s : Middleware) (j : Nat) (now : ℚ≥0) (w : Waiter) :
    Option Middleware :=
  if w.sent = true then none
  else
    match w.stage with
    | .acquired =>
        some { s.send w.request (.ok ()) with waiters := s.waiters.set j { w with sent := true } }
    | .elapsed =>
        some { s.send w.request (.error requestTimeout) with
          waiters := s.waiters.set j { w with sent := true } }
    | stage => do
        let (inner, stage) ← (TokenBucket.new c.capacity 0).1.acquireStep s.inner now 1 stage
        return { s with inner := inner, waiters := s.waiters.set j { w with stage := stage } }

/-- One operation. -/
inductive Operation where
  /-- A request comes in; the global rate limit of the mesh may be exceeded. -/
  | arrive (exceeded : Bool)
  /-- A request does its next operation: the handler answers, or the body is dropped. -/
  | request (i : Nat) (now : ℚ≥0)
  /-- The client of a request that awaits something disconnects. -/
  | cancel (i : Nat)
  | processor (now : ℚ≥0)
  | waiter (j : Nat) (now : ℚ≥0)
  /-- The timeout of a waiting task. -/
  | elapse (j : Nat)
  deriving DecidableEq

/-- A request can be cancelled here. -/
def awaiting : RequestStage → Bool
  | .running => true
  | .waiting _ => true
  | _ => false

/-- One operation, if there is one to do. -/
def step (c : LimiterConfig) (s : Middleware) : Operation → Option Middleware
  | .arrive exceeded =>
      some { s with requests :=
        s.requests ++ [if exceeded = true then .rejected tooManyRequests else .arrived] }
  | .request i now => s.requests[i]?.bind (s.moveRequest c i now)
  | .cancel i => s.requests[i]?.bind fun stage =>
      if awaiting stage = true then some (s.setRequest i .cancelled) else none
  | .processor now => s.moveProcessor c now
  | .waiter j now => s.waiters[j]?.bind (s.moveWaiter c j now)
  | .elapse j => s.waiters[j]?.bind fun w =>
      if w.stage = .parked then
        some { s with waiters := s.waiters.set j { w with stage := .elapsed } }
      else none

end Middleware

end QwenStack.Limiter
