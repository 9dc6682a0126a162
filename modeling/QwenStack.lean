import QwenStack.Evictor.Writes
import QwenStack.Reasoning.Conserve
import QwenStack.Reasoning.Mentions
import QwenStack.PolicyRegistry.Lifetime
import QwenStack.Breaker.Automaton
import QwenStack.Breaker.Interleaving
import QwenStack.BucketPolicy.Accounting
import QwenStack.Health.Hysteresis
import QwenStack.Limiter.Wakeups
import QwenStack.Limiter.Permits
import QwenStack.Limiter.Grants
import QwenStack.PdRouter.Attribution
import QwenStack.PdRouter.Sessions
import QwenStack.TreeCore.Service
import QwenStack.Jobs.Visibility
import QwenStack.Jobs.Order
import QwenStack.Workflows.Counts
import QwenStack.Workflows.Identity
import QwenStack.Workflows.Buckets
import QwenStack.PowerOfTwo.Fairness
import QwenStack.Discovery.Tracking
import QwenStack.Sse.Framing
import QwenStack.Responses.Numbering
import QwenStack.Responses.Outcomes
import QwenStack.Grpc.SameWork
import QwenStack.Grpc.Consistency
import QwenStack.Grpc.Isolation
import QwenStack.Release.Marks
import QwenStack.Tree.Evicted
import QwenStack.Items.Survival
import QwenStack.Manual.Snapshots
import QwenStack.BucketPolicy.Registration
import QwenStack.BucketPolicy.Selection
import QwenStack.CacheAware.Affinity
import QwenStack.PrefixHash.Balance
import QwenStack.PdRouter.Tracked
import QwenStack.PdRouter.ClientErrors
import QwenStack.PdRouter.Relay
import QwenStack.Headers.Forwarding
import QwenStack.Middleware.Paths
import QwenStack.Middleware.Connections
import QwenStack.Update.Frame
import QwenStack.Chat.Agreement
import QwenStack.Responses.Offered
import QwenStack.Responses.Rewriting
import QwenStack.Harmony.Kept
import QwenStack.Grpc.Recent
import QwenStack.Grpc.CallIds
import QwenStack.Generate.Chunking
import QwenStack.Harmony.Resume
