import TinyRuntime.Bus.Runtime
import Mathlib.Algebra.Order.Ring.Nat

/-!
# Pool and Execution Types

The settings of a worker pool and the reply to one execution, as they cross the
bus. A `usize` is 64 bits wide.

## Main definitions

* `PoolSettings`: The settings, with the clamps the pool reads them through.
* `ExecResponse`: The reply to one execution.
-/

namespace TinyRuntime

/-- How a host wants one language's worker pool sized and recycled. -/
structure PoolSettings where
  enabled : Bool
  maxWorkers : Nat
  idleTtlSecs : Nat
  recycleAfterJobs : Nat
  maxQueueDepth : Nat
deriving DecidableEq, Repr

namespace PoolSettings

/-- The clamped worker count, never zero. -/
def effectiveMaxWorkers (s : PoolSettings) : Nat :=
  max s.maxWorkers 1

def effectiveMaxQueueDepth (s : PoolSettings) : Nat :=
  s.maxQueueDepth

/-- The idle time-to-live, unless warm workers are never reaped. -/
def ttl (s : PoolSettings) : Option Nat :=
  if s.idleTtlSecs = 0 then none else some s.idleTtlSecs

/-- What the pool compares its counter with: a `usize` sum, which wraps. -/
def capacity (s : PoolSettings) : Nat :=
  (s.effectiveMaxWorkers + s.effectiveMaxQueueDepth) % 2 ^ 64

theorem capacity_le (s : PoolSettings) :
    s.capacity ≤ s.effectiveMaxWorkers + s.effectiveMaxQueueDepth :=
  Nat.mod_le _ _

end PoolSettings

/-- What running a job produced. -/
structure ExecResponse where
  stdout : String
  stderr : String
  exitCode : Option Int
  timedOut : Bool
  elapsedMs : Nat
  queueWaitMs : Nat
  runtimeVersion : String
deriving DecidableEq, Repr

end TinyRuntime
