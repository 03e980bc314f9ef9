import TinyRuntime.Pool.Worker

/-!
# The Bounded Pool of Warm Workers

The source's `LangPool`: admission by a counter, one permit of a semaphore for
each worker slot, a stack of idle workers.

The pool's history is that of any number of `run` calls, each dropped wherever
it waits or left to return, and of the reaper's passes. Dropping a run kills the
worker it holds, gives back its permit, and takes it out of the in-flight count,
in this order.

## Main definitions

* `LangPool`: What a pool is built for.
* `LangPool.run`: One submission.
* `LangPool.start`: The state a pool starts in.
* `LangPool.calls`, `LangPool.system`: Its history.
-/

namespace TinyRuntime

def WEDGED_GRACE : Nat := 10 * SECOND

/-- The most permits a semaphore can be built with. -/
def MAX_PERMITS : Nat := (2 ^ 64 - 1) / 8

/-- A bounded set of warm workers for one language. -/
structure LangPool where
  launch : Launch
  settings : PoolSettings
  runtimeVersion : String
  json : Json

/-- A duration as the milliseconds that go over the bus. -/
def asMillis (duration : Nat) : Nat :=
  min (duration / MILLISECOND) (2 ^ 64 - 1)

/-- The request of a submission, under the number drawn for it. -/
def Submission.request (input : Submission) (number : Nat) : JobRequest :=
  { id := toString (number % 2 ^ 64)
    code := input.code
    cwd := input.cwd
    timeoutMs := input.timeout.map asMillis }

namespace LangPool

/-- Building the semaphore panics above the most it can hold. -/
def start (pool : LangPool) : Option Pool :=
  if pool.settings.effectiveMaxWorkers ≤ MAX_PERMITS then
    some (Pool.new pool.settings.effectiveMaxWorkers)
  else none

/-- The idle time-to-live as a duration. -/
def ttl (pool : LangPool) : Option Nat :=
  pool.settings.ttl.map (· * SECOND)

/-- Assemble the reply from a worker's response and the router's timings. -/
def outcome (pool : LangPool) (response : JobResponse) (elapsed queueWait : Nat) :
    ExecResponse :=
  { stdout := response.stdout
    stderr := response.stderr
    exitCode := response.exitCode
    timedOut := response.timedOut
    elapsedMs := asMillis elapsed
    queueWaitMs := asMillis queueWait
    runtimeVersion := pool.runtimeVersion }

/-- Start a new worker. -/
def spawn (pool : LangPool) : Prog PoolOp (Except Error Worker) := do
  Prog.op .countSpawn
  match ← Worker.spawn pool.json pool.launch with
  | .ok w => pure (.ok w)
  | .error reason => pure (.error (.preDispatch pool.launch.language reason))

/-- Take a still-usable parked worker, or spawn one. -/
def takeOrSpawn (pool : LangPool) : Prog PoolOp (Except Error Worker) := do
  match ← Prog.op (.takeIdle pool.ttl) with
  | some w => pure (.ok w)
  | none => pool.spawn

/-- Recycle a worker that has served its budget, or park it for reuse. -/
def retireOrPark (pool : LangPool) (w : Worker) : Prog PoolOp Unit :=
  if w.shouldRecycle pool.settings.recycleAfterJobs then
    Prog.op (.shutdown w.number)
  else Prog.op (.park w)

/-- Classify a submit failure by whether the job may have run. -/
def dispatchError (pool : LangPool) (failure : SubmitFailure) : Error :=
  if failure.dispatched then .postDispatch pool.launch.language failure.reason
  else .preDispatch pool.launch.language failure.reason

/-- Submit on a warm or fresh worker, without a retry. -/
def dispatch (pool : LangPool) (request : JobRequest) (hardDeadline : Option Nat)
    (lines : Nat) : Prog PoolOp (Except Error (JobResponse × Worker)) := do
  match ← pool.takeOrSpawn with
  | .error error => pure (.error error)
  | .ok w =>
      match ← w.submit pool.json request hardDeadline lines with
      | .ok reply => pure (.ok reply)
      | .error failure => do
          Prog.op (.shutdown w.number)
          pure (.error (pool.dispatchError failure))

/-- Run one admitted job with a permit in hand. -/
def serve (pool : LangPool) (input : Submission) (queueWait : Nat) :
    Prog PoolOp (Except Error ExecResponse) := do
  let request := input.request (← Prog.op .nextJob)
  let hardDeadline := input.timeout.map (· + WEDGED_GRACE)
  let started ← Prog.op .now
  match ← pool.dispatch request hardDeadline input.lines with
  | .error error => pure (.error error)
  | .ok (response, w) => do
      let elapsed := (← Prog.op .now) - started
      Prog.op .countJob
      pool.retireOrPark w
      match response.error with
      | some error => pure (.error (.postDispatch pool.launch.language error))
      | none => pure (.ok (pool.outcome response elapsed queueWait))

/-- Run one job, waiting for a free worker. -/
def run (pool : LangPool) (input : Submission) : Prog PoolOp (Except Error ExecResponse) := do
  if pool.settings.capacity < (← Prog.op .enter) + 1 then do
    Prog.op .leave
    Prog.op .reject
    pure (.error (.poolSaturated pool.launch.language))
  else do
    let queuedAt ← Prog.op .now
    if (← Prog.op .acquire) = false then
      pure (.error (.preDispatch pool.launch.language "the pool was shut down"))
    else do
      let queueWait := (← Prog.op .now) - queuedAt
      pool.serve input queueWait

/-- A pass of the idle reaper. -/
def reaped (pool : LangPool) (s : Pool) (c : PoolChoice) : Option Pool :=
  match pool.ttl, c with
  | some ttl, .checks readings =>
      (reap ttl readings s.idle).map fun kept => { s with idle := kept }
  | _, _ => none

/-- The runs of a pool. -/
def calls (pool : LangPool) :
    Concurrent.Calls PoolOp Pool Run Submission PoolChoice (Except Error ExecResponse) where
  handler := { respond := PoolOp.respond }
  suspends := PoolOp.suspends
  main := pool.run
  fresh := Run.new
  orphans _ _ := []
  ended result l := { l with result := result }
  release := Run.release
  env := pool.reaped

/-- A pool with the runs made so far. -/
abbrev State :=
  Concurrent.Config PoolOp Pool Run (Except Error ExecResponse)

/-- The history of a pool. -/
def system (pool : LangPool) :
    Transition.System State (Concurrent.Step Submission PoolChoice) :=
  pool.calls.system .none fun s => pool.start = some s

end LangPool

end TinyRuntime
