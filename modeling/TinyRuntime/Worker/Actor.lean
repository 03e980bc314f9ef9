import TinyRuntime.Worker.Native

/-!
# The Supervisor's Code

The methods of the source's `Actor`, in its order and with its early returns.
`?` is the bind of `ExceptT`. A method with a loop or with more than one phase
is cut into named pieces at the places where the source's control flow joins.

`start` can be dropped by the deadline of the request that called it, and a
request by its deadline or by the stop flag: `timeoutAt` and `unlessStopped`
wrap a program in the corresponding interrupt.

`request` and `dispatch` are the replay protocol. `dispatch` reports whether the
request was attempted, that is, whether a frame may be on the wire; `request`
advances the window and stores the outcome only then.

## Main definitions

* `prepareCache`, `provisionCache`, `prepare`: Preparation.
* `cleanup`: Releasing whatever is owned.
* `start`, `handshake`: Native startup.
* `request`, `dispatch`: One operation.
-/

namespace TinyRuntime

open Prog (act attempt)

variable {V : Type}

def REPLAY_WINDOW : Nat := 8

def BACKOFF : Nat := 300 * 1000

/-- A future raced against a timer. -/
def timeoutAt {α : Type} (deadline : Nat) (p : Prog (Op V) α) : Prog (Op V) (Option α) :=
  p.cut (.expired deadline) suspends

/-- A future raced against the stop flag, which is polled first. -/
def unlessStopped {α : Type} (p : Prog (Op V) (Except String α)) :
    Prog (Op V) (Except String α) := do
  if ← Prog.op .stopped then
    pure (.error "canceled")
  else
    match ← p.cut .stopped suspends with
    | none => pure (.error "canceled")
    | some r => pure r

/-- A preparation that succeeded. -/
def State.complete (s : State V) : Bool :=
  match s.prepared with
  | none => false
  | some result => result.kind = .complete

/-- What `cleanup` publishes before and after releasing. -/
def State.settle (s : State V) : State V :=
  { s with
    status :=
      { phase := if s.complete then .prepared else .failed
        server :=
          { s.status.server with
            running := false
            backends := s.status.server.backends.map (fun b => { b with ready := false }) } } }

/-- What `serve` publishes once preparation has an outcome. -/
def State.publishPrepared (plan : WorkerPlan) (prepared : WorkerOutcome V) (s : State V) :
    State V :=
  if prepared.kind = .complete then
    { s with
      prepared := some prepared
      status :=
        { phase := .prepared
          server :=
            { enabled := true
              running := false
              backends := plan.backends.map (fun id =>
                { id := id, enabled := true, ready := false, message := none })
              message := none } } }
  else
    { s with prepared := some prepared, status := { s.status with phase := .failed } }

/-- What `start` publishes for a worker that is up. -/
def State.publishRunning (plan : WorkerPlan) (ready : List String) (s : State V) : State V :=
  { s with
    status :=
      { phase := .running
        server :=
          { enabled := true
            running := true
            backends := plan.backends.map (fun id =>
              { id := id, enabled := true, ready := ready.contains id, message := none })
            message := none } } }

def State.setPhase (phase : WorkerPhase) (s : State V) : State V :=
  { s with status := { s.status with phase := phase } }

namespace Actor

/-! ## Releasing -/

def cleanupPreparation : ExceptT String (Prog (Op V)) Unit := do
  match (← act .self).preparation with
  | none => pure ()
  | some p => Preparation.cleanup p
  act (.update fun a => { a with preparation := none })

def cleanupCache : ExceptT String (Prog (Op V)) Unit := do
  match (← act .self).cache with
  | none => pure ()
  | some _ => attempt .cleanupCache
  act (.update fun a => { a with cache := none })

def cleanupProcess : ExceptT String (Prog (Op V)) Unit := do
  match (← act .self).process with
  | none => pure ()
  | some p => Process.cleanup p
  act (.update fun a => { a with process := none })

/-- Release the preparation, the cache session and the process, in this
    order; stop at the first failure. -/
def cleanup : ExceptT String (Prog (Op V)) Unit := do
  act (.sendModify State.settle)
  cleanupPreparation
  cleanupCache
  cleanupProcess
  act (.update fun a => { a with readyBackends := [] })
  act (.sendModify State.settle)

/-! ## Preparation -/

/-- `self.cache.as_ref().ok_or("cache_session_missing")?`. -/
def cacheSession : ExceptT String (Prog (Op V)) Session := do
  match (← act .self).cache with
  | none => throw "cache_session_missing"
  | some session => pure session

/-- The checks made before every command and before publication. -/
def checkProvisioning (deadline : Nat) : ExceptT String (Prog (Op V)) Unit := do
  if ← act .stopped then
    throw "canceled"
  else if deadline ≤ (← act .now) then
    throw "cache_timeout"
  else pure ()

/-- One spawned preparation command, run and reaped; its own result is passed
    on only after the cleanup. -/
def runStep (step : WorkerCommand) (deadline : Nat) :
    ExceptT String (Prog (Op V)) (Except String Unit) := do
  match (← act .self).preparation with
  | none => throw "prepare_closed"
  | some p => do
      let stepDeadline ← ExceptT.lift (commandDeadline step deadline)
      let result ← ExceptT.lift (Preparation.execute p stepDeadline).run
      Preparation.cleanup p
      act (.update fun a => { a with preparation := none })
      pure result

/-- The commands of a recipe, each under a re-checked scope binding. -/
def provisionSteps (deadline : Nat) : List WorkerCommand → ExceptT String (Prog (Op V)) Unit
  | [] => pure ()
  | step :: rest => do
      checkProvisioning deadline
      let _ ← cacheSession
      attempt .checkBinding
      Preparation.spawn step
      let result ← runStep step deadline
      ExceptT.mk (pure result)
      provisionSteps deadline rest

def provisionCache (cached : Cached) (deadline : Nat) : ExceptT String (Prog (Op V)) Unit := do
  let session ← cacheSession
  if session.legacy then
    attempt (.adoptLegacy cached.recipe)
  else if session.cached then
    pure ()
  else do
    attempt (.install cached.recipe)
    provisionSteps deadline cached.recipe.steps
    checkProvisioning deadline
    let _ ← cacheSession
    attempt (.publish cached.recipe)

/-- Provision the persistent cache, then give up the session. A failed command
    keeps its preparation and the session owned. -/
def prepareCache : ExceptT String (Prog (Op V)) Unit := do
  match (← act .self).cached with
  | none => pure ()
  | some cached => do
      let deadline := (← act .now) + cached.recipe.timeoutMs
      attempt (.acquire cached deadline)
      let result ← ExceptT.lift (provisionCache cached deadline).run
      cleanupPreparation
      cleanupCache
      ExceptT.mk (pure result)

/-- The transient preparation commands of the plan. -/
def prepareSteps (deadline : Nat) : List WorkerCommand → Prog (Op V) (WorkerOutcome V)
  | [] => do
      if ← Prog.op .stopped then
        pure (outcome .closed (some "canceled"))
      else pure (outcome .complete none)
  | step :: rest => do
      match ← (Preparation.spawn step).run with
      | .error reason => pure (outcome .failed (some reason))
      | .ok () =>
          match (← Prog.op .self).preparation with
          | none => pure (outcome .failed (some "prepare_closed"))
          | some p => do
              let stepDeadline ← commandDeadline step deadline
              let result ← (Preparation.execute p stepDeadline).run
              match ← (Preparation.cleanup p).run with
              | .error _ => pure (outcome .failed (some "cleanup_failed"))
              | .ok () => do
                  Prog.op (.update fun a => { a with preparation := none })
                  match result with
                  | .error reason => pure (outcome .failed (some reason))
                  | .ok () => prepareSteps deadline rest

def prepare : Prog (Op V) (WorkerOutcome V) := do
  match ← prepareCache.run with
  | .error reason => pure (outcome .failed (some reason))
  | .ok () => do
      let plan := (← Prog.op .self).plan
      let deadline := (← Prog.op .now) + plan.startupTimeoutMs
      match ← Prog.op .installScript with
      | .error _ => pure (outcome .failed (some "install_failed"))
      | .ok () => prepareSteps deadline plan.preparation

/-! ## Startup -/

/-- Wait for the ready line, no longer than the startup budget. -/
def handshake (codec : Codec V) : Prog (Op V) (Except String (List String)) := do
  let a ← Prog.op .self
  match a.process with
  | none => pure (.error "worker_closed")
  | some p => unlessStopped do
      let deadline := (← Prog.op .now) + a.plan.startupTimeoutMs
      match ← timeoutAt deadline (Process.handshake codec p).run with
      | none => pure (.error "handshake_timeout")
      | some (.error reason) => pure (.error reason)
      | some (.ok ready) => pure (.ok ready.backends)

/-- Whether the configured idle interval of the idle backend has passed. -/
def idle (a : Actor V) (now : Nat) : Bool :=
  0 < a.plan.idleTimeoutMs
    && (match a.plan.idleBackend with
        | none => false
        | some id => a.plan.backends.contains id)
    && a.plan.idleTimeoutMs ≤ now - a.lastUsed

/-- A start that did not leave a worker running: release it and back off. -/
def startFailed (reason : String) : Prog (Op V) (WorkerOutcome V) := do
  match ← cleanup.run with
  | .error _ => pure (outcome .failed (some "cleanup_failed"))
  | .ok () => do
      let now ← Prog.op .now
      Prog.op (.update fun a => { a with retryAfter := some (now + BACKOFF) })
      Prog.op (.sendModify (State.setPhase .failed))
      pure (outcome .failed (some reason))

def backingOff (a : Actor V) : Prog (Op V) Bool :=
  match a.retryAfter with
  | none => pure false
  | some after => do
      let now ← Prog.op .now
      pure (now < after)

/-- Spawn the plan's command and wait for its ready line. -/
def spawnReady (codec : Codec V) : Prog (Op V) (Except String (List String)) := do
  match ← Prog.op .spawnProcess with
  | .error reason => pure (.error reason)
  | .ok () => handshake codec

/-- A worker that answered the handshake becomes the running one, unless the
    stop flag went up meanwhile. -/
def started (backends : List String) : Prog (Op V) (WorkerOutcome V) := do
  if ← Prog.op .stopped then
    startFailed "canceled"
  else do
    let now ← Prog.op .now
    let a ← Prog.op .self
    Prog.op (.update fun a =>
      { a with readyBackends := backends, lastUsed := now, retryAfter := none })
    Prog.op (.sendModify (State.publishRunning a.plan backends))
    pure (outcome .complete none)

/-- Start a fresh worker, unless backing off. -/
def launch (codec : Codec V) : Prog (Op V) (WorkerOutcome V) := do
  if ← backingOff (← Prog.op .self) then
    pure (outcome .failed (some "startup_backoff"))
  else do
    Prog.op (.sendModify (State.setPhase .starting))
    match ← spawnReady codec with
    | .error reason => startFailed reason
    | .ok backends => started backends

/-- Whether the process is the running worker and has not exited. -/
def usable (p : Nat) : Prog (Op V) Bool := do
  if (← Prog.op .state).status.server.running then
    Prog.op (.isAlive p)
  else pure false

/-- Keep the running worker, or release what is left of it and launch one. -/
def reuse (codec : Codec V) : Prog (Op V) (WorkerOutcome V) := do
  match (← Prog.op .self).process with
  | none => launch codec
  | some p =>
      if ← usable p then
        pure (outcome .complete none)
      else
        match ← cleanup.run with
        | .error _ => pure (outcome .failed (some "cleanup_failed"))
        | .ok () => launch codec

def start (codec : Codec V) : Prog (Op V) (WorkerOutcome V) := do
  if ← Prog.op .stopped then
    pure (outcome .closed none)
  else if (← Prog.op .state).complete = false then
    pure (outcome .failed (some "prepare_failed"))
  else if idle (← Prog.op .self) (← Prog.op .now) then
    match ← cleanup.run with
    | .error _ => pure (outcome .failed (some "cleanup_failed"))
    | .ok () => reuse codec
  else reuse codec

/-! ## Operations -/

/-- The frame of a request: its operation number is the id in decimal. -/
def wire (request : WorkerRequest V) : ServerRequest V :=
  { id := toString request.operation, method := request.method, params := request.params }

/-- One try of a request: on a started worker, put the frame on the wire and
    wait for the reply. The flag is what `attempted` becomes. -/
def exchange (codec : Codec V) (request : WorkerRequest V) (p deadline : Nat) :
    Prog (Op V) (Except String (ServerResponse V) × Bool) := do
  if ← Prog.op .stopped then
    pure (.error "canceled", false)
  else do
    Prog.op (.attempt request)
    match ← (timeoutAt deadline (Process.request codec p (wire request)).run).cut
        .stopped suspends with
    | none => pure (.error "canceled", true)
    | some none => pure (.error "request_timeout", true)
    | some (some r) => pure (r, true)

/-- The reply that ends an operation: a success, or any reply to the last try. -/
def finalReply (attempt : Nat) : Except String (ServerResponse V) → Option (ServerResponse V)
  | .error _ => none
  | .ok response => if response.ok || attempt = 1 then some response else none

/-- Why a try that does not end the operation failed. -/
def failure : Except String (ServerResponse V) → String
  | .error reason => reason
  | .ok _ => "remote_failed"

/-- Release the worker of a failed try. The answer is the outcome that ends the
    operation, or nothing if another try is allowed. -/
def afterFailure (deadline : Nat) (reason : String) :
    Prog (Op V) (Option (WorkerOutcome V)) := do
  match ← cleanup.run with
  | .error _ => pure (some (outcome .failed (some "cleanup_failed")))
  | .ok () =>
      if ← Prog.op .stopped then
        pure (some (outcome .failed (some reason)))
      else if deadline ≤ (← Prog.op .now) then
        pure (some (outcome .failed (some reason)))
      else pure none

/-- Release a worker whose start outlived the deadline of its request. -/
def startTimedOut : Prog (Op V) (WorkerOutcome V) := do
  match ← cleanup.run with
  | .error _ => pure (outcome .failed (some "cleanup_failed"))
  | .ok () => pure (outcome .failed (some "request_timeout"))

/-- A success keeps the worker from being rebuilt as idle. -/
def touch (response : ServerResponse V) : Prog (Op V) Unit :=
  if response.ok then do
    let now ← Prog.op .now
    Prog.op (.update fun a => { a with lastUsed := now })
  else pure ()

/-- The tries of `dispatch` from the given one on. -/
def tries (codec : Codec V) (request : WorkerRequest V) (deadline : Nat) :
    Nat → Bool → String → Prog (Op V) (WorkerOutcome V × Bool)
  | 0, attempted, reason => pure (outcome .failed (some reason), attempted)
  | left + 1, attempted, _ => do
      match ← timeoutAt deadline (start codec) with
      | none => do
          let ended ← startTimedOut
          pure (ended, attempted)
      | some started =>
          if started.kind ≠ .complete then
            pure (started, attempted)
          else
            match (← Prog.op .self).process with
            | none => pure (outcome .failed (some "worker_closed"), attempted)
            | some p => do
                let (result, sent) ← exchange codec request p deadline
                match finalReply (1 - left) result with
                | some response => do
                    touch response
                    pure ({ kind := .response, response := some response, reason := none },
                      attempted || sent)
                | none =>
                    match ← afterFailure deadline (failure result) with
                    | some ended => pure (ended, attempted || sent)
                    | none =>
                        tries codec request deadline left (attempted || sent) (failure result)

/-- Run one operation on the worker, in at most two tries. -/
def dispatch (codec : Codec V) (request : WorkerRequest V) (deadline : Nat) :
    Prog (Op V) (WorkerOutcome V × Bool) := do
  if deadline ≤ (← Prog.op .now) then
    pure (outcome .failed (some "request_timeout"), false)
  else tries codec request deadline 2 false "worker_closed"

/-- Advance the window to an attempted operation and store its outcome. -/
def record (request : WorkerRequest V) (result : WorkerOutcome V) (a : Actor V) : Actor V :=
  let highest := max a.highest request.operation
  { a with
    highest := highest
    replies :=
      (request.operation, request, result) ::
        (a.replies.filter (fun r => decide (highest - REPLAY_WINDOW < r.1))).filter
          (fun r => decide (r.1 ≠ request.operation)) }

/-- Answer an operation: from the stored outcomes if it was attempted, by
    dispatching it otherwise. -/
def request [BEq V] (codec : Codec V) (request : WorkerRequest V) (deadline : Nat) :
    Prog (Op V) (WorkerOutcome V) := do
  if deadline ≤ (← Prog.op .now) then
    pure (outcome .failed (some "request_timeout"))
  else do
    let a ← Prog.op .self
    match a.replies.lookup request.operation with
    | some (previous, result) =>
        if previous.method == request.method && previous.params == request.params then
          pure result
        else pure (outcome .invalid (some "operation_conflict"))
    | none =>
        if request.operation ≤ a.highest - REPLAY_WINDOW then
          pure (outcome .expired none)
        else do
          let (result, attempted) ← dispatch codec request deadline
          if attempted then
            Prog.op (.update (record request result))
          pure result

end Actor

end TinyRuntime
