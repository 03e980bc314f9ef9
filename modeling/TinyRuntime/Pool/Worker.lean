import TinyRuntime.Pool.State

/-!
# One Warm Interpreter Child

The methods of the source's `Worker` as programs over the pool's effects.

`spawn` is cut in two: `connect` is its body up to the verified handshake, where
every `?` leaves with the child still to be dropped, and `spawn` drops it or
makes it the worker.

`submit` tags each failure with whether the job may have reached the worker. The
`write_all` in it is a loop of partial writes, so what a failed or dropped one
has delivered is a result and not an assumption.

## Main definitions

* `SubmitFailure`: A failure with its tag.
* `Worker.connect`, `Worker.spawn`: Starting a worker.
* `Worker.writeAll`, `Worker.awaitResponse`, `Worker.submit`: One job.
-/

namespace TinyRuntime

open Prog (act attempt)

def SECOND : Nat := 10 ^ 9

def MILLISECOND : Nat := 10 ^ 6

/-- A failure of `submit`, tagged with whether the job reached the worker. -/
structure SubmitFailure where
  reason : String
  dispatched : Bool
deriving DecidableEq, Repr

def SubmitFailure.pre (reason : String) : SubmitFailure :=
  { reason := reason, dispatched := false }

def SubmitFailure.post (reason : String) : SubmitFailure :=
  { reason := reason, dispatched := true }

/-- Run `spec` through the host's spawner, or unchanged when it has none. -/
def confine (spawner : Option Spawner) (spec : SpawnSpec) : Except String SpawnSpec :=
  match spawner with
  | some spawner =>
      match spawner.confine spec with
      | .ok confined => .ok confined
      | .error reason => .error ("the spawner refused to start the process: " ++ reason)
  | none => .ok spec

/-- Refuse a handshake that is not ready, not authentic, or not this protocol. -/
def verifyHandshake (handshake : Handshake) (launch : Launch) (token : String) :
    Except String Unit :=
  if handshake.ready = false then
    .error ("the worker failed to start: " ++ handshake.error.getD "no reason given")
  else if handshake.token ≠ some token then
    .error "the worker did not present the secret it was given"
  else
    match handshake.protocol with
    | some version =>
        if version = launch.protocolVersion then .ok ()
        else .error ("the worker speaks protocol " ++ toString version ++ ", not "
          ++ toString launch.protocolVersion)
    | none => .error "the worker did not say which protocol it speaks"

namespace Worker

/-- What the first line of a child says. -/
def readHandshake (json : Json) : LineRead → Except String Handshake
  | some (.ok (some line)) =>
      match json.decodeHandshake line with
      | .ok handshake => .ok handshake
      | .error error => .error ("the worker's handshake could not be read: " ++ error)
  | some (.ok none) => .error "the worker exited before its handshake"
  | some (.error error) => .error ("the worker's handshake could not be read: " ++ error)
  | none => .error "the worker's handshake timed out"

/-- A fallible effect with its error put after a text, as `map_err` does. -/
def attemptAs {α : Type} (text : String) (e : PoolOp (Except String α)) :
    ExceptT String (Prog PoolOp) α :=
  ExceptT.mk do
    match ← Prog.op e with
    | .ok a => pure (.ok a)
    | .error error => pure (.error (text ++ error))

/-- The process the launch describes, told where to connect back. -/
def spec (launch : Launch) (address token : String) : SpawnSpec :=
  { program := launch.binary
    args := launch.args
    env := launch.env ++
      [("TINYRUNTIME_PROTOCOL_ADDR", address), ("TINYRUNTIME_PROTOCOL_TOKEN", token)]
    clearEnv := true }

/-- Wait for a child to connect back and check what it says. -/
def handshake (json : Json) (launch : Launch) (token : String) :
    ExceptT String (Prog PoolOp) Unit := do
  match ← act (.accept launch.handshakeTimeout) with
  | none => throw "the worker did not connect back in time"
  | some (.error error) => throw ("the worker connection was refused: " ++ error)
  | some (.ok ()) => do
      let line ← act (.readHandshake launch.handshakeTimeout)
      let handshake ← ExceptT.mk (pure (readHandshake json line))
      ExceptT.mk (pure (verifyHandshake handshake launch token))

/-- Launch a child and complete its handshake. -/
def connect (json : Json) (launch : Launch) : ExceptT String (Prog PoolOp) Nat := do
  attemptAs "the protocol listener could not be opened: " .bind
  let address ← attemptAs "the worker protocol address could not be read: " .localAddr
  let token ← act .newToken
  match confine launch.spawner (spec launch address token) with
  | .error error => throw ("the worker could not be started: " ++ error)
  | .ok spec => do
      let child ← attemptAs "the worker could not be started: " (.launch spec)
      handshake json launch token
      pure child

/-- Spawn a worker and complete its handshake. -/
def spawn (json : Json) (launch : Launch) : Prog PoolOp (Except String Worker) := do
  match ← (connect json launch).run with
  | .error reason => do
      Prog.op .dropChild
      pure (.error reason)
  | .ok child => do
      let now ← Prog.op .now
      Prog.op (.ready child)
      pure (.ok { number := child, jobsDone := 0, lastUsed := now })

/-- Write a buffer until all of it is accepted. -/
def writeAll (worker : Nat) : Nat → List UInt8 → ExceptT String (Prog PoolOp) Unit
  | 0, _ => pure ()
  | fuel + 1, buffer =>
      if buffer = [] then pure ()
      else do
        let n ← attempt (.write worker buffer)
        if n = 0 then throw "write zero"
        else writeAll worker fuel (buffer.drop n)

/-- Read lines until the one answering `id` arrives. -/
def awaitResponse (json : Json) (w : Worker) (id : String) (deadline : Option Nat) :
    Nat → Prog PoolOp (Except SubmitFailure (JobResponse × Worker))
  | 0 => do
      let never ← Prog.op .pending
      nomatch never
  | fuel + 1 => do
      match ← Prog.op (.nextLine w.number deadline) with
      | none => pure (.error (.post "the worker stopped answering and was discarded"))
      | some (.ok none) => pure (.error (.post "the worker closed its protocol stream"))
      | some (.error error) =>
          pure (.error (.post ("the worker's reply could not be read: " ++ error)))
      | some (.ok (some line)) =>
          match json.decodeResponse line with
          | none => awaitResponse json w id deadline fuel
          | some response =>
              if response.id = some id then do
                let now ← Prog.op .now
                pure (.ok (response, { w with jobsDone := w.jobsDone + 1, lastUsed := now }))
              else awaitResponse json w id deadline fuel

/-- The point in time a budget ends at, counted from now. -/
def deadlineAfter (budget : Option Nat) : Prog PoolOp (Option Nat) :=
  match budget with
  | none => pure none
  | some budget => do
      let now ← Prog.op .now
      pure (some (now + budget))

/-- Send one job and wait for its reply. -/
def submit (json : Json) (w : Worker) (request : JobRequest) (hardDeadline : Option Nat)
    (lines : Nat) : Prog PoolOp (Except SubmitFailure (JobResponse × Worker)) :=
  match json.encode request with
  | .error error => pure (.error (.pre ("the job could not be encoded: " ++ error)))
  | .ok text => do
      let line := text ++ [NEWLINE]
      match ← (writeAll w.number line.length line).run with
      | .error error => pure (.error (.pre ("the job could not be sent: " ++ error)))
      | .ok () =>
          -- From here on the job may execute.
          match ← Prog.op (.flush w.number) with
          | .error error => pure (.error (.post ("the job could not be flushed: " ++ error)))
          | .ok () => do
              let deadline ← deadlineAfter hardDeadline
              awaitResponse json w request.id deadline lines

end Worker

end TinyRuntime
