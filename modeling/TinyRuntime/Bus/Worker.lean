import Mathlib.Tactic.Common

/-!
# Persistent Worker Vocabulary

The wire types of the persistent workers: plans, recipes, requests, outcomes
and status, field by field as the contract crate declares them.

`serde_json::Value` is a type parameter `V`. Parameters and results are carried
unchanged onto the wire and back, and the only operation the supervisor applies
to them is `==`, so nothing else about them is fixed here.

Times are natural numbers of milliseconds, and machine integers that are only
compared and counted up are natural numbers.

## Main definitions

* `WorkerCommand`, `WorkerPlan`: What to launch.
* `CacheRecipe`: A declarative provisioning recipe.
* `WorkerRequest`, `WorkerOutcome`: One operation and its terminal outcome.
* `ServerRequest`, `ServerResponse`: One frame in each direction.
* `WorkerPhase`, `WorkerStatus`: What a host sees of a worker.
-/

namespace TinyRuntime

/-- A process-local opaque identity. -/
abbrev WorkerHandle := String

/-- A complete command, supplied by a trusted recipe owner. -/
structure WorkerCommand where
  executable : String
  args : List String
  env : List (String × String)
  timeoutMs : Option Nat
deriving DecidableEq, Repr

/-- A bounded installation and launch description. -/
structure WorkerPlan where
  source : String
  command : WorkerCommand
  preparation : List WorkerCommand
  backends : List String
  startupTimeoutMs : Nat
  requestTimeoutMs : Nat
  idleBackend : Option String
  idleTimeoutMs : Nat
deriving DecidableEq, Repr

/-- One bounded router-owned artifact or readiness marker. -/
structure CacheArtifact where
  path : String
  bytes : List UInt8
deriving DecidableEq, Repr

inductive CacheEntryKind
  | file
  | directory
  | entry
deriving DecidableEq, Repr

/-- One required path under the approved cache scope. -/
structure CacheEntry where
  path : String
  kind : CacheEntryKind
deriving DecidableEq, Repr

inductive CacheAdoptionPolicy
  | strict
  | adoptVerifiedLegacy
deriving DecidableEq, Repr

/-- An opaque provisioning recipe supplied by a trusted owner. -/
structure CacheRecipe where
  scope : String
  artifacts : List CacheArtifact
  steps : List WorkerCommand
  required : List CacheEntry
  marker : CacheArtifact
  adoption : CacheAdoptionPolicy
  timeoutMs : Nat
deriving DecidableEq, Repr

/-- One caller-known operation. -/
structure WorkerRequest (V : Type) where
  handle : WorkerHandle
  operation : Nat
  method : String
  params : V

inductive WorkerOutcomeKind
  | complete
  | response
  | closed
  | busy
  | invalid
  | unknown
  | expired
  | failed
deriving DecidableEq, Repr

/-- The failure a worker reports for a request. -/
structure ServerError where
  code : String
  message : String
deriving DecidableEq, Repr

/-- One request line sent to the worker. -/
structure ServerRequest (V : Type) where
  id : String
  method : String
  params : V

/-- One response line received from the worker. -/
structure ServerResponse (V : Type) where
  id : Option String
  ok : Bool
  result : Option V
  error : Option ServerError

/-- The first line a worker writes. -/
structure ReadyLine where
  ready : Bool
  protocol : Option Nat
  backends : List String
  error : Option String
deriving DecidableEq, Repr

/-- A bounded terminal outcome. -/
structure WorkerOutcome (V : Type) where
  kind : WorkerOutcomeKind
  response : Option (ServerResponse V)
  reason : Option String

inductive WorkerPhase
  | reserved
  | preparing
  | prepared
  | starting
  | running
  | failed
  | closed
deriving DecidableEq, Repr

structure BackendStatus where
  id : String
  enabled : Bool
  ready : Bool
  message : Option String
deriving DecidableEq, Repr

structure ServerStatus where
  enabled : Bool
  running : Bool
  backends : List BackendStatus
  message : Option String
deriving DecidableEq, Repr

structure WorkerStatus where
  phase : WorkerPhase
  server : ServerStatus
deriving DecidableEq, Repr

/-- The protocol revision the bundled worker script speaks. -/
def PROTOCOL_VERSION : Nat := 1

/-- A status for a worker that is not configured or has not started. -/
def ServerStatus.disabled (message : String) : ServerStatus :=
  { enabled := false, running := false, backends := [], message := some message }

/-- An outcome that carries no response. -/
def outcome {V : Type} (kind : WorkerOutcomeKind) (reason : Option String) : WorkerOutcome V :=
  { kind := kind, response := none, reason := reason }

end TinyRuntime
