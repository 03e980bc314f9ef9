import TinyRuntime.Pool.Protocol
import TinyRuntime.PyServer.State

/-!
# Python Servers

The methods of the source's `PythonServer` and of `ServerSlot` as programs over
their effects.

`spawnInner` is cut in two: `greet` is its body from the spawned child on, where
every `?` leaves with the child still to be dropped.

A method that returns drops its guard, on every path. `locked` is that shape: the
lock, the body, the unlock. The `write_all` of a request is a loop of partial
writes, so that a request can be dropped between any two of them.

## Main definitions

* `ServerCodec`: The JSON codec.
* `spawnInner`, `start`, `requestOnce`, `request`, `reset`, `status`: One server.
* `ensure`, `slotStatus`: The slot.
* `Call`, `Reply`, `calls`: Any number of calls.
-/

namespace TinyRuntime.PyServer

open Prog (act attempt)

variable {V T : Type}

def SECOND : Nat := 10 ^ 9

/-- How long a failed startup is remembered before it is retried. -/
def START_FAILURE_BACKOFF : Nat := 300 * SECOND

/-- When a running worker should be torn down for being idle. -/
structure IdleRule where
  backend : String
  timeout : Nat
deriving DecidableEq

/-- The part of `serde_json` this crate uses. -/
structure ServerCodec (V : Type) where
  encode : ServerRequest V → Except String (List UInt8)
  decodeResponse : String → Option (ServerResponse V)
  decodeReady : String → Except String ReadyLine
  null : V

/-- A body under the lock of a server. -/
def locked {α : Type} (server : Nat) (body : Prog ServerOp α) : Prog ServerOp α := do
  Prog.op (.lockInner server)
  let result ← body
  Prog.op .unlockInner
  pure result

/-! ## Starting -/

/-- `confine`. -/
def confine (spawner : Option Spawner) (spec : SpawnSpec) : Except String SpawnSpec :=
  match spawner with
  | some spawner => spawner.confine spec
  | none => .ok spec

def spawnChild (launch : ServerLaunch) : ExceptT Error (Prog ServerOp) Nat :=
  let spec : SpawnSpec :=
    { program := launch.pythonBin, args := ["-u", launch.scriptPath], env := launch.env
      clearEnv := false }
  match confine launch.spawner spec with
  | .error reason => throw (.spawnRefused reason)
  | .ok spec => ExceptT.mk do
      match ← Prog.op (.spawn spec) with
      | .ok child => pure (.ok child)
      | .error source => pure (.error (.spawn launch.pythonBin launch.scriptPath source))

/-- `ok_or`, where only the presence of a value matters. -/
def okOr (present : Bool) (error : Error) : ExceptT Error (Prog ServerOp) Unit :=
  if present then pure () else throw error

/-- The pipes of a fresh child and its ready line. -/
def greet (codec : ServerCodec V) (launch : ServerLaunch) :
    ExceptT Error (Prog ServerOp) ReadyLine := do
  okOr (← act .takeStdin) .stdinMissing
  okOr (← act .takeStdout) .stdoutMissing
  match ← act (.readyLine launch.handshakeTimeout) with
  | some (.ok none) => throw .exitedBeforeReady
  | some (.error error) => throw (.handshakeRead error)
  | none => throw .handshakeTimeout
  | some (.ok (some line)) =>
      match codec.decodeReady line with
      | .error source => throw (.readyParse line source)
      | .ok ready =>
          if ready.ready = false then throw (.startFailed (ready.error.getD "unknown"))
          else if ready.protocol ≠ some PROTOCOL_VERSION then
            throw (.protocolMismatch PROTOCOL_VERSION ready.protocol)
          else pure ready

def spawnInner (codec : ServerCodec V) (launch : ServerLaunch) :
    ExceptT Error (Prog ServerOp) Inner := do
  let child ← spawnChild launch
  ExceptT.mk do
    match ← (greet codec launch).run with
    | .ok ready =>
        pure (.ok { child := child, nextId := 0, readyBackends := ready.backends })
    | .error error => do
        Prog.op .dropChild
        pure (.error error)

/-- The worker of a locked server, spawned if there is none. -/
def fill (codec : ServerCodec V) (server : Nat) : ExceptT Error (Prog ServerOp) Unit := do
  match ← act .inner with
  | some _ => pure ()
  | none => do
      let launch ← act (.launch server)
      let inner ← spawnInner codec launch
      act (.setInner inner)

/-- `start`. -/
def start (codec : ServerCodec V) (server : Nat) : Prog ServerOp (Except Error Unit) :=
  locked server (fill codec server).run

/-! ## Requests -/

/-- `write_all`. -/
def writeAll : Nat → List UInt8 → ExceptT String (Prog ServerOp) Unit
  | 0, _ => pure ()
  | fuel + 1, buffer =>
      if buffer = [] then pure ()
      else do
        let n ← attempt (.write buffer)
        if n = 0 then throw "failed to write whole buffer"
        else writeAll fuel (buffer.drop n)

/-- Read lines until the one answering `id` arrives. -/
def awaitResponse (codec : ServerCodec V) (id method : String) (decode : V → Except String T)
    (budget : Nat) : Nat → Prog ServerOp (Except Error T)
  | 0 => do
      let never ← Prog.op .pending
      nomatch never
  | fuel + 1 => do
      match ← Prog.op (.nextLine budget) with
      | some (.ok none) => pure (.error .closed)
      | some (.error error) => pure (.error (.read error))
      | none => pure (.error .requestTimeout)
      | some (.ok (some line)) =>
          match codec.decodeResponse line with
          | none => awaitResponse codec id method decode budget fuel
          | some response =>
              if response.id ≠ some id then awaitResponse codec id method decode budget fuel
              else if response.ok = false then
                let message :=
                  match response.error with
                  | none => "unknown python server error"
                  | some error => error.code ++ ": " ++ error.message
                pure (.error (.remote method message))
              else
                match decode (response.result.getD codec.null) with
                | .ok value => pure (.ok value)
                | .error source => pure (.error (.decode method source))

/-- One frame to the worker of a locked server, and its reply. -/
def exchange (codec : ServerCodec V) (server : Nat) (method : String) (params : V)
    (decode : V → Except String T) (lines : Nat) : Prog ServerOp (Except Error T) := do
  let id := toString (← Prog.op .nextId)
  match codec.encode { id := id, method := method, params := params } with
  | .error source => pure (.error (.encode source))
  | .ok text => do
      let line := text ++ [NEWLINE]
      match ← (writeAll line.length line).run with
      | .error source => pure (.error (.write source))
      | .ok () =>
          match ← Prog.op .flush with
          | .error source => pure (.error (.flush source))
          | .ok () => do
              let launch ← Prog.op (.launch server)
              awaitResponse codec id method decode launch.requestTimeout lines

/-- `request_once`. -/
def requestOnce (codec : ServerCodec V) (server : Nat) (method : String) (params : V)
    (decode : V → Except String T) (lines : Nat) : Prog ServerOp (Except Error T) :=
  locked server do
    match ← (fill codec server).run with
    | .error error => pure (.error error)
    | .ok () =>
        match ← Prog.op .inner with
        | none => pure (.error .closed)
        | some _ => exchange codec server method params decode lines

/-- `reset`. -/
def reset (server : Nat) : Prog ServerOp Unit :=
  locked server do
    match ← Prog.op .take with
    | none => pure ()
    | some _ => Prog.op .startKill

def markUsed (server : Nat) : Prog ServerOp Unit := do
  let now ← Prog.op .now
  Prog.op (.markUsed server now)

/-- `request`. -/
def request (codec : ServerCodec V) (server : Nat) (method : String) (params : V)
    (decode : V → Except String T) (lines : Nat) : Prog ServerOp (Except Error T) := do
  match ← requestOnce codec server method params decode lines with
  | .ok value => do
      markUsed server
      pure (.ok value)
  | .error _ => do
      reset server
      match ← requestOnce codec server method params decode lines with
      | .error error => pure (.error error)
      | .ok value => do
          markUsed server
          pure (.ok value)

/-- Whether no request has succeeded for at least `timeout`. -/
def idleExpired (server timeout : Nat) : Prog ServerOp Bool := do
  let used ← Prog.op (.lastUsed server)
  let now ← Prog.op .now
  pure (timeout ≤ now - used)

/-- What a server's status says of it. -/
def serverStatus (launch : ServerLaunch) (inner : Option Inner) : ServerStatus :=
  let ready :=
    match inner with
    | some inner => inner.readyBackends
    | none => []
  { enabled := true
    running := inner.isSome
    backends := launch.backends.map fun id =>
      { id := id, enabled := true, ready := ready.contains id, message := none }
    message := none }

/-- `PythonServer::status`. -/
def status (server : Nat) : Prog ServerOp ServerStatus :=
  locked server do
    let inner ← Prog.op .inner
    let launch ← Prog.op (.launch server)
    pure (serverStatus launch inner)

/-! ## The slot -/

/-- `failed`. -/
def failed (message : String) : Prog ServerOp Cache := do
  let now ← Prog.op .now
  pure (.failed message (now + START_FAILURE_BACKOFF))

/-- `build`. -/
def build (codec : ServerCodec V) : ExceptT Error (Prog ServerOp) Nat := do
  let launch ← attempt .prepare
  let now ← act .now
  let server ← act (.newServer launch now)
  ExceptT.mk (start codec server)
  pure server

/-- Whether the cached server has to be rebuilt. -/
def stale (server : Nat) (requested : List String) (idle : Option IdleRule) :
    Prog ServerOp Bool := do
  let launch ← Prog.op (.launch server)
  if launch.backends ≠ requested then pure true
  else
    match idle with
    | none => pure false
    | some rule =>
        if launch.backends.contains rule.backend then idleExpired server rule.timeout
        else pure false

/-- The slot's failed state, with the error of the call that set it. -/
def giveUp (message : String) : Prog ServerOp (Except Error Nat) := do
  let value ← failed message
  Prog.op (.setCache value)
  pure (.error (.unavailable message))

/-- The end of `ensure`, where a new server is built. -/
def rebuild (codec : ServerCodec V) : Prog ServerOp (Except Error Nat) := do
  match ← (build codec).run with
  | .ok server => do
      Prog.op (.setCache (.ready server))
      pure (.ok server)
  | .error error => giveUp error.display

/-- `ensure` under the slot's lock, after a stale server was discarded. -/
def serve (codec : ServerCodec V) : Prog ServerOp (Except Error Nat) := do
  match ← Prog.op .cache with
  | .ready existing =>
      match ← start codec existing with
      | .error error => giveUp error.display
      | .ok () => pure (.ok existing)
  | .failed message retryAfter =>
      if (← Prog.op .now) < retryAfter then pure (.error (.backingOff message))
      else rebuild codec
  | .empty => rebuild codec

/-- A stale server is discarded. -/
def discardStale (requested : List String) (idle : Option IdleRule) : Prog ServerOp Unit := do
  match (← Prog.op .cache).server with
  | none => pure ()
  | some existing =>
      if ← stale existing requested idle then do
        reset existing
        Prog.op (.setCache .empty)
      else pure ()

/-- `ensure`. -/
def ensure (codec : ServerCodec V) (requested : List String) (idle : Option IdleRule) :
    Prog ServerOp (Except Error Nat) := do
  Prog.op .lockSlot
  discardStale requested idle
  let result ← serve codec
  Prog.op .unlockSlot
  pure result

/-- `ServerSlot::status`. -/
def slotStatus : Prog ServerOp ServerStatus := do
  Prog.op .lockSlot
  let cached ← Prog.op .cache
  Prog.op .unlockSlot
  match cached with
  | .ready server => status server
  | .failed message _ =>
      pure { enabled := true, running := false, backends := []
             message := some ("runtime python server unavailable: " ++ message) }
  | .empty => pure (.disabled "runtime python server has not started")

/-! ## Calls -/

/-- One call. `lines` bounds the lines each reply loop of a request reads before
    it waits forever; any history has such a bound. -/
inductive Call (V T : Type)
  | ensure (requested : List String) (idle : Option IdleRule)
  | slotStatus
  | start (server : Nat)
  | request (server : Nat) (method : String) (params : V) (decode : V → Except String T)
      (lines : Nat)
  | reset (server : Nat)
  | status (server : Nat)

/-- What a call returns. -/
inductive Reply (T : Type)
  | ensured (r : Except Error Nat)
  | status (status : ServerStatus)
  | started (r : Except Error Unit)
  | answered (r : Except Error T)
  | wasReset

/-- The server a reply hands out. -/
def Reply.server : Reply T → Option Nat
  | .ensured (.ok i) => some i
  | _ => none

namespace Call

def main (codec : ServerCodec V) : Call V T → Prog ServerOp (Reply T)
  | .ensure requested idle => do pure (.ensured (← PyServer.ensure codec requested idle))
  | .slotStatus => do pure (.status (← PyServer.slotStatus))
  | .start server => do pure (.started (← PyServer.start codec server))
  | .request server method params decode lines => do
      pure (.answered (← PyServer.request codec server method params decode lines))
  | .reset server => do
      PyServer.reset server
      pure .wasReset
  | .status server => do pure (.status (← PyServer.status server))

/-- The locals of a call at its start. -/
def fresh : Call V T → Caller
  | .ensure _ _ => Caller.new .ensure none
  | .slotStatus => Caller.new .other none
  | .start server => Caller.new .start (some server)
  | .request server _ _ _ _ => Caller.new .request (some server)
  | .reset server => Caller.new .other (some server)
  | .status server => Caller.new .other (some server)

/-- The server a call is made on. -/
def server (call : Call V T) : Option Nat :=
  call.fresh.target

end Call

/-- Any number of calls. -/
def calls (codec : ServerCodec V) :
    Concurrent.Calls ServerOp Slot Caller (Call V T) ServerChoice (Reply T) where
  handler := ⟨fun op w c => op.respond w c⟩
  suspends := ServerOp.suspends
  main := Call.main codec
  fresh := Call.fresh
  orphans _ _ := []
  ended r l := { l with finished := true, handed := r.bind Reply.server }
  release := Caller.release
  env := Slot.env

end TinyRuntime.PyServer
