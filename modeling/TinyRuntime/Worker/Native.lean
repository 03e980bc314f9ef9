import TinyRuntime.Worker.State

/-!
# Native Worker Processes

The part of the native layer that speaks the JSONL protocol: the handshake, one
request with its bounded search for the matching reply, and the cleanup of a
process and of a preparation command.

The JSON codec is third-party code and enters as a structure of functions. A
frame arrives without its newline, so its size on the wire is one more than the
length of its body, and every frame costs the reply budget at least one byte.
That is what bounds the search: the fuel of `awaitReply` is the budget itself.

## Main definitions

* `Codec`: The JSON codec the protocol uses.
* `Process.request`: One request and its reply.
* `Process.handshake`: The ready line of a fresh worker.
* `Process.cleanup`, `Preparation.cleanup`: Reaping.
* `commandDeadline`: The deadline of one preparation command.
-/

namespace TinyRuntime

open Prog (act attempt)

variable {V : Type}

def MAX_LINE : Nat := 256 * 1024

def MAX_OPERATION_BYTES : Nat := 1024 * 1024

/-- The part of `serde_json` the worker protocol uses. -/
structure Codec (V : Type) where
  encode : ServerRequest V → Except Unit (List UInt8)
  decodeResponse : List UInt8 → Option (ServerResponse V)
  decodeReady : List UInt8 → Option ReadyLine

/-- A fallible effect with its error replaced, as `map_err` does. -/
def attemptAs {α : Type} (reason : String) (e : Op V (Except String α)) :
    ExceptT String (Prog (Op V)) α :=
  ExceptT.mk do
    match ← Prog.op e with
    | .ok a => pure (.ok a)
    | .error _ => pure (.error reason)

section Rules

variable {α : Type} {A : ∀ β, Op V β → World V → Prop} {w : World V}

theorem wp_act {e : Op V α} {Q : Except String α → World V → Prop} :
    (act e).run.wp native A Q w ↔ A _ e w ∧ ∀ b t, Answers e w b t → Q (.ok b) t := by
  rw [Prog.wp_act, wp_native]

theorem wp_attempt {e : Op V (Except String α)} {Q : Except String α → World V → Prop} :
    (attempt e).run.wp native A Q w ↔ A _ e w ∧ ∀ r t, Answers e w r t → Q r t := by
  rw [Prog.wp_attempt, wp_native]

theorem wp_attemptAs {reason : String} {e : Op V (Except String α)}
    {Q : Except String α → World V → Prop} :
    (attemptAs reason e).run.wp native A Q w ↔
      A _ e w ∧ ∀ r t, Answers e w r t →
        (match r with
          | .ok a => Q (.ok a) t
          | .error _ => Q (.error reason) t) := by
  rw [attemptAs, Prog.wp_run_mk, Prog.wp_bind, wp_native]
  refine and_congr_right fun _ => forall₃_congr fun r t _ => ?_
  cases r <;> exact Iff.rfl

end Rules

/-- Bound a command to its own optional deadline and the enclosing one. -/
def commandDeadline (plan : WorkerCommand) (enclosing : Nat) : Prog (Op V) Nat :=
  match plan.timeoutMs with
  | none => pure enclosing
  | some timeout => do
      let now ← Prog.op .now
      pure (min enclosing (now + timeout))

namespace Process

/-- Read frames until one answers `id`, within a budget of bytes. -/
def awaitReply (codec : Codec V) (p : Nat) (id : String) :
    Nat → Nat → ExceptT String (Prog (Op V)) (ServerResponse V)
  | 0, _ => throw "output_limit"
  | fuel + 1, remaining => do
      let body ← attempt (.line p)
      if remaining < body.length + 1 then
        throw "output_limit"
      else
        match codec.decodeResponse body with
        | none => awaitReply codec p id fuel (remaining - (body.length + 1))
        | some response =>
            if response.id = some id then pure response
            else awaitReply codec p id fuel (remaining - (body.length + 1))

/-- Put one request on the wire and wait for its reply. -/
def request (codec : Codec V) (p : Nat) (request : ServerRequest V) :
    ExceptT String (Prog (Op V)) (ServerResponse V) :=
  match codec.encode request with
  | .error _ => throw "encode_failed"
  | .ok bytes =>
      if MAX_LINE ≤ bytes.length then
        throw "request_limit"
      else do
        act (.beginWrite p request)
        attemptAs "write_failed" (.finishWrite p)
        attemptAs "write_failed" (.flush p)
        awaitReply codec p request.id (MAX_OPERATION_BYTES + 1) MAX_OPERATION_BYTES

/-- Read and check the ready line. -/
def handshake (codec : Codec V) (p : Nat) : ExceptT String (Prog (Op V)) ReadyLine := do
  let body ← attempt (.line p)
  match codec.decodeReady body with
  | none => throw "invalid_ready"
  | some ready =>
      if ready.ready = false then
        throw "worker_not_ready"
      else if ready.protocol ≠ some PROTOCOL_VERSION then
        throw "protocol_mismatch"
      else pure ready

/-- Kill the whole native group, reap it, then join the pipes. -/
def cleanup (p : Nat) : ExceptT String (Prog (Op V)) Unit :=
  attempt (.reap p)

end Process

namespace Preparation

def spawn (step : WorkerCommand) : ExceptT String (Prog (Op V)) Unit :=
  attemptAs "prepare_spawn_failed" (.spawnPreparation step)

def execute (p deadline : Nat) : ExceptT String (Prog (Op V)) Unit :=
  attempt (.execute p deadline)

def cleanup (p : Nat) : ExceptT String (Prog (Op V)) Unit :=
  attemptAs "prepare_reap_failed" (.reap p)

end Preparation

end TinyRuntime
