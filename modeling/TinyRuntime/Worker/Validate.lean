import TinyRuntime.Bus.Worker
import Mathlib.Data.List.Basic
import Mathlib.Algebra.Order.Ring.Nat

/-!
# Preflight Checks

The bounds a plan and its commands have to keep to before anything is installed or
spawned. All sizes are in bytes.

## Main definitions

* `Validate.command`, `Validate.plan`: The checks.
-/

namespace TinyRuntime

namespace Validate

def MAX_SCRIPT : Nat := 1024 * 1024

/-- The size of the strings of a command. -/
def commandSize (command : WorkerCommand) : Nat :=
  (command.args.map String.utf8ByteSize).sum +
    (command.env.map fun (k, v) => k.utf8ByteSize + v.utf8ByteSize).sum

/-- Whether a string has the byte that ends one. -/
def hasNul (s : String) : Bool :=
  '\x00' ∈ s.toList

def command (command : WorkerCommand) : Except String Unit :=
  if command.executable.toList.head? ≠ some '/' ∨ 4096 < command.executable.utf8ByteSize ∨
      hasNul command.executable ∨ 64 < command.args.length ∨ 64 < command.env.length then
    .error "command_limit"
  else if command.timeoutMs.any fun timeout => timeout = 0 ∨ 30 * 60 * 1000 < timeout then
    .error "command_limit"
  else if 64 * 1024 < commandSize command ∨ command.args.any hasNul ∨
      command.env.any fun (k, v) => k = "" ∨ hasNul k ∨ '=' ∈ k.toList ∨ hasNul v then
    .error "command_limit"
  else .ok ()

/-- Every command of a list, up to the first that fails. -/
def commands : List WorkerCommand → Except String Unit
  | [] => .ok ()
  | step :: steps => do
      command step
      commands steps

def plan (plan : WorkerPlan) : Except String Unit :=
  if MAX_SCRIPT < plan.source.utf8ByteSize ∨ 16 < plan.preparation.length ∨
      32 < plan.backends.length ∨ (plan.backends.any fun s => 128 < s.utf8ByteSize) ∨
      plan.startupTimeoutMs = 0 ∨ 30 * 60 * 1000 < plan.startupTimeoutMs ∨
      plan.requestTimeoutMs = 0 ∨ 60 * 1000 < plan.requestTimeoutMs ∨
      24 * 60 * 60 * 1000 < plan.idleTimeoutMs ∨
      (plan.idleBackend.any fun s => 128 < s.utf8ByteSize) ∨ plan.command.timeoutMs.isSome then
    .error "plan_limit"
  else do
    command plan.command
    commands plan.preparation

end Validate

end TinyRuntime
