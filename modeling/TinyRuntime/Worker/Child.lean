import TinyRuntime.Worker.Native
import Mathlib.Data.Seq.Basic

/-!
# Native Children

The part of the native layer that owns a child: reaping it, and running a
preparation command to its end.

A child is killed and waited for in a task of its own, which owns it meanwhile. The
task goes on when the cleanup that waits for it is dropped. How a wait ends is for
the outside to choose, at the latest when its task is joined: it succeeds, it fails or
panics, or its task is aborted.

Between two points where a cleanup waits nothing else touches the fields, so what
`reap` does before and after it waits is one effect each. The two readers of a
preparation command run in one task. They interleave wherever one of them waits.

The fields of `Owner` after the first line are for the statements. No code reads
them.

## Main definitions

* `Reaper`, `Wait`, `Owner`: The fields of a `Process` or a `Preparation`.
* `Owner.launch`, `Owner.join`: The two halves of `reap`.
* `ChildOp`, `ChildOp.respond`: The effects.
* `Native.reap`, `Native.processCleanup`, `Native.preparationCleanup`: Reaping.
* `Native.drainBounded`, `Native.read`, `Native.settle`, `Native.execute`: Running a command.
-/

namespace TinyRuntime

open Prog (act attempt)
open Stream' (Seq)

/-- What a cleanup has to wait for. -/
inductive Reaper
  | waiting
  /-- A task that was aborted cannot prove anything. -/
  | lost
deriving DecidableEq

/-- A native wait in its task. -/
inductive Wait
  | running
  | succeeded
  /-- It has returned an error or panicked, and gives the child back. -/
  | failed
  | aborted
deriving DecidableEq

/-- The fields of a `Process` or a `Preparation` that own something. -/
structure Owner where
  child : Bool
  reaping : Option Reaper
  /-- `stderr` of a process: the task that drains it. -/
  stderrTask : Bool
  /-- `stdout` and `stderr` of a preparation. -/
  pipes : Bool → Bool
  /-- What is left to read of them, and how much the readers have counted. -/
  rest : Bool → Seq UInt8
  count : Nat
  /-- The native waits so far, the last one first, and the kills before them. -/
  waits : List Wait
  kills : Nat
  /-- What has been observed. -/
  stopSeen : Bool
  deadlineSeen : Bool
  readFailed : Bool
  /-- The direct wait of `execute`: whether it has answered, and with what. -/
  exited : Option Bool

/-- A spawned child. -/
def Owner.spawned (rest : Bool → Seq UInt8) : Owner :=
  { child := true, reaping := none, stderrTask := true, pipes := fun _ => true, rest := rest
    count := 0, waits := [], kills := 0, stopSeen := false, deadlineSeen := false
    readFailed := false, exited := none }

/-- `reap` before it waits: unless there is a wait already, the child is killed and
    handed to a new one. -/
def Owner.launch (s : Owner) : Owner :=
  if s.reaping = none ∧ s.child = true then
    { s with
      child := false, reaping := some .waiting, waits := .running :: s.waits, kills := s.kills + 1 }
  else s

/-- `reap` as soon as the task has ended. -/
def Owner.join (s : Owner) (ended : Wait) : Option (Except String Unit × Owner) :=
  match s.reaping with
  | none => some (.ok (), s)
  | some .lost => some (.error "reap_task_failed", s)
  | some .waiting =>
      let waits := ended :: s.waits.tail
      match ended with
      | .running => none
      | .succeeded => some (.ok (), { s with reaping := none, waits := waits })
      | .failed =>
          some (.error "reap_failed", { s with reaping := none, child := true, waits := waits })
      | .aborted =>
          some (.error "reap_task_failed", { s with reaping := some .lost, waits := waits })

/-- The effects of owning a child. -/
inductive ChildOp : Type → Type
  | launch : ChildOp Unit
  /-- `task.await` and what follows. -/
  | join : ChildOp (Except String Unit)
  /-- `task.abort()`, if there is a task that drains `stderr`. -/
  | abortStderr : ChildOp Bool
  | joinStderr : ChildOp Unit
  | dropStderr : ChildOp Unit
  /-- `stdout.take()` and `stderr.take()`: whether there was a pipe. -/
  | take (side : Bool) : ChildOp Bool
  | dropPipes : ChildOp Unit
  /-- `pipe.read(..)`: how many bytes. -/
  | read (side : Bool) : ChildOp (Except Unit Nat)
  /-- `total.fetch_add(count, ..)`: what it was. -/
  | fetchAdd (count : Nat) : ChildOp Nat
  /-- Which of two readers goes on. -/
  | turn : ChildOp Bool
  | stopped : ChildOp Bool
  | expired : ChildOp Bool
  /-- `self.child.is_some()`. -/
  | owns : ChildOp Bool
  | startKill : ChildOp Unit
  /-- `child.inner().wait()`: whether it exited successfully. -/
  | wait : ChildOp (Except Unit Bool)
  /-- What never comes. -/
  | pending : ChildOp Empty

/-- The effects a future can be left at. -/
def ChildOp.suspends : ∀ β, ChildOp β → Bool
  | _, .join | _, .joinStderr | _, .read _ | _, .wait | _, .pending => true
  | _, _ => false

/-- What the outside decides. -/
inductive ChildChoice
  | pass
  | ended (result : Wait)
  | flag (b : Bool)
  /-- How many bytes a read returns beyond the first, or that it fails. -/
  | read (n : Option Nat)
  /-- Whether a child exits successfully, or waiting for it fails. -/
  | exit (success : Option Bool)

/-- The size of the buffer of a reader. -/
def BUFFER : Nat := 8192

/-- The answer of an effect under a choice, and what it changes. -/
def ChildOp.respond {β : Type} (op : ChildOp β) (s : Owner) (c : ChildChoice) :
    Option (β × Owner) :=
  match op with
  | .launch => some ((), s.launch)
  | .join =>
      match c with
      | .ended result => s.join result
      | _ => none
  | .abortStderr => some (s.stderrTask, s)
  | .joinStderr => some ((), s)
  | .dropStderr => some ((), { s with stderrTask := false })
  | .take side => some (s.pipes side, { s with pipes := Function.update s.pipes side false })
  | .dropPipes => some ((), { s with pipes := fun _ => false })
  | .read side =>
      match c with
      | .read (some n) =>
          let chunk := (s.rest side).take (min (n + 1) BUFFER)
          let rest := (s.rest side).drop chunk.length
          some (.ok chunk.length, { s with rest := Function.update s.rest side rest })
      | .read none => some (.error (), { s with readFailed := true })
      | _ => none
  | .fetchAdd count => some (s.count, { s with count := s.count + count })
  | .turn =>
      match c with
      | .flag b => some (b, s)
      | _ => none
  | .stopped =>
      match c with
      | .flag b => some (b, { s with stopSeen := s.stopSeen || b })
      | _ => none
  | .expired =>
      match c with
      | .flag b => some (b, { s with deadlineSeen := s.deadlineSeen || b })
      | _ => none
  | .owns => some (s.child, s)
  | .startKill => some ((), { s with kills := s.kills + 1 })
  | .wait =>
      match c with
      | .exit (some success) => some (.ok success, { s with exited := some success })
      | .exit none => some (.error (), s)
      | _ => none
  | .pending => none

/-- Owning a child. -/
def owning : Handler ChildOp Owner ChildChoice where
  respond op s c := op.respond s c

namespace Native

/-! ## Reaping -/

/-- Kill and wait, or go on waiting. -/
def reap : ExceptT String (Prog ChildOp) Unit := do
  act .launch
  attempt .join

/-- `Process::cleanup`. -/
def processCleanup : ExceptT String (Prog ChildOp) Unit := do
  reap
  if ← act .abortStderr then
    act .joinStderr
  act .dropStderr

/-- `Preparation::cleanup`. -/
def preparationCleanup : ExceptT String (Prog ChildOp) Unit := do
  match ← ExceptT.lift reap.run with
  | .error _ => throw "prepare_reap_failed"
  | .ok () => act .dropPipes

/-! ## Running a command -/

/-- `drain_bounded`, with as many reads as there can be. -/
def drainBounded (side : Bool) : Nat → ExceptT String (Prog ChildOp) Unit
  | 0 => do
      let never ← act .pending
      nomatch never
  | fuel + 1 => do
      match ← act (.read side) with
      | .error _ => throw "prepare_read_failed"
      | .ok count =>
          if count = 0 then pure ()
          else do
            let total ← act (.fetchAdd count)
            if MAX_OPERATION_BYTES < total + count then throw "prepare_output_limit"
            else drainBounded side fuel

/-- Both readers, up to the first error. -/
def read : Prog ChildOp (Except String Unit) :=
  Prog.tryJoin .turn (drainBounded false (MAX_OPERATION_BYTES + 2)).run
    (drainBounded true (MAX_OPERATION_BYTES + 2)).run

/-- A future raced against the stop flag, which is polled first, and the deadline. -/
def select {α : Type} (p : Prog ChildOp α) : Prog ChildOp (Except String α) := do
  match ← (p.cut .expired ChildOp.suspends).cut .stopped ChildOp.suspends with
  | none => pure (.error "canceled")
  | some none => pure (.error "prepare_timeout")
  | some (some a) => pure (.ok a)

/-- `result.and_then(..)`. -/
def flatten {α : Type} : Except String (Except String α) → Except String α
  | .ok r => r
  | .error reason => .error reason

/-- The direct wait for the child. -/
def directWait : Prog ChildOp (Except String Bool) := do
  match ← Prog.op .wait with
  | .ok success => pure (.ok success)
  | .error _ => pure (.error "prepare_reap_failed")

/-- `result?` and what follows: a command succeeds if its output was read and it has
    exited successfully. -/
def outcome : Except String Unit → Except String Bool → Except String Unit
  | .error reason, _ => .error reason
  | .ok (), .error reason => .error reason
  | .ok (), .ok true => .ok ()
  | .ok (), .ok false => .error "prepare_failed"

/-- `execute` from the direct wait on. -/
def settle (result : Except String Unit) : ExceptT String (Prog ChildOp) Unit := do
  let wait := flatten (← ExceptT.lift (select directWait))
  match wait with
  | .error _ => preparationCleanup
  | .ok _ => pure ()
  ExceptT.mk (pure (outcome result wait))

/-- `Preparation::execute`. -/
def execute : ExceptT String (Prog ChildOp) Unit := do
  if !(← act (.take false)) then throw "stdout_missing"
  else if !(← act (.take true)) then throw "stderr_missing"
  else do
    let result := flatten (← ExceptT.lift (select read))
    if !(← act .owns) then throw "prepare_closed"
    else do
      match result with
      | .error _ => act .startKill
      | .ok () => pure ()
      settle result

end Native

end TinyRuntime
