import TinyRuntime.Bus.Pool

/-!
# The Worker Harness

The script a provider ships to turn an interpreter into a warm worker, and the
request to run code on one.

## Main definitions

* `WorkerHarness`: The script and how to launch it.
* `ExecRequest`: A request to run code.
-/

namespace TinyRuntime

/-- The script that turns an interpreter into a warm worker, and how to launch it. -/
structure WorkerHarness where
  filename : String
  source : String
  argsBeforeScript : List String
  argsAfterScript : List String
  env : List (String × String)
  protocolVersion : Nat
  executable : String
deriving DecidableEq, Repr

/-- The full argument vector for launching a script. -/
def WorkerHarness.commandArgs (h : WorkerHarness) (script : String) : List String :=
  h.argsBeforeScript ++ [script] ++ h.argsAfterScript

/-- The bytes of the script. -/
def WorkerHarness.bytes (h : WorkerHarness) : List UInt8 :=
  h.source.toUTF8.data.toList

/-- The absolute path recorded for a name, if the toolchain ships it. -/
def ResolvedRuntime.executable (r : ResolvedRuntime) (name : String) : Option String :=
  r.executables.lookup name

/-- A request to run code. `lines` bounds the lines its reply loop reads. -/
structure ExecRequest where
  language : Language
  settings : RuntimeSettings
  pool : PoolSettings
  code : String
  cwd : Option String
  timeoutMs : Option Nat
  lines : Nat

end TinyRuntime
