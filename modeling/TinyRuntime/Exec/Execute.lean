import TinyRuntime.Exec.State

/-!
# Running Code

The source's `Engine::execute`: resolve, write the harness out, ask the registry for
a pool, run the job on it.

The harness is written on every call, also when the live pool serves the launch.
The write is a closure of its own (`closure`), so that a dropped call leaves what
remains of it behind (`resume`).

## Main definitions

* `buildEnv`: The environment of a worker.
* `closure`, `resume`, `materialise`: The harness on disk.
* `launchFor`, `execute`: One call.
* `Engine.calls`: Any number of calls.
-/

namespace TinyRuntime

/-- The time a worker has to connect back and hand over its handshake. -/
def DEFAULT_HANDSHAKE_TIMEOUT : Nat := 30 * SECOND

/-- `Path::join`. -/
def joinPath (base name : String) : String :=
  if name.toList.head? = some '/' || base = "" then name
  else if base.toList.getLast? = some '/' then base ++ name
  else base ++ "/" ++ name

/-- The variables a worker may inherit from this process. -/
def INHERITED : List String :=
  ["HOME", "TERM", "LANG", "LC_ALL", "LC_CTYPE", "USER", "SHELL", "TMPDIR", "SystemRoot",
    "WINDIR", "COMSPEC", "PATHEXT", "TEMP", "TMP", "USERPROFILE", "APPDATA", "LOCALAPPDATA",
    "ProgramFiles", "ProgramFiles(x86)", "ProgramW6432"]

/-- A worker's environment, with its own directory first on `PATH`. -/
def buildEnv (lookup : String → Option String) (binDir : String)
    (extra : List (String × String)) : List (String × String) :=
  let inherited := (lookup "PATH").getD ""
  let path := if inherited = "" then binDir else binDir ++ ":" ++ inherited
  ("PATH", path) ::
    INHERITED.filterMap (fun name => (lookup name).map fun value => (name, value)) ++ extra

/-! ## The harness on disk -/

/-- `write_all`, from an offset on. -/
def writeAllAt (path : String) :
    Nat → Nat → List UInt8 → Prog ExecOp (Except String Unit)
  | 0, _, _ => pure (.ok ())
  | fuel + 1, offset, buffer =>
      if buffer = [] then pure (.ok ())
      else do
        match ← Prog.op (.inl (.write path offset buffer)) with
        | .error reason => pure (.error reason)
        | .ok n =>
            if n = 0 then pure (.error "failed to write whole buffer")
            else writeAllAt path fuel (offset + n) (buffer.drop n)

/-- What is left of a write once its file is open. -/
def finishWrite (path : String) (offset : Nat) (rest : List UInt8) :
    Prog ExecOp (Except String Unit) := do
  let result ← writeAllAt path rest.length offset rest
  Prog.op (.inl (.close path))
  pure result

/-- `std::fs::write`. -/
def closure (path : String) (contents : List UInt8) : Prog ExecOp (Except String Unit) := do
  match ← Prog.op (.inl (.create path)) with
  | .error reason => pure (.error reason)
  | .ok () => finishWrite path 0 contents

/-- The closure of a call that was dropped. -/
def resume (w : Writing) : Prog ExecOp (Except String Unit) :=
  if w.opened = false then closure w.path w.contents
  else if w.failed then do
    Prog.op (.inl (.close w.path))
    pure (.error "failed to write whole buffer")
  else finishWrite w.path w.offset (w.contents.drop w.offset)

/-- Write a harness into a directory and return the path it was written to. -/
def materialise (root : String) (h : WorkerHarness) : Prog ExecOp (Except Error String) := do
  match ← Prog.op (.inl (.createDirAll root)) with
  | .error reason => pure (.error (.storage reason))
  | .ok () => do
      let path := joinPath root h.filename
      Prog.op (.inl (.handOver path h.bytes))
      match ← closure path h.bytes with
      | .error reason => pure (.error (.storage reason))
      | .ok () => pure (.ok path)

/-! ## One call -/

namespace Engine

/-- The worker launch made of what a call has obtained. -/
def launch (engine : Engine) (language : Language) (runtime : ResolvedRuntime)
    (h : WorkerHarness) (binary script : String) (lookup : String → Option String) : Launch :=
  { language := language
    binary := binary
    args := h.commandArgs script
    env := buildEnv lookup runtime.binDir h.env
    protocolVersion := h.protocolVersion
    handshakeTimeout := DEFAULT_HANDSHAKE_TIMEOUT
    spawner := engine.spawner }

/-- Build the worker launch for a resolved runtime. -/
def launchFor (engine : Engine) (runtime : ResolvedRuntime) (language : Language) :
    Prog ExecOp (Except Error Launch) := do
  match ← Prog.op (.inl (.provider language)) with
  | .error error => pure (.error error)
  | .ok () =>
      match ← Prog.op (.inl .harness) with
      | .error error => pure (.error error)
      | .ok h =>
          match runtime.executable h.executable with
          | none => pure (.error (.emptyInstall language))
          | some binary =>
              match ← materialise (joinPath engine.harnessRoot language.id) h with
              | .error error => pure (.error error)
              | .ok script => do
                  let lookup ← Prog.op (.inl .environ)
                  pure (.ok (engine.launch language runtime h binary script lookup))

/-- Resolve a runtime and run a request on it. -/
def execute (engine : Engine) (request : ExecRequest) :
    Prog ExecOp (Except Error ExecResponse) := do
  let resolve : ResolveRequest :=
    { language := request.language, settings := request.settings, install := true }
  match ← Prog.op (.inl (.require resolve)) with
  | .error error => pure (.error error)
  | .ok runtime =>
      match ← engine.launchFor runtime request.language with
      | .error error => pure (.error error)
      | .ok launch => do
          let pool ← Prog.op (.inr (.inl (.ensure launch request.pool runtime.version)))
          (pool.run request.submission).embed fun _ op => .inr (.inr op)

end Engine

/-- What a dropped call had handed to a thread. -/
def Execute.orphan (l : Execute) : Execute :=
  { Execute.new l.request with harness := l.harness, writing := l.writing }

def Execute.orphans (l : Execute) :
    List (Prog ExecOp (Except Error ExecResponse) × Execute) :=
  match l.writing with
  | none => []
  | some w => [(do let _ ← resume w; pure (.error (.storage "dropped")), l.orphan)]

/-- The calls of an engine. -/
def Engine.calls (engine : Engine) :
    Concurrent.Calls ExecOp Executing Execute ExecRequest ExecChoice
      (Except Error ExecResponse) where
  handler := { respond := fun op => op.respond engine }
  suspends := ExecOp.suspends
  main := engine.execute
  fresh := Execute.new
  orphans _ l := l.orphans
  ended result l :=
    { l with
      writing := none
      client := { l.client with run := { l.client.run with result := result } }
      ended := true }
  release := Execute.release engine
  env := Executing.env

/-- An engine with the calls made so far. -/
abbrev Engine.State :=
  Concurrent.Config ExecOp Executing Execute (Except Error ExecResponse)

/-- An engine before its first call. What is in the files is whatever was left. -/
def Executing.fresh (s : Executing) : Prop :=
  s.pools = Pools.new ∧ s.origins = [] ∧ (∀ f, s.writers f = 0) ∧ s.boots = [] ∧ s.harnesses = []

end TinyRuntime
