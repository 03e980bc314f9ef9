import TinyRuntime.Bus.Harness
import TinyRuntime.Lib.Disk
import TinyRuntime.Pool.Pools

/-!
# Engine State and Effects

What the calls of `execute` share: the pools, the files the harnesses are written
to, and the children that read them.

A harness is written by a closure on a thread. The closure opens the file, which
makes it empty, writes at its own offset, and goes on when the call that waits for
it is dropped. `Writing` is what it has left to do.

A child runs the script of the call its pool was built for (`Origin`), and reads
it at some moment after its spawn, all at once. One that has not read it sends no
handshake, so it is never made a worker. `Boot` keeps a child with what it read.
The origins, the harnesses and the boots are for the statements; no code reads
them.

## Main definitions

* `Engine`: What an engine is built with, and where paths lead.
* `Writing`, `Origin`, `Boot`, `Executing`, `Execute`: The state.
* `EngineOp`, `ExecOp`, `ExecOp.respond`: The effects and their answers.
* `Executing.load`: A child reads its script.
-/

namespace TinyRuntime

/-- An engine over one harness root, and the world it runs in. -/
structure Engine where
  harnessRoot : String
  spawner : Option Spawner
  json : Json
  /-- The characters a debug output shows as they are. -/
  printable : Char → Bool
  /-- The file a path leads to. -/
  locate : String → Nat

/-- A write in the hands of a thread. -/
structure Writing where
  path : String
  contents : List UInt8
  opened : Bool
  offset : Nat
  failed : Bool
deriving DecidableEq

namespace Writing

/-- Handed to a thread. -/
def new (path : String) (contents : List UInt8) : Writing :=
  { path := path, contents := contents, opened := false, offset := 0, failed := false }

/-- The file is open. -/
def start (w : Writing) : Writing :=
  { w with opened := true }

/-- Some bytes were accepted. A write that accepts none fails. -/
def wrote (w : Writing) (n : Nat) : Writing :=
  { w with offset := w.offset + n, failed := w.failed || n == 0 }

def fail (w : Writing) : Writing :=
  { w with failed := true }

/-- All of it is in the file. -/
def complete (w : Writing) : Bool :=
  !w.failed && w.offset == w.contents.length

end Writing

/-- What the call that built a pool had obtained. -/
structure Origin where
  script : String
  harness : WorkerHarness
deriving DecidableEq

/-- A child from its spawn on. -/
structure Boot where
  pool : Nat
  child : Nat
  file : Nat
  /-- What it was started as. -/
  spec : Option SpawnSpec
  /-- What it has read. -/
  source : Option (List UInt8)
  /-- It is in the hands of its spawn. -/
  booting : Bool
deriving DecidableEq

/-- What the calls share. -/
structure Executing where
  pools : Pools
  origins : List Origin
  files : Nat → Option (List UInt8)
  /-- How many closures have a file open. -/
  writers : Nat → Nat
  /-- The last write of a file failed. -/
  spoiled : Nat → Bool
  boots : List Boot
  /-- What the provider returned. -/
  harnesses : List WorkerHarness

/-- The locals of one call: its request, what it obtained, the write it waits for,
    the script it has written, the last process it started, and its run on a pool. -/
structure Execute where
  request : ExecRequest
  runtime : Option ResolvedRuntime
  harness : Option WorkerHarness
  writing : Option Writing
  script : Option String
  launch : Option Launch
  spec : Option SpawnSpec
  client : Client
  ended : Bool

/-- The job of a request. -/
def ExecRequest.submission (request : ExecRequest) : Submission :=
  { code := request.code
    cwd := request.cwd
    timeout := request.timeoutMs.map (· * MILLISECOND)
    lines := request.lines }

def Execute.new (request : ExecRequest) : Execute :=
  { request := request, runtime := none, harness := none, writing := none, script := none
    launch := none, spec := none, client := Client.new request.submission, ended := false }

/-! ## Effects -/

/-- The effects of `execute` and `launch_for`. -/
inductive EngineOp : Type → Type
  /-- `resolver.require`. -/
  | require (request : ResolveRequest) : EngineOp (Except Error ResolvedRuntime)
  /-- `registry.provider`. -/
  | provider (language : Language) : EngineOp (Except Error Unit)
  /-- `provider.harness`. -/
  | harness : EngineOp (Except Error WorkerHarness)
  /-- `tokio::fs::create_dir_all`. -/
  | createDirAll (path : String) : EngineOp (Except String Unit)
  /-- A write handed to a thread. -/
  | handOver (path : String) (contents : List UInt8) : EngineOp Unit
  /-- `File::create` on the thread. -/
  | create (path : String) : EngineOp (Except String Unit)
  /-- One `write`, with how many bytes of the buffer were accepted. -/
  | write (path : String) (offset : Nat) (buffer : List UInt8) : EngineOp (Except String Nat)
  /-- The file is dropped. -/
  | close (path : String) : EngineOp Unit
  /-- The variables of this process. -/
  | environ : EngineOp (String → Option String)

/-- The effects of a call. -/
abbrev ExecOp (β : Type) : Type :=
  EngineOp β ⊕ PoolsOp β

def EngineOp.suspends : ∀ β, EngineOp β → Bool
  | _, .provider _ => false
  | _, .handOver _ _ => false
  | _, .environ => false
  | _, _ => true

def ExecOp.suspends : ∀ β, ExecOp β → Bool
  | β, .inl op => op.suspends β
  | β, .inr op => PoolsOp.suspends β op

/-- What the outside decides. -/
inductive ExecChoice
  | pass
  | failed (reason : String)
  | accepted (n : Nat)
  | runtime (r : Except Error ResolvedRuntime)
  | provider (r : Except Error Unit)
  | harness (r : Except Error WorkerHarness)
  | environ (lookup : String → Option String)
  | pools (c : PoolsChoice)
  /-- A child reads its script. -/
  | load (k : Nat)

/-- The answer of an effect of the engine under a choice, and what it changes. -/
def EngineOp.respond {β : Type} (engine : Engine) (op : EngineOp β) (s : Executing)
    (l : Execute) (c : ExecChoice) : Option (β × Executing × Execute) :=
  match op with
  | .require _ =>
      match c with
      | .runtime (.ok r) => some (.ok r, s, { l with runtime := some r })
      | .runtime (.error error) => some (.error error, s, l)
      | _ => none
  | .provider _ =>
      match c with
      | .provider r => some (r, s, l)
      | _ => none
  | .harness =>
      match c with
      | .harness (.ok h) =>
          some (.ok h, { s with harnesses := s.harnesses ++ [h] }, { l with harness := some h })
      | .harness (.error error) => some (.error error, s, l)
      | _ => none
  | .createDirAll _ =>
      match c with
      | .pass => some (.ok (), s, l)
      | .failed reason => some (.error reason, s, l)
      | _ => none
  | .handOver path contents =>
      some ((), s, { l with writing := some (Writing.new path contents) })
  | .create path =>
      match c, l.writing with
      | .pass, some w =>
          let f := engine.locate path
          some (.ok (),
            { s with
              files := Function.update s.files f (some [])
              writers := Function.update s.writers f (s.writers f + 1) },
            { l with writing := some w.start })
      | .failed reason, _ => some (.error reason, s, { l with writing := none })
      | _, _ => none
  | .write path offset buffer =>
      match c, l.writing with
      | .accepted n, some w =>
          if n ≤ buffer.length then
            let f := engine.locate path
            let bytes := writeAt ((s.files f).getD []) offset (buffer.take n)
            some (.ok n, { s with files := Function.update s.files f (some bytes) },
              { l with writing := some (w.wrote n) })
          else none
      | .failed reason, some w =>
          some (.error reason, s, { l with writing := some w.fail })
      | _, _ => none
  | .close path =>
      match l.writing with
      | some w =>
          let f := engine.locate path
          some ((),
            { s with
              writers := Function.update s.writers f (s.writers f - 1)
              spoiled := Function.update s.spoiled f (!w.complete) },
            { l with writing := none
                     script := if w.complete then some path else l.script })
      | none => none
  | .environ =>
      match c with
      | .environ lookup => some (lookup, s, l)
      | _ => none

/-- The children after a call moved what it holds: a new one, or one that left the
    hands of its spawn. -/
def noteBoots (file pool : Nat) (spec : Option SpawnSpec) (before after : Hold)
    (boots : List Boot) : List Boot :=
  if before = after then boots
  else
    let left :=
      match before with
      | .spawning (some child) =>
          boots.map fun b =>
            if b.pool = pool ∧ b.child = child then { b with booting := false } else b
      | _ => boots
    match after with
    | .spawning (some child) =>
        left ++ [{ pool := pool, child := child, file := file, spec := spec, source := none
                   booting := true }]
    | _ => left

/-- Whether a child has read its script. -/
def Executing.loaded (s : Executing) (pool child : Nat) : Bool :=
  s.boots.any fun b => b.pool == pool && b.child == child && b.source.isSome

/-- What the pools and the run of a call became. -/
def Executing.follow (engine : Engine) (s : Executing) (l : Execute) (pools : Pools)
    (client : Client) : Executing × Execute :=
  match client.pool with
  | none => ({ s with pools := pools }, { l with client := client })
  | some (i, _) =>
      let origins :=
        if s.origins.length < pools.built.length then
          match l.script, l.harness with
          | some script, some h => s.origins ++ [{ script := script, harness := h }]
          | _, _ => s.origins
        else s.origins
      let file :=
        match origins[i]? with
        | some origin => engine.locate origin.script
        | none => 0
      ({ s with
          pools := pools
          origins := origins
          boots := noteBoots file i l.spec l.client.run.hold client.run.hold s.boots },
        { l with client := client })

/-- Whether an effect waits for what a child has not done yet. -/
def PoolsOp.ready (s : Executing) (l : Execute) : ∀ β, PoolsOp β → Bool
  | _, .inr (.ready child) =>
      match l.client.pool with
      | some (i, _) => s.loaded i child
      | none => false
  | _, _ => true

/-- The launch a call asks the registry for, and the process it starts. -/
def Execute.asked {β : Type} (l : Execute) (op : PoolsOp β) : Execute :=
  match op with
  | .inl (.ensure launch _ _) => { l with launch := some launch }
  | .inr (.launch spec) => { l with spec := some spec }
  | .inr _ => l

/-- The answer of an effect under a choice, and what it changes. -/
def ExecOp.respond {β : Type} (engine : Engine) (op : ExecOp β) (w : Executing × Execute)
    (c : ExecChoice) : Option (β × Executing × Execute) :=
  let (s, l) := w
  match op with
  | .inl op => op.respond engine s l c
  | .inr op =>
      match c with
      | .pools c =>
          if PoolsOp.ready s l β op then
            (PoolsOp.respond engine.json engine.printable op (s.pools, l.client) c).map
              fun (b, pools, client) => (b, s.follow engine (l.asked op) pools client)
          else none
      | _ => none

/-- A child reads its script, if the file is there. -/
def Executing.load (s : Executing) (k : Nat) : Option Executing :=
  match s.boots[k]? with
  | some b =>
      match b.source, s.files b.file with
      | none, some bytes =>
          if b.booting then
            some { s with boots := s.boots.set k { b with source := some bytes } }
          else none
      | _, _ => none
  | none => none

/-- Dropping the locals of an ended call. -/
def Execute.release (engine : Engine) (w : Executing × Execute) : Option (Executing × Execute) :=
  (Client.release (w.1.pools, w.2.client)).map fun r => w.1.follow engine w.2 r.1 r.2

/-- What happens beside the calls. -/
def Executing.env (s : Executing) : ExecChoice → Option Executing
  | .pools c => (s.pools.reaper c).map fun pools => { s with pools := pools }
  | .load k => s.load k
  | _ => none

end TinyRuntime
