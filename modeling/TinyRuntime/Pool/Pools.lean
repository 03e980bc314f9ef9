import TinyRuntime.Pool.Fingerprint
import TinyRuntime.Pool.Bound

/-!
# The Registry of Pools

The source's `Pools`: one live pool for each language, with the fingerprint it was
built for. A launch with another fingerprint replaces it.

A pool is shared by reference. Replacing it takes the registry's reference away;
every call still running on it has one of its own, and so has the reaper while it
makes a pass. Only with the last reference does the pool go and its parked workers
with it. `Pooled` counts the references of the calls.

## Main definitions

* `Entry`, `Pooled`, `Pools`: The registry and every pool built so far.
* `Client`: The locals of a call that runs a job on the pool it was given.
* `RegistryOp`, `PoolsOp`, `PoolsOp.respond`: The effects and their answers.
* `Job.run`: A call.
* `Pools.calls`: Any number of calls.
* `children`: The interpreter children of one language.
-/

namespace TinyRuntime

/-- One live pool and the fingerprint it was built for. -/
structure Entry where
  fingerprint : String
  pool : Nat
deriving DecidableEq

/-- A pool and who has a reference to it besides the registry. -/
structure Pooled where
  pool : LangPool
  state : Pool
  /-- The references of calls. -/
  handles : Nat
  /-- The reaper has upgraded its weak reference. -/
  reaping : Bool

/-- A pool built for a call. -/
def Pooled.new (pool : LangPool) (state : Pool) : Pooled :=
  { pool := pool, state := state, handles := 1, reaping := false }

/-- The live pools, and all pools ever built, oldest first. -/
structure Pools where
  live : Language → Option Entry
  built : List Pooled

def Pools.new : Pools :=
  { live := fun _ => none, built := [] }

namespace Pools

/-- One pool replaced by a later state of it. -/
def put (s : Pools) (i : Nat) (p : Pooled) : Pools :=
  { s with built := s.built.set i p }

/-- `live.insert`: a new pool takes over its language. -/
def insert (s : Pools) (fingerprint : String) (p : Pooled) : Pools where
  live language :=
    if language = p.pool.launch.language then
      some { fingerprint := fingerprint, pool := s.built.length }
    else s.live language
  built := s.built ++ [p]

/-- Whether the registry has a pool under its language. -/
def isLive (s : Pools) (i : Nat) (p : Pooled) : Bool :=
  match s.live p.pool.launch.language with
  | some entry => entry.pool == i
  | none => false

/-- Whether anything has a reference to a pool. -/
def held (s : Pools) (i : Nat) (p : Pooled) : Bool :=
  s.isLive i p || 0 < p.handles || p.reaping

/-- The live pool of a language, if it was built for this fingerprint. -/
def current (s : Pools) (language : Language) (fingerprint : String) : Option (Nat × Pooled) :=
  match s.live language with
  | some entry =>
      if entry.fingerprint = fingerprint then
        (s.built[entry.pool]?).map fun p => (entry.pool, p)
      else none
  | none => none

end Pools

/-- A launch, the tuning and the job of one call. -/
structure Job where
  launch : Launch
  settings : PoolSettings
  runtimeVersion : String
  input : Submission

/-- The locals of a call: the pool it was given, whether it still has the reference,
    and its run. -/
structure Client where
  pool : Option (Nat × LangPool)
  arc : Bool
  run : Run

def Client.new (input : Submission) : Client :=
  { pool := none, arc := false, run := Run.new input }

/-- The effects of the registry. -/
inductive RegistryOp : Type → Type
  /-- What `ensure` does under the live lock. -/
  | ensure (launch : Launch) (settings : PoolSettings) (runtimeVersion : String) :
      RegistryOp LangPool

/-- The effects of a call: the registry's, and those of the pool it was given. -/
abbrev PoolsOp (β : Type) : Type :=
  RegistryOp β ⊕ PoolOp β

def PoolsOp.suspends : ∀ β, PoolsOp β → Bool
  | _, .inl _ => true
  | β, .inr op => op.suspends β

/-- What the outside decides. -/
inductive PoolsChoice
  /-- The answer of an effect. -/
  | op (c : PoolChoice)
  /-- The reaper of a pool wakes up. -/
  | upgrade (i : Nat)
  /-- It makes its pass. -/
  | reap (i : Nat) (c : PoolChoice)

section Registry

variable (json : Json) (printable : Char → Bool)

/-- The pool for a launch, building it if the current one does not match. Building a
    semaphore may panic, and then nothing has changed. -/
def Pools.ensure (s : Pools) (launch : Launch) (settings : PoolSettings)
    (runtimeVersion : String) : Option (Nat × LangPool × Pools) :=
  let fingerprint := poolFingerprint printable launch settings
  match s.current launch.language fingerprint with
  | some (i, p) => some (i, p.pool, s.put i { p with handles := p.handles + 1 })
  | none =>
      let pool : LangPool :=
        { launch := launch, settings := settings, runtimeVersion := runtimeVersion, json := json }
      pool.start.map fun state =>
        (s.built.length, pool, s.insert fingerprint (Pooled.new pool state))

/-- The answer of an effect under a choice, and what it changes. -/
def PoolsOp.respond {β : Type} (op : PoolsOp β) (w : Pools × Client) (c : PoolsChoice) :
    Option (β × Pools × Client) :=
  let (s, l) := w
  match op, c with
  | .inl (.ensure launch settings runtimeVersion), .op _ =>
      (s.ensure json printable launch settings runtimeVersion).map fun (i, pool, s') =>
        (pool, s', { l with pool := some (i, pool), arc := true })
  | .inr op, .op c =>
      match l.pool with
      | none => none
      | some (i, _) =>
          match s.built[i]? with
          | none => none
          | some p =>
              (op.respond (p.state, l.run) c).map fun (b, state, run) =>
                (b, s.put i { p with state := state }, { l with run := run })
  | _, _ => none

/-- A call: the pool for its launch, and its job on it. -/
def Job.execute (job : Job) : Prog PoolsOp (Except Error ExecResponse) := do
  let pool ← Prog.op (.inl (.ensure job.launch job.settings job.runtimeVersion))
  (pool.run job.input).embed fun _ => .inr

/-- Dropping the locals of an ended call, one at a time: those of its run, then its
    reference. -/
def Client.release (w : Pools × Client) : Option (Pools × Client) :=
  let (s, l) := w
  match l.pool with
  | none => none
  | some (i, _) =>
      match s.built[i]? with
      | none => none
      | some p =>
          match Run.release (p.state, l.run) with
          | some (state, run) => some (s.put i { p with state := state }, { l with run := run })
          | none =>
              if l.arc then
                some (s.put i { p with handles := p.handles - 1 }, { l with arc := false })
              else none

/-- The reapers: each wakes up while its pool is there, and makes its pass. -/
def Pools.reaper (s : Pools) : PoolsChoice → Option Pools
  | .upgrade i =>
      match s.built[i]? with
      | some p =>
          if p.pool.ttl.isSome && s.held i p && !p.reaping then
            some (s.put i { p with reaping := true })
          else none
      | none => none
  | .reap i c =>
      match s.built[i]? with
      | some p =>
          if p.reaping then
            (p.pool.reaped p.state c).map fun state =>
              s.put i { p with state := state, reaping := false }
          else none
      | none => none
  | .op _ => none

/-- Any number of calls. -/
def Pools.calls :
    Concurrent.Calls PoolsOp Pools Client Job PoolsChoice (Except Error ExecResponse) where
  handler := { respond := fun op => PoolsOp.respond json printable op }
  suspends := PoolsOp.suspends
  main := Job.execute
  fresh job := Client.new job.input
  orphans _ _ := []
  ended result l := { l with run := { l.run with result := result } }
  release := Client.release
  env s c := s.reaper c

end Registry

/-- The registry with the calls made so far. -/
abbrev Pools.State :=
  Concurrent.Config PoolsOp Pools Client (Except Error ExecResponse)

/-! ## Children -/

/-- The runs on one pool. -/
def runs (i : Nat) (ls : List Client) : List Run :=
  ls.filterMap fun l => if l.pool.any (·.1 = i) then some l.run else none

/-- The children of one pool that are parked, in the hands of a run or being spawned.
    Parked ones go with the last reference. -/
def Pooled.children (s : Pools) (ls : List Client) (i : Nat) (p : Pooled) : Nat :=
  (if s.held i p then p.state.idle.length else 0) + Concurrent.tally Run.busy (runs i ls)

/-- The children of one language, over all pools ever built. -/
def Pools.children (s : Pools) (ls : List Client) (language : Language) : Nat :=
  (s.built.zipIdx.map fun (p, i) =>
    if p.pool.launch.language = language then p.children s ls i else 0).sum

end TinyRuntime
