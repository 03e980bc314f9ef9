import TinyRuntime.Bus.Worker
import TinyRuntime.Lib.Concurrent
import TinyRuntime.Pool.State
import Mathlib.Logic.Function.Basic

/-!
# Python Servers and their Slot

What the calls on one slot and on the servers it built share, what each call
owns, and the effects their code performs.

A server is known by its number, and so is a child. `Slot` has the cache behind
the slot's lock, every server built so far and every child spawned so far, the
dead ones included. A child records what was written to its stdin.

`Caller` is what one call owns: the slot's lock, the lock of one server, and a
child in its hands, freshly spawned or taken out to be killed. They are dropped
in the opposite order.

The remaining fields are histories for the statements; no code reads them.
`discarded` is a server that was given up: an ensure call let go of its lock
while it had no child, and goes on to empty the cache. `published` is one that
has been in the cache. `cut` is a child whose last frame was left unfinished.

A child may exit or close its stdin at any time, a write may accept any part of
its buffer or fail, and any line may come: these are choices of the outside.

## Main definitions

* `ServerLaunch`, `Server`, `Child`, `Cache`, `Slot`: The shared state.
* `Caller`: The locals of one call.
* `ServerOp`, `ServerChoice`, `ServerOp.respond`: The effects and their answers.
* `ServerOp.Answers`: The same as a relation.
* `Caller.release`: What dropping the locals of a call does.

## Theorems

* `ServerOp.answers_of_respond`: What each effect can answer and change.
-/

namespace TinyRuntime.PyServer

/-- A description of one worker process. -/
structure ServerLaunch where
  pythonBin : String
  scriptPath : String
  backends : List String
  env : List (String × String)
  handshakeTimeout : Nat
  requestTimeout : Nat
  spawner : Option Spawner

/-- Why starting or talking to the worker failed. -/
inductive Error
  | spawn (bin script source : String)
  | spawnRefused (reason : String)
  | stdinMissing
  | stdoutMissing
  | exitedBeforeReady
  | handshakeRead (source : String)
  | handshakeTimeout
  | readyParse (line source : String)
  | startFailed (reason : String)
  | protocolMismatch (expected : Nat) (got : Option Nat)
  | encode (source : String)
  | write (source : String)
  | flush (source : String)
  | closed
  | read (source : String)
  | requestTimeout
  | remote (method message : String)
  | decode (method source : String)
  | unavailable (message : String)
  | backingOff (message : String)
  | prepare (message : String)
  | createDir (path source : String)
  | writeScript (path source : String)
deriving DecidableEq, Repr

/-- The debug output of an optional number. -/
def debugNumber : Option Nat → String
  | none => "None"
  | some n => "Some(" ++ toString n ++ ")"

/-- The message of an error. -/
def Error.display : Error → String
  | .spawn bin script source =>
      "spawning runtime python server: failed to spawn python process `" ++ bin ++
        "` for script " ++ script ++ ": " ++ source
  | .spawnRefused reason =>
      "spawning runtime python server: the spawner refused to start the process: " ++ reason
  | .stdinMissing => "runtime python server stdin missing"
  | .stdoutMissing => "runtime python server stdout missing"
  | .exitedBeforeReady => "runtime python server exited before readiness handshake"
  | .handshakeRead source => "reading runtime python server handshake: " ++ source
  | .handshakeTimeout => "runtime python server readiness handshake timed out"
  | .readyParse line source =>
      "parsing runtime python server ready line: " ++ line ++ ": " ++ source
  | .startFailed reason => "runtime python server failed to start: " ++ reason
  | .protocolMismatch expected got =>
      "runtime python server protocol mismatch: expected " ++ toString expected ++ ", got " ++
        debugNumber got
  | .encode source => "encoding runtime python server request: " ++ source
  | .write source => "writing runtime python server request: " ++ source
  | .flush source => "flushing runtime python server request: " ++ source
  | .closed => "runtime python server closed stdout"
  | .read source => "reading runtime python server response: " ++ source
  | .requestTimeout => "runtime python server request timed out"
  | .remote method message => "runtime python server `" ++ method ++ "` failed: " ++ message
  | .decode method source =>
      "decoding runtime python server `" ++ method ++ "` result: " ++ source
  | .unavailable message => "runtime python server unavailable: " ++ message
  | .backingOff message =>
      "runtime python server unavailable after previous startup failure: " ++ message
  | .prepare message => message
  | .createDir path source =>
      "creating runtime python server cache " ++ path ++ ": " ++ source
  | .writeScript path source =>
      "writing runtime python server script " ++ path ++ ": " ++ source

/-- A running worker behind its server's lock. -/
structure Inner where
  child : Nat
  nextId : Nat
  readyBackends : List String
deriving DecidableEq

/-- One worker slot of its own: a launch and at most one running worker. -/
structure Server where
  launch : ServerLaunch
  inner : Option Inner
  locked : Bool
  lastUsed : Nat
  discarded : Bool
  published : Bool

/-- `PythonServer::new`. -/
def Server.new (launch : ServerLaunch) (now : Nat) : Server :=
  { launch := launch, inner := none, locked := false, lastUsed := now, discarded := false
    published := false }

/-- A spawned process. -/
structure Child where
  server : Nat
  alive : Bool
  /-- It has not closed its stdin. -/
  reading : Bool
  stdin : List UInt8
  cut : Bool
deriving DecidableEq

def Child.new (server : Nat) : Child :=
  { server := server, alive := true, reading := true, stdin := [], cut := false }

inductive Cache
  | empty
  | ready (server : Nat)
  | failed (message : String) (retryAfter : Nat)
deriving DecidableEq

/-- The server in the cache. -/
def Cache.server : Cache → Option Nat
  | .ready i => some i
  | _ => none

/-- What the calls share. -/
structure Slot where
  cache : Cache
  locked : Bool
  /-- How many servers there are. -/
  built : Nat
  servers : Nat → Server
  /-- How many children there are. -/
  spawned : Nat
  children : Nat → Child
  seen : Nat

/-- The functions that may be called, as far as their locals go. -/
inductive Kind
  | ensure
  | start
  | request
  /-- One that never spawns. -/
  | other
deriving DecidableEq

/-- The locals of one call. -/
structure Caller where
  kind : Kind
  /-- It holds the slot's lock. -/
  slot : Bool
  /-- The server it has in hand while it holds the slot's lock. -/
  subject : Option Nat
  /-- It has given up the cached server. -/
  gaveUp : Bool
  /-- A server it has got from outside or from the cache. -/
  target : Option Nat
  /-- The server whose lock it holds. -/
  server : Option Nat
  /-- It has seen that this server has no child, and has none of its old ones. -/
  vacant : Bool
  /-- The child in its hands. -/
  child : Option Nat
  /-- What it has written of an unfinished frame. -/
  part : List UInt8
  /-- The server it was handed. -/
  handed : Option Nat
  finished : Bool
deriving DecidableEq

def Caller.new (kind : Kind) (target : Option Nat) : Caller :=
  { kind := kind, slot := false, subject := none, gaveUp := false, target := target
    server := none, vacant := false, child := none, part := [], handed := none, finished := false }

namespace Slot

/-- A slot without servers. -/
def new : Slot :=
  { cache := .empty, locked := false, built := 0
    servers := fun _ =>
      Server.new
        { pythonBin := "", scriptPath := "", backends := [], env := [], handshakeTimeout := 0
          requestTimeout := 0, spawner := none } 0
    spawned := 0, children := fun _ => Child.new 0, seen := 0 }

/-- One server changed. -/
def setServer (s : Slot) (i : Nat) (f : Server → Server) : Slot :=
  { s with servers := Function.update s.servers i (f (s.servers i)) }

/-- One child changed. -/
def setChild (s : Slot) (k : Nat) (f : Child → Child) : Slot :=
  { s with children := Function.update s.children k (f (s.children k)) }

/-- One server more. -/
def addServer (s : Slot) (server : Server) : Slot :=
  { s with
    built := s.built + 1
    servers := Function.update s.servers s.built server }

/-- One child more. -/
def addChild (s : Slot) (child : Child) : Slot :=
  { s with
    spawned := s.spawned + 1
    children := Function.update s.children s.spawned child }

/-- A child is killed. -/
def kill (s : Slot) (k : Nat) : Slot :=
  s.setChild k fun c => { c with alive := false }

/-- A server's lock is let go by a call that has written `part` of a frame. -/
def leave (s : Slot) (i : Nat) (part : List UInt8) : Slot :=
  let s' := s.setServer i fun v => { v with locked := false }
  match (s.servers i).inner with
  | some inner =>
      if part = [] then s' else s'.setChild inner.child fun c => { c with cut := true }
  | none => s'

/-- The last reference to a server is dropped, and its child with it. -/
def dropServer (s : Slot) (i : Nat) : Slot :=
  let s' := s.setServer i fun v => { v with inner := none, discarded := true }
  match (s.servers i).inner with
  | some inner => s'.kill inner.child
  | none => s'

end Slot

/-! ## Effects -/

/-- What a read on a pipe yields: a line, its end, an error, or nothing in time. -/
abbrev PipeRead := Option (Except String (Option String))

/-- The effects of the slot's and the server's code. Those about a running worker
    go through the guard of its server. -/
inductive ServerOp : Type → Type
  /-- `Instant::now()`. -/
  | now : ServerOp Nat
  /-- `self.cache.lock()`. -/
  | lockSlot : ServerOp Unit
  | unlockSlot : ServerOp Unit
  /-- `*guard`. -/
  | cache : ServerOp Cache
  /-- `*guard = value`. -/
  | setCache (value : Cache) : ServerOp Unit
  /-- The host's launch preparation. -/
  | prepare : ServerOp (Except Error ServerLaunch)
  /-- `PythonServer::new`. -/
  | newServer (launch : ServerLaunch) (now : Nat) : ServerOp Nat
  /-- The launch of a server, which never changes. -/
  | launch (server : Nat) : ServerOp ServerLaunch
  /-- `self.inner.lock()`. -/
  | lockInner (server : Nat) : ServerOp Unit
  | unlockInner : ServerOp Unit
  /-- `guard.as_ref()`. -/
  | inner : ServerOp (Option Inner)
  /-- `*guard = Some(inner)`. -/
  | setInner (inner : Inner) : ServerOp Unit
  /-- `guard.take()`. -/
  | take : ServerOp (Option Inner)
  /-- `cmd.spawn()`, with the number of the new child. -/
  | spawn (spec : SpawnSpec) : ServerOp (Except String Nat)
  /-- `child.stdin.take()`: whether there was one. -/
  | takeStdin : ServerOp Bool
  /-- `child.stdout.take()`. -/
  | takeStdout : ServerOp Bool
  /-- The first line of a fresh child under a timeout. -/
  | readyLine (budget : Nat) : ServerOp PipeRead
  /-- A fresh child is dropped, which kills it. -/
  | dropChild : ServerOp Unit
  /-- `inner.child.start_kill()` of a child taken out. -/
  | startKill : ServerOp Unit
  /-- `inner.next_id`, counted up. -/
  | nextId : ServerOp Nat
  /-- One `poll_write` of a buffer: how many of its bytes were accepted. -/
  | write (buffer : List UInt8) : ServerOp (Except String Nat)
  | flush : ServerOp (Except String Unit)
  /-- `next_line` under a timeout. -/
  | nextLine (budget : Nat) : ServerOp PipeRead
  /-- `*self.last_used.lock().await`. -/
  | lastUsed (server : Nat) : ServerOp Nat
  | markUsed (server now : Nat) : ServerOp Unit
  /-- Waiting for what never comes. -/
  | pending : ServerOp Empty

/-- The effects at which a call can be dropped. -/
def ServerOp.suspends : ∀ β, ServerOp β → Bool
  | _, .lockSlot => true
  | _, .prepare => true
  | _, .lockInner _ => true
  | _, .readyLine _ => true
  | _, .write _ => true
  | _, .flush => true
  | _, .nextLine _ => true
  | _, .lastUsed _ => true
  | _, .markUsed _ _ => true
  | _, .pending => true
  | _, _ => false

/-- What the outside decides. -/
inductive ServerChoice
  /-- Nothing to decide. -/
  | pass
  | time (t : Nat)
  | failed (reason : String)
  /-- How many bytes a write accepts. -/
  | accepted (n : Nat)
  | line (text : String)
  /-- The end of a stream, or a pipe that is not there. -/
  | ended
  | prepared (r : Except Error ServerLaunch)
  /-- A child exits. -/
  | exited (k : Nat)
  /-- A child closes its stdin. -/
  | closed (k : Nat)

/-- The answer of a read with a budget. -/
def readPipe (budget : Nat) (s : Slot) : ServerChoice → Option (PipeRead × Slot)
  | .line text => some (some (.ok (some text)), s)
  | .ended => some (some (.ok none), s)
  | .failed reason => some (some (.error reason), s)
  | .time t => if s.seen + budget ≤ t then some (none, { s with seen := t }) else none
  | _ => none

/-- An ensure call that lets go of a server without a child gives it up. -/
def Caller.givesUp (l : Caller) : Bool :=
  l.kind = .ensure && l.vacant

/-- A call without the server's lock it held. -/
def Caller.unlocked (l : Caller) : Caller :=
  { l with
    server := none, vacant := false, part := [], gaveUp := l.gaveUp || l.givesUp
    subject := if l.givesUp then none else l.subject }

/-- The answer of an effect under a choice, and what it changes. -/
def ServerOp.respond {β : Type} (op : ServerOp β) (w : Slot × Caller) (c : ServerChoice) :
    Option (β × Slot × Caller) :=
  let (s, l) := w
  match op with
  | .now =>
      match c with
      | .time t => if s.seen ≤ t then some (t, { s with seen := t }, l) else none
      | _ => none
  | .lockSlot =>
      if s.locked then none
      else
        some ((), { s with locked := true },
          { l with slot := true, subject := s.cache.server, target := s.cache.server })
  | .unlockSlot =>
      some ((), { s with locked := false }, { l with slot := false, subject := none })
  | .cache => some (s.cache, s, { l with subject := s.cache.server, target := s.cache.server })
  | .setCache value =>
      let s' := { s with cache := value }
      let l' := { l with gaveUp := false, subject := value.server }
      match value.server with
      | some i =>
          some ((), s'.setServer i fun v => { v with published := true },
            { l' with target := some i })
      | none => some ((), s', l')
  | .prepare =>
      match c with
      | .prepared r => some (r, s, l)
      | _ => none
  | .newServer description t =>
      some (s.built, s.addServer (Server.new description t), { l with subject := some s.built })
  | .launch i => some ((s.servers i).launch, s, l)
  | .lockInner i =>
      if i < s.built ∧ (s.servers i).locked = false then
        some ((), s.setServer i fun v => { v with locked := true },
          { l with server := some i, vacant := false })
      else none
  | .unlockInner =>
      match l.server with
      | some i =>
          some ((),
            (s.leave i l.part).setServer i fun v =>
              { v with discarded := v.discarded || l.givesUp },
            l.unlocked)
      | none => none
  | .inner =>
      match l.server with
      | some i =>
          some ((s.servers i).inner, s, { l with vacant := (s.servers i).inner.isNone })
      | none => none
  | .setInner value =>
      match l.server with
      | some i =>
          some ((), s.setServer i fun v => { v with inner := some value },
            { l with child := none, vacant := false })
      | none => none
  | .take =>
      match l.server with
      | some i =>
          some ((s.servers i).inner, s.setServer i fun v => { v with inner := none },
            { l with
              child := (s.servers i).inner.map Inner.child
              vacant := (s.servers i).inner.isNone })
      | none => none
  | .spawn _ =>
      match l.server, c with
      | some i, .pass =>
          some (.ok s.spawned, s.addChild (Child.new i), { l with child := some s.spawned })
      | some _, .failed reason => some (.error reason, s, l)
      | _, _ => none
  | .takeStdin | .takeStdout =>
      match c with
      | .pass => some (true, s, l)
      | .ended => some (false, s, l)
      | _ => none
  | .readyLine budget => (readPipe budget s c).map fun r => (r.1, r.2, l)
  | .dropChild =>
      match l.child with
      | some k => some ((), s.kill k, { l with child := none })
      | none => none
  | .startKill =>
      match l.child with
      | some k => some ((), s.kill k, { l with child := none, vacant := true })
      | none => none
  | .nextId =>
      match l.server with
      | some i =>
          (s.servers i).inner.map fun x =>
            (x.nextId,
              s.setServer i fun v =>
                { v with inner := some { x with nextId := x.nextId + 1 } }, l)
      | none => none
  | .write buffer =>
      match l.server with
      | some i =>
          match (s.servers i).inner, c with
          | some x, .accepted n =>
              if n ≤ buffer.length ∧ (s.children x.child).reading = true then
                some (.ok n,
                  s.setChild x.child fun c => { c with stdin := c.stdin ++ buffer.take n },
                  { l with part := if n = buffer.length then [] else l.part ++ buffer.take n })
              else none
          | some _, .failed reason => some (.error reason, s, l)
          | _, _ => none
      | none => none
  | .flush =>
      match c with
      | .pass => some (.ok (), s, l)
      | .failed reason => some (.error reason, s, l)
      | _ => none
  | .nextLine budget => (readPipe budget s c).map fun r => (r.1, r.2, l)
  | .lastUsed i => some ((s.servers i).lastUsed, s, l)
  | .markUsed i t => some ((), s.setServer i fun v => { v with lastUsed := t }, l)
  | .pending => none

/-- What an effect can answer and change, over all choices. -/
def ServerOp.Answers {β : Type} (op : ServerOp β) (s : Slot) (l : Caller) (b : β) (s' : Slot)
    (l' : Caller) : Prop :=
  match op with
  | .lockSlot =>
      s.locked = false ∧ s' = { s with locked := true } ∧
        l' = { l with slot := true, subject := s.cache.server, target := s.cache.server }
  | .unlockSlot =>
      s' = { s with locked := false } ∧ l' = { l with slot := false, subject := none }
  | .cache =>
      s' = s ∧ l' = { l with subject := s.cache.server, target := s.cache.server }
  | .setCache value =>
      (∃ i, value.server = some i ∧
          s' = Slot.setServer { s with cache := value } i (fun v => { v with published := true }) ∧
          l' = { l with gaveUp := false, subject := some i, target := some i }) ∨
        value.server = none ∧ s' = { s with cache := value } ∧
          l' = { l with gaveUp := false, subject := none }
  | .newServer description t =>
      s' = s.addServer (Server.new description t) ∧ l' = { l with subject := some s.built }
  | .lockInner i =>
      i < s.built ∧ (s.servers i).locked = false ∧
        s' = s.setServer i (fun v => { v with locked := true }) ∧
        l' = { l with server := some i, vacant := false }
  | .unlockInner =>
      ∃ i, l.server = some i ∧ s' = (s.leave i l.part).setServer i (fun v =>
        { v with discarded := v.discarded || l.givesUp }) ∧ l' = l.unlocked
  | .inner =>
      ∃ i, l.server = some i ∧ s' = s ∧ l' = { l with vacant := (s.servers i).inner.isNone }
  | .setInner value =>
      ∃ i, l.server = some i ∧ s' = s.setServer i (fun v => { v with inner := some value }) ∧
        l' = { l with child := none, vacant := false }
  | .take =>
      ∃ i, l.server = some i ∧ s' = s.setServer i (fun v => { v with inner := none }) ∧
        l' = { l with
          child := (s.servers i).inner.map Inner.child
          vacant := (s.servers i).inner.isNone }
  | .spawn _ =>
      ∃ i, l.server = some i ∧
        (s' = s.addChild (Child.new i) ∧ l' = { l with child := some s.spawned } ∨
          s' = s ∧ l' = l)
  | .dropChild => ∃ k, l.child = some k ∧ s' = s.kill k ∧ l' = { l with child := none }
  | .startKill =>
      ∃ k, l.child = some k ∧ s' = s.kill k ∧ l' = { l with child := none, vacant := true }
  | .nextId =>
      ∃ i x n, l.server = some i ∧ (s.servers i).inner = some x ∧
        s' = s.setServer i (fun v => { v with inner := some { x with nextId := n } }) ∧ l' = l
  | .write buffer =>
      ∃ i x, l.server = some i ∧ (s.servers i).inner = some x ∧
        ((∃ n, n ≤ buffer.length ∧ (s.children x.child).reading = true ∧
            s' = s.setChild x.child (fun c => { c with stdin := c.stdin ++ buffer.take n }) ∧
            l' = { l with part := if n = buffer.length then [] else l.part ++ buffer.take n }) ∨
          s' = s ∧ l' = l)
  | .markUsed i t => s' = s.setServer i (fun v => { v with lastUsed := t }) ∧ l' = l
  | .pending => False
  | _ => (∃ t, s' = { s with seen := t }) ∧ l' = l

theorem readPipe_spec {budget : Nat} {s s' : Slot} {c : ServerChoice} {b : PipeRead}
    (h : readPipe budget s c = some (b, s')) : ∃ t, s' = { s with seen := t } := by
  cases c with
  | line text | ended | failed reason =>
      cases h
      exact ⟨s.seen, rfl⟩
  | time t =>
      simp only [readPipe] at h
      split at h
      · cases h
        exact ⟨t, rfl⟩
      · cases h
  | _ => cases h

theorem ServerOp.answers_of_respond {β : Type} {op : ServerOp β} {s s' : Slot} {l l' : Caller}
    {c : ServerChoice} {b : β} (h : op.respond (s, l) c = some (b, s', l')) :
    op.Answers s l b s' l' := by
  cases op with
  | now =>
      cases c with
      | time t =>
          simp only [respond] at h
          split at h
          · cases h
            exact ⟨⟨_, rfl⟩, rfl⟩
          · cases h
      | _ => cases h
  | prepare | takeStdin | takeStdout | flush =>
      cases c <;> first | (cases h; exact ⟨⟨s.seen, rfl⟩, rfl⟩) | cases h
  | launch i | lastUsed i =>
      cases h
      exact ⟨⟨s.seen, rfl⟩, rfl⟩
  | readyLine budget | nextLine budget =>
      rcases Option.map_eq_some_iff.mp h with ⟨r, hr, heq⟩
      cases heq
      exact ⟨readPipe_spec hr, rfl⟩
  | lockSlot =>
      simp only [respond] at h
      split at h
      · cases h
      · cases h
        exact ⟨Bool.not_eq_true _ ▸ ‹_›, rfl, rfl⟩
  | unlockSlot | cache | newServer | markUsed =>
      cases h
      exact ⟨rfl, rfl⟩
  | setCache value =>
      simp only [respond] at h
      split at h
      · cases h
        exact .inl ⟨_, ‹_›, rfl, by rw [‹value.server = _›]⟩
      · cases h
        exact .inr ⟨‹_›, rfl, by rw [‹value.server = _›]⟩
  | lockInner i =>
      simp only [respond] at h
      split at h
      · rename_i hfree
        cases h
        exact ⟨hfree.1, hfree.2, rfl, rfl⟩
      · cases h
  | unlockInner | inner | setInner | take | dropChild | startKill =>
      simp only [respond] at h
      split at h
      · cases h
        exact ⟨_, ‹_›, rfl, rfl⟩
      · cases h
  | spawn spec =>
      simp only [respond] at h
      split at h
      · cases h
        exact ⟨_, ‹_›, .inl ⟨rfl, rfl⟩⟩
      · cases h
        exact ⟨_, ‹_›, .inr ⟨rfl, rfl⟩⟩
      · cases h
  | nextId =>
      simp only [respond] at h
      split at h
      · rcases Option.map_eq_some_iff.mp h with ⟨x, hx, heq⟩
        cases heq
        exact ⟨_, x, _, ‹_›, hx, rfl, rfl⟩
      · cases h
  | write buffer =>
      simp only [respond] at h
      split at h
      · split at h
        · rename_i x n hx
          split at h
          · rename_i hn
            cases h
            exact ⟨_, x, ‹_›, hx, .inl ⟨n, hn.1, hn.2, rfl, rfl⟩⟩
          · cases h
        · cases h
          exact ⟨_, _, ‹_›, ‹_›, .inr ⟨rfl, rfl⟩⟩
        · cases h
      · cases h
  | pending => cases h

/-- Dropping the locals of an ended call, one at a time: the child in its hands,
    the lock of a server, the slot's lock together with a server that was being
    built. -/
def Caller.release (w : Slot × Caller) : Option (Slot × Caller) :=
  let (s, l) := w
  if l.finished = false then none
  else
    match l.child, l.server, l.slot with
    | some k, _, _ => some (s.kill k, { l with child := none })
    | none, some i, _ =>
        some (s.leave i l.part, { l with server := none, vacant := false, part := [] })
    | none, none, true =>
        let s' := { s with locked := false }
        let l' := { l with slot := false, subject := none }
        match l.subject with
        | some i => if s.cache.server = some i then some (s', l') else some (s'.dropServer i, l')
        | none => some (s', l')
    | none, none, false => none

theorem Caller.release_cases {s s' : Slot} {l l' : Caller}
    (h : Caller.release (s, l) = some (s', l')) : l.finished = true ∧
      ((∃ k, l.child = some k ∧ s' = s.kill k ∧ l' = { l with child := none }) ∨
        (l.child = none ∧ ∃ i, l.server = some i ∧ s' = s.leave i l.part ∧
          l' = { l with server := none, vacant := false, part := [] }) ∨
        (l.child = none ∧ l.server = none ∧ l.slot = true ∧
          l' = { l with slot := false, subject := none } ∧
          ((∀ i, l.subject = some i → s.cache.server = some i) ∧ s' = { s with locked := false } ∨
            ∃ i, l.subject = some i ∧ s.cache.server ≠ some i ∧
              s' = Slot.dropServer { s with locked := false } i))) := by
  simp only [release] at h
  split at h
  · cases h
  · rename_i hover
    refine ⟨Bool.not_eq_false _ ▸ hover, ?_⟩
    split at h
    · rename_i k hchild
      cases h
      exact .inl ⟨k, hchild, rfl, rfl⟩
    · rename_i i hchild hserver
      cases h
      exact .inr (.inl ⟨hchild, i, hserver, rfl, rfl⟩)
    · rename_i hchild hserver hslot
      refine .inr (.inr ⟨hchild, hserver, hslot, ?_⟩)
      split at h
      · rename_i i hi
        split at h
        · rename_i hcache
          cases h
          refine ⟨rfl, .inl ⟨fun j hj => ?_, rfl⟩⟩
          rw [hi] at hj
          cases hj
          exact hcache
        · rename_i hcache
          cases h
          exact ⟨rfl, .inr ⟨i, hi, hcache, rfl⟩⟩
      · rename_i hnone
        cases h
        refine ⟨rfl, .inl ⟨fun j hj => ?_, rfl⟩⟩
        rw [hnone] at hj
        cases hj
    · cases h

/-- What happens beside the calls. -/
def Slot.env (s : Slot) : ServerChoice → Option Slot
  | .exited k => some (s.kill k)
  | .closed k => some (s.setChild k fun c => { c with reading := false })
  | _ => none

end TinyRuntime.PyServer
