import TinyRuntime.Cache.Recipe
import TinyRuntime.Lib.Concurrent
import TinyRuntime.Worker.Supervisor
import TinyRuntime.Worker.Wire

/-!
# The Worker Manager

The source's `WorkerManager`: the book of slots, and the calls made on it. A slot is
what the book knows of a handle. What a slot shares with its supervisor and with the
callers that wait for it outlives the slot, and is kept in a cell of its own. Cells
are never given up, so the number of a cell is the number its handle was issued
under.

Under the lock of the book nothing waits, so a section under the lock is one effect.
Between two effects of a call the other calls move, the clock, and every supervisor.
A supervisor makes the moves of its own transition system. What it makes of the stop
flag is left to it.

A call can be dropped wherever it waits, for the lock as well as for a supervisor.
The locals of a call and the last field of the manager are for the statements. No
code reads them.

## Main definitions

* `Slot`, `Cell`, `Manager`: The book and the supervisors.
* `Manager.missing`: How a handle without a slot is classified.
* `Manager.reserve`, `Manager.enlist`, `Manager.submit`, `Manager.deadline`,
  `Manager.status`, `Manager.stop`, `Manager.remove`, `Manager.shutdown`,
  `Manager.clear`: The sections under the lock.
* `BookOp`, `BookOp.respond`: The effects.
* `ManagerCall.run`: The calls.
* `manager`: Any number of calls.
-/

namespace TinyRuntime

variable {V : Type}

def CAPACITY : Nat := 16

def QUEUE : Nat := 8

/-- In milliseconds. -/
def RESERVATION_LIFETIME : Nat := 30 * 1000

/-- The largest `u64`. -/
def U64_MAX : Nat := 2 ^ 64 - 1

/-- What the book knows of a handle. -/
structure Slot where
  reservedAt : Nat
  plan : Option WorkerPlan
  cached : Option Cached
  /-- Whether it has the sender of a queue. -/
  commands : Bool
  /-- What it shares. -/
  cell : Nat

/-- What a slot shares: the stop flag, the queue, and the published state, which is
    the supervisor's once there is one. -/
structure Cell (V : Type) where
  stop : Bool
  queue : List (Command V)
  state : State V
  supervisor : Option (Supervisor V)

/-- What is published. -/
def Cell.watch (c : Cell V) : State V :=
  match c.supervisor with
  | some s => s.world.state
  | none => c.state

/-- `send_modify`. -/
def Cell.sendModify (f : State V → State V) (c : Cell V) : Cell V :=
  match c.supervisor with
  | some s =>
      { c with supervisor := some { s with world := { s.world with state := f s.world.state } } }
  | none => { c with state := f c.state }

/-- Whether the supervisor has returned. -/
def Cell.returned (c : Cell V) : Bool :=
  match c.supervisor with
  | some { life := .closed, .. } => true
  | _ => false

/-- The book, and everything its slots have shared. -/
structure Manager (V : Type) where
  nonce : String
  issued : Nat
  terminal : Bool
  slots : List (WorkerHandle × Slot)
  cells : List (Cell V)
  now : Nat
  /-- The handles issued so far. -/
  handles : List WorkerHandle

/-- An empty manager. -/
def Manager.new (nonce : String) (now : Nat) : Manager V :=
  { nonce := nonce, issued := 0, terminal := false, slots := [], cells := [], now := now
    handles := [] }

/-! ## Handles -/

/-- A number without its sign. -/
def unsigned (text : List Char) : List Char :=
  if text.head? = some '+' then text.tail else text

/-- `str::parse::<u64>`: digits, with a sign in front or not. -/
def parseU64 (text : List Char) : Option Nat :=
  let digits := unsigned text
  if digits ≠ [] ∧ digits.all Char.isDigit ∧ Nat.ofDigitChars 10 digits 0 ≤ U64_MAX then
    some (Nat.ofDigitChars 10 digits 0)
  else none

/-- `strip_prefix`. -/
def stripPrefix (start text : List Char) : Option (List Char) :=
  if start <+: text then some (text.drop start.length) else none

namespace Manager

/-- The handle that is issued under a number. -/
def handle (m : Manager V) (n : Nat) : WorkerHandle :=
  m.nonce ++ ":" ++ toString n

/-- The slot of a handle. -/
def slot (m : Manager V) (handle : WorkerHandle) : Option Slot :=
  m.slots.lookup handle

/-- `WorkerManager::missing`. -/
def missing (m : Manager V) (handle : WorkerHandle) : WorkerOutcome V :=
  let known := ((stripPrefix (m.nonce ++ ":").toList handle.toList).bind parseU64).any fun n =>
    0 < n ∧ n ≤ m.issued
  outcome (if known then .closed else .unknown) none

/-! ## Under the lock -/

/-- What is published for a slot. -/
def watch (m : Manager V) (cell : Nat) : State V :=
  match m.cells[cell]? with
  | some c => c.watch
  | none => State.new .reserved

/-- A cell changed. -/
def modify (m : Manager V) (cell : Nat) (f : Cell V → Cell V) : Manager V :=
  { m with cells := m.cells.modify cell f }

/-- Slots dropped: the stop flag of each goes up. -/
def dropSlots (m : Manager V) (dropped : WorkerHandle × Slot → Bool) : Manager V :=
  { m with
    slots := m.slots.filter fun s => !dropped s
    cells := m.cells.mapIdx fun i c =>
      if (m.slots.filter dropped).any fun s => s.2.cell = i then { c with stop := true } else c }

/-- Whether a reservation has outlived its time. -/
def old (m : Manager V) (slot : Slot) : Bool :=
  RESERVATION_LIFETIME ≤ m.now - slot.reservedAt

/-- `Slot::expired`. -/
def expired (m : Manager V) (slot : Slot) : Bool :=
  slot.plan.isNone ∧ m.old slot

/-- Whether a slot is on its way out. -/
def leaving (m : Manager V) (slot : Slot) : Bool :=
  match m.cells[slot.cell]? with
  | some c => c.watch.closed || c.stop
  | none => false

/-- `reserve`. -/
def reserve (m : Manager V) : Except (WorkerOutcome V) WorkerHandle × Manager V :=
  if m.terminal then (.error (outcome .closed (some "manager_shutdown")), m)
  else
    let m := m.dropSlots fun s => !(!(m.watch s.2.cell).closed && (s.2.plan.isSome || !m.old s.2))
    if CAPACITY ≤ m.slots.length then (.error (outcome .busy (some "worker_capacity")), m)
    else if U64_MAX ≤ m.issued then (.error (outcome .failed (some "identity_exhausted")), m)
    else
      let m := { m with issued := m.issued + 1 }
      let slot : Slot :=
        { reservedAt := m.now, plan := none, cached := none, commands := false
          cell := m.cells.length }
      let cell : Cell V :=
        { stop := false, queue := [], state := State.new .reserved, supervisor := none }
      let handle := m.handle m.issued
      (.ok handle,
        { m with
          slots := m.slots ++ [(handle, slot)]
          cells := m.cells ++ [cell]
          handles := m.handles ++ [handle] })

/-- The slot of a handle replaced. -/
def putSlot (m : Manager V) (handle : WorkerHandle) (slot : Slot) : Manager V :=
  { m with slots := m.slots.map fun s => if s.1 = handle then (handle, slot) else s }

/-- The section of `prepare_inner`: an answer, or what to wait for. -/
def enlist (m : Manager V) (handle : WorkerHandle) (plan : WorkerPlan) (cached : Option Cached) :
    (WorkerOutcome V ⊕ Nat) × Manager V :=
  if m.terminal then (.inl (outcome .closed (some "manager_shutdown")), m)
  else
    match m.slot handle with
    | none => (.inl (m.missing handle), m)
    | some slot =>
        if m.leaving slot then (.inl (outcome .closed none), m)
        else
          match slot.plan with
          | some known =>
              if known ≠ plan ∨ slot.cached ≠ cached then
                (.inl (outcome .invalid (some "plan_conflict")), m)
              else (.inr slot.cell, m)
          | none =>
              if m.old slot then (.inl (outcome .closed (some "reservation_expired")), m)
              else
                let slot := { slot with plan := some plan, cached := cached, commands := true }
                (.inr slot.cell, (m.putSlot handle slot).modify slot.cell fun c =>
                  { c with supervisor := some (Supervisor.new plan cached m.now) })

/-- The section of `submit`: an answer, or the command is in the queue. -/
def submit (m : Manager V) (handle : WorkerHandle) (command : Command V) :
    Option (WorkerOutcome V) × Manager V :=
  if m.terminal then (some (outcome .closed (some "manager_shutdown")), m)
  else
    match m.slot handle with
    | none => (some (m.missing handle), m)
    | some slot =>
        if m.expired slot then (some (outcome .closed (some "reservation_expired")), m)
        else if m.leaving slot then (some (outcome .closed none), m)
        else if !slot.commands then (some (outcome .invalid (some "not_prepared")), m)
        else
          -- `try_send` fails if the queue is full or nobody takes from it any more.
          match m.cells[slot.cell]? with
          | some c =>
              if QUEUE ≤ c.queue.length ∨ c.returned then
                (some (outcome .busy (some "worker_queue")), m)
              else (none, m.modify slot.cell fun c => { c with queue := c.queue ++ [command] })
          | none => (some (outcome .busy (some "worker_queue")), m)

/-- The section of `request`: an answer, or the deadline. -/
def deadline (m : Manager V) (handle : WorkerHandle) : Except (WorkerOutcome V) Nat :=
  match m.slot handle with
  | none => .error (m.missing handle)
  | some slot =>
      if m.expired slot then .error (outcome .closed (some "reservation_expired"))
      else
        match slot.plan with
        | none => .error (outcome .invalid (some "not_prepared"))
        | some plan => .ok (m.now + plan.requestTimeoutMs)

/-- `status`. -/
def status (m : Manager V) (handle : WorkerHandle) : Except (WorkerOutcome V) WorkerStatus :=
  match m.slot handle with
  | none => .error (m.missing handle)
  | some slot =>
      if m.expired slot then .error (m.missing handle) else .ok (m.watch slot.cell).status

/-- A cleanup is called for again, and the supervisor told to stop. -/
def signal (c : Cell V) : Cell V :=
  { c.sendModify (fun s => { s with cleanupFailed := false }) with stop := true }

/-- `slots.remove`. -/
def remove (m : Manager V) (handle : WorkerHandle) : Manager V :=
  m.dropSlots fun s => s.1 = handle

/-- The first section of `stop`: an answer, or what to wait for. -/
def stop (m : Manager V) (handle : WorkerHandle) : (WorkerOutcome V ⊕ Nat) × Manager V :=
  match m.slot handle with
  | none => (.inl (m.missing handle), m)
  | some slot =>
      let m := m.modify slot.cell signal
      if !slot.commands then (.inl (outcome .complete none), m.remove handle)
      else (.inr slot.cell, m)

/-- The first section of `shutdown`: what to wait for. -/
def shutdown (m : Manager V) : List Nat × Manager V :=
  let m := { m with terminal := true }
  ((m.slots.filter fun s => s.2.commands).map fun s => s.2.cell,
    { m with
      cells := m.cells.mapIdx fun i c =>
        if m.slots.any fun s => s.2.cell = i then signal c else c })

/-- `slots.clear`. -/
def clear (m : Manager V) : Manager V :=
  m.dropSlots fun _ => true

/-! ## Waiting -/

/-- Whether a watch channel has lost its last sender: that of the slot, and that of the
    supervisor. -/
def deserted (m : Manager V) (cell : Nat) : Bool :=
  (m.slots.all fun s => s.2.cell ≠ cell) ∧
    (m.cells[cell]?.all fun c => c.supervisor.isNone || c.returned)

/-- The loop of `prepare_inner`, as soon as it ends. -/
def prepared (m : Manager V) (cell : Nat) : Option (WorkerOutcome V) :=
  if (m.watch cell).closed then some (outcome .closed none)
  else
    match (m.watch cell).prepared with
    | some prepared => some prepared
    | none =>
        if m.deserted cell then some (outcome .failed (some "supervisor_closed")) else none

/-- `wait_closed`, as soon as it ends. -/
def waitClosed (m : Manager V) (cell : Nat) : Option Bool :=
  if (m.watch cell).closed then some true
  else if (m.watch cell).cleanupFailed then some false
  else if m.deserted cell then some false
  else none

end Manager

/-! ## Calls -/

structure WorkerPrepare where
  handle : WorkerHandle
  plan : WorkerPlan

structure WorkerPrepareCached where
  handle : WorkerHandle
  plan : WorkerPlan
  recipe : CacheRecipe

inductive ManagerCall (V : Type)
  | reserve
  | prepare (request : WorkerPrepare)
  | prepareCached (request : WorkerPrepareCached)
  | start (handle : WorkerHandle)
  | request (request : WorkerRequest V)
  | status (handle : WorkerHandle)
  | stop (handle : WorkerHandle)
  | shutdown

/-- What a call returns. -/
inductive ManagerReply (V : Type)
  | handle (result : Except (WorkerOutcome V) WorkerHandle)
  | outcome (outcome : WorkerOutcome V)
  | status (result : Except (WorkerOutcome V) WorkerStatus)

/-- The effects of a call. -/
inductive BookOp (V : Type) : Type → Type
  | reserve : BookOp V (Except (WorkerOutcome V) WorkerHandle)
  | enlist (handle : WorkerHandle) (plan : WorkerPlan) (cached : Option Cached) :
      BookOp V (WorkerOutcome V ⊕ Nat)
  | prepared (cell : Nat) : BookOp V (WorkerOutcome V)
  | submit (handle : WorkerHandle) (command : Command V) : BookOp V (Option (WorkerOutcome V))
  /-- The reply, or that its sender was dropped. -/
  | response : BookOp V (Option (WorkerOutcome V))
  | deadline (handle : WorkerHandle) : BookOp V (Except (WorkerOutcome V) Nat)
  /-- Whether the timer of a request fires before what it waits for. -/
  | timedOut (deadline : Nat) : BookOp V Bool
  | status (handle : WorkerHandle) : BookOp V (Except (WorkerOutcome V) WorkerStatus)
  | stop (handle : WorkerHandle) : BookOp V (WorkerOutcome V ⊕ Nat)
  | waitClosed (cell : Nat) : BookOp V Bool
  | remove (handle : WorkerHandle) : BookOp V Unit
  | shutdown : BookOp V (List Nat)
  | clear : BookOp V Unit

/-- Everything waits: for the lock of the book, or for a supervisor. -/
def BookOp.suspends : ∀ β, BookOp V β → Bool
  | _, .timedOut _ => false
  | _, _ => true

/-- What the outside decides. -/
inductive ManagerChoice (V : Type)
  | pass
  /-- Time goes by. -/
  | tick (elapsed : Nat)
  /-- A supervisor makes a move. -/
  | supervise (cell : Nat) (move : Move V)
  /-- A supervisor takes the next command, whose caller may be gone. -/
  | take (cell : Nat) (replyClosed : Bool)
  /-- What a supervisor replies. -/
  | reply (reply : Option (WorkerOutcome V))
  | flag (b : Bool)

/-- The locals of a call: the cells it waits for, those it has seen closed, and what it
    has returned. -/
structure Caller (V : Type) where
  waits : List Nat
  seen : List Nat
  result : Option (ManagerReply V)

/-- The answer of an effect under a choice, and what it changes. -/
def BookOp.respond {β : Type} (op : BookOp V β) (w : Manager V × Caller V)
    (c : ManagerChoice V) : Option (β × Manager V × Caller V) :=
  let (m, l) := w
  match op with
  | .reserve =>
      let (r, m) := m.reserve
      some (r, m, l)
  | .enlist handle plan cached =>
      let (r, m) := m.enlist handle plan cached
      some (r, m, l)
  | .prepared cell => (m.prepared cell).map fun r => (r, m, l)
  | .submit handle command =>
      let (r, m) := m.submit handle command
      some (r, m, l)
  | .response =>
      match c with
      | .reply r => some (r, m, l)
      | _ => none
  | .deadline handle => some (m.deadline handle, m, l)
  | .timedOut due =>
      match c with
      | .flag b => if b ∧ m.now < due then none else some (b, m, l)
      | _ => none
  | .status handle => some (m.status handle, m, l)
  | .stop handle =>
      match m.stop handle with
      | (.inl r, m) => some (.inl r, m, l)
      | (.inr cell, m) => some (.inr cell, m, { l with waits := [cell] })
  | .waitClosed cell => (m.waitClosed cell).map fun r =>
      (r, m, if r then { l with seen := cell :: l.seen } else l)
  | .remove handle => some ((), m.remove handle, l)
  | .shutdown =>
      let (r, m) := m.shutdown
      some (r, m, { l with waits := r })
  | .clear => some ((), m.clear, l)

/-- What a manager is made with: the codec of its workers, the approved scopes, and the
    JSON value that parameters are. -/
structure ManagerSite (V : Type) where
  codec : Codec V
  serializer : Document.Serializer
  document : V → Document
  scopes : List WorkerCacheScope

namespace ManagerCall

/-- `prepare_inner`. -/
def prepareInner (handle : WorkerHandle) (plan : WorkerPlan) (cached : Option Cached) :
    Prog (BookOp V) (WorkerOutcome V) :=
  match Validate.plan plan with
  | .error reason => pure (outcome .invalid (some reason))
  | .ok _ => do
      match ← Prog.op (.enlist handle plan cached) with
      | .inl answer => pure answer
      | .inr cell => Prog.op (.prepared cell)

/-- `prepare_cached`. -/
def runPrepareCached (site : ManagerSite V) (request : WorkerPrepareCached) :
    Prog (BookOp V) (WorkerOutcome V) :=
  match Cache.recipe request.recipe with
  | .error reason => pure (outcome .invalid (some reason))
  | .ok _ =>
      match site.scopes.find? fun scope => scope.id = request.recipe.scope with
      | none => pure (outcome .invalid (some "cache_scope_unapproved"))
      | some scope =>
          prepareInner request.handle request.plan
            (some { recipe := request.recipe, root := scope.root })

/-- `submit`. -/
def runSubmit (handle : WorkerHandle) (command : Command V) :
    Prog (BookOp V) (WorkerOutcome V) := do
  match ← Prog.op (.submit handle command) with
  | some answer => pure answer
  | none => do
      match ← Prog.op .response with
      | some reply => pure reply
      | none => pure (outcome .closed (some "supervisor_closed"))

/-- `request`. -/
def runRequest (site : ManagerSite V) (request : WorkerRequest V) :
    Prog (BookOp V) (WorkerOutcome V) :=
  let params := site.document request.params
  match Validate.request site.serializer { request with params := params } with
  | .error reason => pure (outcome .invalid (some reason))
  | .ok _ => do
      match ← Prog.op (.deadline request.handle) with
      | .error answer => pure answer
      | .ok due => do
          let command := Command.request request due false
          match ← (runSubmit request.handle command).cut (.timedOut due) BookOp.suspends with
          | some answer => pure answer
          | none => pure (outcome .failed (some "request_timeout"))

/-- `stop`. -/
def runStop (handle : WorkerHandle) : Prog (BookOp V) (WorkerOutcome V) := do
  match ← Prog.op (.stop handle) with
  | .inl answer => pure answer
  | .inr cell => do
      if ← Prog.op (.waitClosed cell) then do
        Prog.op (.remove handle)
        pure (outcome .complete none)
      else pure (outcome .failed (some "cleanup_failed"))

/-- The loop of `shutdown`: whether every supervisor has closed. -/
def waitAll : List Nat → Bool → Prog (BookOp V) Bool
  | [], complete => pure complete
  | cell :: cells, complete => do
      let closed ← Prog.op (.waitClosed cell)
      waitAll cells (complete && closed)

/-- `shutdown`. -/
def runShutdown : Prog (BookOp V) (WorkerOutcome V) := do
  let cells ← Prog.op .shutdown
  if ← waitAll cells true then do
    Prog.op .clear
    pure (outcome .complete none)
  else pure (outcome .failed (some "cleanup_failed"))

/-- A call. -/
def run (site : ManagerSite V) : ManagerCall V → Prog (BookOp V) (ManagerReply V)
  | reserve => do return .handle (← Prog.op .reserve)
  | prepare r => do return .outcome (← prepareInner r.handle r.plan none)
  | prepareCached r => do return .outcome (← runPrepareCached site r)
  | start handle => do return .outcome (← runSubmit handle .start)
  | request r => do return .outcome (← runRequest site r)
  | status handle => do return .status (← Prog.op (.status handle))
  | stop handle => do return .outcome (← runStop handle)
  | shutdown => do return .outcome (← runShutdown)

end ManagerCall

/-- Time, and the supervisors. -/
def Manager.env [BEq V] (codec : Codec V) (m : Manager V) : ManagerChoice V → Option (Manager V)
  | .tick elapsed => some { m with now := m.now + elapsed }
  | .supervise cell move =>
      match m.cells[cell]? with
      | some { supervisor := some s, stop, .. } =>
          -- The loop of `serve` ends with the stop flag.
          match move, stop with
          | .take _, _ => none
          | .leave, false => none
          | _, _ => (s.move codec move).map fun s =>
              m.modify cell fun c => { c with supervisor := some s }
      | _ => none
  | .take cell replyClosed =>
      match m.cells[cell]? with
      | some { supervisor := some s, queue := command :: queue, .. } =>
          let command := match command with
            | .start => .start
            | .request request deadline _ => .request request deadline replyClosed
          (s.move codec (.take command)).map fun s =>
            m.modify cell fun c => { c with supervisor := some s, queue := queue }
      | _ => none
  | _ => none

/-- Any number of calls. -/
def manager [BEq V] (site : ManagerSite V) :
    Concurrent.Calls (BookOp V) (Manager V) (Caller V) (ManagerCall V) (ManagerChoice V)
      (ManagerReply V) where
  handler := { respond := fun op => op.respond }
  suspends := BookOp.suspends
  main := ManagerCall.run site
  fresh _ := { waits := [], seen := [], result := none }
  orphans _ _ := []
  ended result l := { l with result := result }
  release _ := none
  env := Manager.env site.codec

/-- The manager with the calls made so far. -/
abbrev Manager.Config (V : Type) :=
  Concurrent.Config (BookOp V) (Manager V) (Caller V) (ManagerReply V)

end TinyRuntime
