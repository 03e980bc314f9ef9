import TinyRuntime.Bus.Worker
import TinyRuntime.Lib.Program

/-!
# Supervisor State and Effects

What one supervisor owns, and the effects its code performs.

An `Actor` has the fields of the source's struct. A native process is known by
the number of its spawn, so two spawns of the same command are two processes.
A `State` is the value of the watch channel the manager reads.

`World` puts the two together with what lies outside the supervisor and is
changed by it alone: its private directory, the native children it has spawned
and not yet reaped, whether its cache session holds the scope lock. `seen` is
the last time the clock was read, which is all that is known of the clock: the
next reading is no earlier. `commands` counts the commands taken from the queue
and `log` is the history of what was done; no code reads either.

An `Op` is one effect. `respond` gives its answers, and the `Choice` is what the
outside decides: what the clock shows, whether the stop flag is up, whether a
native call fails and why, which bytes the worker emits. Every choice that the
source's callees can make is there, in any order and at any time.

The two effects `beginWrite` and `finishWrite` are one `write_all`: from its
first poll a prefix of the frame may be on the wire, and it completes later or
is dropped.

## Main definitions

* `State`, `Session`, `Actor`, `World`: The state.
* `Op`, `Choice`, `respond`: The effects and their answers.
* `native`: The handler of the supervisor's programs.
* `Answers`: The answers and changes of an effect as a relation.
* `suspends`: The effects at which a future can be dropped.

## Theorems

* `answers_of_respond`, `respond_of_answers`: What each effect can answer and
  change, over all choices.
* `wp_native`: The weakest precondition of one effect.
-/

namespace TinyRuntime

variable {V : Type}

/-- The value of a supervisor's watch channel. -/
structure State (V : Type) where
  status : WorkerStatus
  prepared : Option (WorkerOutcome V)
  closed : Bool
  cleanupFailed : Bool

/-- The value a watch channel starts with. -/
def State.new (phase : WorkerPhase) : State V :=
  { status := { phase := phase, server := ServerStatus.disabled "worker_not_started" }
    prepared := none
    closed := false
    cleanupFailed := false }

/-- A recipe with the approved root of its scope. -/
structure Cached where
  recipe : CacheRecipe
  root : String
deriving DecidableEq, Repr

/-- The owned staging directory of a cache session. The handle is dropped
    before removal, the name and the identity are kept for a retry. -/
structure Staging where
  directory : Option Nat
  name : String
  identity : Nat
deriving DecidableEq, Repr

/-- A cache session, kept until native reaping and staging cleanup both
    succeed. Directory handles and file identities are inode numbers. -/
structure Session where
  root : Nat
  path : String
  lock : Option Nat
  lockIdentity : Nat
  recipeIdentity : CacheArtifact
  staging : Option Staging
  staged : List String
  cached : Bool
  legacy : Bool
deriving DecidableEq, Repr

/-- The fields of one supervisor. -/
structure Actor (V : Type) where
  plan : WorkerPlan
  directory : Bool
  process : Option Nat
  preparation : Option Nat
  cached : Option Cached
  cache : Option Session
  readyBackends : List String
  lastUsed : Nat
  retryAfter : Option Nat
  replies : List (Nat × WorkerRequest V × WorkerOutcome V)
  highest : Nat

/-- A command of the supervisor's queue. A request carries its deadline and
    whether its caller still waits for the reply. -/
inductive Command (V : Type)
  | start
  | request (request : WorkerRequest V) (deadline : Nat) (replyClosed : Bool)

/-- What a supervisor has done. -/
inductive Event (V : Type)
  | spawned (p : Nat)
  | reaped (p : Nat)
  | attempted (command : Nat) (request : WorkerRequest V)
  | sent (command p : Nat) (request : ServerRequest V)
  | received (p : Nat) (body : List UInt8)
  | installed
  | adopted
  | published
  | replied (command : Nat) (outcome : WorkerOutcome V)

/-- A supervisor together with what it changes outside itself. -/
structure World (V : Type) where
  actor : Actor V
  state : State V
  dir : Bool
  live : List Nat
  locked : Bool
  fresh : Nat
  seen : Nat
  commands : Nat
  log : List (Event V)

/-- The effects of the supervisor's code. -/
inductive Op (V : Type) : Type → Type
  /-- `Instant::now()`. -/
  | now : Op V Nat
  /-- `*self.stop.borrow()`. -/
  | stopped : Op V Bool
  /-- Whether a timer set to `deadline` fires before the pending future. -/
  | expired (deadline : Nat) : Op V Bool
  /-- Reading the supervisor's own fields. -/
  | self : Op V (Actor V)
  /-- Assigning the supervisor's own fields. -/
  | update (f : Actor V → Actor V) : Op V Unit
  /-- `self.state.borrow()`. -/
  | state : Op V (State V)
  /-- `self.state.send_modify(f)`. -/
  | sendModify (f : State V → State V) : Op V Unit
  /-- `install_script`, creating and opening the private directory. -/
  | installScript : Op V (Except String Unit)
  /-- `remove_dir_all` of the private directory; true when it is gone. -/
  | removeRoot : Op V Bool
  /-- A native spawn of the plan's command, assigned to `process`. -/
  | spawnProcess : Op V (Except String Unit)
  /-- A native spawn of a preparation command, assigned to `preparation`. -/
  | spawnPreparation (step : WorkerCommand) : Op V (Except String Unit)
  /-- `Process::is_alive`. -/
  | isAlive (p : Nat) : Op V Bool
  /-- `attempted = true`. -/
  | attempt (request : WorkerRequest V) : Op V Unit
  /-- The first poll of `write_all` on a worker's stdin. -/
  | beginWrite (p : Nat) (request : ServerRequest V) : Op V Unit
  /-- The end of that `write_all`. -/
  | finishWrite (p : Nat) : Op V (Except String Unit)
  | flush (p : Nat) : Op V (Except String Unit)
  /-- `line`: one frame of a worker's stdout, without its newline. -/
  | line (p : Nat) : Op V (Except String (List UInt8))
  /-- `Preparation::execute`. -/
  | execute (p : Nat) (deadline : Nat) : Op V (Except String Unit)
  /-- `reap`, the native part of `cleanup`. -/
  | reap (p : Nat) : Op V (Except String Unit)
  /-- `Session::acquire`, assigned to `cache`. -/
  | acquire (cached : Cached) (deadline : Nat) : Op V (Except String Unit)
  | checkBinding : Op V (Except String Unit)
  | install (recipe : CacheRecipe) : Op V (Except String Unit)
  | adoptLegacy (recipe : CacheRecipe) : Op V (Except String Unit)
  | publish (recipe : CacheRecipe) : Op V (Except String Unit)
  /-- `Session::cleanup`. -/
  | cleanupCache : Op V (Except String Unit)
  /-- `tokio::time::sleep`. -/
  | sleep (millis : Nat) : Op V Unit
  /-- Answering the caller of the current command. -/
  | reply (outcome : WorkerOutcome V) : Op V Unit

/-- The effects at which a pending future can be dropped. -/
def suspends : ∀ β, Op V β → Bool
  | _, .finishWrite _ => true
  | _, .flush _ => true
  | _, .line _ => true
  | _, .execute _ _ => true
  | _, .reap _ => true
  | _, .acquire _ _ => true
  | _, .installScript => true
  | _, .removeRoot => true
  | _, .sleep _ => true
  | _, _ => false

/-- What the outside decides when an effect is answered. -/
inductive Choice
  /-- Nothing to decide. -/
  | pass
  | time (t : Nat)
  | flag (b : Bool)
  | result (r : Except String Unit)
  /-- The bytes of a frame before its newline. -/
  | frame (r : Except String (List UInt8))
  /-- What an operation made of the cache session. -/
  | session (s : Session) (r : Except String Unit)

/-- A successful native spawn: the next number, not yet reaped. -/
def World.spawn (w : World V) : World V :=
  { w with
    live := w.fresh :: w.live
    fresh := w.fresh + 1
    log := w.log ++ [Event.spawned w.fresh] }

/-- A step of the supervisor entered in its history. -/
def World.note (w : World V) (e : Event V) : World V :=
  { w with log := w.log ++ [e] }

/-- A child and its whole group reaped. -/
def World.reap (w : World V) (p : Nat) : World V :=
  ({ w with live := w.live.filter (· ≠ p) } : World V).note (.reaped p)

def World.withCache (w : World V) (s : Session) : World V :=
  { w with actor := { w.actor with cache := some s } }

/-- The answer of an effect under a choice, and what it changes. -/
def respond {β : Type} (op : Op V β) (w : World V) (c : Choice) : Option (β × World V) :=
  match op with
  | .now =>
      match c with
      | .time t => if w.seen ≤ t then some (t, { w with seen := t }) else none
      | _ => none
  | .stopped | .isAlive _ =>
      match c with
      | .flag b => some (b, w)
      | _ => none
  | .expired d =>
      match c with
      | .pass => some (false, w)
      | .time t => if w.seen ≤ t ∧ d ≤ t then some (true, { w with seen := t }) else none
      | _ => none
  | .self => some (w.actor, w)
  | .update f => some ((), { w with actor := f w.actor })
  | .state => some (w.state, w)
  | .sendModify f => some ((), { w with state := f w.state })
  | .installScript =>
      match c with
      | .result (.ok ()) =>
          some (.ok (), { w with dir := true, actor := { w.actor with directory := true } })
      | .result (.error reason) => some (.error reason, { w with dir := true })
      | _ => none
  | .removeRoot =>
      match c with
      | .flag true => some (true, { w with dir := false })
      | .flag false => some (false, w)
      | _ => none
  | .spawnProcess =>
      match c with
      | .result (.ok ()) =>
          some (.ok (), { w.spawn with actor := { w.actor with process := some w.fresh } })
      | .result (.error reason) => some (.error reason, w)
      | _ => none
  | .spawnPreparation _ =>
      match c with
      | .result (.ok ()) =>
          some (.ok (), { w.spawn with actor := { w.actor with preparation := some w.fresh } })
      | .result (.error reason) => some (.error reason, w)
      | _ => none
  | .attempt request => some ((), w.note (.attempted w.commands request))
  | .beginWrite p request => some ((), w.note (.sent w.commands p request))
  | .finishWrite _ | .flush _ | .execute _ _ | .checkBinding =>
      match c with
      | .result r => some (r, w)
      | _ => none
  | .line p =>
      match c with
      | .frame (.ok body) => some (.ok body, w.note (.received p body))
      | .frame (.error reason) => some (.error reason, w)
      | _ => none
  | .reap p =>
      match c with
      | .result (.ok ()) =>
          some (.ok (), w.reap p)
      | .result (.error reason) => some (.error reason, w)
      | _ => none
  | .acquire _ _ =>
      match c with
      | .session s (.ok ()) => some (.ok (), { w.withCache s with locked := true })
      | .result (.error reason) => some (.error reason, w)
      | _ => none
  | .install _ =>
      match c with
      | .session s r => some (r, (w.withCache s).note .installed)
      | _ => none
  | .adoptLegacy _ =>
      match c with
      | .session s r => some (r, (w.withCache s).note .adopted)
      | _ => none
  | .publish _ =>
      match c with
      | .result r => some (r, w.note .published)
      | _ => none
  | .cleanupCache =>
      match c with
      | .session s (.ok ()) => some (.ok (), { w.withCache s with locked := false })
      | .session s (.error reason) => some (.error reason, w.withCache s)
      | _ => none
  | .sleep _ => some ((), w)
  | .reply o => some ((), w.note (.replied w.commands o))

/-- The handler of the supervisor's programs. -/
def native : Handler (Op V) (World V) Choice where
  respond := respond

/-- What an effect can answer and change, over all choices. -/
def Answers {β : Type} (op : Op V β) (w : World V) (b : β) (t : World V) : Prop :=
  match op with
  | .now => w.seen ≤ b ∧ t = { w with seen := b }
  | .stopped | .isAlive _ | .finishWrite _ | .flush _ | .execute _ _
  | .checkBinding | .sleep _ => t = w
  | .line p =>
      (∃ body, b = .ok body ∧ t = w.note (.received p body))
        ∨ (∃ reason, b = .error reason) ∧ t = w
  | .expired d =>
      b = false ∧ t = w ∨ b = true ∧ ∃ now, w.seen ≤ now ∧ d ≤ now ∧ t = { w with seen := now }
  | .self => b = w.actor ∧ t = w
  | .update f => t = { w with actor := f w.actor }
  | .state => b = w.state ∧ t = w
  | .sendModify f => t = { w with state := f w.state }
  | .installScript =>
      b = .ok () ∧ t = { w with dir := true, actor := { w.actor with directory := true } }
        ∨ (∃ reason, b = .error reason) ∧ t = { w with dir := true }
  | .removeRoot => b = true ∧ t = { w with dir := false } ∨ b = false ∧ t = w
  | .spawnProcess =>
      b = .ok () ∧ t = { w.spawn with actor := { w.actor with process := some w.fresh } }
        ∨ (∃ reason, b = .error reason) ∧ t = w
  | .spawnPreparation _ =>
      b = .ok () ∧ t = { w.spawn with actor := { w.actor with preparation := some w.fresh } }
        ∨ (∃ reason, b = .error reason) ∧ t = w
  | .attempt request => t = w.note (.attempted w.commands request)
  | .beginWrite p request => t = w.note (.sent w.commands p request)
  | .reap p =>
      b = .ok () ∧ t = w.reap p
        ∨ (∃ reason, b = .error reason) ∧ t = w
  | .acquire _ _ =>
      b = .ok () ∧ (∃ s, t = { w.withCache s with locked := true })
        ∨ (∃ reason, b = .error reason) ∧ t = w
  | .install _ => ∃ s, t = (w.withCache s).note .installed
  | .adoptLegacy _ => ∃ s, t = (w.withCache s).note .adopted
  | .publish _ => t = w.note .published
  | .cleanupCache =>
      b = .ok () ∧ (∃ s, t = { w.withCache s with locked := false })
        ∨ (∃ reason, b = .error reason) ∧ ∃ s, t = w.withCache s
  | .reply o => t = w.note (.replied w.commands o)

theorem answers_of_respond {β : Type} {op : Op V β} {w t : World V} {c : Choice} {b : β}
    (h : respond op w c = some (b, t)) : Answers op w b t := by
  cases op with
  | now | expired | installScript | removeRoot | spawnProcess | spawnPreparation | reap
  | acquire | cleanupCache | stopped | isAlive | finishWrite | flush | line | execute
  | checkBinding | install | adoptLegacy | publish =>
      simp only [respond] at h
      simp only [Answers]
      grind
  | _ =>
      cases h
      simp only [Answers, and_self]

/-- Every such answer is given under some choice. -/
theorem respond_of_answers {β : Type} {op : Op V β} {w t : World V} {b : β}
    (h : Answers op w b t) : ∃ c, respond op w c = some (b, t) := by
  cases op with
  | now => exact ⟨.time b, by simp only [respond, if_pos h.1, h.2]⟩
  | expired d =>
      rcases h with ⟨rfl, rfl⟩ | ⟨rfl, now, h, hd, rfl⟩
      · exact ⟨.pass, rfl⟩
      · exact ⟨.time now, by simp only [respond, if_pos (And.intro h hd)]⟩
  | stopped | isAlive => exact ⟨.flag b, by rw [h]; rfl⟩
  | self | state => exact ⟨.pass, by rw [h.1, h.2]; rfl⟩
  | update | sendModify | sleep | attempt | beginWrite | reply => exact ⟨.pass, by rw [h]; rfl⟩
  | finishWrite | flush | execute | checkBinding | publish => exact ⟨.result b, by rw [h]; rfl⟩
  | line =>
      rcases h with ⟨body, rfl, rfl⟩ | ⟨⟨reason, rfl⟩, rfl⟩
      · exact ⟨.frame (.ok body), rfl⟩
      · exact ⟨.frame (.error reason), rfl⟩
  | removeRoot =>
      rcases h with ⟨rfl, rfl⟩ | ⟨rfl, rfl⟩
      · exact ⟨.flag true, rfl⟩
      · exact ⟨.flag false, rfl⟩
  | installScript | spawnProcess | spawnPreparation | reap =>
      rcases h with ⟨rfl, rfl⟩ | ⟨⟨reason, rfl⟩, rfl⟩
      · exact ⟨.result (.ok ()), rfl⟩
      · exact ⟨.result (.error reason), rfl⟩
  | acquire =>
      rcases h with ⟨rfl, s, rfl⟩ | ⟨⟨reason, rfl⟩, rfl⟩
      · exact ⟨.session s (.ok ()), rfl⟩
      · exact ⟨.result (.error reason), rfl⟩
  | install | adoptLegacy =>
      rcases h with ⟨s, rfl⟩
      exact ⟨.session s b, rfl⟩
  | cleanupCache =>
      rcases h with ⟨rfl, s, rfl⟩ | ⟨⟨reason, rfl⟩, s, rfl⟩
      · exact ⟨.session s (.ok ()), rfl⟩
      · exact ⟨.session s (.error reason), rfl⟩

/-- The weakest precondition of one effect. -/
theorem wp_native {β : Type} {op : Op V β} {A : ∀ β, Op V β → World V → Prop}
    {Q : β → World V → Prop} {w : World V} :
    (Prog.op op).wp native A Q w ↔ A _ op w ∧ ∀ b t, Answers op w b t → Q b t := by
  refine and_congr_right fun _ => ⟨?_, ?_⟩
  · intro h b t ha
    rcases respond_of_answers ha with ⟨c, hc⟩
    exact h c b t hc
  · intro h c b t hr
    exact h b t (answers_of_respond hr)

end TinyRuntime
