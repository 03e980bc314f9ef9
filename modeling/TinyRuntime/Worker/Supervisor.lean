import TinyRuntime.Worker.Actor
import TinyRuntime.Lib.Transition

/-!
# The Supervisor as a Transition System

The source's `run`: preparation, then `serve`, the loop that answers commands
and ticks, then the loop that releases everything and removes the private
directory until both have succeeded.

A supervisor is a `World` together with where its code stands, which between
two effects is the rest of a program. Every effect is a step of its own, so
the manager, the clock and the worker move between any two of them.

The loop of `serve` picks its next branch from outside: whether a command is
there, a tick is due or the stop flag is up is not its own choice. Leaving the
loop is always offered, as is a panic (`unwind`), which the source catches
around `serve`.

## Main definitions

* `Life`: Where a supervisor's code stands.
* `Supervisor`: The state and the code.
* `supervise`: What a tick does.
* `serveCommand`: What a command does.
* `closePass`: One pass of the closing loop.
* `supervisor`: The transition system.
* `Contract`: What has to be shown of each program for an invariant of all runs.
* `Supervisor.Holds`: The invariant a contract establishes.

## Theorems

* `Contract.always`: What the invariant says of the current state.
* `Contract.move`: One step keeps the invariant.
* `Contract.reachable`: The invariant holds in every reachable state.
* `Supervisor.answers_of_move`: A step is one effect, under what is asserted of it.
-/

namespace TinyRuntime

variable {V : Type}

/-- Preparation, with its outcome published. -/
def Actor.servePrepare : Prog (Op V) (WorkerOutcome V) := do
  let prepared ← Actor.prepare
  let a ← Prog.op .self
  Prog.op (.sendModify (State.publishPrepared a.plan prepared))
  pure prepared

/-- Whether there is a worker that has exited. -/
def Actor.unusable (a : Actor V) : Prog (Op V) Bool :=
  match a.process with
  | none => pure false
  | some p => do
      let alive ← Prog.op (.isAlive p)
      pure (!alive)

/-- A tick releases a worker that has exited and what a failed preparation
    still owns. -/
def Actor.supervise (prepared : WorkerOutcome V) : Prog (Op V) Unit := do
  let unusable ← Actor.unusable (← Prog.op .self)
  let a ← Prog.op .self
  let failedPreparation := prepared.kind ≠ .complete ∧ (a.preparation.isSome ∨ a.cache.isSome)
  if unusable ∨ failedPreparation then do
    let _ ← Actor.cleanup.run
  else pure ()

/-- One command taken from the queue. A request whose caller is gone is
    skipped. -/
def Actor.serveCommand [BEq V] (codec : Codec V) : Command V → Prog (Op V) Unit
  | .start => do
      let result ← Actor.start codec
      Prog.op (.reply result)
  | .request request deadline replyClosed =>
      if replyClosed then pure ()
      else do
        let result ← Actor.request codec request deadline
        Prog.op (.reply result)

/-- What the closing loop publishes when it is done. -/
def State.close (s : State V) : State V :=
  { s with
    closed := true
    status := { phase := .closed, server := { s.status.server with running := false } } }

/-- Release everything owned, then the private directory. -/
def Actor.release : Prog (Op V) Bool := do
  match ← Actor.cleanup.run with
  | .error _ => pure false
  | .ok () => Prog.op .removeRoot

/-- One pass of the closing loop; true when it was the last one. -/
def Actor.closePass : Prog (Op V) Bool := do
  if ← Actor.release then do
    Prog.op (.sendModify State.close)
    pure true
  else do
    Prog.op (.sendModify fun s => { s with cleanupFailed := true })
    Prog.op (.sleep 10)
    pure false

/-- Where a supervisor's code stands. -/
inductive Life (V : Type)
  | preparing (p : Prog (Op V) (WorkerOutcome V))
  /-- At the head of the loop of `serve`. -/
  | idle (prepared : WorkerOutcome V)
  | busy (prepared : WorkerOutcome V) (p : Prog (Op V) Unit)
  | closing (p : Prog (Op V) Bool)
  | closed

/-- A supervisor between two effects. -/
structure Supervisor (V : Type) where
  world : World V
  life : Life V

/-- The steps of a supervisor. -/
inductive Move (V : Type)
  /-- One effect of the program at hand. -/
  | perform (c : Choice)
  /-- The program at hand has returned. -/
  | settle
  | tick
  | take (command : Command V)
  /-- The stop flag, or a closed queue, ends the loop of `serve`. -/
  | leave
  /-- A panic inside `serve`. -/
  | unwind

/-- A supervisor as it is spawned for a plan. -/
def Supervisor.new (plan : WorkerPlan) (cached : Option Cached) (now : Nat) : Supervisor V :=
  { world :=
      { actor :=
          { plan := plan, directory := false, process := none, preparation := none
            cached := cached, cache := none, readyBackends := [], lastUsed := now
            retryAfter := none, replies := [], highest := 0 }
        state := State.new .preparing
        dir := false, live := [], locked := false, fresh := 0, seen := now
        commands := 0, log := [] }
    life := .preparing Actor.servePrepare }

/-- One step of a supervisor. -/
def Supervisor.move [BEq V] (codec : Codec V) (s : Supervisor V) : Move V → Option (Supervisor V)
  | .perform c =>
      match s.life with
      | .preparing p =>
          (p.advance native s.world c).map fun r => { world := r.2, life := .preparing r.1 }
      | .busy prepared p =>
          (p.advance native s.world c).map fun r => { world := r.2, life := .busy prepared r.1 }
      | .closing p =>
          (p.advance native s.world c).map fun r => { world := r.2, life := .closing r.1 }
      | _ => none
  | .settle =>
      match s.life with
      | .preparing (.done prepared) => some { s with life := .idle prepared }
      | .busy prepared (.done ()) => some { s with life := .idle prepared }
      | .closing (.done true) => some { s with life := .closed }
      | .closing (.done false) => some { s with life := .closing Actor.closePass }
      | _ => none
  | .tick =>
      match s.life with
      | .idle prepared => some { s with life := .busy prepared (Actor.supervise prepared) }
      | _ => none
  | .take command =>
      match s.life with
      | .idle prepared =>
          some { world := { s.world with commands := s.world.commands + 1 }
                 life := .busy prepared (Actor.serveCommand codec command) }
      | _ => none
  | .leave =>
      match s.life with
      | .idle _ => some { s with life := .closing Actor.closePass }
      | _ => none
  | .unwind =>
      match s.life with
      | .preparing _ | .busy _ _ => some { s with life := .closing Actor.closePass }
      | _ => none

/-- The runs of one supervisor. -/
def supervisor [BEq V] (codec : Codec V) (plan : WorkerPlan) (cached : Option Cached) :
    Transition.System (Supervisor V) (Move V) where
  init s := ∃ now, s = Supervisor.new plan cached now
  step s m t := s.move codec m = some t

/-! ## Invariants -/

/-- A proof obligation for each program of the supervisor. Every effect is
    performed in a state that meets `A`. `C` holds in every state, `S` whenever
    `serve` is between two of its branches, `D` once the closing loop is done. -/
structure Contract [BEq V] (codec : Codec V) (plan : WorkerPlan) (cached : Option Cached)
    (A : ∀ β, Op V β → World V → Prop) (C S D : World V → Prop) : Prop where
  asserted : ∀ β (op : Op V β) w, A β op w → C w
  settled : ∀ w, S w → C w
  closed : ∀ w, D w → C w
  prepare : ∀ now, Actor.servePrepare.wp native A (fun _ t => S t)
    (Supervisor.new plan cached now).world
  tick : ∀ prepared w, S w → (Actor.supervise prepared).wp native A (fun _ t => S t) w
  command : ∀ command w, S w →
    (Actor.serveCommand codec command).wp native A (fun _ t => S t)
      { w with commands := w.commands + 1 }
  close : ∀ w, C w → Actor.closePass.wp native A (fun b t => if b then D t else C t) w

/-- The invariant of a supervisor under a contract: what is left of the program
    at hand still establishes what the program was started for. -/
def Supervisor.Holds (A : ∀ β, Op V β → World V → Prop) (C S D : World V → Prop)
    (s : Supervisor V) : Prop :=
  match s.life with
  | .preparing p => p.wp native A (fun _ t => S t) s.world
  | .idle _ => S s.world
  | .busy _ p => p.wp native A (fun _ t => S t) s.world
  | .closing p => p.wp native A (fun b t => if b then D t else C t) s.world
  | .closed => D s.world

section Contract

variable [BEq V] {codec : Codec V} {plan : WorkerPlan} {cached : Option Cached}
  {A : ∀ β, Op V β → World V → Prop} {C S D : World V → Prop}

/-- The invariant implies the condition of every state. -/
theorem Contract.always (K : Contract codec plan cached A C S D) {s : Supervisor V}
    (h : s.Holds A C S D) : C s.world := by
  rcases s with ⟨w, _ | _ | _ | _ | _⟩
  · exact Prog.wp_point K.asserted (fun _ => K.settled) h
  · exact K.settled w h
  · exact Prog.wp_point K.asserted (fun _ => K.settled) h
  · refine Prog.wp_point K.asserted (fun b t ht => ?_) h
    cases b with
    | true => exact K.closed t ht
    | false => exact ht
  · exact K.closed w h

theorem Contract.move (K : Contract codec plan cached A C S D) {s t : Supervisor V}
    {m : Move V} (h : s.Holds A C S D) (hm : s.move codec m = some t) : t.Holds A C S D := by
  have hC := K.always h
  cases m with
  | perform c =>
      rcases s with ⟨w, life⟩
      cases life with
      | idle prepared => cases hm
      | closed => cases hm
      | preparing p =>
          simp only [Supervisor.move, Option.map_eq_some_iff] at hm
          rcases hm with ⟨⟨q, u⟩, hs, rfl⟩
          exact Prog.wp_step hs h
      | busy prepared p =>
          simp only [Supervisor.move, Option.map_eq_some_iff] at hm
          rcases hm with ⟨⟨q, u⟩, hs, rfl⟩
          exact Prog.wp_step hs h
      | closing p =>
          simp only [Supervisor.move, Option.map_eq_some_iff] at hm
          rcases hm with ⟨⟨q, u⟩, hs, rfl⟩
          exact Prog.wp_step hs h
  | settle =>
      rcases s with ⟨w, _ | _ | _ | _ | _⟩
      · rename_i p
        cases p with
        | done prepared =>
            cases hm
            exact h
        | perform e k => cases hm
      · cases hm
      · rename_i prepared p
        cases p with
        | done u =>
            cases hm
            exact h
        | perform e k => cases hm
      · rename_i p
        cases p with
        | done b =>
            cases b with
            | true =>
                cases hm
                exact h
            | false =>
                cases hm
                exact K.close w hC
        | perform e k => cases hm
      · cases hm
  | tick =>
      rcases s with ⟨w, _ | _ | _ | _ | _⟩ <;> cases hm
      exact K.tick _ w h
  | take command =>
      rcases s with ⟨w, _ | _ | _ | _ | _⟩ <;> cases hm
      exact K.command command w h
  | leave =>
      rcases s with ⟨w, _ | _ | _ | _ | _⟩ <;> cases hm
      exact K.close w hC
  | unwind =>
      rcases s with ⟨w, _ | _ | _ | _ | _⟩ <;> cases hm
      · exact K.close w hC
      · exact K.close w hC

theorem Contract.reachable (K : Contract codec plan cached A C S D) {s : Supervisor V}
    (h : Transition.Reachable (supervisor codec plan cached) s) : s.Holds A C S D := by
  refine Transition.invariant (fun s => s.Holds A C S D) ?_ ?_ h
  · rintro s ⟨now, rfl⟩
    exact K.prepare now
  · intro s m t _ hs hm
    exact K.move hs hm

/-- A step is one effect under what is asserted of it, or leaves everything but
    the count of commands alone. -/
theorem Supervisor.answers_of_move {s t : Supervisor V} {m : Move V} (h : s.Holds A C S D)
    (hm : s.move codec m = some t) :
    (∃ (β : Type) (op : Op V β) (b : β), A β op s.world ∧ Answers op s.world b t.world) ∨
      t.world = { s.world with commands := t.world.commands } := by
  have hadvance : ∀ {α : Type} (p q : Prog (Op V) α) (Q : α → World V → Prop) (u : World V)
      (c : Choice), p.wp native A Q s.world → p.advance native s.world c = some (q, u) →
      ∃ (β : Type) (op : Op V β) (b : β), A β op s.world ∧ Answers op s.world b u := by
    intro α p q Q u c hp ha
    cases p with
    | done a => cases ha
    | perform e k =>
        simp only [Prog.advance] at ha
        split at ha
        · cases ha
        · rename_i b u' hr
          cases ha
          exact ⟨_, e, b, hp.1, answers_of_respond hr⟩
  rcases s with ⟨w, life⟩
  cases m with
  | perform c =>
      cases life with
      | idle | closed => cases hm
      | preparing p | busy prepared p | closing p =>
          simp only [Supervisor.move, Option.map_eq_some_iff] at hm
          rcases hm with ⟨⟨q, u⟩, hs, rfl⟩
          exact .inl (hadvance p q _ u c h hs)
  | settle =>
      simp only [Supervisor.move] at hm
      split at hm <;> cases hm <;> exact .inr rfl
  | tick | take | leave | unwind =>
      simp only [Supervisor.move] at hm
      split at hm <;> cases hm <;> exact .inr rfl

end Contract

end TinyRuntime
