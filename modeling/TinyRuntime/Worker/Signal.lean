import TinyRuntime.Lib.Blind
import TinyRuntime.Worker.Custody

/-!
# Signalled Supervisors

A call for another cleanup resets a flag in the state that the supervisor publishes,
whatever the supervisor is doing. The supervisor sets this flag and never looks at it.
So it does what it would have done, and a supervisor that is signalled any number of
times is at every moment where one that nobody signals can be, up to the flag.

Once the supervisor has published that it is closed, it has nothing left to do. What
`cleanup` released and the directory that is gone stay so.

## Main definitions

* `World.Alike`, `Supervisor.Alike`: The same up to the flag.
* `Op.deaf`: The effects that do not read the flag, and that write around it.
* `Op.open`: The effects that publish no closing.
* `Supervisor.Blind`: What is left of the code does not look at the flag.
* `Supervisor.Finished`: Everything released, and nothing left to do.

## Theorems

* `deaf_*`, `blind_*`: The methods of the source.
* `Supervisor.move_alike`: A signalled supervisor moves as one that is not.
* `closed_finished`: A supervisor that has published its closing is finished.
-/

namespace TinyRuntime

open Prog (act attempt)

variable {V : Type}

/-! ## The flag -/

/-- The same up to the flag. -/
def State.Alike (s t : State V) : Prop :=
  ∃ b, t = { s with cleanupFailed := b }

theorem State.Alike.refl (s : State V) : s.Alike s :=
  ⟨s.cleanupFailed, rfl⟩

theorem State.Alike.trans {s t u : State V} (h : s.Alike t) (h' : t.Alike u) : s.Alike u := by
  rcases h with ⟨b, rfl⟩
  rcases h' with ⟨b', rfl⟩
  exact ⟨b', rfl⟩

/-- The flag written. -/
def World.flag (b : Bool) (w : World V) : World V :=
  { w with state := { w.state with cleanupFailed := b } }

/-- The same up to the flag. -/
def World.Alike (w t : World V) : Prop :=
  ∃ b, t = w.flag b

theorem World.Alike.refl (w : World V) : w.Alike w :=
  ⟨w.state.cleanupFailed, rfl⟩

theorem World.Alike.trans {w t u : World V} (h : w.Alike t) (h' : t.Alike u) : w.Alike u := by
  rcases h with ⟨b, rfl⟩
  rcases h' with ⟨b', rfl⟩
  exact ⟨b', rfl⟩

/-- A state is written around the flag. -/
def Around (f : State V → State V) : Prop :=
  ∀ (s : State V) (b : Bool), (f s).Alike (f { s with cleanupFailed := b })

/-- The effects on anything but the published state. -/
def Op.elsewhere {β : Type} (op : Op V β) : Prop :=
  match op with
  | .state | .sendModify _ => False
  | _ => True

/-- The effects that do not read the flag, and that write around it. -/
def Op.deaf {β : Type} (op : Op V β) : Prop :=
  match op with
  | .state => False
  | .sendModify f => Around f
  | _ => True

/-- The same, with a read of the published state allowed. -/
def Op.around {β : Type} (op : Op V β) : Prop :=
  match op with
  | .sendModify f => Around f
  | _ => True

/-- Two answers that differ in the flag at most. -/
def Op.Same : ∀ β, Op V β → β → β → Prop
  | _, .state, s, t => s.Alike t
  | _, _, b, b' => b = b'

theorem Op.deaf.around {β : Type} {op : Op V β} (h : op.deaf) : op.around := by
  cases op with
  | state => cases h
  | sendModify f => exact h
  | _ => trivial

theorem Op.deaf.eq {β : Type} {op : Op V β} (h : op.deaf) {b b' : β} (hb : op.Same β b b') :
    b = b' := by
  cases op with
  | state => cases h
  | _ => exact hb

/-- The effects on anything but the published state do not see the flag. -/
theorem respond_flag {β : Type} {op : Op V β} (hop : op.elsewhere) (w : World V) (flag : Bool)
    (c : Choice) :
    respond op (w.flag flag) c = (respond op w c).map fun r => (r.1, r.2.flag flag) := by
  cases op with
  | state | sendModify => cases hop
  | self | update | attempt | beginWrite | sleep | reply => rfl
  | now | expired =>
      cases c <;> simp only [respond] <;> try rfl
      rw [apply_ite (Option.map _)]
      rfl
  | _ => cases c <;> simp only [respond] <;> (try split) <;> rfl

/-- An effect has the same answer, and does the same. -/
theorem respond_alike {β : Type} (op : Op V β) (w t : World V) (c : Choice) (b : β) (w' : World V)
    (hop : op.around) (ha : w.Alike t) (hr : respond op w c = some (b, w')) :
    ∃ b' t', respond op t c = some (b', t') ∧ op.Same β b b' ∧ w'.Alike t' := by
  rcases ha with ⟨flag, rfl⟩
  have helse : op.elsewhere → (∀ b b', b = b' → op.Same β b b') →
      ∃ b' t', respond op (w.flag flag) c = some (b', t') ∧ op.Same β b b' ∧ w'.Alike t' := by
    intro hop hsame
    refine ⟨b, w'.flag flag, ?_, hsame b b rfl, flag, rfl⟩
    rw [respond_flag hop, hr]
    rfl
  cases op with
  | state =>
      cases hr
      exact ⟨_, _, rfl, ⟨flag, rfl⟩, flag, rfl⟩
  | sendModify f =>
      cases hr
      rcases hop w.state flag with ⟨flag', hf⟩
      refine ⟨(), _, rfl, rfl, flag', ?_⟩
      exact congrArg (fun s => ({ w with state := s } : World V)) hf
  | _ => exact helse trivial fun _ _ h => h

/-! ## The methods -/

/-- Code that does not look at the flag. -/
def Unseeing {α : Type} (p : Prog (Op V) α) : Prop :=
  p.Blind (fun _ op => op.around) Op.Same

theorem unseeing_deaf {α : Type} {p : Prog (Op V) α} (hp : p.Uses fun _ op => op.deaf) :
    Unseeing p :=
  Prog.blind_uses (fun _ _ h => h.around) (fun _ _ h _ _ hb => h.eq hb) hp

namespace Actor

/-! ### Releasing and preparation -/

theorem deaf_attemptAs {α : Type} (reason : String) {op : Op V (Except String α)}
    (h : op.deaf) : (attemptAs reason op).run.Uses fun _ op => op.deaf := by
  refine ⟨h, fun r => ?_⟩
  cases r <;> trivial

theorem deaf_act {β : Type} {op : Op V β} (h : op.deaf) :
    (act op : ExceptT String (Prog (Op V)) β).run.Uses fun _ op => op.deaf :=
  Prog.uses_run_lift ((Prog.uses_op _).mpr h)

theorem around_settle : Around (@State.settle V) := fun _ b => ⟨b, rfl⟩

theorem deaf_cleanupPreparation : (@cleanupPreparation V).run.Uses fun _ op => op.deaf := by
  refine Prog.uses_run_bind (deaf_act trivial) fun a => ?_
  dsimp only
  split
  · exact deaf_act trivial
  · exact Prog.uses_run_bind (deaf_attemptAs _ trivial) fun _ => deaf_act trivial

theorem deaf_cleanupCache : (@cleanupCache V).run.Uses fun _ op => op.deaf := by
  refine Prog.uses_run_bind (deaf_act trivial) fun a => ?_
  dsimp only
  split
  · exact deaf_act trivial
  · exact Prog.uses_run_bind ⟨trivial, fun _ => trivial⟩ fun _ => deaf_act trivial

theorem deaf_cleanupProcess : (@cleanupProcess V).run.Uses fun _ op => op.deaf := by
  refine Prog.uses_run_bind (deaf_act trivial) fun a => ?_
  dsimp only
  split
  · exact deaf_act trivial
  · exact Prog.uses_run_bind ⟨trivial, fun _ => trivial⟩ fun _ => deaf_act trivial

theorem deaf_cleanup : (@cleanup V).run.Uses fun _ op => op.deaf :=
  Prog.uses_run_bind (deaf_act around_settle) fun _ =>
    Prog.uses_run_bind deaf_cleanupPreparation fun _ =>
      Prog.uses_run_bind deaf_cleanupCache fun _ =>
        Prog.uses_run_bind deaf_cleanupProcess fun _ =>
          Prog.uses_run_bind (deaf_act trivial) fun _ => deaf_act around_settle

theorem deaf_cacheSession : (@cacheSession V).run.Uses fun _ op => op.deaf := by
  refine Prog.uses_run_bind (deaf_act trivial) fun a => ?_
  split <;> trivial

theorem deaf_checkProvisioning (deadline : Nat) :
    (@checkProvisioning V deadline).run.Uses fun _ op => op.deaf := by
  refine Prog.uses_run_bind (deaf_act trivial) fun stopped => ?_
  split
  · trivial
  · refine Prog.uses_run_bind (deaf_act trivial) fun now => ?_
    split <;> trivial

theorem deaf_commandDeadline (step : WorkerCommand) (deadline : Nat) :
    (@commandDeadline V step deadline).Uses fun _ op => op.deaf := by
  unfold commandDeadline
  split
  · trivial
  · exact ⟨trivial, fun _ => trivial⟩

theorem deaf_runStep (step : WorkerCommand) (deadline : Nat) :
    (@runStep V step deadline).run.Uses fun _ op => op.deaf := by
  refine Prog.uses_run_bind (deaf_act trivial) fun a => ?_
  split
  · trivial
  · exact Prog.uses_run_bind (Prog.uses_run_lift (deaf_commandDeadline _ _)) fun _ =>
      Prog.uses_run_bind (Prog.uses_run_lift ⟨trivial, fun _ => trivial⟩) fun _ =>
        Prog.uses_run_bind (deaf_attemptAs _ trivial) fun _ =>
          Prog.uses_run_bind (deaf_act trivial) fun _ => trivial

theorem deaf_provisionSteps (deadline : Nat) (steps : List WorkerCommand) :
    (@provisionSteps V deadline steps).run.Uses fun _ op => op.deaf := by
  induction steps with
  | nil => trivial
  | cons step rest ih =>
      exact Prog.uses_run_bind (deaf_checkProvisioning _) fun _ =>
        Prog.uses_run_bind deaf_cacheSession fun _ =>
          Prog.uses_run_bind ⟨trivial, fun _ => trivial⟩ fun _ =>
            Prog.uses_run_bind (deaf_attemptAs _ trivial) fun _ =>
              Prog.uses_run_bind (deaf_runStep _ _) fun _ =>
                Prog.uses_run_bind trivial fun _ => ih

theorem deaf_provisionCache (cached : Cached) (deadline : Nat) :
    (@provisionCache V cached deadline).run.Uses fun _ op => op.deaf := by
  refine Prog.uses_run_bind deaf_cacheSession fun session => ?_
  split
  · exact ⟨trivial, fun _ => trivial⟩
  · split
    · trivial
    · exact Prog.uses_run_bind ⟨trivial, fun _ => trivial⟩ fun _ =>
        Prog.uses_run_bind (deaf_provisionSteps _ _) fun _ =>
          Prog.uses_run_bind (deaf_checkProvisioning _) fun _ =>
            Prog.uses_run_bind deaf_cacheSession fun _ => ⟨trivial, fun _ => trivial⟩

theorem deaf_prepareCache : (@prepareCache V).run.Uses fun _ op => op.deaf := by
  refine Prog.uses_run_bind (deaf_act trivial) fun a => ?_
  dsimp only
  split
  · trivial
  · exact Prog.uses_run_bind (deaf_act trivial) fun _ =>
      Prog.uses_run_bind ⟨trivial, fun _ => trivial⟩ fun _ =>
        Prog.uses_run_bind (Prog.uses_run_lift (deaf_provisionCache _ _)) fun _ =>
          Prog.uses_run_bind deaf_cleanupPreparation fun _ =>
            Prog.uses_run_bind deaf_cleanupCache fun _ => trivial

theorem deaf_prepareSteps (deadline : Nat) (steps : List WorkerCommand) :
    (@prepareSteps V deadline steps).Uses fun _ op => op.deaf := by
  induction steps with
  | nil =>
      refine Prog.uses_bind ⟨trivial, fun _ => trivial⟩ fun stopped => ?_
      split <;> trivial
  | cons step rest ih =>
      refine Prog.uses_bind (deaf_attemptAs _ trivial) fun r => ?_
      cases r with
      | error reason => trivial
      | ok u =>
          refine Prog.uses_bind ⟨trivial, fun _ => trivial⟩ fun a => ?_
          split
          · trivial
          · refine Prog.uses_bind (deaf_commandDeadline _ _) fun _ =>
              Prog.uses_bind ⟨trivial, fun _ => trivial⟩ fun result =>
                Prog.uses_bind (deaf_attemptAs _ trivial) fun r => ?_
            cases r with
            | error reason => trivial
            | ok u =>
                refine Prog.uses_bind ⟨trivial, fun _ => trivial⟩ fun _ => ?_
                cases result with
                | error reason => trivial
                | ok u => exact ih

theorem deaf_prepare : (@prepare V).Uses fun _ op => op.deaf := by
  refine Prog.uses_bind deaf_prepareCache fun r => ?_
  cases r with
  | error reason => trivial
  | ok u =>
      refine Prog.uses_bind ⟨trivial, fun _ => trivial⟩ fun _ =>
        Prog.uses_bind ⟨trivial, fun _ => trivial⟩ fun _ =>
          Prog.uses_bind ⟨trivial, fun _ => trivial⟩ fun r => ?_
      cases r with
      | error reason => trivial
      | ok u => exact deaf_prepareSteps _ _

theorem deaf_servePrepare : (@servePrepare V).Uses fun _ op => op.deaf := by
  refine Prog.uses_bind deaf_prepare fun prepared =>
    Prog.uses_bind ⟨trivial, fun _ => trivial⟩ fun a =>
      Prog.uses_bind ((Prog.uses_op _).mpr fun s b => ?_) fun _ => trivial
  unfold State.publishPrepared
  split <;> exact ⟨b, rfl⟩

theorem deaf_supervise (prepared : WorkerOutcome V) :
    (supervise prepared).Uses fun _ op => op.deaf := by
  refine Prog.uses_bind ⟨trivial, fun _ => trivial⟩ fun a => Prog.uses_bind ?_ fun gone =>
    Prog.uses_bind ⟨trivial, fun _ => trivial⟩ fun a => ?_
  · unfold unusable
    split
    · trivial
    · exact ⟨trivial, fun _ => trivial⟩
  · dsimp only
    split
    · exact Prog.uses_bind deaf_cleanup fun _ => trivial
    · trivial

theorem deaf_closePass : (@closePass V).Uses fun _ op => op.deaf := by
  have hrelease : (@release V).Uses fun _ op => op.deaf := by
    refine Prog.uses_bind deaf_cleanup fun r => ?_
    cases r with
    | error e => trivial
    | ok u => exact ⟨trivial, fun _ => trivial⟩
  refine Prog.uses_bind hrelease fun last => ?_
  cases last with
  | true => exact ⟨fun _ b => ⟨b, rfl⟩, fun _ => trivial⟩
  | false => exact ⟨fun _ _ => ⟨true, rfl⟩, fun _ => ⟨trivial, fun _ => trivial⟩⟩

/-! ### Startup and operations -/

theorem deaf_handshake (codec : Codec V) : (handshake codec).Uses fun _ op => op.deaf := by
  have hi : (Op.stopped : Op V Bool).deaf := trivial
  refine Prog.uses_bind ⟨trivial, fun _ => trivial⟩ fun a => ?_
  dsimp only
  split
  · trivial
  · rename_i p _
    have hready : (Process.handshake codec p).run.Uses fun _ op => op.deaf := by
      refine Prog.uses_run_bind ⟨trivial, fun _ => trivial⟩ fun body => ?_
      split
      · trivial
      · split
        · trivial
        · split <;> trivial
    refine Prog.uses_bind ⟨trivial, fun _ => trivial⟩ fun stopped => ?_
    split
    · trivial
    · refine Prog.uses_bind (Prog.uses_cut hi (Prog.uses_bind ⟨trivial, fun _ => trivial⟩
        fun now => Prog.uses_bind (Prog.uses_cut trivial hready) fun r => ?_)) fun r => ?_
      · rcases r with _ | _ | r <;> trivial
      · rcases r with _ | r <;> trivial

theorem deaf_startFailed (reason : String) :
    (@startFailed V reason).Uses fun _ op => op.deaf := by
  refine Prog.uses_bind deaf_cleanup fun r => ?_
  split
  · trivial
  · exact ⟨trivial, fun _ => ⟨trivial, fun _ => ⟨fun _ b => ⟨b, rfl⟩, fun _ => trivial⟩⟩⟩

theorem deaf_started (backends : List String) :
    (@started V backends).Uses fun _ op => op.deaf := by
  refine Prog.uses_bind ⟨trivial, fun _ => trivial⟩ fun stopped => ?_
  split
  · exact deaf_startFailed _
  · exact ⟨trivial, fun _ => ⟨trivial, fun _ => ⟨trivial, fun _ =>
      ⟨fun _ b => ⟨b, rfl⟩, fun _ => trivial⟩⟩⟩⟩

theorem deaf_launch (codec : Codec V) : (launch codec).Uses fun _ op => op.deaf := by
  refine Prog.uses_bind ⟨trivial, fun _ => trivial⟩ fun a => Prog.uses_bind ?_ fun wait => ?_
  · unfold backingOff
    split
    · trivial
    · exact ⟨trivial, fun _ => trivial⟩
  split
  · trivial
  · have hready : (spawnReady codec).Uses fun _ op => op.deaf := by
      refine Prog.uses_bind ⟨trivial, fun _ => trivial⟩ fun r => ?_
      split
      · trivial
      · exact deaf_handshake codec
    refine Prog.uses_bind ⟨fun _ b => ⟨b, rfl⟩, fun _ => trivial⟩ fun _ =>
      Prog.uses_bind hready fun r => ?_
    split
    · exact deaf_startFailed _
    · exact deaf_started _

theorem blind_usable (p : Nat) : Unseeing (@usable V p) := by
  refine Prog.blind_op_bind trivial ?_ fun s => ?_
  · -- Of the published state it looks at the server only.
    rintro s _ ⟨b, rfl⟩
    rfl
  · split
    · exact unseeing_deaf ⟨trivial, fun _ => trivial⟩
    · trivial

theorem blind_reuse (codec : Codec V) : Unseeing (reuse codec) := by
  refine Prog.blind_bind (unseeing_deaf ⟨trivial, fun _ => trivial⟩) fun a => ?_
  split
  · exact unseeing_deaf (deaf_launch codec)
  · refine Prog.blind_bind (blind_usable _) fun keep => ?_
    split
    · trivial
    · refine Prog.blind_bind (unseeing_deaf deaf_cleanup) fun r => ?_
      split
      · trivial
      · exact unseeing_deaf (deaf_launch codec)

theorem blind_start (codec : Codec V) : Unseeing (start codec) := by
  refine Prog.blind_bind (unseeing_deaf ⟨trivial, fun _ => trivial⟩) fun stopped => ?_
  split
  · trivial
  · refine Prog.blind_op_bind trivial ?_ fun s => ?_
    · -- Of the published state it looks at the outcome of preparation only.
      rintro s _ ⟨b, rfl⟩
      rfl
    · split
      · trivial
      · refine Prog.blind_bind (unseeing_deaf ⟨trivial, fun _ => trivial⟩) fun a =>
          Prog.blind_bind (unseeing_deaf ⟨trivial, fun _ => trivial⟩) fun now => ?_
        split
        · refine Prog.blind_bind (unseeing_deaf deaf_cleanup) fun r => ?_
          split
          · trivial
          · exact blind_reuse codec
        · exact blind_reuse codec

theorem deaf_awaitReply (codec : Codec V) (p : Nat) (id : String) (fuel remaining : Nat) :
    (Process.awaitReply codec p id fuel remaining).run.Uses fun _ op => op.deaf := by
  induction fuel generalizing remaining with
  | zero => trivial
  | succ fuel ih =>
      refine Prog.uses_run_bind ⟨trivial, fun _ => trivial⟩ fun body => ?_
      split
      · trivial
      · split
        · exact ih _
        · split
          · trivial
          · exact ih _

theorem deaf_exchange (codec : Codec V) (request : WorkerRequest V) (p deadline : Nat) :
    (exchange codec request p deadline).Uses fun _ op => op.deaf := by
  have hrequest : (Process.request codec p (wire request)).run.Uses fun _ op => op.deaf := by
    unfold Process.request
    split
    · trivial
    · split
      · trivial
      · exact Prog.uses_run_bind (deaf_act trivial) fun _ =>
          Prog.uses_run_bind (deaf_attemptAs _ trivial) fun _ =>
            Prog.uses_run_bind (deaf_attemptAs _ trivial) fun _ => deaf_awaitReply codec p _ _ _
  have hi : (Op.stopped : Op V Bool).deaf := trivial
  refine Prog.uses_bind ⟨trivial, fun _ => trivial⟩ fun stopped => ?_
  split
  · trivial
  · refine Prog.uses_bind ⟨trivial, fun _ => trivial⟩ fun _ => Prog.uses_bind
      (Prog.uses_cut hi (Prog.uses_cut trivial hrequest)) fun r => ?_
    rcases r with _ | _ | r <;> trivial

theorem deaf_afterFailure (deadline : Nat) (reason : String) :
    (@afterFailure V deadline reason).Uses fun _ op => op.deaf := by
  refine Prog.uses_bind deaf_cleanup fun r => ?_
  split
  · trivial
  · refine Prog.uses_bind ⟨trivial, fun _ => trivial⟩ fun stopped => ?_
    split
    · trivial
    · refine Prog.uses_bind ⟨trivial, fun _ => trivial⟩ fun now => ?_
      split <;> trivial

theorem deaf_touch (response : ServerResponse V) :
    (touch response).Uses fun _ op => op.deaf := by
  unfold touch
  split
  · exact ⟨trivial, fun _ => ⟨trivial, fun _ => trivial⟩⟩
  · trivial

theorem blind_tries (codec : Codec V) (request : WorkerRequest V) (deadline left : Nat) :
    ∀ attempted reason, Unseeing (tries codec request deadline left attempted reason) := by
  induction left with
  | zero => exact fun _ _ => trivial
  | succ left ih =>
      intro attempted reason
      refine Prog.blind_bind (Prog.blind_cut trivial (fun _ _ h => h) (blind_start codec))
        fun r => ?_
      split
      · refine Prog.blind_bind (unseeing_deaf (Prog.uses_bind deaf_cleanup fun r => ?_)) fun _ =>
          trivial
        split <;> trivial
      · split
        · trivial
        · refine Prog.blind_bind (unseeing_deaf ⟨trivial, fun _ => trivial⟩) fun a => ?_
          split
          · trivial
          · refine Prog.blind_bind (unseeing_deaf (deaf_exchange _ _ _ _)) fun r => ?_
            dsimp only
            split
            · exact Prog.blind_bind (unseeing_deaf (deaf_touch _)) fun _ => trivial
            · refine Prog.blind_bind (unseeing_deaf (deaf_afterFailure _ _)) fun ended => ?_
              split
              · trivial
              · exact ih _ _

theorem blind_request [BEq V] (codec : Codec V) (request : WorkerRequest V) (deadline : Nat) :
    Unseeing (Actor.request codec request deadline) := by
  refine Prog.blind_bind (unseeing_deaf ⟨trivial, fun _ => trivial⟩) fun now => ?_
  split
  · trivial
  · refine Prog.blind_bind (unseeing_deaf ⟨trivial, fun _ => trivial⟩) fun a => ?_
    split
    · split <;> trivial
    · split
      · trivial
      · refine Prog.blind_bind ?_ fun r => ?_
        · refine Prog.blind_bind (unseeing_deaf ⟨trivial, fun _ => trivial⟩) fun now => ?_
          split
          · trivial
          · exact blind_tries _ _ _ _ _ _
        · dsimp only
          split
          · exact Prog.blind_bind (unseeing_deaf ⟨trivial, fun _ => trivial⟩) fun _ => trivial
          · trivial

theorem blind_serveCommand [BEq V] (codec : Codec V) (command : Command V) :
    Unseeing (serveCommand codec command) := by
  cases command with
  | start =>
      exact Prog.blind_bind (blind_start codec) fun _ => unseeing_deaf ⟨trivial, fun _ => trivial⟩
  | request request deadline replyClosed =>
      rw [serveCommand]
      split
      · trivial
      · exact Prog.blind_bind (blind_request codec request deadline) fun _ =>
          unseeing_deaf ⟨trivial, fun _ => trivial⟩

end Actor

/-! ## A signalled supervisor -/

/-- What is left of the code does not look at the flag. -/
def Supervisor.Blind (s : Supervisor V) : Prop :=
  match s.life with
  | .preparing p => Unseeing p
  | .busy _ p => Unseeing p
  | .closing p => Unseeing p
  | _ => True

/-- The same up to the flag, and at the same point of the code. -/
def Supervisor.Alike (s t : Supervisor V) : Prop :=
  s.life = t.life ∧ s.world.Alike t.world

/-- The flag written. -/
def Supervisor.flag (b : Bool) (s : Supervisor V) : Supervisor V :=
  { s with world := s.world.flag b }

theorem Supervisor.Alike.flag {s t : Supervisor V} (h : s.Alike t) (b : Bool) :
    (s.flag b).Alike t := by
  rcases h with ⟨hlife, b', hworld⟩
  exact ⟨hlife, b', hworld⟩

theorem advance_alike {α : Type} {p q : Prog (Op V) α} {w t w' : World V} {c : Choice}
    (hp : Unseeing p) (ha : w.Alike t) (h : p.advance native w c = some (q, w')) :
    ∃ t', p.advance native t c = some (q, t') ∧ w'.Alike t' ∧ Unseeing q :=
  Prog.blind_advance (fun _ => respond_alike) hp ha h

/-- A supervisor that has been signalled makes the moves of one that has not. -/
theorem Supervisor.move_alike [BEq V] {codec : Codec V} {s t s' : Supervisor V} {m : Move V}
    (hb : s.Blind) (ha : s.Alike t) (hm : s.move codec m = some s') :
    ∃ t', t.move codec m = some t' ∧ s'.Alike t' ∧ s'.Blind := by
  rcases s with ⟨w, life⟩
  rcases t with ⟨u, _⟩
  rcases ha with ⟨rfl, hw⟩
  cases m with
  | perform c =>
      cases life with
      | idle | closed => cases hm
      | preparing p | busy prepared p | closing p =>
          simp only [move, Option.map_eq_some_iff] at hm
          rcases hm with ⟨⟨q, w'⟩, hs, rfl⟩
          rcases advance_alike hb hw hs with ⟨u', hu, ha', hq⟩
          refine ⟨{ world := u', life := _ }, ?_, ⟨rfl, ha'⟩, hq⟩
          simp only [move, hu, Option.map_some]
  | settle =>
      cases life with
      | idle | closed => cases hm
      | preparing p | busy prepared p =>
          cases p with
          | perform e k => cases hm
          | done r =>
              cases hm
              exact ⟨_, rfl, ⟨rfl, hw⟩, trivial⟩
      | closing p =>
          cases p with
          | perform e k => cases hm
          | done last =>
              cases last <;> cases hm
              · exact ⟨_, rfl, ⟨rfl, hw⟩, unseeing_deaf Actor.deaf_closePass⟩
              · exact ⟨_, rfl, ⟨rfl, hw⟩, trivial⟩
  | tick =>
      cases life <;> cases hm
      exact ⟨_, rfl, ⟨rfl, hw⟩, unseeing_deaf (Actor.deaf_supervise _)⟩
  | take command =>
      cases life <;> cases hm
      rcases hw with ⟨b, rfl⟩
      exact ⟨_, rfl, ⟨rfl, b, rfl⟩, Actor.blind_serveCommand codec command⟩
  | leave =>
      cases life <;> cases hm
      exact ⟨_, rfl, ⟨rfl, hw⟩, unseeing_deaf Actor.deaf_closePass⟩
  | unwind =>
      cases life <;> cases hm
      · exact ⟨_, rfl, ⟨rfl, hw⟩, unseeing_deaf Actor.deaf_closePass⟩
      · exact ⟨_, rfl, ⟨rfl, hw⟩, unseeing_deaf Actor.deaf_closePass⟩

/-- A supervisor for a plan, as it is up to the flag when nobody signals it. -/
structure Supervisor.Behaves [BEq V] (codec : Codec V) (plan : WorkerPlan)
    (cached : Option Cached) (s : Supervisor V) : Prop where
  blind : s.Blind
  alone : ∃ t, Transition.Reachable (supervisor codec plan cached) t ∧ s.Alike t

/-! ## Published closing -/

/-- The effects that publish no closing, and hide none. -/
def Op.open {β : Type} (op : Op V β) : Prop :=
  match op with
  | .sendModify f => ∀ s : State V, (f s).closed = s.closed
  | _ => True

theorem Op.quiet.open {β : Type} {op : Op V β} (h : op.quiet) : op.open := by
  cases op with
  | sendModify f => exact h
  | _ => trivial

theorem Op.calm.open {β : Type} {op : Op V β} (h : op.calm) : op.open := by
  cases op with
  | sendModify f => cases h
  | _ => trivial

theorem open_tame {α : Type} {p : Prog (Op V) α} (hp : Tame p) : p.Uses fun _ op => op.open :=
  Prog.uses_mono (fun _ _ h => h.open) hp

theorem open_calm {α : Type} {p : Prog (Op V) α} (hp : p.Uses fun _ op => op.calm) :
    p.Uses fun _ op => op.open :=
  Prog.uses_mono (fun _ _ h => h.open) hp

namespace Actor

theorem open_tries (codec : Codec V) (request : WorkerRequest V) (deadline left : Nat) :
    ∀ attempted reason,
      (tries codec request deadline left attempted reason).Uses fun _ op => op.open := by
  induction left with
  | zero => exact fun _ _ => trivial
  | succ left ih =>
      intro attempted reason
      refine Prog.uses_bind (open_tame (tame_timeoutAt _ (tame_start codec))) fun r => ?_
      split
      · exact Prog.uses_bind (open_tame tame_startTimedOut) fun _ => trivial
      · split
        · trivial
        · refine Prog.uses_bind ⟨trivial, fun _ => trivial⟩ fun a => ?_
          split
          · trivial
          · refine Prog.uses_bind (open_calm (calm_exchange _ _ _ _)) fun r => ?_
            dsimp only
            split
            · exact Prog.uses_bind (open_tame (tame_touch _)) fun _ => trivial
            · refine Prog.uses_bind (open_tame (tame_afterFailure _ _)) fun ended => ?_
              split
              · trivial
              · exact ih _ _

theorem open_serveCommand [BEq V] (codec : Codec V) (command : Command V) :
    (serveCommand codec command).Uses fun _ op => op.open := by
  cases command with
  | start =>
      exact Prog.uses_bind (open_tame (tame_start codec)) fun _ => ⟨trivial, fun _ => trivial⟩
  | request request deadline replyClosed =>
      rw [serveCommand]
      split
      · trivial
      · refine Prog.uses_bind ?_ fun _ => ⟨trivial, fun _ => trivial⟩
        refine Prog.uses_bind ⟨trivial, fun _ => trivial⟩ fun now => ?_
        split
        · trivial
        · refine Prog.uses_bind ⟨trivial, fun _ => trivial⟩ fun a => ?_
          split
          · split <;> trivial
          · split
            · trivial
            · refine Prog.uses_bind (Prog.uses_bind ⟨trivial, fun _ => trivial⟩ fun now => ?_)
                fun r => ?_
              · split
                · trivial
                · exact open_tries _ _ _ _ _ _
              · dsimp only
                split
                · exact ⟨trivial, fun _ => trivial⟩
                · trivial

end Actor

/-- How far a supervisor is from its closing. -/
def Supervisor.Ending (s : Supervisor V) : Prop :=
  match s.life with
  | .preparing p => s.world.state.closed = false ∧ p.Uses fun _ op => op.open
  | .idle _ => s.world.state.closed = false
  | .busy _ p => s.world.state.closed = false ∧ p.Uses fun _ op => op.open
  | .closing p => p.wp native (fun _ _ w => w.state.closed = false)
      (fun last t => t.state.closed = last) s.world
  | .closed => s.world.state.closed = true

theorem open_answers {β : Type} {op : Op V β} {w t : World V} {b : β} (hop : op.open)
    (h : Answers op w b t) (hw : w.state.closed = false) : t.state.closed = false := by
  cases op with
  | sendModify f =>
      rcases h with rfl
      exact (hop w.state).trans hw
  | _ =>
      simp only [Answers] at h
      grind [World.withCache, World.note, World.reap, World.spawn]

theorem open_advance {α : Type} {p q : Prog (Op V) α} {w w' : World V} {c : Choice}
    (hp : p.Uses fun _ op => op.open) (hw : w.state.closed = false)
    (h : p.advance native w c = some (q, w')) :
    w'.state.closed = false ∧ q.Uses fun _ op => op.open := by
  have hwp := Prog.wp_uses (H := native) (fun w : World V => w.state.closed = false)
    (fun _ _ _ _ _ _ hop hs hr => open_answers hop (answers_of_respond hr) hs) p w hp hw
  exact ⟨Prog.wp_point (C := fun w : World V => w.state.closed = false) (fun _ _ _ h => h)
    (fun _ _ h => h) (Prog.wp_step h hwp),
    Prog.uses_step h hp⟩

/-- One pass of the closing loop publishes the closing when it is the last one, and
    with its last effect. -/
theorem closePass_ending {w : World V} (hw : w.state.closed = false) :
    (@Actor.closePass V).wp native (fun _ _ w => w.state.closed = false)
      (fun last t => t.state.closed = last) w := by
  have hrelease := tame_wp (I := fun w : World V => w.state.closed = false)
    (fun w t hw hq => hq.closed.trans hw) Actor.tame_release hw
  rw [Actor.closePass, Prog.wp_bind]
  refine Prog.wp_mono _ ?_ _ hrelease
  intro last t ht
  cases last with
  | true =>
      simp only [↓reduceIte, Prog.wp_bind, wp_native]
      refine ⟨ht, ?_⟩
      rintro _ u rfl
      rfl
  | false =>
      simp only [Bool.false_eq_true, ↓reduceIte, Prog.wp_bind, wp_native]
      refine ⟨ht, ?_⟩
      rintro _ u rfl
      refine ⟨ht, ?_⟩
      rintro _ v rfl
      exact ht

section Behaves

variable [BEq V] {codec : Codec V} {plan : WorkerPlan} {cached : Option Cached}
  {s s' : Supervisor V}

theorem Supervisor.behaves_new (codec : Codec V) (plan : WorkerPlan) (cached : Option Cached)
    (now : Nat) : (Supervisor.new plan cached now : Supervisor V).Behaves codec plan cached :=
  ⟨unseeing_deaf Actor.deaf_servePrepare, _, Transition.reachable_init ⟨now, rfl⟩, rfl, .refl _⟩

theorem Supervisor.Behaves.move {m : Move V} (h : s.Behaves codec plan cached)
    (hm : s.move codec m = some s') : s'.Behaves codec plan cached := by
  rcases h.alone with ⟨t, ht, ha⟩
  rcases move_alike h.blind ha hm with ⟨t', hm', ha', hb⟩
  exact ⟨hb, t', Transition.reachable_step ht hm', ha'⟩

theorem Supervisor.Behaves.flag (h : s.Behaves codec plan cached) (b : Bool) :
    (s.flag b).Behaves codec plan cached := by
  rcases h.alone with ⟨t, ht, ha⟩
  exact ⟨h.blind, t, ht, ha.flag b⟩

/-! ### Closed -/

theorem Supervisor.ending (h : Transition.Reachable (supervisor codec plan cached) s) :
    s.Ending := by
  refine Transition.invariant Supervisor.Ending ?_ ?_ h
  · rintro s ⟨now, rfl⟩
    exact ⟨rfl, open_tame Actor.tame_servePrepare⟩
  · rintro ⟨w, life⟩ m s' _ hs hm
    cases m with
    | perform c =>
        cases life with
        | idle | closed => cases hm
        | preparing p | busy prepared p =>
            rcases Option.map_eq_some_iff.mp hm with ⟨⟨q, w'⟩, ha, rfl⟩
            exact open_advance hs.2 hs.1 ha
        | closing p =>
            rcases Option.map_eq_some_iff.mp hm with ⟨⟨q, w'⟩, ha, rfl⟩
            exact Prog.wp_step ha hs
    | settle =>
        cases life with
        | idle | closed => cases hm
        | preparing p | busy prepared p =>
            cases p with
            | perform e k => cases hm
            | done r =>
                cases hm
                exact hs.1
        | closing p =>
            cases p with
            | perform e k => cases hm
            | done last =>
                cases last <;> cases hm
                · exact closePass_ending hs
                · exact hs
    | tick =>
        cases life <;> cases hm
        exact ⟨hs, open_tame (Actor.tame_supervise _)⟩
    | take command =>
        cases life <;> cases hm
        exact ⟨hs, Actor.open_serveCommand codec command⟩
    | leave =>
        cases life <;> cases hm
        exact closePass_ending hs
    | unwind =>
        cases life <;> cases hm
        · exact closePass_ending hs.1
        · exact closePass_ending hs.1

/-- Everything released, the directory gone, and no effect left to perform. -/
structure Supervisor.Finished (s : Supervisor V) : Prop where
  done : s.life = .closed ∨ s.life = .closing (.done true)
  released : Actor.Released s.world.actor
  live : s.world.live = []
  locked : s.world.locked = false
  dir : s.world.dir = false

/-- A supervisor that has published its closing is finished. -/
theorem closed_finished (h : s.Behaves codec plan cached) (hc : s.world.state.closed = true) :
    s.Finished := by
  rcases h.alone with ⟨t, ht, hlife, flag, hworld⟩
  have hending := Supervisor.ending ht
  have hholds := (custody_contract codec plan cached).reachable ht
  have hopen : t.world.state.closed = true := by
    rw [hworld]
    exact hc
  have hdone : (t.life = .closed ∨ t.life = .closing (.done true)) ∧ Gone t.world := by
    rcases t with ⟨w, life⟩
    cases life with
    | preparing p | busy prepared p => cases hending.1.symm.trans hopen
    | idle prepared => cases hending.symm.trans hopen
    | closed => exact ⟨.inl rfl, hholds⟩
    | closing p =>
        cases p with
        | perform e k => cases hending.1.symm.trans hopen
        | done last =>
            cases last with
            | false => cases hending.symm.trans hopen
            | true => exact ⟨.inr rfl, hholds⟩
  rcases hdone with ⟨hdone, hgone⟩
  have hactor : t.world.actor = s.world.actor := by rw [hworld]; rfl
  have hreleased : Actor.Released s.world.actor := hactor ▸ hgone.released
  have hheld : Held s.world := by
    rcases hgone.held with ⟨howned, halone, hlocked, hcomplete⟩
    rw [hworld] at howned halone hlocked hcomplete
    exact ⟨howned, halone, hlocked, hcomplete⟩
  refine ⟨hlife ▸ hdone, hreleased, hheld.live_nil hreleased, ?_, ?_⟩
  · refine Bool.eq_false_iff.mpr fun hlocked => ?_
    have hsome := hheld.locked hlocked
    rw [hreleased.cache] at hsome
    cases hsome
  · have hdir := hgone.dir
    rw [hworld] at hdir
    exact hdir

/-- It performs no effect any more. -/
theorem Supervisor.Finished.move {m : Move V} (h : s.Finished)
    (hm : s.move codec m = some s') : s'.world = s.world ∧ s'.Finished := by
  rcases s with ⟨w, life⟩
  rcases h with ⟨hdone, hreleased, hlive, hlocked, hdir⟩
  rcases hdone with rfl | rfl
  · cases m <;> cases hm
  · cases m <;> cases hm
    exact ⟨rfl, .inl rfl, hreleased, hlive, hlocked, hdir⟩

end Behaves

end TinyRuntime
