import TinyRuntime.Worker.Replay

/-!
# Custody of Native Children

What a supervisor holds, from its first effect to its last. At most one of the
two fields for children is filled, a running worker excludes a cache session,
every child that has not been reaped is in one of the fields, and a scope lock is
held only by a session that is kept.

Only few effects touch any of this. The others are *steady*, and programs made of
them keep everything said here. What is left are the five places that spawn or
give up a child, and the cleanup, which is walked through once for every
property of this kind (`Releasable.cleanup`).

## Main definitions

* `Held`: What a supervisor holds.
* `Op.steady`: The effects that hold and release nothing.
* `Op.calm`: The effects of an operation on a worker that is up.
* `Op.sound`: A spawn fills an empty field, and no field is refilled otherwise.
* `Gone`: The closing loop is done.

## Theorems

* `custody_contract`: The obligations of the supervisor's programs.
* `seat_answers`: What one effect can do to a field.
* `children_reaped`: No child is overwritten or given up before it is reaped.
-/

namespace TinyRuntime

open Prog (act attempt)

variable {V : Type}

/-- What a supervisor holds. -/
structure Held (w : World V) : Prop where
  owned : ∀ q ∈ w.live, w.actor.process = some q ∨ w.actor.preparation = some q
  alone : w.actor.process.isSome → w.actor.preparation = none ∧ w.actor.cache = none
  locked : w.locked = true → w.actor.cache.isSome
  done : w.state.complete = true → w.actor.preparation = none ∧ w.actor.cache = none

/-- Everything is released and the private directory is gone. -/
structure Gone (w : World V) : Prop where
  held : Held w
  released : Actor.Released w.actor
  dir : w.dir = false

theorem Held.live_nil {w : World V} (h : Held w) (hr : Actor.Released w.actor) : w.live = [] := by
  refine List.eq_nil_iff_forall_not_mem.mpr fun q hq => ?_
  rcases h.owned q hq with hp | hp
  · rw [hr.process] at hp
    cases hp
  · rw [hr.preparation] at hp
    cases hp

/-- A spawn finds both fields empty, and an assignment keeps a child or gives it
    up. -/
def Op.sound {β : Type} (op : Op V β) (w : World V) : Prop :=
  match op with
  | .update f => ∀ a : Actor V, ((f a).process = a.process ∨ (f a).process = none) ∧
      ((f a).preparation = a.preparation ∨ (f a).preparation = none)
  | .spawnProcess | .spawnPreparation _ =>
      w.actor.process = none ∧ w.actor.preparation = none
  | _ => True

/-- The effects that spawn nothing. -/
def Op.clearing {β : Type} (op : Op V β) : Prop :=
  match op with
  | .update f => ∀ a : Actor V, ((f a).process = a.process ∨ (f a).process = none) ∧
      ((f a).preparation = a.preparation ∨ (f a).preparation = none)
  | .spawnProcess | .spawnPreparation _ => False
  | _ => True

/-- The effects that hold and release nothing. -/
def Op.steady {β : Type} (op : Op V β) : Prop :=
  match op with
  | .update f => ∀ a : Actor V, (f a).process = a.process ∧ (f a).preparation = a.preparation ∧
      (f a).cache = a.cache
  | .sendModify f => ∀ s : State V, (f s).prepared = s.prepared
  | .spawnProcess | .spawnPreparation _ | .reap _ | .acquire _ _ | .install _ | .adoptLegacy _
  | .cleanupCache => False
  | _ => True

/-- The effects of an operation on a worker that is up: they assign at most the time
    it was last used and the replay window, and they hold, release, start and
    publish nothing. -/
def Op.calm {β : Type} (op : Op V β) : Prop :=
  match op with
  | .update f => ∀ a : Actor V,
      f a = { a with lastUsed := (f a).lastUsed, replies := (f a).replies, highest := (f a).highest }
  | .sendModify _ | .installScript | .removeRoot | .spawnProcess | .spawnPreparation _ | .reap _
  | .acquire _ _ | .install _ | .adoptLegacy _ | .cleanupCache => False
  | _ => True

theorem Op.calm.steady {β : Type} {op : Op V β} (h : op.calm) : op.steady := by
  cases op with
  | update f =>
      intro a
      rw [h a]
      exact ⟨rfl, rfl, rfl⟩
  | sendModify | installScript | removeRoot | spawnProcess | spawnPreparation | reap | acquire
  | install | adoptLegacy | cleanupCache => cases h
  | _ => trivial

/-- What is asserted at every effect. -/
def Guarded (β : Type) (op : Op V β) (w : World V) : Prop :=
  Held w ∧ op.sound w

/-- What steady effects leave as it was. -/
structure Steady (w t : World V) : Prop where
  process : t.actor.process = w.actor.process
  preparation : t.actor.preparation = w.actor.preparation
  cache : t.actor.cache = w.actor.cache
  live : t.live = w.live
  locked : t.locked = w.locked
  prepared : t.state.prepared = w.state.prepared

theorem Steady.refl (w : World V) : Steady w w :=
  ⟨rfl, rfl, rfl, rfl, rfl, rfl⟩

theorem Steady.trans {w t u : World V} (h : Steady w t) (h' : Steady t u) : Steady w u :=
  ⟨h'.process.trans h.process, h'.preparation.trans h.preparation, h'.cache.trans h.cache,
    h'.live.trans h.live, h'.locked.trans h.locked, h'.prepared.trans h.prepared⟩

theorem Steady.complete {w t : World V} (h : Steady w t) : t.state.complete = w.state.complete := by
  rw [State.complete, State.complete, h.prepared]

theorem Held.steady {w t : World V} (h : Held w) (hs : Steady w t) : Held t where
  owned q hq := by
    rw [hs.process, hs.preparation]
    exact h.owned q (hs.live ▸ hq)
  alone hp := by
    rw [hs.preparation, hs.cache]
    exact h.alone (hs.process ▸ hp)
  locked hl := by
    rw [hs.cache]
    exact h.locked (hs.locked ▸ hl)
  done hd := by
    rw [hs.preparation, hs.cache]
    exact h.done (hs.complete ▸ hd)

theorem Released.steady {w t : World V} (h : Actor.Released w.actor) (hs : Steady w t) :
    Actor.Released t.actor :=
  ⟨hs.process.trans h.process, hs.preparation.trans h.preparation, hs.cache.trans h.cache⟩

theorem steady_answers {β : Type} {op : Op V β} {w t : World V} {b : β} (hs : op.steady)
    (h : Answers op w b t) : Steady w t := by
  cases op with
  | update f =>
      rcases h with rfl
      rcases hs w.actor with ⟨h1, h2, h3⟩
      exact ⟨h1, h2, h3, rfl, rfl, rfl⟩
  | sendModify f =>
      rcases h with rfl
      exact ⟨rfl, rfl, rfl, rfl, rfl, hs w.state⟩
  | spawnProcess | spawnPreparation | reap | acquire | install | adoptLegacy | cleanupCache =>
      cases hs
  | now | self | state =>
      rcases h with ⟨_, rfl⟩
      exact ⟨rfl, rfl, rfl, rfl, rfl, rfl⟩
  | expired d =>
      rcases h with ⟨_, rfl⟩ | ⟨_, now, _, _, rfl⟩ <;> exact ⟨rfl, rfl, rfl, rfl, rfl, rfl⟩
  | installScript | removeRoot =>
      rcases h with ⟨_, rfl⟩ | ⟨_, rfl⟩ <;> exact ⟨rfl, rfl, rfl, rfl, rfl, rfl⟩
  | line =>
      rcases h with ⟨body, _, rfl⟩ | ⟨_, rfl⟩ <;> exact ⟨rfl, rfl, rfl, rfl, rfl, rfl⟩
  | stopped | isAlive | finishWrite | flush | execute | checkBinding | sleep | attempt
  | beginWrite | reply | publish =>
      rcases h with rfl
      exact ⟨rfl, rfl, rfl, rfl, rfl, rfl⟩

theorem Op.steady.sound {β : Type} {op : Op V β} (h : op.steady) (w : World V) : op.sound w := by
  cases op with
  | update f => exact fun a => ⟨.inl (h a).1, .inl (h a).2.1⟩
  | spawnProcess | spawnPreparation => cases h
  | _ => trivial

theorem Op.clearing.sound {β : Type} {op : Op V β} (h : op.clearing) (w : World V) :
    op.sound w := by
  cases op with
  | spawnProcess | spawnPreparation => cases h
  | _ => exact h

/-- A program of steady effects holds and releases nothing. -/
theorem wp_steady {α : Type} {p : Prog (Op V) α} (hp : p.Uses fun _ op => op.steady)
    {w : World V} (h : Held w) : p.wp native Guarded (fun _ t => Steady w t) w := by
  have hanswer : ∀ β (op : Op V β) s c b t, op.steady → Steady w s →
      native.respond op s c = some (b, t) → Steady w t := fun _ _ _ _ _ _ hs hw hr =>
    hw.trans (steady_answers hs (answers_of_respond hr))
  have hkeep := Prog.wp_uses (Steady w) hanswer p w hp (Steady.refl w)
  refine Prog.wp_weaken p ?_ w (Prog.wp_and_uses p w hkeep hp)
  exact fun β op t ht => ⟨h.steady ht.1, ht.2.sound t⟩

/-- The same where only `Held` matters. -/
theorem wp_steady_held {α : Type} {p : Prog (Op V) α} (hp : p.Uses fun _ op => op.steady)
    {w : World V} (h : Held w) : p.wp native Guarded (fun _ t => Held t) w :=
  Prog.wp_mono p (fun _ _ ht => h.steady ht) w (wp_steady hp h)

/-- A program raced against a timer or the stop flag. -/
theorem wp_held_cut {α : Type} (interrupt : Op V Bool) (hi : interrupt.steady)
    (hpoll : ∀ w t, Answers interrupt w false t → t = w)
    {p : Prog (Op V) α} {Q : α → World V → Prop} {w : World V} (hp : p.wp native Guarded Q w) :
    (p.cut interrupt suspends).wp native Guarded
      (fun o t => match o with | none => Held t | some a => Q a t) w := by
  refine Prog.wp_cut (fun s hs => ⟨hs, hi.sound s⟩) ?_ ?_ p w
    (Prog.wp_weaken p (fun _ _ _ hs => ⟨fun _ => hs.1, hs⟩) w hp)
  · intro s c t _ hr
    exact hpoll s t (answers_of_respond hr)
  · intro s c t hs hr
    exact hs.steady (steady_answers hi (answers_of_respond hr))

theorem wp_held_timeout {α : Type} (deadline : Nat) {p : Prog (Op V) α}
    {Q : α → World V → Prop} {w : World V} (hp : p.wp native Guarded Q w) :
    (timeoutAt deadline p).wp native Guarded
      (fun o t => match o with | none => Held t | some a => Q a t) w := by
  have hi : (Op.expired deadline : Op V Bool).steady := trivial
  refine wp_held_cut (.expired deadline) hi ?_ hp
  rintro w t (⟨_, rfl⟩ | ⟨hb, _⟩)
  · rfl
  · cases hb

/-! ## Releasing -/

namespace Actor

theorem complete_settle (s : State V) : s.settle.complete = s.complete := rfl

theorem held_releasable : Releasable (V := V) Held where
  settle w h := ⟨h.owned, h.alone, h.locked, h.done⟩
  preparation w p h hp := by
    have hproc : w.actor.process = none := by
      cases hc : w.actor.process with
      | none => rfl
      | some q =>
          have hnone := (h.alone (by rw [hc]; rfl)).1
          rw [hp] at hnone
          cases hnone
    have hleft : ∀ q ∈ (w.reap p).live, False := by
      intro q hq
      simp only [World.reap, World.note, List.mem_filter, decide_eq_true_eq] at hq
      rcases h.owned q hq.1 with hq' | hq'
      · rw [hproc] at hq'
        cases hq'
      · rw [hp] at hq'
        exact hq.2 (Option.some.inj hq').symm
    refine ⟨⟨fun q hq => (hleft q hq).elim, h.alone, h.locked, h.done⟩,
      ⟨fun q hq => (hleft q hq).elim, fun hs => ⟨rfl, (h.alone hs).2⟩, h.locked,
        fun hd => ⟨rfl, (h.done hd).2⟩⟩⟩
  cache w s h hs := by
    have hproc : ¬ w.actor.process.isSome := by
      intro hp
      rw [(h.alone hp).2] at hs
      cases hs
    have hdone : ¬ w.state.complete = true := by
      intro hd
      rw [(h.done hd).2] at hs
      cases hs
    exact ⟨⟨h.owned, fun hp => absurd hp hproc, fun _ => rfl, fun hd => absurd hd hdone⟩,
      ⟨h.owned, fun hp => absurd hp hproc, fun hl => (by cases hl), fun hd => absurd hd hdone⟩,
      ⟨h.owned, fun hp => absurd hp hproc, fun hl => (by cases hl), fun hd => absurd hd hdone⟩⟩
  process w p h hp := by
    have hprep : w.actor.preparation = none := (h.alone (by rw [hp]; rfl)).1
    have hleft : ∀ q ∈ (w.reap p).live, False := by
      intro q hq
      simp only [World.reap, World.note, List.mem_filter, decide_eq_true_eq] at hq
      rcases h.owned q hq.1 with hq' | hq'
      · rw [hp] at hq'
        exact hq.2 (Option.some.inj hq').symm
      · rw [hprep] at hq'
        cases hq'
    exact ⟨⟨fun q hq => (hleft q hq).elim, h.alone, h.locked, h.done⟩,
      ⟨fun q hq => (hleft q hq).elim, fun hs => (by cases hs), h.locked, h.done⟩⟩
  backends w h := ⟨h.owned, h.alone, h.locked, h.done⟩

theorem clearing_act {f : Actor V → Actor V}
    (hf : ∀ a, ((f a).process = a.process ∨ (f a).process = none) ∧
      ((f a).preparation = a.preparation ∨ (f a).preparation = none)) :
    (act (.update f) : ExceptT String (Prog (Op V)) Unit).run.Uses fun _ op => op.clearing :=
  Prog.uses_run_lift ((Prog.uses_op _).mpr hf)

theorem clearing_cleanupPreparation :
    (@cleanupPreparation V).run.Uses fun _ op => op.clearing := by
  refine Prog.uses_run_bind ⟨trivial, fun _ => trivial⟩ fun a => ?_
  dsimp only
  split
  · exact clearing_act fun _ => ⟨.inl rfl, .inr rfl⟩
  · refine Prog.uses_run_bind ⟨trivial, fun r => ?_⟩ fun _ =>
      clearing_act fun _ => ⟨.inl rfl, .inr rfl⟩
    cases r <;> trivial

theorem clearing_cleanupCache : (@cleanupCache V).run.Uses fun _ op => op.clearing := by
  refine Prog.uses_run_bind ⟨trivial, fun _ => trivial⟩ fun a => ?_
  dsimp only
  split
  · exact clearing_act fun _ => ⟨.inl rfl, .inl rfl⟩
  · exact Prog.uses_run_bind ⟨trivial, fun _ => trivial⟩ fun _ =>
      clearing_act fun _ => ⟨.inl rfl, .inl rfl⟩

theorem clearing_cleanupProcess : (@cleanupProcess V).run.Uses fun _ op => op.clearing := by
  refine Prog.uses_run_bind ⟨trivial, fun _ => trivial⟩ fun a => ?_
  dsimp only
  split
  · exact clearing_act fun _ => ⟨.inr rfl, .inl rfl⟩
  · exact Prog.uses_run_bind ⟨trivial, fun _ => trivial⟩ fun _ =>
      clearing_act fun _ => ⟨.inr rfl, .inl rfl⟩

theorem clearing_cleanup : (@cleanup V).run.Uses fun _ op => op.clearing :=
  Prog.uses_run_bind ⟨trivial, fun _ => trivial⟩ fun _ =>
    Prog.uses_run_bind clearing_cleanupPreparation fun _ =>
      Prog.uses_run_bind clearing_cleanupCache fun _ =>
        Prog.uses_run_bind clearing_cleanupProcess fun _ =>
          Prog.uses_run_bind (clearing_act fun _ => ⟨.inl rfl, .inl rfl⟩) fun _ =>
            ⟨trivial, fun _ => trivial⟩

/-- Releasing spawns nothing, so what holds all along is all there is to say. -/
theorem wp_clearing {α : Type} {C : World V → Prop} (hC : ∀ w, C w → Held w)
    {p : Prog (Op V) α} (hp : p.Uses fun _ op => op.clearing) {Q : α → World V → Prop}
    {w : World V} (h : p.wp native (Prog.always C) Q w) : p.wp native Guarded Q w := by
  refine Prog.wp_weaken _ ?_ w (Prog.wp_and_uses _ w h hp)
  exact fun β op t ht => ⟨hC t ht.1, ht.2.sound t⟩

theorem held_cleanup {w : World V} (h : Held w) :
    cleanup.run.wp native Guarded (fun r t => Held t ∧ (r = .ok () → Released t.actor)) w :=
  wp_clearing (fun _ => id) clearing_cleanup (held_releasable.cleanup h)

end Actor

/-! ## Preparation -/

/-- Nothing has been started yet. -/
structure Preparing (w : World V) : Prop where
  held : Held w
  process : w.actor.process = none
  prepared : w.state.prepared = none

theorem Preparing.steady {w t : World V} (h : Preparing w) (hs : Steady w t) : Preparing t :=
  ⟨h.held.steady hs, hs.process.trans h.process, hs.prepared.trans h.prepared⟩

theorem Preparing.incomplete {w : World V} (h : Preparing w) : ¬ w.state.complete = true := by
  rw [State.complete, h.prepared]
  exact Bool.false_ne_true

/-- While preparing, only the children and the lock have to be accounted for. -/
theorem Preparing.intro {w t : World V} (h : Preparing w)
    (hlive : ∀ q ∈ t.live, t.actor.preparation = some q)
    (hlock : t.locked = true → t.actor.cache.isSome) (hproc : t.actor.process = none)
    (hstate : t.state.prepared = w.state.prepared) : Preparing t := by
  have hprepared : t.state.prepared = none := hstate.trans h.prepared
  refine ⟨⟨fun q hq => .inr (hlive q hq), ?_, hlock, ?_⟩, hproc, hprepared⟩
  · rw [hproc]
    exact fun hp => by cases hp
  · rw [State.complete, hprepared]
    exact fun hd => by cases hd

theorem Preparing.child {w : World V} (h : Preparing w) :
    ∀ q ∈ w.live, w.actor.preparation = some q := by
  intro q hq
  rcases h.held.owned q hq with hp | hp
  · rw [h.process] at hp
    cases hp
  · exact hp

theorem Preparing.spawn {w : World V} (h : Preparing w) (hp : w.actor.preparation = none) :
    Preparing { w.spawn with actor := { w.actor with preparation := some w.fresh } } := by
  refine h.intro ?_ h.held.locked h.process rfl
  intro q hq
  rcases List.mem_cons.mp hq with rfl | hq
  · rfl
  · have hnone := h.child q hq
    rw [hp] at hnone
    cases hnone

theorem Preparing.reap {w : World V} {p : Nat} (h : Preparing w)
    (hp : w.actor.preparation = some p) :
    Preparing (w.reap p) ∧
      Preparing { w.reap p with actor := { (w.reap p).actor with preparation := none } } := by
  have hleft : ∀ q ∈ (w.reap p).live, False := by
    intro q hq
    simp only [World.reap, World.note, List.mem_filter, decide_eq_true_eq] at hq
    have hq' := h.child q hq.1
    rw [hp] at hq'
    exact hq.2 (Option.some.inj hq').symm
  exact ⟨h.intro (fun q hq => (hleft q hq).elim) h.held.locked h.process rfl,
    h.intro (fun q hq => (hleft q hq).elim) h.held.locked h.process rfl⟩

theorem Preparing.withCache {w : World V} (h : Preparing w) (s : Session) :
    Preparing (w.withCache s) :=
  h.intro h.child (fun _ => rfl) h.process rfl

theorem Preparing.note {w : World V} (h : Preparing w) (e : Event V) : Preparing (w.note e) :=
  h.intro h.child h.held.locked h.process rfl

theorem steady_commandDeadline (step : WorkerCommand) (deadline : Nat) :
    (@commandDeadline V step deadline).Uses fun _ op => op.steady := by
  unfold commandDeadline
  split
  · trivial
  · exact ⟨trivial, fun _ => trivial⟩

namespace Actor

theorem steady_cacheSession : (@cacheSession V).run.Uses fun _ op => op.steady := by
  refine Prog.uses_run_bind ⟨trivial, fun _ => trivial⟩ fun a => ?_
  split <;> trivial

theorem steady_checkProvisioning (deadline : Nat) :
    (@checkProvisioning V deadline).run.Uses fun _ op => op.steady := by
  refine Prog.uses_run_bind ⟨trivial, fun _ => trivial⟩ fun stopped => ?_
  split
  · trivial
  · refine Prog.uses_run_bind ⟨trivial, fun _ => trivial⟩ fun now => ?_
    split <;> trivial

/-- Running a step reaps its child before its result is passed on. -/
theorem held_runStep (step : WorkerCommand) (deadline : Nat) {w : World V} (h : Preparing w) :
    (runStep step deadline).run.wp native Guarded
      (fun r t => Preparing t ∧ ∀ x, r = .ok x → t.actor.preparation = none) w := by
  rw [runStep, Prog.wp_run_bind, wp_act]
  refine ⟨⟨h.held, trivial⟩, ?_⟩
  rintro a t ⟨rfl, rfl⟩
  dsimp only
  split
  · exact ⟨h, fun x hx => by cases hx⟩
  · rename_i p hp
    rw [Prog.wp_run_bind, Prog.wp_run_lift]
    refine Prog.wp_mono _ ?_ _ (wp_steady (steady_commandDeadline step deadline) h.held)
    intro stepDeadline u hu
    have h₁ := h.steady hu
    have hp₁ : u.actor.preparation = some p := hu.preparation.trans hp
    dsimp only
    rw [Prog.wp_run_bind, Prog.wp_run_lift, Preparation.execute, wp_attempt]
    refine ⟨⟨h₁.held, trivial⟩, ?_⟩
    rintro result v rfl
    simp only [Preparation.cleanup, Prog.wp_run_bind, wp_attemptAs, wp_act]
    refine ⟨⟨h₁.held, trivial⟩, ?_⟩
    rintro r x (⟨rfl, rfl⟩ | ⟨⟨reason, rfl⟩, rfl⟩)
    · refine ⟨⟨(h₁.reap hp₁).1.held, fun _ => ⟨.inl rfl, .inr rfl⟩⟩, ?_⟩
      rintro _ y rfl
      exact ⟨(h₁.reap hp₁).2, fun _ _ => rfl⟩
    · exact ⟨h₁, fun x hx => by cases hx⟩

/-- The commands of a recipe never run two at a time. -/
theorem held_provisionSteps (deadline : Nat) (steps : List WorkerCommand) :
    ∀ w : World V, Preparing w → w.actor.preparation = none →
      (provisionSteps deadline steps).run.wp native Guarded (fun _ t => Preparing t) w := by
  induction steps with
  | nil => exact fun w h _ => h
  | cons step rest ih =>
      intro w h hp
      rw [provisionSteps, Prog.wp_run_bind]
      refine Prog.wp_mono _ ?_ _ (wp_steady (steady_checkProvisioning deadline) h.held)
      rintro (e | u) w₁ hs₁
      · exact h.steady hs₁
      have h₁ := h.steady hs₁
      have hp₁ := hs₁.preparation.trans hp
      dsimp only
      rw [Prog.wp_run_bind]
      refine Prog.wp_mono _ ?_ _ (wp_steady steady_cacheSession h₁.held)
      rintro (e | session) w₂ hs₂
      · exact h₁.steady hs₂
      have h₂ := h₁.steady hs₂
      have hp₂ := hs₂.preparation.trans hp₁
      simp only [Prog.wp_run_bind, wp_attempt]
      refine ⟨⟨h₂.held, trivial⟩, ?_⟩
      rintro (e | u) w₃ rfl
      · exact h₂
      dsimp only
      rw [Preparation.spawn, wp_attemptAs]
      refine ⟨⟨h₂.held, h₂.process, hp₂⟩, ?_⟩
      rintro r w₄ (⟨rfl, rfl⟩ | ⟨⟨reason, rfl⟩, rfl⟩)
      · dsimp only
        refine Prog.wp_mono _ ?_ _ (held_runStep step deadline (h₂.spawn hp₂))
        rintro (e | result) w₅ ⟨h₅, hp₅⟩
        · exact h₅
        dsimp only
        rw [Prog.wp_run_mk]
        cases result with
        | error e => exact h₅
        | ok u => exact ih w₅ h₅ (hp₅ _ rfl)
      · exact h₂

theorem held_provisionCache (cached : Cached) (deadline : Nat) {w : World V} (h : Preparing w)
    (hp : w.actor.preparation = none) :
    (provisionCache cached deadline).run.wp native Guarded (fun _ t => Preparing t) w := by
  rw [provisionCache, Prog.wp_run_bind]
  refine Prog.wp_mono _ ?_ _ (wp_steady steady_cacheSession h.held)
  rintro (e | session) w₁ hs₁
  · exact h.steady hs₁
  have h₁ := h.steady hs₁
  have hp₁ := hs₁.preparation.trans hp
  dsimp only
  split
  · rw [wp_attempt]
    refine ⟨⟨h₁.held, trivial⟩, ?_⟩
    rintro r w₂ ⟨s, rfl⟩
    exact (h₁.withCache s).note _
  · split
    · exact h₁
    · rw [Prog.wp_run_bind, wp_attempt]
      refine ⟨⟨h₁.held, trivial⟩, ?_⟩
      rintro r w₂ ⟨s, rfl⟩
      have h₂ := (h₁.withCache s).note .installed
      cases r with
      | error e => exact h₂
      | ok u =>
          dsimp only
          rw [Prog.wp_run_bind]
          refine Prog.wp_mono _ ?_ _ (held_provisionSteps deadline cached.recipe.steps _ h₂ hp₁)
          rintro (e | u) w₃ h₃
          · exact h₃
          dsimp only
          have hrest : (do
              checkProvisioning deadline
              let _ ← cacheSession
              attempt (.publish cached.recipe) :
                ExceptT String (Prog (Op V)) Unit).run.Uses fun _ op => op.steady :=
            Prog.uses_run_bind (steady_checkProvisioning deadline) fun _ =>
              Prog.uses_run_bind steady_cacheSession fun _ => ⟨trivial, fun _ => trivial⟩
          exact Prog.wp_mono _ (fun _ t ht => h₃.steady ht) _ (wp_steady hrest h₃.held)

/-- The property kept by cleaning up while nothing has been started. -/
theorem preparing_releasable : Releasable (V := V) Preparing where
  settle w h := h.intro h.child h.held.locked h.process rfl
  preparation w p h hp := h.reap hp
  cache w s h hs :=
    ⟨h.withCache s, h.intro h.child (fun hl => by cases hl) h.process rfl,
      h.intro h.child (fun hl => by cases hl) h.process rfl⟩
  process w p h hp := by
    rw [h.process] at hp
    cases hp
  backends w h := h.intro h.child h.held.locked h.process rfl

/-- A preparation of the cache that succeeds leaves nothing owned. -/
theorem held_prepareCache {w : World V} (h : Preparing w) (hp : w.actor.preparation = none)
    (hc : w.actor.cache = none) :
    prepareCache.run.wp native Guarded
      (fun r t => Preparing t ∧ (r = .ok () → Released t.actor)) w := by
  rw [prepareCache, Prog.wp_run_bind, wp_act]
  refine ⟨⟨h.held, trivial⟩, ?_⟩
  rintro a t ⟨rfl, rfl⟩
  dsimp only
  split
  · exact ⟨h, fun _ => ⟨h.process, hp, hc⟩⟩
  · rename_i cached _
    rw [Prog.wp_run_bind, wp_act]
    refine ⟨⟨h.held, trivial⟩, ?_⟩
    rintro now u ⟨_, rfl⟩
    dsimp only
    rw [Prog.wp_run_bind, wp_attempt]
    have h₁ : Preparing { t with seen := now } := h.steady ⟨rfl, rfl, rfl, rfl, rfl, rfl⟩
    refine ⟨⟨h₁.held, trivial⟩, ?_⟩
    rintro r v (⟨rfl, s, rfl⟩ | ⟨⟨reason, rfl⟩, rfl⟩)
    · have h₂ : Preparing { (({ t with seen := now } : World V).withCache s) with
          locked := true } := h₁.intro h₁.child (fun _ => rfl) h₁.process rfl
      dsimp only
      rw [Prog.wp_run_bind, Prog.wp_run_lift]
      refine Prog.wp_mono _ ?_ _ (held_provisionCache cached _ h₂ hp)
      intro result x hx
      dsimp only
      rw [Prog.wp_run_bind]
      refine Prog.wp_mono _ ?_ _ (wp_clearing (fun _ ht => ht.held) clearing_cleanupPreparation
        (preparing_releasable.cleanupPreparation hx))
      rintro (e | u) x₁ ⟨hx₁, hp₁⟩
      · exact ⟨hx₁, fun hr => by cases hr⟩
      dsimp only
      rw [Prog.wp_run_bind]
      refine Prog.wp_mono _ ?_ _ (wp_clearing (fun _ ht => ht.held) clearing_cleanupCache
        (preparing_releasable.cleanupCache hx₁ (hp₁ rfl)))
      rintro (e | u) x₂ ⟨hx₂, hp₂⟩
      · exact ⟨hx₂, fun hr => by cases hr⟩
      exact ⟨hx₂, fun _ => ⟨hx₂.process, (hp₂ rfl).1, (hp₂ rfl).2⟩⟩
    · exact ⟨h₁, fun hr => by cases hr⟩

/-- Transient preparation commands never run two at a time, and a success leaves
    none of them. -/
theorem held_prepareSteps (deadline : Nat) (steps : List WorkerCommand) :
    ∀ w : World V, Preparing w → Released w.actor →
      (prepareSteps deadline steps).wp native Guarded
        (fun o t => Preparing t ∧ (o.kind = .complete → Released t.actor)) w := by
  have hfailed : ∀ (t : World V) (reason : Option String), Preparing t →
      Preparing t ∧ ((outcome .failed reason : WorkerOutcome V).kind = .complete →
        Released t.actor) := fun t reason ht => ⟨ht, fun hk => by cases hk⟩
  induction steps with
  | nil =>
      intro w h hr
      rw [prepareSteps, Prog.wp_bind, wp_native]
      refine ⟨⟨h.held, trivial⟩, ?_⟩
      rintro stopped t rfl
      split
      · exact ⟨h, fun hk => by cases hk⟩
      · exact ⟨h, fun _ => hr⟩
  | cons step rest ih =>
      intro w h hr
      rw [prepareSteps, Prog.wp_bind, Preparation.spawn, wp_attemptAs]
      refine ⟨⟨h.held, h.process, hr.preparation⟩, ?_⟩
      rintro r w₁ (⟨rfl, rfl⟩ | ⟨⟨reason, rfl⟩, rfl⟩)
      · have h₁ := h.spawn hr.preparation
        dsimp only
        rw [Prog.wp_bind, wp_native]
        refine ⟨⟨h₁.held, trivial⟩, ?_⟩
        rintro a w₂ ⟨rfl, rfl⟩
        dsimp only
        rw [Prog.wp_bind]
        refine Prog.wp_mono _ ?_ _ (wp_steady (steady_commandDeadline step deadline) h₁.held)
        intro stepDeadline w₃ hs₃
        have h₃ := h₁.steady hs₃
        have hp₃ : w₃.actor.preparation = some w.fresh := hs₃.preparation
        have hc₃ : w₃.actor.cache = none := hs₃.cache.trans hr.cache
        rw [Prog.wp_bind, Preparation.execute, wp_attempt]
        refine ⟨⟨h₃.held, trivial⟩, ?_⟩
        rintro result w₄ rfl
        rw [Prog.wp_bind, Preparation.cleanup, wp_attemptAs]
        refine ⟨⟨h₃.held, trivial⟩, ?_⟩
        rintro r w₅ (⟨rfl, rfl⟩ | ⟨⟨reason, rfl⟩, rfl⟩)
        · dsimp only
          rw [Prog.wp_bind, wp_native]
          refine ⟨⟨(h₃.reap hp₃).1.held, fun _ => ⟨.inl rfl, .inr rfl⟩⟩, ?_⟩
          rintro _ w₆ rfl
          cases result with
          | error reason => exact hfailed _ _ (h₃.reap hp₃).2
          | ok u => exact ih _ (h₃.reap hp₃).2 ⟨h₃.process, rfl, hc₃⟩
        · exact hfailed _ _ h₃
      · exact hfailed _ _ h

theorem complete_publishPrepared (plan : WorkerPlan) (o : WorkerOutcome V) (s : State V) :
    (s.publishPrepared plan o).complete = decide (o.kind = .complete) := by
  have hprepared : (s.publishPrepared plan o).prepared = some o := by
    unfold State.publishPrepared
    split <;> rfl
  rw [State.complete, hprepared]

theorem held_servePrepare {w : World V} (h : Preparing w) (hr : Released w.actor) :
    servePrepare.wp native Guarded (fun _ t => Held t) w := by
  have hprepare : prepare.wp native Guarded
      (fun o t => Preparing t ∧ (o.kind = .complete → Released t.actor)) w := by
    rw [prepare, Prog.wp_bind]
    refine Prog.wp_mono _ ?_ _ (held_prepareCache h hr.preparation hr.cache)
    rintro (e | u) w₁ ⟨h₁, hr₁⟩
    · exact ⟨h₁, fun hk => by cases hk⟩
    have hr₁ := hr₁ rfl
    dsimp only
    rw [Prog.wp_bind, wp_native]
    refine ⟨⟨h₁.held, trivial⟩, ?_⟩
    rintro a w₂ ⟨rfl, rfl⟩
    rw [Prog.wp_bind, wp_native]
    refine ⟨⟨h₁.held, trivial⟩, ?_⟩
    rintro now w₃ ⟨_, rfl⟩
    have hs₃ : Steady w₂ { w₂ with seen := now } := ⟨rfl, rfl, rfl, rfl, rfl, rfl⟩
    rw [Prog.wp_bind, wp_native]
    refine ⟨⟨(h₁.steady hs₃).held, trivial⟩, ?_⟩
    rintro r w₄ (⟨rfl, rfl⟩ | ⟨⟨reason, rfl⟩, rfl⟩)
    · exact held_prepareSteps _ _ _ (h₁.steady ⟨rfl, rfl, rfl, rfl, rfl, rfl⟩)
        ⟨hr₁.process, hr₁.preparation, hr₁.cache⟩
    · exact ⟨h₁.steady ⟨rfl, rfl, rfl, rfl, rfl, rfl⟩, fun hk => by cases hk⟩
  rw [servePrepare, Prog.wp_bind]
  refine Prog.wp_mono _ ?_ _ hprepare
  rintro o w₁ ⟨h₁, hr₁⟩
  rw [Prog.wp_bind, wp_native]
  refine ⟨⟨h₁.held, trivial⟩, ?_⟩
  rintro a w₂ ⟨rfl, rfl⟩
  rw [Prog.wp_bind, wp_native]
  refine ⟨⟨h₁.held, trivial⟩, ?_⟩
  rintro _ w₃ rfl
  refine ⟨h₁.held.owned, h₁.held.alone, h₁.held.locked, ?_⟩
  intro hd
  have hk : o.kind = .complete := of_decide_eq_true (complete_publishPrepared .. ▸ hd)
  exact ⟨(hr₁ hk).preparation, (hr₁ hk).cache⟩

/-! ### Startup and operations -/

theorem calm_awaitReply (codec : Codec V) (p : Nat) (id : String) (fuel remaining : Nat) :
    (Process.awaitReply codec p id fuel remaining).run.Uses fun _ op => op.calm := by
  induction fuel generalizing remaining with
  | zero => trivial
  | succ fuel ih =>
      refine Prog.uses_run_bind ⟨trivial, fun _ => trivial⟩ fun body => ?_
      split
      · trivial
      · split
        · exact ih _
        · split
          · trivial
          · exact ih _

theorem calm_attemptAs {α : Type} (reason : String) {op : Op V (Except String α)}
    (h : op.calm) : (attemptAs reason op).run.Uses fun _ op => op.calm := by
  refine ⟨h, fun r => ?_⟩
  cases r <;> trivial

theorem calm_request (codec : Codec V) (p : Nat) (request : ServerRequest V) :
    (Process.request codec p request).run.Uses fun _ op => op.calm := by
  unfold Process.request
  split
  · trivial
  · split
    · trivial
    · exact Prog.uses_run_bind ⟨trivial, fun _ => trivial⟩ fun _ =>
        Prog.uses_run_bind (calm_attemptAs _ trivial) fun _ =>
          Prog.uses_run_bind (calm_attemptAs _ trivial) fun _ =>
            calm_awaitReply codec p _ _ _

theorem calm_timeoutAt {α : Type} (deadline : Nat) {p : Prog (Op V) α}
    (h : p.Uses fun _ op => op.calm) : (timeoutAt deadline p).Uses fun _ op => op.calm :=
  Prog.uses_cut trivial h

theorem calm_exchange (codec : Codec V) (request : WorkerRequest V) (p deadline : Nat) :
    (exchange codec request p deadline).Uses fun _ op => op.calm := by
  refine Prog.uses_bind ⟨trivial, fun _ => trivial⟩ fun stopped => ?_
  split
  · trivial
  · have hi : (Op.stopped : Op V Bool).calm := trivial
    refine Prog.uses_bind ⟨trivial, fun _ => trivial⟩ fun _ => Prog.uses_bind
      (Prog.uses_cut hi (calm_timeoutAt deadline (calm_request codec p _))) fun r => ?_
    rcases r with _ | _ | r <;> trivial

theorem calm_handshake (codec : Codec V) : (handshake codec).Uses fun _ op => op.calm := by
  have hi : (Op.stopped : Op V Bool).calm := trivial
  refine Prog.uses_bind ⟨trivial, fun _ => trivial⟩ fun a => ?_
  dsimp only
  split
  · trivial
  · rename_i p _
    have hready : (Process.handshake codec p).run.Uses fun _ op => op.calm := by
      refine Prog.uses_run_bind ⟨trivial, fun _ => trivial⟩ fun body => ?_
      split
      · trivial
      · split
        · trivial
        · split <;> trivial
    refine Prog.uses_bind ⟨trivial, fun _ => trivial⟩ fun stopped => ?_
    split
    · trivial
    · refine Prog.uses_bind (Prog.uses_cut hi (Prog.uses_bind ⟨trivial, fun _ => trivial⟩
        fun now => Prog.uses_bind (calm_timeoutAt _ hready) fun r => ?_)) fun r => ?_
      · rcases r with _ | _ | r <;> trivial
      · rcases r with _ | r <;> trivial

theorem calm_touch (response : ServerResponse V) :
    (touch response).Uses fun _ op => op.calm := by
  unfold touch
  split
  · exact ⟨trivial, fun _ => ⟨fun _ => rfl, fun _ => trivial⟩⟩
  · trivial

theorem calm_backingOff (a : Actor V) : (backingOff a).Uses fun _ op => op.calm := by
  unfold backingOff
  split
  · trivial
  · exact ⟨trivial, fun _ => trivial⟩

theorem calm_usable (p : Nat) : (@usable V p).Uses fun _ op => op.calm := by
  refine Prog.uses_bind ⟨trivial, fun _ => trivial⟩ fun s => ?_
  split
  · exact ⟨trivial, fun _ => trivial⟩
  · trivial

theorem steady_calm {α : Type} {p : Prog (Op V) α} (hp : p.Uses fun _ op => op.calm) :
    p.Uses fun _ op => op.steady :=
  Prog.uses_mono (fun _ _ h => h.steady) hp

theorem held_startFailed (reason : String) {w : World V} (h : Held w) :
    (startFailed reason).wp native Guarded (fun _ t => Held t) w := by
  rw [startFailed, Prog.wp_bind]
  refine Prog.wp_mono _ ?_ _ (held_cleanup h)
  rintro (e | u) t ⟨ht, _⟩
  · exact ht
  · refine wp_steady_held ?_ ht
    exact ⟨trivial, fun _ => ⟨fun _ => ⟨rfl, rfl, rfl⟩, fun _ =>
      ⟨fun _ => rfl, fun _ => trivial⟩⟩⟩

theorem held_started (backends : List String) {w : World V} (h : Held w) :
    (started backends).wp native Guarded (fun _ t => Held t) w := by
  rw [started, Prog.wp_bind, wp_native]
  refine ⟨⟨h, trivial⟩, ?_⟩
  rintro stopped t rfl
  cases stopped with
  | true => exact held_startFailed _ h
  | false =>
      refine wp_steady_held ?_ h
      exact ⟨trivial, fun _ => ⟨trivial, fun _ => ⟨fun _ => ⟨rfl, rfl, rfl⟩,
        fun _ => ⟨fun _ => rfl, fun _ => trivial⟩⟩⟩⟩

/-- A worker is launched when nothing is owned. -/
theorem held_launch (codec : Codec V) {w : World V} (h : Held w) (hr : Released w.actor) :
    (launch codec).wp native Guarded (fun _ t => Held t) w := by
  rw [launch, Prog.wp_bind, wp_native]
  refine ⟨⟨h, trivial⟩, ?_⟩
  rintro a t ⟨rfl, rfl⟩
  rw [Prog.wp_bind]
  refine Prog.wp_mono _ ?_ _ (wp_steady (steady_calm (calm_backingOff _)) h)
  intro wait w₁ hs₁
  have h₁ := h.steady hs₁
  cases wait with
  | true => exact h₁
  | false =>
      have hr₁ := Released.steady hr hs₁
      simp only [Bool.false_eq_true, ↓reduceIte, Prog.wp_bind, wp_native]
      refine ⟨⟨h₁, trivial⟩, ?_⟩
      rintro _ w₂ rfl
      have hs₂ : Steady w₁ { w₁ with state := State.setPhase .starting w₁.state } :=
        ⟨rfl, rfl, rfl, rfl, rfl, rfl⟩
      have h₂ := h₁.steady hs₂
      have hr₂ := Released.steady hr₁ hs₂
      have hlive := h₂.live_nil hr₂
      rw [spawnReady, Prog.wp_bind, wp_native]
      refine ⟨⟨h₂, hr₂.process, hr₂.preparation⟩, ?_⟩
      rintro r w₃ (⟨rfl, rfl⟩ | ⟨⟨reason, rfl⟩, rfl⟩)
      · have h₃ : Held { World.spawn { w₁ with state := State.setPhase .starting w₁.state } with
            actor := { w₁.actor with process := some w₁.fresh } } := by
          refine ⟨?_, fun _ => ⟨hr₂.preparation, hr₂.cache⟩, h₂.locked, h₂.done⟩
          intro q hq
          rcases List.mem_cons.mp hq with rfl | hq
          · exact .inl rfl
          · rw [hlive] at hq
            cases hq
        refine Prog.wp_mono _ ?_ _ (wp_steady_held (steady_calm (calm_handshake codec)) h₃)
        intro r t ht
        cases r with
        | error reason => exact held_startFailed _ ht
        | ok backends => exact held_started _ ht
      · exact held_startFailed _ h₂

theorem held_reuse (codec : Codec V) {w : World V} (h : Held w)
    (hr : w.actor.process = none → Released w.actor) :
    (reuse codec).wp native Guarded (fun _ t => Held t) w := by
  rw [reuse, Prog.wp_bind, wp_native]
  refine ⟨⟨h, trivial⟩, ?_⟩
  rintro a t ⟨rfl, rfl⟩
  split
  · rename_i hp
    exact held_launch codec h (hr hp)
  · rw [Prog.wp_bind]
    refine Prog.wp_mono _ ?_ _ (wp_steady_held (steady_calm (calm_usable _)) h)
    intro keep w₁ h₁
    cases keep with
    | true => exact h₁
    | false =>
        simp only [Bool.false_eq_true, ↓reduceIte, Prog.wp_bind]
        refine Prog.wp_mono _ ?_ _ (held_cleanup h₁)
        rintro (e | u) w₂ ⟨h₂, hr₂⟩
        · exact h₂
        · exact held_launch codec h₂ (hr₂ rfl)

theorem held_start (codec : Codec V) {w : World V} (h : Held w) :
    (start codec).wp native Guarded (fun _ t => Held t) w := by
  rw [start, Prog.wp_bind, wp_native]
  refine ⟨⟨h, trivial⟩, ?_⟩
  rintro stopped t rfl
  cases stopped with
  | true => exact h
  | false =>
      simp only [Bool.false_eq_true, ↓reduceIte, Prog.wp_bind, wp_native]
      refine ⟨⟨h, trivial⟩, ?_⟩
      rintro s t ⟨rfl, rfl⟩
      split
      · exact h
      · rename_i hcomplete
        have hdone := h.done (Bool.not_eq_false _ ▸ hcomplete)
        simp only [Prog.wp_bind, wp_native]
        refine ⟨⟨h, trivial⟩, ?_⟩
        rintro a t ⟨rfl, rfl⟩
        refine ⟨⟨h, trivial⟩, ?_⟩
        rintro now u ⟨_, rfl⟩
        have hs : Steady t { t with seen := now } := ⟨rfl, rfl, rfl, rfl, rfl, rfl⟩
        split
        · rw [Prog.wp_bind]
          refine Prog.wp_mono _ ?_ _ (held_cleanup (h.steady hs))
          rintro (e | u) w₂ ⟨h₂, hr₂⟩
          · exact h₂
          · exact held_reuse codec h₂ fun _ => hr₂ rfl
        · exact held_reuse codec (h.steady hs) fun hp => ⟨hp, hdone.1, hdone.2⟩

theorem held_afterFailure (deadline : Nat) (reason : String) {w : World V} (h : Held w) :
    (afterFailure deadline reason).wp native Guarded (fun _ t => Held t) w := by
  rw [afterFailure, Prog.wp_bind]
  refine Prog.wp_mono _ ?_ _ (held_cleanup h)
  rintro (e | u) t ⟨ht, _⟩
  · exact ht
  · refine wp_steady_held ?_ ht
    refine Prog.uses_bind ⟨trivial, fun _ => trivial⟩ fun stopped => ?_
    split
    · trivial
    · refine Prog.uses_bind ⟨trivial, fun _ => trivial⟩ fun now => ?_
      split <;> trivial

theorem held_tries (codec : Codec V) (request : WorkerRequest V) (deadline left : Nat) :
    ∀ (attempted : Bool) (reason : String) (w : World V), Held w →
      (tries codec request deadline left attempted reason).wp native Guarded
        (fun _ t => Held t) w := by
  induction left with
  | zero => exact fun _ _ _ h => h
  | succ left ih =>
      intro attempted reason w h
      rw [tries, Prog.wp_bind]
      refine Prog.wp_mono _ ?_ _ (wp_held_timeout deadline (held_start codec h))
      rintro (_ | started) w₁ h₁
      · rw [Prog.wp_bind, startTimedOut, Prog.wp_bind]
        refine Prog.wp_mono _ ?_ _ (held_cleanup h₁)
        rintro (e | u) t ⟨ht, _⟩ <;> exact ht
      · dsimp only
        split
        · exact h₁
        · rw [Prog.wp_bind, wp_native]
          refine ⟨⟨h₁, trivial⟩, ?_⟩
          rintro a t ⟨rfl, rfl⟩
          split
          · exact h₁
          · rw [Prog.wp_bind]
            refine Prog.wp_mono _ ?_ _
              (wp_steady_held (steady_calm (calm_exchange codec request _ deadline)) h₁)
            rintro ⟨result, sent⟩ w₂ h₂
            dsimp only
            split
            · rw [Prog.wp_bind]
              exact Prog.wp_mono _ (fun _ _ ht => ht) _ (wp_steady_held (steady_calm (calm_touch _)) h₂)
            · rw [Prog.wp_bind]
              refine Prog.wp_mono _ ?_ _ (held_afterFailure deadline _ h₂)
              rintro (_ | ended) w₃ h₃
              · exact ih _ _ w₃ h₃
              · exact h₃

theorem held_request [BEq V] (codec : Codec V) (request : WorkerRequest V) (deadline : Nat)
    {w : World V} (h : Held w) :
    (Actor.request codec request deadline).wp native Guarded (fun _ t => Held t) w := by
  have htime : ∀ (t : World V) (now : Nat), Held t → Held { t with seen := now } :=
    fun t now ht => ht.steady ⟨rfl, rfl, rfl, rfl, rfl, rfl⟩
  rw [Actor.request, Prog.wp_bind, wp_native]
  refine ⟨⟨h, trivial⟩, ?_⟩
  rintro now t ⟨_, rfl⟩
  split
  · exact htime _ _ h
  · rw [Prog.wp_bind, wp_native]
    refine ⟨⟨htime _ _ h, trivial⟩, ?_⟩
    rintro a t ⟨rfl, rfl⟩
    dsimp only
    split
    · split <;> exact htime _ _ h
    · split
      · exact htime _ _ h
      · rw [Prog.wp_bind, dispatch, Prog.wp_bind, wp_native]
        refine ⟨⟨htime _ _ h, trivial⟩, ?_⟩
        rintro now₂ u ⟨_, rfl⟩
        have hrecord : ∀ (r : WorkerOutcome V × Bool) (t : World V), Held t →
            (do
              if r.2 then
                Prog.op (.update (record request r.1))
              pure r.1 : Prog (Op V) (WorkerOutcome V)).wp native Guarded (fun _ t => Held t) t := by
          rintro ⟨result, attempted⟩ t ht
          refine wp_steady_held ?_ ht
          cases attempted with
          | true => exact ⟨fun _ => ⟨rfl, rfl, rfl⟩, fun _ => trivial⟩
          | false => trivial
        split
        · exact hrecord _ _ (htime _ _ (htime _ _ h))
        · exact Prog.wp_mono _ (fun r t ht => hrecord r t ht) _
            (held_tries codec request deadline 2 false _ _ (htime _ _ (htime _ _ h)))

/-- A release that succeeds leaves nothing, the private directory included. -/
theorem held_release {w : World V} (h : Held w) :
    release.wp native Guarded (fun b t => Held t ∧ (b = true → Gone t)) w := by
  rw [release, Prog.wp_bind]
  refine Prog.wp_mono _ ?_ _ (held_cleanup h)
  rintro (e | u) t ⟨ht, hr⟩
  · exact ⟨ht, fun hb => by cases hb⟩
  · dsimp only
    rw [wp_native]
    refine ⟨⟨ht, trivial⟩, ?_⟩
    rintro b v (⟨rfl, rfl⟩ | ⟨rfl, rfl⟩)
    · have hd : Held { t with dir := false } := ht.steady ⟨rfl, rfl, rfl, rfl, rfl, rfl⟩
      exact ⟨hd, fun _ => ⟨hd, hr rfl, rfl⟩⟩
    · exact ⟨ht, fun hb => by cases hb⟩

end Actor

/-! ## All runs -/

theorem custody_contract [BEq V] (codec : Codec V) (plan : WorkerPlan)
    (cached : Option Cached) : Contract codec plan cached Guarded Held Held Gone where
  asserted _ _ _ h := h.1
  settled _ h := h
  closed _ h := h.held
  prepare now := by
    have hnew : Preparing (Supervisor.new plan cached now : Supervisor V).world :=
      ⟨⟨fun _ hq => (by cases hq), fun hp => (by cases hp), fun hl => (by cases hl),
        fun hd => by cases hd⟩, rfl, rfl⟩
    exact Actor.held_servePrepare hnew ⟨rfl, rfl, rfl⟩
  tick prepared w h := by
    rw [Actor.supervise, Prog.wp_bind, wp_native]
    refine ⟨⟨h, trivial⟩, ?_⟩
    rintro a t ⟨rfl, rfl⟩
    rw [Prog.wp_bind]
    have hunusable : (Actor.unusable t.actor).Uses fun _ op => op.steady := by
      unfold Actor.unusable
      split
      · trivial
      · exact ⟨trivial, fun _ => trivial⟩
    refine Prog.wp_mono _ ?_ _ (wp_steady_held hunusable h)
    intro gone u hu
    rw [Prog.wp_bind, wp_native]
    refine ⟨⟨hu, trivial⟩, ?_⟩
    rintro a v ⟨rfl, rfl⟩
    dsimp only
    split
    · rw [Prog.wp_bind]
      exact Prog.wp_mono _ (fun _ _ hr => hr.1) _ (Actor.held_cleanup hu)
    · exact hu
  command command w h := by
    have h₁ : Held { w with commands := w.commands + 1 } := h.steady ⟨rfl, rfl, rfl, rfl, rfl, rfl⟩
    have hreply : ∀ (o : WorkerOutcome V) (t : World V), Held t →
        (Prog.op (.reply o)).wp native Guarded (fun _ t => Held t) t := by
      refine fun o t ht => wp_steady_held ?_ ht
      exact ⟨trivial, fun _ => trivial⟩
    cases command with
    | start =>
        rw [Actor.serveCommand, Prog.wp_bind]
        exact Prog.wp_mono _ (fun o t ht => hreply o t ht) _ (Actor.held_start codec h₁)
    | request request deadline replyClosed =>
        rw [Actor.serveCommand]
        split
        · exact h₁
        · rw [Prog.wp_bind]
          exact Prog.wp_mono _ (fun o t ht => hreply o t ht) _
            (Actor.held_request codec request deadline h₁)
  close w h := by
    rw [Actor.closePass, Prog.wp_bind]
    refine Prog.wp_mono _ ?_ _ (Actor.held_release h)
    rintro last t ⟨ht, hgone⟩
    cases last with
    | true =>
        have hg := hgone rfl
        simp only [↓reduceIte, Prog.wp_bind, wp_native]
        refine ⟨⟨ht, trivial⟩, ?_⟩
        rintro _ u rfl
        exact ⟨⟨ht.owned, ht.alone, ht.locked, ht.done⟩, hg.released, hg.dir⟩
    | false =>
        simp only [Bool.false_eq_true, ↓reduceIte, Prog.wp_bind, wp_native]
        refine ⟨⟨ht, trivial⟩, ?_⟩
        rintro _ u rfl
        have hu : Held { t with state := { t.state with cleanupFailed := true } } :=
          ⟨ht.owned, ht.alone, ht.locked, ht.done⟩
        refine ⟨⟨hu, trivial⟩, ?_⟩
        rintro _ v rfl
        exact hu

/-- The two fields for children. -/
inductive Seat
  | process
  | preparation

def Seat.of (seat : Seat) (w : World V) : Option Nat :=
  match seat with
  | .process => w.actor.process
  | .preparation => w.actor.preparation

/-- Every spawned child is alive or was reaped, and the fields hold spawned
    children. -/
structure Accounted (w : World V) : Prop where
  fate : ∀ p, p < w.fresh → p ∈ w.live ∨ Event.reaped p ∈ w.log
  spawned : ∀ (seat : Seat) p, seat.of w = some p → p < w.fresh

/-- What one effect can do to a field: leave it, give it up, or fill it with a
    new child. -/
theorem seat_answers {β : Type} {op : Op V β} {w t : World V} {b : β} (hs : op.sound w)
    (h : Answers op w b t) (seat : Seat) :
    seat.of t = seat.of w ∨ (seat.of t = none ∧ t.live = w.live ∧ t.log = w.log) ∨
      (Seat.process.of w = none ∧ Seat.preparation.of w = none ∧ seat.of t = some w.fresh ∧
        t.fresh = w.fresh + 1) := by
  cases op with
  | update f =>
      rcases h with rfl
      rcases hs w.actor with ⟨hproc, hprep⟩
      cases seat with
      | process => exact hproc.imp id fun hn => .inl ⟨hn, rfl, rfl⟩
      | preparation => exact hprep.imp id fun hn => .inl ⟨hn, rfl, rfl⟩
  | spawnProcess =>
      rcases h with ⟨_, rfl⟩ | ⟨_, rfl⟩
      · cases seat with
        | process => exact .inr (.inr ⟨hs.1, hs.2, rfl, rfl⟩)
        | preparation => exact .inl rfl
      · exact .inl rfl
  | spawnPreparation =>
      rcases h with ⟨_, rfl⟩ | ⟨_, rfl⟩
      · cases seat with
        | process => exact .inl rfl
        | preparation => exact .inr (.inr ⟨hs.1, hs.2, rfl, rfl⟩)
      · exact .inl rfl
  | _ =>
      left
      cases seat <;> simp only [Answers] at h <;> grind [Seat.of, World.withCache, World.note,
        World.reap]

theorem fate_answers {β : Type} {op : Op V β} {w t : World V} {b : β}
    (hw : ∀ p, p < w.fresh → p ∈ w.live ∨ Event.reaped p ∈ w.log) (h : Answers op w b t) :
    ∀ p, p < t.fresh → p ∈ t.live ∨ Event.reaped p ∈ t.log := by
  intro p hp
  cases op with
  | spawnProcess | spawnPreparation =>
      rcases h with ⟨_, rfl⟩ | ⟨_, rfl⟩
      · rcases Nat.lt_succ_iff_lt_or_eq.mp hp with hp | rfl
        · exact (hw p hp).imp (List.mem_cons_of_mem _) (List.mem_append_left _)
        · exact .inl (List.mem_cons_self ..)
      · exact hw p hp
  | reap q =>
      rcases h with ⟨_, rfl⟩ | ⟨_, rfl⟩
      · rcases hw p hp with hlive | hlog
        · by_cases hpq : p = q
          · exact .inr (hpq ▸ List.mem_append_right _ (List.mem_singleton_self _))
          · exact .inl (List.mem_filter.mpr ⟨hlive, decide_eq_true hpq⟩)
        · exact .inr (List.mem_append_left _ hlog)
      · exact hw p hp
  | _ =>
      simp only [Answers] at h
      grind [World.withCache, World.note]

theorem accounted [BEq V] {codec : Codec V} {plan : WorkerPlan} {cached : Option Cached}
    {s : Supervisor V} (h : Transition.Reachable (supervisor codec plan cached) s) :
    Accounted s.world := by
  refine Transition.invariant (fun s : Supervisor V => Accounted s.world) ?_ ?_ h
  · rintro s ⟨now, rfl⟩
    exact ⟨fun p hp => absurd hp (Nat.not_lt_zero p), fun seat p hp => by cases seat <;> cases hp⟩
  · intro s m t hr hw hm
    rcases Supervisor.answers_of_move ((custody_contract codec plan cached).reachable hr) hm with
      ⟨β, op, b, hg, ha⟩ | heq
    · have hfresh : s.world.fresh ≤ t.world.fresh := by
        cases op <;> simp only [Answers] at ha <;> grind [World.withCache, World.note,
          World.reap, World.spawn]
      refine ⟨fate_answers hw.fate ha, fun seat p hp => ?_⟩
      rcases seat_answers hg.2 ha seat with hsame | ⟨hnone, _⟩ | ⟨_, _, hnew, hnext⟩
      · exact Nat.lt_of_lt_of_le (hw.spawned seat p (hsame ▸ hp)) hfresh
      · rw [hnone] at hp
        cases hp
      · rw [hnew] at hp
        cases hp
        omega
    · rw [heq]
      exact ⟨hw.fate, fun seat p hp => hw.spawned seat p (by cases seat <;> exact hp)⟩

/-- **No child is lost.** In every reachable state of a supervisor at most one of
    the two fields holds a child, a process excludes a preparation and a cache
    session, and every child not yet reaped is in one of the fields. In every step
    a field that is assigned a child was empty, and a field is given up only after
    its child was reaped. -/
theorem children_reaped [BEq V] (codec : Codec V) (plan : WorkerPlan) (cached : Option Cached)
    {s : Supervisor V} (h : Transition.Reachable (supervisor codec plan cached) s) :
    (s.world.actor.process = none ∨ s.world.actor.preparation = none) ∧
    (s.world.actor.process.isSome →
      s.world.actor.preparation = none ∧ s.world.actor.cache = none) ∧
    (∀ q ∈ s.world.live, s.world.actor.process = some q ∨ s.world.actor.preparation = some q) ∧
    ∀ (m : Move V) (t : Supervisor V), s.move codec m = some t → ∀ seat : Seat,
      (∀ p, seat.of t.world = some p → seat.of s.world = some p ∨ seat.of s.world = none) ∧
      ∀ p, seat.of s.world = some p →
        seat.of t.world = some p ∨ seat.of t.world = none ∧ Event.reaped p ∈ s.world.log := by
  have hholds := (custody_contract codec plan cached).reachable h
  have hheld := (custody_contract codec plan cached).always hholds
  have hacc := accounted h
  refine ⟨?_, hheld.alone, hheld.owned, ?_⟩
  · cases hp : s.world.actor.process with
    | none => exact .inl rfl
    | some p => exact .inr (hheld.alone (by rw [hp]; rfl)).1
  · intro m t hm seat
    have hheld' := (custody_contract codec plan cached).always
      ((custody_contract codec plan cached).move hholds hm)
    rcases Supervisor.answers_of_move hholds hm with ⟨β, op, b, hg, ha⟩ | heq
    · refine ⟨fun p hp => ?_, fun p hp => ?_⟩
      · rcases seat_answers hg.2 ha seat with hsame | ⟨hnone, _⟩ | ⟨hproc, hprep, _⟩
        · exact .inl (hsame ▸ hp)
        · rw [hnone] at hp
          cases hp
        · cases seat with
          | process => exact .inr hproc
          | preparation => exact .inr hprep
      · rcases seat_answers hg.2 ha seat with hsame | ⟨hnone, hlive, hlog⟩ | ⟨hproc, hprep, _⟩
        · exact .inl (hsame ▸ hp)
        · refine .inr ⟨hnone, (hacc.fate p (hacc.spawned seat p hp)).resolve_left fun hin => ?_⟩
          -- A child that is alive would have to sit in the other field.
          have howned := hheld'.owned p (hlive ▸ hin)
          have hother : ∀ other : Seat, other.of s.world = none → other.of t.world ≠ some p := by
            intro other hempty hfull
            rcases seat_answers hg.2 ha other with hs | ⟨hn, _⟩ | ⟨_, _, hf, _⟩
            · rw [hs, hempty] at hfull
              cases hfull
            · rw [hn] at hfull
              cases hfull
            · rw [hf] at hfull
              cases hfull
              exact absurd (hacc.spawned seat _ hp) (Nat.lt_irrefl _)
          cases seat with
          | process =>
              rcases howned with hq | hq
              · exact absurd (hnone.symm.trans hq) (by simp only [reduceCtorEq, not_false_eq_true])
              · have hsome : s.world.actor.process.isSome := by
                  rw [show s.world.actor.process = some p from hp]
                  rfl
                exact hother .preparation (hheld.alone hsome).1 hq
          | preparation =>
              rcases howned with hq | hq
              · refine hother .process ?_ hq
                cases hc : s.world.actor.process with
                | none => exact hc
                | some r =>
                    have hempty := (hheld.alone (by rw [hc]; rfl)).1
                    exact absurd (hempty.symm.trans hp) (by simp only [reduceCtorEq,
                      not_false_eq_true])
              · exact absurd (hnone.symm.trans hq) (by simp only [reduceCtorEq, not_false_eq_true])
        · cases seat with
          | process => exact absurd (hproc.symm.trans hp) (by simp only [reduceCtorEq,
              not_false_eq_true])
          | preparation => exact absurd (hprep.symm.trans hp) (by simp only [reduceCtorEq,
              not_false_eq_true])
    · have hsame : seat.of t.world = seat.of s.world := by
        rw [heq]
        cases seat <;> rfl
      rw [hsame]
      exact ⟨fun p hp => .inl hp, fun p hp => .inl hp⟩

/-- A running worker is the only child there is. -/
theorem children_reaped_running : ∃ s : Supervisor Unit, s.world.actor.process = some 0 ∧
    s.world.actor.preparation = none ∧ s.world.actor.cache = none ∧
      ∀ q ∈ s.world.live, s.world.actor.process = some q ∨ s.world.actor.preparation = some q := by
  rcases answeredRun_reachable with ⟨s, hreach, _, _, hproc, _⟩
  rcases children_reaped answeringCodec plainPlan none hreach with ⟨_, halone, howned, _⟩
  have hsome : s.world.actor.process.isSome := by
    rw [hproc]
    rfl
  exact ⟨s, hproc, (halone hsome).1, (halone hsome).2, howned⟩

end TinyRuntime
