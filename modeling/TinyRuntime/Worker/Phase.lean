import TinyRuntime.Worker.Published

/-!
# Phase and Back-off

Whether the published phase tells that a start would be refused.

Between two commands either the back-off is over, or the phase says that the last
start failed and nothing is owned (`Agreed`). Releasing publishes the phase of a
prepared supervisor and does not look at the back-off, so the invariant needs that
nothing is released while the back-off runs. Whatever is owned is a reason to
release it, and by then the back-off is over. The one release without such a reason
is that of an idle worker, which happens whether there is a worker or not. A plan
without an idle rule keeps the invariant, and for every plan with one there is a
run that breaks it.

## Main definitions

* `WorkerPlan.expires`: The plan has an idle rule that can apply.
* `Supervisor.Refusing`: A start issued now would be refused.
* `Agreed`: What holds between two commands.
* `Resting`: A prepared supervisor that owns nothing.

## Theorems

* `agreed_contract`: Without an idle rule the phase agrees with the back-off.
* `can_prepare`: A preparation can succeed.
* `can_fail`, `can_refuse`: What two starts in a row can do.
* `expires_disagrees`: The run of a plan with an idle rule.
* `phase_agrees_iff`: The phase agrees exactly without one.
-/

namespace TinyRuntime

open Prog (act attempt)

variable {V : Type}

/-- The plan has an idle rule that can apply. -/
def WorkerPlan.expires (plan : WorkerPlan) : Bool :=
  0 < plan.idleTimeoutMs
    && (match plan.idleBackend with
        | none => false
        | some id => plan.backends.contains id)

/-- A start issued now would be refused: the back-off is not over, and the start can
    answer so. -/
def Supervisor.Refusing (codec : Codec V) (s : Supervisor V) : Prop :=
  (∃ after, s.world.actor.retryAfter = some after ∧ s.world.seen < after) ∧
    ∃ w, Prog.Reaches native (Actor.start codec) s.world
      (.done (outcome .failed (some "startup_backoff"))) w

theorem idle_expires {a : Actor V} {now : Nat} (h : Actor.idle a now = true) :
    a.plan.expires = true := by
  simp only [Actor.idle, Bool.and_eq_true] at h
  simp only [WorkerPlan.expires, Bool.and_eq_true]
  exact h.1

/-! ## Without an idle rule -/

/-- What holds between two commands of a supervisor. -/
structure Agreed (codec : Codec V) (plan : WorkerPlan) (w : World V) : Prop where
  published : Published codec plan w
  failed : w.state.complete = true →
    Due w ∨ w.state.status.phase = .failed ∧ Actor.Released w.actor

/-- What holds where something may be released. -/
structure Releasing (codec : Codec V) (plan : WorkerPlan) (w : World V) : Prop where
  published : Published codec plan w
  due : w.state.complete = true → Due w

section Agreed

variable {codec : Codec V} {plan : WorkerPlan} {w t : World V}

theorem Releasing.agreed (h : Releasing codec plan w) : Agreed codec plan w :=
  ⟨h.published, fun hc => .inl (h.due hc)⟩

theorem Releasing.calm (h : Releasing codec plan w) (hc : Calm w t) : Releasing codec plan t :=
  ⟨h.published.calm hc, fun hd => (h.due (hc.steady.complete ▸ hd)).plain hc.plain⟩

theorem Agreed.calm (h : Agreed codec plan w) (hc : Calm w t) : Agreed codec plan t := by
  refine ⟨h.published.calm hc, fun hd => ?_⟩
  rcases h.failed (hc.steady.complete ▸ hd) with hdue | ⟨hphase, hr⟩
  · exact .inl (hdue.plain hc.plain)
  · exact .inr ⟨hc.plain.state ▸ hphase, Released.steady hr hc.steady⟩

/-- Whatever is owned was started after the back-off. -/
theorem Agreed.releasing (h : Agreed codec plan w) (ho : w.actor.Owning) :
    Releasing codec plan w := by
  refine ⟨h.published, fun hc => (h.failed hc).resolve_right ?_⟩
  rintro ⟨_, hr⟩
  simp only [Actor.Owning, hr.process, hr.preparation, hr.cache, Option.isSome_none,
    Bool.false_eq_true, or_self] at ho

theorem agreed_serving (hplan : plan.expires = false) :
    Serving codec (fun _ _ _ => True) (Agreed codec plan) (Releasing codec plan) where
  weaken _ h := h.agreed
  calm _ _ h hc := h.calm hc
  due _ _ h hc := h.calm hc
  asserts _ _ _ _ _ := trivial
  owning _ h ho := h.releasing ho
  idle w now h hi := by
    have hexpires := idle_expires hi
    rw [h.published.planned, hplan] at hexpires
    exact absurd hexpires Bool.false_ne_true
  cleanup w h := by
    have hboth := Prog.wp_and _ w (Actor.published_cleanup h.published) (Actor.cleanup_cleared w)
    refine Prog.wp_weaken _ ?_ w (Prog.wp_mono _ ?_ w hboth)
    · rintro β op t ⟨hp, rfl | hc⟩
      · exact ⟨h, trivial⟩
      · exact ⟨⟨hp, fun hd => (h.due (by rw [hc.state] at hd; exact hd)).cleared hc⟩, trivial⟩
    · rintro r t ⟨⟨⟨hp, _⟩, _⟩, hc, hr⟩
      exact ⟨⟨hp, fun hd => (h.due (by rw [hc.state] at hd; exact hd)).cleared hc⟩, hr⟩
  launch w h hp := by
    have hboth := Prog.wp_and _ w (Actor.published_launch h.published hp)
      (Actor.launch_due codec w)
    refine Prog.wp_weaken _ ?_ w (Prog.wp_mono _ ?_ w hboth)
    · rintro β op t ⟨ht, hs⟩
      exact ⟨fun hw => ⟨ht, fun _ => hs.1 hw⟩, trivial⟩
    · rintro o t ⟨ht, hc | hd | hf⟩
      · exact h.calm hc
      · exact ⟨ht, fun _ => .inl hd⟩
      · exact ⟨ht, fun _ => .inr hf⟩

theorem agreed_contract [BEq V] (codec : Codec V) (cached : Option Cached)
    (hplan : plan.expires = false) :
    Contract codec plan cached (fun _ _ _ => True) (fun _ => True) (Agreed codec plan)
      (fun _ => True) where
  asserted _ _ _ _ := trivial
  settled _ _ := trivial
  closed _ _ := trivial
  prepare now := by
    rw [Actor.servePrepare, Prog.wp_bind]
    have hplain := Prog.uses_mono (fun _ _ h => Op.preparatory.plain h) (@Actor.preparatory_prepare V)
    refine Prog.wp_mono _ ?_ _ (wp_plain (fun _ _ _ _ _ => trivial) hplain)
    intro o w hw
    rw [Prog.wp_bind, wp_native]
    refine ⟨trivial, ?_⟩
    rintro a w ⟨rfl, rfl⟩
    rw [Prog.wp_bind, wp_native]
    refine ⟨trivial, ?_⟩
    rintro _ t rfl
    refine ⟨published_prepared o hw, fun _ => .inl fun after hafter => ?_⟩
    have hnone : w.actor.retryAfter = none := hw.retryAfter
    rw [hnone] at hafter
    cases hafter
  tick prepared w h := (agreed_serving hplan).tick prepared h
  command command w h := (agreed_serving hplan).command command h
  close w _ := by
    have hkeep : Actor.closePass.wp native (Prog.always fun _ => True) (fun _ _ => True) w :=
      Prog.wp_uses _ (fun _ _ _ _ _ _ _ _ _ => trivial) _ w (Prog.uses_true _) trivial
    exact Prog.wp_mono _ (fun b _ _ => by cases b <;> trivial) w hkeep

end Agreed

/-! ## What can happen -/

section Reaching

variable {α β : Type} {w t u : World V}

/-- One effect, under an answer it can be given. -/
theorem reaches_op {op : Op V β} {f : β → Prog (Op V) α} {b : β} (h : Answers op w b t) :
    Prog.Reaches native (Prog.op op >>= f) w (f b) t := by
  rcases respond_of_answers h with ⟨c, hc⟩
  have hs : Prog.advance native (.perform op f) w c = some (f b, t) := by
    simp only [Prog.advance, native, hc]
  exact .snoc .refl hs

theorem reaches_act {op : Op V β} {f : β → ExceptT String (Prog (Op V)) α} {b : β}
    (h : Answers op w b t) : Prog.Reaches native (act op >>= f).run w (f b).run t := by
  rcases respond_of_answers h with ⟨c, hc⟩
  have hs : Prog.advance native (.perform op fun b => (f b).run) w c = some ((f b).run, t) := by
    simp only [Prog.advance, native, hc]
  exact .snoc .refl hs

theorem reaches_run_bind {x : ExceptT String (Prog (Op V)) β}
    {f : β → ExceptT String (Prog (Op V)) α} {q : Prog (Op V) (Except String α)} {b : β}
    (h : Prog.Reaches native x.run w (.done (.ok b)) t)
    (h' : Prog.Reaches native (f b).run t q u) : Prog.Reaches native (x >>= f).run w q u := by
  rw [ExceptT.run_bind]
  exact h.bind h'

/-- A fallible effect that succeeds. -/
theorem reaches_attempt {op : Op V (Except String β)} {b : β} (h : Answers op w (.ok b) t) :
    Prog.Reaches native (attempt op).run w (.done (.ok b)) t :=
  reaches_op h

theorem reaches_attemptAs {reason : String} {op : Op V (Except String β)} {b : β}
    (h : Answers op w (.ok b) t) :
    Prog.Reaches native (attemptAs reason op).run w (.done (.ok b)) t :=
  reaches_op h

theorem reaches_lift {p : Prog (Op V) β} {b : β} (h : Prog.Reaches native p w (.done b) t) :
    Prog.Reaches native (ExceptT.lift p : ExceptT String (Prog (Op V)) β).run w
      (.done (.ok b)) t :=
  h.bind .refl

end Reaching

/-- A supervisor at the start of its preparation, and after any part of it that
    succeeded. -/
structure Blank (plan : WorkerPlan) (now : Nat) (w : World V) : Prop where
  planned : w.actor.plan = plan
  unused : w.actor.lastUsed = 0
  unset : w.actor.retryAfter = none
  released : Actor.Released w.actor
  state : w.state = State.new .preparing
  seen : w.seen ≤ now

namespace Actor

variable {plan : WorkerPlan} {now : Nat} {w : World V}

theorem can_read (h : Blank plan now w) :
    Answers (Op.now : Op V Nat) w now { w with seen := now } ∧
      Blank plan now { w with seen := now } :=
  ⟨⟨h.seen, rfl⟩, h.planned, h.unused, h.unset, h.released, h.state, Nat.le_refl _⟩

theorem can_commandDeadline (w : World V) (step : WorkerCommand) (deadline : Nat)
    (h : w.seen ≤ now) :
    ∃ d t, Prog.Reaches native (commandDeadline step deadline) w (.done d) t ∧
      (t = w ∨ t = { w with seen := now }) := by
  unfold commandDeadline
  split
  · exact ⟨_, _, .refl, .inl rfl⟩
  · exact ⟨_, _, reaches_op ⟨h, rfl⟩, .inr rfl⟩

/-- Transient preparation can succeed. -/
theorem can_prepareSteps (deadline : Nat) (steps : List WorkerCommand) :
    ∀ w : World V, Blank plan now w → ∃ t, Blank plan now t ∧
      Prog.Reaches native (prepareSteps deadline steps) w (.done (outcome .complete none)) t := by
  induction steps with
  | nil =>
      intro w h
      have hs : Answers (Op.stopped : Op V Bool) w false w := rfl
      exact ⟨w, h, reaches_op hs⟩
  | cons step rest ih =>
      intro w h
      -- The child is spawned, runs and is reaped.
      have hspawn : Answers (.spawnPreparation step) w (.ok ())
          { w.spawn with actor := { w.actor with preparation := some w.fresh } } := .inl ⟨rfl, rfl⟩
      rcases can_commandDeadline { w.spawn with
        actor := { w.actor with preparation := some w.fresh } } step deadline h.seen with
        ⟨d, t, hd, ht⟩
      have hblank : Blank plan now { t.reap w.fresh with
          actor := { (t.reap w.fresh).actor with preparation := none } } := by
        rcases ht with rfl | rfl
        · exact ⟨h.planned, h.unused, h.unset, ⟨h.released.process, rfl, h.released.cache⟩, h.state, h.seen⟩
        · exact ⟨h.planned, h.unused, h.unset, ⟨h.released.process, rfl, h.released.cache⟩, h.state,
            Nat.le_refl _⟩
      rcases ih _ hblank with ⟨u, hu, hrest⟩
      refine ⟨u, hu, ?_⟩
      have hself : Answers (Op.self : Op V (Actor V)) { w.spawn with
          actor := { w.actor with preparation := some w.fresh } } _ _ := ⟨rfl, rfl⟩
      have hexecute : Answers (.execute w.fresh d) t (.ok ()) t := rfl
      have hreap : Answers (.reap w.fresh) t (.ok ()) (t.reap w.fresh) := .inl ⟨rfl, rfl⟩
      have hclear : Answers (.update fun a => { a with preparation := none })
        (t.reap w.fresh) () _ := rfl
      exact (reaches_attemptAs hspawn).bind <| (reaches_op hself).trans <| hd.bind <|
        (reaches_attempt hexecute).bind <| (reaches_attemptAs hreap).bind <|
          (reaches_op hclear).trans hrest

/-- A session for a cache that is up to date. -/
def upToDate : Session :=
  { root := 0, path := "", lock := none, lockIdentity := 0
    recipeIdentity := { path := "", bytes := [] }, staging := none, staged := []
    cached := true, legacy := false }

/-- Giving up a preparation that is not there succeeds. -/
theorem can_cleanupPreparation (h : w.actor.preparation = none) :
    Prog.Reaches native (@cleanupPreparation V).run w (.done (.ok ())) w := by
  have hself : Answers (Op.self : Op V (Actor V)) w w.actor w := ⟨rfl, rfl⟩
  have hclear : Answers (.update fun a => { a with preparation := none }) w ()
      { w with actor := { w.actor with preparation := none } } := rfl
  have hsame : { w with actor := { w.actor with preparation := none } } = w := by rw [← h]
  rw [hsame] at hclear
  refine (reaches_act hself).trans ?_
  simp only [h]
  exact reaches_act hclear

/-- Preparing the cache can succeed. -/
theorem can_prepareCache (h : Blank plan now w) :
    ∃ t, Blank plan now t ∧ Prog.Reaches native prepareCache.run w (.done (.ok ())) t := by
  have hself : Answers (Op.self : Op V (Actor V)) w w.actor w := ⟨rfl, rfl⟩
  cases hc : w.actor.cached with
  | none =>
      refine ⟨w, h, (reaches_act hself).trans ?_⟩
      simp only [hc]
      exact .refl
  | some cached =>
      -- The marker of the recipe is there, so no command has to run.
      rcases can_read h with ⟨hnow, h₁⟩
      have hacquire : Answers (.acquire cached (now + cached.recipe.timeoutMs))
          { w with seen := now } (.ok ())
          { ({ w with seen := now } : World V).withCache upToDate with locked := true } :=
        .inl ⟨rfl, _, rfl⟩
      have hread : Answers (Op.self : Op V (Actor V))
          { ({ w with seen := now } : World V).withCache upToDate with locked := true } _ _ :=
        ⟨rfl, rfl⟩
      have hrelease : Answers (Op.cleanupCache : Op V (Except String Unit))
          { ({ w with seen := now } : World V).withCache upToDate with locked := true } (.ok ())
          { ({ w with seen := now } : World V).withCache upToDate with locked := false } :=
        .inl ⟨rfl, _, rfl⟩
      obtain ⟨u, hu, hclear⟩ : ∃ u, Blank plan now u ∧
          Answers (.update fun a => { a with cache := none })
            { ({ w with seen := now } : World V).withCache upToDate with locked := false } () u :=
        ⟨{ w with seen := now, locked := false, actor := { w.actor with cache := none } },
          ⟨h.planned, h.unused, h.unset, ⟨h.released.process, h.released.preparation, rfl⟩, h.state,
            Nat.le_refl _⟩, rfl⟩
      have hprovision : Prog.Reaches native
          (provisionCache cached (now + cached.recipe.timeoutMs)).run
          { ({ w with seen := now } : World V).withCache upToDate with locked := true }
          (.done (.ok ())) _ := reaches_run_bind (reaches_act hread) .refl
      refine ⟨u, hu, (reaches_act hself).trans ?_⟩
      simp only [hc]
      exact (reaches_act hnow).trans <| reaches_run_bind (reaches_attempt hacquire) <|
        reaches_run_bind (reaches_lift hprovision) <|
        reaches_run_bind (can_cleanupPreparation h.released.preparation) <|
        reaches_run_bind ((reaches_act hread).trans <|
          reaches_run_bind (reaches_attempt hrelease) (reaches_act hclear)) .refl

/-- A preparation can succeed. -/
theorem can_prepare (h : Blank plan now w) :
    ∃ t, Blank plan now t ∧
      Prog.Reaches native prepare w (.done (outcome .complete none)) t := by
  rcases can_prepareCache h with ⟨t, ht, hcache⟩
  rcases can_read ht with ⟨hnow, h₁⟩
  have hself : Answers (Op.self : Op V (Actor V)) t t.actor t := ⟨rfl, rfl⟩
  have hinstall : Answers (Op.installScript : Op V (Except String Unit)) { t with seen := now }
      (.ok ()) { t with seen := now, dir := true, actor := { t.actor with directory := true } } :=
    .inl ⟨rfl, rfl⟩
  have h₂ : Blank plan now { t with
      seen := now, dir := true, actor := { t.actor with directory := true } } :=
    ⟨h₁.planned, h₁.unused, h₁.unset, ⟨h₁.released.process, h₁.released.preparation, h₁.released.cache⟩,
      h₁.state, h₁.seen⟩
  rcases can_prepareSteps (now + t.actor.plan.startupTimeoutMs) t.actor.plan.preparation _ h₂ with
    ⟨u, hu, hsteps⟩
  exact ⟨u, hu, hcache.bind <| (reaches_op hself).trans <| (reaches_op hnow).trans <|
    (reaches_op hinstall).trans hsteps⟩

end Actor

/-- A prepared supervisor that owns nothing and has been idle for long enough. -/
structure Resting (now : Nat) (w : World V) : Prop where
  idle : Actor.idle w.actor now = true
  released : Actor.Released w.actor
  complete : w.state.complete = true
  seen : w.seen ≤ now

namespace Actor

variable {now : Nat} {w : World V}

/-- Releasing nothing succeeds, and publishes the phase of a prepared supervisor. -/
theorem can_cleanup (h : Resting now w) :
    ∃ t, Resting now t ∧ t.state.status.phase = .prepared ∧
      t.actor.retryAfter = w.actor.retryAfter ∧
      Prog.Reaches native cleanup.run w (.done (.ok ())) t := by
  have hsettle : Answers (.sendModify State.settle) w () { w with state := w.state.settle } := rfl
  have hcache : Prog.Reaches native cleanupCache.run { w with state := w.state.settle }
      (.done (.ok ())) { w with state := w.state.settle } := by
    have hself : Answers (Op.self : Op V (Actor V)) { w with state := w.state.settle } _ _ :=
      ⟨rfl, rfl⟩
    have hclear : Answers (.update fun a => { a with cache := none })
        { w with state := w.state.settle } () { w with state := w.state.settle } := by
      simp only [Answers]
      rw [← h.released.cache]
    refine (reaches_act hself).trans ?_
    rw [h.released.cache]
    exact reaches_act hclear
  have hprocess : Prog.Reaches native cleanupProcess.run { w with state := w.state.settle }
      (.done (.ok ())) { w with state := w.state.settle } := by
    have hself : Answers (Op.self : Op V (Actor V)) { w with state := w.state.settle } _ _ :=
      ⟨rfl, rfl⟩
    have hclear : Answers (.update fun a => { a with process := none })
        { w with state := w.state.settle } () { w with state := w.state.settle } := by
      simp only [Answers]
      rw [← h.released.process]
    refine (reaches_act hself).trans ?_
    rw [h.released.process]
    exact reaches_act hclear
  obtain ⟨u, hu, hphase, hretry, hbackends, hagain⟩ : ∃ u, Resting now u ∧
      u.state.status.phase = .prepared ∧ u.actor.retryAfter = w.actor.retryAfter ∧
      Answers (.update fun a => { a with readyBackends := [] })
        { w with state := w.state.settle } () u ∧
      Answers (.sendModify State.settle) u () u := by
    refine ⟨{ w with state := w.state.settle, actor := { w.actor with readyBackends := [] } },
      ⟨h.idle, ⟨h.released.process, h.released.preparation, h.released.cache⟩, h.complete, h.seen⟩,
      if_pos h.complete, rfl, rfl, ?_⟩
    simp only [Answers, settle_settle]
  refine ⟨u, hu, hphase, hretry, (reaches_act hsettle).trans ?_⟩
  refine reaches_run_bind (can_cleanupPreparation h.released.preparation) ?_
  exact reaches_run_bind hcache <| reaches_run_bind hprocess <|
    (reaches_act hbackends).trans (reaches_act hagain)

/-- A start of an idle supervisor first publishes that it is prepared. -/
theorem can_idle (codec : Codec V) (h : Resting now w) :
    ∃ t, Resting now t ∧ t.state.status.phase = .prepared ∧
      t.actor.retryAfter = w.actor.retryAfter ∧
      Prog.Reaches native (start codec) w (launch codec) t := by
  have hstopped : Answers (Op.stopped : Op V Bool) w false w := rfl
  have hstate : Answers (Op.state : Op V (State V)) w w.state w := ⟨rfl, rfl⟩
  have hself : Answers (Op.self : Op V (Actor V)) w w.actor w := ⟨rfl, rfl⟩
  have hnow : Answers (Op.now : Op V Nat) w now { w with seen := now } := ⟨h.seen, rfl⟩
  have h₁ : Resting now { w with seen := now } :=
    ⟨h.idle, h.released, h.complete, Nat.le_refl _⟩
  rcases can_cleanup h₁ with ⟨t, ht, hphase, hretry, hcleanup⟩
  have hthere : Answers (Op.self : Op V (Actor V)) t t.actor t := ⟨rfl, rfl⟩
  refine ⟨t, ht, hphase, hretry, (reaches_op hstopped).trans ((reaches_op hstate).trans ?_)⟩
  rw [if_neg (by rw [h.complete]; exact Bool.noConfusion)]
  refine (reaches_op hself).trans ((reaches_op hnow).trans ?_)
  rw [if_pos h.idle]
  refine hcleanup.bind ((reaches_op hthere).trans ?_)
  rw [ht.released.process]
  exact .refl

/-- A start whose spawn fails sets the back-off. -/
theorem can_fail (codec : Codec V) (h : Resting now w) (hnone : w.actor.retryAfter = none) :
    ∃ t, Resting now t ∧ t.actor.retryAfter = some (now + BACKOFF) ∧
      Prog.Reaches native (start codec) w (.done (outcome .failed (some "spawn_failed"))) t := by
  rcases can_idle codec h with ⟨t, ht, _, hretry, hstart⟩
  have hself : Answers (Op.self : Op V (Actor V)) t t.actor t := ⟨rfl, rfl⟩
  have hstarting : Answers (.sendModify (State.setPhase .starting)) t ()
      { t with state := State.setPhase .starting t.state } := rfl
  have hspawn : Answers (Op.spawnProcess : Op V (Except String Unit))
      { t with state := State.setPhase .starting t.state } (.error "spawn_failed")
      { t with state := State.setPhase .starting t.state } := .inr ⟨⟨_, rfl⟩, rfl⟩
  have h₁ : Resting now { t with state := State.setPhase .starting t.state } :=
    ⟨ht.idle, ht.released, ht.complete, ht.seen⟩
  rcases can_cleanup h₁ with ⟨u, hu, _, _, hcleanup⟩
  have hnow : Answers (Op.now : Op V Nat) u now { u with seen := now } := ⟨hu.seen, rfl⟩
  obtain ⟨v, hv, hset, v', hupdate, hfailed⟩ : ∃ v, Resting now v ∧
      v.actor.retryAfter = some (now + BACKOFF) ∧ ∃ v',
      Answers (.update fun a => { a with retryAfter := some (now + BACKOFF) })
        { u with seen := now } () v' ∧
      Answers (.sendModify (State.setPhase .failed)) v' () v := by
    exact ⟨{ u with
        seen := now, actor := { u.actor with retryAfter := some (now + BACKOFF) }
        state := State.setPhase .failed u.state },
      ⟨hu.idle, ⟨hu.released.process, hu.released.preparation, hu.released.cache⟩,
        hu.complete, Nat.le_refl _⟩, rfl, _, rfl, rfl⟩
  refine ⟨v, hv, hset, hstart.trans ((reaches_op hself).trans ?_)⟩
  have hgo : backingOff t.actor = pure false := by
    simp only [backingOff, hretry, hnone]
  rw [hgo]
  refine (reaches_op hstarting).trans ?_
  refine Prog.Reaches.bind (reaches_op hspawn) ?_
  exact hcleanup.bind ((reaches_op hnow).trans ((reaches_op hupdate).trans (reaches_op hfailed)))

/-- While the back-off runs a start is refused, and leaves the phase prepared. -/
theorem can_refuse (codec : Codec V) (h : Resting now w)
    (hwait : w.actor.retryAfter = some (now + BACKOFF)) :
    ∃ t, Resting now t ∧ t.state.status.phase = .prepared ∧
      t.actor.retryAfter = some (now + BACKOFF) ∧
      Prog.Reaches native (start codec) w
        (.done (outcome .failed (some "startup_backoff"))) t := by
  rcases can_idle codec h with ⟨t, ht, hphase, hretry, hstart⟩
  have hself : Answers (Op.self : Op V (Actor V)) t t.actor t := ⟨rfl, rfl⟩
  have hnow : Answers (Op.now : Op V Nat) t now { t with seen := now } := ⟨ht.seen, rfl⟩
  refine ⟨{ t with seen := now }, ⟨ht.idle, ht.released, ht.complete, Nat.le_refl _⟩, hphase,
    hretry.trans hwait, hstart.trans ((reaches_op hself).trans ?_)⟩
  have hback : Prog.Reaches native (backingOff t.actor) t (.done true) { t with seen := now } := by
    have hafter : now < now + BACKOFF := Nat.lt_add_of_pos_right (by decide)
    simp only [backingOff, hretry, hwait]
    refine (reaches_op hnow).trans ?_
    rw [decide_eq_true hafter]
    exact .refl
  exact hback.bind .refl

end Actor

/-! ## Runs -/

section Runs

variable [BEq V] {codec : Codec V} {plan : WorkerPlan} {cached : Option Cached}

theorem reachable_busy {prepared : WorkerOutcome V} {p q : Prog (Op V) Unit} {w u : World V}
    (hs : Transition.Reachable (supervisor codec plan cached)
      { world := w, life := .busy prepared p }) (h : Prog.Reaches native p w q u) :
    Transition.Reachable (supervisor codec plan cached)
      { world := u, life := .busy prepared q } := by
  induction h with
  | refl => exact hs
  | @snoc q r t u c _ hadv ih =>
      have hmove : Supervisor.move codec { world := t, life := .busy prepared q } (.perform c) =
          some { world := u, life := .busy prepared r } := by
        simp only [Supervisor.move, hadv, Option.map_some]
      exact Transition.reachable_step ih hmove

theorem reachable_preparing {p q : Prog (Op V) (WorkerOutcome V)} {w u : World V}
    (hs : Transition.Reachable (supervisor codec plan cached) { world := w, life := .preparing p })
    (h : Prog.Reaches native p w q u) :
    Transition.Reachable (supervisor codec plan cached) { world := u, life := .preparing q } := by
  induction h with
  | refl => exact hs
  | @snoc q r t u c _ hadv ih =>
      have hmove : Supervisor.move codec { world := t, life := .preparing q } (.perform c) =
          some { world := u, life := .preparing r } := by
        simp only [Supervisor.move, hadv, Option.map_some]
      exact Transition.reachable_step ih hmove

/-- Whatever a start can do, an idle supervisor can do. -/
theorem reachable_start {prepared o : WorkerOutcome V} {s : Supervisor V} {t : World V}
    (hs : Transition.Reachable (supervisor codec plan cached) s) (hlife : s.life = .idle prepared)
    (h : Prog.Reaches native (Actor.start codec)
      { s.world with commands := s.world.commands + 1 } (.done o) t) :
    Transition.Reachable (supervisor codec plan cached)
      { world := t.note (.replied t.commands o), life := .idle prepared } := by
  have htake : s.move codec (.take .start) = some
      { world := { s.world with commands := s.world.commands + 1 }
        life := .busy prepared (Actor.serveCommand codec .start) } := by
    simp only [Supervisor.move, hlife]
  have hreply : Answers (.reply o) t () (t.note (.replied t.commands o)) := rfl
  have hserved : Prog.Reaches native (Actor.serveCommand codec .start)
      { s.world with commands := s.world.commands + 1 } (.done ())
      (t.note (.replied t.commands o)) := h.bind (reaches_op hreply)
  have hsettle : Supervisor.move codec
      { world := t.note (.replied t.commands o), life := .busy prepared (.done ()) } .settle =
        some { world := t.note (.replied t.commands o), life := .idle prepared } := rfl
  exact Transition.reachable_step
    (reachable_busy (Transition.reachable_step hs htake) hserved) hsettle

/-- A supervisor can be prepared, and then be idle for as long as its plan says. -/
theorem reachable_prepared (codec : Codec V) (cached : Option Cached)
    (hplan : plan.expires = true) :
    ∃ s : Supervisor V, Transition.Reachable (supervisor codec plan cached) s ∧
      s.life = .idle (outcome .complete none) ∧ Resting plan.idleTimeoutMs s.world ∧
      s.world.actor.retryAfter = none := by
  have hblank : Blank plan plan.idleTimeoutMs (Supervisor.new plan cached 0 : Supervisor V).world :=
    ⟨rfl, rfl, rfl, ⟨rfl, rfl, rfl⟩, rfl, Nat.zero_le _⟩
  rcases Actor.can_prepare hblank with ⟨t, ht, hprepare⟩
  have hself : Answers (Op.self : Op V (Actor V)) t t.actor t := ⟨rfl, rfl⟩
  have hpublish : Answers (.sendModify (State.publishPrepared t.actor.plan (outcome .complete none)))
      t () { t with state := t.state.publishPrepared t.actor.plan (outcome .complete none) } := rfl
  have hserve : Prog.Reaches native Actor.servePrepare (Supervisor.new plan cached 0).world
      (.done (outcome .complete none)) _ :=
    hprepare.bind ((reaches_op hself).trans (reaches_op hpublish))
  have hnew : Transition.Reachable (supervisor codec plan cached) (.new plan cached 0) :=
    Transition.reachable_init ⟨0, rfl⟩
  have hsettle : Supervisor.move codec
      { world := { t with
          state := t.state.publishPrepared t.actor.plan (outcome .complete none) }
        life := .preparing (.done (outcome .complete none)) } .settle =
      some { world := { t with
              state := t.state.publishPrepared t.actor.plan (outcome .complete none) }
             life := .idle (outcome .complete none) } := rfl
  refine ⟨_, Transition.reachable_step (reachable_preparing hnew hserve) hsettle, rfl,
    ⟨?_, ht.released, rfl, ht.seen⟩, ht.unset⟩
  simp only [Actor.idle, ht.planned, ht.unused, Nat.sub_zero, Nat.le_refl, decide_true,
    Bool.and_true]
  exact hplan

/-- A plan with an idle rule has a run in which a start is refused in the phase of
    an idle supervisor: a start fails, and the next one releases the worker that is
    not there before it looks at the back-off. -/
theorem expires_disagrees (codec : Codec V) (cached : Option Cached)
    (hplan : plan.expires = true) :
    ∃ s : Supervisor V, Transition.Reachable (supervisor codec plan cached) s ∧
      s.life = .idle (outcome .complete none) ∧ s.world.state.complete = true ∧
      s.Refusing codec ∧ s.world.state.status.phase = .prepared := by
  rcases reachable_prepared codec cached hplan with ⟨s, hs, hlife, hrest, hnone⟩
  have h₀ : Resting plan.idleTimeoutMs { s.world with commands := s.world.commands + 1 } :=
    ⟨hrest.idle, hrest.released, hrest.complete, hrest.seen⟩
  rcases Actor.can_fail codec h₀ hnone with ⟨t, ht, hset, hfail⟩
  have hs₁ := reachable_start hs hlife hfail
  have h₁ : Resting plan.idleTimeoutMs
      { t.note (.replied t.commands (outcome .failed (some "spawn_failed"))) with
        commands := t.commands + 1 } := ⟨ht.idle, ht.released, ht.complete, ht.seen⟩
  rcases Actor.can_refuse codec h₁ hset with ⟨u, hu, hphase, hwait, hrefuse⟩
  have hs₂ := reachable_start hs₁ rfl hrefuse
  have h₂ : Resting plan.idleTimeoutMs
      (u.note (.replied u.commands (outcome .failed (some "startup_backoff")))) :=
    ⟨hu.idle, hu.released, hu.complete, hu.seen⟩
  rcases Actor.can_refuse codec h₂ hwait with ⟨v, _, _, _, hagain⟩
  refine ⟨_, hs₂, rfl, hu.complete, ⟨⟨_, hwait, ?_⟩, v, hagain⟩, hphase⟩
  exact Nat.lt_of_le_of_lt hu.seen (Nat.lt_add_of_pos_right (by decide))

/-- **Phase and back-off agree exactly without an idle rule.** In every reachable
    state of a prepared supervisor between two commands, if a start issued now would
    be refused for the back-off, the published phase is the one of a failed start.
    That is so for the plans without an idle rule that can apply, and for no other. -/
theorem phase_agrees_iff (codec : Codec V) (plan : WorkerPlan) (cached : Option Cached) :
    (∀ (s : Supervisor V) (prepared : WorkerOutcome V),
      Transition.Reachable (supervisor codec plan cached) s → s.life = .idle prepared →
      s.world.state.complete = true → s.Refusing codec →
      s.world.state.status.phase = .failed) ↔ plan.expires = false := by
  constructor
  · intro h
    by_contra hplan
    rcases expires_disagrees codec cached (Bool.not_eq_false _ ▸ hplan) with
      ⟨s, hs, hlife, hcomplete, hrefusing, hphase⟩
    have hfailed := h s _ hs hlife hcomplete hrefusing
    rw [hphase] at hfailed
    cases hfailed
  · intro hplan s prepared hs hlife hcomplete hrefusing
    have hK := agreed_contract codec cached hplan
    have hagreed : Agreed codec plan s.world := by
      have hholds := hK.reachable hs
      rw [Supervisor.Holds, hlife] at hholds
      exact hholds
    rcases hagreed.failed hcomplete with hdue | ⟨hphase, _⟩
    · rcases hrefusing.1 with ⟨after, hafter, hlt⟩
      exact absurd (hdue after hafter) (Nat.not_le_of_lt hlt)
    · exact hphase

end Runs

/-- A plan whose worker is given up after a second without use. -/
def idlePlan : WorkerPlan :=
  { plainPlan with backends := ["tts"], idleBackend := some "tts", idleTimeoutMs := 1000 }

/-- With an idle rule a start is refused in the phase of a prepared supervisor. -/
theorem phase_disagrees :
    ¬ ∀ (codec : Codec Unit) (plan : WorkerPlan) (s : Supervisor Unit)
      (prepared : WorkerOutcome Unit),
      Transition.Reachable (supervisor codec plan none) s → s.life = .idle prepared →
      s.world.state.complete = true → s.Refusing codec →
      s.world.state.status.phase = .failed := by
  intro h
  have hplan : idlePlan.expires = true := by decide
  rcases expires_disagrees answeringCodec none hplan with
    ⟨s, hs, hlife, hcomplete, hrefusing, hphase⟩
  have hfailed := h answeringCodec idlePlan s _ hs hlife hcomplete hrefusing
  rw [hphase] at hfailed
  cases hfailed

end TinyRuntime
