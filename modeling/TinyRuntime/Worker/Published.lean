import TinyRuntime.Worker.Backoff

/-!
# The Published Status

What the watch channel of a supervisor says about what the supervisor owns.

The status is written in seven places, and none of them looks at the fields. That
it agrees with them is an invariant of every effect (`Published`): it is written
before anything is released and after everything is up. A worker counts as up once
its first line has been read and accepted (`Greeted`), and that line stays the
first entry of its history.

## Main definitions

* `Greeted`: A worker that answered the handshake.
* `Published`: What the status says, and what it means.

## Theorems

* `handshake_greeted`: A handshake that succeeds has read the first line.
* `Published.settle`: Releasing settles the status first.
* `published_contract`: The obligations of the supervisor's programs.
* `status_agrees`: The status agrees with the fields in every reachable state.
-/

namespace TinyRuntime

open Prog (act attempt)

variable {V : Type}

/-- The worker was spawned, and the first line it wrote is a ready line of the
    protocol spoken here. -/
def Greeted (codec : Codec V) (log : List (Event V)) (p : Nat) (ready : ReadyLine) : Prop :=
  ∃ pre body post, log = pre ++ .spawned p :: .received p body :: post ∧
    codec.decodeReady body = some ready ∧ ready.ready = true ∧
    ready.protocol = some PROTOCOL_VERSION

theorem Greeted.longer {codec : Codec V} {log log' : List (Event V)} {p : Nat}
    {ready : ReadyLine} (h : Greeted codec log p ready) (hl : log <+: log') :
    Greeted codec log' p ready := by
  rcases h with ⟨pre, body, post, rfl, hready⟩
  rcases hl with ⟨more, rfl⟩
  refine ⟨pre, body, post ++ more, ?_, hready⟩
  rw [List.append_assoc, List.cons_append, List.cons_append]

/-- The worker that is published as running, with the backends it may name. -/
structure Up (codec : Codec V) (w : World V) (p : Nat) (ready : ReadyLine) : Prop where
  process : w.actor.process = some p
  greeted : Greeted codec w.log p ready
  named : ∀ b ∈ w.state.status.server.backends, b.ready = true → b.id ∈ ready.backends

/-- What the status of a supervisor says, and what it means. -/
structure Published (codec : Codec V) (plan : WorkerPlan) (w : World V) : Prop where
  planned : w.actor.plan = plan
  phase : w.state.status.server.running = true ↔ w.state.status.phase = .running
  up : w.state.status.server.running = true → ∃ p ready, Up codec w p ready
  ready : ∀ b ∈ w.state.status.server.backends, b.ready = true →
    w.state.status.server.running = true
  ids : w.state.complete = true →
    w.state.status.server.backends.map BackendStatus.id = plan.backends
  closed : w.state.status.phase = .closed → Actor.Released w.actor

section Published

variable {codec : Codec V} {plan : WorkerPlan} {w t : World V}

theorem Published.calm (h : Published codec plan w) (hc : Calm w t) : Published codec plan t where
  planned := hc.plain.plan.trans h.planned
  phase := by
    rw [hc.plain.state]
    exact h.phase
  up hr := by
    rw [hc.plain.state] at hr
    rcases h.up hr with ⟨p, ready, hup⟩
    refine ⟨p, ready, hc.plain.process.trans hup.process, hup.greeted.longer hc.plain.log, ?_⟩
    rw [hc.plain.state]
    exact hup.named
  ready := by
    rw [hc.plain.state]
    exact h.ready
  ids := by
    rw [hc.plain.state]
    exact h.ids
  closed hp := Released.steady (h.closed (hc.plain.state ▸ hp)) hc.steady

/-- Nothing is up while no worker is there. -/
theorem Published.down (h : Published codec plan w) (hp : w.actor.process = none) :
    w.state.status.server.running = false := by
  cases hr : w.state.status.server.running with
  | false => rfl
  | true =>
      rcases h.up hr with ⟨p, ready, hup⟩
      have hsome := hup.process
      rw [hp] at hsome
      cases hsome

/-- A status that says that no worker is running. -/
theorem Published.quiet (hplan : w.actor.plan = plan)
    (hrunning : w.state.status.server.running = false) (hphase : w.state.status.phase ≠ .running)
    (hready : ∀ b ∈ w.state.status.server.backends, b.ready = false)
    (hids : w.state.complete = true →
      w.state.status.server.backends.map BackendStatus.id = plan.backends)
    (hclosed : w.state.status.phase = .closed → Actor.Released w.actor) :
    Published codec plan w where
  planned := hplan
  phase := ⟨fun hr => absurd (hrunning.symm.trans hr) Bool.false_ne_true,
    fun hp => absurd hp hphase⟩
  up hr := absurd (hrunning.symm.trans hr) Bool.false_ne_true
  ready b hb hr := absurd ((hready b hb).symm.trans hr) Bool.false_ne_true
  ids := hids
  closed := hclosed

theorem settle_running (s : State V) : s.settle.status.server.running = false := rfl

theorem settle_ready (s : State V) : ∀ b ∈ s.settle.status.server.backends, b.ready = false := by
  intro b hb
  rcases List.mem_map.mp hb with ⟨b', _, rfl⟩
  rfl

theorem settle_ids (s : State V) :
    s.settle.status.server.backends.map BackendStatus.id =
      s.status.server.backends.map BackendStatus.id := by
  simp only [State.settle, List.map_map]
  rfl

theorem settle_phase (s : State V) :
    s.settle.status.phase ≠ .running ∧ s.settle.status.phase ≠ .closed := by
  simp only [State.settle]
  split <;> exact ⟨(fun h => by cases h), (fun h => by cases h)⟩

/-- Releasing settles the status first. -/
theorem Published.settle (h : Published codec plan w) (hplan : t.actor.plan = w.actor.plan)
    (hs : t.state = w.state.settle) : Published codec plan t := by
  refine .quiet (hplan.trans h.planned) ?_ ?_ ?_ ?_ ?_
  · rw [hs]
    exact settle_running _
  · rw [hs]
    exact (settle_phase _).1
  · rw [hs]
    exact settle_ready _
  · rw [hs, settle_ids]
    exact h.ids
  · rw [hs]
    exact fun hp => absurd hp (settle_phase _).2

/-- No backend is ready without a running worker. -/
theorem Published.unready (h : Published codec plan w)
    (hr : w.state.status.server.running = false) :
    ∀ b ∈ w.state.status.server.backends, b.ready = false := by
  intro b hb
  cases hready : b.ready with
  | false => rfl
  | true => exact absurd (hr.symm.trans (h.ready b hb hready)) Bool.false_ne_true

/-- Between two phases in which no worker is up. -/
theorem Published.setPhase (h : Published codec plan w) (phase : WorkerPhase)
    (hr : w.state.status.server.running = false) (hphase : phase ≠ .running ∧ phase ≠ .closed)
    (hplan : t.actor.plan = w.actor.plan) (hs : t.state = State.setPhase phase w.state) :
    Published codec plan t := by
  refine .quiet (hplan.trans h.planned) ?_ ?_ ?_ ?_ ?_
  · rw [hs]
    exact hr
  · rw [hs]
    exact hphase.1
  · rw [hs]
    exact h.unready hr
  · rw [hs]
    exact h.ids
  · rw [hs]
    exact fun hp => absurd hp hphase.2

/-- While no worker is up, only what is published matters. -/
theorem Published.keep (h : Published codec plan w)
    (hr : w.state.status.server.running = false) (hphase : w.state.status.phase ≠ .closed)
    (hplan : t.actor.plan = w.actor.plan) (hs : t.state = w.state) : Published codec plan t := by
  refine .quiet (hplan.trans h.planned) ?_ ?_ ?_ ?_ ?_
  · rw [hs]
    exact hr
  · rw [hs]
    exact fun hp => absurd (hr.symm.trans (h.phase.mpr hp)) Bool.false_ne_true
  · rw [hs]
    exact h.unready hr
  · rw [hs]
    exact h.ids
  · rw [hs]
    exact fun hp => absurd hp hphase

end Published

namespace Actor

/-- The effects of a handshake before the line it waits for change nothing but the
    time. -/
theorem wp_cut_calm {α : Type} (interrupt : Op V Bool) (hi : interrupt.calm)
    (hpoll : ∀ w t, Answers interrupt w false t → t = w) {w : World V}
    {p : Prog (Op V) α} (Q : α → World V → Prop) {u : World V}
    (hp : p.wp native (fun _ _ t => Calm w t) Q u) :
    (p.cut interrupt suspends).wp native (fun _ _ t => Calm w t)
      (fun o t => match o with | none => Calm w t | some a => Q a t) u := by
  refine Prog.wp_cut (fun _ hs => hs) ?_ ?_ p u
    (Prog.wp_weaken p (fun _ _ _ hs => ⟨fun _ => hs, hs⟩) u hp)
  · intro s c t _ hr
    exact hpoll s t (answers_of_respond hr)
  · intro s c t hs hr
    exact hs.trans (calm_answers hi (answers_of_respond hr))

/-- The first line of a worker and what it has to say. -/
def Line (codec : Codec V) (w t : World V) (p : Nat) (ids : List String) : Prop :=
  ∃ body ready, t.log = w.log ++ [.received p body] ∧ codec.decodeReady body = some ready ∧
    ready.ready = true ∧ ready.protocol = some PROTOCOL_VERSION ∧ ready.backends = ids

theorem wp_readyLine (codec : Codec V) {w u : World V} {p : Nat} (hu : Calm w u)
    (hlog : u.log = w.log) :
    (Process.handshake codec p).run.wp native (fun _ _ t => Calm w t)
      (fun r t => Calm w t ∧ ∀ ready, r = .ok ready → Line codec w t p ready.backends) u := by
  have hnoted : ∀ body, Calm w (u.note (.received p body)) := fun body =>
    hu.trans ⟨.note u _, ⟨rfl, rfl, rfl, rfl, rfl, rfl⟩⟩
  rw [Process.handshake, Prog.wp_run_bind, wp_attempt]
  refine ⟨hu, ?_⟩
  rintro r t (⟨body, rfl, rfl⟩ | ⟨⟨reason, rfl⟩, rfl⟩)
  · dsimp only
    split
    · exact ⟨hnoted body, nofun⟩
    · rename_i ready hready
      split
      · exact ⟨hnoted body, nofun⟩
      · rename_i hup
        split
        · exact ⟨hnoted body, nofun⟩
        · rename_i hprotocol
          refine ⟨hnoted body, fun ready' hr => ?_⟩
          cases hr
          exact ⟨body, ready, by rw [← hlog]; rfl, hready, Bool.not_eq_false _ ▸ hup,
            not_not.mp hprotocol, rfl⟩
  · exact ⟨hu, nofun⟩

/-- A handshake that succeeds has read one line, and that line is a ready line. -/
theorem handshake_greeted (codec : Codec V) {w : World V} {p : Nat}
    (hp : w.actor.process = some p) :
    (handshake codec).wp native (fun _ _ t => Calm w t)
      (fun r t => Calm w t ∧ ∀ ids, r = .ok ids → Line codec w t p ids) w := by
  rw [handshake, Prog.wp_bind, wp_native]
  refine ⟨.refl w, ?_⟩
  rintro a w ⟨rfl, rfl⟩
  rw [hp]
  dsimp only
  rw [unlessStopped, Prog.wp_bind, wp_native]
  refine ⟨.refl w, ?_⟩
  rintro stopped w rfl
  cases stopped with
  | true => exact ⟨.refl w, fun _ hr => by cases hr⟩
  | false =>
      simp only [Bool.false_eq_true, ↓reduceIte, Prog.wp_bind]
      have hstop : (Op.stopped : Op V Bool).calm := trivial
      refine Prog.wp_mono _ ?_ _ (wp_cut_calm .stopped hstop (fun _ _ h => h)
        (fun r t => Calm w t ∧ ∀ ids, r = .ok ids → Line codec w t p ids) ?_)
      · rintro (_ | r) t ht
        · exact ⟨ht, fun _ hr => by cases hr⟩
        · exact ht
      · rw [Prog.wp_bind, wp_native]
        refine ⟨.refl w, ?_⟩
        rintro now u ⟨hle, rfl⟩
        have hu : Calm w { w with seen := now } := ⟨.later hle, ⟨rfl, rfl, rfl, rfl, rfl, rfl⟩⟩
        rw [Prog.wp_bind]
        have hexpired : (Op.expired (now + w.actor.plan.startupTimeoutMs) : Op V Bool).calm := trivial
        refine Prog.wp_mono _ ?_ _
          (wp_cut_calm (.expired _) hexpired ?_ _ (wp_readyLine codec hu rfl))
        · rintro (_ | r) t ht
          · exact ⟨ht, fun _ hr => by cases hr⟩
          · cases r with
            | error reason => exact ⟨ht.1, fun _ hr => by cases hr⟩
            | ok ready =>
                refine ⟨ht.1, fun ids hr => ?_⟩
                cases hr
                exact ht.2 ready rfl
        · rintro s t (⟨_, rfl⟩ | ⟨hb, _⟩)
          · rfl
          · cases hb

/-! ### Startup -/

section Startup

variable {codec : Codec V} {plan : WorkerPlan} {w : World V}

/-- A cleanup, and what is published then. -/
theorem published_cleanup (h : Published codec plan w) :
    cleanup.run.wp native (Prog.always (Published codec plan))
      (fun r t => (Published codec plan t ∧ t.state = w.state.settle) ∧
        (r = .ok () → Released t.actor)) w := by
  refine Prog.wp_weaken _ ?_ w (Prog.wp_mono _ ?_ w (cleanup_cleared w))
  · rintro β op t (rfl | ht)
    · exact h
    · exact h.settle ht.plan ht.state
  · rintro r t ⟨ht, hr⟩
    exact ⟨⟨h.settle ht.plan ht.state, ht.state⟩, hr⟩

theorem published_startFailed (reason : String) (h : Published codec plan w) :
    (startFailed reason).wp native (Prog.always (Published codec plan))
      (fun _ t => Published codec plan t) w := by
  rw [startFailed, Prog.wp_bind]
  refine Prog.wp_mono _ ?_ _ (published_cleanup h)
  rintro (e | u) t ⟨⟨ht, hs⟩, _⟩
  · exact ht
  · have hr : t.state.status.server.running = false := by rw [hs]; exact settle_running _
    have hphase : t.state.status.phase ≠ .closed := by rw [hs]; exact (settle_phase _).2
    simp only [Prog.wp_bind, wp_native]
    refine ⟨ht, ?_⟩
    rintro now t₁ ⟨_, rfl⟩
    have h₁ : Published codec plan { t with seen := now } := ht.keep hr hphase rfl rfl
    refine ⟨h₁, ?_⟩
    rintro _ t₂ rfl
    have h₂ : Published codec plan { t with
        seen := now, actor := { t.actor with retryAfter := some (now + BACKOFF) } } :=
      ht.keep hr hphase rfl rfl
    refine ⟨h₂, ?_⟩
    rintro _ t₃ rfl
    exact h₂.setPhase .failed hr ⟨nofun, nofun⟩ rfl rfl

/-- A worker that has been greeted becomes the running one. -/
theorem published_started {log : List (Event V)} {p : Nat} {body : List UInt8}
    {ready : ReadyLine} (h : Published codec plan w)
    (hr : w.state.status.server.running = false) (hphase : w.state.status.phase ≠ .closed)
    (hp : w.actor.process = some p) (hlog : w.log = log ++ [.spawned p] ++ [.received p body])
    (hbody : codec.decodeReady body = some ready) (hready : ready.ready = true)
    (hprotocol : ready.protocol = some PROTOCOL_VERSION) :
    (started ready.backends).wp native (Prog.always (Published codec plan))
      (fun _ t => Published codec plan t) w := by
  rw [started, Prog.wp_bind, wp_native]
  refine ⟨h, ?_⟩
  rintro stopped w rfl
  cases stopped with
  | true => exact published_startFailed _ h
  | false =>
      simp only [Bool.false_eq_true, ↓reduceIte, Prog.wp_bind, wp_native]
      refine ⟨h, ?_⟩
      rintro now t ⟨_, rfl⟩
      refine ⟨h.keep hr hphase rfl rfl, ?_⟩
      rintro a t ⟨rfl, rfl⟩
      refine ⟨h.keep hr hphase rfl rfl, ?_⟩
      rintro _ t rfl
      refine ⟨h.keep hr hphase rfl rfl, ?_⟩
      rintro _ t rfl
      refine
        { planned := h.planned
          phase := ⟨fun _ => rfl, fun _ => rfl⟩
          up := fun _ => ⟨p, ready, hp, ⟨log, body, [], ?_, hbody, hready, hprotocol⟩, ?_⟩
          ready := fun _ _ _ => rfl
          ids := fun _ => ?_
          closed := nofun }
      · exact hlog.trans (List.append_assoc _ _ _)
      · intro b hb hnamed
        rcases List.mem_map.mp hb with ⟨id, _, rfl⟩
        exact List.contains_iff_mem.mp hnamed
      · have hids : (w.actor.plan.backends.map fun id =>
            { id := id, enabled := true, ready := ready.backends.contains id
              message := none : BackendStatus }).map BackendStatus.id = w.actor.plan.backends := by
          rw [List.map_map]
          exact List.map_id' _
        rw [← h.planned]
        exact hids

theorem published_launch (h : Published codec plan w) (hp : w.actor.process = none) :
    (launch codec).wp native (Prog.always (Published codec plan))
      (fun _ t => Published codec plan t) w := by
  rw [launch, Prog.wp_bind, wp_native]
  refine ⟨h, ?_⟩
  rintro a w ⟨rfl, rfl⟩
  rw [Prog.wp_bind]
  refine Prog.wp_mono _ ?_ _ (wp_calm (fun _ _ t ht _ => h.calm ht) (calm_backingOff _))
  intro wait w₁ hw₁
  have h₁ := h.calm hw₁
  cases wait with
  | true => exact h₁
  | false =>
      have hr₁ := h₁.down (hw₁.plain.process.trans hp)
      simp only [Bool.false_eq_true, ↓reduceIte, Prog.wp_bind, wp_native]
      refine ⟨h₁, ?_⟩
      rintro _ w₂ rfl
      have h₂ : Published codec plan { w₁ with state := State.setPhase .starting w₁.state } :=
        h₁.setPhase .starting hr₁ ⟨(fun h => by cases h), (fun h => by cases h)⟩ rfl rfl
      rw [spawnReady, Prog.wp_bind, wp_native]
      refine ⟨h₂, ?_⟩
      rintro r w₃ (⟨rfl, rfl⟩ | ⟨⟨reason, rfl⟩, rfl⟩)
      · have h₃ : Published codec plan
            { World.spawn { w₁ with state := State.setPhase .starting w₁.state } with
              actor := { w₁.actor with process := some w₁.fresh } } :=
          h₂.keep hr₁ (fun h => by cases h) rfl rfl
        refine Prog.wp_mono _ ?_ _ (Prog.wp_weaken _ (fun _ _ t ht => h₃.calm ht) _
          (handshake_greeted codec rfl))
        rintro r t ⟨ht, hline⟩
        have h₄ := h₃.calm ht
        cases r with
        | error reason => exact published_startFailed _ h₄
        | ok ids =>
            rcases hline ids rfl with ⟨body, ready, hlog, hbody, hup, hprotocol, rfl⟩
            refine published_started h₄ ?_ ?_ ht.plain.process hlog hbody hup hprotocol
            · rw [ht.plain.state]
              exact hr₁
            · rw [ht.plain.state]
              exact fun h => by cases h
      · exact published_startFailed _ h₂

/-- A release, and what is left of the worker. -/
theorem published_release (h : Published codec plan w) :
    release.wp native (Prog.always (Published codec plan))
      (fun b t => Published codec plan t ∧ (b = true → Released t.actor)) w := by
  rw [release, Prog.wp_bind]
  refine Prog.wp_mono _ ?_ _ (published_cleanup h)
  rintro (e | u) t ⟨⟨ht, _⟩, hr⟩
  · exact ⟨ht, fun hb => by cases hb⟩
  · dsimp only
    rw [wp_native]
    refine ⟨ht, fun b v hv => ?_⟩
    have hplain : (Op.removeRoot : Op V Bool).plain := trivial
    have hsteady : (Op.removeRoot : Op V Bool).steady := trivial
    have hcalm : Calm t v := ⟨plain_answers hplain hv, steady_answers hsteady hv⟩
    exact ⟨ht.calm hcalm, fun _ => Released.steady (hr rfl) hcalm.steady⟩

end Startup

end Actor

/-! ## All runs -/

theorem published_serving (codec : Codec V) (plan : WorkerPlan) :
    Serving codec (Prog.always (Published codec plan)) (Published codec plan)
      (Published codec plan) where
  weaken _ h := h
  calm _ _ h hc := h.calm hc
  due _ _ h hc := h.calm hc
  asserts _ _ _ h _ := h
  owning _ h _ := h
  idle _ _ h _ := h
  cleanup _ h := Prog.wp_weaken _ (fun _ _ _ ht => ⟨ht, ht⟩) _
    (Prog.wp_mono _ (fun _ _ ht => ⟨ht.1.1, ht.2⟩) _ (Actor.published_cleanup h))
  launch _ h hp := Prog.wp_weaken _ (fun _ _ _ ht => ⟨fun _ => ht, ht⟩) _
    (Actor.published_launch h hp)

/-- Before its preparation has an outcome a supervisor publishes nothing else. -/
theorem published_new {codec : Codec V} {plan : WorkerPlan} {cached : Option Cached} {now : Nat}
    {w : World V} (h : Plain (Supervisor.new plan cached now).world w) :
    Published codec plan w := by
  have hstate : w.state = State.new .preparing := h.state
  refine .quiet h.plan ?_ ?_ ?_ ?_ ?_
  · rw [hstate]
    rfl
  · rw [hstate]
    exact nofun
  · rw [hstate]
    exact fun b hb => absurd hb List.not_mem_nil
  · rw [hstate]
    exact fun hc => absurd hc Bool.false_ne_true
  · rw [hstate]
    exact nofun

/-- The outcome of a preparation. -/
theorem published_prepared {codec : Codec V} {plan : WorkerPlan} {cached : Option Cached}
    {now : Nat} {w : World V} (o : WorkerOutcome V)
    (h : Plain (Supervisor.new plan cached now).world w) :
    Published codec plan { w with state := w.state.publishPrepared w.actor.plan o } := by
  have hstate : w.state = State.new .preparing := h.state
  have hplan : w.actor.plan = plan := h.plan
  rw [hstate, hplan, State.publishPrepared]
  split
  · refine .quiet hplan rfl nofun ?_ (fun _ => ?_) nofun
    · intro b hb
      rcases List.mem_map.mp hb with ⟨id, _, rfl⟩
      rfl
    · simp only [List.map_map]
      exact List.map_id' _
  · rename_i hkind
    refine .quiet hplan rfl nofun (fun b hb => absurd hb List.not_mem_nil) (fun hc => ?_) nofun
    exact absurd (of_decide_eq_true hc) hkind

theorem published_contract [BEq V] (codec : Codec V) (plan : WorkerPlan)
    (cached : Option Cached) :
    Contract codec plan cached (Prog.always (Published codec plan)) (Published codec plan)
      (Published codec plan) (Published codec plan) where
  asserted _ _ _ h := h
  settled _ h := h
  closed _ h := h
  prepare now := by
    rw [Actor.servePrepare, Prog.wp_bind]
    have hplain := Prog.uses_mono (fun _ _ h => Op.preparatory.plain h) (@Actor.preparatory_prepare V)
    refine Prog.wp_mono _ ?_ _ (wp_plain (fun _ _ t ht _ => published_new ht) hplain)
    intro o w hw
    have h : Published codec plan w := published_new hw
    rw [Prog.wp_bind, wp_native]
    refine ⟨h, ?_⟩
    rintro a w ⟨rfl, rfl⟩
    rw [Prog.wp_bind, wp_native]
    refine ⟨h, ?_⟩
    rintro _ t rfl
    exact published_prepared o hw
  tick prepared w h := (published_serving codec plan).tick prepared h
  command command w h := (published_serving codec plan).command command h
  close w h := by
    rw [Actor.closePass, Prog.wp_bind]
    refine Prog.wp_mono _ ?_ _ (Actor.published_release h)
    rintro last t ⟨ht, hr⟩
    cases last with
    | true =>
        simp only [↓reduceIte, Prog.wp_bind, wp_native]
        refine ⟨ht, ?_⟩
        rintro _ u rfl
        exact .quiet ht.planned rfl (fun h => by cases h) (ht.unready (ht.down (hr rfl).process)) ht.ids
          fun _ => hr rfl
    | false =>
        simp only [Bool.false_eq_true, ↓reduceIte, Prog.wp_bind, wp_native]
        refine ⟨ht, ?_⟩
        rintro _ u rfl
        have hu : Published codec plan { t with state := { t.state with cleanupFailed := true } } :=
          ⟨ht.planned, ht.phase, fun hup => (ht.up hup).imp fun p hp => hp.imp fun ready hready =>
            ⟨hready.process, hready.greeted, hready.named⟩, ht.ready, ht.ids, ht.closed⟩
        refine ⟨hu, ?_⟩
        rintro _ v rfl
        exact hu

/-- **The published status agrees with what the supervisor owns.** In every reachable
    state of a supervisor, between two commands and between two effects: a worker is
    published as running exactly in the running phase, and then the process is there
    and has answered the handshake; a backend is published as ready only while running
    and only if that handshake named it; once the preparation has succeeded the
    backends are those of the plan, in order; and in the closed phase nothing is owned. -/
theorem status_agrees [BEq V] (codec : Codec V) (plan : WorkerPlan) (cached : Option Cached)
    {s : Supervisor V} (h : Transition.Reachable (supervisor codec plan cached) s) :
    let status := s.world.state.status
    (status.server.running = true ↔ status.phase = .running) ∧
    (status.server.running = true → ∃ p ready, s.world.actor.process = some p ∧
      Greeted codec s.world.log p ready ∧
      ∀ b ∈ status.server.backends, b.ready = true → b.id ∈ ready.backends) ∧
    (∀ b ∈ status.server.backends, b.ready = true → status.server.running = true) ∧
    (s.world.state.complete = true →
      status.server.backends.map BackendStatus.id = plan.backends) ∧
    (status.phase = .closed → s.world.actor.process = none ∧
      s.world.actor.preparation = none ∧ s.world.actor.cache = none) := by
  have hK := published_contract codec plan cached
  have hpub := hK.always (hK.reachable h)
  refine ⟨hpub.phase, fun hr => ?_, hpub.ready, hpub.ids, fun hp => ?_⟩
  · rcases hpub.up hr with ⟨p, ready, hup⟩
    exact ⟨p, ready, hup.process, hup.greeted, hup.named⟩
  · have hreleased := hpub.closed hp
    exact ⟨hreleased.process, hreleased.preparation, hreleased.cache⟩

/-- After a run in which a worker answered, it is published as running. -/
theorem status_agrees_running : ∃ s : Supervisor Unit,
    s.world.state.status.server.running = true ∧
      ∃ p ready, s.world.actor.process = some p ∧ Greeted answeringCodec s.world.log p ready := by
  obtain ⟨s, hs, hrunning⟩ : ∃ s : Supervisor Unit,
      Transition.play (Supervisor.move answeringCodec) (.new plainPlan none 0) answeredRun = some s ∧
        s.world.state.status.server.running = true := ⟨_, rfl, rfl⟩
  have hreach : Transition.Reachable (supervisor answeringCodec plainPlan none) s :=
    Transition.reachable_play (fun _ _ _ h => h) (Transition.reachable_init ⟨0, rfl⟩) hs
  rcases (status_agrees answeringCodec plainPlan none hreach).2.1 hrunning with
    ⟨p, ready, hp, hgreeted, _⟩
  exact ⟨s, hrunning, p, ready, hp, hgreeted⟩

end TinyRuntime
