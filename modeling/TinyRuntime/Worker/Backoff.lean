import TinyRuntime.Worker.Serving

/-!
# Startup Back-off

A worker is spawned, and the end of its back-off reassigned, only when the
back-off is over (`Timely`). So once it is set to a time, no worker is spawned
before that time (`Backed`): it can be replaced by something earlier only after it
has passed.

The back-off of a failed start is set after the failed worker was released, and
by nothing else. A release that fails returns early, and a deadline that fires
meanwhile drops the start at that point, and neither leaves a trace. So what is
proved is about the failed starts whose release went through, and the run at the
end shows the other kind.

## Main definitions

* `Due`: The back-off, if there is one, is over.
* `Timely`: What is asserted at every effect.
* `Backed`: Spawning has to wait.
* `Erring`: A start has just failed.
* `Cleans`: The release after it, without a failure or a deadline.
* `Supervisor.spawning`: The next effect spawns the worker.

## Theorems

* `launch_due`: What a launch does to the back-off and to the phase.
* `timely_contract`: The obligations of the supervisor's programs.
* `backed_answers`, `waiting_move`: A wait is kept until it is over.
* `backoff_kept`: No spawn before the back-off is over.
* `backoff_lost`: A failed release loses it.
-/

namespace TinyRuntime

open Prog (act attempt)

variable {V : Type}

/-- The back-off, if there is one, is over. -/
def Due (w : World V) : Prop :=
  ∀ after, w.actor.retryAfter = some after → after ≤ w.seen

/-- The effects that leave the back-off alone and spawn no worker. -/
def Op.sparing {β : Type} (op : Op V β) : Prop :=
  match op with
  | .update f => ∀ a : Actor V, (f a).retryAfter = a.retryAfter
  | .spawnProcess => False
  | _ => True

/-- A worker is spawned and the back-off reassigned only when it is over. -/
def Timely (β : Type) (op : Op V β) (w : World V) : Prop :=
  match op with
  | .update f => (f w.actor).retryAfter = w.actor.retryAfter ∨ Due w
  | .spawnProcess => Due w
  | _ => True

/-- What is asserted of a start: it waits only where the back-off is over. -/
def TimelyStays (β : Type) (op : Op V β) (w : World V) : Prop :=
  (suspends β op = true → Due w) ∧ Timely β op w

theorem timelyStays {β : Type} {op : Op V β} {w : World V} (hs : suspends β op = false)
    (h : Timely β op w) : TimelyStays β op w :=
  ⟨fun hw => absurd (hs.symm.trans hw) Bool.false_ne_true, h⟩

theorem Due.of_eq {w t : World V} (h : Due w) (ha : t.actor.retryAfter = w.actor.retryAfter)
    (hs : w.seen ≤ t.seen) : Due t :=
  fun after hafter => Nat.le_trans (h after (ha ▸ hafter)) hs

theorem Due.plain {w t : World V} (h : Due w) (hp : Plain w t) : Due t :=
  h.of_eq hp.retryAfter hp.seen

theorem Due.cleared {w t : World V} (h : Due w) (hc : Cleared w t) : Due t :=
  h.of_eq hc.retryAfter hc.seen

theorem Op.plain.sparing {β : Type} {op : Op V β} (h : op.plain) : op.sparing := by
  cases op with
  | update f => exact fun a => (h a).2.2
  | spawnProcess => cases h
  | _ => trivial

theorem Op.sparing.timely {β : Type} {op : Op V β} (h : op.sparing) (w : World V) :
    Timely β op w := by
  cases op with
  | update f => exact .inl (h w.actor)
  | spawnProcess => cases h
  | _ => trivial

theorem sparing_preparatory {α : Type} {p : Prog (Op V) α}
    (hp : p.Uses fun _ op => op.preparatory) : p.Uses fun _ op => op.sparing :=
  Prog.uses_mono (fun _ _ h => h.plain.sparing) hp

/-- A sparing program is timely at any time. -/
theorem wp_sparing {α : Type} {p : Prog (Op V) α} (hp : p.Uses fun _ op => op.sparing)
    (w : World V) : p.wp native Timely (fun _ _ => True) w := by
  have hkeep : p.wp native (Prog.always fun _ => True) (fun _ _ => True) w :=
    Prog.wp_uses _ (fun _ _ _ _ _ _ _ _ _ => trivial) p w hp trivial
  exact Prog.wp_weaken p (fun _ _ t ht => ht.2.timely t) w (Prog.wp_and_uses p w hkeep hp)

namespace Actor

theorem sparing_cleanupProcess : (@cleanupProcess V).run.Uses fun _ op => op.sparing := by
  refine Prog.uses_run_bind ⟨trivial, fun _ => trivial⟩ fun a => ?_
  dsimp only
  split
  · exact ⟨fun _ => rfl, fun _ => trivial⟩
  · exact Prog.uses_run_bind ⟨trivial, fun _ => trivial⟩ fun _ =>
      ⟨fun _ => rfl, fun _ => trivial⟩

theorem sparing_cleanup : (@cleanup V).run.Uses fun _ op => op.sparing :=
  Prog.uses_run_bind ⟨trivial, fun _ => trivial⟩ fun _ =>
    Prog.uses_run_bind (sparing_preparatory preparatory_cleanupPreparation) fun _ =>
      Prog.uses_run_bind (sparing_preparatory preparatory_cleanupCache) fun _ =>
        Prog.uses_run_bind sparing_cleanupProcess fun _ =>
          Prog.uses_run_bind ⟨fun _ => rfl, fun _ => trivial⟩ fun _ =>
            ⟨trivial, fun _ => trivial⟩

theorem sparing_closePass : (@closePass V).Uses fun _ op => op.sparing := by
  have hrelease : (@release V).Uses fun _ op => op.sparing := by
    refine Prog.uses_bind sparing_cleanup fun r => ?_
    cases r with
    | error e => trivial
    | ok u => exact ⟨trivial, fun _ => trivial⟩
  refine Prog.uses_bind hrelease fun last => ?_
  cases last with
  | true => exact ⟨trivial, fun _ => trivial⟩
  | false => exact ⟨trivial, fun _ => ⟨trivial, fun _ => trivial⟩⟩

/-- A cleanup after the back-off is over. -/
theorem cleanup_due {w : World V} (h : Due w) :
    cleanup.run.wp native TimelyStays
      (fun r t => (Cleared w t ∧ Due t) ∧ (r = .ok () → Released t.actor)) w := by
  refine Prog.wp_weaken _ ?_ w (Prog.wp_mono _ ?_ w
    (Prog.wp_and_uses _ w (cleanup_cleared w) sparing_cleanup))
  · rintro β op t ⟨rfl | ht, hs⟩
    · exact ⟨fun _ => h, hs.timely t⟩
    · exact ⟨fun _ => h.cleared ht, hs.timely t⟩
  · rintro r t ⟨ht, hr⟩
    exact ⟨⟨ht, h.cleared ht⟩, hr⟩

/-- A worker that failed is released, and then either the back-off runs, or it has
    not been set. -/
theorem startFailed_due (reason : String) {w : World V} (h : Due w) :
    (startFailed reason).wp native TimelyStays
      (fun _ t => Due t ∨ t.state.status.phase = .failed ∧ Released t.actor) w := by
  rw [startFailed, Prog.wp_bind]
  refine Prog.wp_mono _ ?_ _ (cleanup_due h)
  rintro (e | u) t ⟨⟨_, ht⟩, hr⟩
  · exact .inl ht
  · simp only [Prog.wp_bind, wp_native]
    refine ⟨timelyStays rfl trivial, ?_⟩
    rintro now t₁ ⟨hle, rfl⟩
    refine ⟨timelyStays rfl (.inr (ht.of_eq rfl hle)), ?_⟩
    rintro _ t₂ rfl
    refine ⟨timelyStays rfl trivial, ?_⟩
    rintro _ t₃ rfl
    exact .inr ⟨rfl, (hr rfl).process, (hr rfl).preparation, (hr rfl).cache⟩

/-- A start goes on only after the back-off is over. -/
theorem backingOff_due (w : World V) :
    (backingOff w.actor).wp native TimelyStays
      (fun wait t => Calm w t ∧ (wait = false → Due t)) w := by
  unfold backingOff
  split
  · rename_i hnone
    refine ⟨.refl w, fun _ after hafter => ?_⟩
    rw [hnone] at hafter
    cases hafter
  · rename_i after hsome
    rw [Prog.wp_bind, wp_native]
    refine ⟨timelyStays rfl trivial, ?_⟩
    rintro now t ⟨hle, rfl⟩
    refine ⟨⟨.later hle, ⟨rfl, rfl, rfl, rfl, rfl, rfl⟩⟩, fun hwait after' hafter => ?_⟩
    rw [hsome] at hafter
    cases hafter
    exact Nat.le_of_not_lt (of_decide_eq_false hwait)

/-- A launch either does nothing, or ends with the back-off over, or leaves nothing
    behind but the published failure. -/
theorem launch_due (codec : Codec V) (w : World V) :
    (launch codec).wp native TimelyStays
      (fun _ t => Calm w t ∨ Due t ∨ t.state.status.phase = .failed ∧ Released t.actor) w := by
  rw [launch, Prog.wp_bind, wp_native]
  refine ⟨timelyStays rfl trivial, ?_⟩
  rintro a w ⟨rfl, rfl⟩
  rw [Prog.wp_bind]
  refine Prog.wp_mono _ ?_ _ (backingOff_due w)
  rintro wait w₁ ⟨hcalm, hdue⟩
  cases wait with
  | true => exact .inl hcalm
  | false =>
      have h₁ := hdue rfl
      simp only [Bool.false_eq_true, ↓reduceIte, Prog.wp_bind, wp_native]
      refine ⟨timelyStays rfl trivial, ?_⟩
      rintro _ w₂ rfl
      have h₂ : Due { w₁ with state := State.setPhase .starting w₁.state } :=
        h₁.of_eq rfl (Nat.le_refl _)
      rw [spawnReady, Prog.wp_bind, wp_native]
      refine ⟨timelyStays rfl h₂, ?_⟩
      have hfailed : ∀ (reason : String) (t : World V), Due t →
          (startFailed reason).wp native TimelyStays
            (fun _ t => Calm w t ∨ Due t ∨ t.state.status.phase = .failed ∧ Released t.actor) t :=
        fun reason t ht => Prog.wp_mono _ (fun _ _ h => .inr h) t (startFailed_due reason ht)
      rintro r w₃ (⟨rfl, rfl⟩ | ⟨⟨reason, rfl⟩, rfl⟩)
      · have h₃ : Due { World.spawn { w₁ with state := State.setPhase .starting w₁.state } with
            actor := { w₁.actor with process := some w₁.fresh } } :=
          h₁.of_eq rfl (Nat.le_refl _)
        refine Prog.wp_mono _ ?_ _ (wp_calm (fun β op t ht hc => ?_)
          (calm_handshake codec))
        · intro r t ht
          have h₄ := h₃.plain ht.plain
          cases r with
          | error reason => exact hfailed _ _ h₄
          | ok backends =>
              dsimp only
              rw [started, Prog.wp_bind, wp_native]
              refine ⟨timelyStays rfl trivial, ?_⟩
              rintro stopped t rfl
              cases stopped with
              | true => exact hfailed _ _ h₄
              | false =>
                  simp only [Bool.false_eq_true, ↓reduceIte, Prog.wp_bind, wp_native]
                  refine ⟨timelyStays rfl trivial, ?_⟩
                  rintro now t₁ ⟨hle, rfl⟩
                  refine ⟨timelyStays rfl trivial, ?_⟩
                  rintro a t₁ ⟨rfl, rfl⟩
                  refine ⟨timelyStays rfl (.inr (h₄.of_eq rfl hle)), ?_⟩
                  rintro _ t₂ rfl
                  refine ⟨timelyStays rfl trivial, ?_⟩
                  rintro _ t₃ rfl
                  exact .inr (.inl fun after hafter => by cases hafter)
        · exact ⟨fun _ => h₃.plain ht.plain, hc.plain.sparing.timely t⟩
      · exact hfailed _ _ h₂

end Actor

/-! ## All runs -/

theorem timely_serving (codec : Codec V) :
    Serving codec Timely (fun _ => True) (fun _ => True) where
  weaken _ h := h
  calm _ _ _ _ := trivial
  due _ _ _ _ := trivial
  asserts _ _ w _ h := h.plain.sparing.timely w
  owning _ _ _ := trivial
  idle _ _ _ _ := trivial
  cleanup w _ := by
    refine Prog.wp_weaken _ ?_ w (Prog.wp_mono _ ?_ w
      (Prog.wp_and_uses _ w (Actor.cleanup_cleared w) Actor.sparing_cleanup))
    · exact fun β op t ht => ⟨trivial, ht.2.timely t⟩
    · exact fun r t ht => ⟨trivial, ht.2⟩
  launch w _ _ := by
    refine Prog.wp_weaken _ ?_ w (Prog.wp_mono _ (fun _ _ _ => trivial) w
      (Actor.launch_due codec w))
    exact fun β op t ht => ⟨fun _ => trivial, ht.2⟩

theorem timely_contract [BEq V] (codec : Codec V) (plan : WorkerPlan) (cached : Option Cached) :
    Contract codec plan cached Timely (fun _ => True) (fun _ => True) (fun _ => True) where
  asserted _ _ _ _ := trivial
  settled _ _ := trivial
  closed _ _ := trivial
  prepare now := by
    refine wp_sparing (Prog.uses_bind (sparing_preparatory Actor.preparatory_prepare) fun _ => ?_) _
    exact ⟨trivial, fun _ => ⟨trivial, fun _ => trivial⟩⟩
  tick prepared w _ := (timely_serving codec).tick prepared trivial
  command command w _ := (timely_serving codec).command command trivial
  close w _ := Prog.wp_mono _ (fun b _ _ => by cases b <;> trivial) w
    (wp_sparing Actor.sparing_closePass w)

/-! ## Waiting -/

/-- No worker is spawned before `limit`. -/
def Backed (limit : Nat) (w : World V) : Prop :=
  (∃ after, w.actor.retryAfter = some after ∧ limit ≤ after) ∨ limit ≤ w.seen

/-- A back-off that is over leaves nothing to wait for. -/
theorem Backed.over {limit : Nat} {w : World V} (h : Backed limit w) (hd : Due w) :
    limit ≤ w.seen := by
  rcases h with ⟨after, hafter, hle⟩ | hseen
  · exact Nat.le_trans hle (hd after hafter)
  · exact hseen

theorem Backed.of_eq {limit : Nat} {w t : World V} (h : Backed limit w)
    (ha : t.actor.retryAfter = w.actor.retryAfter) (hs : w.seen ≤ t.seen) : Backed limit t :=
  h.imp (fun ⟨after, hafter, hle⟩ => ⟨after, ha.trans hafter, hle⟩) fun hle => Nat.le_trans hle hs

theorem backed_answers {limit : Nat} {β : Type} {op : Op V β} {w t : World V} {b : β}
    (ht : Timely β op w) (hb : Backed limit w) (h : Answers op w b t) : Backed limit t := by
  cases op with
  | update f =>
      rcases h with rfl
      rcases ht with heq | hdue
      · exact hb.of_eq heq (Nat.le_refl _)
      · exact .inr (hb.over hdue)
  | _ =>
      have hkeep : t.actor.retryAfter = w.actor.retryAfter ∧ w.seen ≤ t.seen := by
        simp only [Answers] at h
        grind [World.withCache, World.note, World.reap, World.spawn]
      exact hb.of_eq hkeep.1 hkeep.2

/-- The spawn of the worker. -/
def Op.spawns : ∀ β, Op V β → Bool
  | _, .spawnProcess => true
  | _, _ => false

/-- The supervisor is about to spawn the worker. -/
def Supervisor.spawning (s : Supervisor V) : Bool :=
  match s.life with
  | .preparing p => p.next Op.spawns
  | .busy _ p => p.next Op.spawns
  | .closing p => p.next Op.spawns
  | _ => false

/-- The closing loop has begun. -/
def Supervisor.Closing (s : Supervisor V) : Prop :=
  match s.life with
  | .closing p => p.Uses fun _ op => op.sparing
  | .closed => True
  | _ => False

/-- No worker is spawned before `limit`, if ever. -/
def Supervisor.Waiting (limit : Nat) (s : Supervisor V) : Prop :=
  Backed limit s.world ∨ s.Closing

theorem Op.sparing.spawns {β : Type} {op : Op V β} (h : op.sparing) : Op.spawns β op = false := by
  cases op with
  | spawnProcess => cases h
  | _ => rfl

theorem next_spawns {α : Type} {p : Prog (Op V) α}
    (h : p.Uses fun β op => Op.spawns β op = false) : p.next Op.spawns = false := by
  cases p with
  | done a => rfl
  | perform e k => exact h.1

/-- A timely supervisor spawns only when its back-off is over. -/
theorem Supervisor.spawning_due {s : Supervisor V} {C S D : World V → Prop}
    (h : s.Holds Timely C S D) (hs : s.spawning = true) : Due s.world := by
  have hhead : ∀ {α : Type} (p : Prog (Op V) α) (Q : α → World V → Prop),
      p.wp native Timely Q s.world → p.next Op.spawns = true → Due s.world := by
    intro α p Q hp hn
    cases p with
    | done a => cases hn
    | perform e k =>
        cases e with
        | spawnProcess => exact hp.1
        | _ => cases hn
  rcases s with ⟨w, _ | _ | _ | _ | _⟩
  · exact hhead _ _ h hs
  · cases hs
  · exact hhead _ _ h hs
  · exact hhead _ _ h hs
  · cases hs

/-! ## A failed start -/

/-- A start has just failed, on its own or under the deadline of a request: what is
    left of it releases the worker. -/
inductive Erring (s : Supervisor V) : Option Nat → Prop
  | alone {prepared : WorkerOutcome V} {reason : String}
      {k : WorkerOutcome V → Prog (Op V) Unit} :
      s.life = .busy prepared ((Actor.startFailed reason).bind k) → Erring s none
  | within {prepared : WorkerOutcome V} {reason : String} {deadline : Nat}
      {k : Option (WorkerOutcome V) → Prog (Op V) Unit} :
      s.life = .busy prepared ((timeoutAt deadline (Actor.startFailed reason)).bind k) →
      Erring s (some deadline)

/-- The release of the worker succeeds, before the deadline there is. -/
def Cleans (deadline : Option Nat) (w : World V) (cs : List Choice) (t : World V) : Prop :=
  match deadline with
  | none => Actor.cleanup.run.advances native w cs = some (.done (.ok ()), t)
  | some d => (timeoutAt d Actor.cleanup.run).advances native w cs = some (.done (some (.ok ())), t)

/-- What a failed start does with the outcome of the release. -/
def Actor.backOff (reason : String) : Except String Unit → Prog (Op V) (WorkerOutcome V)
  | .error _ => pure (outcome .failed (some "cleanup_failed"))
  | .ok () => do
      let now ← Prog.op .now
      Prog.op (.update fun a => { a with retryAfter := some (now + BACKOFF) })
      Prog.op (.sendModify (State.setPhase .failed))
      pure (outcome .failed (some reason))

theorem Actor.startFailed_eq (reason : String) :
    startFailed reason = (@cleanup V).run.bind (backOff reason) := by
  refine congrArg (Prog.bind _) (funext fun r => ?_)
  rcases r with e | ⟨⟩ <;> rfl

/-- The time is read and the back-off set. -/
def Rests (p : Prog (Op V) Unit) : Prop :=
  ∃ k : Nat → Unit → Prog (Op V) Unit, p = .perform .now fun now =>
    .perform (.update fun a => { a with retryAfter := some (now + BACKOFF) }) (k now)

/-- After a failed start comes a release that spawns nothing, and after one that
    succeeds the back-off. -/
theorem Erring.shape {s : Supervisor V} {deadline : Option Nat} {cs : List Choice} {w : World V}
    (h : Erring s deadline) (hclean : Cleans deadline s.world cs w) :
    ∃ (prepared : WorkerOutcome V) (α : Type) (c : Prog (Op V) α) (ok : α)
      (f : α → Prog (Op V) Unit), s.life = .busy prepared (c.bind f) ∧
        (c.Uses fun β op => Op.spawns β op = false) ∧
        c.advances native s.world cs = some (.done ok, w) ∧ Rests (f ok) := by
  have hcleanup : (@Actor.cleanup V).run.Uses fun β op => Op.spawns β op = false :=
    Prog.uses_mono (fun _ _ h => h.spawns) Actor.sparing_cleanup
  cases h with
  | @alone prepared reason k hlife =>
      refine ⟨prepared, _, Actor.cleanup.run, .ok (),
        fun r => (Actor.backOff reason r).bind k, ?_, hcleanup, hclean, ⟨_, rfl⟩⟩
      rw [hlife, Actor.startFailed_eq, Prog.bind_assoc]
  | @within prepared reason d k hlife =>
      refine ⟨prepared, _, timeoutAt d Actor.cleanup.run, some (.ok ()),
        fun o => Prog.bind (match o with
          | none => .done none
          | some r => timeoutAt d (Actor.backOff reason r)) k, ?_,
        Prog.uses_cut rfl hcleanup, hclean, ⟨_, rfl⟩⟩
      rw [hlife, Actor.startFailed_eq, timeoutAt, Prog.cut_bind, Prog.bind_assoc]
      refine congrArg _ (congrArg _ (funext fun o => ?_))
      cases o <;> rfl

/-! ## Runs -/

section Runs

variable [BEq V] {codec : Codec V}

theorem closing_move {s t : Supervisor V} {m : Move V} (h : s.Closing)
    (hm : s.move codec m = some t) : t.Closing := by
  rcases s with ⟨w, _ | _ | _ | p | _⟩
  · cases h
  · cases h
  · cases h
  · cases m with
    | perform c =>
        simp only [Supervisor.move, Option.map_eq_some_iff] at hm
        rcases hm with ⟨⟨q, u⟩, hs, rfl⟩
        exact Prog.uses_step hs h
    | settle =>
        cases p with
        | done last =>
            cases last with
            | true =>
                cases hm
                trivial
            | false =>
                cases hm
                exact Actor.sparing_closePass
        | perform e k => cases hm
    | tick | take | leave | unwind => cases hm
  · cases m <;> cases hm

theorem waiting_move {limit : Nat} {C S D : World V → Prop} {s t : Supervisor V} {m : Move V}
    (h : s.Holds Timely C S D) (hw : s.Waiting limit) (hm : s.move codec m = some t) :
    t.Waiting limit := by
  rcases hw with hb | hc
  · left
    rcases Supervisor.answers_of_move h hm with ⟨β, op, b, ht, ha⟩ | heq
    · exact backed_answers ht hb ha
    · rw [heq]
      exact hb
  · exact .inr (closing_move hc hm)

/-- Whoever waits does so until a run spawns a worker. -/
theorem waiting_play {plan : WorkerPlan} {cached : Option Cached} {limit : Nat}
    {es : List (Move V)} : ∀ {s v : Supervisor V},
      Transition.Reachable (supervisor codec plan cached) s → s.Waiting limit →
      Transition.play (Supervisor.move codec) s es = some v → v.spawning = true →
      limit ≤ v.world.seen := by
  induction es with
  | nil =>
      intro s v hs hw hplay hspawn
      cases hplay
      rcases hw with hb | hc
      · exact hb.over (Supervisor.spawning_due ((timely_contract codec plan cached).reachable hs)
          hspawn)
      · rcases s with ⟨w, _ | _ | _ | p | _⟩
        · cases hc
        · cases hc
        · cases hc
        · have hquiet : p.next Op.spawns = false :=
            next_spawns (Prog.uses_mono (fun _ _ h => h.spawns) hc)
          exact absurd (hquiet.symm.trans hspawn) Bool.false_ne_true
        · cases hspawn
  | cons e es ih =>
      intro s v hs hw hplay hspawn
      rcases Option.bind_eq_some_iff.mp hplay with ⟨u, hu, hrest⟩
      exact ih (Transition.reachable_step hs hu)
        (waiting_move ((timely_contract codec plan cached).reachable hs) hw hu) hrest hspawn

theorem play_busy (codec : Codec V) (prepared : WorkerOutcome V) {cs : List Choice} {q : Prog (Op V) Unit}
    {u : World V} : ∀ {p : Prog (Op V) Unit} {w : World V},
      p.advances native w cs = some (q, u) →
      Transition.play (Supervisor.move codec) { world := w, life := .busy prepared p }
        (cs.map .perform) = some { world := u, life := .busy prepared q } := by
  induction cs with
  | nil =>
      intro p w h
      cases h
      rfl
  | cons c cs ih =>
      intro p w h
      rcases Option.bind_eq_some_iff.mp h with ⟨⟨p₁, w₁⟩, hs, hrest⟩
      simp only [List.map_cons, Transition.play, Supervisor.move, hs, Option.map_some,
        Option.bind_some]
      exact ih hrest

/-- Once the closing loop has begun no worker is spawned. -/
theorem closing_play {plan : WorkerPlan} {cached : Option Cached} {s v : Supervisor V}
    {es : List (Move V)} (hs : Transition.Reachable (supervisor codec plan cached) s)
    (hc : s.Closing) (hplay : Transition.play (Supervisor.move codec) s es = some v) :
    v.spawning = false := by
  by_contra hspawn
  have hw : s.Waiting (v.world.seen + 1) := .inr hc
  have hle := waiting_play hs hw hplay (Bool.not_eq_false _ ▸ hspawn)
  omega

/-- From the assignment of the back-off on, no worker is spawned until it is over. -/
theorem set_play {plan : WorkerPlan} {cached : Option Cached} {s v : Supervisor V} {t : Nat}
    {prepared : WorkerOutcome V} {k : Unit → Prog (Op V) Unit} {es : List (Move V)}
    (hs : Transition.Reachable (supervisor codec plan cached) s)
    (hlife : s.life = .busy prepared
      (.perform (.update fun a => { a with retryAfter := some (t + BACKOFF) }) k))
    (hplay : Transition.play (Supervisor.move codec) s es = some v) (hspawn : v.spawning = true) :
    t + BACKOFF ≤ v.world.seen := by
  rcases s with ⟨w, life⟩
  cases hlife
  cases es with
  | nil =>
      cases hplay
      cases hspawn
  | cons m es =>
      rcases Option.bind_eq_some_iff.mp hplay with ⟨s₁, hm, hplay⟩
      have hs₁ := Transition.reachable_step hs hm
      cases m with
      | settle | tick | take | leave => cases hm
      | unwind =>
          cases hm
          exact absurd ((closing_play hs₁ Actor.sparing_closePass hplay).symm.trans hspawn)
            Bool.false_ne_true
      | perform c =>
          cases hm
          exact waiting_play hs₁ (.inl (.inl ⟨_, rfl, Nat.le_refl _⟩)) hplay hspawn

/-- From the point where the back-off is about to be set, no worker is spawned until
    it is over. -/
theorem rests_play {plan : WorkerPlan} {cached : Option Cached} {s v : Supervisor V}
    {prepared : WorkerOutcome V} {p : Prog (Op V) Unit} {es : List (Move V)}
    (hs : Transition.Reachable (supervisor codec plan cached) s)
    (hlife : s.life = .busy prepared p) (hp : Rests p)
    (hplay : Transition.play (Supervisor.move codec) s es = some v) (hspawn : v.spawning = true) :
    ∃ t rest, es = .perform (.time t) :: rest ∧ t + BACKOFF ≤ v.world.seen := by
  rcases hp with ⟨k, rfl⟩
  rcases s with ⟨w, life⟩
  cases hlife
  cases es with
  | nil =>
      cases hplay
      cases hspawn
  | cons m es =>
      rcases Option.bind_eq_some_iff.mp hplay with ⟨s₁, hm, hplay⟩
      have hs₁ := Transition.reachable_step hs hm
      cases m with
      | settle | tick | take | leave => cases hm
      | unwind =>
          cases hm
          exact absurd ((closing_play hs₁ Actor.sparing_closePass hplay).symm.trans hspawn)
            Bool.false_ne_true
      | perform c =>
          simp only [Supervisor.move, Prog.advance, Option.map_eq_some_iff] at hm
          rcases hm with ⟨⟨q, u⟩, hq, rfl⟩
          cases c with
          | pass | flag | result | frame | session => cases hq
          | time t =>
              simp only [native, respond] at hq
              split at hq
              · cases hq
              · rename_i hnow
                split at hnow
                · cases hnow
                  cases hq
                  exact ⟨t, es, rfl, set_play hs₁ rfl hplay hspawn⟩
                · cases hnow

/-- **Startup back-off is honoured.** Take a start of the worker that has failed in a
    run, and any continuation of the run in which the release that follows succeeds
    before the deadline of the request, if the start has one. No worker is spawned
    in it until the clock has been read for the back-off, and then none before 300
    seconds after that reading. -/
theorem backoff_kept (plan : WorkerPlan) (cached : Option Cached) {s v : Supervisor V}
    {deadline : Option Nat} {cs : List Choice} {w : World V} {ms : List (Move V)}
    (hs : Transition.Reachable (supervisor codec plan cached) s) (herr : Erring s deadline)
    (hclean : Cleans deadline s.world cs w)
    (hms : ms <+: cs.map .perform ∨ cs.map .perform <+: ms)
    (hplay : Transition.play (Supervisor.move codec) s ms = some v)
    (hspawn : v.spawning = true) :
    ∃ t rest, ms = cs.map .perform ++ .perform (.time t) :: rest ∧
      t + BACKOFF ≤ v.world.seen := by
  rcases herr.shape hclean with ⟨prepared, α, c, ok, f, hlife, huses, hadv, k, hf⟩
  have hs₀ : s = { world := s.world, life := .busy prepared (c.bind f) } := by rw [← hlife]
  have hstart := play_busy codec prepared (Prog.advances_bind f hadv)
  rw [← hs₀] at hstart
  rcases hms with ⟨rest, hrest⟩ | ⟨es, rfl⟩
  · -- While the worker is being released nothing is spawned.
    rcases List.append_eq_map_iff.mp hrest with ⟨cs₁, cs₂, rfl, rfl, _⟩
    rw [Prog.advances_append] at hadv
    rcases Option.bind_eq_some_iff.mp hadv with ⟨⟨q, u⟩, hq, hdone⟩
    have hmid := play_busy codec prepared (Prog.advances_bind f hq)
    rw [← hs₀, hplay] at hmid
    cases hmid
    cases q with
    | perform e k' =>
        have hquiet : Op.spawns _ e = false := (Prog.uses_advances hq huses).1
        exact absurd (hquiet.symm.trans hspawn) Bool.false_ne_true
    | done a =>
        cases cs₂ with
        | nil =>
            cases hdone
            change (f ok).next Op.spawns = true at hspawn
            rw [hf] at hspawn
            cases hspawn
        | cons c' cs₂ => cases hdone
  · rw [Transition.play_append, hstart, Option.bind_some] at hplay
    have hs₁ := Transition.reachable_play (fun _ _ _ h => h) hs hstart
    rcases rests_play hs₁ rfl ⟨k, hf⟩ hplay hspawn with ⟨t, rest, rfl, hle⟩
    exact ⟨t, rest, rfl, hle⟩

end Runs

/-! ## Two runs -/

open Move Choice in
/-- A worker is prepared. -/
def preparedRun : List (Move Unit) :=
  [perform pass, perform pass, perform (time 0), perform (result (.ok ())),
    perform (flag false), perform pass, perform pass, settle]

open Move Choice in
/-- It is started up to the spawn. -/
def startingRun (now : Nat) : List (Move Unit) :=
  [take .start, perform (flag false), perform pass, perform pass, perform (time now),
    perform pass, perform pass]

open Move Choice in
/-- The spawn fails, nothing has to be released, and the next start waits until the
    back-off is over. -/
def waitingRun : List (Move Unit) :=
  List.replicate 9 (perform pass) ++
    [perform (time 2), perform pass, perform pass, perform pass, settle] ++
    startingRun 400000 ++ [perform (time 400000), perform pass]

open Move Choice in
/-- After a spawn that fails at time 1, the next one happens at time 400000. -/
theorem backoff_kept_waited : ∃ s v : Supervisor Unit,
    Transition.play (Supervisor.move answeringCodec) s waitingRun = some v ∧
      v.spawning = true ∧ ∃ t rest, waitingRun =
        (List.replicate 9 pass).map perform ++ perform (time t) :: rest ∧
          t + BACKOFF ≤ v.world.seen := by
  obtain ⟨s, hs, herr, w, hclean, v, hv, hspawn⟩ : ∃ s : Supervisor Unit,
      Transition.play (Supervisor.move answeringCodec) (.new plainPlan none 0)
        (preparedRun ++ startingRun 1 ++ [perform pass, perform (result (.error "missing"))]) =
          some s ∧ Erring s none ∧
        ∃ w, Actor.cleanup.run.advances native s.world (List.replicate 9 pass) =
          some (.done (.ok ()), w) ∧
        ∃ v, Transition.play (Supervisor.move answeringCodec) s waitingRun = some v ∧
          v.spawning = true :=
    ⟨_, rfl, @Erring.alone _ _ _ _ (fun o => Prog.op (.reply o)) rfl, _, rfl, _, rfl, rfl⟩
  have hreach : Transition.Reachable (supervisor answeringCodec plainPlan none) s :=
    Transition.reachable_play (fun _ _ _ h => h) (Transition.reachable_init ⟨0, rfl⟩) hs
  refine ⟨s, v, hv, hspawn, ?_⟩
  exact backoff_kept plainPlan none hreach herr hclean (.inr ⟨_, rfl⟩) hv hspawn

open Move Choice in
/-- The worker comes up, but its ready line cannot be read, and it cannot be
    reaped. -/
def unreapedRun : List (Move Unit) :=
  List.replicate 6 (perform pass) ++ [perform (result (.error "busy")), perform pass, settle]

open Move Choice in
/-- The next start reaps it and goes on to spawn another. -/
def respawnRun : List (Move Unit) :=
  [take .start, perform (flag false), perform pass, perform pass, perform (time 1),
    perform pass, perform pass] ++ List.replicate 6 (perform pass) ++
    [perform (result (.ok ()))] ++ List.replicate 5 (perform pass)

open Move Choice in
/-- **The back-off of a failed start can be lost.** It is not true that the worker is
    never spawned within 300 seconds after a start of it failed: after a failure whose
    release fails, the next start spawns at once, and the clock still shows the time
    of the failure afterwards. -/
theorem backoff_lost :
    ¬ ∀ (codec : Codec Unit) (plan : WorkerPlan) (s v u : Supervisor Unit)
      (deadline : Option Nat) (ms es : List (Move Unit)) (t : Nat),
      Transition.Reachable (supervisor codec plan none) s → Erring s deadline →
      Transition.play (Supervisor.move codec) s ms = some v → v.spawning = true →
      Transition.play (Supervisor.move codec) v (perform (result (.ok ())) :: es) = some u →
      perform (time t) ∈ es → s.world.seen + BACKOFF ≤ t := by
  intro h
  obtain ⟨s, hs, herr, hseen, v, hv, hspawn, u, hu⟩ : ∃ s : Supervisor Unit,
      Transition.play (Supervisor.move answeringCodec) (.new plainPlan none 0)
        (preparedRun ++ startingRun 1 ++ [perform pass, perform (result (.ok ())),
          perform pass, perform (flag false), perform (time 1), perform pass,
          perform (flag false), perform (frame (.error "closed"))]) =
          some s ∧ Erring s none ∧ s.world.seen = 1 ∧
        ∃ v, Transition.play (Supervisor.move answeringCodec) s (unreapedRun ++ respawnRun) =
            some v ∧ v.spawning = true ∧
          ∃ u, Transition.play (Supervisor.move answeringCodec) v
            [perform (result (.ok ())), perform pass, perform (flag false), perform (time 1)] =
              some u :=
    ⟨_, rfl, @Erring.alone _ _ _ _ (fun o => Prog.op (.reply o)) rfl, rfl, _, rfl, rfl, _, rfl⟩
  have hreach : Transition.Reachable (supervisor answeringCodec plainPlan none) s :=
    Transition.reachable_play (fun _ _ _ h => h) (Transition.reachable_init ⟨0, rfl⟩) hs
  have hbound := h answeringCodec plainPlan s v u none _ _ 1 hreach herr hv hspawn hu
    (List.mem_cons_of_mem _ (List.mem_cons_of_mem _ (List.mem_singleton_self _)))
  rw [hseen] at hbound
  exact absurd hbound (by decide)

end TinyRuntime
