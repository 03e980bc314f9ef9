import TinyRuntime.Worker.Custody

/-!
# Serving

The walk through the branches of `serve`, made once for every property that a
command and a tick keep.

Preparation and the operations on a running worker are made of *plain* effects:
they start nothing, publish nothing and leave the back-off alone. What is left of
`serve` are two pieces, releasing what is owned and launching a worker. A property
is described by what those two need and give (`Serving`): one condition that
holds whenever `serve` is between two pieces, and a stronger one under which
something may be released. A start is dropped by its deadline only where it
waits, and there the stronger condition has to hold.

## Main definitions

* `Op.plain`: The effects that neither start nor publish nor back off.
* `Plain`: What a plain effect keeps.
* `Calm`: What an effect of an operation keeps.
* `Stays`: What is asserted of a program that may be dropped.
* `Serving`: What a property has to survive to survive a command and a tick.

## Theorems

* `plain_answers`, `calm_answers`: The frame of one effect.
* `Cleared`, `cleanup_cleared`: What a cleanup changes.
* `Serving.start`, `Serving.tries`, `Serving.request`: The walk.
* `Serving.command`, `Serving.tick`: A command and a tick keep the property.
-/

namespace TinyRuntime

open Prog (act attempt)

variable {V : Type}

/-! ## Plain effects -/

/-- The effects that start nothing, publish nothing and leave the plan, the worker
    and the back-off alone. -/
def Op.plain {β : Type} (op : Op V β) : Prop :=
  match op with
  | .update f => ∀ a : Actor V,
      (f a).plan = a.plan ∧ (f a).process = a.process ∧ (f a).retryAfter = a.retryAfter
  | .sendModify _ | .spawnProcess => False
  | _ => True

/-- What a plain effect leaves as it was. -/
structure Plain (w t : World V) : Prop where
  plan : t.actor.plan = w.actor.plan
  process : t.actor.process = w.actor.process
  retryAfter : t.actor.retryAfter = w.actor.retryAfter
  state : t.state = w.state
  seen : w.seen ≤ t.seen
  log : w.log <+: t.log

theorem Plain.refl (w : World V) : Plain w w :=
  ⟨rfl, rfl, rfl, rfl, Nat.le_refl _, List.prefix_refl _⟩

theorem Plain.trans {w t u : World V} (h : Plain w t) (h' : Plain t u) : Plain w u where
  plan := h'.plan.trans h.plan
  process := h'.process.trans h.process
  retryAfter := h'.retryAfter.trans h.retryAfter
  state := h'.state.trans h.state
  seen := Nat.le_trans h.seen h'.seen
  log := h.log.trans h'.log

theorem Plain.note (w : World V) (e : Event V) : Plain w (w.note e) :=
  ⟨rfl, rfl, rfl, rfl, Nat.le_refl _, List.prefix_append _ _⟩

theorem Plain.later {w : World V} {now : Nat} (h : w.seen ≤ now) :
    Plain w { w with seen := now } :=
  ⟨rfl, rfl, rfl, rfl, h, List.prefix_refl _⟩

theorem plain_answers {β : Type} {op : Op V β} {w t : World V} {b : β} (hp : op.plain)
    (h : Answers op w b t) : Plain w t := by
  cases op with
  | update f =>
      rcases h with rfl
      rcases hp w.actor with ⟨h1, h2, h3⟩
      exact ⟨h1, h2, h3, rfl, Nat.le_refl _, List.prefix_refl _⟩
  | sendModify | spawnProcess => cases hp
  | now =>
      rcases h with ⟨hle, rfl⟩
      exact .later hle
  | expired d =>
      rcases h with ⟨_, rfl⟩ | ⟨_, now, hle, _, rfl⟩
      · exact .refl _
      · exact .later hle
  | self | state =>
      rcases h with ⟨_, rfl⟩
      exact .refl _
  | stopped | isAlive | finishWrite | flush | execute | checkBinding | sleep =>
      rcases h with rfl
      exact .refl _
  | installScript | removeRoot =>
      rcases h with ⟨_, rfl⟩ | ⟨_, rfl⟩ <;> exact ⟨rfl, rfl, rfl, rfl, Nat.le_refl _, List.prefix_refl _⟩
  | spawnPreparation =>
      rcases h with ⟨_, rfl⟩ | ⟨_, rfl⟩
      · exact ⟨rfl, rfl, rfl, rfl, Nat.le_refl _, List.prefix_append _ _⟩
      · exact .refl _
  | line | reap =>
      rcases h with ⟨_, _, rfl⟩ | ⟨_, rfl⟩
      · exact ⟨rfl, rfl, rfl, rfl, Nat.le_refl _, List.prefix_append _ _⟩
      · exact .refl _
  | acquire =>
      rcases h with ⟨_, s, rfl⟩ | ⟨_, rfl⟩
      · exact ⟨rfl, rfl, rfl, rfl, Nat.le_refl _, List.prefix_refl _⟩
      · exact .refl _
  | install | adoptLegacy =>
      rcases h with ⟨s, rfl⟩
      exact ⟨rfl, rfl, rfl, rfl, Nat.le_refl _, List.prefix_append _ _⟩
  | attempt | beginWrite | publish | reply =>
      rcases h with rfl
      exact .note _ _
  | cleanupCache =>
      rcases h with ⟨_, s, rfl⟩ | ⟨_, s, rfl⟩ <;>
        exact ⟨rfl, rfl, rfl, rfl, Nat.le_refl _, List.prefix_refl _⟩

theorem Op.preparatory.plain {β : Type} {op : Op V β} (h : op.preparatory) : op.plain := by
  cases op with
  | update f =>
      intro a
      rw [h a]
      exact ⟨rfl, rfl, rfl⟩
  | sendModify | spawnProcess | attempt | beginWrite | reply => cases h
  | _ => trivial

theorem Op.calm.plain {β : Type} {op : Op V β} (h : op.calm) : op.plain := by
  cases op with
  | update f =>
      intro a
      rw [h a]
      exact ⟨rfl, rfl, rfl⟩
  | sendModify | spawnProcess => cases h
  | _ => trivial

/-- What an effect of an operation leaves as it was: it neither starts nor releases
    anything. -/
structure Calm (w t : World V) : Prop where
  plain : Plain w t
  steady : Steady w t

theorem Calm.refl (w : World V) : Calm w w := ⟨.refl w, .refl w⟩

theorem Calm.trans {w t u : World V} (h : Calm w t) (h' : Calm t u) : Calm w u :=
  ⟨h.plain.trans h'.plain, h.steady.trans h'.steady⟩

theorem calm_answers {β : Type} {op : Op V β} {w t : World V} {b : β} (hc : op.calm)
    (h : Answers op w b t) : Calm w t :=
  ⟨plain_answers hc.plain h, steady_answers hc.steady h⟩

/-- What a program of plain effects keeps, with an assertion that all of them
    meet. -/
theorem wp_plain {α : Type} {A : ∀ β, Op V β → World V → Prop} {p : Prog (Op V) α} {w : World V}
    (hA : ∀ β (op : Op V β) t, Plain w t → op.plain → A β op t)
    (hp : p.Uses fun _ op => op.plain) : p.wp native A (fun _ t => Plain w t) w := by
  have hanswer : ∀ β (op : Op V β) s c b t, op.plain → Plain w s →
      native.respond op s c = some (b, t) → Plain w t := fun _ _ _ _ _ _ hs hw hr =>
    hw.trans (plain_answers hs (answers_of_respond hr))
  have hkeep := Prog.wp_uses (Plain w) hanswer p w hp (.refl w)
  exact Prog.wp_weaken p (fun β op t ht => hA β op t ht.1 ht.2) w (Prog.wp_and_uses p w hkeep hp)

theorem wp_calm {α : Type} {A : ∀ β, Op V β → World V → Prop} {p : Prog (Op V) α} {w : World V}
    (hA : ∀ β (op : Op V β) t, Calm w t → op.calm → A β op t)
    (hp : p.Uses fun _ op => op.calm) : p.wp native A (fun _ t => Calm w t) w := by
  have hanswer : ∀ β (op : Op V β) s c b t, op.calm → Calm w s →
      native.respond op s c = some (b, t) → Calm w t := fun _ _ _ _ _ _ hs hw hr =>
    hw.trans (calm_answers hs (answers_of_respond hr))
  have hkeep := Prog.wp_uses (Calm w) hanswer p w hp (.refl w)
  exact Prog.wp_weaken p (fun β op t ht => hA β op t ht.1 ht.2) w (Prog.wp_and_uses p w hkeep hp)

/-! ## Releasing -/

/-- What a cleanup has changed: what is published is settled, and a worker may be
    gone. -/
structure Cleared (w t : World V) : Prop where
  plan : t.actor.plan = w.actor.plan
  process : t.actor.process = w.actor.process ∨ t.actor.process = none
  retryAfter : t.actor.retryAfter = w.actor.retryAfter
  state : t.state = w.state.settle
  seen : w.seen ≤ t.seen
  log : w.log <+: t.log

namespace Actor

theorem settle_settle (s : State V) : s.settle.settle = s.settle := by
  simp only [State.settle, State.complete, List.map_map]
  rfl

theorem cleared_releasable (w : World V) : Releasable (Cleared w) where
  settle t h := ⟨h.plan, h.process, h.retryAfter, by
    change t.state.settle = w.state.settle
    rw [h.state, settle_settle], h.seen, h.log⟩
  preparation t p h _ :=
    ⟨⟨h.plan, h.process, h.retryAfter, h.state, h.seen,
      h.log.trans (List.prefix_append _ _)⟩,
    ⟨h.plan, h.process, h.retryAfter, h.state, h.seen,
      h.log.trans (List.prefix_append _ _)⟩⟩
  cache t s h _ :=
    ⟨⟨h.plan, h.process, h.retryAfter, h.state, h.seen, h.log⟩,
      ⟨h.plan, h.process, h.retryAfter, h.state, h.seen, h.log⟩,
      ⟨h.plan, h.process, h.retryAfter, h.state, h.seen, h.log⟩⟩
  process t p h _ :=
    ⟨⟨h.plan, h.process, h.retryAfter, h.state, h.seen,
      h.log.trans (List.prefix_append _ _)⟩,
    ⟨h.plan, .inr rfl, h.retryAfter, h.state, h.seen,
      h.log.trans (List.prefix_append _ _)⟩⟩
  backends t h := ⟨h.plan, h.process, h.retryAfter, h.state, h.seen, h.log⟩

/-- A cleanup settles what is published and may release, and that is all it does
    here. -/
theorem cleanup_cleared (w : World V) :
    cleanup.run.wp native (fun _ _ t => t = w ∨ Cleared w t)
      (fun r t => Cleared w t ∧ (r = .ok () → Released t.actor)) w :=
  (cleared_releasable w).cleanup_settled ⟨rfl, .inl rfl, rfl, rfl, Nat.le_refl _, List.prefix_refl _⟩

end Actor

/-! ## Commands and ticks -/

/-- The assertion of a program that may be dropped wherever it waits. -/
def Stays (A : ∀ β, Op V β → World V → Prop) (W : World V → Prop) :
    ∀ β, Op V β → World V → Prop :=
  fun β op w => (suspends β op = true → W w) ∧ A β op w

/-- Something is owned. -/
def Actor.Owning (a : Actor V) : Prop :=
  a.process.isSome ∨ a.preparation.isSome ∨ a.cache.isSome

/-- What has to be shown of a property `I` for a command and a tick to keep it.
    Under `W` whatever is owned may be released, `A` is asserted of every effect. -/
structure Serving (codec : Codec V) (A : ∀ β, Op V β → World V → Prop) (I W : World V → Prop) :
    Prop where
  weaken : ∀ w, W w → I w
  calm : ∀ w t, I w → Calm w t → I t
  due : ∀ w t, W w → Calm w t → W t
  asserts : ∀ β (op : Op V β) w, I w → op.calm → A β op w
  owning : ∀ w, I w → w.actor.Owning → W w
  idle : ∀ w now, I w → Actor.idle w.actor now = true → W w
  cleanup : ∀ w, W w → Actor.cleanup.run.wp native (fun β op t => W t ∧ A β op t)
    (fun r t => W t ∧ (r = .ok () → Actor.Released t.actor)) w
  launch : ∀ w, I w → w.actor.process = none →
    (Actor.launch codec).wp native (Stays A W) (fun _ t => I t) w

namespace Serving

open Actor

variable {codec : Codec V} {A : ∀ β, Op V β → World V → Prop} {I W : World V → Prop}

theorem wp_still {α : Type} (K : Serving codec A I W) {p : Prog (Op V) α}
    (hp : p.Uses fun _ op => op.calm) {w : World V} (h : I w) :
    p.wp native A (fun _ t => Calm w t) w :=
  wp_calm (fun β op t ht hc => K.asserts β op t (K.calm w t h ht) hc) hp

/-- A calm effect of a start. Those it performs itself are no waits. -/
theorem stays_op (K : Serving codec A I W) {β : Type} (op : Op V β) (hc : op.calm)
    (hs : suspends β op = false) {w : World V} (h : I w) : Stays A W β op w :=
  ⟨fun hw => absurd (hs.symm.trans hw) Bool.false_ne_true, K.asserts β op w h hc⟩

theorem stays_cleanup (K : Serving codec A I W) {w : World V} (h : W w) :
    Actor.cleanup.run.wp native (Stays A W)
      (fun r t => W t ∧ (r = .ok () → Released t.actor)) w :=
  Prog.wp_weaken _ (fun _ _ _ ht => ⟨fun _ => ht.1, ht.2⟩) w (K.cleanup w h)

theorem cleaned (K : Serving codec A I W) {w : World V} (h : W w) :
    Actor.cleanup.run.wp native A (fun r t => W t ∧ (r = .ok () → Released t.actor)) w :=
  Prog.wp_weaken _ (fun _ _ _ ht => ht.2) w (K.cleanup w h)

theorem reuse (K : Serving codec A I W) {w : World V} (h : I w) :
    (Actor.reuse codec).wp native (Stays A W) (fun _ t => I t) w := by
  rw [Actor.reuse, Prog.wp_bind, wp_native]
  refine ⟨K.stays_op .self trivial rfl h, ?_⟩
  rintro a t ⟨rfl, rfl⟩
  split
  · rename_i hp
    exact K.launch t h hp
  · rename_i p hp
    have howned : ∀ u, Calm t u → W u := by
      intro u hu
      refine K.owning u (K.calm t u h hu) (.inl ?_)
      rw [hu.plain.process, hp]
      rfl
    rw [Prog.wp_bind]
    refine Prog.wp_mono _ ?_ _ (wp_calm (fun β op u hu hc => ?_) (calm_usable p))
    · intro keep u hu
      cases keep with
      | true => exact K.calm t u h hu
      | false =>
          simp only [Bool.false_eq_true, ↓reduceIte, Prog.wp_bind]
          refine Prog.wp_mono _ ?_ _ (K.stays_cleanup (howned u hu))
          rintro (e | u) v ⟨hv, hr⟩
          · exact K.weaken v hv
          · exact K.launch v (K.weaken v hv) (hr rfl).process
    · exact ⟨fun _ => howned u hu, K.asserts β op u (K.calm t u h hu) hc⟩

theorem start (K : Serving codec A I W) {w : World V} (h : I w) :
    (Actor.start codec).wp native (Stays A W) (fun _ t => I t) w := by
  rw [Actor.start, Prog.wp_bind, wp_native]
  refine ⟨K.stays_op .stopped trivial rfl h, ?_⟩
  rintro stopped t rfl
  cases stopped with
  | true => exact h
  | false =>
      simp only [Bool.false_eq_true, ↓reduceIte, Prog.wp_bind, wp_native]
      refine ⟨K.stays_op .state trivial rfl h, ?_⟩
      rintro s t ⟨rfl, rfl⟩
      split
      · exact h
      · simp only [Prog.wp_bind, wp_native]
        refine ⟨K.stays_op .self trivial rfl h, ?_⟩
        rintro a t ⟨rfl, rfl⟩
        refine ⟨K.stays_op .now trivial rfl h, ?_⟩
        rintro now u ⟨hle, rfl⟩
        have hnow := K.calm t _ h ⟨.later hle, ⟨rfl, rfl, rfl, rfl, rfl, rfl⟩⟩
        split
        · rename_i hidle
          rw [Prog.wp_bind]
          refine Prog.wp_mono _ ?_ _ (K.stays_cleanup (K.idle _ now hnow hidle))
          rintro (e | u) v ⟨hv, _⟩
          · exact K.weaken v hv
          · exact K.reuse (K.weaken v hv)
        · exact K.reuse hnow

/-- A program under a deadline. Where it is dropped, what it has started may be
    released. -/
theorem within {α : Type} (K : Serving codec A I W) (deadline : Nat) {p : Prog (Op V) α}
    {Q : α → World V → Prop} {w : World V} (hp : p.wp native (Stays A W) Q w) :
    (timeoutAt deadline p).wp native A
      (fun o t => match o with | none => W t | some a => Q a t) w := by
  have hi : (Op.expired deadline : Op V Bool).calm := trivial
  refine Prog.wp_cut (fun s hs => K.asserts _ _ s (K.weaken s hs) hi) ?_ ?_ p w hp
  · intro s c t _ hr
    have hanswer : Answers (.expired deadline) s false t := answers_of_respond hr
    rcases hanswer with ⟨_, rfl⟩ | ⟨hb, _⟩
    · rfl
    · cases hb
  · intro s c t hs hr
    exact K.due s t hs (calm_answers hi (answers_of_respond hr))

theorem afterFailure (K : Serving codec A I W) (deadline : Nat) (reason : String) {w : World V}
    (h : W w) : (Actor.afterFailure deadline reason).wp native A (fun _ t => I t) w := by
  rw [Actor.afterFailure, Prog.wp_bind]
  refine Prog.wp_mono _ ?_ _ (K.cleaned h)
  rintro (e | u) t ⟨ht, _⟩
  · exact K.weaken t ht
  · have hrest : (do
        if ← Prog.op .stopped then
          pure (some (outcome .failed (some reason)))
        else if deadline ≤ (← Prog.op .now) then
          pure (some (outcome .failed (some reason)))
        else pure none : Prog (Op V) (Option (WorkerOutcome V))).Uses fun _ op => op.calm := by
      refine Prog.uses_bind ⟨trivial, fun _ => trivial⟩ fun stopped => ?_
      split
      · trivial
      · refine Prog.uses_bind ⟨trivial, fun _ => trivial⟩ fun now => ?_
        split <;> trivial
    exact Prog.wp_mono _ (fun _ u hu => K.calm t u (K.weaken t ht) hu) _
      (K.wp_still hrest (K.weaken t ht))

theorem tries (K : Serving codec A I W) (request : WorkerRequest V) (deadline left : Nat) :
    ∀ (attempted : Bool) (reason : String) (w : World V), I w →
      (Actor.tries codec request deadline left attempted reason).wp native A
        (fun _ t => I t) w := by
  induction left with
  | zero => exact fun _ _ _ h => h
  | succ left ih =>
      intro attempted reason w h
      rw [Actor.tries, Prog.wp_bind]
      refine Prog.wp_mono _ ?_ _ (K.within deadline (K.start h))
      rintro (_ | started) w₁ h₁
      · rw [Prog.wp_bind, startTimedOut, Prog.wp_bind]
        refine Prog.wp_mono _ ?_ _ (K.cleaned h₁)
        rintro (e | u) t ⟨ht, _⟩ <;> exact K.weaken t ht
      · dsimp only
        split
        · exact h₁
        · rw [Prog.wp_bind, wp_native]
          refine ⟨K.asserts _ _ _ h₁ trivial, ?_⟩
          rintro a t ⟨rfl, rfl⟩
          split
          · exact h₁
          · rename_i p hp
            -- The worker that was started is still there when the exchange is over.
            have howned : ∀ u, Calm t u → W u := by
              intro u hu
              refine K.owning u (K.calm t u h₁ hu) (.inl ?_)
              rw [hu.plain.process, hp]
              rfl
            rw [Prog.wp_bind]
            refine Prog.wp_mono _ ?_ _ (K.wp_still (calm_exchange codec request p deadline) h₁)
            rintro ⟨result, sent⟩ w₂ hw₂
            have h₂ := K.calm t w₂ h₁ hw₂
            dsimp only
            split
            · rw [Prog.wp_bind]
              exact Prog.wp_mono _ (fun _ u hu => K.calm w₂ u h₂ hu) _
                (K.wp_still (calm_touch _) h₂)
            · rw [Prog.wp_bind]
              refine Prog.wp_mono _ ?_ _ (K.afterFailure deadline _ (howned w₂ hw₂))
              rintro (_ | ended) w₃ h₃
              · exact ih _ _ w₃ h₃
              · exact h₃

theorem request [BEq V] (K : Serving codec A I W) (request : WorkerRequest V) (deadline : Nat)
    {w : World V} (h : I w) :
    (Actor.request codec request deadline).wp native A (fun _ t => I t) w := by
  have hlater : ∀ (t : World V) (now : Nat), t.seen ≤ now → I t → I { t with seen := now } :=
    fun t now hle ht => K.calm t _ ht ⟨.later hle, ⟨rfl, rfl, rfl, rfl, rfl, rfl⟩⟩
  rw [Actor.request, Prog.wp_bind, wp_native]
  refine ⟨K.asserts _ _ _ h trivial, ?_⟩
  rintro now t ⟨hle, rfl⟩
  have h₁ := hlater w now hle h
  split
  · exact h₁
  · rw [Prog.wp_bind, wp_native]
    refine ⟨K.asserts _ _ _ h₁ trivial, ?_⟩
    rintro a t ⟨rfl, rfl⟩
    dsimp only
    split
    · split <;> exact h₁
    · split
      · exact h₁
      · rw [Prog.wp_bind, dispatch, Prog.wp_bind, wp_native]
        refine ⟨K.asserts _ _ _ h₁ trivial, ?_⟩
        rintro now₂ u ⟨hle₂, rfl⟩
        have hrecord : ∀ (r : WorkerOutcome V × Bool) (t : World V), I t →
            (do
              if r.2 then
                Prog.op (.update (record request r.1))
              pure r.1 : Prog (Op V) (WorkerOutcome V)).wp native A (fun _ t => I t) t := by
          rintro ⟨result, attempted⟩ t ht
          have hcalm : (do
              if attempted then
                Prog.op (.update (record request result))
              pure result : Prog (Op V) (WorkerOutcome V)).Uses fun _ op => op.calm := by
            cases attempted with
            | true => exact ⟨fun _ => rfl, fun _ => trivial⟩
            | false => trivial
          exact Prog.wp_mono _ (fun _ u hu => K.calm t u ht hu) _ (K.wp_still hcalm ht)
        have h₂ := hlater _ now₂ hle₂ h₁
        split
        · exact hrecord _ _ h₂
        · exact Prog.wp_mono _ (fun r t ht => hrecord r t ht) _
            (K.tries request deadline 2 false _ _ h₂)

/-- A command keeps the property. -/
theorem command [BEq V] (K : Serving codec A I W) (command : Command V) {w : World V} (h : I w) :
    (serveCommand codec command).wp native A (fun _ t => I t)
      { w with commands := w.commands + 1 } := by
  have h₁ : I { w with commands := w.commands + 1 } :=
    K.calm w _ h ⟨⟨rfl, rfl, rfl, rfl, Nat.le_refl _, List.prefix_refl _⟩, ⟨rfl, rfl, rfl, rfl, rfl, rfl⟩⟩
  have hreply : ∀ (o : WorkerOutcome V) (t : World V), I t →
      (Prog.op (.reply o)).wp native A (fun _ t => I t) t := by
    intro o t ht
    have hcalm : (Prog.op (.reply o) : Prog (Op V) Unit).Uses fun _ op => op.calm :=
      ⟨trivial, fun _ => trivial⟩
    exact Prog.wp_mono _ (fun _ u hu => K.calm t u ht hu) _ (K.wp_still hcalm ht)
  cases command with
  | start =>
      rw [serveCommand, Prog.wp_bind]
      refine Prog.wp_mono _ (fun o t ht => hreply o t ht) _ ?_
      exact Prog.wp_weaken _ (fun _ _ _ ht => ht.2) _ (K.start h₁)
  | request r deadline replyClosed =>
      rw [serveCommand]
      split
      · exact h₁
      · rw [Prog.wp_bind]
        exact Prog.wp_mono _ (fun o t ht => hreply o t ht) _ (K.request r deadline h₁)

/-- A tick keeps the property. -/
theorem tick (K : Serving codec A I W) (prepared : WorkerOutcome V) {w : World V} (h : I w) :
    (supervise prepared).wp native A (fun _ t => I t) w := by
  rw [supervise, Prog.wp_bind, wp_native]
  refine ⟨K.asserts _ _ _ h trivial, ?_⟩
  rintro a t ⟨rfl, rfl⟩
  rw [Prog.wp_bind]
  have hunusable : (unusable t.actor).wp native A
      (fun gone u => Calm t u ∧ (gone = true → t.actor.process.isSome)) t := by
    unfold unusable
    split
    · exact ⟨.refl t, fun hg => by cases hg⟩
    · rename_i p hp
      rw [Prog.wp_bind, wp_native]
      refine ⟨K.asserts _ _ _ h trivial, ?_⟩
      rintro alive u rfl
      exact ⟨.refl u, fun _ => by rw [hp]; rfl⟩
  refine Prog.wp_mono _ ?_ _ hunusable
  rintro gone u ⟨hu, hgone⟩
  have h₁ := K.calm t u h hu
  rw [Prog.wp_bind, wp_native]
  refine ⟨K.asserts _ _ _ h₁ trivial, ?_⟩
  rintro a v ⟨rfl, rfl⟩
  dsimp only
  split
  · rename_i hrelease
    have howning : v.actor.Owning := by
      rcases hrelease with hg | ⟨_, hleft⟩
      · refine .inl ?_
        rw [hu.plain.process]
        exact hgone hg
      · exact .inr hleft
    rw [Prog.wp_bind]
    exact Prog.wp_mono _ (fun _ x hx => K.weaken x hx.1) _ (K.cleaned (K.owning v h₁ howning))
  · exact h₁

end Serving

end TinyRuntime
