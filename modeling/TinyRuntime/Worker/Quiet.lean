import TinyRuntime.Worker.Supervisor

/-!
# Quiet Effects

What a supervisor has sent and attempted, and the effects that leave both alone.

Almost all effects are *quiet*: they neither send nor attempt nor answer, and
leave the replay window and the closed flag as they were. Which programs
perform quiet effects only (`Tame`) is read off their text, one lemma for each
method of the source. That is the frame of everything proved about operations:
preparation, startup, supervision and cleanup cannot disturb it.

## Main definitions

* `sends`, `attempts`: The history of frames and of attempted operations.
* `Op.quiet`: The effects that leave both alone.
* `Op.preparatory`: The effects of preparation.
* `Quiet`: What a quiet effect keeps.
* `Tame`: A program that performs quiet effects only.

## Theorems

* `quiet_answers`: A quiet effect keeps what `Quiet` says.
* `preparatory_*`: The methods preparation is made of.
* `tame_*`: The methods that are tame.
* `cleanup_releases`: A cleanup that succeeds leaves nothing owned.
-/

namespace TinyRuntime

open Prog (act attempt)

variable {V : Type}

/-! ## History -/

/-- The frames sent under an id: the command that sent each and the process it
    was sent to, oldest first. -/
def sends (id : String) (log : List (Event V)) : List (Nat × Nat) :=
  log.filterMap fun e =>
    match e with
    | .sent command p request => if request.id = id then some (command, p) else none
    | _ => none

/-- The attempted requests with the command that attempted each. -/
def attempts (log : List (Event V)) : List (Nat × WorkerRequest V) :=
  log.filterMap fun e =>
    match e with
    | .attempted command request => some (command, request)
    | _ => none

@[simp] theorem sends_append (id : String) (log : List (Event V)) (e : Event V) :
    sends id (log ++ [e]) =
      sends id log ++
        (match e with
          | .sent command p request => if request.id = id then [(command, p)] else []
          | _ => []) := by
  unfold sends
  rw [List.filterMap_append]
  cases e with
  | sent command p request =>
      by_cases h : request.id = id
      · simp only [List.filterMap_cons, List.filterMap_nil, if_pos h]
      · simp only [List.filterMap_cons, List.filterMap_nil, if_neg h]
  | _ => rfl

@[simp] theorem attempts_append (log : List (Event V)) (e : Event V) :
    attempts (log ++ [e]) =
      attempts log ++
        (match e with
          | .attempted command request => [(command, request)]
          | _ => []) := by
  unfold attempts
  rw [List.filterMap_append]
  cases e <;> rfl

/-- The effects that neither send nor attempt nor answer, and that leave the
    replay window and the closed flag alone. -/
def Op.quiet {β : Type} (op : Op V β) : Prop :=
  match op with
  | .update f => ∀ a : Actor V, (f a).highest = a.highest ∧ (f a).replies = a.replies ∧
      ((f a).process = a.process ∨ (f a).process = none)
  | .sendModify f => ∀ s : State V, (f s).closed = s.closed
  | .attempt _ | .beginWrite _ _ | .reply _ => False
  | _ => True

/-- The effects of preparation: of the supervisor's own fields they assign at most
    the preparation and the cache session, and they start and publish nothing. -/
def Op.preparatory {β : Type} (op : Op V β) : Prop :=
  match op with
  | .update f => ∀ a : Actor V,
      f a = { a with preparation := (f a).preparation, cache := (f a).cache }
  | .sendModify _ | .spawnProcess | .attempt _ | .beginWrite _ _ | .reply _ => False
  | _ => True

theorem Op.preparatory.quiet {β : Type} {op : Op V β} (h : op.preparatory) : op.quiet := by
  cases op with
  | update f =>
      intro a
      rw [h a]
      exact ⟨rfl, rfl, .inl rfl⟩
  | sendModify | spawnProcess | attempt | beginWrite | reply => cases h
  | _ => trivial

/-- What a quiet effect leaves as it was. -/
structure Quiet (w t : World V) : Prop where
  highest : t.actor.highest = w.actor.highest
  replies : t.actor.replies = w.actor.replies
  commands : t.commands = w.commands
  closed : t.state.closed = w.state.closed
  sends : ∀ id, sends id t.log = sends id w.log
  attempts : attempts t.log = attempts w.log
  replied : ∀ c o, Event.replied c o ∈ t.log ↔ Event.replied c o ∈ w.log
  fresh : w.fresh ≤ t.fresh
  process : ∀ q, t.actor.process = some q →
    w.actor.process = some q ∨ w.fresh ≤ q ∧ q < t.fresh
  log : ∃ es : List (Event V), t.log = w.log ++ es ∧ ∀ e ∈ es, ∀ c p f, e ≠ .sent c p f

/-- A change of the state that touches nothing a quiet effect has to keep. -/
theorem Quiet.of_eq {w t : World V} (hh : t.actor.highest = w.actor.highest)
    (hr : t.actor.replies = w.actor.replies) (hp : t.actor.process = w.actor.process)
    (hc : t.commands = w.commands) (hs : t.state.closed = w.state.closed)
    (hl : t.log = w.log) (hf : t.fresh = w.fresh) : Quiet w t where
  highest := hh
  replies := hr
  commands := hc
  closed := hs
  sends _ := by rw [hl]
  attempts := by rw [hl]
  replied _ _ := by rw [hl]
  fresh := Nat.le_of_eq hf.symm
  process q hq := .inl (hp ▸ hq)
  log := ⟨[], by rw [hl, List.append_nil], fun _ he => by cases he⟩

theorem Quiet.trans {w t u : World V} (h : Quiet w t) (h' : Quiet t u) : Quiet w u where
  highest := h'.highest.trans h.highest
  replies := h'.replies.trans h.replies
  commands := h'.commands.trans h.commands
  closed := h'.closed.trans h.closed
  sends id := (h'.sends id).trans (h.sends id)
  attempts := h'.attempts.trans h.attempts
  replied c o := (h'.replied c o).trans (h.replied c o)
  fresh := Nat.le_trans h.fresh h'.fresh
  process q hq := by
    have hf := h.fresh
    have hf' := h'.fresh
    rcases h'.process q hq with hq' | hq'
    · rcases h.process q hq' with h0 | h0
      · exact .inl h0
      · exact .inr (by omega)
    · exact .inr (by omega)
  log := by
    rcases h.log with ⟨es, hes, hns⟩
    rcases h'.log with ⟨es', hes', hns'⟩
    refine ⟨es ++ es', by rw [hes', hes, List.append_assoc], fun e he => ?_⟩
    rcases List.mem_append.mp he with he | he
    · exact hns e he
    · exact hns' e he

/-- An entry of the history that is none of the three kinds. -/
theorem Quiet.note {w : World V} {e : Event V}
    (he : match e with | .attempted _ _ | .sent _ _ _ | .replied _ _ => False | _ => True) :
    Quiet w (w.note e) := by
  cases e with
  | attempted _ _ | sent _ _ _ | replied _ _ => cases he
  | _ =>
      exact {
        highest := rfl, replies := rfl, commands := rfl, closed := rfl
        sends := fun id => by simp only [World.note, sends_append, List.append_nil]
        attempts := by simp only [World.note, attempts_append, List.append_nil]
        replied := fun c o => by
          simp only [World.note, List.mem_append, List.mem_singleton, reduceCtorEq, or_false]
        fresh := Nat.le_refl _
        process := fun q hq => .inl hq
        log := ⟨[_], rfl, fun e he => by cases List.mem_singleton.mp he; exact fun _ _ _ h => by cases h⟩ }

/-- A spawn, whatever field its number is assigned to. -/
theorem Quiet.spawn {w : World V} {a : Actor V} (hh : a.highest = w.actor.highest)
    (hr : a.replies = w.actor.replies)
    (hp : a.process = w.actor.process ∨ a.process = some w.fresh) :
    Quiet w { w.spawn with actor := a } where
  highest := hh
  replies := hr
  commands := rfl
  closed := rfl
  sends id := by simp only [World.spawn, sends_append, List.append_nil]
  attempts := by simp only [World.spawn, attempts_append, List.append_nil]
  replied c o := by
    simp only [World.spawn, List.mem_append, List.mem_singleton, reduceCtorEq, or_false]
  fresh := Nat.le_succ _
  process q hq := by
    rcases hp with hp | hp
    · exact .inl (hp ▸ hq)
    · refine .inr ?_
      have hq' : w.fresh = q := Option.some.inj (hp.symm.trans hq)
      rw [hq']
      exact ⟨Nat.le_refl _, by simp only [World.spawn, ← hq']; exact Nat.lt_succ_self _⟩
  log := ⟨[_], rfl, fun e he => by cases List.mem_singleton.mp he; exact fun _ _ _ h => by cases h⟩

theorem quiet_answers {β : Type} {op : Op V β} {w t : World V} {b : β} (hq : op.quiet)
    (h : Answers op w b t) : Quiet w t := by
  have hrefl : Quiet w w := .of_eq rfl rfl rfl rfl rfl rfl rfl
  cases op with
  | update f =>
      rcases h with rfl
      rcases hq w.actor with ⟨h1, h2, h3⟩
      have hlog : ∃ es : List (Event V), w.log = w.log ++ es ∧ ∀ e ∈ es, ∀ c p f, e ≠ .sent c p f :=
        ⟨[], (List.append_nil _).symm, fun _ he => by cases he⟩
      refine ⟨h1, h2, rfl, rfl, fun _ => rfl, rfl, fun _ _ => Iff.rfl, Nat.le_refl _, ?_, hlog⟩
      intro q hp
      rcases h3 with h3 | h3
      · exact .inl (h3 ▸ hp)
      · rw [h3] at hp
        cases hp
  | attempt _ | beginWrite _ _ | reply _ => cases hq
  | sendModify f =>
      rcases h with rfl
      exact .of_eq rfl rfl rfl rfl (hq w.state) rfl rfl
  | now =>
      rcases h with ⟨_, rfl⟩
      exact .of_eq rfl rfl rfl rfl rfl rfl rfl
  | stopped | isAlive | finishWrite | flush | execute | checkBinding | sleep =>
      rcases h with rfl
      exact hrefl
  | line p =>
      rcases h with ⟨body, _, rfl⟩ | ⟨_, rfl⟩
      · exact .note trivial
      · exact hrefl
  | self | state =>
      rcases h with ⟨_, rfl⟩
      exact hrefl
  | expired d =>
      rcases h with ⟨_, rfl⟩ | ⟨_, now, _, _, rfl⟩
      · exact hrefl
      · exact .of_eq rfl rfl rfl rfl rfl rfl rfl
  | installScript | removeRoot =>
      rcases h with ⟨_, rfl⟩ | ⟨_, rfl⟩ <;> exact .of_eq rfl rfl rfl rfl rfl rfl rfl
  | spawnProcess =>
      rcases h with ⟨_, rfl⟩ | ⟨_, rfl⟩
      · exact .spawn rfl rfl (.inr rfl)
      · exact hrefl
  | spawnPreparation _ =>
      rcases h with ⟨_, rfl⟩ | ⟨_, rfl⟩
      · exact .spawn rfl rfl (.inl rfl)
      · exact hrefl
  | reap p =>
      rcases h with ⟨_, rfl⟩ | ⟨_, rfl⟩
      · have hlive : Quiet w { w with live := w.live.filter (· ≠ p) } :=
          .of_eq rfl rfl rfl rfl rfl rfl rfl
        exact hlive.trans (.note trivial)
      · exact hrefl
  | acquire _ _ =>
      rcases h with ⟨_, s, rfl⟩ | ⟨_, rfl⟩
      · exact .of_eq rfl rfl rfl rfl rfl rfl rfl
      · exact hrefl
  | install _ | adoptLegacy _ =>
      rcases h with ⟨s, rfl⟩
      have hcache : Quiet w (w.withCache s) := .of_eq rfl rfl rfl rfl rfl rfl rfl
      exact hcache.trans (.note trivial)
  | publish _ =>
      rcases h with rfl
      exact .note trivial
  | cleanupCache =>
      rcases h with ⟨_, s, rfl⟩ | ⟨_, s, rfl⟩ <;> exact .of_eq rfl rfl rfl rfl rfl rfl rfl

theorem mem_of_lookup {α β : Type} [BEq α] [LawfulBEq α] {l : List (α × β)} {a : α} {b : β}
    (h : l.lookup a = some b) : (a, b) ∈ l := by
  rcases List.lookup_eq_some_iff.mp h with ⟨l₁, l₂, rfl, _⟩
  exact List.mem_append_right _ (List.mem_cons_self ..)

/-! ## Quiet programs -/

/-- Every effect the program may perform is quiet. -/
def Tame {α : Type} (p : Prog (Op V) α) : Prop :=
  p.Uses fun _ op => op.quiet

theorem tame_bind {α β : Type} {p : Prog (Op V) α} {f : α → Prog (Op V) β} (hp : Tame p)
    (hf : ∀ a, Tame (f a)) : Tame (p >>= f) :=
  Prog.uses_bind hp hf

theorem tame_run_bind {α β : Type} {x : ExceptT String (Prog (Op V)) α}
    {f : α → ExceptT String (Prog (Op V)) β} (hx : Tame x.run) (hf : ∀ a, Tame (f a).run) :
    Tame (x >>= f).run :=
  Prog.uses_run_bind hx hf

theorem tame_op {β : Type} {op : Op V β} (h : op.quiet) : Tame (Prog.op op) :=
  (Prog.uses_op _).mpr h

theorem tame_act {β : Type} {op : Op V β} (h : op.quiet) :
    Tame (act op : ExceptT String (Prog (Op V)) β).run :=
  Prog.uses_run_lift (tame_op h)

theorem tame_attempt {β : Type} {op : Op V (Except String β)} (h : op.quiet) :
    Tame (attempt op).run :=
  tame_op h

theorem tame_attemptAs {β : Type} {op : Op V (Except String β)} (reason : String)
    (h : op.quiet) : Tame (attemptAs reason op).run := by
  refine tame_bind (tame_op h) fun r => ?_
  cases r <;> trivial

theorem tame_run_lift {α : Type} {p : Prog (Op V) α} (h : Tame p) :
    Tame (ExceptT.lift p : ExceptT String (Prog (Op V)) α).run :=
  Prog.uses_run_lift h

/-- Giving up a field is quiet. -/
theorem tame_clear {f : Actor V → Actor V} (hh : ∀ a, (f a).highest = a.highest)
    (hr : ∀ a, (f a).replies = a.replies)
    (hp : ∀ a, (f a).process = a.process ∨ (f a).process = none) :
    Tame (act (.update f) : ExceptT String (Prog (Op V)) Unit).run :=
  tame_act fun a => ⟨hh a, hr a, hp a⟩

/-- What quiet effects keep, a tame program keeps. -/
theorem tame_wp {α : Type} {I : World V → Prop} (hI : ∀ w t, I w → Quiet w t → I t)
    {p : Prog (Op V) α} (hp : Tame p) {w : World V} (h : I w) :
    p.wp native (Prog.always I) (fun _ t => I t) w :=
  Prog.wp_uses I (fun _ _ s _ _ t hq hs hr => hI s t hs (quiet_answers hq (answers_of_respond hr)))
    p w hp h

/-- A program raced against a quiet interrupt that is polled without effect
    keeps what quiet effects keep. -/
theorem wp_interrupted {α : Type} {I : World V → Prop} (hI : ∀ w t, I w → Quiet w t → I t)
    (interrupt : Op V Bool) (hq : interrupt.quiet)
    (hpoll : ∀ w t, Answers interrupt w false t → t = w)
    {p : Prog (Op V) α} {Q : α → World V → Prop} {w : World V}
    (hp : p.wp native (Prog.always I) Q w) :
    (p.cut interrupt suspends).wp native (Prog.always I)
      (fun o t => match o with | none => I t | some a => Q a t) w := by
  refine Prog.wp_cut (fun _ hs => hs) ?_ ?_ p w
    (Prog.wp_weaken p (fun _ _ _ hs => ⟨fun _ => hs, hs⟩) w hp)
  · intro s c t _ hr
    exact hpoll s t (answers_of_respond hr)
  · intro s c t hs hr
    exact hI s t hs (quiet_answers hq (answers_of_respond hr))

theorem wp_timeoutAt {α : Type} {I : World V → Prop} (hI : ∀ w t, I w → Quiet w t → I t)
    (deadline : Nat) {p : Prog (Op V) α} {Q : α → World V → Prop} {w : World V}
    (hp : p.wp native (Prog.always I) Q w) :
    (timeoutAt deadline p).wp native (Prog.always I)
      (fun o t => match o with | none => I t | some a => Q a t) w := by
  refine wp_interrupted hI (.expired deadline) trivial ?_ hp
  rintro w t (⟨_, rfl⟩ | ⟨hb, _⟩)
  · rfl
  · cases hb

namespace Actor

/-! ### Preparation -/

theorem preparatory_clear {f : Actor V → Actor V}
    (hf : ∀ a, f a = { a with preparation := (f a).preparation, cache := (f a).cache }) :
    (act (.update f) : ExceptT String (Prog (Op V)) Unit).run.Uses fun _ op => op.preparatory :=
  Prog.uses_run_lift ((Prog.uses_op _).mpr hf)

theorem preparatory_attemptAs {α : Type} (reason : String) {op : Op V (Except String α)}
    (h : op.preparatory) : (attemptAs reason op).run.Uses fun _ op => op.preparatory := by
  refine ⟨h, fun r => ?_⟩
  cases r <;> trivial

theorem preparatory_cleanupPreparation :
    (@cleanupPreparation V).run.Uses fun _ op => op.preparatory := by
  refine Prog.uses_run_bind ⟨trivial, fun _ => trivial⟩ fun a => ?_
  dsimp only
  split
  · exact preparatory_clear fun _ => rfl
  · exact Prog.uses_run_bind (preparatory_attemptAs _ trivial) fun _ =>
      preparatory_clear fun _ => rfl

theorem preparatory_cleanupCache : (@cleanupCache V).run.Uses fun _ op => op.preparatory := by
  refine Prog.uses_run_bind ⟨trivial, fun _ => trivial⟩ fun a => ?_
  dsimp only
  split
  · exact preparatory_clear fun _ => rfl
  · exact Prog.uses_run_bind ⟨trivial, fun _ => trivial⟩ fun _ => preparatory_clear fun _ => rfl

theorem preparatory_cacheSession : (@cacheSession V).run.Uses fun _ op => op.preparatory := by
  refine Prog.uses_run_bind ⟨trivial, fun _ => trivial⟩ fun a => ?_
  split <;> trivial

theorem preparatory_checkProvisioning (deadline : Nat) :
    (@checkProvisioning V deadline).run.Uses fun _ op => op.preparatory := by
  refine Prog.uses_run_bind ⟨trivial, fun _ => trivial⟩ fun stopped => ?_
  split
  · trivial
  · refine Prog.uses_run_bind ⟨trivial, fun _ => trivial⟩ fun now => ?_
    split <;> trivial

theorem preparatory_commandDeadline (step : WorkerCommand) (deadline : Nat) :
    (@commandDeadline V step deadline).Uses fun _ op => op.preparatory := by
  unfold commandDeadline
  split
  · trivial
  · exact ⟨trivial, fun _ => trivial⟩

theorem preparatory_runStep (step : WorkerCommand) (deadline : Nat) :
    (@runStep V step deadline).run.Uses fun _ op => op.preparatory := by
  refine Prog.uses_run_bind ⟨trivial, fun _ => trivial⟩ fun a => ?_
  split
  · trivial
  · exact Prog.uses_run_bind (Prog.uses_run_lift (preparatory_commandDeadline _ _)) fun _ =>
      Prog.uses_run_bind (Prog.uses_run_lift ⟨trivial, fun _ => trivial⟩) fun _ =>
        Prog.uses_run_bind (preparatory_attemptAs _ trivial) fun _ =>
          Prog.uses_run_bind (preparatory_clear fun _ => rfl) fun _ => trivial

theorem preparatory_provisionSteps (deadline : Nat) (steps : List WorkerCommand) :
    (@provisionSteps V deadline steps).run.Uses fun _ op => op.preparatory := by
  induction steps with
  | nil => trivial
  | cons step rest ih =>
      exact Prog.uses_run_bind (preparatory_checkProvisioning _) fun _ =>
        Prog.uses_run_bind preparatory_cacheSession fun _ =>
          Prog.uses_run_bind ⟨trivial, fun _ => trivial⟩ fun _ =>
            Prog.uses_run_bind (preparatory_attemptAs _ trivial) fun _ =>
              Prog.uses_run_bind (preparatory_runStep _ _) fun _ =>
                Prog.uses_run_bind trivial fun _ => ih

theorem preparatory_provisionCache (cached : Cached) (deadline : Nat) :
    (@provisionCache V cached deadline).run.Uses fun _ op => op.preparatory := by
  refine Prog.uses_run_bind preparatory_cacheSession fun session => ?_
  split
  · exact ⟨trivial, fun _ => trivial⟩
  · split
    · trivial
    · exact Prog.uses_run_bind ⟨trivial, fun _ => trivial⟩ fun _ =>
        Prog.uses_run_bind (preparatory_provisionSteps _ _) fun _ =>
          Prog.uses_run_bind (preparatory_checkProvisioning _) fun _ =>
            Prog.uses_run_bind preparatory_cacheSession fun _ => ⟨trivial, fun _ => trivial⟩

theorem preparatory_prepareCache : (@prepareCache V).run.Uses fun _ op => op.preparatory := by
  refine Prog.uses_run_bind ⟨trivial, fun _ => trivial⟩ fun a => ?_
  dsimp only
  split
  · trivial
  · exact Prog.uses_run_bind ⟨trivial, fun _ => trivial⟩ fun _ =>
      Prog.uses_run_bind ⟨trivial, fun _ => trivial⟩ fun _ =>
        Prog.uses_run_bind (Prog.uses_run_lift (preparatory_provisionCache _ _)) fun _ =>
          Prog.uses_run_bind preparatory_cleanupPreparation fun _ =>
            Prog.uses_run_bind preparatory_cleanupCache fun _ => trivial

theorem preparatory_prepareSteps (deadline : Nat) (steps : List WorkerCommand) :
    (@prepareSteps V deadline steps).Uses fun _ op => op.preparatory := by
  induction steps with
  | nil =>
      refine Prog.uses_bind ⟨trivial, fun _ => trivial⟩ fun stopped => ?_
      split <;> trivial
  | cons step rest ih =>
      refine Prog.uses_bind (preparatory_attemptAs _ trivial) fun r => ?_
      cases r with
      | error reason => trivial
      | ok u =>
          refine Prog.uses_bind ⟨trivial, fun _ => trivial⟩ fun a => ?_
          split
          · trivial
          · refine Prog.uses_bind (preparatory_commandDeadline _ _) fun _ =>
              Prog.uses_bind ⟨trivial, fun _ => trivial⟩ fun result =>
                Prog.uses_bind (preparatory_attemptAs _ trivial) fun r => ?_
            cases r with
            | error reason => trivial
            | ok u =>
                refine Prog.uses_bind ⟨fun _ => rfl, fun _ => trivial⟩ fun _ => ?_
                cases result with
                | error reason => trivial
                | ok u => exact ih

theorem preparatory_prepare : (@prepare V).Uses fun _ op => op.preparatory := by
  refine Prog.uses_bind preparatory_prepareCache fun r => ?_
  cases r with
  | error reason => trivial
  | ok u =>
      refine Prog.uses_bind ⟨trivial, fun _ => trivial⟩ fun _ =>
        Prog.uses_bind ⟨trivial, fun _ => trivial⟩ fun _ =>
          Prog.uses_bind ⟨trivial, fun _ => trivial⟩ fun r => ?_
      cases r with
      | error reason => trivial
      | ok u => exact preparatory_prepareSteps _ _

/-- What preparation performs is quiet. -/
theorem tame_preparatory {α : Type} {p : Prog (Op V) α}
    (hp : p.Uses fun _ op => op.preparatory) : Tame p :=
  Prog.uses_mono (fun _ _ h => h.quiet) hp

theorem tame_prepare : Tame (@prepare V) :=
  tame_preparatory preparatory_prepare

theorem tame_cleanupProcess : Tame (@cleanupProcess V).run := by
  refine tame_run_bind (tame_act trivial) fun a => ?_
  dsimp only
  split
  · exact tame_clear (fun _ => rfl) (fun _ => rfl) fun _ => .inr rfl
  · exact tame_run_bind (tame_attempt trivial) fun _ =>
      tame_clear (fun _ => rfl) (fun _ => rfl) fun _ => .inr rfl

theorem tame_cleanup : Tame (@cleanup V).run :=
  tame_run_bind (tame_act fun _ => rfl) fun _ =>
    tame_run_bind (tame_preparatory preparatory_cleanupPreparation) fun _ =>
      tame_run_bind (tame_preparatory preparatory_cleanupCache) fun _ =>
        tame_run_bind tame_cleanupProcess fun _ =>
          tame_run_bind (tame_clear (fun _ => rfl) (fun _ => rfl) fun _ => .inl rfl) fun _ =>
            tame_act fun _ => rfl

theorem tame_servePrepare : Tame (@servePrepare V) := by
  refine tame_bind tame_prepare fun prepared => tame_bind (tame_op trivial) fun a =>
    tame_bind (tame_op fun s => ?_) fun _ => trivial
  unfold State.publishPrepared
  split <;> rfl

theorem tame_supervise (prepared : WorkerOutcome V) : Tame (supervise prepared) := by
  refine tame_bind (tame_op trivial) fun a => tame_bind ?_ fun gone =>
    tame_bind (tame_op trivial) fun a => ?_
  · unfold unusable
    split
    · trivial
    · exact tame_bind (tame_op trivial) fun _ => trivial
  · dsimp only
    split
    · exact tame_bind tame_cleanup fun _ => trivial
    · trivial

theorem tame_release : Tame (@release V) := by
  refine tame_bind tame_cleanup fun r => ?_
  split
  · trivial
  · exact tame_op trivial

/-! ### Startup -/

theorem tame_timeoutAt {α : Type} {p : Prog (Op V) α} (deadline : Nat) (h : Tame p) :
    Tame (timeoutAt deadline p) :=
  Prog.uses_cut trivial h

theorem tame_unlessStopped {α : Type} {p : Prog (Op V) (Except String α)} (h : Tame p) :
    Tame (unlessStopped p) := by
  refine tame_bind (tame_op trivial) fun stopped => ?_
  split
  · trivial
  · refine tame_bind (Prog.uses_cut trivial h) fun r => ?_
    cases r <;> trivial

theorem tame_readyLine (codec : Codec V) (p : Nat) : Tame (Process.handshake codec p).run := by
  refine tame_run_bind (tame_attempt trivial) fun body => ?_
  split
  · trivial
  · split
    · trivial
    · split <;> trivial

theorem tame_handshake (codec : Codec V) : Tame (handshake codec) := by
  refine tame_bind (tame_op trivial) fun a => ?_
  dsimp only
  split
  · trivial
  · refine tame_unlessStopped (tame_bind (tame_op trivial) fun now =>
      tame_bind (tame_timeoutAt _ (tame_readyLine _ _)) fun r => ?_)
    split <;> trivial

theorem tame_startFailed (reason : String) : Tame (@startFailed V reason) := by
  refine tame_bind tame_cleanup fun r => ?_
  split
  · trivial
  · exact tame_bind (tame_op trivial) fun _ =>
      tame_bind (tame_op fun _ => ⟨rfl, rfl, .inl rfl⟩) fun _ =>
        tame_bind (tame_op fun _ => rfl) fun _ => trivial

theorem tame_backingOff (a : Actor V) : Tame (backingOff a) := by
  unfold backingOff
  split
  · trivial
  · exact tame_bind (tame_op trivial) fun _ => trivial

theorem tame_spawnReady (codec : Codec V) : Tame (spawnReady codec) := by
  refine tame_bind (tame_op trivial) fun r => ?_
  split
  · trivial
  · exact tame_handshake codec

theorem tame_started (backends : List String) : Tame (@started V backends) := by
  refine tame_bind (tame_op trivial) fun stopped => ?_
  split
  · exact tame_startFailed _
  · exact tame_bind (tame_op trivial) fun _ => tame_bind (tame_op trivial) fun _ =>
      tame_bind (tame_op fun _ => ⟨rfl, rfl, .inl rfl⟩) fun _ =>
        tame_bind (tame_op fun _ => rfl) fun _ => trivial

theorem tame_launch (codec : Codec V) : Tame (launch codec) := by
  refine tame_bind (tame_op trivial) fun a => tame_bind (tame_backingOff a) fun wait => ?_
  split
  · trivial
  · refine tame_bind (tame_op fun _ => rfl) fun _ => tame_bind (tame_spawnReady codec) fun r => ?_
    split
    · exact tame_startFailed _
    · exact tame_started _

theorem tame_usable (p : Nat) : Tame (@usable V p) := by
  refine tame_bind (tame_op trivial) fun s => ?_
  split
  · exact tame_op trivial
  · trivial

theorem tame_reuse (codec : Codec V) : Tame (reuse codec) := by
  refine tame_bind (tame_op trivial) fun a => ?_
  split
  · exact tame_launch codec
  · refine tame_bind (tame_usable _) fun keep => ?_
    split
    · trivial
    · refine tame_bind tame_cleanup fun r => ?_
      split
      · trivial
      · exact tame_launch codec

theorem tame_start (codec : Codec V) : Tame (start codec) := by
  refine tame_bind (tame_op trivial) fun stopped => ?_
  split
  · trivial
  · refine tame_bind (tame_op trivial) fun s => ?_
    split
    · trivial
    · refine tame_bind (tame_op trivial) fun a => tame_bind (tame_op trivial) fun now => ?_
      split
      · refine tame_bind tame_cleanup fun r => ?_
        split
        · trivial
        · exact tame_reuse codec
      · exact tame_reuse codec

theorem tame_afterFailure (deadline : Nat) (reason : String) :
    Tame (@afterFailure V deadline reason) := by
  refine tame_bind tame_cleanup fun r => ?_
  split
  · trivial
  · refine tame_bind (tame_op trivial) fun stopped => ?_
    split
    · trivial
    · refine tame_bind (tame_op trivial) fun now => ?_
      split <;> trivial

theorem tame_startTimedOut : Tame (@startTimedOut V) := by
  refine tame_bind tame_cleanup fun r => ?_
  split <;> trivial

theorem tame_touch (response : ServerResponse V) : Tame (touch response) := by
  unfold touch
  split
  · exact tame_bind (tame_op trivial) fun _ => tame_op fun _ => ⟨rfl, rfl, .inl rfl⟩
  · trivial

theorem tame_awaitReply (codec : Codec V) (p : Nat) (id : String) (fuel remaining : Nat) :
    Tame (Process.awaitReply codec p id fuel remaining).run := by
  induction fuel generalizing remaining with
  | zero => trivial
  | succ fuel ih =>
      refine tame_run_bind (tame_attempt trivial) fun body => ?_
      split
      · trivial
      · split
        · exact ih _
        · split
          · trivial
          · exact ih _

/-! ### Releasing -/

/-- What cleaning up the preparation can do: nothing without one, else reap it
    and give it up, or fail and keep it. -/
theorem wp_cleanupPreparation {C : World V → Prop} {Q : Except String Unit → World V → Prop}
    {w : World V} (hC : C w) (hnone : w.actor.preparation = none → Q (.ok ()) w)
    (hreap : ∀ p, w.actor.preparation = some p →
      let t := w.reap p
      C t ∧ Q (.ok ()) { t with actor := { t.actor with preparation := none } })
    (hfail : w.actor.preparation.isSome → ∀ reason, Q (.error reason) w) :
    cleanupPreparation.run.wp native (Prog.always C) Q w := by
  simp only [cleanupPreparation, Prog.wp_run_bind, wp_act]
  refine ⟨hC, ?_⟩
  rintro a t ⟨rfl, rfl⟩
  split
  · rename_i hp
    rw [wp_act]
    refine ⟨hC, ?_⟩
    rintro _ u rfl
    have hsame : { t with actor := { t.actor with preparation := none } } = t := by
      rw [← hp]
    rw [hsame]
    exact hnone hp
  · rename_i p hp
    simp only [Preparation.cleanup, Prog.wp_run_bind, wp_attemptAs, wp_act]
    refine ⟨hC, ?_⟩
    rintro r u hr
    rcases hr with ⟨rfl, rfl⟩ | ⟨⟨reason, rfl⟩, rfl⟩
    · refine ⟨(hreap p hp).1, ?_⟩
      rintro _ v rfl
      exact (hreap p hp).2
    · exact hfail (by rw [hp]; rfl) _

/-- The same for the cache session. -/
theorem wp_cleanupCache {C : World V → Prop} {Q : Except String Unit → World V → Prop}
    {w : World V} (hC : C w) (hnone : w.actor.cache = none → Q (.ok ()) w)
    (hrelease : ∀ s, w.actor.cache.isSome →
      let t := { w.withCache s with locked := false }
      C t ∧ Q (.ok ()) { t with actor := { t.actor with cache := none } })
    (hfail : ∀ s reason, w.actor.cache.isSome → Q (.error reason) (w.withCache s)) :
    cleanupCache.run.wp native (Prog.always C) Q w := by
  simp only [cleanupCache, Prog.wp_run_bind, wp_act]
  refine ⟨hC, ?_⟩
  rintro a t ⟨rfl, rfl⟩
  split
  · rename_i hp
    rw [wp_act]
    refine ⟨hC, ?_⟩
    rintro _ u rfl
    have hsame : { t with actor := { t.actor with cache := none } } = t := by
      rw [← hp]
    rw [hsame]
    exact hnone hp
  · rename_i s hp
    have hsome : t.actor.cache.isSome := by rw [hp]; rfl
    simp only [Prog.wp_run_bind, wp_attempt, wp_act]
    refine ⟨hC, ?_⟩
    rintro r u hr
    rcases hr with ⟨rfl, s', rfl⟩ | ⟨⟨reason, rfl⟩, s', rfl⟩
    · refine ⟨(hrelease s' hsome).1, ?_⟩
      rintro _ v rfl
      exact (hrelease s' hsome).2
    · exact hfail s' reason hsome

/-- The same for the process. -/
theorem wp_cleanupProcess {C : World V → Prop} {Q : Except String Unit → World V → Prop}
    {w : World V} (hC : C w) (hnone : w.actor.process = none → Q (.ok ()) w)
    (hreap : ∀ p, w.actor.process = some p →
      let t := w.reap p
      C t ∧ Q (.ok ()) { t with actor := { t.actor with process := none } })
    (hfail : w.actor.process.isSome → ∀ reason, Q (.error reason) w) :
    cleanupProcess.run.wp native (Prog.always C) Q w := by
  simp only [cleanupProcess, Prog.wp_run_bind, wp_act]
  refine ⟨hC, ?_⟩
  rintro a t ⟨rfl, rfl⟩
  split
  · rename_i hp
    rw [wp_act]
    refine ⟨hC, ?_⟩
    rintro _ u rfl
    have hsame : { t with actor := { t.actor with process := none } } = t := by
      rw [← hp]
    rw [hsame]
    exact hnone hp
  · rename_i p hp
    simp only [Process.cleanup, Prog.wp_run_bind, wp_attempt, wp_act]
    refine ⟨hC, ?_⟩
    rintro r u hr
    rcases hr with ⟨rfl, rfl⟩ | ⟨⟨reason, rfl⟩, rfl⟩
    · refine ⟨(hreap p hp).1, ?_⟩
      rintro _ v rfl
      exact (hreap p hp).2
    · exact hfail (by rw [hp]; rfl) _

/-- The fields `cleanup` releases. -/
structure Released (a : Actor V) : Prop where
  process : a.process = none
  preparation : a.preparation = none
  cache : a.cache = none

/-- What a property has to survive to survive a cleanup. -/
structure Releasable (C : World V → Prop) : Prop where
  settle : ∀ w, C w → C { w with state := w.state.settle }
  preparation : ∀ w p, C w → w.actor.preparation = some p →
    let t := w.reap p
    C t ∧ C { t with actor := { t.actor with preparation := none } }
  cache : ∀ w s, C w → w.actor.cache.isSome →
    let t := { w.withCache s with locked := false }
    C (w.withCache s) ∧ C t ∧ C { t with actor := { t.actor with cache := none } }
  process : ∀ w p, C w → w.actor.process = some p →
    let t := w.reap p
    C t ∧ C { t with actor := { t.actor with process := none } }
  backends : ∀ w, C w → C { w with actor := { w.actor with readyBackends := [] } }

theorem Releasable.cleanupPreparation {C : World V → Prop} (K : Releasable C) {w : World V}
    (h : C w) : cleanupPreparation.run.wp native (Prog.always C)
      (fun r t => C t ∧ (r = .ok () → t.actor.preparation = none)) w := by
  refine wp_cleanupPreparation h ?_ ?_ ?_
  · exact fun hp => ⟨h, fun _ => hp⟩
  · intro p hp
    rcases K.preparation w p h hp with ⟨ht, hu⟩
    exact ⟨ht, hu, fun _ => rfl⟩
  · exact fun _ reason => ⟨h, fun hr => by cases hr⟩

theorem Releasable.cleanupCache {C : World V → Prop} (K : Releasable C) {w : World V}
    (h : C w) (hp : w.actor.preparation = none) :
    cleanupCache.run.wp native (Prog.always C)
      (fun r t => C t ∧ (r = .ok () → t.actor.preparation = none ∧ t.actor.cache = none)) w := by
  refine wp_cleanupCache h ?_ ?_ ?_
  · exact fun hc => ⟨h, fun _ => ⟨hp, hc⟩⟩
  · intro s hs
    rcases K.cache w s h hs with ⟨_, ht, hu⟩
    exact ⟨ht, hu, fun _ => ⟨hp, rfl⟩⟩
  · intro s reason hs
    exact ⟨(K.cache w s h hs).1, fun hr => by cases hr⟩

theorem Releasable.cleanupProcess {C : World V → Prop} (K : Releasable C) {w : World V}
    (h : C w) (hp : w.actor.preparation = none) (hc : w.actor.cache = none) :
    cleanupProcess.run.wp native (Prog.always C)
      (fun r t => C t ∧ (r = .ok () → Released t.actor)) w := by
  refine wp_cleanupProcess h ?_ ?_ ?_
  · exact fun hn => ⟨h, fun _ => ⟨hn, hp, hc⟩⟩
  · intro p hn
    rcases K.process w p h hn with ⟨ht, hu⟩
    exact ⟨ht, hu, fun _ => ⟨rfl, hp, hc⟩⟩
  · exact fun _ reason => ⟨h, fun hr => by cases hr⟩

/-- A cleanup keeps what is releasable once the worker is no longer published
    as running, and one that succeeds leaves nothing owned. -/
theorem Releasable.cleanup_settled {C : World V → Prop} (K : Releasable C) {w : World V}
    (h : C { w with state := w.state.settle }) :
    cleanup.run.wp native (fun _ _ t => t = w ∨ C t)
      (fun r t => C t ∧ (r = .ok () → Released t.actor)) w := by
  -- After a failure nothing more is done.
  have hstop : ∀ (e : String) (t : World V), C t ∧ ((.error e : Except String Unit) = .ok () →
      Released t.actor) ↔ C t := fun e t => ⟨And.left, fun ht => ⟨ht, fun hr => by cases hr⟩⟩
  rw [Actor.cleanup, Prog.wp_run_bind, wp_act]
  refine ⟨.inl rfl, ?_⟩
  rintro _ w₁ rfl
  dsimp only
  refine Prog.wp_weaken _ (fun _ _ t (ht : C t) => .inr ht) _ ?_
  simp only [Prog.wp_run_bind, wp_act]
  refine Prog.wp_mono _ ?_ _ (K.cleanupPreparation h)
  rintro (e | u) w₂ ⟨h₂, hp⟩
  · exact (hstop e w₂).mpr h₂
  refine Prog.wp_mono _ ?_ _ (K.cleanupCache h₂ (hp rfl))
  rintro (e | u) w₃ ⟨h₃, hpc⟩
  · exact (hstop e w₃).mpr h₃
  refine Prog.wp_mono _ ?_ _ (K.cleanupProcess h₃ (hpc rfl).1 (hpc rfl).2)
  rintro (e | u) w₄ ⟨h₄, hr⟩
  · exact (hstop e w₄).mpr h₄
  refine ⟨h₄, ?_⟩
  rintro _ w₅ rfl
  have h₅ := K.backends w₄ h₄
  refine ⟨h₅, ?_⟩
  rintro _ w₆ rfl
  rcases hr rfl with ⟨hproc, hprep, hcache⟩
  exact ⟨K.settle _ h₅, fun _ => ⟨hproc, hprep, hcache⟩⟩

/-- The same where the property holds from the start. -/
theorem Releasable.cleanup {C : World V → Prop} (K : Releasable C) {w : World V} (h : C w) :
    cleanup.run.wp native (Prog.always C)
      (fun r t => C t ∧ (r = .ok () → Released t.actor)) w := by
  refine Prog.wp_weaken _ ?_ w (K.cleanup_settled (K.settle w h))
  rintro β op t (rfl | ht)
  · exact h
  · exact ht

/-- A cleanup keeps what quiet effects keep, too. -/
theorem cleanup_quiet {I : World V → Prop} (hI : ∀ w t, I w → Quiet w t → I t) {w : World V}
    (h : I w) : Actor.cleanup.run.wp native (Prog.always I)
      (fun r t => I t ∧ (r = .ok () → Released t.actor)) w := by
  have hall : Releasable (fun _ : World V => True) :=
    ⟨fun _ _ => trivial, fun _ _ _ _ => ⟨trivial, trivial⟩,
      fun _ _ _ _ => ⟨trivial, trivial, trivial⟩, fun _ _ _ _ => ⟨trivial, trivial⟩,
      fun _ _ => trivial⟩
  have hboth := Prog.wp_and _ _ (tame_wp hI tame_cleanup h) (@Releasable.cleanup V _ hall w trivial)
  refine Prog.wp_weaken _ (fun _ _ _ hA => hA.1) _ (Prog.wp_mono _ ?_ _ hboth)
  exact fun r t hQ => ⟨hQ.1, hQ.2.2⟩

end Actor

end TinyRuntime
