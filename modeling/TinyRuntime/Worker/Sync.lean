import TinyRuntime.Lib.History
import TinyRuntime.Worker.Replay

/-!
# No Desynchronised Worker

A worker that owes a reply is never written to. A request can be cut off in the
middle of a frame, by the stop flag or by its deadline, and then the bytes still
to come belong to nobody. What protects the next request is the cleanup that
follows every such exit: its first effect publishes the worker as not running,
even if reaping it fails, and a worker that is not published as running is
discarded before it is used.

So the invariant is conditional: a worker that is published as running has
answered everything it was sent (`Trusted`).

## Main definitions

* `Synced`: A process has answered every frame it was sent.
* `Ordered`: Every frame was sent to such a process.
* `Delivered`: A response was read as the answer to an operation's frame.
* `Tidy`: What holds in every state.
* `InSync`, `Trusted`: What is known of the worker at hand.

## Theorems

* `exchange_synced`: One exchange, and where its response comes from.
* `start_synced`: A worker that was started is in sync.
* `sync_contract`: The obligations of the supervisor's programs.
* `replies_in_sync`: The invariant of all runs.
-/

namespace TinyRuntime

open Prog (act attempt)

variable {V : Type} {codec : Codec V}

/-- A frame of a process that answers an id. -/
def Answering (codec : Codec V) (p : Nat) (id : String) (r : ServerResponse V) (e : Event V) :
    Prop :=
  ∃ body, e = .received p body ∧ codec.decodeResponse body = some r ∧ r.id = some id

/-- Every frame sent to a process was answered, after it was sent. -/
def Synced (codec : Codec V) (p : Nat) (log : List (Event V)) : Prop :=
  ∀ pre c f post, log = pre ++ .sent c p f :: post →
    ∃ e ∈ post, ∃ r, Answering codec p f.id r e

/-- Every frame was sent to a process that had answered all earlier ones. -/
def Ordered (codec : Codec V) (log : List (Event V)) : Prop :=
  ∀ pre c p f post, log = pre ++ .sent c p f :: post → Synced codec p pre

/-- A response was read as the answer to the frame of an operation, from the
    process the frame was sent to. -/
def Delivered (codec : Codec V) (log : List (Event V)) (operation : Nat)
    (r : ServerResponse V) : Prop :=
  ∃ pre c p f post, log = pre ++ .sent c p f :: post ∧ f.id = toString operation ∧
    ∃ e ∈ post, Answering codec p (toString operation) r e

/-- What holds in every state. -/
structure Tidy (codec : Codec V) (w : World V) : Prop where
  ordered : Ordered codec w.log
  stored : ∀ r ∈ w.actor.replies, ∀ response, r.2.2.response = some response →
    Delivered codec w.log r.1 response
  spawned : ∀ c p f, Event.sent c p f ∈ w.log → p < w.fresh
  process : ∀ p, w.actor.process = some p → p < w.fresh

/-- The worker at hand has answered everything. -/
def InSync (codec : Codec V) (w : World V) : Prop :=
  ∀ p, w.actor.process = some p → Synced codec p w.log

/-- It has if it is published as running. -/
def Trusted (codec : Codec V) (w : World V) : Prop :=
  w.state.status.server.running = true → InSync codec w

/-- Only a worker in sync is written to. -/
def Op.prompt {β : Type} (codec : Codec V) (op : Op V β) (w : World V) : Prop :=
  match op with
  | .beginWrite p _ => Synced codec p w.log
  | _ => True

/-- What is asserted at every effect. -/
def Prompt (codec : Codec V) (β : Type) (op : Op V β) (w : World V) : Prop :=
  Tidy codec w ∧ op.prompt codec w

theorem Op.quiet.prompt {β : Type} {op : Op V β} (h : op.quiet) (w : World V) :
    op.prompt codec w := by
  cases op with
  | beginWrite => cases h
  | _ => trivial

/-! ## Longer histories -/

theorem Synced.append {p : Nat} {log es : List (Event V)} (h : Synced codec p log)
    (hes : ∀ e ∈ es, ∀ c p f, e ≠ .sent c p f) : Synced codec p (log ++ es) := by
  intro pre c f post hlog
  rcases History.split_append hlog with ⟨pre', _, hnew⟩ | ⟨post', rfl, hold⟩
  · refine absurd rfl (hes (.sent c p f) ?_ c p f)
    rw [hnew]
    exact List.mem_append_right _ (List.mem_cons_self ..)
  · rcases h pre c f post' hold with ⟨e, he, hr⟩
    exact ⟨e, List.mem_append_left _ he, hr⟩

theorem synced_unsent {p : Nat} {log : List (Event V)} (h : ∀ c f, Event.sent c p f ∉ log) :
    Synced codec p log := by
  rintro pre c f post rfl
  exact absurd (List.mem_append_right _ (List.mem_cons_self ..)) (h c f)

theorem Ordered.append {log es : List (Event V)} (h : Ordered codec log)
    (hes : ∀ e ∈ es, ∀ c p f, e ≠ .sent c p f) : Ordered codec (log ++ es) := by
  intro pre c p f post hlog
  rcases History.split_append hlog with ⟨pre', _, hnew⟩ | ⟨post', _, hold⟩
  · refine absurd rfl (hes (.sent c p f) ?_ c p f)
    rw [hnew]
    exact List.mem_append_right _ (List.mem_cons_self ..)
  · exact h pre c p f post' hold

/-- A frame is sent to a process in sync. -/
theorem Ordered.send {c p : Nat} {f : ServerRequest V} {log : List (Event V)}
    (h : Ordered codec log) (hs : Synced codec p log) :
    Ordered codec (log ++ [.sent c p f]) := by
  intro pre c' p' f' post hlog
  rcases History.split_snoc hlog with ⟨rfl, he, _⟩ | ⟨post', _, hold⟩
  · cases he
    exact hs
  · exact h pre c' p' f' post' hold

theorem Delivered.append {log : List (Event V)} {operation : Nat} {r : ServerResponse V}
    (h : Delivered codec log operation r) (es : List (Event V)) :
    Delivered codec (log ++ es) operation r := by
  rcases h with ⟨pre, c, p, f, post, rfl, hid, e, he, hr⟩
  exact ⟨pre, c, p, f, post ++ es, by rw [List.append_assoc, List.cons_append], hid, e,
    List.mem_append_left _ he, hr⟩

theorem Tidy.quiet {w t : World V} (h : Tidy codec w) (hq : Quiet w t) : Tidy codec t := by
  rcases hq.log with ⟨es, hlog, hes⟩
  refine ⟨?_, ?_, ?_, ?_⟩
  · rw [hlog]
    exact h.ordered.append hes
  · rw [hlog, hq.replies]
    exact fun r hr response hresponse => (h.stored r hr response hresponse).append es
  · intro c p f hsent
    rw [hlog] at hsent
    rcases List.mem_append.mp hsent with hold | hnew
    · exact Nat.lt_of_lt_of_le (h.spawned c p f hold) hq.fresh
    · exact absurd rfl (hes _ hnew c p f)
  · intro p hp
    rcases hq.process p hp with hold | ⟨_, hlt⟩
    · exact Nat.lt_of_lt_of_le (h.process p hold) hq.fresh
    · exact hlt

theorem InSync.quiet {w t : World V} (h : InSync codec w) (ht : Tidy codec w) (hq : Quiet w t) :
    InSync codec t := by
  rcases hq.log with ⟨es, hlog, hes⟩
  intro p hp
  rw [hlog]
  rcases hq.process p hp with hold | ⟨hge, _⟩
  · exact (h p hold).append hes
  · refine synced_unsent fun c f hsent => ?_
    rcases List.mem_append.mp hsent with hold | hnew
    · exact absurd (ht.spawned c p f hold) (Nat.not_lt_of_le hge)
    · exact absurd rfl (hes _ hnew c p f)

theorem InSync.trusted {w : World V} (h : InSync codec w) : Trusted codec w := fun _ => h

theorem inSync_none {w : World V} (h : w.actor.process = none) : InSync codec w := by
  intro p hp
  rw [h] at hp
  cases hp

/-! ## Programs that write nothing -/

theorem wp_prompt {α : Type} {I : World V → Prop} (hI : ∀ w t, I w → Quiet w t → I t)
    (hT : ∀ w, I w → Tidy codec w) {p : Prog (Op V) α} (hp : Tame p) {w : World V} (h : I w) :
    p.wp native (Prompt codec) (fun _ t => I t) w := by
  refine Prog.wp_weaken _ ?_ w (Prog.wp_and_uses _ w (tame_wp hI hp h) hp)
  exact fun β op t ⟨ht, hq⟩ => ⟨hT t ht, hq.prompt t⟩

/-- The worker stays in sync. -/
theorem wp_prompt_sync {α : Type} {p : Prog (Op V) α} (hp : Tame p) {w : World V}
    (h : Tidy codec w) (hs : InSync codec w) :
    p.wp native (Prompt codec) (fun _ t => Tidy codec t ∧ InSync codec t) w := by
  have hI : ∀ w t, Tidy codec w ∧ InSync codec w → Quiet w t → Tidy codec t ∧ InSync codec t :=
    fun _ _ hw hq => ⟨hw.1.quiet hq, hw.2.quiet hw.1 hq⟩
  exact wp_prompt hI (fun _ hw => hw.1) hp ⟨h, hs⟩

theorem wp_prompt_cut {α : Type} (interrupt : Op V Bool) (hi : interrupt.quiet)
    (hpoll : ∀ w t, Answers interrupt w false t → t = w)
    {p : Prog (Op V) α} {Q : α → World V → Prop} {w : World V}
    (hp : p.wp native (Prompt codec) Q w) :
    (p.cut interrupt suspends).wp native (Prompt codec)
      (fun o t => match o with | none => Tidy codec t | some a => Q a t) w := by
  refine Prog.wp_cut (fun s hs => ⟨hs, hi.prompt s⟩) ?_ ?_ p w
    (Prog.wp_weaken p (fun _ _ _ hs => ⟨fun _ => hs.1, hs⟩) w hp)
  · intro s c t _ hr
    exact hpoll s t (answers_of_respond hr)
  · intro s c t hs hr
    exact hs.quiet (quiet_answers hi (answers_of_respond hr))

theorem wp_prompt_timeout {α : Type} (deadline : Nat) {p : Prog (Op V) α}
    {Q : α → World V → Prop} {w : World V} (hp : p.wp native (Prompt codec) Q w) :
    (timeoutAt deadline p).wp native (Prompt codec)
      (fun o t => match o with | none => Tidy codec t | some a => Q a t) w := by
  have hi : (Op.expired deadline : Op V Bool).quiet := trivial
  refine wp_prompt_cut (.expired deadline) hi ?_ hp
  rintro w t (⟨_, rfl⟩ | ⟨hb, _⟩)
  · rfl
  · cases hb

/-! ## Releasing -/

/-- The worker is no longer published as running. -/
def Withdrawn (codec : Codec V) (w : World V) : Prop :=
  Tidy codec w ∧ w.state.status.server.running = false

theorem Withdrawn.trusted {w : World V} (h : Withdrawn codec w) : Trusted codec w := by
  intro hr
  rw [h.2] at hr
  cases hr

namespace Actor

theorem withdrawn_releasable : Releasable (Withdrawn codec) where
  settle w h := ⟨h.1.quiet (.of_eq rfl rfl rfl rfl rfl rfl rfl), rfl⟩
  preparation w p h _ := by
    have hreap : Quiet w (w.reap p) :=
      @quiet_answers V _ (.reap p) w _ (.ok ()) trivial (.inl ⟨rfl, rfl⟩)
    exact ⟨⟨h.1.quiet hreap, h.2⟩,
      ⟨(h.1.quiet hreap).quiet (.of_eq rfl rfl rfl rfl rfl rfl rfl), h.2⟩⟩
  cache w s h _ :=
    ⟨⟨h.1.quiet (.of_eq rfl rfl rfl rfl rfl rfl rfl), h.2⟩,
      ⟨h.1.quiet (.of_eq rfl rfl rfl rfl rfl rfl rfl), h.2⟩,
      ⟨h.1.quiet (.of_eq rfl rfl rfl rfl rfl rfl rfl), h.2⟩⟩
  process w p h _ := by
    have hreap : Quiet w (w.reap p) :=
      @quiet_answers V _ (.reap p) w _ (.ok ()) trivial (.inl ⟨rfl, rfl⟩)
    have hclear : Quiet (w.reap p)
        { w.reap p with actor := { (w.reap p).actor with process := none } } :=
      @quiet_answers V _ (.update fun a => { a with process := none }) _ _ ()
        (fun _ => ⟨rfl, rfl, .inr rfl⟩) rfl
    exact ⟨⟨h.1.quiet hreap, h.2⟩, ⟨(h.1.quiet hreap).quiet hclear, h.2⟩⟩
  backends w h := ⟨h.1.quiet (.of_eq rfl rfl rfl rfl rfl rfl rfl), h.2⟩

/-- A cleanup withdraws the worker at once, whether or not it can be reaped. -/
theorem cleanup_withdraws {w : World V} (h : Tidy codec w) :
    cleanup.run.wp native (Prompt codec)
      (fun r t => Withdrawn codec t ∧ (r = .ok () → Released t.actor)) w := by
  have hsettled : Withdrawn codec { w with state := w.state.settle } :=
    ⟨h.quiet (.of_eq rfl rfl rfl rfl rfl rfl rfl), rfl⟩
  refine Prog.wp_weaken _ ?_ w (Prog.wp_and_uses _ w
    (withdrawn_releasable.cleanup_settled hsettled) tame_cleanup)
  intro β op t ⟨ht, hq⟩
  refine ⟨?_, hq.prompt t⟩
  rcases ht with rfl | ht
  · exact h
  · exact ht.1

/-! ## Startup -/

theorem reuse_synced {w : World V} (h : Tidy codec w) (hs : Trusted codec w) :
    (reuse codec).wp native (Prompt codec)
      (fun o t => Tidy codec t ∧ Trusted codec t ∧ (o.kind = .complete → InSync codec t)) w := by
  have hlaunch : ∀ t : World V, Tidy codec t → t.actor.process = none →
      (launch codec).wp native (Prompt codec)
        (fun o t => Tidy codec t ∧ Trusted codec t ∧ (o.kind = .complete → InSync codec t)) t :=
    fun t ht hp => Prog.wp_mono _ (fun _ _ hu => ⟨hu.1, hu.2.trusted, fun _ => hu.2⟩) _
      (wp_prompt_sync (tame_launch codec) ht (inSync_none hp))
  rw [reuse, Prog.wp_bind, wp_native]
  refine ⟨⟨h, trivial⟩, ?_⟩
  rintro a t ⟨rfl, rfl⟩
  split
  · rename_i hp
    exact hlaunch _ h hp
  · rename_i p _
    -- A worker is kept only if it is published as running.
    have husable : (@usable V p).wp native (Prompt codec)
        (fun keep u => u = t ∧ (keep = true → t.state.status.server.running = true)) t := by
      rw [usable, Prog.wp_bind, wp_native]
      refine ⟨⟨h, trivial⟩, ?_⟩
      rintro s u ⟨rfl, rfl⟩
      split
      · rename_i hrun
        rw [wp_native]
        refine ⟨⟨h, trivial⟩, ?_⟩
        rintro b v rfl
        exact ⟨rfl, fun _ => hrun⟩
      · exact ⟨rfl, fun hk => by cases hk⟩
    rw [Prog.wp_bind]
    refine Prog.wp_mono _ ?_ _ husable
    rintro keep u ⟨rfl, hkeep⟩
    cases keep with
    | true => exact ⟨h, hs, fun _ => hs (hkeep rfl)⟩
    | false =>
        simp only [Bool.false_eq_true, ↓reduceIte, Prog.wp_bind]
        refine Prog.wp_mono _ ?_ _ (cleanup_withdraws h)
        rintro (e | u) v ⟨hv, hr⟩
        · exact ⟨hv.1, hv.trusted, fun hk => by cases hk⟩
        · exact hlaunch v hv.1 (hr rfl).process

theorem start_synced {w : World V} (h : Tidy codec w) (hs : Trusted codec w) :
    (start codec).wp native (Prompt codec)
      (fun o t => Tidy codec t ∧ Trusted codec t ∧ (o.kind = .complete → InSync codec t)) w := by
  rw [start, Prog.wp_bind, wp_native]
  refine ⟨⟨h, trivial⟩, ?_⟩
  rintro stopped t rfl
  split
  · exact ⟨h, hs, fun hk => by cases hk⟩
  · rw [Prog.wp_bind, wp_native]
    refine ⟨⟨h, trivial⟩, ?_⟩
    rintro s t ⟨rfl, rfl⟩
    split
    · exact ⟨h, hs, fun hk => by cases hk⟩
    · simp only [Prog.wp_bind, wp_native]
      refine ⟨⟨h, trivial⟩, ?_⟩
      rintro a t ⟨rfl, rfl⟩
      refine ⟨⟨h, trivial⟩, ?_⟩
      rintro now u ⟨_, rfl⟩
      have hu : Tidy codec { t with seen := now } := h.quiet (.of_eq rfl rfl rfl rfl rfl rfl rfl)
      split
      · rw [Prog.wp_bind]
        refine Prog.wp_mono _ ?_ _ (cleanup_withdraws hu)
        rintro (e | u) v ⟨hv, _⟩
        · exact ⟨hv.1, hv.trusted, fun hk => by cases hk⟩
        · exact reuse_synced hv.1 hv.trusted
      · exact reuse_synced hu hs

end Actor

/-! ## One exchange -/

/-- A frame has been sent to the worker at hand, which owes its answer and no
    other one. -/
structure Awaiting (codec : Codec V) (p : Nat) (f : ServerRequest V) (w : World V) : Prop where
  tidy : Tidy codec w
  process : w.actor.process = some p
  owed : ∃ pre c mid, w.log = pre ++ .sent c p f :: mid ∧ Synced codec p pre ∧
    ∀ e ∈ mid, ∀ c p f, e ≠ .sent c p f

/-- The answer to a frame was read, and the worker owes nothing. -/
structure Answered (codec : Codec V) (p : Nat) (f : ServerRequest V) (r : ServerResponse V)
    (w : World V) : Prop where
  tidy : Tidy codec w
  sync : InSync codec w
  read : ∃ pre c post, w.log = pre ++ .sent c p f :: post ∧ ∃ e ∈ post, Answering codec p f.id r e

theorem Awaiting.line {p : Nat} {f : ServerRequest V} {w : World V} (h : Awaiting codec p f w)
    (body : List UInt8) : Awaiting codec p f (w.note (.received p body)) := by
  rcases h.owed with ⟨pre, c, mid, hlog, hpre, hmid⟩
  refine ⟨h.tidy.quiet (.note trivial), h.process, pre, c, mid ++ [.received p body], ?_, hpre, ?_⟩
  · rw [World.note, hlog, List.append_assoc, List.cons_append]
  · intro e he
    rcases List.mem_append.mp he with he | he
    · exact hmid e he
    · cases List.mem_singleton.mp he
      exact fun _ _ _ h => by cases h

/-- Reading the answer. -/
theorem Awaiting.answer {p : Nat} {f : ServerRequest V} {w : World V} (h : Awaiting codec p f w)
    {body : List UInt8} {r : ServerResponse V} (hd : codec.decodeResponse body = some r)
    (hid : r.id = some f.id) : Answered codec p f r (w.note (.received p body)) := by
  have hline := h.line body
  rcases h.owed with ⟨pre, c, mid, hlog, hpre, hmid⟩
  have hnew : (w.note (.received p body)).log =
      pre ++ .sent c p f :: (mid ++ [.received p body]) := by
    rw [World.note, hlog, List.append_assoc, List.cons_append]
  have hlast : Event.received p body ∈ mid ++ [.received p body] :=
    List.mem_append_right _ (List.mem_singleton_self _)
  refine ⟨hline.tidy, ?_, pre, c, _, hnew, _, hlast, body, rfl, hd, hid⟩
  intro q hq
  have hqp : q = p := Option.some.inj (hq.symm.trans h.process)
  subst hqp
  intro pre' c' f' post' hsplit
  rw [hnew] at hsplit
  rcases History.split_append hsplit with ⟨pre'', _, hes⟩ | ⟨post'', rfl, hold⟩
  · cases pre'' with
    | nil =>
        cases hes
        exact ⟨_, hlast, r, body, rfl, hd, hid⟩
    | cons x pre'' =>
        simp only [List.cons_append, List.cons.injEq] at hes
        have hmem : Event.sent c' q f' ∈ mid ++ [.received q body] :=
          hes.2 ▸ List.mem_append_right _ (List.mem_cons_self ..)
        rcases List.mem_append.mp hmem with hm | hm
        · exact absurd rfl (hmid _ hm c' q f')
        · cases List.mem_singleton.mp hm
  · rcases hpre pre' c' f' post'' hold with ⟨e, he, hr⟩
    exact ⟨e, List.mem_append_left _ he, hr⟩

/-- Replies to other ids are skipped, whatever they are. -/
theorem awaitReply_synced {p : Nat} {f : ServerRequest V} (fuel : Nat) :
    ∀ (remaining : Nat) (w : World V), Awaiting codec p f w →
      (Process.awaitReply codec p f.id fuel remaining).run.wp native (Prompt codec)
        (fun r t => Tidy codec t ∧ ∀ response, r = .ok response →
          Answered codec p f response t) w := by
  induction fuel with
  | zero => exact fun _ _ h => ⟨h.tidy, fun _ hr => by cases hr⟩
  | succ fuel ih =>
      intro remaining w h
      rw [Process.awaitReply, Prog.wp_run_bind, wp_attempt]
      refine ⟨⟨h.tidy, trivial⟩, ?_⟩
      rintro r t (⟨body, rfl, rfl⟩ | ⟨⟨reason, rfl⟩, rfl⟩)
      · have hline := h.line body
        dsimp only
        split
        · exact ⟨hline.tidy, fun _ hr => by cases hr⟩
        · split
          · exact ih _ _ hline
          · rename_i response hd
            split
            · rename_i hid
              refine ⟨hline.tidy, fun _ hr => ?_⟩
              cases hr
              exact h.answer hd hid
            · exact ih _ _ hline
      · exact ⟨h.tidy, fun _ hr => by cases hr⟩

theorem request_synced {p : Nat} (f : ServerRequest V) {w : World V} (h : Tidy codec w)
    (hs : InSync codec w) (hp : w.actor.process = some p) :
    (Process.request codec p f).run.wp native (Prompt codec)
      (fun r t => Tidy codec t ∧ ∀ response, r = .ok response →
        Answered codec p f response t) w := by
  unfold Process.request
  split
  · exact ⟨h, fun _ hr => by cases hr⟩
  · split
    · exact ⟨h, fun _ hr => by cases hr⟩
    · rw [Prog.wp_run_bind, wp_act]
      refine ⟨⟨h, hs p hp⟩, ?_⟩
      rintro _ t rfl
      have hsent : Awaiting codec p f (w.note (.sent w.commands p f)) := by
        refine ⟨⟨h.ordered.send (hs p hp), ?_, ?_, h.process⟩, hp, w.log, w.commands, [], rfl,
          hs p hp, fun _ he => by cases he⟩
        · exact fun r hr response hresponse => (h.stored r hr response hresponse).append _
        · intro c q f' hin
          rcases List.mem_append.mp hin with hin | hin
          · exact h.spawned c q f' hin
          · cases List.mem_singleton.mp hin
            exact h.process p hp
      simp only [Prog.wp_run_bind, wp_attemptAs]
      refine ⟨⟨hsent.tidy, trivial⟩, ?_⟩
      rintro (e | u) t rfl
      · exact ⟨hsent.tidy, fun _ hr => by cases hr⟩
      · refine ⟨⟨hsent.tidy, trivial⟩, ?_⟩
        rintro (e | u) t rfl
        · exact ⟨hsent.tidy, fun _ hr => by cases hr⟩
        · exact awaitReply_synced _ _ _ hsent

namespace Actor

/-- An exchange that was not cut off returns the answer to its own frame. -/
theorem exchange_synced (request : WorkerRequest V) {p : Nat} (deadline : Nat) {w : World V}
    (h : Tidy codec w) (hs : InSync codec w) (hp : w.actor.process = some p) :
    (exchange codec request p deadline).wp native (Prompt codec)
      (fun r t => Tidy codec t ∧ ∀ response, r.1 = .ok response →
        Answered codec p (wire request) response t) w := by
  rw [exchange, Prog.wp_bind, wp_native]
  refine ⟨⟨h, trivial⟩, ?_⟩
  rintro stopped t rfl
  split
  · exact ⟨h, fun _ hr => by cases hr⟩
  · rw [Prog.wp_bind, wp_native]
    refine ⟨⟨h, trivial⟩, ?_⟩
    rintro _ u rfl
    have hsilent : ∀ e ∈ [Event.attempted t.commands request], ∀ c p f,
        e ≠ (.sent c p f : Event V) := by
      intro e he
      cases List.mem_singleton.mp he
      exact fun _ _ _ h => by cases h
    have hu : Tidy codec (t.note (.attempted t.commands request)) := by
      refine ⟨h.ordered.append hsilent, ?_, ?_, h.process⟩
      · exact fun r hr response hresponse => (h.stored r hr response hresponse).append _
      · intro c q f hin
        rcases List.mem_append.mp hin with hin | hin
        · exact h.spawned c q f hin
        · exact absurd rfl (hsilent _ hin c q f)
    have hsu : InSync codec (t.note (.attempted t.commands request)) :=
      fun q hq => (hs q hq).append hsilent
    have hi : (Op.stopped : Op V Bool).quiet := trivial
    rw [Prog.wp_bind]
    refine Prog.wp_mono _ ?_ _ (wp_prompt_cut .stopped hi (fun _ _ ht => ht)
      (wp_prompt_timeout deadline (request_synced (wire request) hu hsu hp)))
    rintro (_ | _ | r) v hv
    · exact ⟨hv, fun _ hr => by cases hr⟩
    · exact ⟨hv, fun _ hr => by cases hr⟩
    · exact hv

/-- What is known when an operation of a number has ended. -/
structure Ended (codec : Codec V) (operation : Nat) (o : WorkerOutcome V) (t : World V) : Prop where
  tidy : Tidy codec t
  trusted : Trusted codec t
  delivered : ∀ response, o.response = some response → Delivered codec t.log operation response

/-- An outcome without a response. -/
theorem Ended.silent {operation : Nat} {o : WorkerOutcome V} {t : World V} (h : Tidy codec t)
    (hs : Trusted codec t) (ho : o.response = none) : Ended codec operation o t :=
  ⟨h, hs, fun response hr => by rw [ho] at hr; cases hr⟩

theorem finalReply_ok {attempt : Nat} {r : Except String (ServerResponse V)}
    {response : ServerResponse V} (h : finalReply attempt r = some response) :
    r = .ok response := by
  cases r with
  | error reason => cases h
  | ok response' =>
      simp only [finalReply] at h
      split at h
      · cases h
        rfl
      · cases h

theorem silent_launch (codec : Codec V) :
    (launch codec).Returns fun o => o.response = none := by
  refine Prog.returns_bind _ fun a => Prog.returns_bind _ fun wait => ?_
  have hfailed : ∀ reason : String, (@startFailed V reason).Returns fun o => o.response = none := by
    refine fun reason => Prog.returns_bind _ fun r => ?_
    split
    · rfl
    · exact Prog.returns_bind _ fun _ => Prog.returns_bind _ fun _ =>
        Prog.returns_bind _ fun _ => rfl
  split
  · rfl
  · refine Prog.returns_bind _ fun _ => Prog.returns_bind _ fun r => ?_
    split
    · exact hfailed _
    · refine Prog.returns_bind _ fun stopped => ?_
      split
      · exact hfailed _
      · exact Prog.returns_bind _ fun _ => Prog.returns_bind _ fun _ =>
          Prog.returns_bind _ fun _ => Prog.returns_bind _ fun _ => rfl

/-- A start returns no response. -/
theorem silent_start (codec : Codec V) :
    (start codec).Returns fun o => o.response = none := by
  have hreuse : (reuse codec).Returns fun o => o.response = none := by
    refine Prog.returns_bind _ fun a => ?_
    split
    · exact silent_launch codec
    · refine Prog.returns_bind _ fun keep => ?_
      split
      · rfl
      · refine Prog.returns_bind _ fun r => ?_
        split
        · rfl
        · exact silent_launch codec
  refine Prog.returns_bind _ fun stopped => ?_
  split
  · rfl
  · refine Prog.returns_bind _ fun s => ?_
    split
    · rfl
    · refine Prog.returns_bind _ fun a => Prog.returns_bind _ fun now => ?_
      split
      · refine Prog.returns_bind _ fun r => ?_
        split
        · rfl
        · exact hreuse
      · exact hreuse

theorem afterFailure_synced (deadline : Nat) (reason : String) {w : World V}
    (h : Tidy codec w) :
    (afterFailure deadline reason).wp native (Prompt codec)
      (fun o t => Tidy codec t ∧ Trusted codec t ∧ ∀ ended, o = some ended →
        ended.response = none) w := by
  rw [afterFailure, Prog.wp_bind]
  refine Prog.wp_mono _ ?_ _ (cleanup_withdraws h)
  rintro (e | u) t ⟨ht, _⟩
  · exact ⟨ht.1, ht.trusted, fun _ ho => by cases ho; rfl⟩
  · dsimp only
    rw [Prog.wp_bind, wp_native]
    refine ⟨⟨ht.1, trivial⟩, ?_⟩
    rintro stopped t rfl
    split
    · exact ⟨ht.1, ht.trusted, fun _ ho => by cases ho; rfl⟩
    · rw [Prog.wp_bind, wp_native]
      refine ⟨⟨ht.1, trivial⟩, ?_⟩
      rintro now _ ⟨_, rfl⟩
      have htime : Withdrawn codec { t with seen := now } :=
        ⟨ht.1.quiet (.of_eq rfl rfl rfl rfl rfl rfl rfl), ht.2⟩
      split
      · exact ⟨htime.1, htime.trusted, fun _ ho => by cases ho; rfl⟩
      · exact ⟨htime.1, htime.trusted, fun _ ho => by cases ho⟩

theorem tries_synced (request : WorkerRequest V) (deadline left : Nat) :
    ∀ (attempted : Bool) (reason : String) (w : World V), Tidy codec w → Trusted codec w →
      (tries codec request deadline left attempted reason).wp native (Prompt codec)
        (fun r t => Ended codec request.operation r.1 t) w := by
  induction left with
  | zero => exact fun _ _ _ h hs => .silent h hs rfl
  | succ left ih =>
      intro attempted reason w h hs
      -- A start cut off by the deadline is followed by a cleanup.
      have hlate : ∀ t : World V, Tidy codec t →
          (@startTimedOut V).wp native (Prompt codec)
            (fun o u => Ended codec request.operation o u) t := by
        intro t ht
        rw [startTimedOut, Prog.wp_bind]
        refine Prog.wp_mono _ ?_ _ (cleanup_withdraws ht)
        rintro (e | u) v ⟨hv, _⟩ <;> exact .silent hv.1 hv.trusted rfl
      rw [tries, Prog.wp_bind]
      refine Prog.wp_mono _ ?_ _ (wp_prompt_timeout deadline
        (Prog.wp_and_returns _ (silent_start codec) _ (start_synced h hs)))
      rintro (_ | started) t ht
      · rw [Prog.wp_bind]
        exact Prog.wp_mono _ (fun _ _ hu => hu) _ (hlate t ht)
      · rcases ht with ⟨hsilent, ht, hts, hsync⟩
        dsimp only
        split
        · exact .silent ht hts hsilent
        · rename_i hkind
          have hsync := hsync (not_not.mp hkind)
          rw [Prog.wp_bind, wp_native]
          refine ⟨⟨ht, trivial⟩, ?_⟩
          rintro a u ⟨rfl, rfl⟩
          split
          · exact .silent ht hts rfl
          · rename_i p hp
            rw [Prog.wp_bind]
            refine Prog.wp_mono _ ?_ _ (exchange_synced request deadline ht hsync hp)
            rintro ⟨result, sent⟩ v ⟨hv, hanswered⟩
            dsimp only
            split
            · rename_i response hfinal
              have hans := hanswered response (finalReply_ok hfinal)
              have hdelivered : Delivered codec v.log request.operation response := by
                rcases hans.read with ⟨pre, c, post, hlog, hread⟩
                exact ⟨pre, c, p, wire request, post, hlog, rfl, hread⟩
              rw [Prog.wp_bind]
              have hI : ∀ x y : World V, (Tidy codec x ∧ InSync codec x ∧
                  Delivered codec x.log request.operation response) → Quiet x y →
                  Tidy codec y ∧ InSync codec y ∧
                    Delivered codec y.log request.operation response := by
                rintro x y ⟨hx, hxs, hd⟩ hq
                rcases hq.log with ⟨es, hlog, _⟩
                exact ⟨hx.quiet hq, hxs.quiet hx hq, hlog ▸ hd.append es⟩
              refine Prog.wp_mono _ ?_ _ (wp_prompt hI (fun _ hx => hx.1) (tame_touch response)
                ⟨hv, hans.sync, hdelivered⟩)
              rintro _ x ⟨hx, hxs, hd⟩
              exact ⟨hx, hxs.trusted, fun _ hr => by cases hr; exact hd⟩
            · rw [Prog.wp_bind]
              refine Prog.wp_mono _ ?_ _ (afterFailure_synced deadline (failure result) hv)
              rintro (_ | ended) x ⟨hx, hxs, hend⟩
              · exact ih _ _ x hx hxs
              · exact .silent hx hxs (hend ended rfl)

/-- Storing an outcome. -/
theorem Ended.record {request : WorkerRequest V} {o : WorkerOutcome V} {t : World V}
    (h : Ended codec request.operation o t) :
    Ended codec request.operation o
      { t with actor := Actor.record request o t.actor } := by
  refine ⟨⟨h.tidy.ordered, ?_, h.tidy.spawned, h.tidy.process⟩, h.trusted, h.delivered⟩
  intro r hr response hresponse
  rcases List.mem_cons.mp hr with rfl | hr
  · exact h.delivered response hresponse
  · exact h.tidy.stored r (List.mem_filter.mp (List.mem_filter.mp hr).1).1 response hresponse

/-- A response is answered to its own operation, from the store or from the
    worker. -/
theorem request_ended [BEq V] (request : WorkerRequest V) (deadline : Nat) {w : World V}
    (h : Tidy codec w) (hs : Trusted codec w) :
    (Actor.request codec request deadline).wp native (Prompt codec)
      (fun o t => Ended codec request.operation o t) w := by
  have htime : ∀ (t : World V) (now : Nat), Tidy codec t → Tidy codec { t with seen := now } :=
    fun t now ht => ht.quiet (.of_eq rfl rfl rfl rfl rfl rfl rfl)
  rw [Actor.request, Prog.wp_bind, wp_native]
  refine ⟨⟨h, trivial⟩, ?_⟩
  rintro now t ⟨_, rfl⟩
  split
  · exact .silent (htime _ _ h) hs rfl
  · rw [Prog.wp_bind, wp_native]
    refine ⟨⟨htime _ _ h, trivial⟩, ?_⟩
    rintro a t ⟨rfl, rfl⟩
    dsimp only
    split
    · rename_i previous result hl
      split
      · exact ⟨htime _ _ h, hs, h.stored _ (mem_of_lookup hl)⟩
      · exact .silent (htime _ _ h) hs rfl
    · split
      · exact .silent (htime _ _ h) hs rfl
      · rw [Prog.wp_bind, dispatch, Prog.wp_bind, wp_native]
        refine ⟨⟨htime _ _ h, trivial⟩, ?_⟩
        rintro now₂ u ⟨_, rfl⟩
        have hrecord : ∀ (r : WorkerOutcome V × Bool) (t : World V),
            Ended codec request.operation r.1 t →
            (do
              if r.2 then
                Prog.op (.update (Actor.record request r.1))
              pure r.1 : Prog (Op V) (WorkerOutcome V)).wp native (Prompt codec)
                (fun o t => Ended codec request.operation o t) t := by
          rintro ⟨result, attempted⟩ t ht
          cases attempted with
          | false => exact ht
          | true =>
              simp only [↓reduceIte, Prog.wp_bind, wp_native]
              refine ⟨⟨ht.tidy, trivial⟩, ?_⟩
              rintro _ v rfl
              exact ht.record
        split
        · exact hrecord _ _ (.silent (htime _ _ (htime _ _ h)) hs rfl)
        · exact Prog.wp_mono _ (fun r t ht => hrecord r t ht) _
            (tries_synced request deadline 2 false _ _ (htime _ _ (htime _ _ h)) hs)

end Actor

/-! ## All runs -/

theorem Tidy.note {w : World V} (h : Tidy codec w) {e : Event V}
    (he : ∀ c p f, e ≠ .sent c p f) : Tidy codec (w.note e) := by
  have hes : ∀ e' ∈ [e], ∀ c p f, e' ≠ .sent c p f := fun e' he' =>
    List.mem_singleton.mp he' ▸ he
  refine ⟨h.ordered.append hes, ?_, ?_, h.process⟩
  · exact fun r hr response hresponse => (h.stored r hr response hresponse).append _
  · intro c p f hin
    rcases List.mem_append.mp hin with hin | hin
    · exact h.spawned c p f hin
    · exact absurd rfl (hes _ hin c p f)

theorem sync_contract [BEq V] (codec : Codec V) (plan : WorkerPlan) (cached : Option Cached) :
    Contract codec plan cached (Prompt codec) (Tidy codec)
      (fun w => Tidy codec w ∧ Trusted codec w) (Tidy codec) where
  asserted _ _ _ h := h.1
  settled _ h := h.1
  closed _ h := h
  prepare now := by
    have hnew : Tidy codec (Supervisor.new plan cached now : Supervisor V).world := by
      refine ⟨?_, fun _ hr => (by cases hr), fun _ _ _ hin => (by cases hin),
        fun _ hp => by cases hp⟩
      rintro (_ | ⟨_, _⟩) c p f post hlog <;> cases hlog
    exact Prog.wp_mono _ (fun _ _ ht => ⟨ht.1, ht.2.trusted⟩) _
      (wp_prompt_sync Actor.tame_servePrepare hnew (inSync_none rfl))
  tick prepared w h := by
    rw [Actor.supervise, Prog.wp_bind, wp_native]
    refine ⟨⟨h.1, trivial⟩, ?_⟩
    rintro a t ⟨rfl, rfl⟩
    have hgone : (Actor.unusable t.actor).wp native (Prompt codec) (fun _ u => u = t) t := by
      unfold Actor.unusable
      split
      · rfl
      · rw [Prog.wp_bind, wp_native]
        refine ⟨⟨h.1, trivial⟩, ?_⟩
        rintro b u rfl
        rfl
    rw [Prog.wp_bind]
    refine Prog.wp_mono _ ?_ _ hgone
    rintro gone u rfl
    rw [Prog.wp_bind, wp_native]
    refine ⟨⟨h.1, trivial⟩, ?_⟩
    rintro a v ⟨rfl, rfl⟩
    dsimp only
    split
    · rw [Prog.wp_bind]
      exact Prog.wp_mono _ (fun _ _ hr => ⟨hr.1.1, hr.1.trusted⟩) _
        (Actor.cleanup_withdraws h.1)
    · exact h
  command command w h := by
    have hreply : ∀ (o : WorkerOutcome V) (t : World V), Tidy codec t → Trusted codec t →
        (Prog.op (.reply o)).wp native (Prompt codec)
          (fun _ t => Tidy codec t ∧ Trusted codec t) t := by
      intro o t ht hs
      rw [wp_native]
      refine ⟨⟨ht, trivial⟩, ?_⟩
      rintro _ u rfl
      have hne : ∀ c p f, Event.replied t.commands o ≠ .sent c p f := fun _ _ _ => nofun
      refine ⟨ht.note hne, fun hr q hq => (hs hr q hq).append fun e he => ?_⟩
      exact List.mem_singleton.mp he ▸ hne
    have htaken : Tidy codec { w with commands := w.commands + 1 } :=
      ⟨h.1.ordered, h.1.stored, h.1.spawned, h.1.process⟩
    cases command with
    | start =>
        rw [Actor.serveCommand, Prog.wp_bind]
        exact Prog.wp_mono _ (fun o t ht => hreply o t ht.1 ht.2.1) _
          (Actor.start_synced htaken h.2)
    | request request deadline replyClosed =>
        rw [Actor.serveCommand]
        split
        · exact ⟨htaken, h.2⟩
        · rw [Prog.wp_bind]
          exact Prog.wp_mono _ (fun o t ht => hreply o t ht.tidy ht.trusted) _
            (Actor.request_ended request deadline htaken h.2)
  close w h := by
    have hI : ∀ w t : World V, Tidy codec w → Quiet w t → Tidy codec t :=
      fun _ _ hw hq => hw.quiet hq
    rw [Actor.closePass, Prog.wp_bind]
    refine Prog.wp_mono _ ?_ _ (wp_prompt hI (fun _ => id) Actor.tame_release h)
    intro last t ht
    have hstate : ∀ s : State V, Tidy codec { t with state := s } := fun s =>
      ⟨ht.ordered, ht.stored, ht.spawned, ht.process⟩
    cases last with
    | true =>
        simp only [↓reduceIte, Prog.wp_bind, wp_native]
        refine ⟨⟨ht, trivial⟩, ?_⟩
        rintro _ u rfl
        exact hstate _
    | false =>
        simp only [Bool.false_eq_true, ↓reduceIte, Prog.wp_bind, wp_native]
        refine ⟨⟨ht, trivial⟩, ?_⟩
        rintro _ u rfl
        refine ⟨⟨hstate _, trivial⟩, ?_⟩
        rintro _ v rfl
        exact hstate _

/-- **No desynchronised worker is reused.** In every reachable state of a
    supervisor, each frame was written to a process that had answered, to its own
    id, every frame written to it before.

    And what a request answers with a response was read as the answer to the frame
    of that operation: from the process the frame was written to, after it was
    written, with the number of the operation as its id. -/
theorem replies_in_sync [BEq V] (codec : Codec V) (plan : WorkerPlan) (cached : Option Cached)
    {s : Supervisor V} (h : Transition.Reachable (supervisor codec plan cached) s) :
    (∀ pre c p f post, s.world.log = pre ++ .sent c p f :: post →
      ∀ pre' c' f' post', pre = pre' ++ .sent c' p f' :: post' →
        ∃ e ∈ post', ∃ r, Answering codec p f'.id r e) ∧
    ∀ prepared, s.life = .idle prepared → ∀ request deadline o w,
      Prog.Reaches native (Actor.request codec request deadline)
        { s.world with commands := s.world.commands + 1 } (.done o) w →
      ∀ response, o.response = some response →
        Delivered codec w.log request.operation response := by
  have hholds := (sync_contract codec plan cached).reachable h
  refine ⟨((sync_contract codec plan cached).always hholds).ordered, ?_⟩
  intro prepared hidle request deadline o w hreach response hresponse
  have hset : Tidy codec s.world ∧ Trusted codec s.world := by
    simpa only [Supervisor.Holds, hidle] using hholds
  have htaken : Tidy codec { s.world with commands := s.world.commands + 1 } :=
    ⟨hset.1.ordered, hset.1.stored, hset.1.spawned, hset.1.process⟩
  have hended := Prog.wp_reaches (Actor.request_ended request deadline htaken hset.2) hreach
  exact hended.delivered response hresponse

/-- After one answered operation, asking for it again returns a response that was
    read as its answer. -/
theorem replies_in_sync_answered : ∃ s : Supervisor Unit, sends "5" s.world.log = [(1, 0)] ∧
    ∀ deadline o w, Prog.Reaches native (Actor.request answeringCodec fifth deadline)
        { s.world with commands := s.world.commands + 1 } (.done o) w →
      ∀ response, o.response = some response → Delivered answeringCodec w.log 5 response := by
  rcases answeredRun_reachable with ⟨s, hreach, hsends, _, _, hlife⟩
  exact ⟨s, hsends, (replies_in_sync answeringCodec plainPlan none hreach).2 _ hlife fifth⟩

end TinyRuntime
