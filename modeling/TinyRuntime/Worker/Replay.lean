import TinyRuntime.Lib.Decimal
import TinyRuntime.Worker.Quiet
import Mathlib.Data.List.Nodup
import Mathlib.Order.Interval.Finset.Nat

/-!
# Replay Safety

A supervisor puts every operation on the wire for one command only, in at most
two sends and to different processes, whatever the worker does. Afterwards the
operation is answered from the stored outcome, or refused.

Between two commands the history and the window agree (`Settled`): an attempted
operation is stored or lies below the window. Inside a request, `Trying` says
what is true between any two effects, relative to the state the request was
taken in: the sends it has made are its own, few, and to processes the current
one is not among once the worker of a failed try has been released.

Quiet effects keep `Trying`, so only the two tries themselves are left to look
at.

## Main definitions

* `Window`: The replay window is well formed.
* `OnWire`: No operation was sent by two commands, or often.
* `Settled`: The window remembers the history.
* `Trying`: A request is at work.

## Theorems

* `window_length`: A well-formed window has at most eight entries.
* `Trying.quiet`: Quiet effects keep what is known of a request at work.
* `dispatch_spec`: What dispatching an operation sends.
* `replay_contract`: The obligations of the supervisor's programs.
-/

namespace TinyRuntime

variable {V : Type}

/-! ## The window and the history -/

/-- The stored outcomes have distinct numbers in the window below `highest`. -/
structure Window (a : Actor V) : Prop where
  nodup : (a.replies.map Prod.fst).Nodup
  above : ∀ r ∈ a.replies, a.highest - REPLAY_WINDOW < r.1
  below : ∀ r ∈ a.replies, r.1 ≤ a.highest

theorem window_length {a : Actor V} (h : Window a) : a.replies.length ≤ REPLAY_WINDOW := by
  have hsub : (a.replies.map Prod.fst).toFinset ⊆
      Finset.Ioc (a.highest - REPLAY_WINDOW) a.highest := by
    intro k hk
    rcases List.mem_map.mp (List.mem_toFinset.mp hk) with ⟨r, hr, rfl⟩
    exact Finset.mem_Ioc.mpr ⟨h.above r hr, h.below r hr⟩
  calc a.replies.length
      = (a.replies.map Prod.fst).toFinset.card := by
        rw [List.toFinset_card_of_nodup h.nodup, List.length_map]
    _ ≤ (Finset.Ioc (a.highest - REPLAY_WINDOW) a.highest).card := Finset.card_le_card hsub
    _ ≤ REPLAY_WINDOW := by rw [Nat.card_Ioc]; omega

/-- Recording an attempted operation that lies in the window keeps it well
    formed. -/
theorem window_record {a : Actor V} (h : Window a) (request : WorkerRequest V)
    (result : WorkerOutcome V) (hin : a.highest - REPLAY_WINDOW < request.operation) :
    Window (Actor.record request result a) := by
  have hmem : ∀ r ∈ ((a.replies.filter fun r =>
      decide (max a.highest request.operation - REPLAY_WINDOW < r.1)).filter
        fun r => decide (r.1 ≠ request.operation)),
      r ∈ a.replies ∧ max a.highest request.operation - REPLAY_WINDOW < r.1 ∧
        r.1 ≠ request.operation := by
    intro r hr
    simp only [List.mem_filter, decide_eq_true_eq] at hr
    exact ⟨hr.1.1, hr.1.2, hr.2⟩
  refine ⟨?_, ?_, ?_⟩
  · simp only [Actor.record, List.map_cons, List.nodup_cons]
    refine ⟨?_, ?_⟩
    · intro hin
      rcases List.mem_map.mp hin with ⟨r, hr, heq⟩
      exact (hmem r hr).2.2 heq
    · exact h.nodup.sublist ((List.filter_sublist.trans List.filter_sublist).map _)
  · intro r hr
    rcases List.mem_cons.mp hr with rfl | hr
    · simp only [Actor.record]
      have hw : 0 < REPLAY_WINDOW := by decide
      omega
    · exact (hmem r hr).2.1
  · intro r hr
    rcases List.mem_cons.mp hr with rfl | hr
    · exact Nat.le_max_right _ _
    · exact Nat.le_trans (h.below r (hmem r hr).1) (Nat.le_max_left _ _)

/-- The history of frames. An id is used by one command, at most twice and to
    different processes, and only for an operation this command attempted. -/
structure OnWire (w : World V) : Prop where
  one : ∀ id, ∀ x ∈ sends id w.log, ∀ y ∈ sends id w.log, x.1 = y.1
  twice : ∀ id, (sends id w.log).length ≤ 2
  apart : ∀ id, ((sends id w.log).map Prod.snd).Nodup
  attempted : ∀ id, ∀ x ∈ sends id w.log,
    ∃ request, (x.1, request) ∈ attempts w.log ∧ id = toString request.operation
  once : ∀ x ∈ attempts w.log, ∀ y ∈ attempts w.log, x.2.operation = y.2.operation → x = y
  spawned : ∀ id, ∀ x ∈ sends id w.log, x.2 < w.fresh
  process : ∀ q, w.actor.process = some q → q < w.fresh

/-- The window remembers every attempted operation, with an outcome that `told`
    says its command was given. -/
structure Remembers (told : Nat → WorkerOutcome V → Prop) (w : World V) : Prop where
  wire : OnWire w
  window : Window w.actor
  remembered : ∀ x ∈ attempts w.log,
    x.2.operation ∈ w.actor.replies.map Prod.fst ∨
      x.2.operation ≤ w.actor.highest - REPLAY_WINDOW
  answered : ∀ r ∈ w.actor.replies,
    ∃ c, (c, r.2.1) ∈ attempts w.log ∧ r.2.1.operation = r.1 ∧ told c r.2.2

/-- What holds between two commands. -/
def Settled (w : World V) : Prop :=
  Remembers (fun c o => Event.replied c o ∈ w.log) w

/-- A request for an operation at work, relative to the state `w₀` it was taken
    in: whether it has been attempted and how often it may have been sent. -/
structure Trying (w₀ : World V) (request : WorkerRequest V) (attempted : Bool) (used : Nat)
    (w : World V) : Prop where
  highest : w.actor.highest = w₀.actor.highest
  replies : w.actor.replies = w₀.actor.replies
  commands : w.commands = w₀.commands
  replied : ∀ c o, Event.replied c o ∈ w.log ↔ Event.replied c o ∈ w₀.log
  tried : ∀ x, x ∈ attempts w.log ↔
    x ∈ attempts w₀.log ∨ attempted = true ∧ x = (w₀.commands, request)
  others : ∀ id, id ≠ toString request.operation → sends id w.log = sends id w₀.log
  own : ∀ x ∈ sends (toString request.operation) w.log, x.1 = w₀.commands
  unsent : attempted = false → sends (toString request.operation) w.log = []
  few : (sends (toString request.operation) w.log).length ≤ used
  apart : ((sends (toString request.operation) w.log).map Prod.snd).Nodup
  spawned : ∀ id, ∀ x ∈ sends id w.log, x.2 < w.fresh
  process : ∀ q, w.actor.process = some q → q < w.fresh

/-- The current process has not been sent the operation. -/
def Ahead (operation : Nat) (w : World V) : Prop :=
  ∀ q, w.actor.process = some q → ∀ x ∈ sends (toString operation) w.log, x.2 ≠ q

theorem Trying.quiet {w₀ w t : World V} {request : WorkerRequest V} {used : Nat} {attempted : Bool}
    (h : Trying w₀ request attempted used w) (hq : Quiet w t) :
    Trying w₀ request attempted used t where
  highest := hq.highest.trans h.highest
  replies := hq.replies.trans h.replies
  commands := hq.commands.trans h.commands
  replied c o := (hq.replied c o).trans (h.replied c o)
  tried x := by rw [hq.attempts]; exact h.tried x
  others id hid := (hq.sends id).trans (h.others id hid)
  own x hx := h.own x (hq.sends _ ▸ hx)
  unsent ha := (hq.sends _).trans (h.unsent ha)
  few := by rw [hq.sends]; exact h.few
  apart := by rw [hq.sends]; exact h.apart
  spawned id x hx := Nat.lt_of_lt_of_le (h.spawned id x (hq.sends id ▸ hx)) hq.fresh
  process q hp := by
    rcases hq.process q hp with h0 | ⟨_, hlt⟩
    · exact Nat.lt_of_lt_of_le (h.process q h0) hq.fresh
    · exact hlt

theorem ahead_quiet {w₀ w t : World V} {request : WorkerRequest V} {used : Nat} {attempted : Bool}
    (h : Trying w₀ request attempted used w) (ha : Ahead request.operation w) (hq : Quiet w t) :
    Ahead request.operation t := by
  intro q hp x hx
  rw [hq.sends] at hx
  rcases hq.process q hp with h0 | ⟨hge, _⟩
  · exact ha q h0 x hx
  · have hlt := h.spawned _ x hx
    omega

theorem Trying.weaken {w₀ w : World V} {request : WorkerRequest V} {used used' : Nat} {attempted : Bool}
    (h : Trying w₀ request attempted used w) (hu : used ≤ used') :
    Trying w₀ request attempted used' w :=
  { h with few := Nat.le_trans h.few hu }

theorem Trying.more {w₀ w : World V} {request : WorkerRequest V} {used : Nat} {attempted : Bool}
    (h : Trying w₀ request attempted used w) : Trying w₀ request attempted (used + 1) w :=
  { h with few := Nat.le_succ_of_le h.few }

/-- `attempted = true`. -/
theorem Trying.attempt {w₀ w : World V} {request : WorkerRequest V} {used : Nat} {attempted : Bool}
    (h : Trying w₀ request attempted used w) :
    Trying w₀ request true used (w.note (.attempted w.commands request)) where
  highest := h.highest
  replies := h.replies
  commands := h.commands
  replied c o := by
    simp only [World.note, List.mem_append, List.mem_singleton, reduceCtorEq, or_false]
    exact h.replied c o
  tried x := by
    simp only [World.note, attempts_append, List.mem_append, List.mem_singleton, h.tried,
      h.commands, true_and]
    constructor
    · rintro ((hx | ⟨_, hx⟩) | hx)
      · exact .inl hx
      · exact .inr hx
      · exact .inr hx
    · rintro (hx | hx)
      · exact .inl (.inl hx)
      · exact .inr hx
  others id hid := by
    simp only [World.note, sends_append, List.append_nil]
    exact h.others id hid
  own := by simpa only [World.note, sends_append, List.append_nil] using h.own
  unsent ha := by cases ha
  few := by simpa only [World.note, sends_append, List.append_nil] using h.few
  apart := by simpa only [World.note, sends_append, List.append_nil] using h.apart
  spawned := by simpa only [World.note, sends_append, List.append_nil] using h.spawned
  process := h.process

theorem Ahead.attempt {operation : Nat} {w : World V} {request : WorkerRequest V}
    (h : Ahead operation w) : Ahead operation (w.note (.attempted w.commands request)) := by
  intro q hq x hx
  simp only [World.note, sends_append, List.append_nil] at hx
  exact h q hq x hx

/-- The first poll of the write. -/
theorem Trying.send {w₀ w : World V} {request : WorkerRequest V} {used p : Nat}
    {frame : ServerRequest V}
    (h : Trying w₀ request true used w) (ha : Ahead request.operation w)
    (hp : w.actor.process = some p) (hid : frame.id = toString request.operation) :
    Trying w₀ request true (used + 1) (w.note (.sent w.commands p frame)) := by
  have hown : sends (toString request.operation) (w.note (.sent w.commands p frame)).log =
      sends (toString request.operation) w.log ++ [(w.commands, p)] := by
    simp only [World.note, sends_append, if_pos hid]
  refine { h with replied := ?_, tried := ?_, others := ?_, own := ?_, unsent := ?_
                  few := ?_, apart := ?_, spawned := ?_ }
  · intro c o
    simp only [World.note, List.mem_append, List.mem_singleton, reduceCtorEq, or_false]
    exact h.replied c o
  · intro x
    simpa only [World.note, attempts_append, List.append_nil] using h.tried x
  · intro id hne
    have hne' : frame.id ≠ id := fun heq => hne (heq ▸ hid)
    simp only [World.note, sends_append, if_neg hne', List.append_nil]
    exact h.others id hne
  · rw [hown]
    intro x hx
    rcases List.mem_append.mp hx with hx | hx
    · exact h.own x hx
    · rw [List.mem_singleton.mp hx]
      exact h.commands
  · exact fun hf => by cases hf
  · rw [hown, List.length_append, List.length_singleton]
    exact Nat.add_le_add_right h.few 1
  · rw [hown, List.map_append, List.nodup_append]
    refine ⟨h.apart, List.nodup_singleton _, ?_⟩
    intro q hq q' hq' heq
    rcases List.mem_map.mp hq with ⟨x, hx, rfl⟩
    rcases List.mem_map.mp hq' with ⟨y, hy, rfl⟩
    rw [List.mem_singleton.mp hy] at heq
    exact ha p hp x hx heq
  · intro id x hx
    by_cases hne : id = toString request.operation
    · rw [hne, hown] at hx
      rcases List.mem_append.mp hx with hx | hx
      · exact h.spawned _ x hx
      · rw [List.mem_singleton.mp hx]
        exact h.process p hp
    · have hne' : frame.id ≠ id := fun heq => hne (heq ▸ hid)
      simp only [World.note, sends_append, if_neg hne', List.append_nil] at hx
      exact h.spawned id x hx

/-! ## One request -/

/-- Some state of a request at work. -/
def AtWork (w₀ : World V) (request : WorkerRequest V) (w : World V) : Prop :=
  ∃ attempted used, used ≤ 2 ∧ Trying w₀ request attempted used w

/-- Writing the frame and waiting for the reply sends it once. -/
theorem request_sends {w₀ w : World V} {used p : Nat} (codec : Codec V)
    (request : WorkerRequest V) (h : Trying w₀ request true used w)
    (ha : Ahead request.operation w) (hp : w.actor.process = some p) :
    (Process.request codec p (Actor.wire request)).run.wp native
      (Prog.always (Trying w₀ request true (used + 1)))
      (fun _ t => Trying w₀ request true (used + 1) t) w := by
  unfold Process.request
  split
  · exact h.more
  · split
    · exact h.more
    · rw [Prog.wp_run_bind, wp_act]
      refine ⟨h.more, ?_⟩
      rintro _ t rfl
      have hsent : Trying w₀ request true (used + 1)
          (w.note (.sent w.commands p (Actor.wire request))) := h.send ha hp rfl
      refine tame_wp (fun w t hw hq => hw.quiet hq) ?_ hsent
      exact tame_run_bind (tame_attemptAs _ trivial) fun _ =>
        tame_run_bind (tame_attemptAs _ trivial) fun _ => Actor.tame_awaitReply _ _ _ _ _

theorem exchange_spec {w₀ w : World V} {attempted : Bool} {used p : Nat} (codec : Codec V)
    (request : WorkerRequest V) (deadline : Nat) (hu : used + 1 ≤ 2)
    (h : Trying w₀ request attempted used w) (ha : Ahead request.operation w)
    (hp : w.actor.process = some p) :
    (Actor.exchange codec request p deadline).wp native
      (Prog.always (AtWork w₀ request))
      (fun r t => Trying w₀ request (attempted || r.2) (used + 1) t) w := by
  rw [Actor.exchange, Prog.wp_bind, wp_native]
  refine ⟨⟨attempted, used, Nat.le_of_succ_le hu, h⟩, ?_⟩
  rintro stopped t rfl
  cases stopped with
  | true =>
      simp only [↓reduceIte, Prog.wp_pure, Bool.or_false]
      exact h.more
  | false =>
      simp only [Bool.false_eq_true, ↓reduceIte, Prog.wp_bind, wp_native]
      refine ⟨⟨attempted, used, Nat.le_of_succ_le hu, h⟩, ?_⟩
      rintro _ u rfl
      have htry := h.attempt
      have hquiet : ∀ w t, Trying w₀ request true (used + 1) w → Quiet w t →
          Trying w₀ request true (used + 1) t := fun _ _ hw hq => hw.quiet hq
      have hsends := request_sends codec request htry ha.attempt hp
      have htimed := wp_timeoutAt hquiet deadline hsends
      have hraced := wp_interrupted hquiet .stopped trivial (fun _ _ ht => ht) htimed
      refine Prog.wp_weaken _ (fun _ _ t ht => ⟨true, used + 1, hu, ht⟩) _ ?_
      refine Prog.wp_mono _ ?_ _ hraced
      rintro (_ | _ | r) v hv
      · simpa only [Prog.wp_pure, Bool.or_true] using hv
      · simpa only [Prog.wp_pure, Bool.or_true] using hv
      · simpa only [Prog.wp_pure, Bool.or_true] using hv

/-- The result of a state of a request at work. -/
theorem Trying.atWork {w₀ w : World V} {request : WorkerRequest V} {used : Nat}
    {attempted : Bool} (hu : used ≤ 2)
    (h : Trying w₀ request attempted used w) : AtWork w₀ request w :=
  ⟨attempted, used, hu, h⟩

/-- A failed try leaves no process behind when another one is allowed. -/
theorem afterFailure_spec {w₀ w : World V} {request : WorkerRequest V} {attempted : Bool} {used : Nat}
    (deadline : Nat) (reason : String) (hu : used ≤ 2)
    (h : Trying w₀ request attempted used w) :
    (Actor.afterFailure deadline reason).wp native (Prog.always (AtWork w₀ request))
      (fun o t => Trying w₀ request attempted used t ∧ (o = none → Ahead request.operation t)) w := by
  have hquiet : ∀ w t, Trying w₀ request attempted used w → Quiet w t →
      Trying w₀ request attempted used t := fun _ _ hw hq => hw.quiet hq
  refine Prog.wp_weaken _ (fun _ _ t (ht : Trying w₀ request attempted used t) =>
    ht.atWork hu) _ ?_
  rw [Actor.afterFailure, Prog.wp_bind]
  refine Prog.wp_mono _ ?_ _ (Actor.cleanup_quiet hquiet h)
  rintro (e | u) t ⟨ht, hr⟩
  · exact ⟨ht, fun ho => by cases ho⟩
  · have hahead : Ahead request.operation t := fun q hq => by
      rw [(hr rfl).process] at hq
      cases hq
    dsimp only
    rw [Prog.wp_bind, wp_native]
    refine ⟨ht, ?_⟩
    rintro stopped t rfl
    split
    · exact ⟨ht, fun _ => hahead⟩
    · rw [Prog.wp_bind, wp_native]
      refine ⟨ht, ?_⟩
      rintro now _ ⟨_, rfl⟩
      have htime : Quiet t { t with seen := now } := .of_eq rfl rfl rfl rfl rfl rfl rfl
      split
      · exact ⟨ht.quiet htime, fun _ => hahead⟩
      · exact ⟨ht.quiet htime, fun _ => hahead⟩

theorem tries_spec {w₀ : World V} (codec : Codec V) (request : WorkerRequest V)
    (deadline : Nat) (left : Nat) : ∀ (attempted : Bool) (reason : String) (w : World V),
    left ≤ 2 → Trying w₀ request attempted (2 - left) w →
    Ahead request.operation w →
    (Actor.tries codec request deadline left attempted reason).wp native
      (Prog.always (AtWork w₀ request))
      (fun r t => Trying w₀ request r.2 2 t) w := by
  induction left with
  | zero => exact fun attempted reason w _ h _ => h
  | succ left ih =>
      intro attempted reason w hleft h ha
      have hquiet : ∀ w t, Trying w₀ request attempted (2 - (left + 1)) w ∧
          Ahead request.operation w → Quiet w t →
          Trying w₀ request attempted (2 - (left + 1)) t ∧ Ahead request.operation t :=
        fun w t hw hq => ⟨hw.1.quiet hq, ahead_quiet hw.1 hw.2 hq⟩
      have hA : ∀ β (_ : Op V β) (t : World V), Trying w₀ request attempted (2 - (left + 1)) t ∧
          Ahead request.operation t → AtWork w₀ request t :=
        fun _ _ t ht => ht.1.atWork (by omega)
      rw [Actor.tries, Prog.wp_bind]
      -- The start may be cut anywhere, but it is quiet.
      have hstart := tame_wp hquiet (Actor.tame_timeoutAt deadline (Actor.tame_start codec)) ⟨h, ha⟩
      refine Prog.wp_mono _ ?_ _ (Prog.wp_weaken _ hA _ hstart)
      rintro (_ | started) t ⟨ht, hat⟩
      · rw [Prog.wp_bind]
        refine Prog.wp_mono _ ?_ _
          (Prog.wp_weaken _ hA _ (tame_wp hquiet Actor.tame_startTimedOut ⟨ht, hat⟩))
        exact fun ended u hu => hu.1.weaken (by omega)
      · dsimp only
        split
        · exact ht.weaken (by omega)
        · rw [Prog.wp_bind, wp_native]
          refine ⟨ht.atWork (by omega), ?_⟩
          rintro a u ⟨rfl, rfl⟩
          split
          · exact ht.weaken (by omega)
          · rename_i p hp
            rw [Prog.wp_bind]
            refine Prog.wp_mono _ ?_ _
              (exchange_spec codec request deadline (by omega) ht hat hp)
            rintro ⟨result, sent⟩ v hv
            have hv : Trying w₀ request (attempted || sent) (2 - left) v :=
              hv.weaken (by omega)
            dsimp only
            split
            · rename_i response _
              have hq : ∀ w t, Trying w₀ request (attempted || sent) (2 - left) w →
                  Quiet w t → Trying w₀ request (attempted || sent) (2 - left) t :=
                fun _ _ hw hq => hw.quiet hq
              have hAv : ∀ β (_ : Op V β) (t : World V),
                  Trying w₀ request (attempted || sent) (2 - left) t →
                    AtWork w₀ request t := fun _ _ _ ht => ht.atWork (by omega)
              rw [Prog.wp_bind]
              refine Prog.wp_mono _ ?_ _
                (Prog.wp_weaken _ hAv _ (tame_wp hq (Actor.tame_touch response) hv))
              exact fun _ x hx => hx.weaken (by omega)
            · rw [Prog.wp_bind]
              refine Prog.wp_mono _ ?_ _
                (afterFailure_spec deadline (Actor.failure result) (by omega) hv)
              rintro (_ | ended) x ⟨hx, hax⟩
              · exact ih _ _ x (by omega) hx (hax rfl)
              · exact hx.weaken (by omega)

theorem dispatch_spec {w₀ w : World V} (codec : Codec V) (request : WorkerRequest V)
    (deadline : Nat) (h : Trying w₀ request false 0 w)
    (ha : Ahead request.operation w) :
    (Actor.dispatch codec request deadline).wp native (Prog.always (AtWork w₀ request))
      (fun r t => Trying w₀ request r.2 2 t) w := by
  rw [Actor.dispatch, Prog.wp_bind, wp_native]
  refine ⟨h.atWork (by omega), ?_⟩
  rintro now t ⟨_, rfl⟩
  have hq : Quiet w { w with seen := now } := .of_eq rfl rfl rfl rfl rfl rfl rfl
  split
  · exact (h.quiet hq).weaken (by omega)
  · exact tries_spec codec request deadline 2 false _ _ (by omega) (h.quiet hq)
      (ahead_quiet h ha hq)

/-! ## Between requests -/

/-- No command has attempted the operation. -/
def Untried (w : World V) (operation : Nat) : Prop :=
  ∀ x ∈ attempts w.log, x.2.operation ≠ operation

/-- An operation in the window that is not stored has never been attempted. -/
theorem Remembers.unattempted {told : Nat → WorkerOutcome V → Prop} {w : World V}
    (h : Remembers told w) {operation : Nat}
    (hkey : operation ∉ w.actor.replies.map Prod.fst)
    (hin : w.actor.highest - REPLAY_WINDOW < operation) : Untried w operation := by
  intro x hx heq
  rcases h.remembered x hx with hk | hold
  · exact hkey (heq ▸ hk)
  · omega

theorem OnWire.unsent {w : World V} (h : OnWire w) {operation : Nat}
    (hun : Untried w operation) : sends (toString operation) w.log = [] := by
  rw [List.eq_nil_iff_forall_not_mem]
  intro x hx
  rcases h.attempted _ x hx with ⟨k, hk, hid⟩
  exact hun _ hk (Decimal.toString_injective hid).symm

/-- A request for an operation that was never attempted starts out at work. -/
theorem OnWire.trying {w : World V} (h : OnWire w) {request : WorkerRequest V}
    (hun : Untried w request.operation) : Trying w request false 0 w where
  highest := rfl
  replies := rfl
  commands := rfl
  replied _ _ := Iff.rfl
  tried x := ⟨.inl, fun hx => hx.elim id fun hf => by cases hf.1⟩
  others _ _ := rfl
  own x hx := by rw [h.unsent hun] at hx; cases hx
  unsent _ := h.unsent hun
  few := by rw [h.unsent hun]; exact Nat.le_refl 0
  apart := by rw [h.unsent hun]; exact List.nodup_nil
  spawned := h.spawned
  process := h.process

/-- The history of frames stays in order while such a request is at work. -/
theorem Trying.onWire {w₀ w : World V} {request : WorkerRequest V} {used : Nat}
    {attempted : Bool} (h₀ : OnWire w₀) (hun : Untried w₀ request.operation) (hu : used ≤ 2)
    (h : Trying w₀ request attempted used w) : OnWire w := by
  refine ⟨?_, ?_, ?_, ?_, ?_, h.spawned, h.process⟩
  · intro id x hx y hy
    by_cases hid : id = toString request.operation
    · rw [hid] at hx hy
      rw [h.own x hx, h.own y hy]
    · rw [h.others id hid] at hx hy
      exact h₀.one id x hx y hy
  · intro id
    by_cases hid : id = toString request.operation
    · rw [hid]
      exact Nat.le_trans h.few hu
    · rw [h.others id hid]
      exact h₀.twice id
  · intro id
    by_cases hid : id = toString request.operation
    · rw [hid]
      exact h.apart
    · rw [h.others id hid]
      exact h₀.apart id
  · intro id x hx
    by_cases hid : id = toString request.operation
    · rw [hid] at hx
      refine ⟨request, (h.tried _).mpr (.inr ⟨?_, ?_⟩), hid⟩
      · cases attempted with
        | true => rfl
        | false => rw [h.unsent rfl] at hx; cases hx
      · exact Prod.ext (h.own x hx) rfl
    · rw [h.others id hid] at hx
      rcases h₀.attempted id x hx with ⟨k, hk, hidk⟩
      exact ⟨k, (h.tried _).mpr (.inl hk), hidk⟩
  · intro x hx y hy hxy
    rcases (h.tried x).mp hx with hx | ⟨_, rfl⟩
    · rcases (h.tried y).mp hy with hy | ⟨_, rfl⟩
      · exact h₀.once x hx y hy hxy
      · exact absurd hxy (hun x hx)
    · rcases (h.tried y).mp hy with hy | ⟨_, rfl⟩
      · exact absurd hxy.symm (hun y hy)
      · rfl

/-- What holds in every state of a supervisor. -/
def Safe (w : World V) : Prop :=
  OnWire w ∧ Window w.actor

theorem AtWork.safe {w₀ w : World V} {request : WorkerRequest V} (h₀ : Safe w₀)
    (hun : Untried w₀ request.operation) (h : AtWork w₀ request w) : Safe w := by
  rcases h with ⟨attempted, used, hu, h⟩
  refine ⟨h.onWire h₀.1 hun hu, ?_, ?_, ?_⟩
  · rw [h.replies]
    exact h₀.2.nodup
  · rw [h.replies, h.highest]
    exact h₀.2.above
  · rw [h.replies, h.highest]
    exact h₀.2.below

/-- A dispatch that attempted nothing leaves the window as it was. -/
theorem Trying.unchanged {told : Nat → WorkerOutcome V → Prop} {w₀ w : World V}
    {request : WorkerRequest V} (h₀ : Remembers told w₀)
    (hun : Untried w₀ request.operation) (h : Trying w₀ request false 2 w) :
    Remembers told w := by
  have hatt : ∀ x, x ∈ attempts w.log ↔ x ∈ attempts w₀.log := by
    intro x
    rw [h.tried]
    exact ⟨fun hx => hx.elim id fun hf => (Bool.noConfusion hf.1), .inl⟩
  have hsafe := (h.atWork (Nat.le_refl 2)).safe ⟨h₀.wire, h₀.window⟩ hun
  refine ⟨hsafe.1, hsafe.2, ?_, ?_⟩
  · intro x hx
    rw [h.replies, h.highest]
    exact h₀.remembered x ((hatt x).mp hx)
  · intro r hr
    rw [h.replies] at hr
    rcases h₀.answered r hr with ⟨c, hc, ht⟩
    exact ⟨c, (hatt _).mpr hc, ht⟩

/-- One that attempted the operation is recorded. -/
theorem Trying.recorded {told : Nat → WorkerOutcome V → Prop} {w₀ w : World V}
    {request : WorkerRequest V} (h : Trying w₀ request true 2 w)
    (result : WorkerOutcome V) (h₀ : Remembers told w₀) (hun : Untried w₀ request.operation)
    (hin : w₀.actor.highest - REPLAY_WINDOW < request.operation) :
    Remembers (fun c o => told c o ∨ c = w₀.commands ∧ o = result)
      { w with actor := Actor.record request result w.actor } := by
  have hsafe := (h.atWork (Nat.le_refl 2)).safe ⟨h₀.wire, h₀.window⟩ hun
  have hin' : w.actor.highest - REPLAY_WINDOW < request.operation := h.highest ▸ hin
  refine ⟨?_, window_record hsafe.2 request result hin', ?_, ?_⟩
  · exact { hsafe.1 with }
  · intro x hx
    rcases (h.tried x).mp hx with hx | ⟨_, rfl⟩
    · -- A stored number that leaves the window lies below the new one.
      have hhigh : w.actor.highest = w₀.actor.highest := h.highest
      simp only [Actor.record, List.map_cons, List.mem_cons]
      rcases h₀.remembered x hx with hk | hold
      · rcases List.mem_map.mp hk with ⟨r, hr, hrx⟩
        by_cases hlow :
            max w.actor.highest request.operation - REPLAY_WINDOW < x.2.operation
        · refine .inl (.inr (List.mem_map.mpr ⟨r, ?_, hrx⟩))
          simp only [List.mem_filter, decide_eq_true_eq, h.replies, hrx]
          exact ⟨⟨hr, hlow⟩, hun x hx⟩
        · exact .inr (Nat.le_of_not_lt hlow)
      · exact .inr (by omega)
    · exact .inl (List.mem_cons_self ..)
  · intro r hr
    rcases List.mem_cons.mp hr with rfl | hr
    · exact ⟨w₀.commands, (h.tried _).mpr (.inr ⟨rfl, rfl⟩), rfl, .inr ⟨rfl, rfl⟩⟩
    · have hr₀ : r ∈ w₀.actor.replies := by
        rw [← h.replies]
        exact List.mem_of_mem_filter (List.mem_of_mem_filter hr)
      rcases h₀.answered r hr₀ with ⟨c, hc, hop, ht⟩
      exact ⟨c, (h.tried _).mpr (.inl hc), hop, .inl ht⟩

/-- What `request` answers without dispatching, at the time `now`. -/
def Replayed [BEq V] (w : World V) (request : WorkerRequest V) (deadline now : Nat)
    (o : WorkerOutcome V) : Prop :=
  (deadline ≤ now → o = outcome .failed (some "request_timeout")) ∧
  (now < deadline → request.operation ≤ w.actor.highest - REPLAY_WINDOW →
    o = outcome .expired none) ∧
  (now < deadline → w.actor.highest - REPLAY_WINDOW < request.operation →
    ∃ previous result, (request.operation, previous, result) ∈ w.actor.replies ∧
      o = if previous.method == request.method && previous.params == request.params then result
        else outcome .invalid (some "operation_conflict"))

theorem not_mem_of_lookup {α β : Type} [BEq α] [LawfulBEq α] {l : List (α × β)} {a : α}
    (h : l.lookup a = none) : a ∉ l.map Prod.fst := by
  intro hin
  rcases List.mem_map.mp hin with ⟨r, hr, rfl⟩
  exact absurd (List.lookup_eq_none_iff.mp h r hr) (by simp only [bne_self_eq_false, Bool.false_eq_true, not_false_eq_true])

/-- Nothing has been done since but reading the clock. -/
def OnlyRead (w t : World V) : Prop :=
  t = { w with seen := t.seen }

/-- A request for an operation that was attempted only reads the clock. -/
theorem request_replayed [BEq V] (codec : Codec V) (request : WorkerRequest V) (deadline : Nat)
    {w : World V} (h : Settled w) (hun : ¬ Untried w request.operation) :
    (Actor.request codec request deadline).wp native
      (Prog.always (OnlyRead w))
      (fun o t => OnlyRead w t ∧ Replayed w request deadline t.seen o) w := by
  rw [Actor.request, Prog.wp_bind, wp_native]
  refine ⟨rfl, ?_⟩
  rintro now t ⟨_, rfl⟩
  split
  · rename_i hlate
    exact ⟨rfl, fun _ => rfl, fun hlt => absurd hlate (Nat.not_le_of_lt hlt),
      fun hlt => absurd hlate (Nat.not_le_of_lt hlt)⟩
  · rename_i hlate
    rw [Prog.wp_bind, wp_native]
    refine ⟨rfl, ?_⟩
    rintro a t ⟨rfl, rfl⟩
    dsimp only
    split
    · rename_i previous result hl
      have hmem := mem_of_lookup hl
      have habove := h.window.above _ hmem
      have hstored : ∀ o, o = (if previous.method == request.method &&
          previous.params == request.params then result
          else outcome .invalid (some "operation_conflict")) →
          Replayed w request deadline now o := fun o ho =>
        ⟨fun hle => absurd hle hlate, fun _ hold => absurd habove (Nat.not_lt_of_le hold),
          fun _ _ => ⟨previous, result, hmem, ho⟩⟩
      split
      · rename_i heq
        exact ⟨rfl, hstored _ (if_pos heq).symm⟩
      · rename_i hne
        exact ⟨rfl, hstored _ (if_neg hne).symm⟩
    · rename_i hl
      have hkey := not_mem_of_lookup hl
      split
      · rename_i hold
        refine ⟨rfl, fun hle => absurd hle hlate, fun _ _ => rfl, fun _ hin => ?_⟩
        omega
      · rename_i hin
        exact absurd (h.unattempted hkey (Nat.lt_of_not_le hin)) hun

theorem Remembers.mono {told told' : Nat → WorkerOutcome V → Prop} {w : World V}
    (h : Remembers told w) (ht : ∀ c o, told c o → told' c o) : Remembers told' w where
  wire := h.wire
  window := h.window
  remembered := h.remembered
  answered r hr := by
    rcases h.answered r hr with ⟨c, hc, hop, hto⟩
    exact ⟨c, hc, hop, ht c _ hto⟩

/-- The window has moved only if the operation has been attempted. -/
def Unmoved (w : World V) (operation : Nat) (t : World V) : Prop :=
  Untried t operation →
    t.actor.highest = w.actor.highest ∧ t.actor.replies = w.actor.replies

/-- A request for any other operation dispatches it or refuses it. -/
theorem request_dispatched [BEq V] (codec : Codec V) (request : WorkerRequest V)
    (deadline : Nat) {w : World V} (h : Settled w) (hun : Untried w request.operation) :
    (Actor.request codec request deadline).wp native
      (Prog.always fun t => Safe t ∧ Unmoved w request.operation t)
      (fun o t =>
        Remembers (fun c r => Event.replied c r ∈ w.log ∨ c = w.commands ∧ r = o) t ∧
        (∀ c r, Event.replied c r ∈ t.log ↔ Event.replied c r ∈ w.log) ∧
        t.commands = w.commands ∧ Unmoved w request.operation t) w := by
  have hunmoved : ∀ t : World V, t.actor = w.actor → Unmoved w request.operation t :=
    fun t ht _ => by rw [ht]; exact ⟨rfl, rfl⟩
  rw [Actor.request, Prog.wp_bind, wp_native]
  refine ⟨⟨⟨h.wire, h.window⟩, hunmoved w rfl⟩, ?_⟩
  rintro now t ⟨_, rfl⟩
  have h₁ : Settled { w with seen := now } := ⟨{ h.wire with }, h.window, h.remembered, h.answered⟩
  have hsafe : Safe { w with seen := now } := ⟨h₁.wire, h₁.window⟩
  have hsame : ∀ o : WorkerOutcome V,
      Remembers (fun c r => Event.replied c r ∈ w.log ∨ c = w.commands ∧ r = o)
        { w with seen := now } := fun o => h₁.mono fun c r => .inl
  split
  · exact ⟨hsame _, fun _ _ => Iff.rfl, rfl, hunmoved _ rfl⟩
  · rw [Prog.wp_bind, wp_native]
    refine ⟨⟨hsafe, hunmoved _ rfl⟩, ?_⟩
    rintro a t ⟨rfl, rfl⟩
    dsimp only
    split
    · rename_i previous result hl
      rcases h.answered _ (mem_of_lookup hl) with ⟨c, hc, hop, _⟩
      exact absurd hop (hun _ hc)
    · split
      · exact ⟨hsame _, fun _ _ => Iff.rfl, rfl, hunmoved _ rfl⟩
      · rename_i hl hin
        have htry : Trying { w with seen := now } request false 0
            { w with seen := now } := h₁.wire.trying hun
        have hahead : Ahead request.operation { w with seen := now } := fun q _ x hx => by
          rw [h₁.wire.unsent hun] at hx
          cases hx
        have hA : ∀ β (_ : Op V β) (t : World V), AtWork { w with seen := now } request t →
            Safe t ∧ Unmoved w request.operation t := by
          rintro _ _ t ⟨attempted, used, hu, ht⟩
          exact ⟨(ht.atWork hu).safe hsafe hun, fun _ => ⟨ht.highest, ht.replies⟩⟩
        rw [Prog.wp_bind]
        refine Prog.wp_mono _ ?_ _
          (Prog.wp_weaken _ hA _ (dispatch_spec codec request deadline htry hahead))
        rintro ⟨result, attempted⟩ u hu
        cases attempted with
        | false =>
            exact ⟨(hu.unchanged h₁ hun).mono fun c r => .inl, hu.replied, hu.commands,
              fun _ => ⟨hu.highest, hu.replies⟩⟩
        | true =>
            have hrec := hu.recorded result h₁ hun (Nat.lt_of_not_le hin)
            simp only [↓reduceIte, Prog.wp_bind, wp_native]
            refine ⟨hA _ Op.self u (hu.atWork (by omega)), ?_⟩
            rintro _ v rfl
            refine ⟨hrec, hu.replied, hu.commands, fun hnone => ?_⟩
            exact absurd rfl (hnone _ ((hu.tried _).mpr (.inr ⟨rfl, rfl⟩)))

/-! ## All runs -/

theorem OnWire.quiet {w t : World V} (h : OnWire w) (hq : Quiet w t) : OnWire t where
  one id x hx y hy := by
    rw [hq.sends] at hx hy
    exact h.one id x hx y hy
  twice id := by rw [hq.sends]; exact h.twice id
  apart id := by rw [hq.sends]; exact h.apart id
  attempted id x hx := by
    rw [hq.sends] at hx
    rw [hq.attempts]
    exact h.attempted id x hx
  once := by rw [hq.attempts]; exact h.once
  spawned id x hx := by
    rw [hq.sends] at hx
    exact Nat.lt_of_lt_of_le (h.spawned id x hx) hq.fresh
  process q hp := by
    rcases hq.process q hp with h0 | ⟨_, hlt⟩
    · exact Nat.lt_of_lt_of_le (h.process q h0) hq.fresh
    · exact hlt

theorem Window.quiet {w t : World V} (h : Window w.actor) (hq : Quiet w t) : Window t.actor where
  nodup := by rw [hq.replies]; exact h.nodup
  above := by rw [hq.replies, hq.highest]; exact h.above
  below := by rw [hq.replies, hq.highest]; exact h.below

theorem safe_quiet (w t : World V) (h : Safe w) (hq : Quiet w t) : Safe t :=
  ⟨h.1.quiet hq, h.2.quiet hq⟩

theorem settled_quiet (w t : World V) (h : Settled w) (hq : Quiet w t) : Settled t where
  wire := h.wire.quiet hq
  window := h.window.quiet hq
  remembered := by rw [hq.attempts, hq.replies, hq.highest]; exact h.remembered
  answered r hr := by
    rw [hq.replies] at hr
    rcases h.answered r hr with ⟨c, hc, hop, ho⟩
    rw [hq.attempts]
    exact ⟨c, hc, hop, (hq.replied c _).mpr ho⟩

/-- A tame program run between two commands. -/
theorem tame_settled {α : Type} {p : Prog (Op V) α} (hp : Tame p) {w : World V}
    (h : Settled w) : p.wp native (Prog.always Safe) (fun _ t => Settled t) w := by
  have hA : ∀ β (_ : Op V β) (t : World V), Settled t → Safe t :=
    fun _ _ t ht => ⟨ht.wire, ht.window⟩
  exact Prog.wp_weaken _ hA _ (tame_wp settled_quiet hp h)

/-- Answering a command enters the answer in the history. -/
theorem settled_reply {w : World V} {o : WorkerOutcome V}
    (h : Remembers (fun c r => Event.replied c r ∈ w.log ∨ c = w.commands ∧ r = o) w) :
    (Prog.op (.reply o)).wp native (Prog.always Safe) (fun _ t => Settled t) w := by
  have hsends : ∀ id, sends id (w.note (.replied w.commands o)).log = sends id w.log := by
    intro id
    simp only [World.note, sends_append, List.append_nil]
  have hatt : attempts (w.note (.replied w.commands o)).log = attempts w.log := by
    simp only [World.note, attempts_append, List.append_nil]
  rw [wp_native]
  refine ⟨⟨h.wire, h.window⟩, ?_⟩
  rintro _ t rfl
  have hwire : OnWire (w.note (.replied w.commands o)) :=
    { one := fun id => by rw [hsends]; exact h.wire.one id
      twice := fun id => by rw [hsends]; exact h.wire.twice id
      apart := fun id => by rw [hsends]; exact h.wire.apart id
      attempted := fun id => by rw [hsends, hatt]; exact h.wire.attempted id
      once := by rw [hatt]; exact h.wire.once
      spawned := fun id => by rw [hsends]; exact h.wire.spawned id
      process := h.wire.process }
  refine ⟨hwire, h.window, ?_, ?_⟩
  · rw [hatt]
    exact h.remembered
  · intro r hr
    rcases h.answered r hr with ⟨c, hc, hop, ho⟩
    refine ⟨c, hatt ▸ hc, hop, ?_⟩
    rcases ho with ho | ⟨rfl, rfl⟩
    · exact List.mem_append_left _ ho
    · exact List.mem_append_right _ (List.mem_singleton_self _)

theorem settled_new (plan : WorkerPlan) (cached : Option Cached) (now : Nat) :
    Settled (@Supervisor.new V plan cached now).world := by
  refine ⟨⟨?_, ?_, ?_, ?_, ?_, ?_, ?_⟩, ⟨List.nodup_nil, ?_, ?_⟩, ?_, ?_⟩
  · exact fun _ _ hx => by cases hx
  · exact fun _ => Nat.zero_le 2
  · exact fun _ => List.nodup_nil
  · exact fun _ _ hx => by cases hx
  · exact fun _ hx => by cases hx
  · exact fun _ _ hx => by cases hx
  · exact fun _ hp => by cases hp
  · exact fun _ hr => by cases hr
  · exact fun _ hr => by cases hr
  · exact fun _ hx => by cases hx
  · exact fun _ hr => by cases hr

/-- The closing loop touches neither the history nor the window. -/
theorem safe_closePass {w : World V} (h : Safe w) :
    Actor.closePass.wp native (Prog.always Safe) (fun _ t => Safe t) w := by
  have hstate : ∀ (t : World V) (s : State V), Safe t → Safe { t with state := s } :=
    fun t s ht => ⟨{ ht.1 with }, ht.2⟩
  rw [Actor.closePass, Prog.wp_bind]
  refine Prog.wp_mono _ ?_ _ (tame_wp safe_quiet Actor.tame_release h)
  intro released t ht
  split
  · rw [Prog.wp_bind, wp_native]
    refine ⟨ht, ?_⟩
    rintro _ u rfl
    exact hstate t _ ht
  · rw [Prog.wp_bind, wp_native]
    refine ⟨ht, ?_⟩
    rintro _ u rfl
    rw [Prog.wp_bind, wp_native]
    refine ⟨hstate t _ ht, ?_⟩
    rintro _ v rfl
    exact hstate t _ ht

/-- The obligations of the supervisor's programs. -/
theorem replay_contract [BEq V] (codec : Codec V) (plan : WorkerPlan)
    (cached : Option Cached) :
    Contract codec plan cached (Prog.always Safe) Safe Settled Safe where
  asserted _ _ _ h := h
  settled w h := ⟨h.wire, h.window⟩
  closed _ h := h
  prepare now := tame_settled Actor.tame_servePrepare (settled_new plan cached now)
  tick prepared w h := tame_settled (Actor.tame_supervise prepared) h
  command command w h := by
    have h : Settled { w with commands := w.commands + 1 } :=
      ⟨{ h.wire with }, h.window, h.remembered, h.answered⟩
    cases command with
    | start =>
        rw [Actor.serveCommand, Prog.wp_bind]
        refine Prog.wp_mono _ ?_ _ (tame_settled (Actor.tame_start codec) h)
        exact fun o t ht => settled_reply (ht.mono fun _ _ => .inl)
    | request request deadline replyClosed =>
        rw [Actor.serveCommand]
        split
        · exact h
        · rw [Prog.wp_bind]
          by_cases hun : Untried w request.operation
          · refine Prog.wp_mono _ ?_ _ (Prog.wp_weaken _ (fun _ _ t ht => ht.1) _
              (request_dispatched codec request deadline h hun))
            rintro o t ⟨ht, hlog, hc, _⟩
            refine settled_reply (ht.mono fun c r hr => ?_)
            rw [hlog, hc]
            exact hr
          · have hseen : ∀ t : World V,
                OnlyRead { w with commands := w.commands + 1 } t → Settled t := by
              intro t ht
              rw [ht]
              exact ⟨{ h.wire with }, h.window, h.remembered, h.answered⟩
            have hA : ∀ β (_ : Op V β) (t : World V),
                OnlyRead { w with commands := w.commands + 1 } t → Safe t :=
              fun _ _ t ht => ⟨(hseen t ht).wire, (hseen t ht).window⟩
            refine Prog.wp_mono _ ?_ _
              (Prog.wp_weaken _ hA _ (request_replayed codec request deadline h hun))
            exact fun o t ht => settled_reply ((hseen t ht.1).mono fun _ _ => .inl)
  close w h := by
    refine Prog.wp_mono _ ?_ _ (safe_closePass h)
    intro b t ht
    cases b <;> exact ht

/-- **Replay safety.** In every reachable state of a supervisor:

    Every id on the wire was sent by one command, at most twice and to different
    processes, for an operation this command attempted; and no two commands
    attempt one operation. The stored outcomes are at most eight, with numbers
    in the window, and each is what the command that attempted it answered.

    When the supervisor takes a request for an operation that was attempted, no
    effect of it sends, attempts, or moves the window, and the answer is the
    stored outcome, a conflict, `Expired` or a timeout. When it takes a request
    for another operation, the window moves only if the operation is attempted. -/
theorem replay_safe [BEq V] (codec : Codec V) (plan : WorkerPlan) (cached : Option Cached)
    {s : Supervisor V} (h : Transition.Reachable (supervisor codec plan cached) s) :
    (∀ id, ∀ x ∈ sends id s.world.log, ∀ y ∈ sends id s.world.log, x.1 = y.1) ∧
    (∀ id, (sends id s.world.log).length ≤ 2) ∧
    (∀ id, ((sends id s.world.log).map Prod.snd).Nodup) ∧
    (∀ id, ∀ x ∈ sends id s.world.log,
      ∃ request, (x.1, request) ∈ attempts s.world.log ∧ id = toString request.operation) ∧
    (∀ x ∈ attempts s.world.log, ∀ y ∈ attempts s.world.log,
      x.2.operation = y.2.operation → x = y) ∧
    s.world.actor.replies.length ≤ REPLAY_WINDOW ∧
    (∀ r ∈ s.world.actor.replies,
      s.world.actor.highest - REPLAY_WINDOW < r.1 ∧ r.1 ≤ s.world.actor.highest) ∧
    ∀ prepared, s.life = .idle prepared →
      (∀ r ∈ s.world.actor.replies, ∃ c, (c, r.2.1) ∈ attempts s.world.log ∧
        r.2.1.operation = r.1 ∧ Event.replied c r.2.2 ∈ s.world.log) ∧
      ∀ request deadline q w,
        Prog.Reaches native (Actor.request codec request deadline)
          { s.world with commands := s.world.commands + 1 } q w →
        (¬ Untried s.world request.operation →
          w.log = s.world.log ∧ w.actor = s.world.actor ∧
          ∀ o, q = .done o → Replayed s.world request deadline w.seen o) ∧
        (Untried w request.operation →
          w.actor.highest = s.world.actor.highest ∧
          w.actor.replies = s.world.actor.replies) := by
  have hholds := (replay_contract codec plan cached).reachable h
  rcases (replay_contract codec plan cached).always hholds with ⟨hwire, hwindow⟩
  refine ⟨hwire.one, hwire.twice, hwire.apart, hwire.attempted, hwire.once,
    window_length hwindow, fun r hr => ⟨hwindow.above r hr, hwindow.below r hr⟩, ?_⟩
  intro prepared hidle
  have hset : Settled s.world := by
    simpa only [Supervisor.Holds, hidle] using hholds
  refine ⟨hset.answered, ?_⟩
  intro request deadline q w hreach
  have htaken : Settled { s.world with commands := s.world.commands + 1 } :=
    ⟨{ hset.wire with }, hset.window, hset.remembered, hset.answered⟩
  by_cases hun : Untried s.world request.operation
  · refine ⟨fun hn => absurd hun hn, ?_⟩
    have hrest := Prog.wp_reaches
      (request_dispatched codec request deadline htaken hun) hreach
    exact Prog.wp_point (fun _ _ _ ht => ht.2) (fun _ _ ht => ht.2.2.2) hrest
  · have hrest := Prog.wp_reaches (request_replayed codec request deadline htaken hun) hreach
    have hw : OnlyRead { s.world with commands := s.world.commands + 1 } w :=
      Prog.wp_point (fun _ _ _ ht => ht) (fun _ _ ht => ht.1) hrest
    unfold OnlyRead at hw
    refine ⟨fun _ => ⟨by rw [hw], by rw [hw], ?_⟩, fun _ => ?_⟩
    · rintro o rfl
      exact hrest.2
    · rw [hw]
      exact ⟨rfl, rfl⟩

/-! ## A run -/

def fifth : WorkerRequest Unit :=
  { handle := "h", operation := 5, method := "embed", params := () }

open Move Choice in
/-- A worker is prepared, then started for operation 5, which it answers. -/
def answeredRun : List (Move Unit) :=
  [perform pass, perform pass, perform (time 0), perform (result (.ok ())),
    perform (flag false), perform pass, perform pass, settle,
    take (.request fifth 9 false), perform (time 1), perform pass, perform (time 1),
    -- The start, up to the spawn.
    perform (flag false), perform pass, perform pass, perform (time 1), perform pass,
    perform pass, perform pass, perform (result (.ok ())),
    -- The handshake, under two timers and the stop flag.
    perform pass, perform (flag false), perform (time 1), perform pass, perform (flag false),
    perform pass, perform (frame (.ok [])),
    perform (flag false), perform (time 2), perform pass, perform pass, perform pass,
    -- The frame and its reply.
    perform pass, perform (flag false), perform pass, perform pass,
    perform pass, perform (flag false), perform (result (.ok ())),
    perform pass, perform (flag false), perform (result (.ok ())),
    perform pass, perform (flag false), perform (frame (.ok [])),
    perform (time 3), perform pass, perform pass, perform pass, settle]

def answeringCodec : Codec Unit where
  encode _ := .ok [0]
  decodeResponse _ := some { id := some "5", ok := true, result := none, error := none }
  decodeReady _ :=
    some { ready := true, protocol := some PROTOCOL_VERSION, backends := [], error := none }

def plainPlan : WorkerPlan :=
  { source := ""
    command := { executable := "worker", args := [], env := [], timeoutMs := none }
    preparation := [], backends := [], startupTimeoutMs := 10, requestTimeoutMs := 10
    idleBackend := none, idleTimeoutMs := 0 }

/-- That run is one of the supervisor's. -/
theorem answeredRun_reachable : ∃ s : Supervisor Unit,
    Transition.Reachable (supervisor answeringCodec plainPlan none) s ∧
      sends "5" s.world.log = [(1, 0)] ∧ attempts s.world.log = [(1, fifth)] ∧
      s.world.actor.process = some 0 ∧ s.life = .idle (outcome .complete none) := by
  have hrun : (Transition.play (Supervisor.move answeringCodec) (.new plainPlan none 0)
      answeredRun).map (fun s => (sends "5" s.world.log, attempts s.world.log,
        s.world.actor.process, s.life)) =
        some ([(1, 0)], [(1, fifth)], some 0, .idle (outcome .complete none)) := rfl
  rcases Option.map_eq_some_iff.mp hrun with ⟨s, hs, hfacts⟩
  simp only [Prod.mk.injEq] at hfacts
  exact ⟨s, Transition.reachable_play (fun _ _ _ h => h) (Transition.reachable_init ⟨0, rfl⟩) hs,
    hfacts⟩

/-- After that run, asking for operation 5 again sends nothing. -/
theorem replay_safe_repeated : ∃ s : Supervisor Unit, sends "5" s.world.log = [(1, 0)] ∧
    ∀ (params : Unit) (deadline : Nat) (q : Prog (Op Unit) (WorkerOutcome Unit))
      (w : World Unit), Prog.Reaches native (Actor.request answeringCodec
        { handle := "h", operation := 5, method := "other", params := params } deadline)
        { s.world with commands := s.world.commands + 1 } q w → w.log = s.world.log := by
  rcases answeredRun_reachable with ⟨s, hreach, hsends, hattempts, _, hlife⟩
  have htried : ¬ Untried s.world 5 := fun h =>
    h (1, fifth) (by rw [hattempts]; exact List.mem_singleton_self _) rfl
  rcases replay_safe answeringCodec plainPlan none hreach with ⟨_, _, _, _, _, _, _, hrest⟩
  refine ⟨s, hsends, fun params deadline q w hw => ?_⟩
  exact (((hrest _ hlife).2 _ deadline q w hw).1 htried).1

end TinyRuntime
