import TinyRuntime.Lib.Attempt
import TinyRuntime.Worker.Child

/-!
# Reaping

Cleaning up after a child, any number of times. A cleanup may be dropped wherever it
waits, and a wait may fail or its task be aborted.

All that the cleanups have to go by are two fields. The invariant ties them to the
waits so far: every wait but the last has failed, and the fields say how the last one
stands. So a child is in one place, a second wait is started only after a failed one,
and an aborted wait is never mistaken for a successful one.

## Main definitions

* `Native.Kind`, `Native.cleanup`: What is cleaned up.
* `Cleaning`, `cleaning`: One cleanup after another.
* `Place`, `Owner.At`: Where a child is.
* `Owner.Stage`: The invariant.
* `Cleaning.Safe`: What is asked of every state.

## Theorems

* `stage_respond`: Every effect keeps the invariant.
* `reap_acknowledges`, `cleanup_acknowledges`: What a cleanup returns is so.
* `sound_cleaning`: The invariant of every run.
* `cleaning_safe`: Reaping never loses or falsely acknowledges a child.
-/

namespace TinyRuntime

open Prog (act)
open Transition (System Reachable)

/-- What owns a child. -/
inductive Native.Kind
  | process
  | preparation

/-- The cleanup of each. -/
def Native.cleanup : Native.Kind → Prog ChildOp (Except String Unit)
  | .process => Native.processCleanup.run
  | .preparation => Native.preparationCleanup.run

/-- A cleanup that may be dropped where it waits. -/
def cleanups (kind : Native.Kind) : Attempts ChildOp Owner ChildChoice Empty (Except String Unit)
    where
  handler := owning
  call _ := some (Native.cleanup kind)
  suspends := ChildOp.suspends
  finish _ s := s
  outside _ never := nomatch never

/-- An owner and the cleanup at work. -/
abbrev Cleaning := Attempt ChildOp Owner (Except String Unit)

abbrev CleaningStep := AttemptStep ChildChoice Empty

/-- Before the first cleanup. -/
structure Owner.Fresh (s : Owner) : Prop where
  reaping : s.reaping = none
  waits : s.waits = []

/-- Cleanups one after another. `had` says whether there is a child at first. -/
def cleaning (kind : Native.Kind) (had : Bool) : System Cleaning CleaningStep :=
  (cleanups kind).system fun s => s.Fresh ∧ s.child = had

/-- Where a child can be. -/
inductive Place
  | child
  | waiting
  | lost
  | reaped

/-- The child is there. -/
def Owner.At (s : Owner) : Place → Prop
  | .child => s.child = true
  | .waiting => s.reaping = some .waiting
  | .lost => s.reaping = some .lost
  | .reaped => .succeeded ∈ s.waits

/-! ## The invariant -/

/-- What is left to wait for once a wait has come this far. -/
def Wait.reaper : Wait → Option Reaper
  | .running => some .waiting
  | .aborted => some .lost
  | .succeeded | .failed => none

/-- The fields agree with the waits so far. -/
inductive Owner.Stage (had : Bool) (s : Owner) : Prop
  | never (had_none : had = false) (child : s.child = false) (reaping : s.reaping = none)
      (waits : s.waits = [])
  | child (had_one : had = true) (child : s.child = true) (reaping : s.reaping = none)
      (failed : ∀ w ∈ s.waits, w = .failed)
  /-- The last wait has taken the child and has not given it back. -/
  | handed (w : Wait) (ws : List Wait) (had_one : had = true) (child : s.child = false)
      (waits : s.waits = w :: ws) (failed : ∀ v ∈ ws, v = .failed) (last : w ≠ .failed)
      (reaping : s.reaping = w.reaper)

/-- There is nothing to reap. -/
def Owner.Settled (had : Bool) (s : Owner) : Prop :=
  had = false ∨ s.At .reaped

/-- What `reap` reports is so: there is nothing to reap, or there still is. -/
def Owner.Reports (had : Bool) (r : Except String Unit) (s : Owner) : Prop :=
  match r with
  | .ok _ => s.Settled had
  | .error _ => s.At .child ∨ s.At .lost

section Stage

variable {had : Bool} {s t : Owner}

theorem stage_fresh (h : s.Fresh) : s.Stage s.child := by
  cases hchild : s.child with
  | false => exact .never rfl hchild h.reaping h.waits
  | true => exact .child rfl hchild h.reaping (by rw [h.waits]; exact fun w hw => nomatch hw)

theorem launch_child (hchild : s.child = true) (hreaping : s.reaping = none) :
    s.launch = { s with
      child := false, reaping := some .waiting, waits := .running :: s.waits
      kills := s.kills + 1 } := by
  rw [Owner.launch, if_pos ⟨hreaping, hchild⟩]

theorem launch_waiting {r : Reaper} (h : s.reaping = some r) : s.launch = s := by
  rw [Owner.launch, if_neg fun hs => Option.some_ne_none r (h.symm.trans hs.1)]

theorem launch_childless (h : s.child = false) : s.launch = s := by
  rw [Owner.launch, if_neg fun hs => Bool.false_ne_true (h.symm.trans hs.2)]

theorem stage_launch (h : s.Stage had) : s.launch.Stage had := by
  cases h with
  | never hhad hchild hreaping hwaits =>
      rw [launch_childless hchild]
      exact .never hhad hchild hreaping hwaits
  | child hhad hchild hreaping hfailed =>
      rw [launch_child hchild hreaping]
      exact .handed .running s.waits hhad rfl rfl hfailed nofun rfl
  | handed w ws hhad hchild hwaits hfailed hlast hreaping =>
      rw [launch_childless hchild]
      exact .handed w ws hhad hchild hwaits hfailed hlast hreaping

/-- After `launch` the child has been handed over. -/
theorem launch_gives (h : s.Stage had) : s.launch.child = false := by
  cases h with
  | never _ hchild _ _ | handed _ _ _ hchild _ _ _ _ =>
      rw [launch_childless hchild]
      exact hchild
  | child _ hchild hreaping _ =>
      rw [launch_child hchild hreaping]

/-- Joining keeps the invariant, and reports what is so. -/
theorem stage_join {ended : Wait} {r : Except String Unit} (h : s.Stage had)
    (hjoin : s.join ended = some (r, t)) :
    t.Stage had ∧ (s.child = false → t.Reports had r) := by
  cases h with
  | never hhad hchild hreaping hwaits =>
      rw [Owner.join, hreaping] at hjoin
      cases hjoin
      exact ⟨.never hhad hchild hreaping hwaits, fun _ => .inl hhad⟩
  | child hhad hchild hreaping hfailed =>
      rw [Owner.join, hreaping] at hjoin
      cases hjoin
      exact ⟨.child hhad hchild hreaping hfailed, fun h => nomatch hchild.symm.trans h⟩
  | handed w ws hhad hchild hwaits hfailed hlast hreaping =>
      rw [Owner.join, hreaping] at hjoin
      cases w with
      | failed => exact absurd rfl hlast
      | succeeded =>
          cases hjoin
          have hmem : .succeeded ∈ s.waits := hwaits ▸ List.mem_cons_self
          exact ⟨.handed .succeeded ws hhad hchild hwaits hfailed hlast hreaping,
            fun _ => .inr hmem⟩
      | aborted =>
          cases hjoin
          exact ⟨.handed .aborted ws hhad hchild hwaits hfailed hlast hreaping,
            fun _ => .inr hreaping⟩
      | running =>
          -- The task ends here, and the wait it made is the last one.
          rw [hwaits] at hjoin
          cases ended with
          | running => cases hjoin
          | succeeded =>
              cases hjoin
              exact ⟨.handed .succeeded ws hhad hchild rfl hfailed nofun rfl,
                fun _ => .inr List.mem_cons_self⟩
          | failed =>
              cases hjoin
              refine ⟨.child hhad rfl rfl fun w hw => ?_, fun _ => .inl rfl⟩
              rcases List.mem_cons.mp hw with rfl | hmem
              · rfl
              · exact hfailed w hmem
          | aborted =>
              cases hjoin
              exact ⟨.handed .aborted ws hhad hchild rfl hfailed nofun rfl, fun _ => .inr rfl⟩

/-- What is joined is the last wait, and no other. -/
theorem join_waiting {ended : Wait} {r : Except String Unit} (h : s.At .waiting)
    (hjoin : s.join ended = some (r, t)) : t.waits = ended :: s.waits.tail := by
  rw [Owner.join, h] at hjoin
  cases ended <;> cases hjoin <;> rfl

theorem join_settled {ended : Wait} {r : Except String Unit} (h : ¬ s.At .waiting)
    (hjoin : s.join ended = some (r, t)) : t = s := by
  rw [Owner.join] at hjoin
  cases hreaping : s.reaping with
  | none =>
      rw [hreaping] at hjoin
      cases hjoin
      rfl
  | some reaper =>
      rw [hreaping] at hjoin
      cases reaper with
      | waiting => exact absurd hreaping h
      | lost =>
          cases hjoin
          rfl

/-- There is a wait to join. -/
theorem waits_waiting (h : s.Stage had) (hat : s.At .waiting) : ∃ ws, s.waits = .running :: ws := by
  cases h with
  | never _ _ hreaping _ | child _ _ hreaping _ => cases hreaping.symm.trans hat
  | handed w ws _ _ hwaits _ _ hreaping =>
      cases w with
      | running => exact ⟨ws, hwaits⟩
      | _ => cases hreaping.symm.trans hat

/-- The invariant reads three fields. -/
theorem stage_of_eq (h : s.Stage had) (hchild : t.child = s.child)
    (hreaping : t.reaping = s.reaping) (hwaits : t.waits = s.waits) : t.Stage had := by
  cases h with
  | never hhad hc hr hw => exact .never hhad (hchild ▸ hc) (hreaping ▸ hr) (hwaits ▸ hw)
  | child hhad hc hr hf => exact .child hhad (hchild ▸ hc) (hreaping ▸ hr) (hwaits ▸ hf)
  | handed w ws hhad hc hw hf hl hr =>
      exact .handed w ws hhad (hchild ▸ hc) (hwaits ▸ hw) hf hl (hreaping ▸ hr)

end Stage

/-! ## Effects -/

section Effects

variable {had : Bool} {β : Type} {e : ChildOp β} {s t : Owner} {c : ChildChoice} {b : β}

/-- What is not part of `reap`. -/
def ChildOp.Aside : ∀ β, ChildOp β → Prop
  | _, .launch | _, .join => False
  | _, _ => True

/-- Nothing else touches the child or its waits. -/
theorem aside_respond (haside : ChildOp.Aside β e) (h : owning.respond e s c = some (b, t)) :
    t.child = s.child ∧ t.reaping = s.reaping ∧ t.waits = s.waits := by
  change e.respond s c = some (b, t) at h
  cases e with
  | launch | join => cases haside
  | abortStderr | joinStderr | dropStderr | take | dropPipes | fetchAdd | owns | startKill =>
      cases h
      exact ⟨rfl, rfl, rfl⟩
  | read side => rcases c with _ | _ | _ | (_ | n) | _ <;> cases h <;> exact ⟨rfl, rfl, rfl⟩
  | turn | stopped | expired =>
      cases c <;> cases h
      exact ⟨rfl, rfl, rfl⟩
  | wait => rcases c with _ | _ | _ | _ | (_ | success) <;> cases h <;> exact ⟨rfl, rfl, rfl⟩
  | pending => cases h

/-- An effect is the start of a wait, its end, or about something else. -/
inductive Owner.Moved (s t : Owner) : Prop
  | launched (h : t = s.launch)
  | joined (ended : Wait) (r : Except String Unit) (h : s.join ended = some (r, t))
  | aside (child : t.child = s.child) (reaping : t.reaping = s.reaping) (waits : t.waits = s.waits)

theorem moved_respond (h : owning.respond e s c = some (b, t)) : s.Moved t := by
  cases e with
  | launch =>
      cases h
      exact .launched rfl
  | join =>
      cases c with
      | ended ended => exact .joined ended b h
      | _ => cases h
  | _ =>
      have haside := aside_respond (by trivial) h
      exact .aside haside.1 haside.2.1 haside.2.2

theorem stage_moved (h : s.Stage had) (hmoved : s.Moved t) : t.Stage had := by
  cases hmoved with
  | launched heq => exact heq ▸ stage_launch h
  | joined ended r hjoin => exact (stage_join h hjoin).1
  | aside hchild hreaping hwaits => exact stage_of_eq h hchild hreaping hwaits

/-- Every effect keeps the invariant. -/
theorem stage_respond (h : s.Stage had) (hr : owning.respond e s c = some (b, t)) :
    t.Stage had :=
  stage_moved h (moved_respond hr)

/-- A second wait is started only when all before it have failed. -/
theorem waits_moved (h : s.Stage had) (hmoved : s.Moved t)
    (hmore : s.waits.length < t.waits.length) : ∀ w ∈ s.waits, w = .failed := by
  cases hmoved with
  | launched heq =>
      cases h with
      | never hhad hchild hreaping hwaits =>
          rw [heq, launch_childless hchild] at hmore
          exact absurd hmore (lt_irrefl _)
      | child hhad hchild hreaping hfailed => exact hfailed
      | handed w ws hhad hchild hwaits hfailed hlast hreaping =>
          rw [heq, launch_childless hchild] at hmore
          exact absurd hmore (lt_irrefl _)
  | joined ended r hjoin =>
      by_cases hat : s.At .waiting
      · rcases waits_waiting h hat with ⟨ws, hws⟩
        rw [join_waiting hat hjoin, hws] at hmore
        exact absurd hmore (lt_irrefl _)
      · rw [join_settled hat hjoin] at hmore
        exact absurd hmore (lt_irrefl _)
  | aside hchild hreaping hwaits =>
      rw [hwaits] at hmore
      exact absurd hmore (lt_irrefl _)

/-- A lost child stays lost. -/
theorem lost_moved (h : s.At .lost) (hmoved : s.Moved t) : t.At .lost := by
  cases hmoved with
  | launched heq =>
      rw [heq, launch_waiting h]
      exact h
  | joined ended r hjoin =>
      rw [Owner.join, h] at hjoin
      cases hjoin
      exact h
  | aside hchild hreaping hwaits => exact hreaping.trans h

end Effects

/-! ## Programs -/

section Programs

variable {had : Bool} {s : Owner}

/-- What is asserted at every effect of a cleanup. -/
def Owner.staged (had : Bool) : ∀ β, ChildOp β → Owner → Prop :=
  Prog.always (Owner.Stage had)

/-- What a cleanup returns with. -/
def Owner.Acknowledges (had : Bool) (r : Except String Unit) (s : Owner) : Prop :=
  s.Stage had ∧ s.Reports had r

/-- What `reap` returns is so. -/
theorem reap_acknowledges (h : s.Stage had) :
    Native.reap.run.wp owning (Owner.staged had) (Owner.Acknowledges had) s := by
  rw [Native.reap, Prog.wp_run_bind, Prog.wp_act, Prog.wp_op]
  refine ⟨h, fun c _ t hlaunch => ?_⟩
  cases hlaunch
  rw [Prog.wp_attempt, Prog.wp_op]
  refine ⟨stage_launch h, fun c r t hr => ?_⟩
  change ChildOp.join.respond s.launch c = some (r, t) at hr
  cases c with
  | ended ended =>
      have hjoin := stage_join (stage_launch h) hr
      exact ⟨hjoin.1, hjoin.2 (launch_gives h)⟩
  | _ => cases hr

/-- The rest of a cleanup does not touch what there is to reap. -/
theorem acknowledges_aside {p : Prog ChildOp (Except String Unit)} (hp : p.Uses ChildOp.Aside)
    (hreturns : p.Returns (· = .ok ())) (h : s.Acknowledges had (.ok ())) :
    p.wp owning (Owner.staged had) (Owner.Acknowledges had) s := by
  have hkeep : ∀ β (e : ChildOp β) s c b t, ChildOp.Aside β e →
      s.Acknowledges had (.ok ()) → owning.respond e s c = some (b, t) →
      t.Acknowledges had (.ok ()) := by
    intro β e s c b t haside hs hr
    refine ⟨stage_respond hs.1 hr, hs.2.imp_right fun hreaped => ?_⟩
    rw [Owner.At, (aside_respond haside hr).2.2]
    exact hreaped
  have hwp := Prog.wp_uses (fun s => s.Acknowledges had (.ok ())) hkeep p s hp h
  refine Prog.wp_mono p (fun r t ht => ?_) s (Prog.wp_and_returns p hreturns s
    (Prog.wp_weaken p (fun _ _ _ hs => And.left hs) s hwp))
  rw [ht.1]
  exact ht.2

theorem uses_act {α : Type} {e : ChildOp α} (h : ChildOp.Aside α e) :
    (act e : ExceptT String (Prog ChildOp) α).run.Uses ChildOp.Aside :=
  Prog.uses_run_lift ((Prog.uses_op e).mpr h)

/-- So is what a cleanup returns. -/
theorem cleanup_acknowledges (kind : Native.Kind) (h : s.Stage had) :
    (Native.cleanup kind).wp owning (Owner.staged had) (Owner.Acknowledges had) s := by
  cases kind with
  | process =>
      change Native.processCleanup.run.wp _ _ _ _
      rw [Native.processCleanup, Prog.wp_run_bind]
      refine Prog.wp_mono _ (fun r t hr => ?_) s (reap_acknowledges h)
      cases r with
      | error reason => exact hr
      | ok _ =>
          refine acknowledges_aside (Prog.uses_run_bind (uses_act (by trivial)) fun aborts => ?_)
            (fun aborts => ?_) hr
          · cases aborts with
            | false => exact uses_act (by trivial)
            | true =>
                exact Prog.uses_run_bind (uses_act (by trivial)) fun _ => uses_act (by trivial)
          · cases aborts with
            | false => exact fun _ => rfl
            | true => exact fun _ _ => rfl
  | preparation =>
      change Native.preparationCleanup.run.wp _ _ _ _
      rw [Native.preparationCleanup, Prog.wp_run_bind, Prog.wp_run_lift]
      refine Prog.wp_mono _ (fun r t hr => ?_) s (reap_acknowledges h)
      cases r with
      | error reason => exact hr
      | ok _ => exact acknowledges_aside (uses_act (by trivial)) (fun _ => rfl) hr

end Programs

/-! ## Runs -/

section Runs

variable {kind : Native.Kind} {had : Bool} {s t : Cleaning} {e : CleaningStep}

theorem moved_advance {p q : Prog ChildOp (Except String Unit)} {o o' : Owner} {c : ChildChoice}
    (h : p.advance owning o c = some (q, o')) : o.Moved o' := by
  cases p with
  | done a => cases h
  | perform e k =>
      rw [Prog.advance] at h
      split at h
      · cases h
      · rename_i b t hr
        cases h
        exact moved_respond hr

/-- Every step moves the owner by one effect, or not at all. -/
theorem moved_step (h : (cleanups kind).step s e = some t) : s.state.Moved t.state := by
  cases Attempts.steps_of_step h with
  | call _ _ _ heq | finish _ _ heq | cancel _ _ _ heq =>
      rw [heq]
      exact .aside rfl rfl rfl
  | perform c p q _ _ hadvance => exact moved_advance hadvance
  | outside o => nomatch o

/-- The invariant of every run. -/
theorem sound_cleaning (h : Reachable (cleaning kind had) s) :
    (cleanups kind).Sound (Owner.Stage had) (Owner.staged had) (Owner.Acknowledges had) s := by
  refine Attempts.sound_reachable ?_ ?_ ?_ ?_ ?_ ?_ h
  · exact fun s₀ h₀ => h₀.2 ▸ stage_fresh h₀.1
  · intro s p hs hp
    cases hp
    exact cleanup_acknowledges kind hs
  · exact fun _ _ hq => hq.1
  · exact fun _ _ _ _ ha => ha
  · exact fun _ o => nomatch o
  · exact fun _ _ o => nomatch o

theorem stage_reachable (h : Reachable (cleaning kind had) s) : s.state.Stage had := by
  have hsound := sound_cleaning h
  cases hrunning : s.running with
  | none => exact hsound.idle hrunning
  | some p =>
      exact Prog.wp_point (fun _ _ _ ha => ha) (fun _ _ hq => hq.1) (hsound.running p hrunning)

end Runs

/-! ## The places -/

/-- A child is in exactly one place. -/
theorem place_unique {s : Owner} (h : s.Stage true) : ∃! p, s.At p := by
  cases h with
  | never hhad => cases hhad
  | child _ hchild hreaping hfailed =>
      refine ⟨.child, hchild, fun p hp => ?_⟩
      cases p with
      | child => rfl
      | waiting | lost => cases hreaping.symm.trans hp
      | reaped => cases hfailed _ hp
  | handed w ws _ hchild hwaits hfailed hlast hreaping =>
      have hno : ¬ s.At .child := fun h => Bool.false_ne_true (hchild.symm.trans h)
      have hreaped : s.At .reaped → w = .succeeded := by
        intro hmem
        rw [Owner.At, hwaits] at hmem
        rcases List.mem_cons.mp hmem with heq | hmem'
        · exact heq.symm
        · cases hfailed _ hmem'
      cases w with
      | failed => exact absurd rfl hlast
      | running =>
          refine ⟨.waiting, hreaping, fun p hp => ?_⟩
          cases p with
          | child => exact absurd hp hno
          | waiting => rfl
          | lost => cases hreaping.symm.trans hp
          | reaped => cases hreaped hp
      | aborted =>
          refine ⟨.lost, hreaping, fun p hp => ?_⟩
          cases p with
          | child => exact absurd hp hno
          | waiting => cases hreaping.symm.trans hp
          | lost => rfl
          | reaped => cases hreaped hp
      | succeeded =>
          have hmem : .succeeded ∈ s.waits := hwaits ▸ List.mem_cons_self
          refine ⟨.reaped, hmem, fun p hp => ?_⟩
          cases p with
          | child => exact absurd hp hno
          | waiting | lost => cases hreaping.symm.trans hp
          | reaped => rfl

theorem child_reaping {had : Bool} {s : Owner} (h : s.Stage had) (hat : s.At .child) :
    s.reaping = none := by
  cases h with
  | never _ _ hreaping _ | child _ _ hreaping _ => exact hreaping
  | handed _ _ _ hchild _ _ _ _ => cases hchild.symm.trans hat

theorem lost_had {had : Bool} {s : Owner} (h : s.Stage had) (hat : s.At .lost) : had = true := by
  cases h with
  | never _ _ hreaping _ => cases hreaping.symm.trans hat
  | child hhad _ _ _ | handed _ _ hhad _ _ _ _ _ => exact hhad

/-- A wait that has failed gives the child back. -/
theorem failed_gives {had : Bool} {s t : Owner} (h : s.Stage had) (hat : s.At .waiting)
    (hmoved : s.Moved t) (hfailed : t.waits.head? = some .failed) : t.At .child := by
  rcases waits_waiting h hat with ⟨ws, hws⟩
  cases hmoved with
  | launched heq =>
      rw [heq, launch_waiting hat, hws] at hfailed
      cases hfailed
  | joined ended r hjoin =>
      rw [join_waiting hat hjoin] at hfailed
      cases hfailed
      rw [Owner.join, hat] at hjoin
      cases hjoin
      rfl
  | aside hchild hreaping hwaits =>
      rw [hwaits, hws] at hfailed
      cases hfailed

/-- A lost child stays lost. -/
theorem lost_run {kind : Native.Kind} {had : Bool} {s t : Cleaning} {es : List CleaningStep}
    (hlost : s.state.At .lost) (hrun : Transition.Run (cleaning kind had) s es t) : t.state.At .lost := by
  induction hrun with
  | refl => exact hlost
  | snoc _ hstep ih => exact lost_moved ih (moved_step hstep)

/-- A cleanup begins with `launch` and then joins. -/
theorem cleanup_begins (kind : Native.Kind) :
    ∃ k, Native.cleanup kind = .perform .launch fun _ => .perform .join k := by
  cases kind with
  | process => exact ⟨_, rfl⟩
  | preparation => exact ⟨_, rfl⟩

/-- The next cleanup from a state without one: its first effect. -/
theorem call_launches {kind : Native.Kind} {s t u : Cleaning} {c : ChildChoice}
    (hcall : (cleanups kind).step s .call = some t)
    (hfirst : (cleanups kind).step t (.perform c) = some u) :
    u.state = s.state.launch ∧ ∃ k, u.running = some (.perform .join k) := by
  rcases cleanup_begins kind with ⟨k, hk⟩
  cases Attempts.steps_of_step hcall with
  | call p _ hmade hafter =>
      cases hmade
      rw [hafter, hk] at hfirst
      cases hfirst
      exact ⟨rfl, k, rfl⟩

/-! ## The claim on reaping -/

/-- What is asked of every state. `had` says whether there is a child at first. -/
structure Cleaning.Safe (kind : Native.Kind) (had : Bool) (s : Cleaning) : Prop where
  /-- A child is in exactly one place. -/
  place : had = true → ∃! p, s.state.At p
  /-- `Ok` is returned only if there never was a child or it has been reaped. -/
  acknowledged : s.running = some (.done (.ok ())) → had = false ∨ s.state.At .reaped
  /-- A wait that fails puts the child back. -/
  failed : ∀ e t, (cleaning kind had).step s e t → s.state.At .waiting →
    t.state.waits.head? = some .failed → t.state.At .child
  /-- With the child back, the next cleanup kills and waits again. -/
  again : s.state.At .child → ∀ c t u, (cleaning kind had).step s .call t →
    (cleaning kind had).step t (.perform c) u → u.state.At .waiting ∧
      u.state.kills = s.state.kills + 1 ∧ u.state.waits = .running :: s.state.waits
  /-- A cleanup that is dropped changes nothing. -/
  cancelled : ∀ t, (cleaning kind had).step s .cancel t → t.state = s.state
  /-- No second wait is started unless those before it have failed. -/
  single : ∀ e t, (cleaning kind had).step s e t → s.state.waits.length < t.state.waits.length →
    ∀ w ∈ s.state.waits, w = .failed
  /-- While there is a wait, the next cleanup joins it. -/
  joins : s.state.At .waiting → ∀ c t u ended v, (cleaning kind had).step s .call t →
    (cleaning kind had).step t (.perform c) u →
    (cleaning kind had).step u (.perform (.ended ended)) v →
      u.state = s.state ∧ v.state.waits = ended :: s.state.waits.tail
  /-- Once the child is lost, no cleanup returns `Ok`. -/
  lost : s.state.At .lost → ∀ es t, Transition.Run (cleaning kind had) s es t →
    t.state.At .lost ∧ t.running ≠ some (.done (.ok ()))

/-- Reaping never loses or falsely acknowledges a child. -/
theorem cleaning_safe {kind : Native.Kind} {had : Bool} {s : Cleaning}
    (h : Reachable (cleaning kind had) s) : s.Safe kind had := by
  have hstage := stage_reachable h
  have hok : ∀ {t : Cleaning}, Reachable (cleaning kind had) t →
      t.running = some (.done (.ok ())) → t.state.Settled had :=
    fun ht hdone => ((sound_cleaning ht).running _ hdone).2
  refine ⟨?_, hok h, ?_, ?_, ?_, ?_, ?_, ?_⟩
  · rintro rfl
    exact place_unique hstage
  · exact fun e t hstep hat hfailed => failed_gives hstage hat (moved_step hstep) hfailed
  · intro hat c t u hcall hfirst
    rw [(call_launches hcall hfirst).1, launch_child hat (child_reaping hstage hat)]
    exact ⟨rfl, rfl, rfl⟩
  · intro t hstep
    cases Attempts.steps_of_step hstep with
    | cancel _ _ _ heq => rw [heq]
  · exact fun e t hstep hmore => waits_moved hstage (moved_step hstep) hmore
  · intro hat c t u ended v hcall hfirst hjoin
    rcases call_launches hcall hfirst with ⟨hu, k, hk⟩
    rw [launch_waiting hat] at hu
    cases Attempts.steps_of_step hjoin with
    | perform _ p q hp _ hadvance =>
        cases hk.symm.trans hp
        rw [Prog.advance, hu] at hadvance
        split at hadvance
        · cases hadvance
        · rename_i r o hr
          cases hadvance
          exact ⟨hu, join_waiting hat hr⟩
  · intro hat es t hrun
    have hlost := lost_run hat hrun
    refine ⟨hlost, fun hdone => ?_⟩
    have ht := Transition.reachable_run h hrun
    have hhad := lost_had (stage_reachable ht) hlost
    rcases hok ht hdone with hnone | hreaped
    · exact Bool.false_ne_true (hnone.symm.trans hhad)
    · cases (place_unique (hhad ▸ stage_reachable ht)).unique hlost hreaped

/-- A wait that fails, and a cleanup that is dropped while the next one runs. -/
theorem cleaning_safe_retried :
    Cleaning.Safe .process true
      { state := { Owner.spawned fun _ => .nil with
          child := false, reaping := some .waiting, waits := [.running, .failed], kills := 2 }
        running := none } := by
  let start : Cleaning := { state := Owner.spawned fun _ => .nil, running := none }
  have hinit : (cleaning .process true).init start := ⟨rfl, ⟨rfl, rfl⟩, rfl⟩
  have hplay : Transition.play (cleanups .process).step start
      [.call, .perform .pass, .perform (.ended .failed), .finish, .call, .perform .pass,
        .cancel] = some _ := rfl
  exact cleaning_safe
    (Transition.reachable_play (fun _ _ _ h => h) (Transition.reachable_init hinit) hplay)

end TinyRuntime
