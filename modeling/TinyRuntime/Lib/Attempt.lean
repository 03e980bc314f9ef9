import TinyRuntime.Lib.Program
import TinyRuntime.Lib.Transition

/-!
# Repeated Attempts

A call that is made again and again on one state, one call at a time. A call that
suspends may be dropped there, and others may change the state at any moment.

`sound_reachable` is the rule for every state a run reaches: an invariant that holds
between two calls, and a weakest precondition that each call meets when it is made.
What others do has to keep both.

A weakest precondition speaks of the steps of one call. Where others act between
them, they act before an effect is answered (`contended`). Then what others do keeps
a weakest precondition if it keeps its conditions, and that is the rule
`sound_contended`.

## Main definitions

* `Attempts`: The call, and what others do.
* `Attempt`: The state and the call at work.
* `Attempts.system`: The runs.
* `Attempts.Sound`: The invariant of a run.
* `Attempts.contended`, `Attempts.amid`: Others act before every effect.

## Theorems

* `steps_of_step`: What a step does.
* `sound_step`, `sound_reachable`: The rule.
* `wp_contended`: One effect where others act.
* `sound_contended`: The rule where others act.
-/

universe u v w

/-- A call that can be repeated. -/
structure Attempts (E : Type → Type) (σ : Type u) (χ : Type v) (ω : Type w) (α : Type) where
  handler : Handler E σ χ
  /-- The call that can be made in a state, if any. -/
  call : σ → Option (Prog E α)
  /-- Where it can be dropped. -/
  suspends : ∀ β, E β → Bool
  /-- What is done with what it returns. -/
  finish : α → σ → σ
  /-- What others do. -/
  outside : σ → ω → Option σ

/-- A state and the call at work. -/
structure Attempt (E : Type → Type) (σ : Type u) (α : Type) where
  state : σ
  running : Option (Prog E α)

/-- What can happen next. -/
inductive AttemptStep (χ : Type v) (ω : Type w)
  | call
  | perform (c : χ)
  | finish
  /-- The call is dropped. -/
  | cancel
  | outside (o : ω)

namespace Attempts

open Transition (System Run Reachable)

variable {E : Type → Type} {σ : Type u} {χ : Type v} {ω : Type w} {α : Type}

/-- One step. -/
def step (P : Attempts E σ χ ω α) (s : Attempt E σ α) : AttemptStep χ ω → Option (Attempt E σ α)
  | .call =>
      match s.running with
      | none => (P.call s.state).map fun p => { s with running := some p }
      | some _ => none
  | .perform c =>
      s.running.bind fun p => (p.advance P.handler s.state c).map fun r =>
        { state := r.2, running := some r.1 }
  | .finish =>
      match s.running with
      | some (.done a) => some { state := P.finish a s.state, running := none }
      | _ => none
  | .cancel =>
      match s.running with
      | some p => if p.next P.suspends then some { s with running := none } else none
      | none => none
  | .outside o => (P.outside s.state o).map fun t => { s with state := t }

/-- The runs from a kind of state. -/
def system (P : Attempts E σ χ ω α) (init : σ → Prop) :
    System (Attempt E σ α) (AttemptStep χ ω) where
  init s := s.running = none ∧ init s.state
  step s e t := P.step s e = some t

/-- What a step does. -/
inductive Steps (P : Attempts E σ χ ω α) (s t : Attempt E σ α) : AttemptStep χ ω → Prop
  | call (p : Prog E α) (idle : s.running = none) (made : P.call s.state = some p)
      (after : t = { s with running := some p }) : Steps P s t .call
  | perform (c : χ) (p q : Prog E α) (running : s.running = some p) (rest : t.running = some q)
      (advance : p.advance P.handler s.state c = some (q, t.state)) : Steps P s t (.perform c)
  | finish (a : α) (running : s.running = some (.done a))
      (after : t = { state := P.finish a s.state, running := none }) : Steps P s t .finish
  | cancel (p : Prog E α) (running : s.running = some p) (suspends : p.next P.suspends = true)
      (after : t = { s with running := none }) : Steps P s t .cancel
  | outside (o : ω) (change : P.outside s.state o = some t.state)
      (running : t.running = s.running) : Steps P s t (.outside o)

variable {P : Attempts E σ χ ω α} {s t : Attempt E σ α} {e : AttemptStep χ ω}

theorem steps_of_step (h : P.step s e = some t) : P.Steps s t e := by
  cases e with
  | call =>
      rw [step] at h
      split at h
      · rename_i hidle
        rcases Option.map_eq_some_iff.mp h with ⟨p, hp, rfl⟩
        exact .call p hidle hp rfl
      · cases h
  | perform c =>
      rcases Option.bind_eq_some_iff.mp h with ⟨p, hp, hrest⟩
      rcases Option.map_eq_some_iff.mp hrest with ⟨⟨q, u⟩, hadvance, rfl⟩
      exact .perform c p q hp rfl hadvance
  | finish =>
      rw [step] at h
      split at h
      · rename_i a hdone
        exact .finish a hdone (Option.some.inj h).symm
      · cases h
  | cancel =>
      rw [step] at h
      split at h
      · rename_i p hp
        split at h
        · rename_i hsuspends
          exact .cancel p hp hsuspends (Option.some.inj h).symm
        · cases h
      · cases h
  | outside o =>
      rcases Option.map_eq_some_iff.mp h with ⟨u, hu, rfl⟩
      exact .outside o hu rfl

/-- Between two calls `C` holds, and a call at work is on its way to `Q`. -/
structure Sound (P : Attempts E σ χ ω α) (C : σ → Prop) (A : ∀ β, E β → σ → Prop)
    (Q : α → σ → Prop) (s : Attempt E σ α) : Prop where
  idle : s.running = none → C s.state
  running : ∀ p, s.running = some p → p.wp P.handler A Q s.state

section Rule

variable {C : σ → Prop} {A : ∀ β, E β → σ → Prop} {Q : α → σ → Prop}

theorem sound_step (hcall : ∀ s p, C s → P.call s = some p → p.wp P.handler A Q s)
    (hfinish : ∀ a s, Q a s → C (P.finish a s))
    (hcancel : ∀ β (e : E β) s, P.suspends β e = true → A β e s → C s)
    (hidle : ∀ s o t, C s → P.outside s o = some t → C t)
    (houtside : ∀ (p : Prog E α) s o t, p.wp P.handler A Q s → P.outside s o = some t →
      p.wp P.handler A Q t)
    (hs : P.Sound C A Q s) (h : P.step s e = some t) : P.Sound C A Q t := by
  cases steps_of_step h with
  | call p hnone hmade hafter =>
      subst hafter
      refine ⟨nofun, fun q hq => ?_⟩
      cases hq
      exact hcall _ _ (hs.idle hnone) hmade
  | perform c p q hp hrest hadvance =>
      refine ⟨fun hnone => ?_, fun q' hq => ?_⟩
      · cases hrest.symm.trans hnone
      · cases hrest.symm.trans hq
        exact Prog.wp_step hadvance (hs.running p hp)
  | finish a hdone hafter =>
      subst hafter
      exact ⟨fun _ => hfinish a _ (hs.running _ hdone), nofun⟩
  | cancel p hp hsuspends hafter =>
      subst hafter
      refine ⟨fun _ => ?_, nofun⟩
      cases p with
      | done a => cases hsuspends
      | perform e k => exact hcancel _ e _ hsuspends (hs.running _ hp).1
  | outside o hchange hrunning =>
      refine ⟨fun hnone => hidle _ o _ (hs.idle (hrunning ▸ hnone)) hchange, fun q hq => ?_⟩
      exact houtside q _ o _ (hs.running q (hrunning ▸ hq)) hchange

/-- The rule for every reachable state. -/
theorem sound_reachable {init : σ → Prop} (hinit : ∀ s, init s → C s)
    (hcall : ∀ s p, C s → P.call s = some p → p.wp P.handler A Q s)
    (hfinish : ∀ a s, Q a s → C (P.finish a s))
    (hcancel : ∀ β (e : E β) s, P.suspends β e = true → A β e s → C s)
    (hidle : ∀ s o t, C s → P.outside s o = some t → C t)
    (houtside : ∀ (p : Prog E α) s o t, p.wp P.handler A Q s → P.outside s o = some t →
      p.wp P.handler A Q t)
    (h : Reachable (P.system init) s) : P.Sound C A Q s := by
  refine Transition.invariant (P.Sound C A Q) ?_
    (fun _ _ _ _ hs hstep => sound_step hcall hfinish hcancel hidle houtside hs hstep) h
  intro s₀ h₀
  refine ⟨fun _ => hinit _ h₀.2, fun p hp => ?_⟩
  cases h₀.1.symm.trans hp

end Rule

/-! ## Where others act -/

/-- The answers where others have acted before. -/
def contended (P : Attempts E σ χ ω α) : Handler E σ (List ω × χ) where
  respond e s c := (c.1.foldlM P.outside s).bind fun t => P.handler.respond e t c.2

/-- The same call where others act before every effect of it as well. -/
def amid (P : Attempts E σ χ ω α) : Attempts E σ (List ω × χ) ω α where
  handler := P.contended
  call := P.call
  suspends := P.suspends
  finish := P.finish
  outside := P.outside

section Contended

variable {A : ∀ β, E β → σ → Prop}

/-- One effect where others act. They keep what is known before it. -/
theorem wp_contended {β : Type} {op : E β} {Q : β → σ → Prop} {s : σ} (I : σ → Prop)
    (hI : ∀ s o t, I s → P.outside s o = some t → I t) (hs : I s) (hA : A _ op s)
    (hQ : ∀ t c b u, I t → P.handler.respond op t c = some (b, u) → Q b u) :
    (Prog.op op).wp P.contended A Q s := by
  have hothers : ∀ (os : List ω) (s t : σ), I s → os.foldlM P.outside s = some t → I t := by
    intro os
    induction os with
    | nil =>
        intro s t hs h
        cases h
        exact hs
    | cons o os ih =>
        intro s t hs h
        rcases Option.bind_eq_some_iff.mp h with ⟨u, hu, hrest⟩
        exact ih u t (hI s o u hs hu) hrest
  refine ⟨hA, fun c b u hr => ?_⟩
  rcases Option.bind_eq_some_iff.mp hr with ⟨t, ht, hrest⟩
  exact hQ t c.2 b u (hothers c.1 s t hs ht) hrest

/-- Others keep a weakest precondition if they keep its conditions. -/
theorem wp_outside {Q : α → σ → Prop}
    (hA : ∀ β (op : E β) s o t, A β op s → P.outside s o = some t → A β op t)
    (hQ : ∀ a s o t, Q a s → P.outside s o = some t → Q a t) (p : Prog E α) {s t : σ} {o : ω}
    (h : p.wp P.contended A Q s) (ho : P.outside s o = some t) : p.wp P.contended A Q t := by
  cases p with
  | done a => exact hQ a s o t h ho
  | perform op k =>
      refine ⟨hA _ op s o t h.1 ho, fun c b u hr => h.2 (o :: c.1, c.2) b u ?_⟩
      change ((o :: c.1).foldlM P.outside s).bind _ = _
      rw [List.foldlM_cons, ho]
      exact hr

theorem advance_contended (p : Prog E α) (s : σ) (c : χ) :
    p.advance P.contended s ([], c) = p.advance P.handler s c := by
  cases p with
  | done a => rfl
  | perform op k => rfl

theorem step_amid (h : P.step s e = some t) : ∃ e', P.amid.step s e' = some t := by
  cases e with
  | perform c =>
      refine ⟨.perform ([], c), h ▸ congrArg (Option.bind s.running) (funext fun p => ?_)⟩
      exact congrArg _ (advance_contended p s.state c)
  | call => exact ⟨.call, h⟩
  | finish => exact ⟨.finish, h⟩
  | cancel => exact ⟨.cancel, h⟩
  | outside o => exact ⟨.outside o, h⟩

/-- The rule where others act. Nothing is asked of them but to keep the conditions. -/
theorem sound_contended {init C : σ → Prop} {Q : α → σ → Prop} (hinit : ∀ s, init s → C s)
    (hcall : ∀ s p, C s → P.call s = some p → p.wp P.contended A Q s)
    (hfinish : ∀ a s, Q a s → C (P.finish a s))
    (hcancel : ∀ β (e : E β) s, P.suspends β e = true → A β e s → C s)
    (hC : ∀ s o t, C s → P.outside s o = some t → C t)
    (hA : ∀ β (op : E β) s o t, A β op s → P.outside s o = some t → A β op t)
    (hQ : ∀ a s o t, Q a s → P.outside s o = some t → Q a t)
    (h : Reachable (P.system init) s) : P.amid.Sound C A Q s := by
  have hamid : ∃ t, Reachable (P.amid.system init) t ∧ s = t := by
    refine Transition.simulates Eq ?_ ?_ h
    · exact fun s hs => ⟨s, hs, rfl⟩
    · rintro s e s' _ _ hstep rfl
      rcases step_amid hstep with ⟨e', he'⟩
      exact ⟨[e'], s', .snoc .refl he', rfl⟩
  rcases hamid with ⟨_, hreach, rfl⟩
  exact sound_reachable hinit hcall hfinish hcancel hC
    (fun p _ _ _ hwp ho => wp_outside hA hQ p hwp ho) hreach

end Contended

end Attempts
