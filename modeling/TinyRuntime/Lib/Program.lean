import Mathlib.Tactic.Common

/-!
# Effectful Programs

An asynchronous function as a tree of the effects it performs. A node is one
effect together with a continuation for every answer the outside may give, a
leaf is the returned value. Code written in `do` notation over `Prog E` reads
like the function it models and still has small steps: between any two effects
another party may move, and a future may be dropped at an effect that suspends.

What an effect may be answered, and what it does to the state, is given by a
`Handler`. The handler is a function: the choices that are not the program's
own (what the clock shows, whether a write fails) are an argument of it, so a
step is computed from the choice made (`advance`).

`Prog.wp` is the weakest precondition of a program for a postcondition. It asks
in addition that `A e s` holds whenever the effect `e` is performed in the state
`s`, so a program that never returns is not free of obligations. `always C` is
the assertion that asks the same of every effect. The rule `wp_bind` splits a
proof along the code, `wp_step` makes the weakest precondition an invariant of a
program that is interrupted after each effect, and `wp_point` reads the current
state off it.

`Prog.cut` is the shape of a timeout or of a `select!` branch: at every effect
that suspends, an interrupt is polled first and ends the program early. The
rule `wp_cut` asks for an assertion that holds at each of them, because the
program may be left there.

`Prog.tryJoin` is two futures polled by one task. Whichever is polled next performs
one effect, and the first that fails ends both. The rule `wp_tryJoin` asks for a
relation on what is left of the two, kept by the effects of each.

`Prog.Uses` is the structural companion: every effect the program may ever
perform satisfies a predicate, whatever the answers. It needs no state and
survives every step, and a state property kept by all those effects is kept by
the program (`wp_uses`).

Code that stops at the first error is a program under `ExceptT`. Its rules are
stated on `run`, so that they meet the code where it inspects a result.

## Main definitions

* `Prog`: A tree of effects.
* `Handler`: The answers to effects and their state changes.
* `Prog.op`, `Prog.act`, `Prog.attempt`: One effect as a program.
* `Prog.advance`, `Prog.advances`: One effect performed, and several.
* `Prog.eval`: The run of a program where the outside has no choice.
* `Prog.next`: Whether the next effect is of a kind.
* `Prog.Reaches`: A partial execution.
* `Prog.wp`: The weakest precondition, with an assertion at every effect.
* `Prog.cut`: A program with an interrupt polled at its suspension points.
* `Prog.tryJoin`: Two programs side by side.
* `Prog.embed`: A program among other effects.
* `Prog.interp`: A program whose effects are programs themselves.
* `Prog.upTo`: A program that ends with the first effect of a kind.
* `Prog.Uses`: A predicate on every effect a program may perform.
* `Prog.Returns`: A predicate on every value it may return.

## Theorems

* `wp_bind`: The weakest precondition of a sequence.
* `wp_mono`, `wp_weaken`: It is monotone in both conditions.
* `wp_and`: Two facts about one program.
* `wp_step`, `wp_reaches`: An execution keeps the weakest precondition.
* `wp_point`: What it says of the current state.
* `wp_cut`: The rule for an interrupted program.
* `wp_tryJoin`: The rule for two programs side by side.
* `wp_embed`: The rule for a program among other effects.
* `wp_upTo`: The rule for a program that ends early and under another handler.
* `wp_uses`: What every effect of a program keeps, the program keeps.
* `wp_run_bind`: The weakest precondition of a sequence that may stop early.
* `uses_bind`: Sequencing keeps the predicate on effects.
* `advances_bind`, `advances_append`: Executions of a sequence.
* `eval_bind`, `eval_iff_reaches`: The one run of a program.
* `cut_bind`: Interrupting a sequence interrupts each part.
-/

universe u v

/-- A program performing effects from `E`, returning an `α`. -/
inductive Prog (E : Type → Type) (α : Type) : Type 1
  | done (a : α)
  | perform {β : Type} (e : E β) (k : β → Prog E α)

/-- How effects are answered. The last argument is the choice made by the
    outside; `none` says that this choice does not answer this effect here. -/
structure Handler (E : Type → Type) (σ : Type u) (χ : Type v) where
  respond : {β : Type} → E β → σ → χ → Option (β × σ)

namespace Prog

variable {E : Type → Type} {σ : Type u} {χ : Type v} {α β γ : Type}

/-- Sequencing. -/
def bind : Prog E α → (α → Prog E β) → Prog E β
  | .done a, f => f a
  | .perform e k, f => .perform e (fun b => (k b).bind f)

instance : Monad (Prog E) where
  pure := .done
  bind := Prog.bind

/-- The program that performs one effect. -/
def op (e : E β) : Prog E β :=
  .perform e .done

/-- An effect that cannot fail, among steps that can. -/
def act {ε : Type} (e : E β) : ExceptT ε (Prog E) β :=
  ExceptT.lift (op e)

/-- A fallible effect as a step that `?` propagates. -/
def attempt {ε : Type} (e : E (Except ε β)) : ExceptT ε (Prog E) β :=
  ExceptT.mk (op e)

/-- One effect of a program performed: what is left of the program. -/
def advance (H : Handler E σ χ) : Prog E α → σ → χ → Option (Prog E α × σ)
  | .done _, _, _ => none
  | .perform e k, s, c =>
      match H.respond e s c with
      | none => none
      | some (b, t) => some (k b, t)

/-- Effects performed one after another: what is left of the program. -/
def advances (H : Handler E σ χ) : Prog E α → σ → List χ → Option (Prog E α × σ)
  | p, s, [] => some (p, s)
  | p, s, c :: cs => (advance H p s c).bind fun r => advances H r.1 r.2 cs

/-- Whether the next effect of a program is of a kind. -/
def next (kind : ∀ β, E β → Bool) : Prog E α → Bool
  | .done _ => false
  | .perform e _ => kind _ e

/-- A partial execution: what is left of a program after some of its effects,
    and the state then. -/
inductive Reaches (H : Handler E σ χ) (p : Prog E α) (s : σ) : Prog E α → σ → Prop
  | refl : Reaches H p s p s
  | snoc {q r : Prog E α} {t u : σ} {c : χ} :
      Reaches H p s q t → advance H q t c = some (r, u) → Reaches H p s r u

/-- The weakest precondition of a program for a postcondition `Q`, with `A`
    asserted of every effect and the state it is performed in. -/
def wp (H : Handler E σ χ) (A : ∀ β, E β → σ → Prop) : Prog E α → (α → σ → Prop) → σ → Prop
  | .done a, Q, s => Q a s
  | .perform e k, Q, s =>
      A _ e s ∧ ∀ c b t, H.respond e s c = some (b, t) → wp H A (k b) Q t

/-- The same assertion at every effect. -/
def always (C : σ → Prop) : ∀ β, E β → σ → Prop :=
  fun _ _ s => C s

/-- The run of a program where the outside has no choice. -/
def eval (H : Handler E σ Unit) : Prog E α → σ → Option (α × σ)
  | .done a, s => some (a, s)
  | .perform e k, s => (H.respond e s ()).bind fun r => (k r.1).eval H r.2

/-- The program with an interrupt polled before every effect that suspends. -/
def cut (interrupt : E Bool) (suspends : ∀ β, E β → Bool) :
    Prog E α → Prog E (Option α)
  | .done a => .done (some a)
  | .perform e k =>
      if suspends _ e then
        .perform interrupt (fun fired =>
          if fired then .done none else .perform e (fun b => cut interrupt suspends (k b)))
      else .perform e (fun b => cut interrupt suspends (k b))

/-- What is left of two programs whose first is at an effect: the second may go on, or
    the first performs its effect. -/
def joinAt {ε β : Type} (turn : E Bool) (e : E β)
    (rest : β → Prog E (Except ε Unit) → Prog E (Except ε Unit)) :
    Prog E (Except ε Unit) → Prog E (Except ε Unit)
  | .done (.error x) => .done (.error x)
  | .done (.ok ()) => .perform e fun b => rest b (.done (.ok ()))
  | .perform e' k' => .perform turn fun first =>
      if first then .perform e fun b => rest b (.perform e' k')
      else .perform e' fun b => joinAt turn e rest (k' b)

/-- Two programs side by side, up to the first error or until both have returned. Which
    one goes on is asked before every effect. -/
def tryJoin {ε : Type} (turn : E Bool) :
    Prog E (Except ε Unit) → Prog E (Except ε Unit) → Prog E (Except ε Unit)
  | .done (.error x) => fun _ => .done (.error x)
  | .done (.ok ()) => fun q => q
  | .perform e k => joinAt turn e fun b => tryJoin turn (k b)

/-- The same program among other effects. -/
def embed {F : Type → Type} (f : ∀ β, E β → F β) : Prog E α → Prog F α
  | .done a => .done a
  | .perform e k => .perform (f _ e) (fun b => (k b).embed f)

/-- The same program with every effect carried out by a program of its own. -/
def interp {F : Type → Type} (f : ∀ β, E β → Prog F β) : Prog E α → Prog F α
  | .done a => .done a
  | .perform e k => (f _ e).bind fun b => (k b).interp f

/-- The program up to its first effect of a kind, and then a fixed result. -/
def upTo (stop : ∀ β, E β → Bool) (a : α) : Prog E α → Prog E α
  | .done b => .done b
  | .perform e k =>
      if stop _ e then .perform e (fun _ => .done a) else .perform e (fun b => (k b).upTo stop a)

/-- Every effect the program may perform satisfies the predicate. -/
def Uses (P : ∀ β, E β → Prop) : Prog E α → Prop
  | .done _ => True
  | .perform e k => P _ e ∧ ∀ b, Uses P (k b)

/-- Every value the program may return satisfies the predicate. -/
def Returns (R : α → Prop) : Prog E α → Prop
  | .done a => R a
  | .perform _ k => ∀ b, Returns R (k b)

section Rules

variable {H : Handler E σ χ} {A : ∀ β, E β → σ → Prop}

@[simp] theorem wp_done (a : α) (Q : α → σ → Prop) (s : σ) :
    wp H A (.done a) Q s ↔ Q a s := Iff.rfl

@[simp] theorem wp_pure (a : α) (Q : α → σ → Prop) (s : σ) :
    wp H A (pure a) Q s ↔ Q a s := Iff.rfl

theorem wp_op (e : E β) (Q : β → σ → Prop) (s : σ) :
    wp H A (op e) Q s ↔ A _ e s ∧ ∀ c b t, H.respond e s c = some (b, t) → Q b t := Iff.rfl

@[simp] theorem wp_bind (p : Prog E α) (f : α → Prog E β) (Q : β → σ → Prop) (s : σ) :
    wp H A (p >>= f) Q s ↔ wp H A p (fun a t => wp H A (f a) Q t) s := by
  change wp H A (p.bind f) Q s ↔ _
  induction p generalizing s with
  | done a => exact Iff.rfl
  | perform e k ih =>
      simp only [bind, wp]
      constructor
      · intro h
        exact ⟨h.1, fun c b t hr => (ih b t).mp (h.2 c b t hr)⟩
      · intro h
        exact ⟨h.1, fun c b t hr => (ih b t).mpr (h.2 c b t hr)⟩

theorem wp_mono {Q Q' : α → σ → Prop} (p : Prog E α) (hQ : ∀ a s, Q a s → Q' a s) :
    ∀ s, wp H A p Q s → wp H A p Q' s := by
  induction p with
  | done a => exact fun s h => hQ a s h
  | perform e k ih =>
      intro s h
      exact ⟨h.1, fun c b t hr => ih b t (h.2 c b t hr)⟩

/-- It is monotone in the assertion. -/
theorem wp_weaken {A' : ∀ β, E β → σ → Prop} {Q : α → σ → Prop} (p : Prog E α)
    (hA : ∀ β (e : E β) s, A β e s → A' β e s) : ∀ s, wp H A p Q s → wp H A' p Q s := by
  induction p with
  | done a => exact fun s h => h
  | perform e k ih =>
      intro s h
      exact ⟨hA _ e s h.1, fun c b t hr => ih b t (h.2 c b t hr)⟩

/-- Two facts about one program hold together. -/
theorem wp_and {A' : ∀ β, E β → σ → Prop} {Q Q' : α → σ → Prop} (p : Prog E α) :
    ∀ s, wp H A p Q s → wp H A' p Q' s →
      wp H (fun β e s => A β e s ∧ A' β e s) p (fun a t => Q a t ∧ Q' a t) s := by
  induction p with
  | done a => exact fun s h h' => ⟨h, h'⟩
  | perform e k ih =>
      intro s h h'
      exact ⟨⟨h.1, h'.1⟩, fun c b t hr => ih b t (h.2 c b t hr) (h'.2 c b t hr)⟩

/-- What is known of every effect of a program may be asserted at each. -/
theorem wp_and_uses {P : ∀ β, E β → Prop} {Q : α → σ → Prop} (p : Prog E α) :
    ∀ s, wp H A p Q s → Uses P p → wp H (fun β e s => A β e s ∧ P β e) p Q s := by
  induction p with
  | done a => exact fun s h _ => h
  | perform e k ih =>
      intro s h hu
      exact ⟨⟨h.1, hu.1⟩, fun c b t hr => ih b t (h.2 c b t hr) (hu.2 b)⟩

/-- What is known of every value a program returns holds of its result. -/
theorem wp_and_returns {R : α → Prop} {Q : α → σ → Prop} (p : Prog E α) (hp : Returns R p) :
    ∀ s, wp H A p Q s → wp H A p (fun a t => R a ∧ Q a t) s := by
  induction p with
  | done a => exact fun s h => ⟨hp, h⟩
  | perform e k ih => exact fun s h => ⟨h.1, fun c b t hr => ih b (hp b) t (h.2 c b t hr)⟩

/-- A state property that every effect of a program keeps is kept by the
    program, and holds at each of its effects. -/
theorem wp_uses {P : ∀ β, E β → Prop} (C : σ → Prop)
    (hP : ∀ β (e : E β) s c b t, P β e → C s → H.respond e s c = some (b, t) → C t)
    (p : Prog E α) : ∀ s, Uses P p → C s → wp H (always C) p (fun _ t => C t) s := by
  induction p with
  | done a => exact fun s _ hC => hC
  | perform e k ih =>
      intro s hu hC
      exact ⟨hC, fun c b t hr => ih b t (hu.2 b) (hP _ e s c b t hu.1 hC hr)⟩

/-- A program among other effects, over a larger state. `R` relates the two states,
    and what its effects are answered there, they can be answered here. -/
theorem wp_embed {F : Type → Type} {τ ω : Type _} {H' : Handler F τ ω}
    {A' : ∀ β, F β → τ → Prop} {Q : α → σ → Prop} {Q' : α → τ → Prop} {f : ∀ β, E β → F β}
    (R : σ → τ → Prop) (hA : ∀ β (e : E β) s t, R s t → A β e s → A' β (f β e) t)
    (hrespond : ∀ β (e : E β) s t c b t', R s t → A β e s →
      H'.respond (f β e) t c = some (b, t') →
      ∃ d s', H.respond e s d = some (b, s') ∧ R s' t')
    (hQ : ∀ a s t, R s t → Q a s → Q' a t) (p : Prog E α) :
    ∀ s t, R s t → wp H A p Q s → wp H' A' (p.embed f) Q' t := by
  induction p with
  | done a => exact fun s t hR h => hQ a s t hR h
  | perform e k ih =>
      intro s t hR h
      refine ⟨hA _ e s t hR h.1, fun c b t' hr => ?_⟩
      rcases hrespond _ e s t c b t' hR h.1 hr with ⟨d, s', hd, hR'⟩
      exact ih b s' t' hR' (h.2 d b s' hd)

/-- A program that ends early, from a related state. What its effects are answered
    there, they can be answered here, up to the one it ends with. -/
theorem wp_upTo {stop : ∀ β, E β → Bool} {a : α} {A' : ∀ β, E β → σ → Prop}
    {Q Q' : α → σ → Prop} (R : σ → σ → Prop)
    (hA : ∀ β (e : E β) s t, R s t → A β e s → A' β e t)
    (hrespond : ∀ β (e : E β) s t c b t', stop β e = false → R s t → A β e s →
      H.respond e t c = some (b, t') → ∃ d s', H.respond e s d = some (b, s') ∧ R s' t')
    (hstop : ∀ β (e : E β) s t c b t', stop β e = true → R s t → A β e s →
      H.respond e t c = some (b, t') → Q' a t')
    (hQ : ∀ b s t, R s t → Q b s → Q' b t) (p : Prog E α) :
    ∀ s t, R s t → wp H A p Q s → wp H A' (p.upTo stop a) Q' t := by
  induction p with
  | done b => exact fun s t hR h => hQ b s t hR h
  | perform e k ih =>
      intro s t hR h
      rw [upTo]
      split
      · rename_i hstops
        exact ⟨hA _ e s t hR h.1, fun c b t' hr => hstop _ e s t c b t' hstops hR h.1 hr⟩
      · rename_i hgoes
        refine ⟨hA _ e s t hR h.1, fun c b t' hr => ?_⟩
        rcases hrespond _ e s t c b t' (Bool.not_eq_true _ ▸ hgoes) hR h.1 hr with ⟨d, s', hd, hR'⟩
        exact ih b s' t' hR' (h.2 d b s' hd)

/-- Performing one effect keeps the weakest precondition of what is left. -/
theorem wp_step {p q : Prog E α} {Q : α → σ → Prop} {s t : σ} {c : χ}
    (hs : advance H p s c = some (q, t)) (h : wp H A p Q s) : wp H A q Q t := by
  cases p with
  | done a => simp only [advance, reduceCtorEq] at hs
  | perform e k =>
      simp only [advance] at hs
      cases hr : H.respond e s c with
      | none =>
          rw [hr] at hs
          exact absurd hs (by simp only [reduceCtorEq, not_false_eq_true])
      | some r =>
          rw [hr] at hs
          simp only [Option.some.injEq, Prod.mk.injEq] at hs
          rw [← hs.1, ← hs.2]
          exact h.2 c r.1 r.2 hr

/-- So does a partial execution. -/
theorem wp_reaches {p q : Prog E α} {Q : α → σ → Prop} {s t : σ} (h : wp H A p Q s)
    (hr : Reaches H p s q t) : wp H A q Q t := by
  induction hr with
  | refl => exact h
  | snoc _ hs ih => exact wp_step hs ih

/-- One effect before a partial execution. -/
theorem Reaches.cons {p q r : Prog E α} {s t u : σ} {c : χ}
    (hs : advance H p s c = some (q, t)) (hr : Reaches H q t r u) : Reaches H p s r u := by
  induction hr with
  | refl => exact .snoc .refl hs
  | snoc _ hs' ih => exact .snoc ih hs'

/-- The same where the effect and its answer are known. -/
theorem Reaches.perform {e : E β} {k : β → Prog E α} {q : Prog E α} {s t u : σ} {c : χ} {b : β}
    (hs : H.respond e s c = some (b, t)) (hr : Reaches H (k b) t q u) :
    Reaches H (.perform e k) s q u :=
  have hstep : advance H (.perform e k) s c = some (k b, t) := by simp only [advance, hs]
  .cons hstep hr

theorem Reaches.trans {p q r : Prog E α} {s t u : σ} (h : Reaches H p s q t)
    (h' : Reaches H q t r u) : Reaches H p s r u := by
  induction h' with
  | refl => exact h
  | snoc _ hs ih => exact .snoc ih hs

/-- What holds of every result is a postcondition. -/
theorem wp_of_reaches {Q : α → σ → Prop} (p : Prog E α) :
    ∀ s, (∀ a t, Reaches H p s (.done a) t → Q a t) → wp H (fun _ _ _ => True) p Q s := by
  induction p with
  | done a => exact fun s h => h a s .refl
  | perform e k ih =>
      intro s h
      refine ⟨trivial, fun c b t hr => ih b t fun a u hu => ?_⟩
      have hs : advance H (.perform e k) s c = some (k b, t) := by simp only [advance, hr]
      exact h a u (hu.cons hs)

/-- What the assertion and the postcondition both say holds now. -/
theorem wp_point {C : σ → Prop} {p : Prog E α} {Q : α → σ → Prop} {s : σ}
    (hA : ∀ β (e : E β) s, A β e s → C s) (hQ : ∀ a s, Q a s → C s) (h : wp H A p Q s) :
    C s := by
  cases p with
  | done a => exact hQ a s h
  | perform e k => exact hA _ e s h.1

/-- The rule for an interrupted program. `C` is asserted wherever the program can
    be left, and is what is known when the interrupt fires. Polling an interrupt
    that has not fired changes nothing. -/
theorem wp_cut {interrupt : E Bool} {suspends : ∀ β, E β → Bool} {C D : σ → Prop}
    {Q : α → σ → Prop} (hA : ∀ s, C s → A _ interrupt s)
    (hquiet : ∀ s c t, C s → H.respond interrupt s c = some (false, t) → t = s)
    (hfire : ∀ s c t, C s → H.respond interrupt s c = some (true, t) → D t)
    (p : Prog E α) :
    ∀ s, wp H (fun β e s => (suspends β e = true → C s) ∧ A β e s) p Q s →
      wp H A (cut interrupt suspends p)
        (fun o t => match o with | none => D t | some a => Q a t) s := by
  induction p with
  | done a => exact fun s h => h
  | perform e k ih =>
      intro s h
      -- The effect itself, once it is its turn.
      have hrest : wp H A (.perform e (fun b => cut interrupt suspends (k b)))
          (fun o t => match o with | none => D t | some a => Q a t) s :=
        ⟨h.1.2, fun c b t hr => ih b t (h.2 c b t hr)⟩
      rw [cut]
      split
      · rename_i hsuspends
        have hC := h.1.1 hsuspends
        refine ⟨hA s hC, fun c fired t hr => ?_⟩
        cases fired with
        | false =>
            rw [hquiet s c t hC hr]
            exact hrest
        | true => exact hfire s c t hC hr
      · exact hrest

/-- The rule for two programs side by side. `R` relates what is left of both and the
    state. It is kept by the effects of each, as long as the other has not failed. -/
theorem wp_tryJoin {ε : Type} {turn : E Bool} {Q : Except ε Unit → σ → Prop}
    (R : Prog E (Except ε Unit) → Prog E (Except ε Unit) → σ → Prop)
    (hturn : ∀ p q s, R p q s → A _ turn s ∧
      ∀ c b t, H.respond turn s c = some (b, t) → R p q t)
    (hleft : ∀ {β : Type} (e : E β) k q s, (∀ x, q ≠ .done (.error x)) → R (.perform e k) q s →
      A _ e s ∧ ∀ c b t, H.respond e s c = some (b, t) → R (k b) q t)
    (hright : ∀ {β : Type} (e : E β) k p s, (∀ x, p ≠ .done (.error x)) → R p (.perform e k) s →
      A _ e s ∧ ∀ c b t, H.respond e s c = some (b, t) → R p (k b) t)
    (herror : ∀ x p q s, R p q s → p = .done (.error x) ∨ q = .done (.error x) → Q (.error x) s)
    (hok : ∀ s, R (.done (.ok ())) (.done (.ok ())) s → Q (.ok ()) s)
    (p : Prog E (Except ε Unit)) :
    ∀ q s, R p q s → wp H A (tryJoin turn p q) Q s := by
  induction p with
  | done r =>
      cases r with
      | error x => exact fun q s h => herror x _ q s h (.inl rfl)
      | ok _ =>
          -- The first has returned, and the second goes on alone.
          intro q
          induction q with
          | done r =>
              intro s h
              cases r with
              | error x => exact herror x _ _ s h (.inr rfl)
              | ok _ => exact hok s h
          | perform e k ih =>
              intro s h
              have hnext := hright e k _ s (fun _ heq => by cases heq) h
              exact ⟨hnext.1, fun c b t hr => ih b t (hnext.2 c b t hr)⟩
  | perform e k ih =>
      intro q
      induction q with
      | done r =>
          intro s h
          cases r with
          | error x => exact herror x _ _ s h (.inr rfl)
          | ok _ =>
              have hnext := hleft e k _ s (fun _ heq => by cases heq) h
              exact ⟨hnext.1, fun c b t hr => ih b _ t (hnext.2 c b t hr)⟩
      | perform e' k' ih' =>
          intro s h
          have hpoll := hturn _ _ s h
          refine ⟨hpoll.1, fun c first t hr => ?_⟩
          have ht := hpoll.2 c first t hr
          cases first with
          | true =>
              have hnext := hleft e k _ t (fun _ heq => by cases heq) ht
              exact ⟨hnext.1, fun c b u hr => ih b _ u (hnext.2 c b u hr)⟩
          | false =>
              have hnext := hright e' k' _ t (fun _ heq => by cases heq) ht
              exact ⟨hnext.1, fun c b u hr => ih' b u (hnext.2 c b u hr)⟩

section Fallible

variable {ε : Type}

@[simp] theorem wp_run_bind (x : ExceptT ε (Prog E) α) (f : α → ExceptT ε (Prog E) β)
    (Q : Except ε β → σ → Prop) (s : σ) :
    wp H A (x >>= f).run Q s ↔
      wp H A x.run
        (fun r t => match r with
          | .ok a => wp H A (f a).run Q t
          | .error e => Q (.error e) t) s := by
  rw [ExceptT.run_bind, wp_bind]
  constructor
  · refine wp_mono _ ?_ s
    intro r t h
    cases r with
    | ok a => exact h
    | error e => exact h
  · refine wp_mono _ ?_ s
    intro r t h
    cases r with
    | ok a => exact h
    | error e => exact h

@[simp] theorem wp_run_pure (a : α) (Q : Except ε α → σ → Prop) (s : σ) :
    wp H A (pure a : ExceptT ε (Prog E) α).run Q s ↔ Q (.ok a) s := Iff.rfl

@[simp] theorem wp_run_throw (e : ε) (Q : Except ε α → σ → Prop) (s : σ) :
    wp H A (throw e : ExceptT ε (Prog E) α).run Q s ↔ Q (.error e) s := Iff.rfl

@[simp] theorem wp_run_lift (p : Prog E α) (Q : Except ε α → σ → Prop) (s : σ) :
    wp H A (ExceptT.lift p : ExceptT ε (Prog E) α).run Q s ↔
      wp H A p (fun a t => Q (.ok a) t) s := by
  change wp H A (p >>= fun a => pure (Except.ok a)) Q s ↔ _
  rw [wp_bind]
  exact Iff.rfl

theorem wp_act (e : E β) (Q : Except ε β → σ → Prop) (s : σ) :
    wp H A (act e : ExceptT ε (Prog E) β).run Q s ↔ wp H A (op e) (fun b t => Q (.ok b) t) s :=
  wp_run_lift (op e) Q s

theorem wp_attempt (e : E (Except ε β)) (Q : Except ε β → σ → Prop) (s : σ) :
    wp H A (attempt e).run Q s ↔ wp H A (op e) Q s := Iff.rfl

@[simp] theorem wp_run_mk (p : Prog E (Except ε α)) (Q : Except ε α → σ → Prop) (s : σ) :
    wp H A (ExceptT.mk p).run Q s ↔ wp H A p Q s := Iff.rfl

end Fallible

end Rules

/-! ## Executions of a sequence -/

theorem bind_assoc (p : Prog E α) (f : α → Prog E β) (g : β → Prog E γ) :
    (p.bind f).bind g = p.bind fun a => (f a).bind g := by
  induction p with
  | done a => rfl
  | perform e k ih => simp only [bind, ih]

theorem run_bind_assoc {ε : Type} (x : ExceptT ε (Prog E) α) (f : α → ExceptT ε (Prog E) β)
    (g : β → ExceptT ε (Prog E) γ) : (x >>= f) >>= g = x >>= fun a => f a >>= g := by
  refine (bind_assoc x.run _ _).trans (congrArg (Prog.bind x.run) (funext fun r => ?_))
  cases r with
  | ok a => rfl
  | error e => rfl

theorem advance_bind {H : Handler E σ χ} {p q : Prog E α} {s t : σ} {c : χ}
    (f : α → Prog E β) (h : advance H p s c = some (q, t)) :
    advance H (p.bind f) s c = some (q.bind f, t) := by
  cases p with
  | done a => cases h
  | perform e k =>
      simp only [advance, bind] at h ⊢
      split at h
      · cases h
      · cases h
        rfl

theorem advances_bind {H : Handler E σ χ} {q : Prog E α} {t : σ} {cs : List χ}
    (f : α → Prog E β) : ∀ {p : Prog E α} {s : σ}, advances H p s cs = some (q, t) →
      advances H (p.bind f) s cs = some (q.bind f, t) := by
  induction cs with
  | nil =>
      intro p s h
      cases h
      rfl
  | cons c cs ih =>
      intro p s h
      rcases Option.bind_eq_some_iff.mp h with ⟨⟨p₁, s₁⟩, hs, hrest⟩
      rw [advances, advance_bind f hs]
      exact ih hrest

/-- An execution of the first part of a sequence. -/
theorem Reaches.bind_left {H : Handler E σ χ} {p q : Prog E α} {s t : σ} (f : α → Prog E β)
    (h : Reaches H p s q t) : Reaches H (p.bind f) s (q.bind f) t := by
  induction h with
  | refl => exact .refl
  | snoc _ hs ih => exact .snoc ih (advance_bind f hs)

/-- An execution of the first part of a sequence, then one of the second. -/
theorem Reaches.bind {H : Handler E σ χ} {p : Prog E α} {q : Prog E β} {a : α} {s t u : σ}
    {f : α → Prog E β} (h : Reaches H p s (.done a) t) (h' : Reaches H (f a) t q u) :
    Reaches H (p.bind f) s q u :=
  (h.bind_left f).trans h'

/-- The same where the first part may fail. -/
theorem Reaches.run_bind {H : Handler E σ χ} {ε : Type} {x : ExceptT ε (Prog E) α}
    {f : α → ExceptT ε (Prog E) β} {q : Prog E (Except ε β)} {a : α} {s t u : σ}
    (h : Reaches H x.run s (.done (.ok a)) t) (h' : Reaches H (f a).run t q u) :
    Reaches H (x >>= f).run s q u := by
  rw [ExceptT.run_bind]
  exact Reaches.bind h h'

theorem Reaches.run_left {H : Handler E σ χ} {ε : Type} {x : ExceptT ε (Prog E) α}
    {q : Prog E (Except ε α)} {s t : σ} (f : α → ExceptT ε (Prog E) β)
    (h : Reaches H x.run s q t) :
    ∃ g : Except ε α → Prog E (Except ε β), Reaches H (x >>= f).run s (q.bind g) t := by
  rw [ExceptT.run_bind]
  exact ⟨_, h.bind_left _⟩

theorem advances_append {H : Handler E σ χ} {cs ds : List χ} :
    ∀ {p : Prog E α} {s : σ}, advances H p s (cs ++ ds) =
      (advances H p s cs).bind fun r => advances H r.1 r.2 ds := by
  induction cs with
  | nil => exact rfl
  | cons c cs ih =>
      intro p s
      simp only [List.cons_append, advances, ih, Option.bind_assoc]

/-- A partial execution is made of choices. -/
theorem advances_of_reaches {H : Handler E σ χ} {p q : Prog E α} {s t : σ}
    (h : Reaches H p s q t) : ∃ cs, advances H p s cs = some (q, t) := by
  induction h with
  | refl => exact ⟨[], rfl⟩
  | @snoc q r t u c _ hs ih =>
      rcases ih with ⟨cs, hcs⟩
      refine ⟨cs ++ [c], ?_⟩
      rw [advances_append, hcs, Option.bind_some, advances, hs]
      rfl

theorem reaches_of_advances {H : Handler E σ χ} {q : Prog E α} {t : σ} {cs : List χ} :
    ∀ {p : Prog E α} {s : σ}, advances H p s cs = some (q, t) → Reaches H p s q t := by
  induction cs with
  | nil =>
      intro p s h
      cases h
      exact .refl
  | cons c cs ih =>
      intro p s h
      rcases Option.bind_eq_some_iff.mp h with ⟨⟨p₁, s₁⟩, hs, hrest⟩
      exact (ih hrest).cons hs

theorem eval_bind (H : Handler E σ Unit) (p : Prog E α) (f : α → Prog E β) : ∀ s,
    (p >>= f).eval H s = (p.eval H s).bind fun r => (f r.1).eval H r.2 := by
  change ∀ s, (p.bind f).eval H s = _
  induction p with
  | done a => exact fun s => rfl
  | perform e k ih =>
      intro s
      rw [bind, eval, eval, Option.bind_assoc]
      exact congrArg _ (funext fun r => ih r.1 r.2)

theorem eval_run_bind {ε : Type} (H : Handler E σ Unit) (x : ExceptT ε (Prog E) α)
    (f : α → ExceptT ε (Prog E) β) (s : σ) :
    (x >>= f).run.eval H s = (x.run.eval H s).bind fun r =>
      match r.1 with
      | .ok a => (f a).run.eval H r.2
      | .error e => some (.error e, r.2) := by
  rw [ExceptT.run_bind, eval_bind]
  refine congrArg _ (funext fun r => ?_)
  rcases r with ⟨r, t⟩
  cases r with
  | ok a => rfl
  | error e => rfl

theorem eval_advance {H : Handler E σ Unit} {p q : Prog E α} {s t : σ}
    (h : advance H p s () = some (q, t)) : p.eval H s = q.eval H t := by
  cases p with
  | done a => cases h
  | perform e k =>
      rw [advance] at h
      split at h
      · cases h
      · rename_i b u hr
        cases h
        rw [eval, hr]
        rfl

/-- Where the outside has no choice, the only way to a result is that run. -/
theorem eval_iff_reaches {H : Handler E σ Unit} {p : Prog E α} {a : α} {s t : σ} :
    p.eval H s = some (a, t) ↔ Reaches H p s (.done a) t := by
  constructor
  · intro h
    induction p generalizing s with
    | done b =>
        cases h
        exact .refl
    | perform e k ih =>
        rcases Option.bind_eq_some_iff.mp h with ⟨⟨b, u⟩, hr, hrest⟩
        have hs : advance H (.perform e k) s () = some (k b, u) := by rw [advance, hr]
        exact (ih b hrest).cons hs
  · intro h
    have hsame : ∀ {q : Prog E α} {u : σ}, Reaches H p s q u → p.eval H s = q.eval H u := by
      intro q u hr
      induction hr with
      | refl => rfl
      | snoc _ hs ih => exact ih.trans (eval_advance hs)
    exact hsame h

/-- An interrupted sequence is left in its first part or in its second. -/
theorem cut_bind (interrupt : E Bool) (suspends : ∀ β, E β → Bool) (f : α → Prog E β)
    (p : Prog E α) :
    cut interrupt suspends (p.bind f) =
      (cut interrupt suspends p).bind fun o =>
        match o with
        | none => .done none
        | some a => cut interrupt suspends (f a) := by
  induction p with
  | done a => rfl
  | perform e k ih =>
      simp only [bind, cut]
      split
      · simp only [bind, ih, Prog.perform.injEq, heq_eq_eq, true_and]
        funext fired
        cases fired <;> rfl
      · simp only [bind, ih]

section Structure

variable {P : ∀ β, E β → Prop}

@[simp] theorem uses_pure (a : α) : Uses P (pure a : Prog E α) := trivial

@[simp] theorem uses_done (a : α) : Uses P (.done a : Prog E α) := trivial

@[simp] theorem uses_op (e : E β) : Uses P (op e) ↔ P _ e := by
  simp only [op, Uses, implies_true, and_true]

theorem uses_bind {p : Prog E α} {f : α → Prog E β} (hp : Uses P p)
    (hf : ∀ a, Uses P (f a)) : Uses P (p >>= f) := by
  change Uses P (p.bind f)
  induction p with
  | done a => exact hf a
  | perform e k ih => exact ⟨hp.1, fun b => ih b (hp.2 b)⟩

theorem uses_mono {P' : ∀ β, E β → Prop} (hP : ∀ β (e : E β), P β e → P' β e) {p : Prog E α}
    (hp : Uses P p) : Uses P' p := by
  induction p with
  | done a => trivial
  | perform e k ih => exact ⟨hP _ e hp.1, fun b => ih b (hp.2 b)⟩

theorem uses_true (p : Prog E α) : Uses (fun _ _ => True) p := by
  induction p with
  | done a => trivial
  | perform e k ih => exact ⟨trivial, ih⟩

/-- Only the last program of a sequence returns. -/
theorem returns_bind {R : β → Prop} (p : Prog E α) {f : α → Prog E β}
    (hf : ∀ a, Returns R (f a)) : Returns R (p >>= f) := by
  change Returns R (p.bind f)
  induction p with
  | done a => exact hf a
  | perform e k ih => exact fun b => ih b

/-- The same where something is known of what the first program returns. -/
theorem returns_seq {R : α → Prop} {R' : β → Prop} {p : Prog E α} {f : α → Prog E β}
    (hp : Returns R p) (hf : ∀ a, R a → Returns R' (f a)) : Returns R' (p >>= f) := by
  change Returns R' (p.bind f)
  induction p with
  | done a => exact hf a hp
  | perform e k ih => exact fun b => ih b (hp b)

/-- The same for a sequence that may stop early. -/
theorem returns_run_bind {ε : Type} {R : Except ε β → Prop} (x : ExceptT ε (Prog E) α)
    {f : α → ExceptT ε (Prog E) β} (herror : ∀ e, R (.error e))
    (hf : ∀ a, Returns R (f a).run) : Returns R (x >>= f).run := by
  rw [ExceptT.run_bind]
  refine returns_bind x.run fun r => ?_
  cases r with
  | ok a => exact hf a
  | error e => exact herror e

theorem uses_run_bind {ε : Type} {x : ExceptT ε (Prog E) α} {f : α → ExceptT ε (Prog E) β}
    (hx : Uses P x.run) (hf : ∀ a, Uses P (f a).run) : Uses P (x >>= f).run := by
  rw [ExceptT.run_bind]
  refine uses_bind hx fun r => ?_
  cases r with
  | ok a => exact hf a
  | error e => trivial

@[simp] theorem uses_run_pure {ε : Type} (a : α) :
    Uses P (pure a : ExceptT ε (Prog E) α).run := trivial

@[simp] theorem uses_run_throw {ε : Type} (e : ε) :
    Uses P (throw e : ExceptT ε (Prog E) α).run := trivial

theorem uses_run_lift {ε : Type} {p : Prog E α} (hp : Uses P p) :
    Uses P (ExceptT.lift p : ExceptT ε (Prog E) α).run :=
  uses_bind hp fun _ => trivial

theorem uses_cut {interrupt : E Bool} {suspends : ∀ β, E β → Bool}
    (hi : P _ interrupt) {p : Prog E α} (hp : Uses P p) : Uses P (cut interrupt suspends p) := by
  induction p with
  | done a => trivial
  | perform e k ih =>
      have hrest : Uses P (.perform e (fun b => cut interrupt suspends (k b))) :=
        ⟨hp.1, fun b => ih b (hp.2 b)⟩
      rw [cut]
      split
      · refine ⟨hi, fun fired => ?_⟩
        cases fired with
        | false => exact hrest
        | true => trivial
      · exact hrest

theorem uses_tryJoin {ε : Type} {turn : E Bool} (hturn : P _ turn)
    {p : Prog E (Except ε Unit)} (hp : Uses P p) :
    ∀ {q : Prog E (Except ε Unit)}, Uses P q → Uses P (tryJoin turn p q) := by
  induction p with
  | done r =>
      intro q hq
      cases r with
      | error x => trivial
      | ok _ => exact hq
  | perform e k ih =>
      intro q hq
      induction q with
      | done r =>
          cases r with
          | error x => trivial
          | ok _ => exact ⟨hp.1, fun b => ih b (hp.2 b) trivial⟩
      | perform e' k' ih' =>
          refine ⟨hturn, fun first => ?_⟩
          cases first with
          | true => exact ⟨hp.1, fun b => ih b (hp.2 b) hq⟩
          | false => exact ⟨hq.1, fun b => ih' b (hq.2 b)⟩

theorem uses_step {H : Handler E σ χ} {p q : Prog E α} {s t : σ} {c : χ}
    (hs : advance H p s c = some (q, t)) (hp : Uses P p) : Uses P q := by
  cases p with
  | done a => simp only [advance, reduceCtorEq] at hs
  | perform e k =>
      simp only [advance] at hs
      cases hr : H.respond e s c with
      | none =>
          rw [hr] at hs
          exact absurd hs (by simp only [reduceCtorEq, not_false_eq_true])
      | some r =>
          rw [hr] at hs
          simp only [Option.some.injEq, Prod.mk.injEq] at hs
          rw [← hs.1]
          exact hp.2 r.1

theorem uses_advances {H : Handler E σ χ} {q : Prog E α} {t : σ}
    {cs : List χ} : ∀ {p : Prog E α} {s : σ}, advances H p s cs = some (q, t) → Uses P p →
      Uses P q := by
  induction cs with
  | nil =>
      intro p s h hp
      cases h
      exact hp
  | cons c cs ih =>
      intro p s h hp
      rcases Option.bind_eq_some_iff.mp h with ⟨⟨p₁, s₁⟩, hs, hrest⟩
      exact ih hrest (uses_step hs hp)

end Structure

end Prog
