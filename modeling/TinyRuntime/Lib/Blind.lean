import TinyRuntime.Lib.Program

/-!
# Programs That Ignore Part of the State

A part of the state that somebody else writes to, and that a program never looks at.
Whoever writes there does not change what the program does: it performs the same
effects with the same answers, from a state that differs in that part only.

A program reads a value as a whole, and then looks at some of it. So it is not enough
to say which effects it performs. `Prog.Blind` asks in addition that it goes on the
same after two answers that a relation takes for the same.

## Main definitions

* `Prog.Blind`: Effects of a kind, and the same continuation after the same answers.

## Theorems

* `blind_bind`, `blind_cut`: Sequencing and interrupting.
* `blind_uses`: Where only equal answers are the same, the kind is all there is.
* `blind_advance`: A blind program does the same from two related states.
-/

universe u v

namespace Prog

variable {E : Type → Type} {σ : Type u} {χ : Type v} {α β : Type}

/-- A program that performs effects of a kind, and goes on the same after answers that
    are the same. -/
def Blind (P : ∀ β, E β → Prop) (same : ∀ β, E β → β → β → Prop) : Prog E α → Prop
  | .done _ => True
  | .perform e k => P _ e ∧ (∀ b b', same _ e b b' → k b = k b') ∧ ∀ b, Blind P same (k b)

section Rules

variable {P : ∀ β, E β → Prop} {same : ∀ β, E β → β → β → Prop}

@[simp] theorem blind_pure (a : α) : Blind P same (pure a : Prog E α) := trivial

/-- One effect whose answer is looked at by what follows. -/
theorem blind_op_bind {e : E β} {f : β → Prog E α} (he : P _ e)
    (hsame : ∀ b b', same _ e b b' → f b = f b') (hf : ∀ b, Blind P same (f b)) :
    Blind P same (op e >>= f) :=
  ⟨he, hsame, hf⟩

theorem blind_bind {p : Prog E α} {f : α → Prog E β} (hp : Blind P same p)
    (hf : ∀ a, Blind P same (f a)) : Blind P same (p >>= f) := by
  change Blind P same (p.bind f)
  induction p with
  | done a => exact hf a
  | perform e k ih =>
      exact ⟨hp.1, fun b b' hb => congrArg (Prog.bind · f) (hp.2.1 b b' hb),
        fun b => ih b (hp.2.2 b)⟩

/-- Effects of which only equal answers are the same. -/
theorem blind_uses {P' : ∀ β, E β → Prop} (hP : ∀ β (e : E β), P' β e → P β e)
    (hsame : ∀ β (e : E β), P' β e → ∀ b b', same β e b b' → b = b') {p : Prog E α}
    (hp : Uses P' p) : Blind P same p := by
  induction p with
  | done a => trivial
  | perform e k ih =>
      exact ⟨hP _ e hp.1, fun b b' hb => congrArg k (hsame _ e hp.1 b b' hb),
        fun b => ih b (hp.2 b)⟩

theorem blind_cut {interrupt : E Bool} {suspends : ∀ β, E β → Bool} (hi : P _ interrupt)
    (hsame : ∀ b b', same _ interrupt b b' → b = b') {p : Prog E α} (hp : Blind P same p) :
    Blind P same (cut interrupt suspends p) := by
  induction p with
  | done a => trivial
  | perform e k ih =>
      have hrest : Blind P same (.perform e fun b => cut interrupt suspends (k b)) :=
        ⟨hp.1, fun b b' hb => congrArg (cut interrupt suspends) (hp.2.1 b b' hb),
          fun b => ih b (hp.2.2 b)⟩
      rw [cut]
      split
      · refine ⟨hi, fun b b' hb => by rw [hsame b b' hb], fun fired => ?_⟩
        cases fired with
        | false => exact hrest
        | true => trivial
      · exact hrest

theorem blind_run_bind {ε : Type} {x : ExceptT ε (Prog E) α} {f : α → ExceptT ε (Prog E) β}
    (hx : Blind P same x.run) (hf : ∀ a, Blind P same (f a).run) :
    Blind P same (x >>= f).run := by
  rw [ExceptT.run_bind]
  refine blind_bind hx fun r => ?_
  cases r with
  | ok a => exact hf a
  | error e => trivial

/-- What a blind program does from one state it does from another that is related, and
    it goes on the same. -/
theorem blind_advance {H : Handler E σ χ} {R : σ → σ → Prop}
    (hrespond : ∀ β (e : E β) s t c b s', P β e → R s t → H.respond e s c = some (b, s') →
      ∃ b' t', H.respond e t c = some (b', t') ∧ same β e b b' ∧ R s' t')
    {p q : Prog E α} {s t s' : σ} {c : χ} (hp : Blind P same p) (hR : R s t)
    (h : advance H p s c = some (q, s')) :
    ∃ t', advance H p t c = some (q, t') ∧ R s' t' ∧ Blind P same q := by
  cases p with
  | done a => cases h
  | perform e k =>
      simp only [advance] at h
      split at h
      · cases h
      · rename_i b u hr
        cases h
        rcases hrespond _ e s t c b s' hp.1 hR hr with ⟨b', t', hr', hsame, hR'⟩
        refine ⟨t', ?_, hR', hp.2.2 b⟩
        rw [advance, hr', hp.2.1 b b' hsame]

end Rules

end Prog
