import Mathlib.Data.List.Forall2
import TinyRuntime.Lib.Concurrent

/-!
# Rely and Guarantee

Calls whose correctness rests on how the shared state develops. What a call has found
out about it stays true, not because the others leave it alone, but because they change
it in one direction only: a flag stays up, what was given away does not come back.

`R` is that direction, a preorder on the shared states that every effect of every call
keeps, and so does the outside. `I` is what holds of the shared state at any time. A
call is then walked through once, over the shared state and its locals, where anything
that `R` allows happens before each of its effects. What it asserts at an effect and
what it establishes when it ends has to be stable under `R`.

The assertions may depend on what the call was made with, and the rule keeps track of
it: a call that has ended still says what it established about its own argument.

## Main definitions

* `Calls.relying`: The effects as a call sees them in such surroundings.
* `Rely`: The obligations.
* `Rely.At`: What holds of a call that was made with an argument.
* `Rely.Each`: What holds of every call.

## Theorems

* `wp_relying`: The weakest precondition of one effect.
* `Rely.stable`: What holds of a call stays true while the others move.
* `Rely.move`, `Rely.run`: One step, and a run.
* `Rely.reachable`, `Rely.called`: Every call, and the one that was just made.
-/

namespace Concurrent

universe u

variable {E : Type → Type} {σ : Type u} {Λ ι χ α : Type}

/-- The effects as a call sees them while the shared state develops by `R` within `I`. -/
noncomputable def Calls.relying (P : Calls E σ Λ ι χ α) (I : σ → Prop) (R : σ → σ → Prop) :
    Handler E (σ × Λ) (σ × χ) where
  respond e w c :=
    open Classical in
    if R w.1 c.1 ∧ I c.1 then P.handler.respond e (c.1, w.2) c.2 else none

theorem wp_relying {P : Calls E σ Λ ι χ α} {I : σ → Prop} {R : σ → σ → Prop} {β : Type} {e : E β}
    {A : ∀ β, E β → σ × Λ → Prop} {Q : β → σ × Λ → Prop} {s : σ} {l : Λ} :
    (Prog.op e).wp (P.relying I R) A Q (s, l) ↔ A _ e (s, l) ∧ ∀ t c b t' l', R s t → I t →
      P.handler.respond e (t, l) c = some (b, t', l') → Q b (t', l') := by
  rw [Prog.wp_op]
  refine and_congr_right fun _ => ⟨?_, ?_⟩
  · intro h t c b t' l' hR hI hr
    exact h (t, c) b (t', l') ((if_pos ⟨hR, hI⟩).trans hr)
  · intro h c b w hr
    simp only [Calls.relying] at hr
    split at hr
    · rename_i hRI
      exact h c.1 c.2 b w.1 w.2 hRI.1 hRI.2 hr
    · cases hr

/-- The obligations. `A` is asserted at the effects of a call that was made with an
    argument, `Q` when it returns, and `Z` once it has ended. -/
structure Rely (P : Calls E σ Λ ι χ α) (I : σ → Prop) (R : σ → σ → Prop)
    (A : ι → ∀ β, E β → σ × Λ → Prop) (Q : ι → α → σ × Λ → Prop) (Z : ι → σ → Λ → Prop) :
    Prop where
  refl : ∀ s, R s s
  trans : ∀ s t u, R s t → R t u → R s u
  asserted : ∀ a β (e : E β) s t l, R s t → A a β e (s, l) → A a β e (t, l)
  returned : ∀ a b s t l, R s t → Q a b (s, l) → Q a b (t, l)
  ended : ∀ a s t l, R s t → Z a s l → Z a t l
  main : ∀ a s, I s → (P.main a).wp (P.relying I R) (A a) (Q a) (s, P.fresh a)
  perform : ∀ a {β : Type} (e : E β) s l c b s' l', I s → A a β e (s, l) →
    P.handler.respond e (s, l) c = some (b, s', l') → I s' ∧ R s s'
  finish : ∀ a b s l, Q a b (s, l) → Z a s (P.ended (some b) l)
  drop : ∀ a (p : Prog E α) s l, p.wp (P.relying I R) (A a) (Q a) (s, l) →
    Z a s (P.ended none l)
  orphan : ∀ a (p : Prog E α) s l, p.wp (P.relying I R) (A a) (Q a) (s, l) →
    ∀ o ∈ P.orphans p l, o.1.wp (P.relying I R) (A a) (Q a) (s, o.2)
  release : ∀ a s l s' l', I s → Z a s l → P.release (s, l) = some (s', l') →
    I s' ∧ R s s' ∧ Z a s' l'
  env : ∀ s c s', I s → P.env s c = some s' → I s' ∧ R s s'

namespace Rely

variable {P : Calls E σ Λ ι χ α} {I : σ → Prop} {R : σ → σ → Prop}
  {A : ι → ∀ β, E β → σ × Λ → Prop} {Q : ι → α → σ × Λ → Prop} {Z : ι → σ → Λ → Prop}

/-- What holds of a call that was made with an argument. -/
def At (_ : Rely P I R A Q Z) (s : σ) (t : Call E Λ α) (a : ι) : Prop :=
  match t.prog with
  | some p => p.wp (P.relying I R) (A a) (Q a) (s, t.loc)
  | none => Z a s t.loc

/-- What holds of all calls, with what they were made with. -/
def Each (K : Rely P I R A Q Z) (g : Config E σ Λ α) (as : List ι) : Prop :=
  List.Forall₂ (K.At g.shared) g.calls as

theorem stable (K : Rely P I R A Q Z) {s s' : σ} {t : Call E Λ α} {a : ι} (hR : R s s')
    (h : K.At s t a) : K.At s' t a := by
  rcases t with ⟨_ | p, l⟩
  · exact K.ended a s s' l hR h
  · cases p with
    | done b => exact K.returned a b s s' l hR h
    | perform e k =>
        refine ⟨K.asserted a _ e s s' l hR h.1, fun c b w hr => h.2 c b w ?_⟩
        simp only [Calls.relying] at hr ⊢
        split at hr
        · rename_i hRI
          rw [if_pos ⟨K.trans _ _ _ hR hRI.1, hRI.2⟩]
          exact hr
        · cases hr

/-- The call at an index, with what it was made with. -/
theorem Each.at (K : Rely P I R A Q Z) {g : Config E σ Λ α} {as : List ι} (h : K.Each g as)
    {i : Nat} {t : Call E Λ α} (ht : g.calls[i]? = some t) :
    ∃ a, as[i]? = some a ∧ K.At g.shared t a := by
  have hall := List.forall₂_iff_get.mp h
  rcases List.getElem?_eq_some_iff.mp ht with ⟨hi, rfl⟩
  have hi' : i < as.length := hall.1 ▸ hi
  exact ⟨as[i], List.getElem?_eq_getElem hi', hall.2 i hi hi'⟩

/-- One call replaced, while the shared state develops. -/
theorem each_put (K : Rely P I R A Q Z) {g : Config E σ Λ α} {as : List ι} (h : K.Each g as)
    {i : Nat} {a : ι} (ha : as[i]? = some a) (prog : Option (Prog E α)) (r : σ × Λ)
    (hR : R g.shared r.1) (hput : K.At r.1 { prog := prog, loc := r.2 } a) :
    K.Each (g.put i prog r) as := by
  refine List.forall₂_iff_get.mpr ⟨?_, fun j hj hj' => ?_⟩
  · rw [Config.put, List.length_set]
    exact h.length_eq
  · change K.At r.1 (List.get (g.calls.set i _) ⟨j, hj⟩) as[j]
    rw [List.get_eq_getElem, List.getElem_set]
    rw [Config.put, List.length_set] at hj
    split
    · rename_i hij
      change i = j at hij
      subst hij
      rw [List.getElem?_eq_getElem hj'] at ha
      cases ha
      exact hput
    · exact K.stable hR ((List.forall₂_iff_get.mp h).2 j hj hj')

/-- Calls added with what they were made with. -/
theorem each_start (K : Rely P I R A Q Z) {g : Config E σ Λ α} {as bs : List ι} (h : K.Each g as)
    {ps : List (Prog E α × Λ)}
    (hps : List.Forall₂ (fun o a => K.At g.shared { prog := some o.1, loc := o.2 } a) ps bs) :
    K.Each (g.start ps) (as ++ bs) :=
  List.rel_append h (List.forall₂_map_left_iff.mpr hps)

theorem call (K : Rely P I R A Q Z) {g g' : Config E σ Λ α} {as : List ι} {a : ι}
    (hI : I g.shared) (h : K.Each g as) (hm : P.move g (.call a) = some g') :
    K.Each g' (as ++ [a]) := by
  cases hm
  exact K.each_start h (.cons (K.main a g.shared hI) .nil)

/-- One step. -/
theorem move (K : Rely P I R A Q Z) {g g' : Config E σ Λ α} {as : List ι} {e : Step ι χ}
    (hI : I g.shared) (h : K.Each g as) (hm : P.move g e = some g') :
    I g'.shared ∧ R g.shared g'.shared ∧ ∃ bs, K.Each g' (as ++ bs) := by
  cases e with
  | call a =>
      have heach := K.call hI h hm
      cases hm
      exact ⟨hI, K.refl _, _, heach⟩
  | perform i c =>
      simp only [Calls.move] at hm
      split at hm
      · rename_i β e k l hx
        rcases Option.map_eq_some_iff.mp hm with ⟨⟨b, s', l'⟩, hr, rfl⟩
        rcases Each.at K h hx with ⟨a, ha, hat⟩
        have hkeeps := K.perform a e _ l c b s' l' hI hat.1 hr
        refine ⟨hkeeps.1, hkeeps.2, [], ?_⟩
        rw [List.append_nil]
        refine K.each_put h ha _ _ hkeeps.2 ?_
        exact hat.2 (g.shared, c) b (s', l') ((if_pos ⟨K.refl _, hI⟩).trans hr)
      · cases hm
  | finish i =>
      simp only [Calls.move] at hm
      split at hm
      · rename_i b l hx
        cases hm
        rcases Each.at K h hx with ⟨a, ha, hat⟩
        refine ⟨hI, K.refl _, [], ?_⟩
        rw [List.append_nil]
        exact K.each_put h ha none (g.shared, P.ended (some b) l) (K.refl _) (K.finish a b _ l hat)
      · cases hm
  | drop i =>
      simp only [Calls.move] at hm
      split at hm
      · rename_i β e k l hx
        split at hm
        · cases hm
          rcases Each.at K h hx with ⟨a, ha, hat⟩
          refine ⟨hI, K.refl _, List.replicate (P.orphans (.perform e k) l).length a, ?_⟩
          have hput := K.each_put h ha none (g.shared, P.ended none l) (K.refl _)
            (K.drop a _ _ l hat)
          refine K.each_start hput ?_
          -- What goes on was made with the same argument.
          refine List.forall₂_iff_get.mpr ⟨List.length_replicate.symm, fun j hj hj' => ?_⟩
          rw [List.get_eq_getElem, List.get_eq_getElem, List.getElem_replicate]
          exact K.orphan a _ _ l hat _ (List.getElem_mem hj)
        · cases hm
      · cases hm
  | release i =>
      simp only [Calls.move] at hm
      split at hm
      · rename_i l hx
        rcases Option.map_eq_some_iff.mp hm with ⟨⟨s', l'⟩, hs, rfl⟩
        rcases Each.at K h hx with ⟨a, ha, hat⟩
        rcases K.release a _ l s' l' hI hat hs with ⟨hI', hR, hZ⟩
        refine ⟨hI', hR, [], ?_⟩
        rw [List.append_nil]
        exact K.each_put h ha none (s', l') hR hZ
      · cases hm
  | env c =>
      rcases Option.map_eq_some_iff.mp hm with ⟨s', hs, rfl⟩
      have hkeeps := K.env _ c s' hI hs
      refine ⟨hkeeps.1, hkeeps.2, [], ?_⟩
      rw [List.append_nil]
      exact List.Forall₂.imp (fun _ _ => K.stable hkeeps.2) h

section Runs

variable {L : Limits E σ Λ ι χ} {init : σ → Prop} {g g₁ g' : Config E σ Λ α}
  {es : List (Step ι χ)}

theorem run (K : Rely P I R A Q Z) {as : List ι} (hI : I g.shared) (h : K.Each g as)
    (hrun : Transition.Run (P.system L init) g es g') :
    I g'.shared ∧ R g.shared g'.shared ∧ ∃ bs, K.Each g' (as ++ bs) := by
  induction hrun with
  | refl => exact ⟨hI, K.refl _, [], by rwa [List.append_nil]⟩
  | snoc _ hs ih =>
      rcases ih with ⟨hI', hR, bs, heach⟩
      rcases K.move hI' heach hs.2 with ⟨hI'', hR', cs, heach'⟩
      exact ⟨hI'', K.trans _ _ _ hR hR', bs ++ cs, by rwa [← List.append_assoc]⟩

theorem reachable (K : Rely P I R A Q Z) (hinit : ∀ s, init s → I s)
    (h : Transition.Reachable (P.system L init) g) : I g.shared ∧ ∃ as, K.Each g as := by
  rcases h with ⟨g₀, es, ⟨hs, hcalls⟩, hrun⟩
  have hnone : K.Each g₀ [] := by
    rw [Each, hcalls]
    exact .nil
  rcases K.run (hinit _ hs) hnone hrun with ⟨hI, _, bs, heach⟩
  exact ⟨hI, _, heach⟩

/-- A call, at any time after it was made. -/
theorem called (K : Rely P I R A Q Z) (hinit : ∀ s, init s → I s)
    (hg : Transition.Reachable (P.system L init) g) {a : ι}
    (hcall : (P.system L init).step g (.call a) g₁)
    (hrun : Transition.Run (P.system L init) g₁ es g') {t : Call E Λ α}
    (ht : g'.calls[g.calls.length]? = some t) : I g'.shared ∧ K.At g'.shared t a := by
  rcases K.reachable hinit hg with ⟨hI, as, heach⟩
  rcases K.move hI heach hcall.2 with ⟨hI₁, _⟩
  have hmade := K.call hI heach hcall.2
  rcases K.run hI₁ hmade hrun with ⟨hI', _, bs, heach'⟩
  rcases Each.at K heach' ht with ⟨b, hb, hat⟩
  have hlen : g.calls.length = as.length := heach.length_eq
  rw [hlen, List.append_assoc, List.getElem?_append_right (Nat.le_refl _), Nat.sub_self] at hb
  cases hb
  exact ⟨hI', hat⟩

end Runs

end Rely

end Concurrent
