import TinyRuntime.Lib.Concurrent

/-!
# Typestates

What a program does in which order, read off its text. An automaton moves at every
effect, whatever the answer is. A program walks from one of its states to another if
none of its effects is out of place and every way through it ends there.

Where the state of the automaton can be read off the locals of a call, the locals say at
every moment what is left to do, and a joint invariant may rely on it (`Joint.typed`).

## Main definitions

* `Prog.Walks`: Every way through a program leads from one state to another.

## Theorems

* `walks_bind`, `walks_run_bind`: Sequences.
* `walks_uses`: A program that stays where it is.
* `walks_upTo`: A program that ends early, where it would have ended.
* `Joint.typed`: A joint invariant that relies on the typestate.
-/

universe u

namespace Prog

variable {E : Type → Type} {τ α β γ ε : Type} {δ : ∀ β, E β → τ → Option τ} {t t' t'' : τ}

/-- Every way through a program leads from one state of the automaton to another. -/
def Walks (δ : ∀ β, E β → τ → Option τ) : Prog E α → τ → τ → Prop
  | .done _, t, t' => t = t'
  | .perform e k, t, t' => ∃ u, δ _ e t = some u ∧ ∀ b, (k b).Walks δ u t'

theorem walks_op {e : E β} (h : δ _ e t = some t') : (op e).Walks δ t t' :=
  ⟨t', h, fun _ => rfl⟩

theorem walks_pure (a : α) : (pure a : Prog E α).Walks δ t t := rfl

theorem walks_bind {p : Prog E α} {f : α → Prog E β} (hp : p.Walks δ t t')
    (hf : ∀ a, (f a).Walks δ t' t'') : (p >>= f).Walks δ t t'' := by
  change (p.bind f).Walks δ t t''
  induction p generalizing t with
  | done a =>
      cases hp
      exact hf a
  | perform e k ih =>
      rcases hp with ⟨u, hu, hk⟩
      exact ⟨u, hu, fun b => ih b (hk b)⟩

/-- A sequence that stops at the first error. -/
theorem walks_run_bind {x : ExceptT ε (Prog E) α} {f : α → ExceptT ε (Prog E) β}
    (hx : x.run.Walks δ t t) (hf : ∀ a, (f a).run.Walks δ t t) :
    (x >>= f).run.Walks δ t t := by
  change (Prog.bind x.run _).Walks δ t t
  refine walks_bind hx fun r => ?_
  cases r with
  | error e => exact walks_pure _
  | ok a => exact hf a

/-- Effects that leave the automaton where it is. -/
theorem walks_uses {p : Prog E α} (h : p.Uses fun β e => δ β e t = some t) :
    p.Walks δ t t := by
  induction p with
  | done a => rfl
  | perform e k ih => exact ⟨t, h.1, fun b => ih b (h.2 b)⟩

/-- A program that ends with the first effect of a kind, if that one leads to the end. -/
theorem walks_upTo {stop : ∀ β, E β → Bool} {a : α}
    (hstop : ∀ β (e : E β) u u', stop β e = true → δ β e u = some u' → u' = t')
    {p : Prog E α} (h : p.Walks δ t t') : (p.upTo stop a).Walks δ t t' := by
  induction p generalizing t with
  | done b => exact h
  | perform e k ih =>
      rcases h with ⟨u, hu, hk⟩
      rw [upTo]
      split
      · rename_i hstops
        exact ⟨u, hu, fun _ => hstop _ e t u hstops hu⟩
      · exact ⟨u, hu, fun b => ih b (hk b)⟩

end Prog

namespace Concurrent

variable {E : Type → Type} {σ : Type u} {Λ ι χ α τ : Type}

/-- A joint invariant that relies on the typestate of each call, which `view` reads off
    its locals. The order of the calls may not matter to `J`, so the one that moves is put
    first. -/
theorem Joint.typed {P : Calls E σ Λ ι χ α} {L : Limits E σ Λ ι χ} {T : Prog E α → Λ → Prop}
    {J : σ → List Λ → Prop} {δ : ∀ β, E β → τ → Option τ} {view : Λ → τ} {last : τ}
    (K : Joint P L T fun _ _ => True)
    (hmain : ∀ a, (P.main a).Walks δ (view (P.fresh a)) last)
    (hview : ∀ {β : Type} (e : E β) k s l c b s' l' t, T (.perform e k) l →
      P.handler.respond e (s, l) c = some (b, s', l') → δ β e (view l) = some t → view l' = t)
    (horphans : ∀ p l, T p l → p.Walks δ (view l) last →
      ∀ o ∈ P.orphans p l, o.1.Walks δ (view o.2) last)
    (hperm : ∀ s ls ls', ls.Perm ls' → J s ls → J s ls')
    (hcall : ∀ s ls a, L.calls s ls a → J s ls → J s (P.fresh a :: ls))
    (hperform : ∀ {β : Type} (e : E β) k s l ls c b s' l', L.performs _ e s l c →
      T (.perform e k) l → J s (l :: ls) → P.handler.respond e (s, l) c = some (b, s', l') →
      J s' (l' :: ls))
    (hfinish : ∀ a s l ls, T (.done a) l → view l = last → J s (l :: ls) →
      J s (P.ended (some a) l :: ls))
    (hdrop : ∀ {β : Type} (e : E β) k s l ls, P.suspends _ e = true → L.drops _ e s l →
      T (.perform e k) l → J s (l :: ls) →
      J s ((P.orphans (.perform e k) l).map Prod.snd ++ P.ended none l :: ls))
    (hrelease : ∀ s l ls s' l', J s (l :: ls) → P.release (s, l) = some (s', l') →
      J s' (l' :: ls))
    (henv : ∀ s ls c s', J s ls → P.env s c = some s' → J s' ls) :
    Joint P L (fun p l => T p l ∧ p.Walks δ (view l) last) J := by
  have hfirst : ∀ s l₁ (l : Λ) l₂, J s (l₁ ++ l :: l₂) ↔ J s (l :: (l₁ ++ l₂)) :=
    fun s l₁ l l₂ =>
      ⟨hperm s _ _ List.perm_middle, hperm s _ _ List.perm_middle.symm⟩
  refine ⟨?_, ?_, ?_, ?_, ?_, henv⟩
  · intro s ls a ha h
    exact ⟨⟨(K.call s ls a ha trivial).1, hmain a⟩,
      hperm s _ _ (List.perm_append_singleton _ _).symm (hcall s ls a ha h)⟩
  · rintro β e k s l₁ l l₂ c b s' l' hlim ⟨hT, t, ht, hk⟩ h hr
    rw [hfirst] at h ⊢
    refine ⟨⟨(K.perform e k s l₁ l l₂ c b s' l' hlim hT trivial hr).1, ?_⟩,
      hperform e k s l _ c b s' l' hlim hT h hr⟩
    rw [hview e k s l c b s' l' t hT hr ht]
    exact hk b
  · rintro a s l₁ l l₂ ⟨hT, hlast⟩ h
    rw [hfirst] at h ⊢
    exact hfinish a s l _ hT hlast h
  · rintro β e k s l₁ l l₂ hsus hlim ⟨hT, hw⟩ h
    rw [hfirst] at h
    refine ⟨fun o ho => ⟨(K.drop e k s l₁ l l₂ hsus hlim hT trivial).1 o ho,
      horphans _ l hT hw o ho⟩, hperm s _ _ ?_ (hdrop e k s l _ hsus hlim hT h)⟩
    exact List.perm_append_comm.trans (List.Perm.append_right _ List.perm_middle.symm)
  · intro s l₁ l l₂ s' l' h hr
    rw [hfirst] at h ⊢
    exact hrelease s l _ s' l' h hr

end Concurrent
