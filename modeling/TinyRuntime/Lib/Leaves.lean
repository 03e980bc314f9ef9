import TinyRuntime.Lib.Concurrent

/-!
# What a Program Returns Last

A program that returns right after an effect returns what the answer to that effect says.
This is read off the text of the program. It needs no state, and so it holds in every
history: whoever else moves in between, the last effect of a call and the value it
returns belong together.

## Main definitions

* `Prog.Last`: What is returned right after an effect goes with its answer.

## Theorems

* `last_bind`, `last_run_bind`: Sequences.
* `last_upTo`: A program that ends early.
* `last_reachable`: The calls of any history.
* `last_performed`: A call that returns right after an effect.
-/

universe u

namespace Prog

variable {E : Type → Type} {α β γ ε : Type}

/-- Every value that is returned right after an effect goes with the answer to it. -/
def Last (R : ∀ β, E β → β → α → Prop) : Prog E α → Prop
  | .done _ => True
  | .perform e k => ∀ b, (∀ a, k b = .done a → R _ e b a) ∧ (k b).Last R

theorem last_mono {R R' : ∀ β, E β → β → α → Prop}
    (hR : ∀ β (e : E β) b a, R β e b a → R' β e b a) {p : Prog E α} (h : p.Last R) :
    p.Last R' := by
  induction p with
  | done a => trivial
  | perform e k ih => exact fun b => ⟨fun a ha => hR _ e b a ((h b).1 a ha), ih b (h b).2⟩

/-- Nothing is asked of it. -/
theorem last_of_forall {R : ∀ β, E β → β → α → Prop} (h : ∀ β (e : E β) b a, R β e b a)
    (p : Prog E α) : p.Last R := by
  induction p with
  | done a => trivial
  | perform e k ih => exact fun b => ⟨fun a _ => h _ e b a, ih b⟩

/-- A sequence returns right after an effect of its first part only if the rest has none. -/
theorem last_bind {R : ∀ β, E β → β → γ → Prop} {p : Prog E α} {f : α → Prog E γ}
    (hp : p.Last fun β e b a => ∀ x, f a = .done x → R β e b x) (hf : ∀ a, (f a).Last R) :
    (p >>= f).Last R := by
  change (p.bind f).Last R
  induction p with
  | done a => exact hf a
  | perform e k ih =>
      refine fun b => ⟨fun x hx => ?_, ih b (hp b).2⟩
      change (k b).bind f = .done x at hx
      cases hk : k b with
      | done a =>
          rw [hk] at hx
          exact (hp b).1 a hk x hx
      | perform e' k' =>
          rw [hk] at hx
          cases hx

/-- A sequence that stops at the first error, if nothing is asked of errors. -/
theorem last_run_bind {R : ∀ β, E β → β → Except ε γ → Prop} {x : ExceptT ε (Prog E) α}
    {f : α → ExceptT ε (Prog E) γ} (herror : ∀ β (e : E β) b error, R β e b (.error error))
    (hx : x.run.Last fun β e b a => ∀ v y, a = .ok v → (f v).run = .done y → R β e b y)
    (hf : ∀ a, (f a).run.Last R) : (x >>= f).run.Last R := by
  rw [ExceptT.run_bind]
  refine last_bind (last_mono ?_ hx) fun r => ?_
  · intro β e b r h y hy
    cases r with
    | error error =>
        cases hy
        exact herror β e b error
    | ok v => exact h v y rfl hy
  · cases r with
    | error error => trivial
    | ok a => exact hf a

/-- A program that ends with the first effect of a kind. -/
theorem last_upTo {R : ∀ β, E β → β → α → Prop} {stop : ∀ β, E β → Bool} {a : α}
    (ha : ∀ β (e : E β) b, R β e b a) {p : Prog E α} (h : p.Last R) : (p.upTo stop a).Last R := by
  induction p with
  | done x => trivial
  | perform e k ih =>
      rw [upTo]
      split
      · refine fun b => ⟨fun x hx => ?_, trivial⟩
        cases hx
        exact ha _ e b
      · refine fun b => ⟨fun x hx => (h b).1 x ?_, ih b (h b).2⟩
        change (k b).upTo stop a = .done x at hx
        cases hk : k b with
        | done y =>
            rw [hk] at hx
            exact hx
        | perform e' k' =>
            rw [hk, upTo] at hx
            split at hx <;> cases hx

/-- A sequence has returned if both parts have. -/
theorem bind_eq_done {p : Prog E α} {f : α → Prog E β} {x : β} (h : p >>= f = .done x) :
    ∃ a, p = .done a ∧ f a = .done x := by
  cases p with
  | done a => exact ⟨a, rfl, h⟩
  | perform e k => cases h

end Prog

namespace Concurrent

variable {E : Type → Type} {σ : Type u} {Λ ι χ α κ : Type} {P : Calls E σ Λ ι χ α}
  {L : Limits E σ Λ ι χ} {g g' : Config E σ Λ α}

/-- The calls of any history return what their last answers say. What goes with an answer
    may depend on something a call never changes. -/
theorem last_reachable {init : σ → Prop} {key : Λ → κ} {R : κ → ∀ β, E β → β → α → Prop}
    (hmain : ∀ a, (P.main a).Last (R (key (P.fresh a))))
    (hkey : ∀ {β : Type} (e : E β) s l c b s' l',
      P.handler.respond e (s, l) c = some (b, s', l') → key l' = key l)
    (horphans : ∀ p l, p.Last (R (key l)) →
      ∀ o ∈ P.orphans p l, o.1.Last (R (key o.2)))
    (h : Transition.Reachable (P.system L init) g) : g.Each fun p l => p.Last (R (key l)) := by
  have hjoint : Joint P L (fun p l => p.Last (R (key l))) fun _ _ => True := by
    refine ⟨fun s ls a _ _ => ⟨hmain a, trivial⟩, ?_, fun _ _ _ _ _ _ _ => trivial, ?_,
      fun _ _ _ _ _ _ _ _ => trivial, fun _ _ _ _ _ _ => trivial⟩
    · intro β e k s l₁ l l₂ c b s' l' _ hlast _ hr
      rw [hkey e s l c b s' l' hr]
      exact ⟨(hlast b).2, trivial⟩
    · exact fun e k s l₁ l l₂ _ _ hlast _ => ⟨horphans _ l hlast, trivial⟩
  exact (hjoint.reachable (fun _ _ => trivial) h).1

/-- A call that returns right after an effect. -/
theorem last_performed {R : Prog E α → Λ → Prop} {i : Nat} {c : χ} {t : Call E Λ α} {a : α}
    (hg : g.Each R) (hm : P.move g (.perform i c) = some g') (ht : g'.calls[i]? = some t)
    (hdone : t.prog = some (.done a)) : ∃ (β : Type) (e : E β) (k : β → Prog E α) (l : Λ) (b : β),
      R (.perform e k) l ∧ P.handler.respond e (g.shared, l) c = some (b, g'.shared, t.loc) ∧
        k b = .done a := by
  simp only [Calls.move] at hm
  split at hm
  · rename_i β e k l hx
    rcases Option.map_eq_some_iff.mp hm with ⟨⟨b, s', l'⟩, hr, rfl⟩
    have hlt : i < g.calls.length := (List.getElem?_eq_some_iff.mp hx).choose
    have hnew : t = { prog := some (k b), loc := l' } := by
      rw [Config.put, List.getElem?_set_self hlt] at ht
      exact (Option.some.inj ht).symm
    subst hnew
    exact ⟨β, e, k, l, b, hg _ (List.mem_of_getElem? hx) _ rfl, hr, Option.some.inj hdone⟩
  · cases hm

end Concurrent
