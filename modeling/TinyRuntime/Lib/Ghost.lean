import TinyRuntime.Lib.Concurrent

/-!
# Notes

Calls that note something down as they go, for a statement about what they did before.

A note is one more local of a call. An effect changes it by what the effect was and what
it answered, and no code reads it. So the calls do with their notes what they do without:
every history of the calls is one of the calls with their notes, up to the notes.

## Main definitions

* `Calls.noting`: The same calls, each with a note.
* `Config.forget`: A configuration without the notes.

## Theorems

* `noting_move`: One step is a step with notes.
* `noting_reachable`: So is a history.
* `wp_noting`: What a call does by itself, it does with its note.
-/

namespace Concurrent

universe u

variable {E : Type → Type} {σ : Type u} {Λ ι χ α G : Type}

/-- The same calls, each with a note that starts out as `start`. -/
def Calls.noting (P : Calls E σ Λ ι χ α) (note : ∀ β, E β → β → G → G) (start : G) :
    Calls E σ (Λ × G) ι χ α where
  handler :=
    { respond := fun e w c => (P.handler.respond e (w.1, w.2.1) c).map fun r =>
        (r.1, r.2.1, r.2.2, note _ e r.1 w.2.2) }
  suspends := P.suspends
  main := P.main
  fresh a := (P.fresh a, start)
  orphans p l := (P.orphans p l.1).map fun o => (o.1, o.2, l.2)
  ended result l := (P.ended result l.1, l.2)
  release w := (P.release (w.1, w.2.1)).map fun r => (r.1, r.2, w.2.2)
  env := P.env

/-- A call without its note. -/
def Call.forget (t : Call E (Λ × G) α) : Call E Λ α :=
  { prog := t.prog, loc := t.loc.1 }

/-- A configuration without the notes. -/
def Config.forget (g : Config E σ (Λ × G) α) : Config E σ Λ α :=
  { shared := g.shared, calls := g.calls.map Call.forget }

section Noting

variable {P : Calls E σ Λ ι χ α} {note : ∀ β, E β → β → G → G} {start : G}

theorem forget_locals (g : Config E σ (Λ × G) α) : g.forget.locals = g.locals.map Prod.fst := by
  rw [Config.locals, Config.locals, Config.forget, List.map_map, List.map_map]
  rfl

/-- A call that is there, with its note. -/
theorem forget_getElem? {g : Config E σ (Λ × G) α} {i : Nat} {t : Call E Λ α}
    (h : g.forget.calls[i]? = some t) :
    ∃ n, g.calls[i]? = some { prog := t.prog, loc := (t.loc, n) } := by
  rw [Config.forget, List.getElem?_map] at h
  rcases Option.map_eq_some_iff.mp h with ⟨⟨p, l, n⟩, ht, rfl⟩
  exact ⟨n, ht⟩

theorem forget_put (g : Config E σ (Λ × G) α) (i : Nat) (prog : Option (Prog E α)) (s : σ) (l : Λ)
    (n : G) : (g.put i prog (s, l, n)).forget = g.forget.put i prog (s, l) := by
  rw [Config.put, Config.forget, List.map_set]
  rfl

theorem forget_start (g : Config E σ (Λ × G) α) (ps : List (Prog E α × Λ)) (n : G) :
    (g.start (ps.map fun o => (o.1, o.2, n))).forget = g.forget.start ps := by
  rw [Config.start, Config.forget, List.map_append, List.map_map, List.map_map]
  rfl

/-- One step is a step with notes. -/
theorem noting_move {g' : Config E σ (Λ × G) α} {g₁ : Config E σ Λ α} {e : Step ι χ}
    (h : P.move g'.forget e = some g₁) :
    ∃ g₁', (P.noting note start).move g' e = some g₁' ∧ g₁'.forget = g₁ := by
  cases e with
  | call a =>
      cases h
      exact ⟨_, rfl, forget_start g' [(P.main a, P.fresh a)] start⟩
  | perform i c =>
      simp only [Calls.move] at h
      split at h
      · rename_i β e k l ht
        rcases forget_getElem? ht with ⟨n, ht'⟩
        rcases Option.map_eq_some_iff.mp h with ⟨⟨b, s, l'⟩, hr, rfl⟩
        have hr' : P.handler.respond e (g'.shared, l) c = some (b, s, l') := hr
        refine ⟨g'.put i (some (k b)) (s, l', note _ e b n), ?_, forget_put ..⟩
        simp only [Calls.move, ht', Calls.noting, hr', Option.map_some]
      · cases h
  | finish i =>
      simp only [Calls.move] at h
      split at h
      · rename_i a l ht
        rcases forget_getElem? ht with ⟨n, ht'⟩
        cases h
        refine ⟨g'.put i none (g'.shared, P.ended (some a) l, n), ?_, forget_put ..⟩
        simp only [Calls.move, ht', Calls.noting]
      · cases h
  | drop i =>
      simp only [Calls.move] at h
      split at h
      · rename_i β e k l ht
        rcases forget_getElem? ht with ⟨n, ht'⟩
        split at h
        · rename_i hsuspends
          cases h
          refine ⟨(g'.put i none (g'.shared, P.ended none l, n)).start
            ((P.orphans (.perform e k) l).map fun o => (o.1, o.2, n)), ?_, ?_⟩
          · simp only [Calls.move, ht', Calls.noting, hsuspends, if_true]
          · rw [forget_start, forget_put]
            rfl
        · cases h
      · cases h
  | release i =>
      simp only [Calls.move] at h
      split at h
      · rename_i l ht
        rcases forget_getElem? ht with ⟨n, ht'⟩
        rcases Option.map_eq_some_iff.mp h with ⟨⟨s, l'⟩, hr, rfl⟩
        have hr' : P.release (g'.shared, l) = some (s, l') := hr
        refine ⟨g'.put i none (s, l', n), ?_, forget_put ..⟩
        simp only [Calls.move, ht', Calls.noting, hr', Option.map_some]
      · cases h
  | env c =>
      rcases Option.map_eq_some_iff.mp h with ⟨s, hs, rfl⟩
      have hs' : P.env g'.shared c = some s := hs
      refine ⟨{ g' with shared := s }, ?_, rfl⟩
      simp only [Calls.move, Calls.noting, hs', Option.map_some]

/-- A history is a history with notes. -/
theorem noting_reachable {init : σ → Prop} {g : Config E σ Λ α}
    (h : Transition.Reachable (P.system .none init) g) :
    ∃ g', Transition.Reachable ((P.noting note start).system .none init) g' ∧ g'.forget = g := by
  rcases h with ⟨g₀, es, ⟨hs, hcalls⟩, hrun⟩
  induction hrun with
  | refl =>
      refine ⟨{ shared := g₀.shared, calls := [] }, Transition.reachable_init ⟨hs, rfl⟩, ?_⟩
      rw [Config.forget, List.map_nil, ← hcalls]
  | snoc _ hstep ih =>
      rcases ih with ⟨g', hg', rfl⟩
      rcases noting_move hstep.2 with ⟨g₁', hmove, rfl⟩
      exact ⟨g₁', Transition.reachable_step hg' ⟨Limits.none_allow _ _, hmove⟩, rfl⟩

/-- What a call does by itself, it does with its note. -/
theorem wp_noting {A : ∀ β, E β → Λ → Prop} {Q : α → Λ → Prop} (p : Prog E α) :
    ∀ (l : Λ) (n : G), p.wp P.localised A Q l →
      p.wp (P.noting note start).localised (fun β e w => A β e w.1) (fun a w => Q a w.1) (l, n) := by
  induction p with
  | done a => exact fun l n h => h
  | perform e k ih =>
      rintro l n ⟨hA, hnext⟩
      refine ⟨hA, fun c b w hr => ?_⟩
      rcases Option.map_eq_some_iff.mp hr with ⟨⟨b', s, w'⟩, hr', heq⟩
      cases heq
      rcases Option.map_eq_some_iff.mp hr' with ⟨⟨b'', s'', l''⟩, hrespond, heq⟩
      cases heq
      refine ih _ _ _ (hnext c _ _ ?_)
      have hlocal : P.handler.respond e (c.1, l) c.2 = some (b'', s'', l'') := hrespond
      simp only [Calls.localised, hlocal, Option.map_some]

end Noting

end Concurrent
