import TinyRuntime.Lib.Concurrent
import Mathlib.Logic.Hydra

/-!
# Progress

Calls that are left to themselves: nobody calls, nobody drops a call, and nothing comes
from outside. Then every call has only so many effects before it, and so all of them
together have no infinite history. What is left to show of calls is that they are not
stuck before they have ended.

## Main definitions

* `Calls.Onward`: One step of calls left to themselves.
* `Config.unfinished`: How many calls have not ended.
* `Ends`: Every way on has an end, and what is there at the end.

## Theorems

* `onward_wf`: Calls left to themselves stop.
* `ends_of_progress`, `ends_reachable`: What is there when they stop, if they do not stop
  before.
* `Ends.exists`: Such an end.
-/

namespace Concurrent

universe u

variable {E : Type → Type} {σ : Type u} {Λ ι χ α : Type}

/-- Whether a step is one by which a call goes on. -/
def Step.onward : Step ι χ → Bool
  | .perform _ _ => true
  | .finish _ => true
  | .release _ => true
  | _ => false

/-- One step by which a call goes on. -/
def Calls.Onward (P : Calls E σ Λ ι χ α) (L : Limits E σ Λ ι χ) (g g' : Config E σ Λ α) : Prop :=
  ∃ e : Step ι χ, e.onward = true ∧ L.allow g e ∧ P.move g e = some g'

/-- Every way on from here has an end, and this holds there. -/
structure Ends {γ : Type _} (next : γ → γ → Prop) (R : γ → Prop) (g : γ) : Prop where
  finite : Acc (fun g' g => next g g') g
  last : ∀ g', Relation.ReflTransGen next g g' → (∀ g'', ¬ next g' g'') → R g'

theorem Ends.mono {γ : Type _} {next : γ → γ → Prop} {R R' : γ → Prop} {g : γ}
    (h : Ends next R g) (hR : ∀ g', R g' → R' g') : Ends next R' g :=
  ⟨h.finite, fun g' hway hstop => hR g' (h.last g' hway hstop)⟩

theorem Ends.exists {γ : Type _} {next : γ → γ → Prop} {R : γ → Prop} {g : γ}
    (h : Ends next R g) : ∃ g', Relation.ReflTransGen next g g' ∧ R g' := by
  have hend : ∃ g', Relation.ReflTransGen next g g' ∧ ∀ g'', ¬ next g' g'' := by
    have hfinite := h.finite
    clear h
    induction hfinite with
    | intro g _ ih =>
        by_cases hstop : ∀ g', ¬ next g g'
        · exact ⟨g, .refl, hstop⟩
        · push Not at hstop
          rcases hstop with ⟨g₁, hstep⟩
          rcases ih g₁ hstep with ⟨g', hway, hlast⟩
          exact ⟨g', .head hstep hway, hlast⟩
  rcases hend with ⟨g', hway, hlast⟩
  exact ⟨g', hway, h.last g' hway hlast⟩

/-- One call further on: an effect less, or ended and with less to drop. -/
inductive Call.Later (rank : Λ → Nat) : Call E Λ α → Call E Λ α → Prop
  | performed {β : Type} {e : E β} {k : β → Prog E α} {b : β} {l l' : Λ} :
      Call.Later rank { prog := some (k b), loc := l' } { prog := some (.perform e k), loc := l }
  | finished {a : α} {l l' : Λ} :
      Call.Later rank { prog := none, loc := l' } { prog := some (.done a), loc := l }
  | released {l l' : Λ} (h : rank l' < rank l) :
      Call.Later rank { prog := none, loc := l' } { prog := none, loc := l }

/-- What the locals add up to, if only calls of a kind add anything. -/
theorem tally_le_countP {f : Λ → Nat} {kind : Call E Λ α → Bool} {calls : List (Call E Λ α)}
    (h : ∀ t ∈ calls, f t.loc ≤ if kind t then 1 else 0) :
    tally f (calls.map Call.loc) ≤ calls.countP kind := by
  induction calls with
  | nil => exact Nat.le_refl 0
  | cons t ts ih =>
      rcases List.forall_mem_cons.mp h with ⟨ht, hts⟩
      rw [List.map_cons, tally_cons, List.countP_cons, Nat.add_comm]
      exact Nat.add_le_add (ih hts) ht

/-- The same if one of that kind adds nothing. -/
theorem tally_lt_countP {f : Λ → Nat} {kind : Call E Λ α → Bool} {calls : List (Call E Λ α)}
    (h : ∀ t ∈ calls, f t.loc ≤ if kind t then 1 else 0) {t : Call E Λ α} (ht : t ∈ calls)
    (hkind : kind t = true) (hzero : f t.loc = 0) :
    tally f (calls.map Call.loc) < calls.countP kind := by
  rcases List.append_of_mem ht with ⟨l₁, l₂, rfl⟩
  have hrest : tally f ((l₁ ++ l₂).map Call.loc) ≤ (l₁ ++ l₂).countP kind :=
    tally_le_countP fun u hu => h u (List.perm_middle.mem_iff.mpr (List.mem_cons_of_mem _ hu))
  rw [tally_perm f (List.perm_middle.map Call.loc), List.perm_middle.countP_eq, List.map_cons,
    tally_cons, hzero, List.countP_cons_of_pos hkind]
  omega

section Later

variable {rank : Λ → Nat}

theorem later_ended (l : Λ) :
    Acc (Call.Later rank) ({ prog := none, loc := l } : Call E Λ α) := by
  generalize hn : rank l = n
  induction n using Nat.strong_induction_on generalizing l with
  | _ n ih =>
      refine ⟨_, fun t ht => ?_⟩
      cases ht with
      | released h => exact ih _ (hn ▸ h) _ rfl

theorem later_wf (rank : Λ → Nat) :
    WellFounded (Call.Later rank : Call E Λ α → Call E Λ α → Prop) := by
  refine ⟨fun t => ?_⟩
  rcases t with ⟨prog, l⟩
  cases prog with
  | none => exact later_ended l
  | some p =>
      induction p generalizing l with
      | done a =>
          refine ⟨_, fun t ht => ?_⟩
          cases ht with
          | finished => exact later_ended _
      | perform e k ih =>
          refine ⟨_, fun t ht => ?_⟩
          cases ht with
          | performed => exact ih _ _

variable {P : Calls E σ Λ ι χ α} {L : Limits E σ Λ ι χ} {g g' : Config E σ Λ α}

/-- One call replaced by a later one. -/
theorem later_put {i : Nat} {t : Call E Λ α} {prog : Option (Prog E α)} {r : σ × Λ}
    (ht : g.calls[i]? = some t) (hlater : Call.Later rank { prog := prog, loc := r.2 } t) :
    Relation.CutExpand (Call.Later rank) (Multiset.ofList (g.put i prog r).calls)
      (Multiset.ofList g.calls) := by
  rcases set_split ht with ⟨l₁, l₂, hl, hset⟩
  have hsplit : ∀ x : Call E Λ α,
      Multiset.ofList (l₁ ++ x :: l₂) = Multiset.ofList (l₁ ++ l₂) + {x} := by
    intro x
    rw [add_comm, Multiset.singleton_add, Multiset.cons_coe]
    exact Multiset.coe_eq_coe.mpr List.perm_middle
  rw [Config.put, hset, hl, hsplit, hsplit, Relation.cutExpand_add_left]
  exact Relation.cutExpand_singleton_singleton hlater

/-- Calls left to themselves stop, if a call that has ended drops its locals one after the
    other. -/
theorem onward_wf (hrank : ∀ s l s' l', P.release (s, l) = some (s', l') → rank l' < rank l) :
    WellFounded fun g' g => P.Onward L g g' := by
  refine Subrelation.wf ?_
    (InvImage.wf (fun g : Config E σ Λ α => Multiset.ofList g.calls)
      (later_wf rank).cutExpand)
  rintro g' g ⟨e, he, _, hm⟩
  cases e with
  | perform i c =>
      simp only [Calls.move] at hm
      split at hm
      · rename_i hx
        rcases Option.map_eq_some_iff.mp hm with ⟨r, _, rfl⟩
        exact later_put hx .performed
      · cases hm
  | finish i =>
      simp only [Calls.move] at hm
      split at hm
      · rename_i hx
        cases hm
        exact later_put hx .finished
      · cases hm
  | release i =>
      simp only [Calls.move] at hm
      split at hm
      · rename_i hx
        rcases Option.map_eq_some_iff.mp hm with ⟨r, hr, rfl⟩
        exact later_put hx (.released (hrank _ _ r.1 r.2 hr))
      · cases hm
  | call a => cases he
  | drop i => cases he
  | env c => cases he

/-- They end, if an invariant of theirs says that they are not stuck before. -/
theorem ends_of_progress {I R : Config E σ Λ α → Prop}
    (hrank : ∀ s l s' l', P.release (s, l) = some (s', l') → rank l' < rank l)
    (hkeep : ∀ g g', I g → P.Onward L g g' → I g')
    (hprogress : ∀ g, I g → (∀ g', ¬ P.Onward L g g') → R g) (h : I g) :
    Ends (P.Onward L) R g := by
  have hall : ∀ g', Relation.ReflTransGen (P.Onward L) g g' → I g' := by
    intro g' hway
    induction hway with
    | refl => exact h
    | tail _ hstep ih => exact hkeep _ _ ih hstep
  exact ⟨(onward_wf hrank).apply g, fun g' hway hstop => hprogress g' (hall g' hway) hstop⟩

/-- A call that goes on is replaced, and does not begin again. -/
theorem Calls.Onward.put (h : P.Onward L g g') : ∃ i t prog r, g.calls[i]? = some t ∧
    g' = g.put i prog r ∧ (t.prog = none → prog = none) := by
  rcases h with ⟨e, he, _, hm⟩
  cases e with
  | perform i c =>
      simp only [Calls.move] at hm
      split at hm
      · rename_i hx
        rcases Option.map_eq_some_iff.mp hm with ⟨r, _, rfl⟩
        exact ⟨i, _, _, _, hx, rfl, fun h => by cases h⟩
      · cases hm
  | finish i =>
      simp only [Calls.move] at hm
      split at hm
      · rename_i hx
        cases hm
        exact ⟨i, _, _, _, hx, rfl, fun _ => rfl⟩
      · cases hm
  | release i =>
      simp only [Calls.move] at hm
      split at hm
      · rename_i hx
        rcases Option.map_eq_some_iff.mp hm with ⟨r, _, rfl⟩
        exact ⟨i, _, _, _, hx, rfl, fun _ => rfl⟩
      · cases hm
  | call a => cases he
  | drop i => cases he
  | env c => cases he

theorem Calls.Onward.length (h : P.Onward L g g') : g'.calls.length = g.calls.length := by
  rcases h.put with ⟨i, t, prog, r, _, rfl, _⟩
  exact List.length_set

/-- The calls that have not ended. -/
def Config.unfinished (g : Config E σ Λ α) : Nat :=
  g.calls.countP fun t => t.prog.isSome

theorem Calls.Onward.unfinished (h : P.Onward L g g') : g'.unfinished ≤ g.unfinished := by
  rcases h.put with ⟨i, t, prog, r, ht, rfl, hprog⟩
  rcases set_split ht with ⟨l₁, l₂, hl, hset⟩
  rw [Config.unfinished, Config.unfinished, Config.put, hset, hl, List.countP_append,
    List.countP_append, List.countP_cons, List.countP_cons]
  refine Nat.add_le_add_left (Nat.add_le_add_left ?_ _) _
  cases ht' : t.prog with
  | none => rw [hprog ht']
  | some p =>
      split
      · exact Nat.le_refl 1
      · exact Nat.zero_le 1

/-- Every call of the first that had not ended is there in the second, and has not ended
    there either or was told something. -/
def Config.Going (told : Λ → Prop) (g g' : Config E σ Λ α) : Prop :=
  ∀ (i : Nat) t, g.calls[i]? = some t → t.prog ≠ none →
    ∃ t', g'.calls[i]? = some t' ∧ (t'.prog ≠ none ∨ told t'.loc)

/-- A call is told its result when it returns, and keeps it. -/
theorem Calls.Onward.going {told : Λ → Prop} (hfinish : ∀ a l, told (P.ended (some a) l))
    (hrelease : ∀ s l s' l', told l → P.release (s, l) = some (s', l') → told l') {i : Nat}
    (h : ∃ t, g.calls[i]? = some t ∧ (t.prog ≠ none ∨ told t.loc)) (hstep : P.Onward L g g') :
    ∃ t, g'.calls[i]? = some t ∧ (t.prog ≠ none ∨ told t.loc) := by
  rcases h with ⟨t, ht, hgoing⟩
  have hlt : i < g'.calls.length := by
    rw [hstep.length]
    exact (List.getElem?_eq_some_iff.mp ht).choose
  refine ⟨g'.calls[i], List.getElem?_eq_getElem hlt, ?_⟩
  rcases hstep with ⟨e, he, _, hm⟩
  have hturn := turn_of_move hm (List.getElem?_eq_getElem hlt)
  generalize g'.calls[i] = u at hturn
  cases hturn with
  | kept h =>
      rw [ht] at h
      cases h
      exact hgoing
  | called a => cases he
  | performed h hr => exact .inl (Option.some_ne_none _)
  | finished h => exact .inr (hfinish _ _)
  | dropped h => cases he
  | orphaned h ho => cases he
  | released h hr =>
      rw [ht] at h
      cases h
      exact .inr (hrelease _ _ _ _ (hgoing.resolve_left fun hne => hne rfl) hr)

/-- Calls left to themselves from a reachable configuration on end, with no more of them
    than there were, and whoever returns is told its result. -/
theorem ends_reachable {init : σ → Prop} {R : Config E σ Λ α → Prop} (told : Λ → Prop)
    (h : Transition.Reachable (P.system .none init) g)
    (hrank : ∀ s l s' l', P.release (s, l) = some (s', l') → rank l' < rank l)
    (hfinish : ∀ a l, told (P.ended (some a) l))
    (hrelease : ∀ s l s' l', told l → P.release (s, l) = some (s', l') → told l')
    (hprogress : ∀ g', Transition.Reachable (P.system .none init) g' →
      g'.unfinished ≤ g.unfinished → (∀ g'', ¬ P.Onward L g' g'') → R g') :
    Ends (P.Onward L) (fun g' => R g' ∧ g.Going told g') g := by
  refine ends_of_progress (I := fun g' => Transition.Reachable (P.system .none init) g' ∧
    g'.unfinished ≤ g.unfinished ∧ g.Going told g') hrank ?_ ?_
    ⟨h, Nat.le_refl _, fun i t ht hprog => ⟨t, ht, .inl hprog⟩⟩
  · rintro g₁ g₂ ⟨hreach, hle, hgoing⟩ hstep
    refine ⟨?_, hstep.unfinished.trans hle, fun i t ht hprog =>
      hstep.going hfinish hrelease (hgoing i t ht hprog)⟩
    rcases hstep with ⟨e, _, _, hm⟩
    exact Transition.reachable_step hreach ⟨Limits.none_allow g₁ e, hm⟩
  · exact fun g' hg hstuck => ⟨hprogress g' hg.1 hg.2.1 hstuck, hg.2.2⟩

end Later

end Concurrent
