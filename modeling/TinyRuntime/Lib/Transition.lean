import Mathlib.Logic.Relation

/-!
# Labelled Transition Systems

Runs of a labelled step relation, and the two rules every safety argument is
built from. `invariant` turns "it holds at the start and one step keeps it"
into "it holds in every state a run can reach". `run_keeps` does the same for
a relation between the first and the last state of a run, which is how "it
never goes back" is said.

A step carries its label so that a run is more than its end points. The
restriction of a system to the steps that meet a condition is again a system
(`restrict`), and a property of the runs whose steps all meet a condition is a
property of that system's runs.

Simulations are stated for the reachable states only: the step that has to be
matched starts in a state some run reaches, so invariants of the concrete
system are available while matching it.

## Main definitions

* `System`: Initial states and labelled steps.
* `Run`: A finite run with the labels it took, oldest first.
* `Reachable`: The end of some run from an initial state.
* `play`: A run computed from its labels.
* `restrict`: The same system, taking only the steps that meet a condition.

## Theorems

* `run_trans`: Runs compose.
* `reachable_init`: Initial states are reachable.
* `reachable_step`: A step leaves the reachable states inside themselves.
* `reachable_run`: So does a run.
* `play_append`: Computed runs compose.
* `reachable_play`: A computed run ends in a reachable state.
* `invariant`: The induction rule for invariants.
* `run_keeps`: The induction rule for relations a run keeps.
* `reachable_of_restrict`: Restricting the steps adds no state.
* `simulates`: A step-by-step simulation carries reachability across.
-/

namespace Transition

universe u v w x

variable {σ : Type u} {ε : Type v}

/-- A labelled transition system. -/
structure System (σ : Type u) (ε : Type v) where
  /-- The states a run may start in. -/
  init : σ → Prop
  /-- One step, with its label. -/
  step : σ → ε → σ → Prop

/-- A run of the system from `s`, with the labels of its steps. -/
inductive Run (S : System σ ε) (s : σ) : List ε → σ → Prop
  | refl : Run S s [] s
  | snoc {es : List ε} {t u : σ} {e : ε} :
      Run S s es t → S.step t e u → Run S s (es ++ [e]) u

/-- A state some run from an initial state ends in. -/
def Reachable (S : System σ ε) (t : σ) : Prop :=
  ∃ s es, S.init s ∧ Run S s es t

theorem run_trans {S : System σ ε} {s t u : σ} {es fs : List ε}
    (h : Run S s es t) (h' : Run S t fs u) : Run S s (es ++ fs) u := by
  induction h' with
  | refl => simpa only [List.append_nil] using h
  | snoc _ hstep ih =>
      rw [← List.append_assoc]
      exact Run.snoc ih hstep

theorem reachable_init {S : System σ ε} {s : σ} (h : S.init s) : Reachable S s :=
  ⟨s, [], h, Run.refl⟩

theorem reachable_step {S : System σ ε} {s t : σ} {e : ε}
    (h : Reachable S s) (hstep : S.step s e t) : Reachable S t := by
  rcases h with ⟨s₀, es, hinit, hrun⟩
  exact ⟨s₀, es ++ [e], hinit, Run.snoc hrun hstep⟩

theorem reachable_run {S : System σ ε} {s t : σ} {es : List ε}
    (h : Reachable S s) (hrun : Run S s es t) : Reachable S t := by
  rcases h with ⟨s₀, es₀, hinit, hrun₀⟩
  exact ⟨s₀, es₀ ++ es, hinit, run_trans hrun₀ hrun⟩

/-- A run computed by a partial step function. -/
def play (f : σ → ε → Option σ) : σ → List ε → Option σ
  | s, [] => some s
  | s, e :: es => (f s e).bind fun t => play f t es

theorem play_append {f : σ → ε → Option σ} {es fs : List ε} : ∀ {s : σ},
    play f s (es ++ fs) = (play f s es).bind fun t => play f t fs := by
  induction es with
  | nil => exact rfl
  | cons e es ih =>
      intro s
      simp only [List.cons_append, play, ih, Option.bind_assoc]

theorem reachable_play {S : System σ ε} {f : σ → ε → Option σ}
    (hf : ∀ s e t, f s e = some t → S.step s e t) {s t : σ} {es : List ε} (h : Reachable S s)
    (hp : play f s es = some t) : Reachable S t := by
  induction es generalizing s with
  | nil => exact Option.some.inj hp ▸ h
  | cons e es ih =>
      rcases Option.bind_eq_some_iff.mp hp with ⟨u, hu, hrest⟩
      exact ih (reachable_step h (hf s e u hu)) hrest

/-- What holds initially and is kept by every step holds in every reachable
    state. The step may use that its first state is reachable, so one
    invariant can be proved on top of another. -/
theorem invariant {S : System σ ε} (I : σ → Prop) (hinit : ∀ s, S.init s → I s)
    (hstep : ∀ s e t, Reachable S s → I s → S.step s e t → I t)
    {s : σ} (h : Reachable S s) : I s := by
  rcases h with ⟨s₀, es, h₀, hrun⟩
  induction hrun with
  | refl => exact hinit s₀ h₀
  | snoc hrun hs ih => exact hstep _ _ _ ⟨s₀, _, h₀, hrun⟩ ih hs

/-- A reflexive and transitive relation that every step keeps relates the two
    ends of a run. -/
theorem run_keeps {S : System σ ε} (R : σ → σ → Prop) (hrefl : ∀ s, R s s)
    (htrans : ∀ s t u, R s t → R t u → R s u)
    (hstep : ∀ s e t, Reachable S s → S.step s e t → R s t)
    {s t : σ} {es : List ε} (h : Reachable S s) (hrun : Run S s es t) : R s t := by
  induction hrun with
  | refl => exact hrefl s
  | snoc hrun hs ih => exact htrans _ _ _ ih (hstep _ _ _ (reachable_run h hrun) hs)

/-- The system that only takes the steps meeting a condition on the state
    before the step and on the label. -/
def restrict (S : System σ ε) (P : σ → ε → Prop) : System σ ε where
  init := S.init
  step s e t := P s e ∧ S.step s e t

theorem reachable_of_restrict {S : System σ ε} {P : σ → ε → Prop} {s : σ}
    (h : Reachable (restrict S P) s) : Reachable S s :=
  invariant (S := restrict S P) (Reachable S) (fun _ hi => reachable_init hi)
    (fun _ _ _ _ ih hs => reachable_step ih hs.2) h

/-- A simulation: the abstract system matches every step of the concrete one
    by a run of its own, from related states to related states. -/
theorem simulates {τ : Type w} {φ : Type x} {S : System σ ε} {T : System τ φ}
    (R : σ → τ → Prop) (hinit : ∀ s, S.init s → ∃ t, T.init t ∧ R s t)
    (hstep : ∀ s e s' t, Reachable S s → S.step s e s' → R s t →
      ∃ fs t', Run T t fs t' ∧ R s' t')
    {s : σ} (h : Reachable S s) : ∃ t, Reachable T t ∧ R s t := by
  refine invariant (fun s => ∃ t, Reachable T t ∧ R s t) ?_ ?_ h
  · intro s hs
    rcases hinit s hs with ⟨t, ht, hR⟩
    exact ⟨t, reachable_init ht, hR⟩
  · intro s e s' hr hRel hs
    rcases hRel with ⟨t, ht, hR⟩
    rcases hstep s e s' t hr hs hR with ⟨fs, t', hrun, hR'⟩
    exact ⟨t', reachable_run ht hrun, hR'⟩

end Transition
