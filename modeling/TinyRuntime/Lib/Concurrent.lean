import TinyRuntime.Lib.Program
import TinyRuntime.Lib.Transition
import Mathlib.Data.List.Basic
import Mathlib.Algebra.Order.Ring.Nat

/-!
# Concurrent Calls

Any number of calls of asynchronous functions over a shared state. Every call is
a program with a local state of its own: what it owns, which no other call can
touch. An effect sees the shared state and the local state of the call that
performs it. The calls interleave at every effect.

A call ends by returning, or by being dropped at an effect that suspends. Then
its locals are dropped one after the other, each of which may change the shared
state again (`release`), and the other calls move in between. What a dropped call
had handed to a thread goes on without it (`orphans`).

A history may be limited to steps that meet a condition (`Limits`).

The invariant rule splits in two. `T` is about one call, its remaining program
and its local state. `J` is about the shared state and the list of all local
states. One effect of one call has to keep both, where the list of local states
is written `l₁ ++ l :: l₂` around the call that moves. No rule has to speak about
the other calls: their `T` does not change because nothing it mentions changes.

`T` is often a weakest precondition over the local state alone, with the shared
state as one more choice of the outside. Then the program is walked through once
(`Joint.of_wp`), and what it asserts of the locals at an effect is all that is
left to know when `J` is shown to survive that effect.

## Main definitions

* `Calls`: The functions called, their effects and what dropping locals does.
* `Config`: The shared state and the calls made so far.
* `Calls.move`: One step.
* `Limits`: Which calls and drops a history has.
* `Calls.system`: The transition system.
* `Calls.localised`, `Calls.within`: The effects as one call sees them.
* `Joint`: The obligations of a joint invariant.
* `Config.Each`: The invariant of the calls' programs and locals.
* `Calls.Turn`: What a step makes of one call.
* `tally`: What the locals of all calls add up to.

## Theorems

* `Joint.move`: One step keeps a joint invariant.
* `Joint.reachable`, `Joint.run`: It holds in every reachable configuration, and
  further on in a history where it holds once.
* `Joint.of_handler`, `Joint.of_wp`: A joint invariant from a weakest precondition.
* `turn_of_move`: A call after a step.
* `shared_keeps`: The shared state after a step.
-/

namespace Concurrent

universe u

variable {E : Type → Type} {σ : Type u} {Λ ι χ α : Type}

/-- A call: what is left of its program, unless it has ended, and its locals. -/
structure Call (E : Type → Type) (Λ α : Type) where
  prog : Option (Prog E α)
  loc : Λ

/-- The functions called and the world they run in. -/
structure Calls (E : Type → Type) (σ : Type u) (Λ ι χ α : Type) where
  handler : Handler E (σ × Λ) χ
  /-- The effects at which a call can be dropped. -/
  suspends : ∀ β, E β → Bool
  /-- The program of a call. -/
  main : ι → Prog E α
  /-- Its locals at the start. -/
  fresh : ι → Λ
  /-- What goes on when a call is dropped: programs with locals of their own. -/
  orphans : Prog E α → Λ → List (Prog E α × Λ)
  /-- The locals of a call that ends, by returning or in the middle. -/
  ended : Option α → Λ → Λ
  /-- One of the locals of an ended call dropped, if any is left. -/
  release : σ × Λ → Option (σ × Λ)
  /-- What others may do to the shared state. -/
  env : σ → χ → Option σ

/-- The shared state and every call made so far, oldest first. -/
structure Config (E : Type → Type) (σ : Type u) (Λ α : Type) where
  shared : σ
  calls : List (Call E Λ α)

/-- The steps of a configuration. -/
inductive Step (ι χ : Type)
  | call (a : ι)
  /-- One effect of a call. -/
  | perform (i : Nat) (c : χ)
  /-- A call returns. -/
  | finish (i : Nat)
  /-- A call is dropped where it waits. -/
  | drop (i : Nat)
  /-- A call that has ended drops one of its locals. -/
  | release (i : Nat)
  | env (c : χ)

/-- One call replaced and the shared state with it. -/
def Config.put (g : Config E σ Λ α) (i : Nat) (prog : Option (Prog E α)) (r : σ × Λ) :
    Config E σ Λ α :=
  { shared := r.1, calls := g.calls.set i { prog := prog, loc := r.2 } }

/-- Programs added, each with its locals. -/
def Config.start (g : Config E σ Λ α) (ps : List (Prog E α × Λ)) : Config E σ Λ α :=
  { g with calls := g.calls ++ ps.map fun p => { prog := some p.1, loc := p.2 } }

/-- One step of a configuration. -/
def Calls.move (P : Calls E σ Λ ι χ α) (g : Config E σ Λ α) :
    Step ι χ → Option (Config E σ Λ α)
  | .call a => some (g.start [(P.main a, P.fresh a)])
  | .perform i c =>
      match g.calls[i]? with
      | some { prog := some (.perform e k), loc := l } =>
          (P.handler.respond e (g.shared, l) c).map fun r => g.put i (some (k r.1)) r.2
      | _ => none
  | .finish i =>
      match g.calls[i]? with
      | some { prog := some (.done a), loc := l } =>
          some (g.put i none (g.shared, P.ended (some a) l))
      | _ => none
  | .drop i =>
      match g.calls[i]? with
      | some { prog := some (.perform e k), loc := l } =>
          if P.suspends _ e then
            some ((g.put i none (g.shared, P.ended none l)).start (P.orphans (.perform e k) l))
          else none
      | _ => none
  | .release i =>
      match g.calls[i]? with
      | some { prog := none, loc := l } => (P.release (g.shared, l)).map (g.put i none)
      | _ => none
  | .env c => (P.env g.shared c).map fun s => { g with shared := s }

/-- The locals of all calls. -/
def Config.locals (g : Config E σ Λ α) : List Λ :=
  g.calls.map Call.loc

/-- The steps a history may have. -/
structure Limits (E : Type → Type) (σ : Type u) (Λ ι χ : Type) where
  calls : σ → List Λ → ι → Prop
  drops : ∀ β, E β → σ → Λ → Prop
  performs : ∀ β, E β → σ → Λ → χ → Prop

/-- Every step. -/
def Limits.none : Limits E σ Λ ι χ where
  calls _ _ _ := True
  drops _ _ _ _ := True
  performs _ _ _ _ _ := True

/-- Whether a step stays within the limits. -/
def Limits.allow (L : Limits E σ Λ ι χ) (g : Config E σ Λ α) : Step ι χ → Prop
  | .call a => L.calls g.shared g.locals a
  | .perform i c =>
      match g.calls[i]? with
      | some { prog := some (.perform e _), loc := l } => L.performs _ e g.shared l c
      | _ => True
  | .drop i =>
      match g.calls[i]? with
      | some { prog := some (.perform e _), loc := l } => L.drops _ e g.shared l
      | _ => True
  | _ => True

/-- The histories within the limits, from a shared state without calls. -/
def Calls.system (P : Calls E σ Λ ι χ α) (L : Limits E σ Λ ι χ) (init : σ → Prop) :
    Transition.System (Config E σ Λ α) (Step ι χ) where
  init g := init g.shared ∧ g.calls = []
  step g e g' := L.allow g e ∧ P.move g e = some g'

/-- The obligations of a joint invariant: `T` of one call's program and locals,
    `J` of the shared state and all locals. -/
structure Joint (P : Calls E σ Λ ι χ α) (L : Limits E σ Λ ι χ) (T : Prog E α → Λ → Prop)
    (J : σ → List Λ → Prop) : Prop where
  call : ∀ s ls a, L.calls s ls a → J s ls →
    T (P.main a) (P.fresh a) ∧ J s (ls ++ [P.fresh a])
  perform : ∀ {β : Type} (e : E β) (k : β → Prog E α) (s : σ) (l₁ : List Λ) (l : Λ)
    (l₂ : List Λ) (c : χ) (b : β) (s' : σ) (l' : Λ), L.performs _ e s l c →
      T (.perform e k) l → J s (l₁ ++ l :: l₂) →
      P.handler.respond e (s, l) c = some (b, s', l') → T (k b) l' ∧ J s' (l₁ ++ l' :: l₂)
  finish : ∀ (a : α) (s : σ) (l₁ : List Λ) (l : Λ) (l₂ : List Λ), T (.done a) l →
    J s (l₁ ++ l :: l₂) → J s (l₁ ++ P.ended (some a) l :: l₂)
  drop : ∀ {β : Type} (e : E β) (k : β → Prog E α) (s : σ) (l₁ : List Λ) (l : Λ)
    (l₂ : List Λ), P.suspends _ e = true → L.drops _ e s l → T (.perform e k) l →
    J s (l₁ ++ l :: l₂) → (∀ o ∈ P.orphans (.perform e k) l, T o.1 o.2) ∧
      J s (l₁ ++ P.ended none l :: l₂ ++ (P.orphans (.perform e k) l).map Prod.snd)
  release : ∀ (s : σ) (l₁ : List Λ) (l : Λ) (l₂ : List Λ) (s' : σ) (l' : Λ),
    J s (l₁ ++ l :: l₂) → P.release (s, l) = some (s', l') → J s' (l₁ ++ l' :: l₂)
  env : ∀ s ls c s', J s ls → P.env s c = some s' → J s' ls

/-- Every call that has not ended satisfies `T`. -/
def Config.Each (T : Prog E α → Λ → Prop) (g : Config E σ Λ α) : Prop :=
  ∀ t ∈ g.calls, ∀ p, t.prog = some p → T p t.loc

/-- The call at an index, and the list with another in its place. -/
theorem set_split {τ : Type _} {l : List τ} {i : Nat} {x : τ} (h : l[i]? = some x) :
    ∃ l₁ l₂, l = l₁ ++ x :: l₂ ∧ ∀ y, l.set i y = l₁ ++ y :: l₂ := by
  induction l generalizing i with
  | nil => cases h
  | cons z l ih =>
      cases i with
      | zero =>
          rw [List.getElem?_cons_zero] at h
          cases h
          exact ⟨[], l, rfl, fun _ => rfl⟩
      | succ i =>
          rw [List.getElem?_cons_succ] at h
          rcases ih h with ⟨l₁, l₂, hl, hset⟩
          refine ⟨z :: l₁, l₂, by rw [hl, List.cons_append], fun y => ?_⟩
          rw [List.set_cons_succ, hset, List.cons_append]

section Joint

variable {P : Calls E σ Λ ι χ α} {L : Limits E σ Λ ι χ} {T : Prog E α → Λ → Prop}
  {J : σ → List Λ → Prop} {g : Config E σ Λ α}

/-- Replacing one call keeps an invariant of all calls and of their locals, if
    the new one has it in the context of the others. -/
theorem put_keeps {i : Nat} {x : Call E Λ α} (hx : g.calls[i]? = some x) (hT : g.Each T)
    (hJ : J g.shared g.locals) {J' : σ → List Λ → Prop} {prog : Option (Prog E α)} {r : σ × Λ}
    (hput : ∀ l₁ l₂, J g.shared (l₁ ++ x.loc :: l₂) →
      (∀ p, prog = some p → T p r.2) ∧ J' r.1 (l₁ ++ r.2 :: l₂)) :
    (g.put i prog r).Each T ∧ J' (g.put i prog r).shared (g.put i prog r).locals := by
  rcases set_split hx with ⟨l₁, l₂, hl, hset⟩
  have hlocs : g.locals = l₁.map Call.loc ++ x.loc :: l₂.map Call.loc := by
    rw [Config.locals, hl, List.map_append, List.map_cons]
  rcases hput _ _ (hlocs ▸ hJ) with ⟨hp, hJ'⟩
  refine ⟨?_, ?_⟩
  · intro t ht p hprog
    rw [Config.put, hset, List.mem_append, List.mem_cons] at ht
    rcases ht with ht | rfl | ht
    · exact hT t (hl ▸ List.mem_append_left _ ht) p hprog
    · exact hp p hprog
    · exact hT t (hl ▸ List.mem_append_right _ (List.mem_cons_of_mem _ ht)) p hprog
  · rw [Config.locals, Config.put, hset, List.map_append, List.map_cons]
    exact hJ'

/-- Adding calls keeps it, if they have it. -/
theorem start_keeps {ps : List (Prog E α × Λ)} (hT : g.Each T) (hps : ∀ p ∈ ps, T p.1 p.2)
    (hJ : J g.shared (g.locals ++ ps.map Prod.snd)) :
    (g.start ps).Each T ∧ J (g.start ps).shared (g.start ps).locals := by
  refine ⟨?_, ?_⟩
  · intro t ht p hp
    rcases List.mem_append.mp ht with ht | ht
    · exact hT t ht p hp
    · rcases List.mem_map.mp ht with ⟨x, hx, rfl⟩
      exact Option.some.inj hp ▸ hps x hx
  · rw [Config.locals, Config.start, List.map_append, List.map_map]
    exact hJ

theorem Joint.move (K : Joint P L T J) {g' : Config E σ Λ α} {e : Step ι χ}
    (hT : g.Each T) (hJ : J g.shared g.locals) (ha : L.allow g e) (hm : P.move g e = some g') :
    g'.Each T ∧ J g'.shared g'.locals := by
  cases e with
  | call a =>
      cases hm
      rcases K.call _ _ a ha hJ with ⟨hmain, hJ'⟩
      exact start_keeps hT (fun p hp => List.mem_singleton.mp hp ▸ hmain) hJ'
  | perform i c =>
      simp only [Calls.move] at hm
      simp only [Limits.allow] at ha
      split at hm
      · rename_i β e k l hx
        simp only [hx] at ha
        rcases Option.map_eq_some_iff.mp hm with ⟨⟨b, s', l'⟩, hr, rfl⟩
        have hTp : T (.perform e k) l := hT _ (List.mem_of_getElem? hx) _ rfl
        refine put_keeps hx hT hJ fun l₁ l₂ hJ' => ?_
        rcases K.perform e k _ l₁ l l₂ c b s' l' ha hTp hJ' hr with ⟨hk, hJ''⟩
        exact ⟨fun p hp => Option.some.inj hp ▸ hk, hJ''⟩
      · cases hm
  | finish i =>
      simp only [Calls.move] at hm
      split at hm
      · rename_i a l hx
        cases hm
        have hTp : T (.done a) l := hT _ (List.mem_of_getElem? hx) _ rfl
        exact put_keeps hx hT hJ fun l₁ l₂ hJ' =>
          ⟨fun p hp => (by cases hp), K.finish a _ l₁ l l₂ hTp hJ'⟩
      · cases hm
  | drop i =>
      simp only [Calls.move] at hm
      simp only [Limits.allow] at ha
      split at hm
      · rename_i β e k l hx
        simp only [hx] at ha
        split at hm
        · rename_i hsus
          cases hm
          have hTp : T (.perform e k) l := hT _ (List.mem_of_getElem? hx) _ rfl
          have hput := @put_keeps _ _ _ _ T J g i _ hx hT hJ
            (fun s ls => (∀ o ∈ P.orphans (.perform e k) l, T o.1 o.2) ∧
              J s (ls ++ (P.orphans (.perform e k) l).map Prod.snd)) none
            (g.shared, P.ended none l) fun l₁ l₂ hJ' =>
              ⟨fun p hp => (by cases hp), K.drop e k _ l₁ l l₂ hsus ha hTp hJ'⟩
          exact start_keeps hput.1 hput.2.1 hput.2.2
        · cases hm
      · cases hm
  | release i =>
      simp only [Calls.move] at hm
      split at hm
      · rename_i l hx
        rcases Option.map_eq_some_iff.mp hm with ⟨⟨s', l'⟩, hs, rfl⟩
        exact put_keeps hx hT hJ fun l₁ l₂ hJ' =>
          ⟨fun p hp => (by cases hp), K.release _ l₁ l l₂ s' l' hJ' hs⟩
      · cases hm
  | env c =>
      rcases Option.map_eq_some_iff.mp hm with ⟨s', hs, rfl⟩
      exact ⟨hT, K.env _ _ c s' hJ hs⟩

theorem Joint.reachable (K : Joint P L T J) {init : σ → Prop} (hinit : ∀ s, init s → J s [])
    (h : Transition.Reachable (P.system L init) g) : g.Each T ∧ J g.shared g.locals := by
  refine Transition.invariant (fun g => g.Each T ∧ J g.shared g.locals) ?_ ?_ h
  · rintro ⟨s, calls⟩ ⟨hs, rfl⟩
    exact ⟨fun t ht => (by cases ht), hinit s hs⟩
  · rintro g e g' _ hg ⟨ha, hm⟩
    exact K.move hg.1 hg.2 ha hm

theorem Joint.run (K : Joint P L T J) {init : σ → Prop} {g' : Config E σ Λ α}
    {es : List (Step ι χ)} (hT : g.Each T) (hJ : J g.shared g.locals)
    (h : Transition.Run (P.system L init) g es g') : g'.Each T ∧ J g'.shared g'.locals := by
  induction h with
  | refl => exact ⟨hT, hJ⟩
  | snoc _ hs ih => exact K.move ih.1 ih.2 hs.1 hs.2

theorem Limits.none_allow (g : Config E σ Λ α) (e : Step ι χ) :
    (Limits.none : Limits E σ Λ ι χ).allow g e := by
  cases e with
  | perform i c =>
      simp only [Limits.allow]
      split <;> trivial
  | drop i =>
      simp only [Limits.allow]
      split <;> trivial
  | _ => trivial

/-- A computed history without limits. -/
theorem reachable_play {init : σ → Prop} {s : σ} (hs : init s) {es : List (Step ι χ)}
    (hp : Transition.play P.move { shared := s, calls := [] } es = some g) :
    Transition.Reachable (P.system .none init) g := by
  have hstep : ∀ g e g', P.move g e = some g' → (P.system .none init).step g e g' :=
    fun g e _ hm => ⟨Limits.none_allow g e, hm⟩
  exact Transition.reachable_play hstep (Transition.reachable_init ⟨hs, rfl⟩) hp

/-- The same from any configuration, with the steps taken. -/
theorem run_play {init : σ → Prop} {g' : Config E σ Λ α} {es : List (Step ι χ)}
    (hp : Transition.play P.move g es = some g') :
    Transition.Run (P.system .none init) g es g' := by
  induction es generalizing g with
  | nil =>
      cases hp
      exact .refl
  | cons e es ih =>
      rcases Option.bind_eq_some_iff.mp hp with ⟨g₁, hm, hrest⟩
      have hfirst : Transition.Run (P.system .none init) g [e] g₁ :=
        .snoc .refl ⟨Limits.none_allow g e, hm⟩
      exact Transition.run_trans hfirst (ih hrest)

/-- One call alone, as far as its program goes. -/
theorem reachable_of_reaches {init : σ → Prop} {s : σ} (hs : init s) {a : ι} {p : Prog E α}
    {w : σ × Λ} (h : Prog.Reaches P.handler (P.main a) (s, P.fresh a) p w) :
    Transition.Reachable (P.system .none init)
      { shared := w.1, calls := [{ prog := some p, loc := w.2 }] } := by
  induction h with
  | refl =>
      have hcall : Transition.play P.move { shared := s, calls := [] } [.call a] = some _ := rfl
      exact reachable_play hs hcall
  | snoc _ hs ih =>
      rename_i q r t u c _
      refine Transition.reachable_step ih ⟨Limits.none_allow _ (.perform 0 c), ?_⟩
      cases q with
      | done b => cases hs
      | perform e k =>
          simp only [Prog.advance] at hs
          split at hs
          · cases hs
          · rename_i b u' hr
            cases hs
            show (P.handler.respond e (t.1, t.2) c).map _ = _
            rw [hr]
            rfl

/-- Every step of a history is within the limits, as far as it can be played. -/
def Calls.allowed (P : Calls E σ Λ ι χ α) (L : Limits E σ Λ ι χ) :
    Config E σ Λ α → List (Step ι χ) → Prop
  | _, [] => True
  | g, e :: es => L.allow g e ∧ ∀ g', P.move g e = some g' → P.allowed L g' es

/-- A computed history within limits. -/
theorem reachable_allowed {init : σ → Prop} {s : σ} (hs : init s) {es : List (Step ι χ)}
    (hp : Transition.play P.move { shared := s, calls := [] } es = some g)
    (ha : P.allowed L { shared := s, calls := [] } es) :
    Transition.Reachable (P.system L init) g := by
  have hplay : ∀ es g₀, Transition.Reachable (P.system L init) g₀ → P.allowed L g₀ es →
      Transition.play P.move g₀ es = some g → Transition.Reachable (P.system L init) g := by
    intro es
    induction es with
    | nil =>
        intro g₀ h _ hp
        cases hp
        exact h
    | cons e es ih =>
        intro g₀ h ha hp
        rw [Transition.play, Option.bind_eq_some_iff] at hp
        rcases hp with ⟨g₁, hm, hp⟩
        exact ih g₁ (Transition.reachable_step h ⟨ha.1, hm⟩) (ha.2 g₁ hm) hp
  exact hplay es _ (Transition.reachable_init ⟨hs, rfl⟩) ha hp

/-- The same from any configuration, with the steps taken. -/
theorem run_allowed {init : σ → Prop} {g' : Config E σ Λ α} {es : List (Step ι χ)}
    (hp : Transition.play P.move g es = some g') (ha : P.allowed L g es) :
    Transition.Run (P.system L init) g es g' := by
  induction es generalizing g with
  | nil =>
      cases hp
      exact .refl
  | cons e es ih =>
      rcases Option.bind_eq_some_iff.mp hp with ⟨g₁, hm, hrest⟩
      have hfirst : Transition.Run (P.system L init) g [e] g₁ := .snoc .refl ⟨ha.1, hm⟩
      exact Transition.run_trans hfirst (ih hrest (ha.2 g₁ hm))

/-- The effects as one call sees them: the shared state is for others to
    choose. -/
def Calls.localised (P : Calls E σ Λ ι χ α) : Handler E Λ (σ × χ) where
  respond e l c := (P.handler.respond e (c.1, l) c.2).map fun r => (r.1, r.2.2)

/-- The same where something is known of the shared state, and with the limits of
    the history. -/
noncomputable def Calls.within (P : Calls E σ Λ ι χ α) (L : Limits E σ Λ ι χ) (I : σ → Prop) :
    Handler E Λ (σ × χ) where
  respond e l c :=
    open Classical in
    if I c.1 ∧ L.performs _ e c.1 l c.2 then P.localised.respond e l c else none

/-- A joint invariant whose part about one call is a weakest precondition over
    its locals, under a handler that can answer whatever the call can be answered
    while the invariant holds. `A` is what the call asserts of its locals at each
    effect, and `Q` at its return. The order of the calls may not matter to `J`,
    so the one that moves is put first. -/
theorem Joint.of_handler {H : Handler E Λ (σ × χ)} {A : ∀ β, E β → Λ → Prop} {Q : α → Λ → Prop}
    (hlocal : ∀ {β : Type} (e : E β) s l ls c b s' l', L.performs _ e s l c → J s (l :: ls) →
      P.handler.respond e (s, l) c = some (b, s', l') → H.respond e l (s, c) = some (b, l'))
    (hmain : ∀ a s ls, L.calls s ls a → (P.main a).wp H A Q (P.fresh a))
    (hperm : ∀ s ls ls', ls.Perm ls' → J s ls → J s ls')
    (hcall : ∀ s ls a, L.calls s ls a → J s ls → J s (P.fresh a :: ls))
    (hperform : ∀ {β : Type} (e : E β) s l ls c b s' l', L.performs _ e s l c → A β e l →
      J s (l :: ls) → P.handler.respond e (s, l) c = some (b, s', l') → J s' (l' :: ls))
    (hfinish : ∀ a s l ls, Q a l → J s (l :: ls) → J s (P.ended (some a) l :: ls))
    (hdrop : ∀ {β : Type} (e : E β) k s l ls, P.suspends _ e = true → L.drops _ e s l →
      (Prog.perform e k).wp H A Q l → J s (l :: ls) →
      (∀ o ∈ P.orphans (.perform e k) l, o.1.wp H A Q o.2) ∧
        J s ((P.orphans (.perform e k) l).map Prod.snd ++ P.ended none l :: ls))
    (hrelease : ∀ s l ls s' l', J s (l :: ls) → P.release (s, l) = some (s', l') →
      J s' (l' :: ls))
    (henv : ∀ s ls c s', J s ls → P.env s c = some s' → J s' ls) :
    Joint P L (fun p l => p.wp H A Q l) J := by
  have hfirst : ∀ s l₁ (l : Λ) l₂, J s (l₁ ++ l :: l₂) ↔ J s (l :: (l₁ ++ l₂)) :=
    fun s l₁ l l₂ =>
      ⟨hperm s _ _ List.perm_middle, hperm s _ _ List.perm_middle.symm⟩
  refine ⟨?_, ?_, ?_, ?_, ?_, henv⟩
  · intro s ls a ha h
    exact ⟨hmain a s ls ha, hperm s _ _ (List.perm_append_singleton _ _).symm (hcall s ls a ha h)⟩
  · intro β e k s l₁ l l₂ c b s' l' hlim hwp h hr
    rw [hfirst] at h ⊢
    exact ⟨hwp.2 (s, c) b l' (hlocal e s l _ c b s' l' hlim h hr),
      hperform e s l _ c b s' l' hlim hwp.1 h hr⟩
  · intro a s l₁ l l₂ hq h
    rw [hfirst] at h ⊢
    exact hfinish a s l _ hq h
  · intro β e k s l₁ l l₂ hsus hlim hwp h
    rw [hfirst] at h
    rcases hdrop e k s l _ hsus hlim hwp h with ⟨ho, hJ⟩
    refine ⟨ho, hperm s _ _ ?_ hJ⟩
    exact List.perm_append_comm.trans (List.Perm.append_right _ List.perm_middle.symm)
  · intro s l₁ l l₂ s' l' h hr
    rw [hfirst] at h ⊢
    exact hrelease s l _ s' l' h hr

/-- The rule with nothing known of the shared state. -/
theorem Joint.of_wp {A : ∀ β, E β → Λ → Prop} {Q : α → Λ → Prop}
    (hmain : ∀ a s ls, L.calls s ls a → (P.main a).wp P.localised A Q (P.fresh a))
    (hperm : ∀ s ls ls', ls.Perm ls' → J s ls → J s ls')
    (hcall : ∀ s ls a, L.calls s ls a → J s ls → J s (P.fresh a :: ls))
    (hperform : ∀ {β : Type} (e : E β) s l ls c b s' l', L.performs _ e s l c → A β e l →
      J s (l :: ls) → P.handler.respond e (s, l) c = some (b, s', l') → J s' (l' :: ls))
    (hfinish : ∀ a s l ls, Q a l → J s (l :: ls) → J s (P.ended (some a) l :: ls))
    (hdrop : ∀ {β : Type} (e : E β) k s l ls, P.suspends _ e = true → L.drops _ e s l →
      (Prog.perform e k).wp P.localised A Q l → J s (l :: ls) →
      (∀ o ∈ P.orphans (.perform e k) l, o.1.wp P.localised A Q o.2) ∧
        J s ((P.orphans (.perform e k) l).map Prod.snd ++ P.ended none l :: ls))
    (hrelease : ∀ s l ls s' l', J s (l :: ls) → P.release (s, l) = some (s', l') →
      J s' (l' :: ls))
    (henv : ∀ s ls c s', J s ls → P.env s c = some s' → J s' ls) :
    Joint P L (fun p l => p.wp P.localised A Q l) J := by
  refine Joint.of_handler ?_ hmain hperm hcall hperform hfinish hdrop hrelease henv
  intro β e s l ls c b s' l' _ _ hr
  simp only [Calls.localised, hr, Option.map_some]

/-- Whatever is known of the shared state may be used by every call. -/
theorem within_respond {I : σ → Prop} {β : Type} {e : E β} {s s' : σ} {l l' : Λ} {c : χ} {b : β}
    (hI : I s) (hlim : L.performs _ e s l c)
    (hr : P.handler.respond e (s, l) c = some (b, s', l')) :
    (P.within L I).respond e l (s, c) = some (b, l') := by
  refine (if_pos ⟨hI, hlim⟩).trans ?_
  simp only [Calls.localised, hr, Option.map_some]

end Joint

/-! ## One call in a step -/

/-- What a step makes of the call at an index. -/
inductive Calls.Turn (P : Calls E σ Λ ι χ α) (g : Config E σ Λ α) (i : Nat) :
    Step ι χ → Call E Λ α → Prop
  | kept {e : Step ι χ} {t : Call E Λ α} (h : g.calls[i]? = some t) : Turn P g i e t
  | called (a : ι) : Turn P g i (.call a) { prog := some (P.main a), loc := P.fresh a }
  | performed {β : Type} {op : E β} {k : β → Prog E α} {l l' : Λ} {c : χ} {b : β} {s' : σ}
      (h : g.calls[i]? = some { prog := some (.perform op k), loc := l })
      (hr : P.handler.respond op (g.shared, l) c = some (b, s', l')) :
      Turn P g i (.perform i c) { prog := some (k b), loc := l' }
  | finished {a : α} {l : Λ} (h : g.calls[i]? = some { prog := some (.done a), loc := l }) :
      Turn P g i (.finish i) { prog := none, loc := P.ended (some a) l }
  | dropped {p : Prog E α} {l : Λ} (h : g.calls[i]? = some { prog := some p, loc := l }) :
      Turn P g i (.drop i) { prog := none, loc := P.ended none l }
  | orphaned {j : Nat} {p : Prog E α} {l : Λ} {o : Prog E α × Λ}
      (h : g.calls[j]? = some { prog := some p, loc := l }) (ho : o ∈ P.orphans p l) :
      Turn P g i (.drop j) { prog := some o.1, loc := o.2 }
  | released {l l' : Λ} {s' : σ} (h : g.calls[i]? = some { prog := none, loc := l })
      (hr : P.release (g.shared, l) = some (s', l')) :
      Turn P g i (.release i) { prog := none, loc := l' }

section Turn

variable {P : Calls E σ Λ ι χ α} {g g' : Config E σ Λ α} {i : Nat} {t : Call E Λ α}

/-- The call replaced, or another one. -/
theorem put_getElem? {j : Nat} {prog : Option (Prog E α)} {r : σ × Λ}
    (ht : (g.put j prog r).calls[i]? = some t) :
    i = j ∧ t = { prog := prog, loc := r.2 } ∨ g.calls[i]? = some t := by
  rw [Config.put, List.getElem?_set] at ht
  split at ht
  · rename_i hij
    split at ht
    · exact .inl ⟨hij.symm, (Option.some.inj ht).symm⟩
    · cases ht
  · exact .inr ht

/-- A call there was, or one of those added. -/
theorem start_getElem? {ps : List (Prog E α × Λ)} (ht : (g.start ps).calls[i]? = some t) :
    g.calls[i]? = some t ∨ ∃ o ∈ ps, t = { prog := some o.1, loc := o.2 } := by
  rw [Config.start, List.getElem?_append] at ht
  split at ht
  · exact .inl ht
  · rcases List.mem_map.mp (List.mem_of_getElem? ht) with ⟨o, ho, rfl⟩
    exact .inr ⟨o, ho, rfl⟩

theorem locals_getElem? {u : Call E Λ α} (h : g.calls[i]? = some u) :
    g.locals[i]? = some u.loc := by
  rw [Config.locals, List.getElem?_map, h, Option.map_some]

theorem turn_of_move {e : Step ι χ} (hm : P.move g e = some g') (ht : g'.calls[i]? = some t) :
    P.Turn g i e t := by
  cases e with
  | call a =>
      cases hm
      rcases start_getElem? ht with h | ⟨o, ho, rfl⟩
      · exact .kept h
      · cases List.mem_singleton.mp ho
        exact .called a
  | perform j c =>
      simp only [Calls.move] at hm
      split at hm
      · rename_i hx
        rcases Option.map_eq_some_iff.mp hm with ⟨r, hr, rfl⟩
        rcases put_getElem? ht with ⟨rfl, rfl⟩ | h
        · exact .performed hx hr
        · exact .kept h
      · cases hm
  | finish j =>
      simp only [Calls.move] at hm
      split at hm
      · rename_i hx
        cases hm
        rcases put_getElem? ht with ⟨rfl, rfl⟩ | h
        · exact .finished hx
        · exact .kept h
      · cases hm
  | drop j =>
      simp only [Calls.move] at hm
      split at hm
      · rename_i hx
        split at hm
        · cases hm
          rcases start_getElem? ht with h | ⟨o, ho, rfl⟩
          · rcases put_getElem? h with ⟨rfl, rfl⟩ | h
            · exact .dropped hx
            · exact .kept h
          · exact .orphaned hx ho
        · cases hm
      · cases hm
  | release j =>
      simp only [Calls.move] at hm
      split at hm
      · rename_i hx
        rcases Option.map_eq_some_iff.mp hm with ⟨r, hr, rfl⟩
        rcases put_getElem? ht with ⟨rfl, rfl⟩ | h
        · exact .released hx hr
        · exact .kept h
      · cases hm
  | env c =>
      rcases Option.map_eq_some_iff.mp hm with ⟨s', _, rfl⟩
      exact .kept ht

/-- A reflexive relation that every effect, every release and the outside keep is kept
    by a step. -/
theorem shared_keeps {R : σ → σ → Prop} (hrefl : ∀ s, R s s)
    (hrespond : ∀ {β : Type} (e : E β) s l c b s' l',
      P.handler.respond e (s, l) c = some (b, s', l') → R s s')
    (hrelease : ∀ s l s' l', P.release (s, l) = some (s', l') → R s s')
    (henv : ∀ s c s', P.env s c = some s' → R s s') {e : Step ι χ}
    (hm : P.move g e = some g') : R g.shared g'.shared := by
  cases e with
  | call a =>
      cases hm
      exact hrefl _
  | perform i c =>
      simp only [Calls.move] at hm
      split at hm
      · rcases Option.map_eq_some_iff.mp hm with ⟨r, hr, rfl⟩
        exact hrespond _ _ _ c r.1 r.2.1 r.2.2 hr
      · cases hm
  | finish i =>
      simp only [Calls.move] at hm
      split at hm <;> cases hm
      exact hrefl _
  | drop i =>
      simp only [Calls.move] at hm
      split at hm
      · split at hm <;> cases hm
        exact hrefl _
      · cases hm
  | release i =>
      simp only [Calls.move] at hm
      split at hm
      · rcases Option.map_eq_some_iff.mp hm with ⟨r, hr, rfl⟩
        exact hrelease _ _ r.1 r.2 hr
      · cases hm
  | env c =>
      rcases Option.map_eq_some_iff.mp hm with ⟨s', hs, rfl⟩
      exact henv _ c s' hs

end Turn

/-! ## Counting -/

/-- What the locals of all calls add up to. -/
def tally (f : Λ → Nat) (ls : List Λ) : Nat :=
  (ls.map f).sum

@[simp] theorem tally_nil (f : Λ → Nat) : tally f [] = 0 := rfl

@[simp] theorem tally_cons (f : Λ → Nat) (l : Λ) (ls : List Λ) :
    tally f (l :: ls) = f l + tally f ls := by
  rw [tally, List.map_cons, List.sum_cons, tally]

theorem tally_perm (f : Λ → Nat) {ls ls' : List Λ} (h : ls.Perm ls') : tally f ls = tally f ls' :=
  (h.map f).sum_nat

theorem tally_le {f g : Λ → Nat} {ls : List Λ} (h : ∀ l ∈ ls, f l ≤ g l) :
    tally f ls ≤ tally g ls := by
  induction ls with
  | nil => exact Nat.le_refl 0
  | cons l ls ih =>
      rw [tally_cons, tally_cons]
      exact Nat.add_le_add (h l (List.mem_cons_self ..))
        (ih fun l' hl' => h l' (List.mem_cons_of_mem _ hl'))

theorem tally_eq_zero {f : Λ → Nat} {ls : List Λ} (h : ∀ l ∈ ls, f l = 0) : tally f ls = 0 := by
  induction ls with
  | nil => rfl
  | cons l ls ih =>
      rw [tally_cons, h l (List.mem_cons_self ..), ih fun l' hl' => h l' (List.mem_cons_of_mem _ hl')]

theorem le_tally {f : Λ → Nat} {l : Λ} {ls : List Λ} (h : l ∈ ls) : f l ≤ tally f ls := by
  rcases List.append_of_mem h with ⟨l₁, l₂, rfl⟩
  rw [tally_perm f List.perm_middle, tally_cons]
  exact Nat.le_add_right _ _

/-- Two calls add up to no more than all. -/
theorem add_le_tally {f : Λ → Nat} {ls : List Λ} {i j : Nat} {l l' : Λ} (hi : ls[i]? = some l)
    (hj : ls[j]? = some l') (hij : i ≠ j) : f l + f l' ≤ tally f ls := by
  induction ls generalizing i j with
  | nil => cases hi
  | cons x ls ih =>
      rw [tally_cons]
      cases i with
      | zero =>
          cases j with
          | zero => exact absurd rfl hij
          | succ j =>
              rw [List.getElem?_cons_zero] at hi
              rw [List.getElem?_cons_succ] at hj
              cases hi
              exact Nat.add_le_add_left (le_tally (List.mem_of_getElem? hj)) _
      | succ i =>
          cases j with
          | zero =>
              rw [List.getElem?_cons_succ] at hi
              rw [List.getElem?_cons_zero] at hj
              cases hj
              rw [Nat.add_comm]
              exact Nat.add_le_add_left (le_tally (List.mem_of_getElem? hi)) _
          | succ j =>
              exact Nat.le_trans (ih hi hj fun h => hij (congrArg _ h)) (Nat.le_add_left _ _)

end Concurrent
