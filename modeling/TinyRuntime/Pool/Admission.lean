import TinyRuntime.Pool.Bound

/-!
# Admission

When a pool turns a submission away, and for which settings it can be built at all.

A submission counts itself in, compares, and counts itself out again if it is turned
away. In between it takes a place that no job has. So a pool may turn a submission
away while fewer are admitted than it has places for (`shed_early`), but only while
the places that are free are taken by others being turned away (`shed_at_capacity`).

The settings come unchecked from the bus. The semaphore is built with as many permits
as they ask for, and the places are summed up in a `usize`. Both go well exactly for
the settings `sized_iff` names. Past these the pool cannot be built, or has its places
modulo 2^64 and possibly none.

## Main definitions

* `PoolSettings.places`: The places of a pool.
* `Entering`, `LangPool.entries`: The submissions of a history at their `fetch_add`.
* `LangPool.Sized`: A pool whose numbers are what its settings say.

## Theorems

* `entering_refused`: The step that turns a submission away.
* `shed_at_capacity`: Submissions are turned away at capacity.
* `sized_iff`: The settings a pool can be sized by.
-/

namespace TinyRuntime

open Concurrent (tally)

/-- The submissions a pool has places for: one for each worker, and the queue. -/
def PoolSettings.places (s : PoolSettings) : Nat :=
  s.effectiveMaxWorkers + s.effectiveMaxQueueDepth

/-- A submission at its `fetch_add`, with how many others are admitted and how many
    are being turned away. -/
structure Entering where
  call : Nat
  admitted : Nat
  refused : Nat
deriving DecidableEq

/-- There is a free place, but the submissions being turned away take them all. -/
def Entering.crowded (places : Nat) (e : Entering) : Prop :=
  e.admitted < places ∧ places ≤ e.admitted + e.refused

namespace LangPool

/-- The submission a step counts in. -/
def entering (pool : LangPool) (g : State) :
    Concurrent.Step Submission PoolChoice → Option Entering
  | .perform i _ =>
      match g.calls[i]? with
      | some { prog := some (.perform .enter _), loc := _ } =>
          some
            { call := i
              admitted := tally (Run.admitted pool.settings.capacity) g.locals
              refused := tally (Run.refused pool.settings.capacity) g.locals }
      | _ => none
  | _ => none

/-- The submissions a history counts in. -/
def entries (pool : LangPool) :
    State → List (Concurrent.Step Submission PoolChoice) → List Entering
  | _, [] => []
  | g, e :: es =>
      (pool.entering g e).toList ++
        match pool.calls.move g e with
        | some g' => pool.entries g' es
        | none => []

/-! ## Results of an admitted job -/

/-- Not a refusal. -/
def Served {α : Type} (r : Except Error α) : Prop :=
  ∀ language, r ≠ .error (.poolSaturated language)

theorem served_pre {α : Type} (language : Language) (reason : String) :
    Served (.error (.preDispatch language reason) : Except Error α) :=
  fun _ h => by cases h

theorem served_ok {α : Type} (a : α) : Served (.ok a) :=
  fun _ h => by cases h

theorem takeOrSpawn_served (pool : LangPool) : pool.takeOrSpawn.Returns Served := by
  refine Prog.returns_bind _ fun taken => ?_
  cases taken with
  | some w => exact served_ok w
  | none =>
      refine Prog.returns_bind _ fun _ => Prog.returns_bind _ fun r => ?_
      cases r with
      | ok w => exact served_ok w
      | error reason => exact served_pre _ _

theorem dispatch_served (pool : LangPool) (request : JobRequest) (hardDeadline : Option Nat)
    (lines : Nat) : (pool.dispatch request hardDeadline lines).Returns Served := by
  refine Prog.returns_seq pool.takeOrSpawn_served fun r hr => ?_
  cases r with
  | error e => exact fun language h => hr language (by rw [Except.error.inj h])
  | ok w =>
      refine Prog.returns_bind _ fun r => ?_
      cases r with
      | ok reply => exact served_ok reply
      | error failure =>
          refine Prog.returns_bind _ fun _ => ?_
          unfold dispatchError
          intro language h
          split at h <;> cases h

/-- Past admission no job is turned away. -/
theorem serve_served (pool : LangPool) (input : Submission) (queueWait : Nat) :
    (pool.serve input queueWait).Returns Served := by
  refine Prog.returns_bind _ fun _ => Prog.returns_bind _ fun _ => ?_
  refine Prog.returns_seq (dispatch_served pool _ _ _) fun r hr => ?_
  cases r with
  | error e => exact fun language h => hr language (by rw [Except.error.inj h])
  | ok reply =>
      refine Prog.returns_bind _ fun _ => Prog.returns_bind _ fun _ =>
        Prog.returns_bind _ fun _ => ?_
      split
      · exact fun _ h => by cases h
      · exact served_ok _

/-! ## One submission -/

/-- A call that has not been turned away: it has not been counted in yet, or it
    returns no refusal. -/
def Undenied (pool : LangPool)
    (t : Concurrent.Call PoolOp Run (Except Error ExecResponse)) : Prop :=
  match t.prog with
  | some p => (∃ input, p = pool.run input) ∨ p.Returns Served
  | none => ∀ r, t.loc.result = some r → Served r

/-- A call is turned away in one step, its `fetch_add`, and this step finds the places
    taken. -/
theorem entering_refused {pool : LangPool} {g g' : State}
    {e : Concurrent.Step Submission PoolChoice} (hg : Transition.Reachable pool.system g)
    (hm : pool.calls.move g e = some g') {i : Nat}
    (hbefore : ∀ t, g.calls[i]? = some t → pool.Undenied t)
    {t : Concurrent.Call PoolOp Run (Except Error ExecResponse)} (ht : g'.calls[i]? = some t) :
    pool.Undenied t ∨ ∃ n ∈ pool.entering g e, n.call = i ∧
      pool.settings.capacity ≤ n.admitted + n.refused := by
  cases Concurrent.turn_of_move hm ht with
  | kept h => exact .inl (hbefore t h)
  | called input => exact .inl (.inl ⟨input, rfl⟩)
  | @performed β op k l l' c b s' h hr =>
      rcases hbefore _ h with ⟨input, hp⟩ | hp
      · change Prog.perform op k = Prog.perform PoolOp.enter _ at hp
        cases hp
        cases hr
        by_cases hfull : pool.settings.capacity < g.shared.inflight + 1
        · have hentering : pool.entering g (.perform i c) = some
              { call := i
                admitted := tally (Run.admitted pool.settings.capacity) g.locals
                refused := tally (Run.refused pool.settings.capacity) g.locals } := by
            simp only [entering, h]
          have hcount := (pool_bounded pool hg).2.2.1
          refine .inr ⟨_, hentering, rfl, ?_⟩
          dsimp only
          omega
        · refine .inl (.inr ?_)
          change Prog.Returns Served
            (if pool.settings.capacity < g.shared.inflight + 1 then _ else _)
          rw [if_neg hfull]
          refine Prog.returns_bind _ fun _ => Prog.returns_bind _ fun granted => ?_
          split
          · exact served_pre _ _
          · exact Prog.returns_bind _ fun _ => pool.serve_served input _
      · exact .inl (.inr (hp b))
  | finished h =>
      rcases hbefore _ h with ⟨input, hp⟩ | hp
      · cases hp
      · refine .inl fun r hr => ?_
        cases hr
        exact hp
  | dropped h => exact .inl fun r hr => by cases hr
  | orphaned h ho => cases ho
  | released h hr =>
      refine .inl fun r hresult => hbefore _ h r ?_
      rw [← hresult]
      simp only [calls, Run.release] at hr
      split at hr
      · cases hr
        rfl
      · split at hr
        · cases hr
          rfl
        · split at hr
          · cases hr
            rfl
          · cases hr

/-- A call that was turned away came to its `fetch_add` in the history, and found the
    places taken. -/
theorem denied_entry {pool : LangPool} {es : List (Concurrent.Step Submission PoolChoice)} {i : Nat}
    {t : Concurrent.Call PoolOp Run (Except Error ExecResponse)} {g g' : State}
    (hg : Transition.Reachable pool.system g)
    (hplay : Transition.play pool.calls.move g es = some g')
    (hbefore : ∀ t, g.calls[i]? = some t → pool.Undenied t)
    (ht : g'.calls[i]? = some t) (hdenied : ¬ pool.Undenied t) :
    ∃ n ∈ pool.entries g es, n.call = i ∧
      pool.settings.capacity ≤ n.admitted + n.refused := by
  induction es generalizing g with
  | nil =>
      cases hplay
      exact absurd (hbefore t ht) hdenied
  | cons e es ih =>
      rcases Option.bind_eq_some_iff.mp hplay with ⟨g₁, hm, hplay⟩
      have hg₁ : Transition.Reachable pool.system g₁ :=
        Transition.reachable_step hg ⟨Concurrent.Limits.none_allow g e, hm⟩
      by_cases hfine : ∀ t, g₁.calls[i]? = some t → pool.Undenied t
      · rcases ih hg₁ hplay hfine with ⟨n, hn, hfull⟩
        refine ⟨n, ?_, hfull⟩
        rw [entries, hm]
        exact List.mem_append_right _ hn
      · -- The history turns it away in this step.
        rw [not_forall] at hfine
        rcases hfine with ⟨t₁, hfine⟩
        rw [Classical.not_imp] at hfine
        rcases entering_refused hg hm hbefore hfine.1 with hno | ⟨n, hn, hfull⟩
        · exact absurd hno hfine.2
        · exact ⟨n, List.mem_append_left _ (Option.mem_toList.mpr hn), hfull⟩

end LangPool

/-! ## Load shedding -/

/-- **Load is shed only at capacity**, where submissions being turned away do not take
    the last free places. In every history of a pool whose places fit a `usize`, in
    which no submission comes to its `fetch_add` while there is a free place but those
    being turned away take them all, a call that returned `PoolSaturated` came to its
    own while at least as many others were admitted as the pool has places. -/
theorem shed_at_capacity (pool : LangPool) (hfits : pool.settings.places < 2 ^ 64) {s : Pool}
    (hs : pool.start = some s) {es : List (Concurrent.Step Submission PoolChoice)}
    {g : LangPool.State}
    (hplay : Transition.play pool.calls.move { shared := s, calls := [] } es = some g)
    (hroom : ∀ n ∈ pool.entries { shared := s, calls := [] } es, ¬ n.crowded pool.settings.places)
    {i : Nat} {l : Run} (hcall : g.calls[i]? = some { prog := none, loc := l })
    {language : Language} (hresult : l.result = some (.error (.poolSaturated language))) :
    ∃ n ∈ pool.entries { shared := s, calls := [] } es, n.call = i ∧
      pool.settings.places ≤ n.admitted := by
  have hg : Transition.Reachable pool.system { shared := s, calls := [] } :=
    Transition.reachable_init ⟨hs, rfl⟩
  have hcapacity : pool.settings.capacity = pool.settings.places := Nat.mod_eq_of_lt hfits
  have hdenied : ¬ pool.Undenied { prog := none, loc := l } :=
    fun h => h _ hresult language rfl
  rcases LangPool.denied_entry hg hplay (fun t ht => by cases ht) hcall hdenied with
    ⟨n, hn, hi, hfull⟩
  refine ⟨n, hn, hi, ?_⟩
  rw [hcapacity] at hfull
  by_contra hless
  exact hroom n hn ⟨Nat.lt_of_not_le hless, hfull⟩

def smallSubmission : Submission :=
  { code := "1", cwd := none, timeout := none, lines := 1 }

theorem smallPool_start : smallPool.start = some (Pool.new 1) := rfl

open Concurrent.Step PoolChoice in
/-- A submission is turned away while another one has the only place. -/
def fullRun : List (Concurrent.Step Submission PoolChoice) :=
  [call smallSubmission, call smallSubmission, perform 0 pass, perform 1 pass,
    perform 1 pass, perform 1 pass, finish 1]

theorem shed_at_capacity_full : ∃ n ∈ smallPool.entries
    { shared := Pool.new 1, calls := [] } fullRun, n.call = 1 ∧ 1 ≤ n.admitted := by
  have hrun : (Transition.play smallPool.calls.move { shared := Pool.new 1, calls := [] }
      fullRun).map (fun g => g.calls[1]?.map fun t => (t.prog.isNone, t.loc.result)) =
      some (some (true, some (.error (.poolSaturated smallPool.launch.language)))) := by rfl
  have hentries : smallPool.entries { shared := Pool.new 1, calls := [] } fullRun =
      [{ call := 0, admitted := 0, refused := 0 }, { call := 1, admitted := 1, refused := 0 }] := by
    rfl
  rcases Option.map_eq_some_iff.mp hrun with ⟨g, hg, hcall⟩
  rcases Option.map_eq_some_iff.mp hcall with ⟨⟨prog, l⟩, hat, hfacts⟩
  rw [Prod.mk.injEq, Option.isNone_iff_eq_none] at hfacts
  rcases hfacts with ⟨rfl, hresult⟩
  refine shed_at_capacity smallPool (by decide) smallPool_start hg ?_ hat hresult
  rw [hentries]
  intro n hn
  rcases List.mem_cons.mp hn with rfl | hn
  · exact fun h => absurd h.2 (by decide)
  · cases List.mem_singleton.mp hn
    exact fun h => absurd h.1 (by decide)

open Concurrent.Step PoolChoice in
/-- The job goes while a second submission is being turned away, and then there is no
    place for a third. -/
def emptyRun : List (Concurrent.Step Submission PoolChoice) :=
  [call smallSubmission, call smallSubmission, call smallSubmission, perform 0 pass,
    perform 0 (time 0), perform 1 pass, drop 0, release 0, perform 2 pass, perform 2 pass,
    perform 2 pass, finish 2]

/-- A submission is turned away by a pool that has nobody admitted. -/
theorem shed_early : ¬ ∀ (pool : LangPool) (s : Pool)
    (es : List (Concurrent.Step Submission PoolChoice)) (g : LangPool.State) (i : Nat) (l : Run)
    (language : Language), pool.settings.places < 2 ^ 64 → pool.start = some s →
      Transition.play pool.calls.move { shared := s, calls := [] } es = some g →
      g.calls[i]? = some { prog := none, loc := l } →
      l.result = some (.error (.poolSaturated language)) →
      ∃ n ∈ pool.entries { shared := s, calls := [] } es, n.call = i ∧
        pool.settings.places ≤ n.admitted := by
  intro h
  have hrun : (Transition.play smallPool.calls.move { shared := Pool.new 1, calls := [] }
      emptyRun).map (fun g => g.calls[2]?.map fun t => (t.prog.isNone, t.loc.result)) =
      some (some (true, some (.error (.poolSaturated smallPool.launch.language)))) := by rfl
  have hentries : smallPool.entries { shared := Pool.new 1, calls := [] } emptyRun =
      [{ call := 0, admitted := 0, refused := 0 }, { call := 1, admitted := 1, refused := 0 },
        { call := 2, admitted := 0, refused := 1 }] := by
    rfl
  rcases Option.map_eq_some_iff.mp hrun with ⟨g, hg, hcall⟩
  rcases Option.map_eq_some_iff.mp hcall with ⟨⟨prog, l⟩, hat, hfacts⟩
  rw [Prod.mk.injEq, Option.isNone_iff_eq_none] at hfacts
  rcases hfacts with ⟨rfl, hresult⟩
  rcases h smallPool _ _ g 2 l _ (by decide) smallPool_start hg hat hresult with
    ⟨n, hn, hcall, hplaces⟩
  rw [hentries] at hn
  revert hcall hplaces
  revert n
  decide

/-! ## Sizes -/

/-- A pool whose numbers are what its settings say: its semaphore can be built, it has
    the places they add up to, and it turns no submission away that comes to its
    `fetch_add` with nothing in flight. -/
structure LangPool.Sized (pool : LangPool) : Prop where
  starts : pool.start.isSome
  sum : pool.settings.capacity = pool.settings.places
  idle : ∀ s es g i l language, pool.start = some s →
    Transition.play pool.calls.move { shared := s, calls := [] } es = some g →
    g.calls[i]? = some { prog := none, loc := l } →
    l.result = some (.error (.poolSaturated language)) →
    ∃ n ∈ pool.entries { shared := s, calls := [] } es, n.call = i ∧ 0 < n.admitted + n.refused

/-- **The arithmetic of a pool** goes well exactly for the settings that ask for no more
    workers than a semaphore has permits, and for no more places than a `usize`
    counts. -/
theorem sized_iff (pool : LangPool) :
    pool.Sized ↔ pool.settings.maxWorkers ≤ MAX_PERMITS ∧ pool.settings.places < 2 ^ 64 := by
  have hstarts : pool.start.isSome ↔ pool.settings.maxWorkers ≤ MAX_PERMITS := by
    rw [LangPool.start, PoolSettings.effectiveMaxWorkers]
    have hone : 1 ≤ MAX_PERMITS := by decide
    split <;> simp only [Option.isSome_some, Option.isSome_none, true_iff, false_iff,
      Bool.false_eq_true] <;> omega
  constructor
  · intro h
    refine ⟨hstarts.mp h.starts, ?_⟩
    rw [← h.sum]
    exact Nat.mod_lt _ (by decide)
  · rintro ⟨hworkers, hfits⟩
    have hsum : pool.settings.capacity = pool.settings.places := Nat.mod_eq_of_lt hfits
    refine ⟨hstarts.mpr hworkers, hsum, ?_⟩
    intro s es g i l language hs hplay hcall hresult
    have hdenied : ¬ pool.Undenied { prog := none, loc := l } :=
      fun h => h _ hresult language rfl
    rcases LangPool.denied_entry (Transition.reachable_init ⟨hs, rfl⟩) hplay
      (fun t ht => by cases ht) hcall hdenied with ⟨n, hn, hi, hfull⟩
    refine ⟨n, hn, hi, Nat.lt_of_lt_of_le ?_ hfull⟩
    rw [hsum, PoolSettings.places, PoolSettings.effectiveMaxWorkers]
    omega

/-- The pool of a host that writes the largest number for no limit. -/
def unlimitedPool (maxWorkers maxQueueDepth : Nat) : LangPool :=
  { smallPool with
    settings :=
      { smallPool.settings with maxWorkers := maxWorkers, maxQueueDepth := maxQueueDepth } }

open Concurrent.Step PoolChoice in
/-- No limit on the workers leaves no pool. No limit on the queue leaves a pool that
    turns every submission away. -/
theorem unlimited_unsized :
    (unlimitedPool (2 ^ 64 - 1) 256).start = none ∧
    (Transition.play (unlimitedPool 1 (2 ^ 64 - 1)).calls.move
      { shared := Pool.new 1, calls := [] }
      [call smallSubmission, perform 0 pass, perform 0 pass, perform 0 pass, finish 0]).map
        (fun g => g.locals.map Run.result) =
      some [some (.error (.poolSaturated smallPool.launch.language))] ∧
    ¬ (unlimitedPool (2 ^ 64 - 1) 256).Sized ∧ ¬ (unlimitedPool 1 (2 ^ 64 - 1)).Sized := by
  refine ⟨rfl, rfl, fun h => ?_, fun h => ?_⟩
  · exact absurd h.starts (by decide)
  · exact absurd h.sum (by decide)

end TinyRuntime
