import TinyRuntime.Lib.Progress
import TinyRuntime.Pool.Bound

/-!
# A Queue That Drains

Submissions that are left to themselves: nobody submits, nobody is dropped, and no reaper
passes. A queued run then waits only for permits that are given back, and so every run
returns, every permit is free again and no run is counted, unless workers never answer.

A run waits for a worker that never answers as long as it likes, with its permit. If any
run is still queued then, every permit is with such a run. So no permit is ever lost, in
whatever way the runs before were dropped.

## Main definitions

* `PoolOp.silent`, `PoolOp.queued`: What a run can wait for.
* `Run.rank`: How much an ended run has left to drop.
* `LangPool.Drained`, `LangPool.Starved`: How runs can end up.

## Theorems

* `PoolOp.answered`: An effect that need not wait has an answer.
* `settled_of_stuck`: Runs that cannot go on.
* `queue_drains`: Every run ends, or waits as above.
-/

namespace TinyRuntime

open Concurrent (tally tally_cons tally_le)

/-- Waiting for a reply that never comes. -/
def PoolOp.silent : ∀ β, PoolOp β → Bool
  | _, .pending => true
  | _, _ => false

/-- Waiting for a permit. -/
def PoolOp.queued : ∀ β, PoolOp β → Bool
  | _, .acquire => true
  | _, _ => false

/-- How much an ended run has left to drop. -/
def Run.rank (l : Run) : Nat :=
  l.busy + l.slots + l.counted

section Answered

variable {s s' : Pool} {l l' : Run}

/-- Readings for every idle worker. -/
theorem takeIdle_checks (ttl : Option Nat) (idle : List Worker) :
    ∃ r, takeIdle ttl (idle.map fun _ => (0, false)) idle = some r := by
  induction idle with
  | nil => exact ⟨_, rfl⟩
  | cons w idle ih =>
      rw [List.map_cons, takeIdle]
      split
      · exact ih
      · exact ⟨_, rfl⟩

/-- An effect that waits neither for a permit nor for what never comes has an answer. -/
theorem PoolOp.answered {β : Type} {op : PoolOp β} (hsilent : PoolOp.silent β op = false)
    (hqueued : PoolOp.queued β op = true → 0 < s.permits) : ∃ c r, op.respond (s, l) c = some r := by
  cases op with
  | now => exact ⟨.time s.seen, _, if_pos (Nat.le_refl _)⟩
  | acquire => exact ⟨.pass, _, if_pos (hqueued rfl)⟩
  | takeIdle ttl =>
      rcases takeIdle_checks ttl s.idle with ⟨⟨taken, rest⟩, htaken⟩
      refine ⟨.checks (s.idle.map fun _ => (0, false)), ?_⟩
      simp only [respond, htaken]
      cases taken with
      | none => exact ⟨_, rfl⟩
      | some w => exact ⟨_, rfl⟩
  | newToken => exact ⟨.text "", _, rfl⟩
  | nextLine worker deadline => exact ⟨.ended, _, rfl⟩
  | pending => cases hsilent
  | enter | leave | reject | nextJob | countSpawn | ready | dropChild | countJob | park |
      shutdown => exact ⟨.pass, _, rfl⟩
  | _ => exact ⟨.failed "", _, rfl⟩

/-- Dropping a local leaves one less. -/
theorem Run.rank_release (h : Run.release (s, l) = some (s', l')) : l'.rank < l.rank := by
  simp only [Run.release] at h
  split at h
  · rename_i hhold
    cases h
    have hbusy : l.busy = 1 := if_neg hhold
    have hfree : ({ l with hold := .nothing } : Run).busy = 0 := rfl
    rw [Run.rank, Run.rank, hbusy, hfree]
    exact Nat.add_lt_add_right (Nat.add_lt_add_right Nat.zero_lt_one _) _
  · split at h
    · rename_i hpermit
      cases h
      have hslots : l.slots = 1 := if_pos hpermit
      have hfree : ({ l with permit := false } : Run).slots = 0 := rfl
      rw [Run.rank, Run.rank, hslots, hfree]
      exact Nat.add_lt_add_right (Nat.add_lt_add_left Nat.zero_lt_one _) _
    · split at h
      · rename_i hentered
        cases h
        have hcounted : l.counted = 1 := if_pos hentered
        have hfree : ({ l with entered := none } : Run).counted = 0 := rfl
        rw [Run.rank, Run.rank, hcounted, hfree]
        exact Nat.add_lt_add_left Nat.zero_lt_one _
      · cases h

/-- A run with nothing left to drop. -/
theorem Run.rank_of_release (h : Run.release (s, l) = none) : l.rank = 0 := by
  simp only [Run.release] at h
  split at h
  · cases h
  · rename_i hhold
    split at h
    · cases h
    · rename_i hpermit
      split at h
      · cases h
      · rename_i hentered
        have hbusy : l.busy = 0 := if_pos (not_not.mp hhold)
        have hslots : l.slots = 0 := if_neg hpermit
        have hcounted : l.counted = 0 := if_neg hentered
        rw [Run.rank, hbusy, hslots, hcounted]

end Answered

namespace LangPool

/-- Whether a run waits at an effect of a kind. -/
def waitsAt (kind : ∀ β, PoolOp β → Bool)
    (t : Concurrent.Call PoolOp Run (Except Error ExecResponse)) : Bool :=
  t.prog.any (Prog.next kind)

/-- Every run has ended, and nothing is left of it: all permits are free. -/
structure Drained (pool : LangPool) (g : State) : Prop where
  ended : ∀ t ∈ g.calls, t.prog = none
  held : ∀ t ∈ g.calls, t.loc.hold = .nothing
  permits : g.shared.permits = pool.settings.effectiveMaxWorkers
  inflight : g.shared.inflight = 0

/-- Some runs wait for workers that never answer. Any other run has ended, or is queued
    while all permits are with such runs. -/
structure Starved (pool : LangPool) (g : State) : Prop where
  silent : 0 < g.calls.countP (waitsAt PoolOp.silent)
  others : ∀ t ∈ g.calls, t.prog = none ∨ waitsAt PoolOp.silent t = true ∨
    waitsAt PoolOp.queued t = true
  full : (∃ t ∈ g.calls, waitsAt PoolOp.queued t = true) →
    pool.settings.effectiveMaxWorkers ≤ g.calls.countP (waitsAt PoolOp.silent)

end LangPool

section Stuck

variable {pool : LangPool} {g : LangPool.State}

/-- A run that cannot go on has ended, or waits. -/
theorem waits_of_unmoved {i : Nat} {t : Concurrent.Call PoolOp Run (Except Error ExecResponse)}
    (hstuck : ∀ g', ¬ pool.calls.Onward .none g g') (ht : g.calls[i]? = some t) :
    t.prog = none ∧ t.loc.rank = 0 ∨ LangPool.waitsAt PoolOp.silent t = true ∨
      LangPool.waitsAt PoolOp.queued t = true ∧ g.shared.permits = 0 := by
  rcases t with ⟨prog, l⟩
  cases prog with
  | none =>
      refine .inl ⟨rfl, ?_⟩
      cases hr : Run.release (g.shared, l) with
      | none => exact Run.rank_of_release hr
      | some r =>
          have hrelease : pool.calls.release (g.shared, l) = some r := hr
          refine absurd ⟨.release i, rfl, Concurrent.Limits.none_allow _ _, ?_⟩
            (hstuck (g.put i none r))
          simp only [Concurrent.Calls.move, ht, hrelease, Option.map_some]
  | some p =>
      refine .inr ?_
      cases p with
      | done result =>
          refine absurd ⟨.finish i, rfl, Concurrent.Limits.none_allow _ _, ?_⟩
            (hstuck (g.put i none (g.shared, { l with result := some result })))
          simp only [Concurrent.Calls.move, ht]
          rfl
      | perform op k =>
          by_contra hwaits
          rw [not_or, not_and_or] at hwaits
          have hpermit : PoolOp.queued _ op = true → 0 < g.shared.permits := fun hq =>
            Nat.pos_of_ne_zero (hwaits.2.resolve_left fun hno => hno hq)
          rcases PoolOp.answered (Bool.eq_false_iff.mpr hwaits.1) hpermit with ⟨c, r, hr⟩
          have hrespond : pool.calls.handler.respond op (g.shared, l) c = some r := hr
          refine hstuck (g.put i (some (k r.1)) r.2)
            ⟨.perform i c, rfl, Concurrent.Limits.none_allow _ _, ?_⟩
          simp only [Concurrent.Calls.move, ht, hrespond, Option.map_some]

/-- Only runs that wait for a worker have a permit then. -/
theorem slots_of_unmoved (h : Transition.Reachable pool.system g)
    (hstuck : ∀ g', ¬ pool.calls.Onward .none g g') : ∀ t ∈ g.calls,
      t.loc.slots ≤ if LangPool.waitsAt PoolOp.silent t then 1 else 0 := by
  intro t ht
  have hT := ((pool_joint pool).reachable (fun s hs => PoolInvariant.start hs) h).1
  rcases List.mem_iff_getElem?.mp ht with ⟨i, hi⟩
  rcases waits_of_unmoved hstuck hi with ⟨_, hrank⟩ | hsilent | ⟨hqueued, _⟩
  · rw [Run.rank] at hrank
    omega
  · rw [if_pos hsilent, Run.slots]
    split
    · exact Nat.le_refl 1
    · exact Nat.zero_le 1
  · rcases t with ⟨prog, l⟩
    cases prog with
    | none => cases hqueued
    | some p =>
        cases p with
        | done result => cases hqueued
        | perform op k =>
            cases op with
            | acquire =>
                have hfree : l.permit = false := (hT _ ht _ rfl).1
                rw [Run.slots, hfree]
                exact Nat.zero_le _
            | _ => cases hqueued

/-- Runs that cannot go on have all ended, or some of them wait for their workers. -/
theorem settled_of_stuck (h : Transition.Reachable pool.system g)
    (hstuck : ∀ g', ¬ pool.calls.Onward .none g g') : pool.Drained g ∨ pool.Starved g := by
  have hinv := ((pool_joint pool).reachable (fun s hs => PoolInvariant.start hs) h).2
  have hpermits := hinv.slots.permits
  have hslots := Concurrent.tally_le_countP (slots_of_unmoved h hstuck)
  rw [← Concurrent.Config.locals] at hslots
  have hpos : 0 < pool.settings.effectiveMaxWorkers := Nat.lt_of_lt_of_le Nat.zero_lt_one
    (Nat.le_max_right _ _)
  have hwaits : ∀ t ∈ g.calls, t.prog = none ∧ t.loc.rank = 0 ∨
      LangPool.waitsAt PoolOp.silent t = true ∨
        LangPool.waitsAt PoolOp.queued t = true ∧ g.shared.permits = 0 := by
    intro t ht
    rcases List.mem_iff_getElem?.mp ht with ⟨i, hi⟩
    exact waits_of_unmoved hstuck hi
  rcases Nat.eq_zero_or_pos (g.calls.countP (LangPool.waitsAt PoolOp.silent)) with hnone | hsome
  · left
    -- A queued run would wait for a permit that nobody has.
    have hended : ∀ t ∈ g.calls, t.prog = none ∧ t.loc.rank = 0 := by
      intro t ht
      rcases hwaits t ht with hended | hsilent | ⟨_, hempty⟩
      · exact hended
      · exact absurd hsilent (List.countP_eq_zero.mp hnone t ht)
      · omega
    have hrank : ∀ l ∈ g.locals, l.rank = 0 := by
      intro l hl
      rcases List.mem_map.mp hl with ⟨t, ht, rfl⟩
      exact (hended t ht).2
    refine ⟨fun t ht => (hended t ht).1, fun t ht => ?_, ?_, ?_⟩
    · have hzero := (hended t ht).2
      by_contra hhold
      have hbusy : t.loc.busy = 1 := if_neg hhold
      rw [Run.rank] at hzero
      omega
    · omega
    · rw [hinv.counted.inflight]
      refine Concurrent.tally_eq_zero fun l hl => ?_
      have hzero := hrank l hl
      rw [Run.rank] at hzero
      omega
  · right
    refine ⟨hsome, fun t ht => ?_, ?_⟩
    · rcases hwaits t ht with ⟨hended, _⟩ | hsilent | ⟨hqueued, _⟩
      · exact .inl hended
      · exact .inr (.inl hsilent)
      · exact .inr (.inr hqueued)
    · rintro ⟨t, ht, hqueued⟩
      rcases hwaits t ht with ⟨hended, _⟩ | hsilent | ⟨_, hempty⟩
      · rw [LangPool.waitsAt, hended] at hqueued
        cases hqueued
      · rcases t with ⟨prog, l⟩
        cases prog with
        | none => cases hqueued
        | some p =>
            cases p with
            | done result => cases hqueued
            | perform op k =>
                cases op with
                | acquire => cases hsilent
                | _ => cases hqueued
      · omega

/-- **The queue drains**: whatever runs there were before, and whoever was dropped where,
    runs left to themselves stop after finitely many steps. Then all of them have
    returned, every permit is free, no worker is held and nothing is counted in flight;
    or there are workers that never answer, and a run is queued only while every permit
    is with a run that waits for such a worker. -/
theorem queue_drains (pool : LangPool) {g : LangPool.State}
    (h : Transition.Reachable pool.system g) :
    Concurrent.Ends (pool.calls.Onward .none)
      (fun g' : LangPool.State => (pool.Drained g' ∨ pool.Starved g') ∧
        g.Going (fun l => l.result ≠ none) g') g := by
  have hkept : ∀ s l s' l', l.result ≠ none → pool.calls.release (s, l) = some (s', l') →
      l'.result ≠ none := by
    intro s l s' l' hresult hr
    change Run.release (s, l) = _ at hr
    simp only [Run.release] at hr
    split at hr
    · cases hr
      exact hresult
    · split at hr
      · cases hr
        exact hresult
      · split at hr <;> cases hr
        exact hresult
  exact Concurrent.ends_reachable _ h (fun _ _ _ _ hr => Run.rank_release hr)
    (fun _ _ => Option.some_ne_none _) hkept fun g' hreach _ hstuck =>
      settled_of_stuck hreach hstuck

end Stuck

/-! ## A queued run -/

/-- The pool with room for a run that waits. -/
def queuePool : LangPool :=
  { smallPool with settings := { smallPool.settings with maxQueueDepth := 1 } }

open Concurrent.Step in
/-- A run has the one worker, another waits for its permit, and the first is dropped. -/
def queuedRun : List (Concurrent.Step Submission PoolChoice) :=
  spawnRun 0 ++ [call { code := "2", cwd := none, timeout := none, lines := 1 },
    perform 1 .pass, perform 1 (.time 0), drop 0]

/-- The queue drains from there. -/
theorem queue_drains_queued : ∃ g : LangPool.State, g.shared.permits = 0 ∧
    g.calls.countP (LangPool.waitsAt PoolOp.queued) = 1 ∧
    Concurrent.Ends (queuePool.calls.Onward .none)
      (fun g' : LangPool.State => (queuePool.Drained g' ∨ queuePool.Starved g') ∧
        g.Going (fun l => l.result ≠ none) g') g := by
  have hrun : (Transition.play queuePool.calls.move { shared := Pool.new 1, calls := [] }
      queuedRun).map
        (fun g => (g.shared.permits, g.calls.countP (LangPool.waitsAt PoolOp.queued))) =
      some (0, 1) := by rfl
  rcases Option.map_eq_some_iff.mp hrun with ⟨g, hg, hfacts⟩
  simp only [Prod.mk.injEq] at hfacts
  exact ⟨g, hfacts.1, hfacts.2, queue_drains queuePool (Concurrent.reachable_play rfl hg)⟩

end TinyRuntime
