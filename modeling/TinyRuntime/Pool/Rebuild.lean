import TinyRuntime.Pool.Pools

/-!
# Children across a Rebuild

Whether the cap on the children of a language survives a rebuild of its pool.

A replaced pool lives as long as anything has a reference to it. It keeps its own
permits, so a call that still runs on it may take a worker or spawn one beside the
workers of the new pool, and the cap counts twice (`cap_exceeded`). A pool that
nothing has a reference to goes when it is replaced, with its parked workers.

So the cap holds along every run in which pools are replaced only while no call and
no reaper has a reference to them (`cap_kept`). The invariant says that a pool is
then either the live one or nobody's, and that a pool has its own bound
(`PoolInvariant`) whatever the others do.

## Main definitions

* `Pools.Asserts`: What a call asserts at its effects.
* `Registered`: The invariant.
* `rebuildsIdle`: Pools are replaced only when nobody uses them.
* `Capped`: The cap.

## Theorems

* `execute_conduct`: A call meets its assertions.
* `registered_joint`: The invariant is a joint one.
* `cap_kept`: The cap, if pools are replaced idle.
* `cap_exceeded`: Two calls with different launches.
-/

namespace TinyRuntime

open Concurrent (tally tally_cons tally_perm tally_eq_zero)

/-! ## One call -/

/-- What a call knows of its locals when it performs an effect. -/
def Pools.Asserts : ∀ β, PoolsOp β → Client → Prop
  | _, .inl _, l => l.pool = none ∧ l.arc = false ∧ ∃ input, l.run = Run.new input
  | β, .inr op, l =>
      l.arc = true ∧ ∃ i pool, l.pool = some (i, pool) ∧ pool.Asserts β op l.run

variable {json : Json} {printable : Char → Bool}

theorem ensure_pool {s s' : Pools} {launch : Launch} {settings : PoolSettings}
    {runtimeVersion : String} {i : Nat} {pool : LangPool}
    (h : s.ensure json printable launch settings runtimeVersion = some (i, pool, s')) :
    (∃ p, s.current launch.language (poolFingerprint printable launch settings) = some (i, p) ∧
        pool = p.pool ∧ s' = s.put i { p with handles := p.handles + 1 }) ∨
      s.current launch.language (poolFingerprint printable launch settings) = none ∧
        i = s.built.length ∧ pool.launch = launch ∧ pool.settings = settings ∧
        pool.runtimeVersion = runtimeVersion ∧ pool.json = json ∧
        ∃ state, pool.start = some state ∧
          s' = s.insert (poolFingerprint printable launch settings) (Pooled.new pool state) := by
  unfold Pools.ensure at h
  simp only [] at h
  split at h
  · rename_i j p hcurrent
    cases h
    exact .inl ⟨p, hcurrent, rfl, rfl⟩
  · rename_i hcurrent
    rcases Option.map_eq_some_iff.mp h with ⟨state, hstate, h⟩
    cases h
    exact .inr ⟨hcurrent, rfl, rfl, rfl, rfl, rfl, state, hstate, rfl⟩

/-- What a call is given. -/
theorem ensure_respond {s s' : Pools} {l l' : Client} {launch : Launch} {settings : PoolSettings}
    {runtimeVersion : String} {c : PoolsChoice} {b : LangPool}
    (h : PoolsOp.respond json printable (.inl (.ensure launch settings runtimeVersion)) (s, l) c =
      some (b, s', l')) :
    ∃ i, s.ensure json printable launch settings runtimeVersion = some (i, b, s') ∧
      l' = { l with pool := some (i, b), arc := true } := by
  cases c with
  | op c =>
      rcases Option.map_eq_some_iff.mp h with ⟨⟨i, pool, s''⟩, hensure, heq⟩
      cases heq
      exact ⟨i, hensure, rfl⟩
  | _ => cases h

/-- An effect of the pool, in the hands of a call. -/
theorem pool_respond {β : Type} {op : PoolOp β} {s s' : Pools} {l l' : Client} {c : PoolsChoice}
    {b : β} (h : PoolsOp.respond json printable (.inr op) (s, l) c = some (b, s', l')) :
    ∃ i pool p c' state run, c = .op c' ∧ l.pool = some (i, pool) ∧ s.built[i]? = some p ∧
      op.respond (p.state, l.run) c' = some (b, state, run) ∧
      s' = s.put i { p with state := state } ∧ l' = { l with run := run } := by
  cases c with
  | op c =>
      simp only [PoolsOp.respond] at h
      split at h
      · cases h
      · rename_i i pool hpool
        split at h
        · cases h
        · rename_i p hp
          rcases Option.map_eq_some_iff.mp h with ⟨⟨b', state, run⟩, hr, heq⟩
          cases heq
          exact ⟨i, pool, p, c, state, run, rfl, hpool, hp, hr, rfl, rfl⟩
  | _ => cases h

/-- A call meets its assertions. -/
theorem execute_conduct (job : Job) :
    job.execute.wp (Pools.calls json printable).localised Pools.Asserts (fun _ _ => True)
      (Client.new job.input) := by
  rw [Job.execute, Prog.wp_bind]
  refine ⟨⟨rfl, rfl, job.input, rfl⟩, ?_⟩
  rintro ⟨s, c⟩ pool l' hr
  rcases Option.map_eq_some_iff.mp hr with ⟨⟨b, s', l''⟩, hrespond, hr⟩
  cases hr
  rcases ensure_respond hrespond with ⟨i, _, rfl⟩
  refine Prog.wp_embed (fun run l => l.arc = true ∧ l.pool = some (i, b) ∧ l.run = run)
    ?_ ?_ (fun _ _ _ _ _ => trivial) _ (Run.new job.input) _ ⟨rfl, rfl, rfl⟩
    (LangPool.run_conduct b job.input)
  · rintro β op run l ⟨harc, hpool, rfl⟩ hA
    exact ⟨harc, i, b, hpool, hA⟩
  · rintro β op run l ⟨s, c⟩ b' l' ⟨harc, hpool, rfl⟩ _ hr
    rcases Option.map_eq_some_iff.mp hr with ⟨⟨b'', s', l''⟩, hrespond, hr⟩
    cases hr
    rcases pool_respond hrespond with ⟨_, _, p, c', state, run, _, _, _, hop, _, rfl⟩
    refine ⟨(p.state, c'), run, ?_, harc, hpool, rfl⟩
    change (op.respond (p.state, l.run) c').map _ = _
    rw [hop]
    rfl

/-! ## The invariant -/

/-- The reference of a call to one pool. -/
def Client.holds (i : Nat) (l : Client) : Nat :=
  if l.arc && l.pool.any (·.1 = i) then 1 else 0

/-- Every pool is accounted for: the registry's entries, the references of the calls,
    the bound of each pool. A pool that is not live is nobody's. -/
structure Registered (s : Pools) (ls : List Client) : Prop where
  entries : ∀ language entry, s.live language = some entry →
    ∃ p, s.built[entry.pool]? = some p ∧ p.pool.launch.language = language
  handles : ∀ i p, s.built[i]? = some p → p.handles = tally (Client.holds i) ls
  given : ∀ l ∈ ls, ∀ i pool, l.pool = some (i, pool) → ∃ p, s.built[i]? = some p ∧ p.pool = pool
  freed : ∀ l ∈ ls, l.arc = false → l.run.busy = 0
  bounded : ∀ i p, s.built[i]? = some p → PoolInvariant p.pool p.state (runs i ls)
  replaced : ∀ i p, s.built[i]? = some p → s.isLive i p = false →
    p.handles = 0 ∧ p.reaping = false

/-- Pools are replaced only while no call and no reaper has a reference to them. -/
def rebuildsIdle (printable : Char → Bool) :
    Concurrent.Limits PoolsOp Pools Client Job PoolsChoice where
  calls _ _ _ := True
  drops _ _ _ _ := True
  performs _ op s _ _ :=
    match op with
    | .inl (.ensure launch settings _) =>
        ∀ entry p, s.live launch.language = some entry →
          entry.fingerprint ≠ poolFingerprint printable launch settings →
          s.built[entry.pool]? = some p → p.handles = 0 ∧ p.reaping = false
    | .inr _ => True

theorem runs_cons (i : Nat) (l : Client) (ls : List Client) :
    runs i (l :: ls) = if l.pool.any (·.1 = i) then l.run :: runs i ls else runs i ls := by
  rw [runs, List.filterMap_cons]
  split
  · rename_i h
    rw [if_neg (by intro hi; rw [if_pos hi] at h; cases h), runs]
  · rename_i run h
    split at h
    · cases h
      rw [if_pos ‹_›, runs]
    · cases h

theorem runs_cons_of {i : Nat} {l : Client} {pool : LangPool} (hl : l.pool = some (i, pool))
    (ls : List Client) : runs i (l :: ls) = l.run :: runs i ls := by
  rw [runs_cons, hl]
  exact if_pos (decide_eq_true rfl)

theorem runs_cons_none {l : Client} (hl : l.pool = none) (i : Nat) (ls : List Client) :
    runs i (l :: ls) = runs i ls := by
  rw [runs_cons, hl]
  rfl

theorem getElem?_insert (s : Pools) (fingerprint : String) (p : Pooled) (j : Nat) :
    (s.insert fingerprint p).built[j]? =
      if j = s.built.length then some p else s.built[j]? := by
  rw [Pools.insert, List.getElem?_append]
  split
  · rw [if_neg (by omega)]
  · rename_i h
    rw [List.getElem?_singleton]
    split
    · rw [if_pos (by omega)]
    · rw [if_neg (by omega), List.getElem?_eq_none (by omega)]

theorem getElem?_put {s : Pools} {i : Nat} {p q : Pooled} (h : s.built[i]? = some p) (j : Nat) :
    (s.put i q).built[j]? = if j = i then some q else s.built[j]? := by
  rw [Pools.put, List.getElem?_set]
  by_cases hij : i = j
  · subst hij
    rw [if_pos rfl, if_pos rfl, if_pos (List.getElem?_eq_some_iff.mp h).1]
  · rw [if_neg hij, if_neg (Ne.symm hij)]

/-- Dropping locals leaves nothing in the hands of a run. -/
theorem busy_release {s s' : Pool} {l l' : Run} (h : Run.release (s, l) = some (s', l')) :
    l'.busy ≤ l.busy := by
  simp only [Run.release] at h
  split at h
  · cases h
    exact Nat.zero_le _
  · split at h
    · cases h
      exact Nat.le_refl _
    · split at h
      · cases h
        exact Nat.le_refl _
      · cases h

/-- A run without locals holds nothing. -/
theorem busy_released {s : Pool} {l : Run} (h : Run.release (s, l) = none) : l.busy = 0 := by
  simp only [Run.release] at h
  split at h
  · cases h
  · rename_i hhold
    exact if_pos (by simpa only [ne_eq, not_not] using hhold)

namespace Registered

variable {s : Pools} {l l' : Client} {ls : List Client} {i : Nat} {p p' : Pooled}

theorem perm {ls' : List Client} (hp : ls.Perm ls') (h : Registered s ls) :
    Registered s ls' where
  entries := h.entries
  handles i p hi := tally_perm (Client.holds i) hp ▸ h.handles i p hi
  given l hl := h.given l (hp.mem_iff.mpr hl)
  freed l hl := h.freed l (hp.mem_iff.mpr hl)
  bounded i p hi := (h.bounded i p hi).perm (hp.filterMap _)
  replaced := h.replaced

/-- A call that has not asked for a pool yet. -/
theorem call (job : Job) (h : Registered s ls) : Registered s (Client.new job.input :: ls) where
  entries := h.entries
  handles i p hi := by
    rw [tally_cons, h.handles i p hi]
    exact (Nat.zero_add _).symm
  given := List.forall_mem_cons.mpr ⟨fun _ _ hno => (by cases hno), h.given⟩
  freed := List.forall_mem_cons.mpr ⟨fun _ => rfl, h.freed⟩
  bounded i p hi := by
    rw [runs_cons]
    exact h.bounded i p hi
  replaced := h.replaced

/-- One pool changes, and what the calls have of the others does not. -/
theorem change {ls' : List Client} (h : Registered s ls) (hp : s.built[i]? = some p)
    (hpool : p'.pool = p.pool)
    (hother : ∀ j, j ≠ i → tally (Client.holds j) ls' = tally (Client.holds j) ls ∧
      runs j ls' = runs j ls)
    (hhandles : p'.handles = tally (Client.holds i) ls')
    (hgiven : ∀ l ∈ ls', ∀ j pool, l.pool = some (j, pool) →
      ∃ q, s.built[j]? = some q ∧ q.pool = pool)
    (hfreed : ∀ l ∈ ls', l.arc = false → l.run.busy = 0)
    (hbounded : PoolInvariant p'.pool p'.state (runs i ls'))
    (hreplaced : s.isLive i p = false → p'.handles = 0 ∧ p'.reaping = false) :
    Registered (s.put i p') ls' := by
  have hlive : ∀ j q, (s.put i p').isLive j q = s.isLive j q := fun _ _ => rfl
  have hfind : ∀ {j : Nat} {q : Pooled}, s.built[j]? = some q →
      ∃ q', (s.put i p').built[j]? = some q' ∧ q'.pool = q.pool := by
    intro j q hq
    rw [getElem?_put hp]
    split
    · rename_i heq
      rw [heq, hp] at hq
      cases hq
      exact ⟨p', rfl, hpool⟩
    · exact ⟨q, hq, rfl⟩
  refine ⟨?_, ?_, ?_, hfreed, ?_, ?_⟩
  · intro language entry hentry
    rcases h.entries language entry hentry with ⟨q, hq, hlang⟩
    rcases hfind hq with ⟨q', hq', hsame⟩
    exact ⟨q', hq', hsame ▸ hlang⟩
  · intro j q hq
    rw [getElem?_put hp] at hq
    split at hq
    · rename_i heq
      cases hq
      exact heq ▸ hhandles
    · rename_i hj
      rw [(hother j hj).1]
      exact h.handles j q hq
  · intro l hl j pool hj
    rcases hgiven l hl j pool hj with ⟨q, hq, hqpool⟩
    rcases hfind hq with ⟨q', hq', hsame⟩
    exact ⟨q', hq', hsame.trans hqpool⟩
  · intro j q hq
    rw [getElem?_put hp] at hq
    split at hq
    · rename_i heq
      cases hq
      exact heq ▸ hbounded
    · rename_i hj
      rw [(hother j hj).2]
      exact h.bounded j q hq
  · intro j q hq hno
    rw [getElem?_put hp] at hq
    split at hq
    · rename_i heq
      cases hq
      refine hreplaced ?_
      rw [hlive, Pools.isLive, hpool, heq] at hno
      exact hno
    · exact h.replaced j q hq hno

/-- A call and its pool change. -/
theorem put (h : Registered s (l :: ls)) (hp : s.built[i]? = some p) (hpool : p'.pool = p.pool)
    (hl : ∀ x ∈ l.pool, x.1 = i) (hl' : l'.pool = some (i, p.pool))
    (hhandles : p'.handles + l.holds i = p.handles + l'.holds i)
    (hfreed : l'.arc = false → l'.run.busy = 0)
    (hbounded : PoolInvariant p'.pool p'.state (runs i (l' :: ls)))
    (hreplaced : s.isLive i p = false → p'.handles = 0 ∧ p'.reaping = false) :
    Registered (s.put i p') (l' :: ls) := by
  refine h.change hp hpool ?_ ?_ ?_ ?_ hbounded hreplaced
  · intro j hj
    have hno : l.pool.any (·.1 = j) = false := by
      cases hx : l.pool with
      | none => rfl
      | some x => exact decide_eq_false fun hxj => hj (hxj.symm.trans (hl x hx))
    have hno' : l'.pool.any (·.1 = j) = false := by
      rw [hl']
      exact decide_eq_false (Ne.symm hj)
    rw [tally_cons, tally_cons, runs_cons, runs_cons, Client.holds, Client.holds, hno, hno',
      Bool.and_false, Bool.and_false]
    exact ⟨rfl, rfl⟩
  · have hold := h.handles i p hp
    rw [tally_cons] at hold
    rw [tally_cons]
    omega
  · refine List.forall_mem_cons.mpr ⟨?_, fun x hx => h.given x (List.mem_cons_of_mem _ hx)⟩
    intro j pool hj
    rw [hl'] at hj
    cases hj
    exact ⟨p, hp, rfl⟩
  · exact List.forall_mem_cons.mpr ⟨hfreed, fun x hx => h.freed x (List.mem_cons_of_mem _ hx)⟩

/-- A run in the hands of a call, among the runs of its pool. -/
theorem bounded_cons (h : Registered s (l :: ls)) {pool : LangPool}
    (hl : l.pool = some (i, pool)) (hp : s.built[i]? = some p) :
    PoolInvariant p.pool p.state (l.run :: runs i ls) := by
  exact runs_cons_of hl ls ▸ h.bounded i p hp

/-- One effect of a run. -/
theorem perform {β : Type} {op : PoolOp β} {s' : Pools} {c : PoolsChoice} {b : β}
    (h : Registered s (l :: ls)) (hA : Pools.Asserts β (.inr op) l)
    (hr : PoolsOp.respond json printable (.inr op) (s, l) c = some (b, s', l')) :
    Registered s' (l' :: ls) := by
  rcases hA with ⟨harc, i, pool, hpool, hA⟩
  rcases pool_respond hr with ⟨i', pool', p, c', state, run, _, hpool', hp, hop, rfl, rfl⟩
  rw [hpool] at hpool'
  cases hpool'
  rcases h.given l (List.mem_cons_self ..) i pool hpool with ⟨q, hq, hqpool⟩
  rw [hp] at hq
  cases hq
  subst hqpool
  have hinv := (h.bounded_cons hpool hp).step hA (PoolOp.answers_of_respond hop)
  refine h.put hp rfl ?_ hpool rfl (fun hno => ?_) ?_ (h.replaced i p hp)
  · exact fun x hx => (Option.some.inj (hpool.symm.trans hx)) ▸ rfl
  · rw [harc] at hno
    cases hno
  · have hsame : ({ l with run := run } : Client).pool = some (i, p.pool) := hpool
    rw [runs_cons_of hsame]
    exact hinv

/-- A call joins the live pool. -/
theorem join (h : Registered s (l :: ls)) (hl : l.pool = none) (harc : l.arc = false)
    {input : Submission} (hrun : l.run = Run.new input) (hp : s.built[i]? = some p)
    (hlive : s.isLive i p = true) :
    Registered (s.put i { p with handles := p.handles + 1 })
      ({ l with pool := some (i, p.pool), arc := true } :: ls) := by
  refine h.put hp rfl (fun x hx => ?_) rfl ?_ (fun hno => (by cases hno)) ?_ fun hno => ?_
  · rw [hl] at hx
    cases hx
  · simp only [Client.holds, harc, hl, Bool.false_and, Option.any_some, decide_true, Bool.and_self,
      Bool.false_eq_true, ↓reduceIte]
  · have hinv := (runs_cons_none hl i ls ▸ h.bounded i p hp).call input
    rw [runs_cons_of rfl]
    exact hrun.symm ▸ hinv
  · rw [hlive] at hno
    cases hno

/-- A call builds a pool. The one it replaces is nobody's. -/
theorem build (h : Registered s (l :: ls)) (hl : l.pool = none) (harc : l.arc = false)
    {input : Submission} (hrun : l.run = Run.new input) (hstart : p.pool.start = some p.state) (hhandles : p.handles = 1) {fingerprint : String}
    (hidle : ∀ entry q, s.live p.pool.launch.language = some entry →
      s.built[entry.pool]? = some q → q.handles = 0 ∧ q.reaping = false) :
    Registered (s.insert fingerprint p)
      ({ l with pool := some (s.built.length, p.pool), arc := true } :: ls) := by
  have hold : ∀ {j : Nat} {q}, s.built[j]? = some q → j < s.built.length :=
    fun hq => (List.getElem?_eq_some_iff.mp hq).1
  have hkept : ∀ {j : Nat} {q}, s.built[j]? = some q →
      (s.insert fingerprint p).built[j]? = some q := by
    intro j q hq
    rw [getElem?_insert, if_neg (Nat.ne_of_lt (hold hq))]
    exact hq
  -- No other call has the new pool.
  have hnone : ∀ x ∈ ls, x.pool.any (·.1 = s.built.length) = false := by
    intro x hx
    cases hxp : x.pool with
    | none => rfl
    | some y =>
        rcases h.given x (List.mem_cons_of_mem _ hx) y.1 y.2 hxp with ⟨q, hq, _⟩
        exact decide_eq_false (Nat.ne_of_lt (hold hq))
  have hother : ∀ {j}, j ≠ s.built.length →
      ({ l with pool := some (s.built.length, p.pool), arc := true } : Client).pool.any
        (·.1 = j) = false := fun hj => decide_eq_false (Ne.symm hj)
  refine ⟨?_, ?_, ?_, ?_, ?_, ?_⟩
  · intro language entry hentry
    simp only [Pools.insert] at hentry
    by_cases hnew : language = p.pool.launch.language
    · rw [if_pos hnew] at hentry
      cases hentry
      exact ⟨_, (getElem?_insert ..).trans (if_pos rfl), hnew.symm⟩
    · rw [if_neg hnew] at hentry
      rcases h.entries language entry hentry with ⟨q, hq, hlang⟩
      exact ⟨q, hkept hq, hlang⟩
  · intro j q hq
    rw [getElem?_insert] at hq
    rw [tally_cons]
    split at hq
    · rename_i hj
      subst hj
      cases hq
      have hzero : tally (Client.holds s.built.length) ls = 0 := by
        refine tally_eq_zero fun x hx => ?_
        rw [Client.holds, hnone x hx, Bool.and_false]
        rfl
      rw [hzero, Client.holds, hhandles]
      exact (if_pos (decide_eq_true rfl)).symm
    · rename_i hj
      have hq' := h.handles j q hq
      rw [tally_cons, Client.holds, harc] at hq'
      rw [hq', Client.holds, hother hj, Bool.and_false]
      rfl
  · refine List.forall_mem_cons.mpr ⟨?_, ?_⟩
    · intro j pool' hj
      cases hj
      exact ⟨_, (getElem?_insert ..).trans (if_pos rfl), rfl⟩
    · intro x hx j pool' hj
      rcases h.given x (List.mem_cons_of_mem _ hx) j pool' hj with ⟨q, hq, hqpool⟩
      exact ⟨q, hkept hq, hqpool⟩
  · exact List.forall_mem_cons.mpr ⟨fun hno => (by cases hno),
      fun x hx => h.freed x (List.mem_cons_of_mem _ hx)⟩
  · intro j q hq
    rw [getElem?_insert] at hq
    split at hq
    · rename_i hj
      subst hj
      cases hq
      have hempty : runs s.built.length ls = [] := by
        refine List.filterMap_eq_nil_iff.mpr fun x hx => ?_
        rw [hnone x hx]
        rfl
      rw [runs_cons_of rfl, hempty, hrun]
      exact (PoolInvariant.start hstart).call input
    · rename_i hj
      rw [runs_cons, hother hj]
      exact runs_cons_none hl j ls ▸ h.bounded j q hq
  · intro j q hq hno
    rw [getElem?_insert] at hq
    simp only [Pools.isLive, Pools.insert] at hno
    split at hq
    · cases hq
      rw [if_pos rfl] at hno
      rename_i hj
      exact absurd hj.symm (beq_eq_false_iff_ne.mp hno)
    · by_cases hlive : s.isLive j q = true
      · -- It was the one replaced.
        by_cases hlang : q.pool.launch.language = p.pool.launch.language
        · simp only [Pools.isLive] at hlive
          split at hlive
          · rename_i entry hentry
            rw [beq_iff_eq] at hlive
            exact hidle entry q (hlang ▸ hentry) (hlive ▸ hq)
          · cases hlive
        · rw [if_neg hlang] at hno
          rw [Pools.isLive] at hlive
          rw [hno] at hlive
          cases hlive
      · exact h.replaced j q hq (by rwa [Bool.not_eq_true] at hlive)

/-- A call ends. -/
theorem ended (result : Option (Except Error ExecResponse)) (h : Registered s (l :: ls)) :
    Registered s ({ l with run := { l.run with result := result } } :: ls) := by
  have hholds : ∀ i, ({ l with run := { l.run with result := result } } : Client).holds i =
      l.holds i := fun _ => rfl
  refine ⟨h.entries, ?_, ?_, ?_, ?_, h.replaced⟩
  · intro i p hp
    rw [tally_cons, hholds, ← tally_cons]
    exact h.handles i p hp
  · exact List.forall_mem_cons.mpr ⟨h.given l (List.mem_cons_self ..),
      fun x hx => h.given x (List.mem_cons_of_mem _ hx)⟩
  · exact List.forall_mem_cons.mpr ⟨h.freed l (List.mem_cons_self ..),
      fun x hx => h.freed x (List.mem_cons_of_mem _ hx)⟩
  · intro i p hp
    have hinv := h.bounded i p hp
    rw [runs_cons] at hinv ⊢
    split at hinv
    · rw [if_pos ‹_›]
      exact hinv.ended result
    · rw [if_neg ‹_›]
      exact hinv

/-- An ended call drops one of its locals. -/
theorem release {s' : Pools} (h : Registered s (l :: ls))
    (hr : Client.release (s, l) = some (s', l')) : Registered s' (l' :: ls) := by
  simp only [Client.release] at hr
  split at hr
  · cases hr
  · rename_i i pool hpool
    split at hr
    · cases hr
    · rename_i p hp
      rcases h.given l (List.mem_cons_self ..) i pool hpool with ⟨q, hq, hqpool⟩
      rw [hp] at hq
      cases hq
      subst hqpool
      have hfreed := h.freed l (List.mem_cons_self ..)
      have hthis : ∀ x ∈ l.pool, x.1 = i := fun x hx => Option.some.inj (hpool.symm.trans hx) ▸ rfl
      have hinv := h.bounded_cons hpool hp
      split at hr
      · rename_i state run hrun
        cases hr
        have hsame : ({ l with run := run } : Client).pool = some (i, p.pool) := hpool
        refine h.put hp rfl hthis hpool rfl (fun hno => ?_) ?_ (h.replaced i p hp)
        · exact Nat.eq_zero_of_le_zero (Nat.le_trans (busy_release hrun) (hfreed hno ▸ Nat.le_refl _))
        · rw [runs_cons_of hsame]
          exact hinv.release hrun
      · rename_i hrun
        split at hr
        · rename_i harc
          cases hr
          have hone : l.holds i = 1 := by
            rw [Client.holds, harc, hpool]
            exact if_pos (decide_eq_true rfl)
          have hcount := h.handles i p hp
          rw [tally_cons, hone] at hcount
          refine h.put hp rfl hthis hpool ?_ (fun _ => busy_released hrun) ?_ fun hno => ?_
          · rw [hone]
            change p.handles - 1 + 1 = p.handles + 0
            omega
          · have hsame : ({ l with arc := false } : Client).pool = some (i, p.pool) := hpool
            rw [runs_cons_of hsame]
            exact hinv
          · have hnone := (h.replaced i p hp hno).1
            omega
        · cases hr

/-- The reaper of a pool wakes up or makes its pass. -/
theorem reaper {s' : Pools} {c : PoolsChoice} (h : Registered s ls)
    (hr : s.reaper c = some s') : Registered s' ls := by
  have hput : ∀ {i : Nat} {p : Pooled} (state : Pool) (reaping : Bool), s.built[i]? = some p →
      PoolInvariant p.pool state (runs i ls) → (s.isLive i p = false → reaping = false) →
      Registered (s.put i { p with state := state, reaping := reaping }) ls := by
    intro i p state reaping hp hinv hreaping
    exact h.change hp rfl (fun _ _ => ⟨rfl, rfl⟩) (h.handles i p hp) h.given h.freed hinv
      fun hno => ⟨(h.replaced i p hp hno).1, hreaping hno⟩
  cases c with
  | op c => cases hr
  | upgrade i =>
      simp only [Pools.reaper] at hr
      split at hr
      · rename_i p hp
        split at hr
        · rename_i hheld
          cases hr
          refine hput p.state true hp (h.bounded i p hp) fun hno => ?_
          have hidle := h.replaced i p hp hno
          simp only [Pools.held, hno, hidle.1, hidle.2] at hheld
          exact absurd hheld (by simp only [Nat.lt_irrefl, decide_false, Bool.or_self,
            Bool.and_false, Bool.false_and, Bool.false_eq_true, not_false_eq_true])
        · cases hr
      · cases hr
  | reap i c =>
      simp only [Pools.reaper] at hr
      split at hr
      · rename_i p hp
        split at hr
        · rcases Option.map_eq_some_iff.mp hr with ⟨state, hstate, rfl⟩
          exact hput state false hp ((h.bounded i p hp).reaped hstate) fun _ => rfl
        · cases hr
      · cases hr

end Registered

/-- The pool of a language for a fingerprint is the live one. -/
theorem current_spec {s : Pools} {language : Language} {fingerprint : String} {i : Nat}
    {p : Pooled} (h : s.current language fingerprint = some (i, p)) :
    s.built[i]? = some p ∧ ∃ entry, s.live language = some entry ∧ entry.pool = i ∧
      entry.fingerprint = fingerprint := by
  unfold Pools.current at h
  split at h
  · rename_i entry hentry
    split at h
    · rcases Option.map_eq_some_iff.mp h with ⟨q, hq, heq⟩
      cases heq
      exact ⟨hq, entry, hentry, rfl, ‹_›⟩
    · cases h
  · cases h

/-- Asking the registry for a pool, if it replaces only pools that are nobody's. -/
theorem Registered.ensure {s s' : Pools} {l l' : Client} {ls : List Client} {launch : Launch}
    {settings : PoolSettings} {runtimeVersion : String} {c : PoolsChoice} {b : LangPool}
    (h : Registered s (l :: ls))
    (hA : Pools.Asserts _ (.inl (.ensure launch settings runtimeVersion)) l)
    (hidle : (rebuildsIdle printable).performs _
      (.inl (.ensure launch settings runtimeVersion)) s l c)
    (hr : PoolsOp.respond json printable (.inl (.ensure launch settings runtimeVersion)) (s, l) c =
      some (b, s', l')) : Registered s' (l' :: ls) := by
  rcases hA with ⟨hl, harc, input, hrun⟩
  rcases ensure_respond hr with ⟨i, hensure, rfl⟩
  rcases ensure_pool hensure with ⟨p, hcurrent, rfl, rfl⟩ |
    ⟨hcurrent, rfl, rfl, _, _, _, state, hstart, rfl⟩
  · rcases current_spec hcurrent with ⟨hp, entry, hentry, hi, _⟩
    refine h.join hl harc hrun hp ?_
    rcases h.entries _ entry hentry with ⟨q, hq, hlang⟩
    rw [hi, hp] at hq
    cases hq
    rw [Pools.isLive, hlang, hentry]
    exact beq_iff_eq.mpr hi
  · refine @Registered.build s l ls (Pooled.new b state) h hl harc input hrun hstart rfl
      _ fun entry q hentry hq => hidle entry q hentry (fun hsame => ?_) hq
    have hlive : s.live b.launch.language = some entry := hentry
    have hfound : s.current b.launch.language (poolFingerprint printable b.launch settings) =
        some (entry.pool, q) := by
      rw [Pools.current, hlive]
      simp only [hsame, hq, ↓reduceIte, Option.map_some]
    rw [hfound] at hcurrent
    cases hcurrent

theorem registered_joint (json : Json) (printable : Char → Bool) :
    Concurrent.Joint (Pools.calls json printable) (rebuildsIdle printable)
      (fun p l => p.wp (Pools.calls json printable).localised Pools.Asserts (fun _ _ => True) l)
      Registered := by
  refine Concurrent.Joint.of_wp (fun job _ _ _ => execute_conduct job) ?_ ?_ ?_ ?_ ?_ ?_ ?_
  · exact fun s ls ls' hp h => h.perm hp
  · exact fun s ls job _ h => h.call job
  · intro β op s l ls c b s' l' hlim hA h hr
    cases op with
    | inl op =>
        cases op with
        | ensure launch settings runtimeVersion => exact h.ensure hA hlim hr
    | inr op => exact h.perform hA hr
  · exact fun a s l ls _ h => h.ended (some a)
  · exact fun _ _ s l ls _ _ _ h => ⟨fun _ ho => absurd ho List.not_mem_nil, h.ended none⟩
  · exact fun s l ls s' l' h hr => h.release hr
  · exact fun s ls c s' h hr => h.reaper hr

/-! ## The cap -/

/-- The children of every language are within the bound of its live pool, and all of
    them are that pool's. -/
def Capped (s : Pools) (ls : List Client) : Prop :=
  ∀ language,
    match s.live language with
    | none => s.children ls language = 0
    | some entry => ∃ p, s.built[entry.pool]? = some p ∧
        s.children ls language ≤ p.pool.settings.effectiveMaxWorkers ∧
        ∀ i q, s.built[i]? = some q → q.pool.launch.language = language → i ≠ entry.pool →
          q.children s ls i = 0

/-- A sum with one entry that counts. -/
theorem sum_le_single {α : Type} (f : α → Nat → Nat) (l : List α) :
    ∀ n k m, (∀ i x, l[i]? = some x → f x (n + i) ≤ if n + i = k then m else 0) →
      ((l.zipIdx n).map fun x => f x.1 x.2).sum ≤ m := by
  induction l with
  | nil => exact fun _ _ _ _ => Nat.zero_le _
  | cons x l ih =>
      intro n k m h
      have hfirst := h 0 x rfl
      have hrest : ∀ i y, l[i]? = some y → f y (n + 1 + i) ≤ if n + 1 + i = k then m else 0 := by
        intro i y hy
        have hi := h (i + 1) y (by rw [List.getElem?_cons_succ]; exact hy)
        rwa [← Nat.add_assoc, Nat.add_right_comm] at hi
      rw [List.zipIdx_cons, List.map_cons, List.sum_cons]
      by_cases hn : n = k
      · have hzero := ih (n + 1) k 0 fun i y hy => by
          have hi := hrest i y hy
          rw [if_neg (by omega)] at hi
          exact Nat.le_trans hi (Nat.zero_le _)
        rw [if_pos (by omega)] at hfirst
        exact Nat.add_le_add hfirst hzero
      · have hm := ih (n + 1) k m hrest
        rw [if_neg (by omega)] at hfirst
        exact Nat.le_trans (Nat.add_le_add hfirst hm) (Nat.le_of_eq (Nat.zero_add m))

theorem children_le {s : Pools} {ls : List Client} {language : Language} (k m : Nat)
    (h : ∀ i p, s.built[i]? = some p → p.pool.launch.language = language →
      p.children s ls i ≤ if i = k then m else 0) : s.children ls language ≤ m := by
  refine sum_le_single (fun p i => if p.pool.launch.language = language then
    p.children s ls i else 0) s.built 0 k m fun i p hp => ?_
  simp only [Nat.zero_add]
  split
  · exact h i p hp ‹_›
  · exact Nat.zero_le _

/-- A pool that is nobody's has no children. -/
theorem Registered.children_eq_zero {s : Pools} {ls : List Client} {i : Nat} {p : Pooled}
    (h : Registered s ls) (hp : s.built[i]? = some p) (hno : s.isLive i p = false) :
    p.children s ls i = 0 := by
  have hidle := h.replaced i p hp hno
  have hheld : s.held i p = false := by
    rw [Pools.held, hno, hidle.1, hidle.2]
    rfl
  have hcount := h.handles i p hp
  rw [hidle.1] at hcount
  have hbusy : tally Run.busy (runs i ls) = 0 := by
    refine tally_eq_zero fun run hrun => ?_
    rcases List.mem_filterMap.mp hrun with ⟨l, hl, hrun⟩
    split at hrun
    · rename_i hi
      cases hrun
      refine h.freed l hl ?_
      by_contra harc
      have hholds : l.holds i = 1 := by
        rw [Client.holds, hi, (Bool.not_eq_false _).mp harc]
        rfl
      have hle := @Concurrent.le_tally _ (Client.holds i) l ls hl
      omega
    · cases hrun
  rw [Pooled.children, hheld, hbusy]
  rfl

theorem Registered.capped {s : Pools} {ls : List Client} (h : Registered s ls) : Capped s ls := by
  have hlive : ∀ language i q, s.built[i]? = some q → q.pool.launch.language = language →
      (∀ entry, s.live language = some entry → i ≠ entry.pool) → q.children s ls i = 0 := by
    intro language i q hq hlang hne
    refine h.children_eq_zero hq ?_
    rw [Pools.isLive, hlang]
    split
    · rename_i entry hentry
      exact beq_eq_false_iff_ne.mpr (Ne.symm (hne entry hentry))
    · rfl
  intro language
  split
  · rename_i hnone
    refine Nat.eq_zero_of_le_zero (children_le 0 0 fun i q hq hlang => ?_)
    rw [hlive language i q hq hlang fun entry hentry => by rw [hnone] at hentry; cases hentry]
    exact Nat.zero_le _
  · rename_i entry hentry
    rcases h.entries language entry hentry with ⟨p, hp, hlang⟩
    have hother : ∀ i q, s.built[i]? = some q → q.pool.launch.language = language →
        i ≠ entry.pool → q.children s ls i = 0 := by
      intro i q hq hlang' hne
      refine hlive language i q hq hlang' fun entry' hentry' => ?_
      rw [hentry] at hentry'
      cases hentry'
      exact hne
    refine ⟨p, hp, ?_, hother⟩
    refine children_le entry.pool _ fun i q hq hlang' => ?_
    split
    · rename_i hi
      rw [hi, hp] at hq
      cases hq
      have hbound := (h.bounded entry.pool p hp).slots.bound
      rw [hi, Pooled.children]
      split
      · exact hbound
      · exact Nat.le_trans (Nat.add_le_add_right (Nat.zero_le _) _) hbound
    · exact Nat.le_of_eq (hother i q hq hlang' ‹_›)

/-- **The cap across rebuilds.** If a pool is replaced only while no call and no
    reaper has a reference to it, then in every reachable state the children of a
    language, over all its pools, are at most the effective number of workers of its
    live pool, and no other pool has any. -/
theorem cap_kept (json : Json) (printable : Char → Bool) {g : Pools.State}
    (h : Transition.Reachable ((Pools.calls json printable).system (rebuildsIdle printable)
      fun s => s = Pools.new) g) : Capped g.shared g.locals := by
  refine ((registered_joint json printable).reachable ?_ h).2.capped
  rintro s rfl
  exact ⟨fun _ _ hno => (by cases hno), fun _ _ hno => (by cases hno), fun _ hno => (by cases hno),
    fun _ hno => (by cases hno), fun _ _ hno => (by cases hno), fun _ _ hno => by cases hno⟩

/-! ## Two launches -/

/-- The job of a host that pins a version. -/
def pinnedJob (version : String) : Job :=
  { launch := { smallPool.launch with binary := "python" ++ version }
    settings := smallPool.settings
    runtimeVersion := version
    input := { code := "1", cwd := none, timeout := none, lines := 1 } }

open Concurrent.Step PoolsChoice PoolChoice in
/-- A call that is dropped while it waits for a permit, and a second launch. -/
def replacedRun : List (Concurrent.Step Job PoolsChoice) :=
  [call (pinnedJob "3.11"), perform 0 (op pass), perform 0 (op pass), perform 0 (op (time 0)),
    drop 0, release 0, release 0, call (pinnedJob "3.12"), perform 1 (op pass)]

theorem replacedRun_allowed : (Pools.calls printableJson fun _ => true).allowed
    (rebuildsIdle fun _ => true) { shared := Pools.new, calls := [] } replacedRun := by
  refine And.intro trivial fun g hg => ?_
  cases hg
  refine And.intro (fun entry p hlive => by cases hlive) fun g hg => ?_
  cases hg
  refine And.intro trivial fun g hg => ?_
  cases hg
  refine And.intro trivial fun g hg => ?_
  cases hg
  refine And.intro trivial fun g hg => ?_
  cases hg
  refine And.intro trivial fun g hg => ?_
  cases hg
  refine And.intro trivial fun g hg => ?_
  cases hg
  refine And.intro trivial fun g hg => ?_
  cases hg
  refine And.intro (fun entry p hlive _ hp => ?_) fun g hg => trivial
  cases hlive
  cases hp
  exact ⟨rfl, rfl⟩

/-- The pool of a call that is gone is replaced. -/
theorem cap_kept_replaced : ∃ g : Pools.State,
    (g.shared.live (Language.new "python")).map Entry.pool = some 1 ∧
      Capped g.shared g.locals := by
  have hrun : (Transition.play (Pools.calls printableJson fun _ => true).move
      { shared := Pools.new, calls := [] } replacedRun).map
        (fun g => (g.shared.live (Language.new "python")).map Entry.pool) = some (some 1) := by rfl
  rcases Option.map_eq_some_iff.mp hrun with ⟨g, hg, hlive⟩
  exact ⟨g, hlive, cap_kept printableJson (fun _ => true)
    (Concurrent.reachable_allowed rfl hg replacedRun_allowed)⟩

/-- The registry's entry, and a run up to the point where it has a worker. -/
def workingRun (i : Nat) (version : String) : List (Concurrent.Step Job PoolsChoice) :=
  .call (pinnedJob version) :: .perform i (.op .pass) ::
    ((spawnRun 0).drop 1).map fun e =>
      match e with
      | .perform _ c => .perform i (.op c)
      | _ => .finish i

/-- Two hosts that pin different versions have two children under a cap of one. -/
theorem cap_exceeded : ¬ ∀ (json : Json) (printable : Char → Bool) (g : Pools.State),
    Transition.Reachable ((Pools.calls json printable).system .none fun s => s = Pools.new) g →
      Capped g.shared g.locals := by
  intro h
  have hrun : (Transition.play (Pools.calls printableJson fun _ => true).move
      { shared := Pools.new, calls := [] } (workingRun 0 "3.11" ++ workingRun 1 "3.12")).map
        (fun g => ((g.shared.live (Language.new "python")).map Entry.pool,
          g.shared.built.map (·.pool.settings.effectiveMaxWorkers),
          g.shared.children g.locals (Language.new "python"))) = some (some 1, [1, 1], 2) := by rfl
  rcases Option.map_eq_some_iff.mp hrun with ⟨g, hg, hfacts⟩
  simp only [Prod.mk.injEq] at hfacts
  rcases hfacts with ⟨hlive, hcaps, hchildren⟩
  rcases Option.map_eq_some_iff.mp hlive with ⟨entry, hentry, hpool⟩
  have hcapped := h printableJson (fun _ => true) g (Concurrent.reachable_play rfl hg)
    (Language.new "python")
  rw [hentry] at hcapped
  rcases hcapped with ⟨p, hp, hle, _⟩
  have hone : (g.shared.built.map (·.pool.settings.effectiveMaxWorkers))[entry.pool]? =
      some p.pool.settings.effectiveMaxWorkers := by
    rw [List.getElem?_map, hp]
    rfl
  rw [hcaps, hpool] at hone
  have heq : 1 = p.pool.settings.effectiveMaxWorkers := Option.some.inj hone
  omega

end TinyRuntime
