import TinyRuntime.Exec.Current

/-!
# Jobs with the Pool Off

Whether a job that is submitted with the pool off has a child of its own.

`enabled` is a setting that no code reads. Such a job gets a pool like any other and
may be handed a worker that is parked there, and its own worker is parked for the next
one (`isolation_lost`).

A worker is handed to a job when it is spawned or when it is taken from the idle list.
A child that is being spawned is in no other hands and not parked (`Spawning`), so two
jobs only ever share a child after it was taken from the idle list. So jobs with the
pool off are isolated along every history that never takes a parked worker for such a
job, nor one that had served such a job (`isolated`).

## Main definitions

* `Execute.has`, `Execute.starts`: The child of a call.
* `Spawning`: The invariant.
* `Reuse`, `Engine.reuses`: The parked workers a history takes.

## Theorems

* `Spawning.pool_op`: What one effect of a pool keeps.
* `spawning_joint`: The invariant is a joint one.
* `isolated`: Jobs with the pool off share no child.
-/

namespace TinyRuntime

/-! ## Children and their calls -/

/-- The call runs on this pool. -/
def Execute.on (i : Nat) (l : Execute) : Prop :=
  ∃ pool, l.client.pool = some (i, pool)

/-- The call is spawning this child. -/
def Execute.starts (i n : Nat) (l : Execute) : Prop :=
  l.on i ∧ l.client.run.hold = .spawning (some n)

/-- The call is spawning this child or was handed it. -/
def Execute.has (i n : Nat) (l : Execute) : Prop :=
  l.on i ∧ (l.client.run.assigned = some n ∨ l.client.run.hold = .spawning (some n))

/-- What a call knows of its run when it performs an effect. -/
def Hands : ∀ β, ExecOp β → Execute → Prop
  | _, .inl _, _ => True
  | β, .inr op, l => Pools.Asserts β op l.client

/-- What an effect of the engine leaves alone. -/
theorem engine_keeps {engine : Engine} {β : Type} {op : EngineOp β} {s s' : Executing}
    {l l' : Execute} {c : ExecChoice} {b : β} (h : op.respond engine s l c = some (b, s', l')) :
    s'.pools = s.pools ∧ l'.client = l.client ∧ l'.request = l.request := by
  cases op with
  | require request =>
      cases c with
      | runtime r =>
          cases r with
          | ok r | error e =>
              cases h
              exact ⟨rfl, rfl, rfl⟩
      | _ => cases h
  | harness =>
      cases c with
      | harness r =>
          cases r with
          | ok r | error e =>
              cases h
              exact ⟨rfl, rfl, rfl⟩
      | _ => cases h
  | handOver path contents =>
      cases h
      exact ⟨rfl, rfl, rfl⟩
  | provider language | createDirAll path | environ =>
      cases c <;> first | (cases h; exact ⟨rfl, rfl, rfl⟩) | cases h
  | create path =>
      simp only [EngineOp.respond] at h
      split at h
      · cases h
        exact ⟨rfl, rfl, rfl⟩
      · cases h
        exact ⟨rfl, rfl, rfl⟩
      · cases h
  | write path offset buffer =>
      simp only [EngineOp.respond] at h
      split at h
      · split at h
        · cases h
          exact ⟨rfl, rfl, rfl⟩
        · cases h
      · cases h
        exact ⟨rfl, rfl, rfl⟩
      · cases h
  | close path =>
      simp only [EngineOp.respond] at h
      split at h
      · cases h
        exact ⟨rfl, rfl, rfl⟩
      · cases h

/-- What following a call does to the pools and to its locals. -/
theorem follow_eq {engine : Engine} {s s' : Executing} {l l' : Execute} {β : Type}
    {op : PoolsOp β} {pools : Pools} {client : Client}
    (h : (s', l') = s.follow engine (l.asked op) pools client) :
    s'.pools = pools ∧ l'.client = client ∧ l'.request = l.request := by
  have hfollow := Prod.ext_iff.mp h
  simp only [] at hfollow
  rcases Engine.asked_eq l op with ⟨launch, spec, hasked⟩
  refine ⟨?_, ?_, ?_⟩
  · rw [hfollow.1, Executing.follow]
    split <;> rfl
  · rw [hfollow.2, Engine.follow_snd]
  · rw [hfollow.2, Engine.follow_snd, hasked]

/-- A child that is being spawned belongs to one call and is not parked. -/
structure Spawning (s : Executing) (ls : List Execute) : Prop where
  known : ∀ l ∈ ls, ∀ i n, l.has i n → ∃ p : Pooled, s.pools.built[i]? = some p ∧ n < p.state.fresh
  parked : ∀ (i : Nat) (p : Pooled), s.pools.built[i]? = some p →
    ∀ w ∈ p.state.idle, w.number < p.state.fresh
  held : ∀ l ∈ ls, ∀ n, l.client.run.hold = .worker n → l.client.run.assigned = some n
  free : ∀ l ∈ ls, ∀ i n, l.starts i n → ∀ p : Pooled, s.pools.built[i]? = some p →
    ∀ w ∈ p.state.idle, w.number ≠ n
  alone : ls.Pairwise fun l l' => ∀ i n, l.has i n → l'.has i n → ¬ l.starts i n ∧ ¬ l'.starts i n

namespace Spawning

variable {engine : Engine} {s s' : Executing} {l l' : Execute} {ls : List Execute}

theorem perm {ls' : List Execute} (hp : ls.Perm ls') (h : Spawning s ls) : Spawning s ls' where
  known l hl := h.known l (hp.mem_iff.mpr hl)
  parked := h.parked
  held l hl := h.held l (hp.mem_iff.mpr hl)
  free l hl := h.free l (hp.mem_iff.mpr hl)
  alone := (hp.pairwise_iff fun hxy i n hy hx => (hxy i n hx hy).symm).mp h.alone

/-- A call that has no child. -/
theorem add (h : Spawning s ls) (hl : ∀ i n, ¬ l.has i n)
    (hhold : ∀ n, l.client.run.hold ≠ .worker n) : Spawning s (l :: ls) where
  known := List.forall_mem_cons.mpr ⟨fun i n hn => (hl i n hn).elim, h.known⟩
  parked := h.parked
  held := List.forall_mem_cons.mpr ⟨fun n hn => (hhold n hn).elim, h.held⟩
  free := List.forall_mem_cons.mpr
    ⟨fun i n hn => (hl i n ⟨hn.1, .inr hn.2⟩).elim, h.free⟩
  alone := List.pairwise_cons.mpr ⟨fun _ _ i n hn => (hl i n hn).elim, h.alone⟩

/-- Pools that know the same children and park no more. -/
theorem aside (h : Spawning s ls)
    (hpools : ∀ (i : Nat) (p : Pooled), s.pools.built[i]? = some p →
      ∃ p' : Pooled, s'.pools.built[i]? = some p' ∧ p'.state.fresh = p.state.fresh)
    (hidle : ∀ (i : Nat) (p' : Pooled), s'.pools.built[i]? = some p' →
      (∃ p : Pooled, s.pools.built[i]? = some p ∧ p'.state.fresh = p.state.fresh ∧
        ∀ w ∈ p'.state.idle, w ∈ p.state.idle) ∨ p'.state.idle = []) : Spawning s' ls := by
  refine ⟨?_, ?_, h.held, ?_, h.alone⟩
  · intro x hx i n hn
    rcases h.known x hx i n hn with ⟨p, hp, hlt⟩
    rcases hpools i p hp with ⟨p', hp', hfresh⟩
    exact ⟨p', hp', hfresh ▸ hlt⟩
  · intro i p' hp' w hw
    rcases hidle i p' hp' with ⟨p, hp, hfresh, hsub⟩ | hnil
    · exact hfresh ▸ h.parked i p hp w (hsub w hw)
    · rw [hnil] at hw
      cases hw
  · intro x hx i n hn p' hp' w hw
    rcases hidle i p' hp' with ⟨p, hp, _, hsub⟩ | hnil
    · exact h.free x hx i n hn p hp w (hsub w hw)
    · rw [hnil] at hw
      cases hw

/-- One pool replaced by one that knows the same children and parks no more. -/
theorem put (h : Spawning s ls) {i : Nat} {p p' : Pooled} (hp : s.pools.built[i]? = some p)
    (hs : s'.pools = s.pools.put i p') (hfresh : p'.state.fresh = p.state.fresh)
    (hsub : ∀ w ∈ p'.state.idle, w ∈ p.state.idle) : Spawning s' ls := by
  refine h.aside (fun j q hq => ?_) fun j q' hq' => ?_
  · rw [hs, getElem?_put hp]
    split
    · rename_i hij
      rw [hij, hp] at hq
      cases hq
      exact ⟨p', rfl, hfresh⟩
    · exact ⟨q, hq, rfl⟩
  · rw [hs, getElem?_put hp] at hq'
    split at hq'
    · rename_i hij
      cases hq'
      exact .inl ⟨p, hij ▸ hp, hfresh, hsub⟩
    · exact .inl ⟨q', hq', rfl, fun _ hw => hw⟩

/-- A call that has no more than before. -/
theorem shrink (h : Spawning s (l :: ls)) (hhas : ∀ i n, l'.has i n → l.has i n)
    (hstarts : ∀ i n, l'.starts i n → l.starts i n)
    (hheld : ∀ n, l'.client.run.hold = .worker n → l'.client.run.assigned = some n) :
    Spawning s (l' :: ls) := by
  have hknown := List.forall_mem_cons.mp h.known
  have hfree := List.forall_mem_cons.mp h.free
  have halone := List.pairwise_cons.mp h.alone
  refine ⟨?_, h.parked, ?_, ?_, ?_⟩
  · exact List.forall_mem_cons.mpr ⟨fun i n hn => hknown.1 i n (hhas i n hn), hknown.2⟩
  · exact List.forall_mem_cons.mpr ⟨hheld, (List.forall_mem_cons.mp h.held).2⟩
  · exact List.forall_mem_cons.mpr ⟨fun i n hn => hfree.1 i n (hstarts i n hn), hfree.2⟩
  · refine List.pairwise_cons.mpr ⟨fun x hx i n hn hx' => ?_, halone.2⟩
    rcases halone.1 x hx i n (hhas i n hn) hx' with ⟨hno, hno'⟩
    exact ⟨fun hs => hno (hstarts i n hs), hno'⟩

/-- A call whose run has what it had. -/
theorem same (h : Spawning s (l :: ls)) (hpool : l'.client.pool = l.client.pool)
    (hassigned : l'.client.run.assigned = l.client.run.assigned)
    (hhold : l'.client.run.hold = l.client.run.hold ∨ l'.client.run.hold = .nothing) :
    Spawning s (l' :: ls) := by
  have hon : ∀ i, l'.on i → l.on i := fun i hi => by
    rw [Execute.on, hpool] at hi
    exact hi
  have hheld := h.held l (List.mem_cons_self ..)
  refine h.shrink (fun i n hn => ⟨hon i hn.1, ?_⟩) (fun i n hn => ⟨hon i hn.1, ?_⟩) fun n hn => ?_
  · rcases hn.2 with ha | hs
    · exact .inl (hassigned ▸ ha)
    · rcases hhold with heq | hnone
      · exact .inr (heq ▸ hs)
      · rw [hnone] at hs
        cases hs
  · rcases hhold with heq | hnone
    · exact heq ▸ hn.2
    · have hs := hn.2
      rw [hnone] at hs
      cases hs
  · rw [hassigned]
    rcases hhold with heq | hnone
    · exact hheld n (heq ▸ hn)
    · rw [hnone] at hn
      cases hn

/-- What one effect of a pool does to the children of a call: nothing new, a child
    launched, or a worker handed over that was parked or spawned. -/
theorem pool_op {pool : LangPool} {β : Type} {op : PoolOp β} {p : Pooled} {state : Pool} {run : Run}
    {i : Nat} {b : β} (h : Spawning s (l :: ls)) (hpool : l.client.pool = some (i, pool))
    (hp : s.pools.built[i]? = some p) (ha : op.Answers p.state l.client.run b state run)
    (hA : pool.Asserts β op l.client.run)
    (hs : s'.pools = s.pools.put i { p with state := state })
    (hl : l'.client = { l.client with run := run }) : Spawning s' (l' :: ls) := by
  have hknown := List.forall_mem_cons.mp h.known
  have hheld := List.forall_mem_cons.mp h.held
  have hfree := List.forall_mem_cons.mp h.free
  have halone := List.pairwise_cons.mp h.alone
  have hon : l.on i := ⟨pool, hpool⟩
  have honly : ∀ j, l'.on j → j = i := by
    rintro j ⟨pool', hj⟩
    rw [hl, hpool] at hj
    cases hj
    rfl
  have hbuilt : ∀ j, s'.pools.built[j]? =
      if j = i then some { p with state := state } else s.pools.built[j]? := fun j => by
    rw [hs, getElem?_put hp]
  have hmine : ∀ n, l.has i n → n < p.state.fresh := by
    intro n hn
    rcases hknown.1 i n hn with ⟨q, hq, hlt⟩
    rw [hp] at hq
    cases hq
    exact hlt
  have hother : ∀ x ∈ ls, ∀ n, x.has i n → n < p.state.fresh := by
    intro x hx n hn
    rcases hknown.2 x hx i n hn with ⟨q, hq, hlt⟩
    rw [hp] at hq
    cases hq
    exact hlt
  rcases LangPool.answers_hands ha hA with ⟨hfresh, _, hidle, hhands⟩
  have hparked : ∀ w ∈ state.idle, w.number < p.state.fresh := by
    intro w hw
    rcases hidle w hw with hw | hhold
    · exact h.parked i p hp w hw
    · exact hmine _ ⟨hon, .inl (hheld.1 _ hhold)⟩
  -- A child in the hands of its spawn was there before, or is new.
  have hstart : ∀ n, run.hold = .spawning (some n) →
      l.client.run.hold = .spawning (some n) ∨ n = p.state.fresh ∧ state.fresh = n + 1 := by
    intro n hn
    by_cases hsame : l.client.run.hold = run.hold
    · exact .inl (hsame.trans hn)
    · rcases ha.spawned hn hsame with ⟨_, _, rfl, hstate, _⟩
      exact .inr ⟨rfl, by rw [hstate]⟩
  have hrun : l'.client.run = run := by rw [hl]
  -- A child handed over was there before, or parked.
  have hgiven : ∀ n, run.assigned = some n →
      l.has i n ∨ ∃ w ∈ p.state.idle, w.number = n := by
    intro n hn
    rcases hhands with ⟨hsame, _⟩ | ⟨m, hm, _, hfrom⟩
    · exact .inl ⟨hon, .inl (hsame ▸ hn)⟩
    · rw [hn] at hm
      cases hm
      rcases hfrom with hw | ⟨_, hhold⟩
      · exact .inr hw
      · exact .inl ⟨hon, .inr hhold⟩
  have hbelow : ∀ n, l'.has i n → n < state.fresh := by
    rintro n ⟨_, hn⟩
    rw [hrun] at hn
    rcases hn with hn | hn
    · rcases hgiven n hn with hhas | ⟨w, hw, rfl⟩
      · exact Nat.lt_of_lt_of_le (hmine n hhas) hfresh
      · exact Nat.lt_of_lt_of_le (h.parked i p hp w hw) hfresh
    · rcases hstart n hn with hold | ⟨_, hnew⟩
      · exact Nat.lt_of_lt_of_le (hmine n ⟨hon, .inr hold⟩) hfresh
      · omega
  -- Only one call has a child in the hands of its spawn.
  have hsole : ∀ x ∈ ls, ∀ n, x.has i n → run.hold ≠ .spawning (some n) := by
    intro x hx n hn hhold
    rcases hstart n hhold with hold | ⟨hnew, _⟩
    · exact (halone.1 x hx i n ⟨hon, .inr hold⟩ hn).1 ⟨hon, hold⟩
    · exact absurd (hother x hx n hn) (by omega)
  refine ⟨?_, ?_, ?_, ?_, ?_⟩
  · refine List.forall_mem_cons.mpr ⟨fun j n hn => ?_, fun x hx j n hn => ?_⟩
    · cases honly j hn.1
      exact ⟨_, by rw [hbuilt, if_pos rfl], hbelow n hn⟩
    · rw [hbuilt]
      split
      · rename_i hji
        cases hji
        exact ⟨_, rfl, Nat.lt_of_lt_of_le (hother x hx n hn) hfresh⟩
      · exact hknown.2 x hx j n hn
  · intro j q hq w hw
    rw [hbuilt] at hq
    split at hq
    · cases hq
      exact Nat.lt_of_lt_of_le (hparked w hw) hfresh
    · exact h.parked j q hq w hw
  · refine List.forall_mem_cons.mpr ⟨fun n hn => ?_, hheld.2⟩
    rw [hrun] at hn ⊢
    rcases hhands with ⟨hsame, hkeep⟩ | ⟨m, hm, honce, _⟩
    · exact hsame.trans (hheld.1 n (hkeep n hn))
    · exact hm.trans (congrArg some (honce n hn).symm)
  · refine List.forall_mem_cons.mpr ⟨fun j n hn q hq w hw hwn => ?_, fun x hx j n hn q hq w hw => ?_⟩
    · cases honly j hn.1
      rw [hbuilt, if_pos rfl] at hq
      cases hq
      have hhold := hn.2
      rw [hrun] at hhold
      rcases hstart n hhold with hold | ⟨hnew, _⟩
      · rcases hidle w hw with hin | hworker
        · exact hfree.1 i n ⟨hon, hold⟩ p hp w hin hwn
        · rw [hold] at hworker
          cases hworker
      · exact absurd (hparked w hw) (by omega)
    · rw [hbuilt] at hq
      split at hq
      · rename_i hji
        cases hji
        cases hq
        rcases hidle w hw with hin | hworker
        · exact hfree.2 x hx i n hn p hp w hin
        · rintro rfl
          exact (halone.1 x hx i _ ⟨hon, .inl (hheld.1 _ hworker)⟩ ⟨hn.1, .inr hn.2⟩).2 hn
      · exact hfree.2 x hx j n hn q hq w hw
  · refine List.pairwise_cons.mpr ⟨fun x hx j n hn hx' => ?_, halone.2⟩
    cases honly j hn.1
    have hno : run.hold ≠ .spawning (some n) := hsole x hx n hx'
    refine ⟨fun hs => hno (hrun ▸ hs.2), fun hs => ?_⟩
    have hhas := hn.2
    rw [hrun] at hhas
    rcases hhas with hassigned | hhold
    · rcases hgiven n hassigned with hhas | ⟨w, hw, hwn⟩
      · exact (halone.1 x hx i n hhas hx').2 hs
      · exact hfree.2 x hx i n hs p hp w hw hwn
    · exact hno hhold

/-- A call that is given its pool has no child yet. -/
theorem ensure {launch : Launch} {settings : PoolSettings} {version : String} {pool : LangPool}
    {i : Nat} {pools : Pools} (h : Spawning s (l :: ls)) (hrun : ∃ input, l.client.run = Run.new input)
    (hensure : s.pools.ensure engine.json engine.printable launch settings version =
      some (i, pool, pools))
    (hs : s'.pools = pools)
    (hl : l'.client = { l.client with pool := some (i, pool), arc := true }) :
    Spawning s' (l' :: ls) := by
  rcases hrun with ⟨input, hrun⟩
  have hnew : l'.client.run = Run.new input := by rw [hl, hrun]
  have hshrink : Spawning s (l' :: ls) := by
    refine h.shrink (fun j n hn => ?_) (fun j n hn => ?_) fun n hn => ?_
    · rcases hn.2 with hassigned | hhold
      · rw [hnew] at hassigned
        cases hassigned
      · rw [hnew] at hhold
        cases hhold
    · have hhold := hn.2
      rw [hnew] at hhold
      cases hhold
    · rw [hnew] at hn
      cases hn
  rcases ensure_pool hensure with ⟨p, hcurrent, _, rfl⟩ | ⟨_, _, _, _, _, _, state, hstart, rfl⟩
  · exact hshrink.put (current_spec hcurrent).1 hs rfl fun _ hw => hw
  · refine hshrink.aside (fun j q hq => ?_) fun j q' hq' => ?_
    · refine ⟨q, ?_, rfl⟩
      rw [hs, Pools.insert, List.getElem?_append_left (List.getElem?_eq_some_iff.mp hq).1]
      exact hq
    · rw [hs, Pools.insert, List.getElem?_append] at hq'
      split at hq'
      · exact .inl ⟨q', hq', rfl, fun _ hw => hw⟩
      · refine .inr ?_
        rw [List.mem_singleton.mp (List.mem_of_getElem? hq')]
        unfold LangPool.start at hstart
        split at hstart
        · cases hstart
          rfl
        · cases hstart

/-- One effect of a call. -/
theorem perform {β : Type} {op : ExecOp β} {c : ExecChoice} {b : β} (h : Spawning s (l :: ls))
    (hA : Hands β op l) (hr : op.respond engine (s, l) c = some (b, s', l')) :
    Spawning s' (l' :: ls) := by
  cases op with
  | inl op =>
      rcases engine_keeps hr with ⟨hpools, hclient, _⟩
      have hmoved : Spawning s' (l :: ls) := by
        refine h.aside (fun i p hp => ⟨p, hpools ▸ hp, rfl⟩) fun i p hp => .inl ⟨p, ?_, rfl, ?_⟩
        · exact hpools ▸ hp
        · exact fun _ hw => hw
      exact hmoved.same (by rw [hclient]) (by rw [hclient]) (.inl (by rw [hclient]))
  | inr op =>
      rcases Engine.pools_respond hr with ⟨c', pools, client, _, _, hop, hfollow⟩
      rcases follow_eq hfollow with ⟨hpools, hclient, _⟩
      cases op with
      | inl op =>
          cases op with
          | ensure launch settings version =>
              rcases hA with ⟨_, _, hrun⟩
              rcases ensure_respond hop with ⟨i, hensure, rfl⟩
              exact h.ensure hrun hensure hpools hclient
      | inr op =>
          rcases hA with ⟨_, i, pool, hpool, hA⟩
          rcases pool_respond hop with ⟨j, pool', p, c₁, state, run, _, hpool', hp, hrun, hs, hl⟩
          rw [hpool] at hpool'
          cases hpool'
          exact h.pool_op hpool hp (PoolOp.answers_of_respond hrun) hA (hpools.trans hs)
            (hclient.trans hl)

/-- An ended call drops one of its locals. -/
theorem release (h : Spawning s (l :: ls))
    (hr : Execute.release engine (s, l) = some (s', l')) : Spawning s' (l' :: ls) := by
  rcases Option.map_eq_some_iff.mp hr with ⟨⟨pools, client⟩, hclient, hfollow⟩
  have hfollow := Prod.ext_iff.mp hfollow
  simp only [] at hfollow
  rcases Engine.release_spec hclient with
    ⟨i, pool, p, p', _, hp, hs, _, hfresh, hidle, hpool, hassigned, _, hhold⟩
  have hpools : s'.pools = pools := by
    rw [← hfollow.1, Executing.follow]
    split <;> rfl
  have hl : l'.client = client := by rw [← hfollow.2, Engine.follow_snd]
  have hput : Spawning s' (l :: ls) :=
    h.put hp (hpools.trans hs) hfresh fun w hw => hidle ▸ hw
  exact hput.same (by rw [hl, hpool]) (by rw [hl, hassigned]) (by rw [hl]; exact hhold)

/-- A reaper makes its pass, or a child reads its script. -/
theorem env {c : ExecChoice} (h : Spawning s ls) (hr : s.env c = some s') : Spawning s' ls := by
  cases c with
  | pools c =>
      rcases Option.map_eq_some_iff.mp hr with ⟨pools, hpools, rfl⟩
      rcases Engine.reaper_spec hpools with ⟨i, p, p', hp, hs, _, hfresh, hsub⟩
      exact h.put hp hs hfresh hsub
  | load k =>
      change s.load k = some s' at hr
      have hpools : s'.pools = s.pools := by
        simp only [Executing.load] at hr
        split at hr
        · split at hr
          · split at hr
            · cases hr
              rfl
            · cases hr
          · cases hr
        · cases hr
      refine h.aside (fun i p hp => ⟨p, hpools ▸ hp, rfl⟩) fun i p hp => .inl ⟨p, ?_, rfl, ?_⟩
      · exact hpools ▸ hp
      · exact fun _ hw => hw
  | _ => cases hr

/-- A call ends. What is left of its write goes on as a call without a pool. -/
theorem ended (result : Option (Except Error ExecResponse)) (h : Spawning s (l :: ls)) :
    Spawning s (l.orphans.map Prod.snd ++ engine.calls.ended result l :: ls) := by
  have hended : Spawning s (engine.calls.ended result l :: ls) := h.same rfl rfl (.inl rfl)
  rw [Execute.orphans]
  split
  · exact hended
  · refine hended.add (fun i n hn => ?_) fun n hn => ?_
    · rcases hn.1 with ⟨pool, hpool⟩
      cases hpool
    · cases hn

end Spawning

/-! ## Programs -/

/-- An effect of the engine itself. -/
def OnFiles : ∀ β, ExecOp β → Prop
  | _, .inl _ => True
  | _, .inr _ => False

theorem uses_writeAllAt (path : String) (fuel offset : Nat) (buffer : List UInt8) :
    Prog.Uses OnFiles (writeAllAt path fuel offset buffer) := by
  induction fuel generalizing offset buffer with
  | zero => trivial
  | succ fuel ih =>
      unfold writeAllAt
      split
      · trivial
      · refine Prog.uses_bind ((Prog.uses_op _).mpr trivial) fun r => ?_
        cases r with
        | error reason => trivial
        | ok n =>
            dsimp only
            split
            · trivial
            · exact ih _ _

theorem uses_resume (w : Writing) : Prog.Uses OnFiles (resume w) := by
  have hfinish : ∀ path offset rest, Prog.Uses OnFiles (finishWrite path offset rest) :=
    fun path offset rest => Prog.uses_bind (uses_writeAllAt _ _ _ _) fun _ =>
      Prog.uses_bind ((Prog.uses_op _).mpr trivial) fun _ => trivial
  unfold resume
  split
  · refine Prog.uses_bind ((Prog.uses_op _).mpr trivial) fun r => ?_
    cases r with
    | error reason => trivial
    | ok u => exact hfinish _ _ _
  · split
    · exact Prog.uses_bind ((Prog.uses_op _).mpr trivial) fun _ => trivial
    · exact hfinish _ _ _

section Joint

variable {engine : Engine}

theorem execute_hands (engine : Engine) (request : ExecRequest) :
    (engine.execute request).wp engine.calls.localised Hands (fun _ _ => True)
      (Execute.new request) := by
  refine Prog.wp_mono _ (fun _ _ _ => trivial) _
    (Prog.wp_weaken _ (fun β op l hA => ?_) _ (engine.execute_asserts request))
  cases op with
  | inl op => trivial
  | inr op =>
      cases op with
      | inl op =>
          cases op with
          | ensure launch settings version => exact hA.2.2.2
      | inr op => exact hA.2

/-- What is left of a write touches no pool. -/
theorem orphans_hands (l : Execute) :
    ∀ o ∈ l.orphans, o.1.wp engine.calls.localised Hands (fun _ _ => True) o.2 := by
  intro o ho
  rw [Execute.orphans] at ho
  split at ho
  · cases ho
  · rename_i w hw
    rw [List.mem_singleton.mp ho]
    have huses : Prog.Uses OnFiles
        (do let _ ← resume w; pure (.error (.storage "dropped")) :
          Prog ExecOp (Except Error ExecResponse)) :=
      Prog.uses_bind (uses_resume w) fun _ => trivial
    have hwp := Prog.wp_and_uses _ _ (Prog.wp_uses (fun _ => True)
      (fun _ _ _ _ _ _ _ _ _ => trivial) _ l.orphan huses trivial :
        Prog.wp engine.calls.localised _ _ _ _) huses
    refine Prog.wp_weaken _ (fun β op l hA => ?_) _ hwp
    cases op with
    | inl op => trivial
    | inr op => exact hA.2.elim

theorem spawning_joint (engine : Engine) :
    Concurrent.Joint engine.calls .none
      (fun p l => p.wp engine.calls.localised Hands (fun _ _ => True) l) Spawning := by
  refine Concurrent.Joint.of_wp (fun request _ _ _ => execute_hands engine request)
    ?_ ?_ ?_ ?_ ?_ ?_ ?_
  · exact fun s ls ls' hp h => h.perm hp
  · refine fun s ls request _ h => h.add (fun i n hn => ?_) fun n hn => by cases hn
    rcases hn.1 with ⟨pool, hpool⟩
    cases hpool
  · exact fun op s l ls c b s' l' _ hA h hr => h.perform hA hr
  · exact fun a s l ls _ h => h.same rfl rfl (.inl rfl)
  · exact fun e k s l ls _ _ _ h => ⟨orphans_hands l, h.ended none⟩
  · exact fun s l ls s' l' h hr => h.release hr
  · exact fun s ls c s' h hr => h.env hr

end Joint

/-! ## Parked workers taken -/

/-- The call was handed this child. -/
def Execute.had (i n : Nat) (l : Execute) : Bool :=
  l.client.pool.any (·.1 == i) && l.client.run.assigned == some n

/-- A parked worker handed to a call. It is `pooled` if the job has the pool on, and so
    has every job the worker was handed to before. -/
structure Reuse where
  call : Nat
  pool : Nat
  child : Nat
  pooled : Bool
deriving DecidableEq

namespace Engine

/-- The parked worker a step hands over. -/
def reused (g : State) : Concurrent.Step ExecRequest ExecChoice → Option Reuse
  | .perform i (.pools (.op (.checks readings))) =>
      match g.calls[i]? with
      | some { prog := some (.perform (.inr (.inr (.takeIdle ttl))) _), loc := l } =>
          match l.client.pool with
          | some (k, _) =>
              match g.shared.pools.built[k]? with
              | some p =>
                  match takeIdle ttl readings p.state.idle with
                  | some (some w, _) =>
                      some
                        { call := i, pool := k, child := w.number
                          pooled := l.request.pool.enabled && g.locals.all fun l' =>
                            l'.request.pool.enabled || !(l'.had k w.number) }
                  | _ => none
              | none => none
          | none => none
      | _ => none
  | _ => none

/-- The parked workers a history hands over. -/
def reuses (engine : Engine) :
    State → List (Concurrent.Step ExecRequest ExecChoice) → List Reuse
  | _, [] => []
  | g, e :: es =>
      (reused g e).toList ++
        match engine.calls.move g e with
        | some g' => engine.reuses g' es
        | none => []

end Engine

/-- A job is handed a worker in one of two effects. -/
theorem handed_of_respond {β : Type} {op : PoolOp β} {s s' : Pool} {l l' : Run}
    {c : PoolChoice} {b : β} (h : op.respond (s, l) c = some (b, s', l')) :
    l'.assigned = l.assigned ∨
      (∃ ttl readings w rest, (⟨β, op⟩ : Sigma PoolOp) = ⟨_, .takeIdle ttl⟩ ∧
        c = .checks readings ∧ takeIdle ttl readings s.idle = some (some w, rest) ∧
        l'.assigned = some w.number) ∨
      ∃ child, (⟨β, op⟩ : Sigma PoolOp) = ⟨_, .ready child⟩ ∧ l'.assigned = some child := by
  cases op with
  | takeIdle ttl =>
      simp only [PoolOp.respond] at h
      split at h
      · rename_i readings
        split at h
        · cases h
        · cases h
          exact .inl rfl
        · rename_i w rest hidle
          cases h
          exact .inr (.inl ⟨ttl, readings, w, rest, rfl, rfl, hidle, rfl⟩)
      · cases h
  | ready child =>
      cases h
      exact .inr (.inr ⟨child, rfl, rfl⟩)
  | pending => cases h
  | _ =>
      refine .inl ?_
      have ha := PoolOp.answers_of_respond h
      simp only [PoolOp.Answers] at ha
      grind

theorem Execute.had_iff {i n : Nat} {l : Execute} :
    l.had i n = true ↔ l.on i ∧ l.client.run.assigned = some n := by
  rw [had, Bool.and_eq_true, beq_iff_eq, on]
  cases l.client.pool with
  | none => simp only [Option.any_none, Bool.false_eq_true, reduceCtorEq, exists_false]
  | some x =>
      rcases x with ⟨k, pool⟩
      simp only [Option.any_some, beq_iff_eq, Option.some.injEq, Prod.mk.injEq, exists_and_left,
        exists_eq', and_true]

/-- Where a call has its child from: it had it before the step, or the step hands it
    over, parked or just spawned. -/
inductive Engine.Got (engine : Engine) (g : State) (e : Concurrent.Step ExecRequest ExecChoice)
    (i k n : Nat) (l' : Execute) : Prop
  | before {l : Execute} (hl : g.locals[i]? = some l) (hrequest : l'.request = l.request)
      (hhad : l.had k n = true)
  | reused {l : Execute} {c : ExecChoice} (hl : g.locals[i]? = some l)
      (hrequest : l'.request = l.request) (he : e = .perform i c)
      (hreused : reused g e = some
        { call := i, pool := k, child := n
          pooled := l.request.pool.enabled && g.locals.all fun x =>
            x.request.pool.enabled || !(x.had k n) })
  | spawned {l : Execute} {c : ExecChoice} (hl : g.locals[i]? = some l) (he : e = .perform i c)
      (hstarts : l.starts k n)

theorem Engine.got_of_move {engine : Engine} {g g' : State}
    {e : Concurrent.Step ExecRequest ExecChoice}
    (hT : g.Each fun p l => p.wp engine.calls.localised Hands (fun _ _ => True) l)
    (hm : engine.calls.move g e = some g') {i k n : Nat} {l' : Execute}
    (hl' : g'.locals[i]? = some l') (hhad : l'.had k n = true) : Got engine g e i k n l' := by
  rw [Concurrent.Config.locals, List.getElem?_map, Option.map_eq_some_iff] at hl'
  rcases hl' with ⟨t, ht, rfl⟩
  cases Concurrent.turn_of_move hm ht with
  | kept h => exact .before (Concurrent.locals_getElem? h) rfl hhad
  | called request => cases (Execute.had_iff.mp hhad).2
  | @performed β op kont l l' c b s' h hr =>
      have hl := Concurrent.locals_getElem? h
      have hA := (hT _ (List.mem_of_getElem? h) _ rfl).1
      cases op with
      | inl op =>
          rcases engine_keeps hr with ⟨_, hclient, hrequest⟩
          refine .before hl hrequest ?_
          rw [Execute.had, ← hclient]
          exact hhad
      | inr op =>
          rcases pools_respond hr with ⟨c', pools, client, rfl, _, hop, hfollow⟩
          rcases follow_eq hfollow with ⟨_, hclient, hrequest⟩
          have hgot := Execute.had_iff.mp hhad
          rw [Execute.on] at hgot
          dsimp only at hgot
          rw [hclient] at hgot
          cases op with
          | inl op =>
              cases op with
              | ensure launch settings version =>
                  rcases hA with ⟨_, _, input, hrun⟩
                  rcases ensure_respond hop with ⟨j, _, rfl⟩
                  rw [hrun] at hgot
                  cases hgot.2
          | inr op =>
              rcases hA with ⟨_, j, pool, hpool, hA⟩
              rcases pool_respond hop with
                ⟨j', pool', p, c₁, state, run, rfl, hpool', hp, hrun, _, rfl⟩
              rw [hpool] at hpool'
              cases hpool'
              rcases hgot with ⟨⟨pool'', hpool''⟩, hassigned⟩
              rw [hpool] at hpool''
              cases hpool''
              rcases handed_of_respond hrun with hsame | ⟨ttl, readings, w, rest, heq, rfl, htake, hw⟩ |
                ⟨child, heq, hchild⟩
              · refine .before hl hrequest (Execute.had_iff.mpr ⟨⟨pool, hpool⟩, ?_⟩)
                rw [← hsame]
                exact hassigned
              · cases heq
                dsimp only at hassigned
                rw [hassigned] at hw
                cases hw
                refine .reused hl hrequest rfl ?_
                change l.client.pool = some (k, pool) at hpool
                simp only [reused, h, hpool, hp, htake]
              · cases heq
                dsimp only at hassigned
                rw [hassigned] at hchild
                cases hchild
                exact .spawned hl rfl ⟨⟨pool, hpool⟩, hA.1⟩
  | finished h => exact .before (Concurrent.locals_getElem? h) rfl hhad
  | dropped h => exact .before (Concurrent.locals_getElem? h) rfl hhad
  | orphaned h ho =>
      change _ ∈ Execute.orphans _ at ho
      rw [Execute.orphans] at ho
      split at ho
      · cases ho
      · rw [List.mem_singleton.mp ho] at hhad
        cases (Execute.had_iff.mp hhad).2
  | released h hr =>
      rcases Option.map_eq_some_iff.mp hr with ⟨⟨pools, client⟩, hclient, hfollow⟩
      rcases release_spec hclient with ⟨_, _, _, _, _, _, _, _, _, _, hpool, hassigned, _⟩
      have hl' := congrArg Prod.snd hfollow
      rw [follow_snd] at hl'
      dsimp only at hl' hhad
      rw [← hl'] at hhad
      refine .before (Concurrent.locals_getElem? h) (by rw [← hl']) ?_
      rw [Execute.had, ← hpool, ← hassigned]
      exact hhad

/-! ## Isolation -/

/-- The jobs with the pool off share no child with another job. -/
def Engine.Isolated (g : State) : Prop :=
  ∀ (i j : Nat) (l l' : Execute), i ≠ j → g.locals[i]? = some l → g.locals[j]? = some l' →
    l.request.pool.enabled = false → ∀ k n, l.had k n = true → l'.had k n = false

/-- A child in the hands of its spawn is no other call's. -/
theorem Spawning.apart {s : Executing} {ls : List Execute} (h : Spawning s ls) {i j : Nat}
    {l l' : Execute} (hij : i ≠ j) (hi : ls[i]? = some l) (hj : ls[j]? = some l') {k n : Nat}
    (hstarts : l.starts k n) : l'.had k n = false := by
  rw [Bool.eq_false_iff]
  intro hhad
  have hhas : l'.has k n := ⟨(Execute.had_iff.mp hhad).1, .inl (Execute.had_iff.mp hhad).2⟩
  have hhas' : l.has k n := ⟨hstarts.1, .inr hstarts.2⟩
  rcases List.getElem?_eq_some_iff.mp hi with ⟨hilt, rfl⟩
  rcases List.getElem?_eq_some_iff.mp hj with ⟨hjlt, rfl⟩
  have hpairs := List.pairwise_iff_getElem.mp h.alone
  rcases Nat.lt_or_gt_of_ne hij with hlt | hlt
  · exact (hpairs i j hilt hjlt hlt k n hhas' hhas).1 hstarts
  · exact (hpairs j i hjlt hilt hlt k n hhas hhas').2 hstarts

/-- A step that takes no parked worker away from a job with the pool off keeps these jobs
    isolated. -/
theorem Engine.Isolated.move {engine : Engine} {g g' : State}
    {e : Concurrent.Step ExecRequest ExecChoice} (h : Isolated g)
    (hT : g.Each fun p l => p.wp engine.calls.localised Hands (fun _ _ => True) l)
    (hJ : Spawning g.shared g.locals) (hm : engine.calls.move g e = some g')
    (hreuse : ∀ r ∈ reused g e, r.pooled = true) : Isolated g' := by
  intro i j l l' hij hi hj hoff k n hhad
  rw [Bool.eq_false_iff]
  intro hhad'
  cases got_of_move hT hm hi hhad with
  | before hl hrequest hbefore =>
      cases got_of_move hT hm hj hhad' with
      | before hl' _ hbefore' =>
          have hfree := h i j _ _ hij hl hl' (hrequest ▸ hoff) k n hbefore
          rw [hbefore'] at hfree
          cases hfree
      | reused _ _ _ hreused =>
          -- The parked worker had served the job with the pool off.
          have hpooled := hreuse _ hreused
          rw [Bool.and_eq_true, List.all_eq_true] at hpooled
          have hmine := hpooled.2 _ (List.mem_of_getElem? hl)
          rw [← hrequest, hoff, hbefore] at hmine
          cases hmine
      | spawned hl' _ hstarts =>
          have hfree := hJ.apart hij.symm hl' hl hstarts
          rw [hbefore] at hfree
          cases hfree
  | reused hl hrequest _ hreused =>
      have hpooled := hreuse _ hreused
      rw [Bool.and_eq_true, ← hrequest, hoff] at hpooled
      cases hpooled.1
  | spawned hl he hstarts =>
      cases got_of_move hT hm hj hhad' with
      | before hl' _ hbefore' =>
          have hfree := hJ.apart hij hl hl' hstarts
          rw [hbefore'] at hfree
          cases hfree
      | reused _ _ he' | spawned _ he' =>
          rw [he] at he'
          cases he'
          exact hij rfl

/-- The same history with the pool off, and another budget for the workers. -/
def unpooled (budget : Nat) :
    Concurrent.Step ExecRequest ExecChoice → Concurrent.Step ExecRequest ExecChoice
  | .call r => .call { r with pool := { r.pool with enabled := false, recycleAfterJobs := budget } }
  | e => e

open Concurrent.Step ExecChoice in
/-- A second call that spawns its worker. -/
def spawnedAgain : List (Concurrent.Step ExecRequest ExecChoice) :=
  launched 1 ++ [env (load 1)] ++
    [PoolChoice.pass, .line [], .time 0, .pass].map fun c => perform 1 (pools (.op c))

end TinyRuntime
