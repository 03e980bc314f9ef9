import TinyRuntime.Lib.Decimal
import TinyRuntime.Pool.Bound
import Mathlib.Data.List.Nodup

/-!
# Replies

Replies are never crossed between the jobs of a pool, whatever the workers print.

Two things are put together. A run returns only what it built from the reply to
its own request, read from the worker its request went to: `run_built` says so
of one run. And requests of one pool have different ids, because the numbers
drawn are those below the counter, each once (`Numbered`). So a line left over
from one job is no reply to another; and there is none to come, because a worker
that owes an answer never changes hands (`Owned`).

The id is the counter as a decimal, and the counter has 64 bits. Two runs have
one id only if 2⁶⁴ numbers were drawn in between.

## Main definitions

* `Numbered`: The numbers drawn.
* `Traced`: What a run has returned was built from its reply.

## Theorems

* `run_unended`: A run has no result while it goes on.
* `Numbered.step`: What one effect keeps.
* `ids_nodup`: No two requests have one id.
* `replies_not_crossed`: The three parts in every reachable state.
-/

namespace TinyRuntime

open Concurrent (tally add_le_tally)

/-! ## Request ids -/

/-- The numbers drawn are the ones below the counter, each once. -/
def Numbered (s : Pool) (ls : List Run) : Prop :=
  (ls.filterMap Run.job).Perm (List.range s.nextJob)

namespace Numbered

variable {s s' : Pool} {l l' : Run} {ls : List Run}

/-- Whatever draws no number. -/
theorem frame (h : Numbered s (l :: ls)) (hs : s'.nextJob = s.nextJob) (hl : l'.job = l.job) :
    Numbered s' (l' :: ls) := by
  unfold Numbered at h ⊢
  rw [hs, List.filterMap_cons, hl, ← List.filterMap_cons]
  exact h

/-- A run draws its number. -/
theorem draw (h : Numbered s (l :: ls)) (hl : l.job = none) :
    Numbered { s with nextJob := s.nextJob + 1 } ({ l with job := some s.nextJob } :: ls) := by
  unfold Numbered at h ⊢
  rw [List.filterMap_cons_none hl] at h
  have hcons : (({ l with job := some s.nextJob } : Run) :: ls).filterMap Run.job =
      s.nextJob :: ls.filterMap Run.job := List.filterMap_cons_some rfl
  rw [hcons, List.range_succ]
  exact (h.cons _).trans (List.perm_append_singleton _ _).symm

theorem step {pool : LangPool} {β : Type} {op : PoolOp β} {b : β} (h : Numbered s (l :: ls))
    (hA : pool.Asserts _ op l) (ha : op.Answers s l b s' l') : Numbered s' (l' :: ls) := by
  cases op with
  | nextJob =>
      rcases ha with ⟨_, rfl, rfl⟩
      exact h.draw hA.1
  | pending => exact ha.elim
  | _ =>
      simp only [PoolOp.Answers] at ha
      exact h.frame (by grind [Pool.Alike]) (by grind)

end Numbered

/-- Fewer than 2⁶⁴ runs have drawn different ids. -/
theorem ids_nodup {s : Pool} {ls : List Run} (h : Numbered s ls) (hlt : ls.length < 2 ^ 64) :
    ((ls.filterMap Run.request).map JobRequest.id).Nodup := by
  have hcount : s.nextJob ≤ ls.length := by
    calc s.nextJob = (List.range s.nextJob).length := List.length_range.symm
      _ = (ls.filterMap Run.job).length := h.length_eq.symm
      _ ≤ ls.length := List.length_filterMap_le _ _
  have hids : (ls.filterMap Run.request).map JobRequest.id =
      (ls.filterMap Run.job).map fun n => toString (n % 2 ^ 64) := by
    rw [List.map_filterMap, List.map_filterMap]
    refine congrArg (ls.filterMap ·) (funext fun l => ?_)
    rw [Run.request, Option.map_map]
    rfl
  rw [hids]
  refine List.Nodup.map_on ?_ (h.nodup_iff.mpr List.nodup_range)
  intro m hm n hn heq
  have hmlt : m < s.nextJob := List.mem_range.mp (h.mem_iff.mp hm)
  have hnlt : n < s.nextJob := List.mem_range.mp (h.mem_iff.mp hn)
  have hmod := Decimal.toString_injective heq
  rwa [Nat.mod_eq_of_lt (by omega), Nat.mod_eq_of_lt (by omega)] at hmod

/-! ## Results -/

/-- What a run has returned was built from its reply. -/
def Traced (pool : LangPool) (l : Run) : Prop :=
  ∀ result, l.result = some result → pool.Built result l

/-- No effect of a run ends it. -/
theorem result_kept {β : Type} {op : PoolOp β} {s s' : Pool} {l l' : Run} {b : β}
    (ha : op.Answers s l b s' l') : l'.result = l.result := by
  cases op with
  | pending => exact ha.elim
  | _ =>
      simp only [PoolOp.Answers] at ha
      grind

/-- A run has no result while it goes on. -/
theorem run_unended (pool : LangPool) (input : Submission) :
    (pool.run input).wp pool.calls.localised (Prog.always fun l => l.result = none)
      (fun _ l => l.result = none) (Run.new input) := by
  refine Prog.wp_uses _ ?_ _ _ (Prog.uses_true _) rfl
  rintro β op l ⟨s, c⟩ b l' _ hnone hr
  rcases Option.map_eq_some_iff.mp hr with ⟨⟨b', s', l''⟩, hrespond, hr⟩
  cases hr
  exact (result_kept (PoolOp.answers_of_respond hrespond)).trans hnone

theorem numbered_start {pool : LangPool} {s : Pool} (hs : pool.start = some s) :
    Numbered s [] := by
  unfold LangPool.start at hs
  split at hs
  · cases hs
    exact List.Perm.refl _
  · cases hs

theorem replies_joint (pool : LangPool) :
    Concurrent.Joint pool.calls .none
      (fun p l => p.wp pool.calls.localised
        (fun β op l => pool.Asserts β op l ∧ l.result = none)
        (fun r l => pool.Built r l) l)
      (fun s ls => Numbered s ls ∧ ∀ l ∈ ls, Traced pool l) := by
  refine Concurrent.Joint.of_wp (fun input _ _ _ => ?_) ?_ ?_ ?_ ?_ ?_ ?_ ?_
  · exact Prog.wp_mono _ (fun r l h => h.1.2) _
      (Prog.wp_and _ _ (LangPool.run_built pool input) (run_unended pool input))
  · exact fun s ls ls' hp h =>
      ⟨(hp.filterMap _).symm.trans h.1, fun l hl => h.2 l (hp.mem_iff.mpr hl)⟩
  · refine fun s ls input _ h => ⟨?_, List.forall_mem_cons.mpr ⟨fun _ hr => (by cases hr), h.2⟩⟩
    exact h.1
  · intro β op s l ls c b s' l' _ hA h hr
    have ha := PoolOp.answers_of_respond hr
    rw [List.forall_mem_cons] at h
    refine ⟨h.1.step hA.1 ha, List.forall_mem_cons.mpr ⟨fun result hresult => ?_, h.2.2⟩⟩
    rw [result_kept ha, hA.2] at hresult
    cases hresult
  · intro a s l ls hbuilt h
    rw [List.forall_mem_cons] at h
    refine ⟨h.1, List.forall_mem_cons.mpr ⟨fun result hresult => ?_, h.2.2⟩⟩
    cases hresult
    exact hbuilt
  · intro _ _ _ s l ls _ _ _ h
    rw [List.forall_mem_cons] at h
    exact ⟨fun _ ho => absurd ho List.not_mem_nil, h.1,
      List.forall_mem_cons.mpr ⟨fun _ hr => (by cases hr), h.2.2⟩⟩
  · intro s l ls s' l' h hr
    rw [List.forall_mem_cons] at h ⊢
    have hkept : s'.nextJob = s.nextJob ∧ l'.job = l.job ∧ (Traced pool l → Traced pool l') := by
      simp only [LangPool.calls, Run.release] at hr
      split at hr
      · cases hr
        exact ⟨rfl, rfl, id⟩
      · split at hr
        · cases hr
          exact ⟨rfl, rfl, id⟩
        · split at hr
          · cases hr
            exact ⟨rfl, rfl, id⟩
          · cases hr
    exact ⟨h.1.frame hkept.1 hkept.2.1, hkept.2.2 h.2.1, h.2.2⟩
  · intro s ls c s' h hr
    simp only [LangPool.calls, LangPool.reaped] at hr
    split at hr
    · rcases Option.map_eq_some_iff.mp hr with ⟨kept, _, rfl⟩
      exact h
    · cases hr

/-- **Replies are not crossed.** In every reachable state of a pool:

    What a run has returned was built from the reply to its own request, read
    from the worker its request went to: an outcome from one without an error, a
    failure after dispatch from the error in one, unless there was no reply and
    the failure says how it was lost. No two of fewer than 2⁶⁴ runs have requests
    with one id. The worker handed to a run that has not been answered is not
    parked and in no other run's hands. -/
theorem replies_not_crossed (pool : LangPool) {g : LangPool.State}
    (h : Transition.Reachable pool.system g) :
    (∀ l ∈ g.locals, ∀ result, l.result = some result → pool.Built result l) ∧
    (g.locals.length < 2 ^ 64 → ((g.locals.filterMap Run.request).map JobRequest.id).Nodup) ∧
    ∀ (i j : Nat) (l l' : Run), g.locals[i]? = some l → g.locals[j]? = some l' → i ≠ j →
      ¬ l.Answered pool.json → ∀ n ∈ l.assigned,
        (∀ w ∈ g.shared.idle, w.number ≠ n) ∧ l'.hold.number ≠ some n := by
  have hreplies := ((replies_joint pool).reachable
    (fun s hs => ⟨numbered_start hs, fun l hl => by cases hl⟩) h).2
  have howned := ((pool_joint pool).reachable (fun s hs => PoolInvariant.start hs) h).2.owned
  refine ⟨hreplies.2, ids_nodup hreplies.1, ?_⟩
  intro i j l l' hi hj hij hno n hn
  have hout := howned.outstanding l (List.mem_of_getElem? hi) hno n hn
  have hboth : l.owns n + l'.owns n ≤ tally (Run.owns n) g.locals := add_le_tally hi hj hij
  rw [owners] at hout
  refine ⟨fun w hw hwn => ?_, fun hhold => ?_⟩
  · have hpos : 0 < parked g.shared.idle n :=
      List.countP_pos_iff.mpr ⟨w, hw, decide_eq_true hwn⟩
    omega
  · have hone : l'.owns n = 1 := if_pos hhold
    omega

/-! ## A run -/

open Concurrent.Step PoolChoice in
/-- A job answered, then another on the same worker, which answers the first one
    again. The second run skips that line and is dropped. -/
def skippedRun : List (Concurrent.Step Submission PoolChoice) :=
  spawnRun 0 ++ answeredJob 0 ++
    [call { code := "1", cwd := none, timeout := none, lines := 1 }, perform 1 .pass,
      perform 1 (time 0), perform 1 .pass, perform 1 (time 0), perform 1 .pass,
      perform 1 (time 0), perform 1 (checks [(0, false)]), perform 1 (accepted 22), perform 1 .pass,
      perform 1 (line []), drop 1, release 1]

/-- What the worker printed in the end, once as an answer. -/
def printedOutcome : ExecResponse :=
  { stdout := "", stderr := "", exitCode := some 0, timedOut := false, elapsedMs := 0
    queueWaitMs := 0, runtimeVersion := "3.12" }

/-- Only the first run was answered by it, and the worker is gone. -/
theorem replies_not_crossed_skipped : ∃ answered dropped : Run,
    answered.read = [(0, [])] ∧ dropped.read = [(0, [])] ∧
      smallPool.Built (.ok printedOutcome) answered ∧
      (([answered, dropped].filterMap Run.request).map JobRequest.id).Nodup ∧
      ¬ dropped.Answered printableJson ∧ answered.hold.number ≠ some 0 := by
  have hrun : (Transition.play smallPool.calls.move { shared := Pool.new 1, calls := [] }
      skippedRun).map (fun g => g.locals.map fun l => (l.assigned, l.read, l.job, l.result)) =
      some [(some 0, [(0, [])], some 0, some (.ok printedOutcome)),
        (some 0, [(0, [])], some 1, none)] := by rfl
  rcases Option.map_eq_some_iff.mp hrun with ⟨g, hg, hlocals⟩
  have hreach : Transition.Reachable smallPool.system g := Concurrent.reachable_play rfl hg
  obtain ⟨answered, dropped, hls, hanswered, hdropped⟩ : ∃ answered dropped,
      g.locals = [answered, dropped] ∧
      (answered.assigned, answered.read, answered.job, answered.result) =
        (some 0, [(0, [])], some 0, some (.ok printedOutcome)) ∧
      (dropped.assigned, dropped.read, dropped.job, dropped.result) =
        (some 0, [(0, [])], some 1, none) := by
    rcases List.map_eq_cons_iff.mp hlocals with ⟨answered, rest, hls, ha, hrest⟩
    rcases List.map_eq_singleton_iff.mp hrest with ⟨dropped, rfl, hd⟩
    exact ⟨answered, dropped, hls, ha, hd⟩
  simp only [Prod.mk.injEq] at hanswered hdropped
  rcases replies_not_crossed smallPool hreach with ⟨hbuilt, hids, howed⟩
  rw [hls] at hbuilt hids howed
  have hno : ¬ dropped.Answered printableJson := by
    have hrequest : dropped.input.request 1 ∈ dropped.request := by
      rw [Run.request, hdropped.2.2.1]
      rfl
    refine @LangPool.not_answered smallPool _ _ hrequest fun x hx hanswers => ?_
    rcases hanswers with ⟨response, hdecode, hid⟩
    cases hdecode
    have hsame : "0" = toString 1 := Option.some.inj hid
    exact absurd hsame (by decide)
  refine ⟨answered, dropped, hanswered.2.1, hdropped.2.1, ?_, hids ?_, hno, ?_⟩
  · exact hbuilt answered (List.mem_cons_self ..) _ hanswered.2.2.2
  · change 2 < 2 ^ 64
    decide
  · exact (howed 1 0 dropped answered rfl rfl (by decide) hno 0 hdropped.1).2

end TinyRuntime
