import TinyRuntime.Pool.Bound

/-!
# Delivery

A job never runs twice for a caller that only re-submits retryable failures.

A harness acts on complete lines only. What a run delivers is a prefix of its own
line, all of it to one worker, so it contains a newline only if it is the whole
line. A run that ends with a retryable error has not delivered that newline: the
tag that `submit` computes, its translation by `dispatch_error` and
`Error::is_retryable` agree on every way to fail.

## Main definitions

* `Run.newlines`: The complete lines a run has delivered.
* `Run.Delivered`: What a run may have delivered.

## Theorems

* `Delivered.step`: What one effect keeps.
* `delivered_once`: A run delivers at most one line.
* `job_never_runs_twice`: Nor do its re-submissions, all together.
-/

namespace TinyRuntime

open Concurrent (tally tally_cons tally_nil)

/-- The newline-terminated frames of its job that a run has delivered. -/
def Run.newlines (l : Run) : Nat :=
  l.bytes.count NEWLINE

/-- A part of its own line, to one worker; and no newline if the run has ended
    with a retryable error. -/
structure Run.Delivered (json : Json) (l : Run) : Prop where
  one : ∀ x ∈ l.sent, ∀ y ∈ l.sent, x.1 = y.1
  undrawn : l.request = none → l.sent = []
  part : ∀ request ∈ l.request, l.bytes <+: json.line request
  retryable : ∀ e, l.result = some (.error e) → e.isRetryable = true → NEWLINE ∉ l.bytes

namespace Run.Delivered

variable {json : Json} {l l' : Run}

/-- Whatever draws no number, writes nothing and returns nothing. -/
theorem frame (h : l.Delivered json) (hrequest : l'.request = l.request) (hsent : l'.sent = l.sent)
    (hresult : l'.result = l.result) : l'.Delivered json := by
  have hbytes : l'.bytes = l.bytes := by rw [Run.bytes, hsent, Run.bytes]
  refine ⟨?_, ?_, ?_, ?_⟩
  · rw [hsent]
    exact h.one
  · rw [hrequest, hsent]
    exact h.undrawn
  · rw [hrequest, hbytes]
    exact h.part
  · rw [hresult, hbytes]
    exact h.retryable

/-- One write of what is left of the line. -/
theorem write {worker : Nat} {buffer bytes : List UInt8} (hw : l.Writing json worker buffer)
    (hpart : bytes <+: buffer) :
    ({ l with sent := l.sent ++ [(worker, bytes)] } : Run).Delivered json := by
  rcases hw with ⟨hresult, hsent, request, hrequest, hline⟩
  have hall : ∀ x ∈ l.sent ++ [(worker, bytes)], x.1 = worker := by
    intro x hx
    rcases List.mem_append.mp hx with hx | hx
    · exact hsent x hx
    · rw [List.mem_singleton.mp hx]
  refine ⟨?_, ?_, ?_, ?_⟩
  · exact fun x hx y hy => (hall x hx).trans (hall y hy).symm
  · intro hnone
    change l.request = none at hnone
    rw [hnone] at hrequest
    cases hrequest
  · intro request' hrequest'
    have hsame : request' = request := Option.mem_unique hrequest' hrequest
    rw [LangPool.bytes_append, hsame, ← hline]
    exact (List.prefix_append_right_inj _).mpr hpart
  · intro e he
    change l.result = some (.error e) at he
    rw [hresult] at he
    cases he

theorem step {pool : LangPool} {β : Type} {op : PoolOp β} {s s' : Pool} {b : β}
    (h : l.Delivered pool.json) (hA : pool.Asserts _ op l) (ha : op.Answers s l b s' l') :
    l'.Delivered pool.json := by
  cases op with
  | write worker buffer =>
      rcases ha with ⟨_, ⟨n, _, rfl⟩ | ⟨_, rfl⟩⟩
      · exact write hA.2.2 (List.take_prefix _ _)
      · exact write hA.2.2 List.nil_prefix
  | nextJob =>
      rcases ha with ⟨_, _, rfl⟩
      have hbytes : l.bytes = [] := by rw [Run.bytes, hA.2.2, List.flatMap_nil]
      refine ⟨h.one, fun hnone => (by cases hnone), fun request _ => ?_, h.retryable⟩
      change l.bytes <+: _
      rw [hbytes]
      exact List.nil_prefix
  | pending => exact ha.elim
  | _ =>
      simp only [PoolOp.Answers] at ha
      have hkept : l'.input = l.input ∧ l'.job = l.job ∧ l'.sent = l.sent ∧
          l'.result = l.result := by grind
      rcases hkept with ⟨hinput, hjob, hsent, hresult⟩
      exact h.frame (by rw [Run.request, hinput, hjob, Run.request]) hsent hresult

/-- At most one line. -/
theorem newlines_le (h : l.Delivered json) : l.newlines ≤ 1 := by
  cases hr : l.request with
  | none =>
      rw [Run.newlines, Run.bytes, h.undrawn hr]
      exact Nat.zero_le 1
  | some request =>
      rcases h.part request (by rw [hr]; rfl) with ⟨rest, hrest⟩
      rw [Run.newlines, json.newlines_written request hrest]
      split <;> omega

end Run.Delivered

theorem delivery_joint (pool : LangPool) :
    Concurrent.Joint pool.calls .none
      (fun p l => p.wp pool.calls.localised pool.Asserts LangPool.Returns l)
      (fun _ ls => ∀ l ∈ ls, l.Delivered pool.json) := by
  refine Concurrent.Joint.of_wp (fun input _ _ _ => LangPool.run_conduct pool input)
    ?_ ?_ ?_ ?_ ?_ ?_ ?_
  · exact fun s ls ls' hp h l hl => h l (hp.mem_iff.mpr hl)
  · refine fun s ls input _ h => List.forall_mem_cons.mpr ⟨?_, h⟩
    exact ⟨fun _ hx => (by cases hx), fun _ => rfl, fun _ hr => (by cases hr),
      fun _ he => by cases he⟩
  · intro β op s l ls c b s' l' _ hA h hr
    rw [List.forall_mem_cons] at h
    exact List.forall_mem_cons.mpr ⟨h.1.step hA (PoolOp.answers_of_respond hr), h.2⟩
  · intro a s l ls hreturns h
    rw [List.forall_mem_cons] at h ⊢
    refine ⟨⟨h.1.one, h.1.undrawn, h.1.part, ?_⟩, h.2⟩
    exact fun e he => hreturns e (Option.some.inj he)
  · intro _ _ _ s l ls _ _ _ h
    rw [List.forall_mem_cons] at h
    refine ⟨fun _ ho => absurd ho List.not_mem_nil, List.forall_mem_cons.mpr ?_⟩
    exact ⟨⟨h.1.one, h.1.undrawn, h.1.part, fun e he => by cases he⟩, h.2⟩
  · intro s l ls s' l' h hr
    rw [List.forall_mem_cons] at h ⊢
    refine ⟨h.1.frame ?_ ?_ ?_, h.2⟩ <;> (simp only [LangPool.calls, Run.release] at hr; grind [Run.request])
  · exact fun s ls c s' h _ => h

/-- The frames of runs that all ended with a retryable error. -/
theorem newlines_retried {json : Json} {ls : List Run} (h : ∀ l ∈ ls, l.Delivered json)
    (hretry : ∀ l ∈ ls, ∃ e, l.result = some (.error e) ∧ e.isRetryable = true) :
    tally Run.newlines ls = 0 := by
  induction ls with
  | nil => rfl
  | cons l ls ih =>
      rw [List.forall_mem_cons] at h hretry
      rcases hretry.1 with ⟨e, he, hr⟩
      have hzero : l.newlines = 0 := List.count_eq_zero.mpr (h.1.retryable e he hr)
      rw [tally_cons, hzero, ih h.2 hretry.2]

/-- **A job never runs twice.** In every reachable state of a pool:

    A run has written to one worker at most, and what it has delivered is a part
    of its own line. If it has returned a retryable error, it has delivered no
    newline. So a job that was submitted again and again, each time after a
    retryable error, has been delivered at most once. -/
theorem job_never_runs_twice (pool : LangPool) {g : LangPool.State}
    (h : Transition.Reachable pool.system g) :
    (∀ l ∈ g.locals, ∀ x ∈ l.sent, ∀ y ∈ l.sent, x.1 = y.1) ∧
    (∀ l ∈ g.locals, ∀ request ∈ l.request, l.bytes <+: pool.json.line request) ∧
    (∀ l ∈ g.locals, ∀ e, l.result = some (.error e) → e.isRetryable = true →
      l.newlines = 0) ∧
    ∀ (retried : List Run) (last : Run), (retried ++ [last]).Sublist g.locals →
      (∀ l ∈ retried, ∃ e, l.result = some (.error e) ∧ e.isRetryable = true) →
      tally Run.newlines (retried ++ [last]) ≤ 1 := by
  have hall : ∀ l ∈ g.locals, l.Delivered pool.json :=
    ((delivery_joint pool).reachable (fun _ _ _ hl => by cases hl) h).2
  refine ⟨fun l hl => (hall l hl).one, fun l hl => (hall l hl).part, ?_, ?_⟩
  · exact fun l hl e he hr => List.count_eq_zero.mpr ((hall l hl).retryable e he hr)
  · intro retried last hsub hretry
    have hretried := newlines_retried
      (fun l hl => hall l (hsub.subset (List.mem_append_left _ hl))) hretry
    have hlast := (hall last (hsub.subset
      (List.mem_append_right _ (List.mem_singleton_self _)))).newlines_le
    calc tally Run.newlines (retried ++ [last])
        = tally Run.newlines (last :: retried) :=
          Concurrent.tally_perm _ (List.perm_append_singleton _ _)
      _ = last.newlines := by rw [tally_cons, hretried, Nat.add_zero]
      _ ≤ 1 := hlast

/-! ## A run -/

open Concurrent.Step PoolChoice in
/-- A write that fails after five bytes, then the same job again. -/
def retriedRun : List (Concurrent.Step Submission PoolChoice) :=
  spawnRun 0 ++
    [perform 0 (accepted 5), perform 0 (failed "reset"), perform 0 .pass, finish 0, release 0,
      release 0] ++
    spawnRun 1 ++ [perform 1 (accepted 22)]

/-- The worker that got five bytes got no frame, and the job was delivered once. -/
theorem job_never_runs_twice_retried : ∃ failed last : Run,
    failed.sent.map (fun x => (x.1, x.2.length)) = [(0, 5), (0, 0)] ∧ failed.newlines = 0 ∧
      last.sent.map (fun x => (x.1, x.2.length)) = [(1, 22)] ∧
      tally Run.newlines [failed, last] ≤ 1 := by
  have hrun : (Transition.play smallPool.calls.move { shared := Pool.new 1, calls := [] }
      retriedRun).map
        (fun g => g.locals.map fun l => (l.sent.map fun x => (x.1, x.2.length), l.result)) =
      some [([(0, 5), (0, 0)], some (.error (.preDispatch (Language.new "python")
          "the job could not be sent: reset"))), ([(1, 22)], none)] := by rfl
  rcases Option.map_eq_some_iff.mp hrun with ⟨g, hg, hlocals⟩
  have hreach : Transition.Reachable smallPool.system g :=
    Concurrent.reachable_play rfl hg
  rcases job_never_runs_twice smallPool hreach with ⟨_, _, hretry, honce⟩
  obtain ⟨failed, last, hls, hfailed, hlast⟩ : ∃ failed last, g.locals = [failed, last] ∧
      (failed.sent.map fun x => (x.1, x.2.length), failed.result) = ([(0, 5), (0, 0)],
        some (.error (.preDispatch (Language.new "python") "the job could not be sent: reset"))) ∧
      (last.sent.map fun x => (x.1, x.2.length), last.result) = ([(1, 22)], none) := by
    rcases List.map_eq_cons_iff.mp hlocals with ⟨failed, rest, hls, hf, hrest⟩
    rcases List.map_eq_singleton_iff.mp hrest with ⟨last, rfl, hl⟩
    exact ⟨failed, last, hls, hf, hl⟩
  have hresult := congrArg Prod.snd hfailed
  refine ⟨failed, last, congrArg Prod.fst hfailed, ?_, congrArg Prod.fst hlast, ?_⟩
  · exact hretry failed (hls ▸ List.mem_cons_self ..) _ hresult rfl
  · refine honce [failed] last (hls ▸ List.Sublist.refl _) fun l hl => ?_
    rw [List.mem_singleton.mp hl]
    exact ⟨_, hresult, rfl⟩

end TinyRuntime
