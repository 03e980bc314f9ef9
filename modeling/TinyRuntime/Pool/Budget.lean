import TinyRuntime.Lib.Ghost
import TinyRuntime.Pool.Bound

/-!
# The Job Budget of a Worker

How many runs one worker serves.

A worker counts the jobs it has answered, and is recycled when the count reaches the
budget. The count is kept with the worker: while a run has the worker in hand, it is in a
local of the run, and a run that is dropped or whose worker fails takes it along. So what
is counted is not how often a worker was handed out. It is as long as the worker is
parked, since a worker that is parked was answered by every run it was handed to.

The proof needs to know of a run what the count was when the worker came into its hands.
No field of the source says so, and the runs note it down.

## Main definitions

* `PoolOp.noted`: What a run notes of its worker.
* `Run.handed`: The runs a worker was handed to.
* `Accounts`: How the counts of the workers and the runs fit together.

## Theorems

* `run_marks`: A run parks its worker with one more job on its count.
* `Accounts.step`: What one effect keeps.
* `worker_budget`: No worker is handed out more often than its budget.
-/

namespace TinyRuntime

open Concurrent (tally tally_cons tally_perm le_tally)

/-- What a run notes of its worker: the jobs it had answered before. -/
def PoolOp.noted {β : Type} (op : PoolOp β) (b : β) (before : Option Nat) : Option Nat :=
  match op, b with
  | .takeIdle _, some w => some w.jobsDone
  | .ready _, _ => some 0
  | _, _ => before

/-- The effects that note nothing, and park nothing. -/
def PoolOp.unnoted {β : Type} (op : PoolOp β) : Prop :=
  match op with
  | .takeIdle _ | .ready _ | .park _ => False
  | _ => True

theorem PoolOp.unnoted.noted {β : Type} {op : PoolOp β} (h : op.unnoted) (b : β)
    (before : Option Nat) : op.noted b before = before := by
  cases op with
  | takeIdle | ready | park => cases h
  | _ => rfl

/-- A run to which a worker was handed. -/
def Run.handed (n : Nat) (l : Run) : Nat :=
  if l.assigned = some n then 1 else 0

namespace LangPool

/-- The runs of a pool with their notes. -/
def noting (pool : LangPool) :
    Concurrent.Calls PoolOp Pool (Run × Option Nat) Submission PoolChoice
      (Except Error ExecResponse) :=
  pool.calls.noting (fun _ => PoolOp.noted) none

/-- A worker is parked with one more job on its count than it came with. -/
def Marks : ∀ β, PoolOp β → Run × Option Nat → Prop := fun _ op w =>
  match op with
  | .park worker => ∃ jobs, w.2 = some jobs ∧ worker.jobsDone = jobs + 1
  | _ => True

section Marks

variable {pool : LangPool} {w : Run × Option Nat}

/-- One effect as a run with its note sees it. -/
theorem wp_noted {β : Type} {op : PoolOp β} {A : ∀ β, PoolOp β → Run × Option Nat → Prop}
    {Q : β → Run × Option Nat → Prop} (hA : A _ op w) (hQ : ∀ b l, Q b (l, op.noted b w.2)) :
    (Prog.op op).wp pool.noting.localised A Q w := by
  refine ⟨hA, ?_⟩
  rintro c b w' hr
  rcases Option.map_eq_some_iff.mp hr with ⟨⟨b', s', w''⟩, hr', heq⟩
  cases heq
  rcases Option.map_eq_some_iff.mp hr' with ⟨⟨b'', s'', l''⟩, _, heq⟩
  cases heq
  exact hQ _ _

theorem wp_unnoted {α : Type} {p : Prog PoolOp α} (hp : p.Uses fun _ op => op.unnoted) :
    p.wp pool.noting.localised Marks (fun _ w' => w'.2 = w.2) w := by
  have hkeep : p.wp pool.noting.localised (Prog.always fun w' => w'.2 = w.2)
      (fun _ w' => w'.2 = w.2) w := by
    refine Prog.wp_uses _ (fun β op v c b v' hop hv hr => ?_) p w hp rfl
    rcases Option.map_eq_some_iff.mp hr with ⟨⟨b', s', w''⟩, hr', heq⟩
    cases heq
    rcases Option.map_eq_some_iff.mp hr' with ⟨⟨b'', s'', l''⟩, _, heq⟩
    cases heq
    exact (hop.noted _ _).trans hv
  refine Prog.wp_weaken p (fun β op v hv => ?_) w (Prog.wp_and_uses p w hkeep hp)
  cases op with
  | takeIdle | ready | park => cases hv.2
  | _ => trivial

/-! ### One run -/

theorem unnoted_writeAll (worker fuel : Nat) : ∀ buffer,
    (Worker.writeAll worker fuel buffer).run.Uses fun _ op => op.unnoted := by
  induction fuel with
  | zero => exact fun _ => trivial
  | succ fuel ih =>
      intro buffer
      rw [Worker.writeAll]
      split
      · trivial
      · refine Prog.uses_run_bind ⟨trivial, fun _ => trivial⟩ fun n => ?_
        split
        · trivial
        · exact ih _

theorem unnoted_awaitResponse (json : Json) (worker : Worker) (id : String) (deadline : Option Nat)
    (fuel : Nat) :
    (Worker.awaitResponse json worker id deadline fuel).Uses fun _ op => op.unnoted := by
  induction fuel with
  | zero => exact ⟨trivial, fun never => by cases never⟩
  | succ fuel ih =>
      refine Prog.uses_bind ⟨trivial, fun _ => trivial⟩ fun r => ?_
      split
      · trivial
      · trivial
      · trivial
      · split
        · exact ih
        · split
          · exact ⟨trivial, fun _ => trivial⟩
          · exact ih

theorem unnoted_submit (json : Json) (worker : Worker) (request : JobRequest)
    (hardDeadline : Option Nat) (lines : Nat) :
    (worker.submit json request hardDeadline lines).Uses fun _ op => op.unnoted := by
  unfold Worker.submit
  split
  · trivial
  · refine Prog.uses_bind (unnoted_writeAll _ _ _) fun r => ?_
    split
    · trivial
    · refine Prog.uses_bind ⟨trivial, fun _ => trivial⟩ fun r => ?_
      split
      · trivial
      · refine Prog.uses_bind ?_ fun deadline => unnoted_awaitResponse _ _ _ _ _
        unfold Worker.deadlineAfter
        split
        · trivial
        · exact ⟨trivial, fun _ => trivial⟩

theorem unnoted_connect (json : Json) (launch : Launch) :
    (Worker.connect json launch).run.Uses fun _ op => op.unnoted := by
  have hattempt : ∀ {α : Type} (text : String) {e : PoolOp (Except String α)}, e.unnoted →
      (Worker.attemptAs text e).run.Uses fun _ op => op.unnoted := by
    refine fun text e he => Prog.uses_bind ⟨he, fun _ => trivial⟩ fun r => ?_
    split <;> trivial
  refine Prog.uses_run_bind (hattempt _ trivial) fun _ => ?_
  refine Prog.uses_run_bind (hattempt _ trivial) fun address => ?_
  refine Prog.uses_run_bind ⟨trivial, fun _ => trivial⟩ fun token => ?_
  split
  · trivial
  · refine Prog.uses_run_bind (hattempt _ trivial) fun child => ?_
    refine Prog.uses_run_bind ?_ fun _ => trivial
    refine Prog.uses_run_bind ⟨trivial, fun _ => trivial⟩ fun r => ?_
    split
    · trivial
    · trivial
    · exact Prog.uses_run_bind ⟨trivial, fun _ => trivial⟩ fun line =>
        Prog.uses_run_bind trivial fun _ => trivial

/-- A job that was answered is counted. -/
theorem submit_counts (json : Json) (worker : Worker) (request : JobRequest)
    (hardDeadline : Option Nat) (lines : Nat) :
    (worker.submit json request hardDeadline lines).Returns fun r =>
      ∀ reply, r = .ok reply → reply.2.jobsDone = worker.jobsDone + 1 := by
  have hawait : ∀ id deadline fuel, (Worker.awaitResponse json worker id deadline fuel).Returns
      fun r => ∀ reply, r = .ok reply → reply.2.jobsDone = worker.jobsDone + 1 := by
    intro id deadline fuel
    induction fuel with
    | zero => exact fun never => by cases never
    | succ fuel ih =>
        refine Prog.returns_bind _ fun r => ?_
        split
        · exact fun _ h => by cases h
        · exact fun _ h => by cases h
        · exact fun _ h => by cases h
        · split
          · exact ih
          · split
            · refine Prog.returns_bind _ fun now => ?_
              intro reply h
              cases h
              rfl
            · exact ih
  unfold Worker.submit
  split
  · exact fun _ h => by cases h
  · refine Prog.returns_bind _ fun r => ?_
    split
    · exact fun _ h => by cases h
    · refine Prog.returns_bind _ fun r => ?_
      split
      · exact fun _ h => by cases h
      · exact Prog.returns_bind _ fun deadline => hawait _ _ _

/-- A worker in hand comes with its count noted. -/
theorem takeOrSpawn_marks :
    pool.takeOrSpawn.wp pool.noting.localised Marks
      (fun r w' => ∀ worker, r = .ok worker → w'.2 = some worker.jobsDone) w := by
  rw [LangPool.takeOrSpawn, Prog.wp_bind]
  refine wp_noted trivial fun taken l => ?_
  cases taken with
  | some worker =>
      intro worker' h
      cases h
      rfl
  | none =>
      dsimp only
      rw [LangPool.spawn, Prog.wp_bind]
      refine wp_noted trivial fun _ l₁ => ?_
      rw [Prog.wp_bind, Worker.spawn, Prog.wp_bind]
      refine Prog.wp_mono _ ?_ _ (wp_unnoted (unnoted_connect _ _))
      intro r w₂ _
      cases r with
      | error reason =>
          dsimp only
          rw [Prog.wp_bind]
          refine wp_noted trivial fun _ l₃ => ?_
          exact fun _ h => by cases h
      | ok child =>
          dsimp only
          rw [Prog.wp_bind]
          refine wp_noted trivial fun now l₃ => ?_
          rw [Prog.wp_bind]
          refine wp_noted trivial fun _ l₄ => ?_
          intro worker h
          cases h
          rfl

theorem dispatch_marks (request : JobRequest) (hardDeadline : Option Nat) (lines : Nat) :
    (pool.dispatch request hardDeadline lines).wp pool.noting.localised Marks
      (fun r w' => ∀ reply, r = .ok reply →
        ∃ jobs, w'.2 = some jobs ∧ reply.2.jobsDone = jobs + 1) w := by
  rw [LangPool.dispatch, Prog.wp_bind]
  refine Prog.wp_mono _ ?_ _ takeOrSpawn_marks
  intro r w₁ h₁
  cases r with
  | error e => exact fun _ h => by cases h
  | ok worker =>
      dsimp only
      rw [Prog.wp_bind]
      refine Prog.wp_mono _ ?_ _ (Prog.wp_and_returns _ (submit_counts _ _ _ _ _) _
        (wp_unnoted (unnoted_submit _ _ _ _ _)))
      rintro r w₂ ⟨hcount, hsame⟩
      cases r with
      | ok reply =>
          intro reply' h
          cases h
          exact ⟨worker.jobsDone, hsame.trans (h₁ worker rfl), hcount _ rfl⟩
      | error failure =>
          dsimp only
          rw [Prog.wp_bind]
          refine wp_noted trivial fun _ l => ?_
          exact fun _ h => by cases h

/-- A run parks its worker with one more job on its count. -/
theorem run_marks (input : Submission) :
    (pool.run input).wp pool.noting.localised Marks (fun _ _ => True) w := by
  rw [LangPool.run, Prog.wp_bind]
  refine wp_noted trivial fun old l₁ => ?_
  split
  · rw [Prog.wp_bind]
    refine wp_noted trivial fun _ l₂ => ?_
    rw [Prog.wp_bind]
    exact wp_noted trivial fun _ l₃ => trivial
  · rw [Prog.wp_bind]
    refine wp_noted trivial fun queuedAt l₂ => ?_
    rw [Prog.wp_bind]
    refine wp_noted trivial fun granted l₃ => ?_
    split
    · trivial
    · rw [Prog.wp_bind]
      refine wp_noted trivial fun now l₄ => ?_
      rw [LangPool.serve, Prog.wp_bind]
      refine wp_noted trivial fun number l₅ => ?_
      rw [Prog.wp_bind]
      refine wp_noted trivial fun started l₆ => ?_
      rw [Prog.wp_bind]
      refine Prog.wp_mono _ ?_ _ (dispatch_marks _ _ _)
      intro r w₇ h₇
      cases r with
      | error e => trivial
      | ok reply =>
          rcases h₇ reply rfl with ⟨jobs, hnote, hcount⟩
          dsimp only
          rw [Prog.wp_bind]
          refine wp_noted trivial fun ended l₈ => ?_
          rw [Prog.wp_bind]
          refine wp_noted trivial fun _ l₉ => ?_
          rw [Prog.wp_bind]
          unfold LangPool.retireOrPark
          split
          · refine wp_noted trivial fun _ l => ?_
            split <;> trivial
          · refine wp_noted ⟨jobs, hnote, hcount⟩ fun _ l => ?_
            split <;> trivial

end Marks

end LangPool

/-! ## The counts -/

/-- How often a worker was handed out. -/
def handings (n : Nat) (ws : List (Run × Option Nat)) : Nat :=
  tally (fun w => w.1.handed n) ws

/-- How the counts of the workers and the runs fit together: a child that is still to be a
    worker was handed to nobody, a parked worker was answered by every run it was handed to,
    and one in the hands of a run by all of them but this one. -/
structure Accounts (budget : Nat) (s : Pool) (ws : List (Run × Option Nat)) : Prop where
  unborn : ∀ w ∈ ws, ∀ n, w.1.hold = .spawning (some n) → handings n ws = 0
  idle : ∀ p ∈ s.idle, handings p.number ws = p.jobsDone
  inHand : ∀ w ∈ ws, ∀ n, w.1.hold = .worker n →
    ∃ jobs, w.2 = some jobs ∧ handings n ws = jobs + 1
  bounded : 0 < budget → ∀ n, handings n ws ≤ budget

section Accounts

variable {budget : Nat} {s s' : Pool} {l l' : Run} {k k' : Option Nat}
  {ws : List (Run × Option Nat)}

theorem handings_cons (n : Nat) (w : Run × Option Nat) (ws : List (Run × Option Nat)) :
    handings n (w :: ws) = w.1.handed n + handings n ws :=
  tally_cons ..

/-- Whatever hands out nothing. -/
theorem Accounts.frame (h : Accounts budget s ((l, k) :: ws)) (hassigned : l'.assigned = l.assigned)
    (hidle : ∀ p ∈ s'.idle, p ∈ s.idle)
    (hworker : ∀ n, l'.hold = .worker n → l.hold = .worker n)
    (hspawning : ∀ n, l'.hold = .spawning (some n) → l.hold = .spawning (some n)) :
    Accounts budget s' ((l', k) :: ws) := by
  have hsame : ∀ n, handings n ((l', k) :: ws) = handings n ((l, k) :: ws) := by
    intro n
    rw [handings_cons, handings_cons, Run.handed, Run.handed, hassigned]
  refine ⟨fun w hw n hn => ?_, fun p hp => ?_, fun w hw n hn => ?_, fun hb n => ?_⟩
  · rw [hsame]
    rcases List.mem_cons.mp hw with rfl | hw
    · exact h.unborn _ (List.mem_cons_self ..) n (hspawning n hn)
    · exact h.unborn w (List.mem_cons_of_mem _ hw) n hn
  · rw [hsame]
    exact h.idle p (hidle p hp)
  · rw [hsame]
    rcases List.mem_cons.mp hw with rfl | hw
    · exact h.inHand _ (List.mem_cons_self ..) n (hworker n hn)
    · exact h.inHand w (List.mem_cons_of_mem _ hw) n hn
  · rw [hsame]
    exact h.bounded hb n

/-- A worker that nobody else owns is handed out. -/
theorem Accounts.assign (h : Accounts budget s ((l, k) :: ws)) {n jobs : Nat}
    (hassigned : l.assigned = none) (hcount : handings n ((l, k) :: ws) = jobs)
    (hroom : 0 < budget → jobs < budget) (hidle : ∀ p ∈ s'.idle, p ∈ s.idle ∧ p.number ≠ n)
    (halone : ∀ w ∈ ws, w.1.hold.number ≠ some n) :
    Accounts budget s' (({ l with hold := .worker n, assigned := some n }, some jobs) :: ws) := by
  have hbefore : ∀ m, handings m ((l, k) :: ws) = handings m ws := by
    intro m
    rw [handings_cons, Run.handed, hassigned, if_neg (fun h => by cases h), Nat.zero_add]
  have hafter : ∀ m, handings m (({ l with hold := .worker n, assigned := some n }, some jobs) ::
      ws) = (if n = m then 1 else 0) + handings m ((l, k) :: ws) := by
    intro m
    rw [handings_cons, hbefore, Run.handed]
    simp only [Option.some.injEq]
  have hsame : ∀ m, m ≠ n → handings m (({ l with hold := .worker n, assigned := some n },
      some jobs) :: ws) = handings m ((l, k) :: ws) := by
    intro m hm
    rw [hafter, if_neg (Ne.symm hm), Nat.zero_add]
  refine ⟨fun w hw m hm => ?_, fun p hp => ?_, fun w hw m hm => ?_, fun hb m => ?_⟩
  · rcases List.mem_cons.mp hw with rfl | hw
    · cases hm
    · have hne : m ≠ n := fun heq => halone w hw (by rw [hm, heq]; rfl)
      rw [hsame m hne]
      exact h.unborn w (List.mem_cons_of_mem _ hw) m hm
  · rw [hsame _ (hidle p hp).2]
    exact h.idle p (hidle p hp).1
  · rcases List.mem_cons.mp hw with rfl | hw
    · cases hm
      refine ⟨jobs, rfl, ?_⟩
      rw [hafter, if_pos rfl, hcount, Nat.add_comm]
    · have hne : m ≠ n := fun heq => halone w hw (by rw [hm, heq]; rfl)
      rw [hsame m hne]
      exact h.inHand w (List.mem_cons_of_mem _ hw) m hm
  · rw [hafter]
    split
    · rename_i hm
      rw [← hm, hcount, Nat.add_comm]
      exact hroom hb
    · rw [Nat.zero_add]
      exact h.bounded hb m

theorem parked_eq_zero {idle : List Worker} {n : Nat} (h : parked idle n = 0) :
    ∀ p ∈ idle, p.number ≠ n := by
  intro p hp heq
  exact List.countP_eq_zero.mp h p hp (decide_eq_true heq)

/-- A child that is owned once is in the hands of no other run. -/
theorem alone_of_single {n : Nat} (h : tally (Run.owns n) (ws.map Prod.fst) = 0) :
    ∀ w ∈ ws, w.1.hold.number ≠ some n := by
  intro w hw heq
  have hle := le_tally (f := Run.owns n) (List.mem_map_of_mem (f := Prod.fst) hw)
  rw [h, Run.owns, if_pos heq] at hle
  exact absurd hle (by omega)

/-- One effect of a run. -/
theorem Accounts.step {pool : LangPool} {β : Type} {op : PoolOp β} {b : β}
    (h : Accounts pool.settings.recycleAfterJobs s ((l, k) :: ws))
    (hI : PoolInvariant pool s (l :: ws.map Prod.fst)) (hA : pool.Asserts _ op l)
    (hM : LangPool.Marks _ op (l, k)) (ha : op.Answers s l b s' l') :
    Accounts pool.settings.recycleAfterJobs s' ((l', op.noted b k) :: ws) := by
  cases op with
  | takeIdle ttl =>
      rcases ha with ⟨rfl, rfl, rfl⟩ | ⟨gone, p, rest, rfl, hidle, rfl, rfl⟩
      · exact h.frame rfl (fun _ hp => by cases hp) (fun _ hn => by cases hn)
          fun _ hn => by cases hn
      · have hmem : ∀ x ∈ p :: rest, x ∈ s.idle := by
          intro x hx
          rw [hidle]
          exact List.mem_append_right _ hx
        have hsingle := hI.owned.single p.number
        rw [owners_cons, hidle, parked_append, parked_cons, if_pos rfl] at hsingle
        have hrest : parked rest p.number = 0 := by omega
        refine h.assign hA.2.2.1 (h.idle p (hmem p (List.mem_cons_self ..))) (fun hb => ?_)
          (fun x hx => ⟨hmem x (List.mem_cons_of_mem _ hx), ?_⟩) (alone_of_single (by omega))
        · have hyoung := hI.budgeted p (hmem p (List.mem_cons_self ..))
          rw [Worker.shouldRecycle, decide_eq_true hb, Bool.true_and,
            decide_eq_false_iff_not] at hyoung
          exact Nat.lt_of_not_le hyoung
        · exact parked_eq_zero hrest x hx
  | ready child =>
      rcases ha with ⟨rfl, rfl⟩
      rcases hA with ⟨hhold, hassigned, _⟩
      have howns : l.owns child = 1 := by rw [Run.owns, hhold]; exact if_pos rfl
      have hsingle := hI.owned.single child
      rw [owners_cons, howns] at hsingle
      refine h.assign hassigned (h.unborn _ (List.mem_cons_self ..) child hhold) id
        (fun x hx => ⟨hx, ?_⟩) (alone_of_single (by omega))
      exact parked_eq_zero (by omega) x hx
  | launch spec =>
      rcases ha with ⟨_, rfl, rfl⟩ | ⟨_, rfl, rfl⟩
      · refine ⟨fun w hw n hn => ?_, h.idle, fun w hw n hn => ?_, h.bounded⟩
        · rcases List.mem_cons.mp hw with rfl | hw
          · cases hn
            -- Nobody was handed a child that is not there yet.
            refine Concurrent.tally_eq_zero fun x hx => if_neg fun hx' => ?_
            rcases List.mem_cons.mp hx with rfl | hx
            · exact absurd (hI.owned.known l (List.mem_cons_self ..) _ hx') (Nat.lt_irrefl _)
            · exact absurd (hI.owned.known x.1 (List.mem_cons_of_mem _
                (List.mem_map_of_mem (f := Prod.fst) hx)) _ hx') (Nat.lt_irrefl _)
          · exact h.unborn w (List.mem_cons_of_mem _ hw) n hn
        · rcases List.mem_cons.mp hw with rfl | hw
          · cases hn
          · exact h.inHand w (List.mem_cons_of_mem _ hw) n hn
      · exact h
  | dropChild | shutdown =>
      rcases ha with ⟨rfl, rfl⟩
      exact h.frame rfl (fun _ hp => hp) (fun _ hn => by cases hn) fun _ hn => by cases hn
  | park p =>
      rcases ha with ⟨rfl, rfl⟩
      rcases hM with ⟨jobs, rfl, hjobs⟩
      rcases h.inHand _ (List.mem_cons_self ..) _ hA.1 with ⟨jobs', heq, hcount⟩
      cases heq
      have hparked : Accounts pool.settings.recycleAfterJobs { s with idle := p :: s.idle }
          ((l, some jobs) :: ws) := by
        refine ⟨h.unborn, fun x hx => ?_, h.inHand, h.bounded⟩
        rcases List.mem_cons.mp hx with rfl | hx
        · exact hcount.trans hjobs.symm
        · exact h.idle x hx
      exact hparked.frame rfl (fun _ hp => hp) (fun _ hn => by cases hn) fun _ hn => by cases hn
  | enter | nextJob =>
      rcases ha with ⟨_, rfl, rfl⟩
      exact h.frame rfl (fun _ hp => hp) (fun _ => id) fun _ => id
  | leave =>
      rcases ha with ⟨rfl, rfl⟩
      exact h.frame rfl (fun _ hp => hp) (fun _ => id) fun _ => id
  | acquire =>
      rcases ha with ⟨_, _, rfl, rfl⟩
      exact h.frame rfl (fun _ hp => hp) (fun _ => id) fun _ => id
  | write worker buffer =>
      rcases ha with ⟨rfl, ⟨n, _, rfl⟩ | ⟨_, rfl⟩⟩ <;>
        exact h.frame rfl (fun _ hp => hp) (fun _ => id) fun _ => id
  | nextLine worker deadline =>
      rcases ha with ⟨halike, ⟨bytes, _, rfl⟩ | ⟨_, rfl⟩⟩ <;>
        exact h.frame rfl (fun _ hp => halike.idle ▸ hp) (fun _ => id) fun _ => id
  | pending => exact ha.elim
  | _ =>
      rcases ha with ⟨halike, rfl⟩
      exact h.frame rfl (fun _ hp => halike.idle ▸ hp) (fun _ => id) fun _ => id

theorem Accounts.perm {ws' : List (Run × Option Nat)} (hp : ws.Perm ws')
    (h : Accounts budget s ws) : Accounts budget s ws' := by
  have hsame : ∀ n, handings n ws' = handings n ws := fun n => (tally_perm _ hp).symm
  refine ⟨fun w hw n hn => ?_, fun p hp => ?_, fun w hw n hn => ?_, fun hb n => ?_⟩
  · rw [hsame]
    exact h.unborn w (hp.mem_iff.mpr hw) n hn
  · rw [hsame]
    exact h.idle p hp
  · rw [hsame]
    exact h.inHand w (hp.mem_iff.mpr hw) n hn
  · rw [hsame]
    exact h.bounded hb n

/-- A run that has done nothing yet. -/
theorem Accounts.call (input : Submission) (h : Accounts budget s ws) :
    Accounts budget s ((Run.new input, none) :: ws) := by
  have hsame : ∀ n, handings n ((Run.new input, none) :: ws) = handings n ws := by
    intro n
    rw [handings_cons, Run.handed, if_neg (fun hn => by cases hn), Nat.zero_add]
  refine ⟨fun w hw n hn => ?_, fun p hp => ?_, fun w hw n hn => ?_, fun hb n => ?_⟩
  · rw [hsame]
    rcases List.mem_cons.mp hw with rfl | hw
    · cases hn
    · exact h.unborn w hw n hn
  · rw [hsame]
    exact h.idle p hp
  · rw [hsame]
    rcases List.mem_cons.mp hw with rfl | hw
    · cases hn
    · exact h.inHand w hw n hn
  · rw [hsame]
    exact h.bounded hb n

end Accounts

theorem budget_joint (pool : LangPool) :
    Concurrent.Joint pool.noting .none
      (fun p w => p.wp pool.noting.localised
        (fun β op w => pool.Asserts β op w.1 ∧ LangPool.Marks β op w) (fun _ _ => True) w)
      (fun s ws => PoolInvariant pool s (ws.map Prod.fst) ∧
        Accounts pool.settings.recycleAfterJobs s ws) := by
  refine Concurrent.Joint.of_wp ?_ ?_ ?_ ?_ ?_ ?_ ?_ ?_
  · intro input _ _ _
    refine Prog.wp_mono _ (fun _ _ _ => trivial) _ (Prog.wp_and _ _
      (Concurrent.wp_noting _ _ _ (LangPool.run_conduct pool input)) (LangPool.run_marks input))
  · exact fun s ws ws' hp h => ⟨h.1.perm (hp.map _), h.2.perm hp⟩
  · rintro s ws input _ ⟨hI, h⟩
    exact ⟨hI.call input, h.call input⟩
  · rintro β op s ⟨l, k⟩ ws c b s' ⟨l', k'⟩ _ hA ⟨hI, h⟩ hr
    rcases Option.map_eq_some_iff.mp hr with ⟨⟨b', s'', l''⟩, hrespond, heq⟩
    cases heq
    have ha := PoolOp.answers_of_respond hrespond
    exact ⟨hI.step hA.1 ha, h.step hI hA.1 hA.2 ha⟩
  · rintro a s ⟨l, k⟩ ws _ ⟨hI, h⟩
    exact ⟨hI.ended (some a), h.frame rfl (fun _ hp => hp) (fun _ => id) fun _ => id⟩
  · rintro β op next s ⟨l, k⟩ ws _ _ _ ⟨hI, h⟩
    refine ⟨fun _ ho => absurd ho List.not_mem_nil, hI.ended none, ?_⟩
    exact h.frame rfl (fun _ hp => hp) (fun _ => id) fun _ => id
  · rintro s ⟨l, k⟩ ws s' ⟨l', k'⟩ ⟨hI, h⟩ hr
    rcases Option.map_eq_some_iff.mp hr with ⟨⟨s'', l''⟩, hrelease, heq⟩
    cases heq
    refine ⟨hI.release hrelease, ?_⟩
    have hkept : l''.assigned = l.assigned ∧ s''.idle = s.idle ∧
        (∀ n, l''.hold = .worker n → l.hold = .worker n) ∧
        ∀ n, l''.hold = .spawning (some n) → l.hold = .spawning (some n) := by
      have hrun : Run.release (s, l) = some (s'', l'') := hrelease
      simp only [Run.release] at hrun
      grind
    exact h.frame hkept.1 (fun _ hp => hkept.2.1 ▸ hp) hkept.2.2.1 hkept.2.2.2
  · rintro s ws c s' ⟨hI, h⟩ hr
    refine ⟨hI.reaped hr, h.unborn, fun p hp => h.idle p ?_, h.inHand, h.bounded⟩
    simp only [LangPool.noting, Concurrent.Calls.noting, LangPool.calls, LangPool.reaped] at hr
    split at hr
    · rcases Option.map_eq_some_iff.mp hr with ⟨kept, hkept, rfl⟩
      exact (reap_sublist hkept).subset hp
    · cases hr

theorem Accounts.start (budget : Nat) {s : Pool} (hidle : s.idle = []) : Accounts budget s [] where
  unborn _ hw := by cases hw
  idle _ hp := by
    rw [hidle] at hp
    cases hp
  inHand _ hw := by cases hw
  bounded _ _ := Nat.zero_le _

/-- **No worker outlives its budget.** In every history of a pool, whatever runs are made
    and dropped and whatever workers die, a worker is handed to at most
    `recycle_after_jobs` runs, unless this is zero. And as long as it is parked, it has
    answered every run it was handed to, and its own count says so. -/
theorem worker_budget (pool : LangPool) {g : LangPool.State}
    (h : Transition.Reachable pool.system g) :
    (0 < pool.settings.recycleAfterJobs → ∀ n,
      tally (Run.handed n) g.locals ≤ pool.settings.recycleAfterJobs) ∧
    ∀ w ∈ g.shared.idle, tally (Run.handed w.number) g.locals = w.jobsDone := by
  have hnoted : ∃ g', Transition.Reachable (pool.noting.system .none fun s =>
      pool.start = some s) g' ∧ g'.forget = g := Concurrent.noting_reachable h
  rcases hnoted with ⟨g', hg', rfl⟩
  have hinit : ∀ s, pool.start = some s → PoolInvariant pool s (([] : List (Run × Option Nat)).map
      Prod.fst) ∧ Accounts pool.settings.recycleAfterJobs s [] := by
    intro s hs
    refine ⟨PoolInvariant.start hs, .start _ ?_⟩
    unfold LangPool.start at hs
    split at hs
    · cases hs
      rfl
    · cases hs
  have hall := ((budget_joint pool).reachable hinit hg').2.2
  have hsame : ∀ n, tally (Run.handed n) g'.forget.locals = handings n g'.locals := by
    intro n
    rw [Concurrent.forget_locals, Concurrent.tally, List.map_map, handings, Concurrent.tally]
    rfl
  refine ⟨fun hb n => ?_, fun w hw => ?_⟩
  · rw [hsame]
    exact hall.bounded hb n
  · rw [hsame]
    exact hall.idle w hw

open Concurrent.Step PoolChoice in
/-- A run up to the point where it has the parked worker. -/
def reuseRun (i : Nat) : List (Concurrent.Step Submission PoolChoice) :=
  [call { code := "1", cwd := none, timeout := none, lines := 1 },
    perform i pass, perform i (time 0), perform i pass, perform i (time 0), perform i pass,
    perform i (time 0), perform i (checks [(0, false)])]

/-- One worker after an answered run and a dropped one, with a budget of two. -/
theorem worker_budget_dropped : ∃ g : LangPool.State,
    g.shared.idle = [] ∧ g.locals.map Run.assigned = [some 0, some 0] ∧
      tally (Run.handed 0) g.locals ≤ 2 := by
  obtain ⟨g, hg, hidle, hassigned⟩ : ∃ g : LangPool.State,
      Transition.play smallPool.calls.move { shared := Pool.new 1, calls := [] }
        (spawnRun 0 ++ answeredJob 0 ++ reuseRun 1 ++ [.drop 1, .release 1]) = some g ∧
      g.shared.idle = [] ∧ g.locals.map Run.assigned = [some 0, some 0] := ⟨_, rfl, rfl, rfl⟩
  have hreach : Transition.Reachable smallPool.system g :=
    Concurrent.reachable_play rfl hg
  exact ⟨g, hidle, hassigned, (worker_budget smallPool hreach).1 (by decide) 0⟩

end TinyRuntime
