import TinyRuntime.Pool.LangPool

/-!
# The Conduct of One Run

What one run does with what it owns, whatever the other runs do meanwhile. The
shared state is a choice of the outside here, so everything is a fact about the
run's locals.

`Asserts` lists what a run knows at each effect: it takes a permit once, takes a
worker only with a permit and with nothing in its hands, writes only the rest of
its line and only to the worker it holds, parks only a worker that has answered
it. What it returns is a retryable error only if no job was delivered, and is
otherwise built from the reply to its own request. `run_built` walks through the
code once and establishes all of it. Every invariant of the pool is then a matter
of the effects alone.

## Main definitions

* `Run.bytes`: What has been delivered of a job.
* `Run.Answered`: The worker has replied to the job.
* `Run.Reply`: The reply, and how it was read.
* `LangPool.Asserts`: What a run asserts at its effects.
* `LangPool.Returns`, `LangPool.Built`: What it asserts at its return.

## Theorems

* `wp_local`: One effect as a run sees it.
* `answers_hands`: What an effect puts into its hands.
* `writeAll_spec`, `awaitResponse_spec`, `submit_spec`: One job.
* `run_built`, `run_conduct`: A run meets its assertions.
-/

namespace TinyRuntime

open Prog (act attempt)

/-- What has been delivered of a job, over all writes. -/
def Run.bytes (l : Run) : List UInt8 :=
  l.sent.flatMap Prod.snd

/-- The request of a run, once its number is drawn. -/
def Run.request (l : Run) : Option JobRequest :=
  l.job.map l.input.request

/-- The worker written to has sent a reply under the id of the job. -/
def Run.Answered (json : Json) (l : Run) : Prop :=
  ∃ request ∈ l.request, ∃ x ∈ l.read, (∀ y ∈ l.sent, y.1 = x.1) ∧
    ∃ response, json.decodeResponse x.2 = some response ∧ response.id = some request.id

/-- A line that is a reply under an id. -/
def Json.Answers (json : Json) (id : String) (line : List UInt8) : Prop :=
  ∃ response, json.decodeResponse line = some response ∧ response.id = some id

/-- The reply to a run: the whole line of its request went to the worker it was
    handed, and there the first line under its id was read. -/
def Run.Reply (json : Json) (l : Run) (response : JobResponse) : Prop :=
  ∃ request ∈ l.request, ∃ worker skipped line,
    l.assigned = some worker ∧ (∀ x ∈ l.sent, x.1 = worker) ∧ l.bytes = json.line request ∧
    l.read = skipped ++ [(worker, line)] ∧ (∀ x ∈ skipped, ¬ json.Answers request.id x.2) ∧
    json.decodeResponse line = some response ∧ response.id = some request.id

/-- The reasons of a job whose reply never came. -/
def Worker.Lost (reason : String) : Prop :=
  reason = "the worker stopped answering and was discarded" ∨
  reason = "the worker closed its protocol stream" ∨
  (∃ error, reason = "the worker's reply could not be read: " ++ error) ∨
  ∃ error, reason = "the job could not be flushed: " ++ error

/-- What is left to write of the line, by a run that goes on; and nothing was
    written elsewhere. -/
def Run.Writing (json : Json) (l : Run) (worker : Nat) (buffer : List UInt8) : Prop :=
  l.result = none ∧ (∀ x ∈ l.sent, x.1 = worker) ∧
    ∃ request ∈ l.request, l.bytes ++ buffer = json.line request

namespace LangPool

/-- What a run knows of its locals when it performs an effect. -/
def Asserts (pool : LangPool) : ∀ β, PoolOp β → Run → Prop := fun _ op l =>
  match op with
  | .enter => l.entered = none
  | .leave => l.entered.isSome
  | .acquire => l.permit = false
  | .nextJob => l.job = none ∧ l.assigned = none ∧ l.sent = []
  | .takeIdle _ => l.permit = true ∧ l.hold = .nothing ∧ l.assigned = none ∧ l.sent = []
  | .launch spec => l.hold = .spawning none ∧ ∃ address token,
      confine pool.launch.spawner (Worker.spec pool.launch address token) = .ok spec
  | .ready child => l.hold = .spawning (some child) ∧ l.assigned = none ∧ l.sent = []
  | .write worker buffer =>
      l.hold = .worker worker ∧ l.assigned = some worker ∧ l.Writing pool.json worker buffer
  | .park w =>
      l.hold = .worker w.number ∧ w.shouldRecycle pool.settings.recycleAfterJobs = false ∧
        l.Answered pool.json
  | _ => True

/-- What a run knows of its locals when it returns. -/
def Returns (result : Except Error ExecResponse) (l : Run) : Prop :=
  ∀ e, result = .error e → e.isRetryable = true → NEWLINE ∉ l.bytes

/-- Where a result comes from: the reply to the run, or the lack of one. -/
def Built (pool : LangPool) (result : Except Error ExecResponse) (l : Run) : Prop :=
  (∀ outcome, result = .ok outcome →
    ∃ response elapsed queueWait, l.Reply pool.json response ∧ response.error = none ∧
      outcome = pool.outcome response elapsed queueWait) ∧
  ∀ language reason, result = .error (.postDispatch language reason) →
    (∃ response, l.Reply pool.json response ∧ response.error = some reason) ∨
      ¬ l.Answered pool.json ∧ Worker.Lost reason

section Conduct

variable {pool : LangPool} {l : Run}

/-- One effect as a run sees it. -/
theorem wp_local {β : Type} {op : PoolOp β} {A : ∀ β, PoolOp β → Run → Prop}
    {Q : β → Run → Prop} (hA : A _ op l)
    (hQ : ∀ s b s' l', op.Answers s l b s' l' → Q b l') :
    (Prog.op op).wp pool.calls.localised A Q l := by
  refine ⟨hA, ?_⟩
  rintro ⟨s, c⟩ b l' hr
  rcases Option.map_eq_some_iff.mp hr with ⟨⟨b', s', l''⟩, hrespond, hr⟩
  cases hr
  exact hQ s _ s' _ (PoolOp.answers_of_respond hrespond)

/-- What an effect puts into the hands of a run, and into the idle list. -/
theorem answers_hands {β : Type} {op : PoolOp β} {s s' : Pool} {l l' : Run} {b : β}
    (h : op.Answers s l b s' l') (hA : pool.Asserts β op l) :
    s.fresh ≤ s'.fresh ∧ l'.result = l.result ∧
      (∀ w ∈ s'.idle, w ∈ s.idle ∨ l.hold = .worker w.number) ∧
      (l'.assigned = l.assigned ∧ (∀ n, l'.hold = .worker n → l.hold = .worker n) ∨
        ∃ n, l'.assigned = some n ∧ (∀ m, l'.hold = .worker m → m = n) ∧
          ((∃ w ∈ s.idle, w.number = n) ∨
            (⟨β, op⟩ : Sigma PoolOp) = ⟨_, .ready n⟩ ∧ l.hold = .spawning (some n))) := by
  have hsame : ∀ {t : Pool} {w : Worker}, w ∈ t.idle → w ∈ t.idle ∨ l.hold = .worker w.number :=
    fun hw => .inl hw
  cases op with
  | enter | nextJob =>
      rcases h with ⟨_, rfl, rfl⟩
      exact ⟨Nat.le_refl _, rfl, fun _ => hsame, .inl ⟨rfl, fun _ => id⟩⟩
  | acquire =>
      rcases h with ⟨_, _, rfl, rfl⟩
      exact ⟨Nat.le_refl _, rfl, fun _ => hsame, .inl ⟨rfl, fun _ => id⟩⟩
  | leave =>
      rcases h with ⟨rfl, rfl⟩
      exact ⟨Nat.le_refl _, rfl, fun _ => hsame, .inl ⟨rfl, fun _ => id⟩⟩
  | takeIdle ttl =>
      rcases h with ⟨_, rfl, rfl⟩ | ⟨gone, w, rest, _, hidle, rfl, rfl⟩
      · exact ⟨Nat.le_refl _, rfl, fun _ hw => (by cases hw), .inl ⟨rfl, fun _ hn => by cases hn⟩⟩
      · have hrest : ∀ x ∈ w :: rest, x ∈ s.idle := fun x hx => by
          rw [hidle]
          exact List.mem_append_right _ hx
        refine ⟨Nat.le_refl _, rfl, fun x hx => .inl (hrest x (List.mem_cons_of_mem _ hx)), .inr ?_⟩
        refine ⟨w.number, rfl, fun m hm => ?_, .inl ⟨w, hrest w (List.mem_cons_self ..), rfl⟩⟩
        cases hm
        rfl
  | launch spec =>
      rcases h with ⟨_, rfl, rfl⟩ | ⟨_, rfl, rfl⟩
      · exact ⟨Nat.le_succ _, rfl, fun _ => hsame, .inl ⟨rfl, fun _ hn => by cases hn⟩⟩
      · exact ⟨Nat.le_refl _, rfl, fun _ => hsame, .inl ⟨rfl, fun _ => id⟩⟩
  | ready child =>
      rcases h with ⟨rfl, rfl⟩
      refine ⟨Nat.le_refl _, rfl, fun _ => hsame, .inr ⟨child, rfl, fun m hm => ?_, .inr ⟨rfl, hA.1⟩⟩⟩
      cases hm
      rfl
  | dropChild | shutdown =>
      rcases h with ⟨rfl, rfl⟩
      exact ⟨Nat.le_refl _, rfl, fun _ => hsame, .inl ⟨rfl, fun _ hn => by cases hn⟩⟩
  | write worker buffer =>
      rcases h with ⟨rfl, ⟨n, _, rfl⟩ | ⟨_, rfl⟩⟩ <;>
        exact ⟨Nat.le_refl _, rfl, fun _ => hsame, .inl ⟨rfl, fun _ => id⟩⟩
  | nextLine worker deadline =>
      rcases h with ⟨halike, ⟨bytes, _, rfl⟩ | ⟨_, rfl⟩⟩ <;>
        exact ⟨Nat.le_of_eq halike.fresh.symm, rfl, fun w hw => .inl (halike.idle ▸ hw),
          .inl ⟨rfl, fun _ => id⟩⟩
  | park w =>
      rcases h with ⟨rfl, rfl⟩
      refine ⟨Nat.le_refl _, rfl, fun x hx => ?_, .inl ⟨rfl, fun _ hn => by cases hn⟩⟩
      rcases List.mem_cons.mp hx with rfl | hx
      · exact .inr hA.1
      · exact .inl hx
  | pending => exact h.elim
  | _ =>
      rcases h with ⟨halike, rfl⟩
      exact ⟨Nat.le_of_eq halike.fresh.symm, rfl, fun w hw => .inl (halike.idle ▸ hw),
        .inl ⟨rfl, fun _ => id⟩⟩

/-! ### One job -/

theorem bytes_append (l : Run) (x : Nat × List UInt8) :
    ({ l with sent := l.sent ++ [x] } : Run).bytes = l.bytes ++ x.2 := by
  simp only [Run.bytes, List.flatMap_append, List.flatMap_cons, List.flatMap_nil, List.append_nil]

/-- What a write makes of the locals: all of the buffer is delivered, or it ends
    early with something left. -/
theorem writeAll_spec {worker fuel : Nat} {buffer : List UInt8} {request : JobRequest}
    (hfuel : buffer.length ≤ fuel) (hhold : l.hold = .worker worker)
    (hassigned : l.assigned = some worker) (hresult : l.result = none)
    (hrequest : request ∈ l.request) (hsent : ∀ x ∈ l.sent, x.1 = worker)
    (hline : l.bytes ++ buffer = pool.json.line request) :
    (Worker.writeAll worker fuel buffer).run.wp pool.calls.localised pool.Asserts
      (fun r l' => ∃ sent rest, l' = { l with sent := sent } ∧ (∀ x ∈ sent, x.1 = worker) ∧
        l'.bytes ++ rest = pool.json.line request ∧ (r = .ok () ↔ rest = [])) l := by
  induction fuel generalizing l buffer with
  | zero =>
      have hnil : buffer = [] := List.eq_nil_of_length_eq_zero (Nat.le_zero.mp hfuel)
      exact ⟨l.sent, [], rfl, hsent, hnil ▸ hline, fun _ => rfl, fun _ => rfl⟩
  | succ fuel ih =>
      unfold Worker.writeAll
      split
      · rename_i hnil
        exact ⟨l.sent, [], rfl, hsent, hnil ▸ hline, fun _ => rfl, fun _ => rfl⟩
      · rename_i hne
        rw [Prog.wp_run_bind, Prog.wp_attempt]
        refine wp_local ⟨hhold, hassigned, hresult, hsent, request, hrequest, hline⟩ ?_
        rintro s r s' l' ⟨_, ⟨n, rfl, rfl⟩ | ⟨⟨reason, rfl⟩, rfl⟩⟩
        · have hsent' : ∀ x ∈ l.sent ++ [(worker, buffer.take n)], x.1 = worker := by
            intro x hx
            rcases List.mem_append.mp hx with hx | hx
            · exact hsent x hx
            · rw [List.mem_singleton.mp hx]
          have hline' : ({ l with sent := l.sent ++ [(worker, buffer.take n)] } : Run).bytes ++
              buffer.drop n = pool.json.line request := by
            rw [bytes_append, List.append_assoc, List.take_append_drop, hline]
          dsimp only
          split
          · rename_i hzero
            refine ⟨_, buffer, rfl, hsent', ?_, fun hr => (by cases hr), fun hr => absurd hr hne⟩
            rw [hzero, List.drop_zero] at hline'
            exact hzero ▸ hline'
          · rename_i hpos
            have hdrop : (buffer.drop n).length ≤ fuel := by
              have hlen : 0 < buffer.length := List.length_pos_iff.mpr hne
              rw [List.length_drop]
              omega
            refine Prog.wp_mono _ ?_ _ (ih hdrop hhold hassigned hresult hrequest hsent'
              hline')
            rintro r l'' ⟨sent, rest, rfl, hs, hl, hr⟩
            exact ⟨sent, rest, rfl, hs, hl, hr⟩
        · refine ⟨_, buffer, rfl, ?_, ?_, fun hr => (by cases hr), fun hr => absurd hr hne⟩
          · intro x hx
            rcases List.mem_append.mp hx with hx | hx
            · exact hsent x hx
            · rw [List.mem_singleton.mp hx]
          · rw [bytes_append, List.append_nil, hline]

/-- What waiting for a reply leaves of the locals: the lines it read, the last of
    them the reply if there is one. -/
def Awaited (json : Json) (w : Worker) (id : String) (l : Run)
    (r : Except SubmitFailure (JobResponse × Worker)) (l' : Run) : Prop :=
  ∃ new, l' = { l with read := l.read ++ new } ∧
    match r with
    | .ok (response, w') =>
        w'.number = w.number ∧ response.id = some id ∧
          ∃ skipped line, new = skipped ++ [(w.number, line)] ∧
            (∀ x ∈ skipped, ¬ json.Answers id x.2) ∧ json.decodeResponse line = some response
    | .error failure =>
        failure.dispatched = true ∧ Worker.Lost failure.reason ∧
          ∀ x ∈ new, ¬ json.Answers id x.2

/-- A line that is no reply may come first. -/
theorem Awaited.skip {json : Json} {w : Worker} {id : String} {line : List UInt8} {l' : Run}
    {r : Except SubmitFailure (JobResponse × Worker)} (hline : ¬ json.Answers id line)
    (h : Awaited json w id { l with read := l.read ++ [(w.number, line)] } r l') :
    Awaited json w id l r l' := by
  rcases h with ⟨new, rfl, hr⟩
  have hcons : ∀ skipped : List (Nat × List UInt8), (∀ x ∈ skipped, ¬ json.Answers id x.2) →
      ∀ x ∈ (w.number, line) :: skipped, ¬ json.Answers id x.2 :=
    fun skipped hskipped => List.forall_mem_cons.mpr ⟨hline, hskipped⟩
  refine ⟨(w.number, line) :: new, ?_, ?_⟩
  · dsimp only
    rw [List.append_assoc, List.singleton_append]
  · cases r with
    | error failure => exact ⟨hr.1, hr.2.1, hcons new hr.2.2⟩
    | ok reply =>
        rcases hr with ⟨hnumber, hid, skipped, line', rfl, hskipped, hdecode⟩
        exact ⟨hnumber, hid, _, line', rfl, hcons skipped hskipped, hdecode⟩

/-- Waiting for the reply only reads. It ends with the first reply under the id,
    read from the worker, or with a failure that counts as dispatched. -/
theorem awaitResponse_spec (w : Worker) (id : String) (deadline : Option Nat) (fuel : Nat) :
    ∀ l : Run, (Worker.awaitResponse pool.json w id deadline fuel).wp pool.calls.localised
      pool.Asserts
      (Awaited pool.json w id l) l := by
  induction fuel with
  | zero => exact fun l => wp_local trivial fun _ _ _ _ h => h.elim
  | succ fuel ih =>
      intro l
      rw [Worker.awaitResponse, Prog.wp_bind]
      refine wp_local trivial ?_
      have hnone : ∀ x ∈ ([] : List (Nat × List UInt8)), ¬ pool.json.Answers id x.2 :=
        fun x hx => by cases hx
      have hkept : l = { l with read := l.read ++ [] } := by rw [List.append_nil]
      rintro s r s' l' ⟨_, ⟨line, rfl, rfl⟩ | ⟨hno, rfl⟩⟩
      · -- A line that is skipped leaves the rest of the loop to do.
        have hskip (hline : ¬ pool.json.Answers id line) :=
          Prog.wp_mono _ (fun r l' hr => Awaited.skip hline hr) _
            (ih { l with read := l.read ++ [(w.number, line)] })
        dsimp only
        split
        · rename_i hdecode
          refine hskip fun ⟨response, hresponse, _⟩ => ?_
          rw [hdecode] at hresponse
          cases hresponse
        · rename_i response hdecode
          split
          · rename_i hid
            rw [Prog.wp_bind]
            refine wp_local trivial ?_
            rintro t now t' l'' ⟨_, rfl⟩
            exact ⟨_, rfl, rfl, hid, [], line, rfl, hnone, hdecode⟩
          · rename_i hid
            refine hskip fun ⟨response', hresponse, hid'⟩ => ?_
            rw [hdecode] at hresponse
            cases hresponse
            exact hid hid'
      · rcases r with _ | _ | _ | line
        · exact ⟨[], hkept, rfl, .inl rfl, hnone⟩
        · exact ⟨[], hkept, rfl, .inr (.inr (.inl ⟨_, rfl⟩)), hnone⟩
        · exact ⟨[], hkept, rfl, .inr (.inl rfl), hnone⟩
        · exact absurd rfl (hno line)

theorem deadlineAfter_spec (budget : Option Nat) :
    (Worker.deadlineAfter budget).wp pool.calls.localised pool.Asserts
      (fun _ l' => l' = l) l := by
  cases budget with
  | none => rfl
  | some budget =>
      rw [Worker.deadlineAfter, Prog.wp_bind]
      exact wp_local trivial fun _ _ _ _ h => h.2

/-- Nothing read is a reply. -/
theorem not_answered {request : JobRequest} (hrequest : request ∈ l.request)
    (h : ∀ x ∈ l.read, ¬ pool.json.Answers request.id x.2) : ¬ l.Answered pool.json := by
  rintro ⟨request', hrequest', x, hx, _, response, hdecode, hid⟩
  rw [Option.mem_unique hrequest' hrequest] at hid
  exact h x hx ⟨response, hdecode, hid⟩

/-- A reply is an answer. -/
theorem answered_of_reply {response : JobResponse} (h : l.Reply pool.json response) :
    l.Answered pool.json := by
  rcases h with ⟨request, hrequest, worker, skipped, line, _, hsent, _, hread, _, hdecode, hid⟩
  refine ⟨request, hrequest, (worker, line), ?_, hsent, response, hdecode, hid⟩
  rw [hread]
  exact List.mem_append_right _ (List.mem_singleton_self _)

/-- One job on the worker in hand. A failure before the job reached the worker
    has delivered no newline. -/
theorem submit_spec (w : Worker) {request : JobRequest} (hardDeadline : Option Nat)
    (lines : Nat) (hhold : l.hold = .worker w.number) (hassigned : l.assigned = some w.number)
    (hresult : l.result = none) (hrequest : request ∈ l.request) (hsent : l.sent = [])
    (hread : l.read = []) :
    (w.submit pool.json request hardDeadline lines).wp pool.calls.localised pool.Asserts
      (fun r l' => match r with
        | .ok (response, w') => l'.hold = .worker w'.number ∧ l'.Reply pool.json response
        | .error failure => ¬ l'.Answered pool.json ∧
            (failure.dispatched = false → NEWLINE ∉ l'.bytes) ∧
            (failure.dispatched = true → Worker.Lost failure.reason)) l := by
  have hempty : l.bytes = [] := by rw [Run.bytes, hsent, List.flatMap_nil]
  have hunread : ∀ l' : Run, l'.input = l.input → l'.job = l.job → l'.read = l.read →
      ¬ l'.Answered pool.json := by
    intro l' hinput hjob hsame
    refine @not_answered _ _ request ?_ fun x hx => ?_
    · rw [Run.request, hinput, hjob]
      exact hrequest
    · rw [hsame, hread] at hx
      cases hx
  unfold Worker.submit Json.encode
  split
  · rename_i hencode
    refine ⟨hunread l rfl rfl rfl, fun _ => ?_, fun hd => by cases hd⟩
    rw [hempty]
    exact List.not_mem_nil
  · rename_i text hencode
    have htext : text = pool.json.request request := by
      split at hencode
      · cases hencode
      · cases hencode
        rfl
    have hwrite := writeAll_spec (Nat.le_refl (text ++ [NEWLINE]).length) hhold hassigned hresult
      hrequest (by rw [hsent]; exact fun x hx => by cases hx)
      (by rw [hempty, List.nil_append, htext]; rfl)
    rw [Prog.wp_bind]
    refine Prog.wp_mono _ ?_ _ hwrite
    rintro r l₁ ⟨sent, rest, rfl, hs, hline, hr⟩
    have hcount := pool.json.newlines_written request hline
    cases r with
    | error reason =>
        have hrest : rest ≠ [] := fun hnil => by cases hr.mpr hnil
        rw [if_neg hrest] at hcount
        exact ⟨hunread _ rfl rfl rfl, fun _ => List.count_eq_zero.mp hcount,
          fun hd => by cases hd⟩
    | ok u =>
        dsimp only
        rw [Prog.wp_bind]
        refine wp_local trivial ?_
        rintro s r s' l₂ ⟨_, rfl⟩
        cases r with
        | error reason =>
            exact ⟨hunread _ rfl rfl rfl, fun hd => (by cases hd),
              fun _ => .inr (.inr (.inr ⟨reason, rfl⟩))⟩
        | ok u =>
            dsimp only
            rw [Prog.wp_bind]
            refine Prog.wp_mono _ ?_ _ (deadlineAfter_spec hardDeadline)
            rintro deadline l₃ rfl
            refine Prog.wp_mono _ ?_ _
              (awaitResponse_spec w request.id deadline lines { l with sent := sent })
            rintro r l₄ ⟨new, rfl, hr'⟩
            dsimp only at hr' ⊢
            rw [hread, List.nil_append]
            cases r with
            | error failure =>
                refine ⟨not_answered hrequest hr'.2.2, fun hd => ?_, fun _ => hr'.2.1⟩
                rw [hr'.1] at hd
                cases hd
            | ok reply =>
                rcases hr' with ⟨hnumber, hid, skipped, line, rfl, hskipped, hdecode⟩
                have hwhole : rest = [] := hr.mp rfl
                rw [hwhole, List.append_nil] at hline
                refine ⟨by rw [hnumber]; exact hhold, request, hrequest, w.number, skipped, line,
                  hassigned, hs, hline, rfl, hskipped, hdecode, hid⟩

/-! ### Starting a worker -/

theorem attemptAs_spec {α : Type} {text : String} {e : PoolOp (Except String α)}
    {Q : Except String α → Run → Prop} (hA : pool.Asserts _ e l)
    (hok : ∀ s a s' l', e.Answers s l (.ok a) s' l' → Q (.ok a) l')
    (herror : ∀ s reason s' l', e.Answers s l (.error reason) s' l' →
      Q (.error (text ++ reason)) l') :
    (Worker.attemptAs text e).run.wp pool.calls.localised pool.Asserts Q l := by
  rw [Worker.attemptAs, Prog.wp_run_mk, Prog.wp_bind]
  refine wp_local hA ?_
  intro s r s' l' h
  cases r with
  | ok a => exact hok s a s' l' h
  | error reason => exact herror s reason s' l' h

theorem handshake_spec (token : String) :
    (Worker.handshake pool.json pool.launch token).run.wp pool.calls.localised pool.Asserts
      (fun _ l' => l' = l) l := by
  rw [Worker.handshake, Prog.wp_run_bind, Prog.wp_act]
  refine wp_local trivial ?_
  rintro s r s' l' ⟨_, rfl⟩
  rcases r with _ | _ | _
  · rfl
  · rfl
  · dsimp only
    rw [Prog.wp_run_bind, Prog.wp_act]
    refine wp_local trivial ?_
    rintro s line s' l₁ ⟨_, rfl⟩
    dsimp only
    rw [Prog.wp_run_bind, Prog.wp_run_mk, Prog.wp_pure]
    split <;> rfl

/-- A child that was launched stays with the run, whatever becomes of it. -/
theorem connect_spec (hhold : l.hold = .spawning none) :
    (Worker.connect pool.json pool.launch).run.wp pool.calls.localised pool.Asserts
      (fun r l' => match r with
        | .ok child => l' = { l with hold := .spawning (some child) }
        | .error _ => ∃ child, l' = { l with hold := .spawning child }) l := by
  have hnone : ∃ child, l = { l with hold := .spawning child } := ⟨none, by rw [← hhold]⟩
  rw [Worker.connect, Prog.wp_run_bind]
  refine attemptAs_spec trivial ?_ fun _ _ _ _ h => h.2 ▸ hnone
  rintro s _ s' l₁ ⟨_, rfl⟩
  dsimp only
  rw [Prog.wp_run_bind]
  refine attemptAs_spec trivial ?_ fun _ _ _ _ h => h.2 ▸ hnone
  rintro s address s' l₂ ⟨_, rfl⟩
  dsimp only
  rw [Prog.wp_run_bind, Prog.wp_act]
  refine wp_local trivial ?_
  rintro s token s' l₃ ⟨_, rfl⟩
  dsimp only
  split
  · exact hnone
  · rename_i hconfined
    rw [Prog.wp_run_bind]
    refine attemptAs_spec ⟨hhold, address, token, hconfined⟩ ?_ ?_
    · rintro s child s' l₄ (⟨hr, _, rfl⟩ | ⟨⟨reason, hr⟩, _⟩)
      · cases hr
        dsimp only
        rw [Prog.wp_run_bind]
        refine Prog.wp_mono _ ?_ _ (handshake_spec token)
        rintro r l₅ rfl
        cases r with
        | ok u => rfl
        | error reason => exact ⟨_, rfl⟩
      · cases hr
    · rintro s reason s' l₄ (⟨hr, _⟩ | ⟨_, _, rfl⟩)
      · cases hr
      · exact hnone

theorem spawn_spec (hhold : l.hold = .spawning none) (hassigned : l.assigned = none)
    (hsent : l.sent = []) :
    pool.spawn.wp pool.calls.localised pool.Asserts
      (fun r l' => match r with
        | .ok w => l' = { l with hold := .worker w.number, assigned := some w.number }
        | .error e => l' = { l with hold := .nothing } ∧
            ∃ language reason, e = .preDispatch language reason) l := by
  rw [LangPool.spawn, Prog.wp_bind]
  refine wp_local trivial ?_
  rintro s _ s' l₁ ⟨_, rfl⟩
  rw [Prog.wp_bind, Worker.spawn, Prog.wp_bind]
  refine Prog.wp_mono _ ?_ _ (connect_spec hhold)
  intro r l₂ h₂
  cases r with
  | error reason =>
      rcases h₂ with ⟨child, rfl⟩
      dsimp only
      rw [Prog.wp_bind]
      refine wp_local trivial ?_
      rintro s _ s' l₃ ⟨_, rfl⟩
      exact ⟨rfl, _, _, rfl⟩
  | ok child =>
      rcases h₂ with rfl
      dsimp only
      rw [Prog.wp_bind]
      refine wp_local trivial ?_
      rintro s now s' l₃ ⟨_, rfl⟩
      rw [Prog.wp_bind]
      refine wp_local ⟨rfl, hassigned, hsent⟩ ?_
      rintro s _ s' l₄ ⟨_, rfl⟩
      rfl

theorem takeOrSpawn_spec (hpermit : l.permit = true) (hhold : l.hold = .nothing)
    (hassigned : l.assigned = none) (hsent : l.sent = []) :
    pool.takeOrSpawn.wp pool.calls.localised pool.Asserts
      (fun r l' => match r with
        | .ok w => l' = { l with hold := .worker w.number, assigned := some w.number }
        | .error e => l' = l ∧ ∃ language reason, e = .preDispatch language reason) l := by
  rw [LangPool.takeOrSpawn, Prog.wp_bind]
  refine wp_local ⟨hpermit, hhold, hassigned, hsent⟩ ?_
  rintro s r s' l₁ (⟨rfl, _, rfl⟩ | ⟨gone, w, rest, rfl, _, _, rfl⟩)
  · refine Prog.wp_mono _ ?_ _ (spawn_spec rfl hassigned hsent)
    intro r l₂ h₂
    cases r with
    | ok w => exact h₂
    | error e => exact ⟨by rw [h₂.1, ← hhold], h₂.2⟩
  · rfl

/-! ### One run -/

theorem dispatch_spec {request : JobRequest} (hardDeadline : Option Nat) (lines : Nat)
    (hpermit : l.permit = true) (hhold : l.hold = .nothing) (hassigned : l.assigned = none)
    (hsent : l.sent = []) (hread : l.read = []) (hresult : l.result = none)
    (hrequest : request ∈ l.request) :
    (pool.dispatch request hardDeadline lines).wp pool.calls.localised pool.Asserts
      (fun r l' => match r with
        | .ok (response, w) => l'.hold = .worker w.number ∧ l'.Reply pool.json response
        | .error e => (e.isRetryable = true → NEWLINE ∉ l'.bytes) ∧
            ∀ language reason, e = .postDispatch language reason →
              ¬ l'.Answered pool.json ∧ Worker.Lost reason) l := by
  rw [LangPool.dispatch, Prog.wp_bind]
  refine Prog.wp_mono _ ?_ _ (takeOrSpawn_spec hpermit hhold hassigned hsent)
  intro r l₁ h₁
  cases r with
  | error e =>
      rcases h₁ with ⟨rfl, language, reason, rfl⟩
      refine ⟨fun _ => ?_, fun _ _ he => by cases he⟩
      rw [Run.bytes, hsent]
      exact List.not_mem_nil
  | ok w =>
      rcases h₁ with rfl
      dsimp only
      rw [Prog.wp_bind]
      refine Prog.wp_mono _ ?_ _
        (submit_spec w hardDeadline lines rfl rfl hresult hrequest hsent hread)
      intro r l₂ h₂
      cases r with
      | ok reply => exact h₂
      | error failure =>
          rcases h₂ with ⟨hunanswered, hpre, hpost⟩
          dsimp only
          rw [Prog.wp_bind]
          refine wp_local trivial ?_
          rintro s _ s' l₃ ⟨_, rfl⟩
          unfold LangPool.dispatchError
          cases hd : failure.dispatched with
          | false => exact ⟨fun _ => hpre hd, fun _ _ he => by cases he⟩
          | true =>
              refine ⟨fun hretry => (by cases hretry), fun _ _ he => ?_⟩
              cases he
              exact ⟨hunanswered, hpost hd⟩

theorem retireOrPark_spec {w : Worker} (hhold : l.hold = .worker w.number)
    (hanswered : l.Answered pool.json) :
    (pool.retireOrPark w).wp pool.calls.localised pool.Asserts
      (fun _ l' => l' = { l with hold := .nothing }) l := by
  unfold LangPool.retireOrPark
  split
  · exact wp_local trivial fun _ _ _ _ h => h.2
  · rename_i hrecycle
    refine wp_local ⟨hhold, ?_, hanswered⟩ fun _ _ _ _ h => h.2
    simpa only [Bool.not_eq_true] using hrecycle

theorem serve_spec (input : Submission) (queueWait : Nat) (hinput : l.input = input)
    (hpermit : l.permit = true) (hhold : l.hold = .nothing) (hjob : l.job = none)
    (hassigned : l.assigned = none) (hsent : l.sent = []) (hread : l.read = [])
    (hresult : l.result = none) :
    (pool.serve input queueWait).wp pool.calls.localised pool.Asserts
      (fun r l' => Returns r l' ∧ pool.Built r l') l := by
  rw [LangPool.serve, Prog.wp_bind]
  refine wp_local ⟨hjob, hassigned, hsent⟩ ?_
  rintro s number s' l₁ ⟨rfl, _, rfl⟩
  dsimp only
  rw [Prog.wp_bind]
  refine wp_local trivial ?_
  rintro t started t' l₂ ⟨_, rfl⟩
  rw [Prog.wp_bind]
  have hrequest : input.request s.nextJob ∈
      ({ l with job := some s.nextJob } : Run).request := by
    rw [← hinput]
    rfl
  refine Prog.wp_mono _ ?_ _
    (dispatch_spec _ input.lines hpermit hhold hassigned hsent hread hresult hrequest)
  intro r l₃ h₃
  cases r with
  | error e =>
      refine ⟨fun e' he hretry => ?_, fun _ he => (by cases he), fun language reason he => ?_⟩
      · cases he
        exact h₃.1 hretry
      · exact .inr (h₃.2 language reason (Except.error.inj he))
  | ok reply =>
      rcases reply with ⟨response, w⟩
      rcases h₃ with ⟨hhold₃, hreply⟩
      dsimp only
      rw [Prog.wp_bind]
      refine wp_local trivial ?_
      rintro t now t' l₄ ⟨_, rfl⟩
      rw [Prog.wp_bind]
      refine wp_local trivial ?_
      rintro t _ t' l₅ ⟨_, rfl⟩
      rw [Prog.wp_bind]
      refine Prog.wp_mono _ ?_ _ (retireOrPark_spec hhold₃ (answered_of_reply hreply))
      rintro _ l₆ rfl
      split
      · rename_i error herror
        refine ⟨fun e he hretry => ?_, fun _ he => (by cases he), fun language reason he => ?_⟩
        · cases he
          cases hretry
        · cases he
          exact .inl ⟨response, hreply, herror⟩
      · rename_i herror
        refine ⟨fun e he => (by cases he), fun outcome he => ?_, fun _ _ he => by cases he⟩
        cases he
        exact ⟨response, _, _, hreply, herror, rfl⟩

/-- A run meets its assertions, from its call to its return. -/
theorem run_built (pool : LangPool) (input : Submission) :
    (pool.run input).wp pool.calls.localised pool.Asserts
      (fun r l => Returns r l ∧ pool.Built r l) (Run.new input) := by
  have hclean : NEWLINE ∉ (Run.new input).bytes := List.not_mem_nil
  rw [LangPool.run, Prog.wp_bind]
  refine wp_local rfl ?_
  rintro s old s' l₁ ⟨rfl, _, rfl⟩
  dsimp only
  split
  · rw [Prog.wp_bind]
    refine wp_local rfl ?_
    rintro t _ t' l₂ ⟨_, rfl⟩
    rw [Prog.wp_bind]
    refine wp_local trivial ?_
    rintro t _ t' l₃ ⟨_, rfl⟩
    exact ⟨fun _ _ _ => hclean, fun _ he => (by cases he), fun _ _ he => by cases he⟩
  · rw [Prog.wp_bind]
    refine wp_local trivial ?_
    rintro t queuedAt t' l₂ ⟨_, rfl⟩
    rw [Prog.wp_bind]
    refine wp_local rfl ?_
    rintro t granted t' l₃ ⟨rfl, _, _, rfl⟩
    simp only [Bool.true_eq_false, ↓reduceIte]
    rw [Prog.wp_bind]
    refine wp_local trivial ?_
    rintro u now u' l₄ ⟨_, rfl⟩
    exact serve_spec input _ rfl rfl rfl rfl rfl rfl rfl rfl

theorem run_conduct (pool : LangPool) (input : Submission) :
    (pool.run input).wp pool.calls.localised pool.Asserts Returns (Run.new input) :=
  Prog.wp_mono _ (fun _ _ h => h.1) _ (run_built pool input)

end Conduct

end LangPool

end TinyRuntime
