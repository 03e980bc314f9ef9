import TinyRuntime.Pool.Protocol
import TinyRuntime.Lib.Concurrent

/-!
# Pool State and Effects

What the runs of one language pool share, what each of them owns, and the
effects their code performs.

`Pool` has the mutable fields of the source's struct. A worker is known by the
number of its child, so two spawns of one launch are two workers. The idle list
is kept with its top first: `push` and `pop` are at the head. `fresh` counts the
children launched and `seen` is the last reading of the clock, in nanoseconds.

`Run` is what one call of `run` owns: whether it is counted in flight, its
permit, and the worker or half-spawned child in its hands (`Hold`), which is
killed when the run is dropped. `assigned` is the worker it was handed, parked or
new. `sent` and `read` are its traffic: every write on a worker with the bytes it
accepted, and every line read. No code reads these three.

An idle worker may die, a write may accept any part of its buffer, and any line
may come at any time: these are choices of the outside.

## Main definitions

* `Launch`, `SpawnSpec`, `Spawner`: What a worker is started from.
* `Worker`, `Hold`, `Pool`, `Submission`, `Run`: The state.
* `PoolOp`, `PoolChoice`, `PoolOp.respond`: The effects and their answers.
* `PoolOp.Answers`: The same as a relation.
* `Run.release`: What dropping the locals of a run does.

## Theorems

* `PoolOp.answers_of_respond`: What each effect can answer and change.
-/

namespace TinyRuntime

/-- A process to start, as data. -/
structure SpawnSpec where
  program : String
  args : List String
  env : List (String × String)
  clearEnv : Bool
deriving DecidableEq, Repr

/-- Decides how a process is confined before it is started. -/
structure Spawner where
  id : String
  confine : SpawnSpec → Except String SpawnSpec

/-- Everything needed to spawn a worker for one language. -/
structure Launch where
  language : Language
  binary : String
  args : List String
  env : List (String × String)
  protocolVersion : Nat
  handshakeTimeout : Nat
  spawner : Option Spawner

/-- A warm interpreter child and its bookkeeping. -/
structure Worker where
  number : Nat
  jobsDone : Nat
  lastUsed : Nat
deriving DecidableEq, Repr

/-- Whether a worker has served its job budget. A budget of zero disables
    recycling. -/
def Worker.shouldRecycle (w : Worker) (budget : Nat) : Bool :=
  0 < budget && budget ≤ w.jobsDone

/-- Whether a worker has been parked for at least `ttl`. -/
def Worker.idleExpired (w : Worker) (now ttl : Nat) : Bool :=
  ttl ≤ now - w.lastUsed

/-- The shared state of a pool. -/
structure Pool where
  permits : Nat
  idle : List Worker
  inflight : Nat
  nextJob : Nat
  jobsTotal : Nat
  workerSpawns : Nat
  rejected : Nat
  fresh : Nat
  seen : Nat

def Pool.new (permits : Nat) : Pool :=
  { permits := permits, idle := [], inflight := 0, nextJob := 0, jobsTotal := 0
    workerSpawns := 0, rejected := 0, fresh := 0, seen := 0 }

/-- The arguments of one run. `lines` bounds the lines its reply loop reads
    before it waits forever; any history has such a bound. -/
structure Submission where
  code : String
  cwd : Option String
  timeout : Option Nat
  lines : Nat

/-- The worker in the hands of a run. -/
inductive Hold
  | nothing
  /-- Inside the spawn, with its child once there is one. -/
  | spawning (child : Option Nat)
  | worker (number : Nat)
deriving DecidableEq, Repr

/-- The locals of one run. `entered` is what the in-flight counter showed. -/
structure Run where
  input : Submission
  entered : Option Nat
  permit : Bool
  job : Option Nat
  hold : Hold
  assigned : Option Nat
  sent : List (Nat × List UInt8)
  read : List (Nat × List UInt8)
  result : Option (Except Error ExecResponse)

def Run.new (input : Submission) : Run :=
  { input := input, entered := none, permit := false, job := none, hold := .nothing
    assigned := none, sent := [], read := [], result := none }

/-- What a read on a socket yields: a line, its end, an error, or nothing before
    the deadline. -/
abbrev LineRead := Option (Except String (Option (List UInt8)))

/-- The effects of the pool's code. -/
inductive PoolOp : Type → Type
  /-- `Instant::now()`. -/
  | now : PoolOp Nat
  /-- `inflight.fetch_add(1)`. -/
  | enter : PoolOp Nat
  /-- `inflight.fetch_sub(1)` of a refused submission. -/
  | leave : PoolOp Unit
  /-- `rejected.fetch_add(1)`. -/
  | reject : PoolOp Unit
  /-- `permits.acquire()`; false when the semaphore is closed. -/
  | acquire : PoolOp Bool
  /-- `next_job.fetch_add(1)`. -/
  | nextJob : PoolOp Nat
  /-- The part of `take_or_spawn` under the idle lock. -/
  | takeIdle (ttl : Option Nat) : PoolOp (Option Worker)
  /-- `worker_spawns.fetch_add(1)`. -/
  | countSpawn : PoolOp Unit
  /-- `TcpListener::bind`. -/
  | bind : PoolOp (Except String Unit)
  | localAddr : PoolOp (Except String String)
  /-- `Uuid::new_v4()`. -/
  | newToken : PoolOp String
  /-- `Command::spawn`, with the number of the new child. -/
  | launch (spec : SpawnSpec) : PoolOp (Except String Nat)
  /-- `listener.accept()` under a timeout. -/
  | accept (budget : Nat) : PoolOp (Option (Except String Unit))
  /-- The first line of the child under a timeout. -/
  | readHandshake (budget : Nat) : PoolOp LineRead
  /-- The spawned child becomes a worker. -/
  | ready (child : Nat) : PoolOp Unit
  /-- The locals of a failed spawn are dropped. -/
  | dropChild : PoolOp Unit
  /-- One `poll_write` of a buffer: how many of its bytes were accepted. -/
  | write (worker : Nat) (buffer : List UInt8) : PoolOp (Except String Nat)
  | flush (worker : Nat) : PoolOp (Except String Unit)
  /-- `next_line`, no later than a deadline. -/
  | nextLine (worker : Nat) (deadline : Option Nat) : PoolOp LineRead
  /-- `jobs_total.fetch_add(1)`. -/
  | countJob : PoolOp Unit
  /-- `idle.lock().await.push(worker)`. -/
  | park (w : Worker) : PoolOp Unit
  /-- `worker.shutdown()`. -/
  | shutdown (worker : Nat) : PoolOp Unit
  /-- Waiting for what never comes. -/
  | pending : PoolOp Empty

/-- The effects at which the future of a run can be dropped. -/
def PoolOp.suspends : ∀ β, PoolOp β → Bool
  | _, .acquire => true
  | _, .takeIdle _ => true
  | _, .bind => true
  | _, .accept _ => true
  | _, .readHandshake _ => true
  | _, .write _ _ => true
  | _, .flush _ => true
  | _, .nextLine _ _ => true
  | _, .park _ => true
  | _, .pending => true
  | _, _ => false

/-- What the outside decides when an effect is answered. -/
inductive PoolChoice
  /-- Nothing to decide. -/
  | pass
  | time (t : Nat)
  | text (s : String)
  | failed (reason : String)
  /-- How many bytes a write accepts. -/
  | accepted (n : Nat)
  | line (bytes : List UInt8)
  /-- The end of a stream. -/
  | ended
  /-- For each idle worker looked at, the clock and whether its child has
      exited. -/
  | checks (readings : List (Nat × Bool))

/-- Pop idle workers until one is neither expired nor dead; what is left. -/
def takeIdle (ttl : Option Nat) :
    List (Nat × Bool) → List Worker → Option (Option Worker × List Worker)
  | _, [] => some (none, [])
  | [], _ :: _ => none
  | (now, exited) :: readings, w :: idle =>
      if ttl.any (w.idleExpired now) then takeIdle ttl readings idle
      else if exited then takeIdle ttl readings idle
      else some (some w, idle)

/-- The idle workers a pass of the reaper keeps. -/
def reap (ttl : Nat) : List (Nat × Bool) → List Worker → Option (List Worker)
  | _, [] => some []
  | [], _ :: _ => none
  | (now, _) :: readings, w :: idle =>
      (reap ttl readings idle).map fun kept =>
        if w.idleExpired now ttl then kept else w :: kept

/-- The answer of an effect under a choice, and what it changes. -/
def PoolOp.respond {β : Type} (op : PoolOp β) (w : Pool × Run) (c : PoolChoice) :
    Option (β × Pool × Run) :=
  let (s, l) := w
  match op with
  | .now =>
      match c with
      | .time t => if s.seen ≤ t then some (t, { s with seen := t }, l) else none
      | _ => none
  | .enter =>
      some (s.inflight, { s with inflight := s.inflight + 1 },
        { l with entered := some s.inflight })
  | .leave => some ((), { s with inflight := s.inflight - 1 }, { l with entered := none })
  | .reject => some ((), { s with rejected := s.rejected + 1 }, l)
  | .acquire =>
      if 0 < s.permits then
        some (true, { s with permits := s.permits - 1 }, { l with permit := true })
      else none
  | .nextJob =>
      some (s.nextJob, { s with nextJob := s.nextJob + 1 }, { l with job := some s.nextJob })
  | .takeIdle ttl =>
      match c with
      | .checks readings =>
          match TinyRuntime.takeIdle ttl readings s.idle with
          | none => none
          | some (none, rest) =>
              some (none, { s with idle := rest }, { l with hold := .spawning none })
          | some (some w, rest) =>
              some (some w, { s with idle := rest },
                { l with hold := .worker w.number, assigned := some w.number })
      | _ => none
  | .countSpawn => some ((), { s with workerSpawns := s.workerSpawns + 1 }, l)
  | .bind | .flush _ =>
      match c with
      | .pass => some (.ok (), s, l)
      | .failed reason => some (.error reason, s, l)
      | _ => none
  | .localAddr =>
      match c with
      | .text address => some (.ok address, s, l)
      | .failed reason => some (.error reason, s, l)
      | _ => none
  | .newToken =>
      match c with
      | .text token => some (token, s, l)
      | _ => none
  | .launch _ =>
      match c with
      | .pass =>
          some (.ok s.fresh, { s with fresh := s.fresh + 1 },
            { l with hold := .spawning (some s.fresh) })
      | .failed reason => some (.error reason, s, l)
      | _ => none
  | .accept budget =>
      match c with
      | .pass => some (some (.ok ()), s, l)
      | .failed reason => some (some (.error reason), s, l)
      | .time t => if s.seen + budget ≤ t then some (none, { s with seen := t }, l) else none
      | _ => none
  | .readHandshake budget =>
      match c with
      | .line bytes => some (some (.ok (some bytes)), s, l)
      | .ended => some (some (.ok none), s, l)
      | .failed reason => some (some (.error reason), s, l)
      | .time t => if s.seen + budget ≤ t then some (none, { s with seen := t }, l) else none
      | _ => none
  | .ready child => some ((), s, { l with hold := .worker child, assigned := some child })
  | .dropChild => some ((), s, { l with hold := .nothing })
  | .write worker buffer =>
      match c with
      | .accepted n =>
          if n ≤ buffer.length then
            some (.ok n, s, { l with sent := l.sent ++ [(worker, buffer.take n)] })
          else none
      | .failed reason => some (.error reason, s, { l with sent := l.sent ++ [(worker, [])] })
      | _ => none
  | .nextLine worker deadline =>
      match c with
      | .line bytes => some (some (.ok (some bytes)), s, { l with read := l.read ++ [(worker, bytes)] })
      | .ended => some (some (.ok none), s, l)
      | .failed reason => some (some (.error reason), s, l)
      | .time t =>
          if s.seen ≤ t ∧ deadline.any (· ≤ t) then some (none, { s with seen := t }, l) else none
      | _ => none
  | .countJob => some ((), { s with jobsTotal := s.jobsTotal + 1 }, l)
  | .park w => some ((), { s with idle := w :: s.idle }, { l with hold := .nothing })
  | .shutdown _ => some ((), s, { l with hold := .nothing })
  | .pending => none

/-- Dropping the locals of an ended run, one at a time: what it holds, its
    permit, its in-flight guard. -/
def Run.release (w : Pool × Run) : Option (Pool × Run) :=
  let (s, l) := w
  if l.hold ≠ .nothing then some (s, { l with hold := .nothing })
  else if l.permit then some ({ s with permits := s.permits + 1 }, { l with permit := false })
  else if l.entered.isSome then
    some ({ s with inflight := s.inflight - 1 }, { l with entered := none })
  else none

/-! ## What an effect can do -/

/-- Nothing that bounds the pool has changed. -/
structure Pool.Alike (s s' : Pool) : Prop where
  permits : s'.permits = s.permits
  idle : s'.idle = s.idle
  inflight : s'.inflight = s.inflight
  nextJob : s'.nextJob = s.nextJob
  fresh : s'.fresh = s.fresh

/-- What an effect can answer and change, over all choices. -/
def PoolOp.Answers {β : Type} (op : PoolOp β) (s : Pool) (l : Run) (b : β) (s' : Pool)
    (l' : Run) : Prop :=
  match op with
  | .enter =>
      b = s.inflight ∧ s' = { s with inflight := s.inflight + 1 } ∧
        l' = { l with entered := some s.inflight }
  | .leave => s' = { s with inflight := s.inflight - 1 } ∧ l' = { l with entered := none }
  | .acquire =>
      b = true ∧ 0 < s.permits ∧ s' = { s with permits := s.permits - 1 } ∧
        l' = { l with permit := true }
  | .nextJob =>
      b = s.nextJob ∧ s' = { s with nextJob := s.nextJob + 1 } ∧
        l' = { l with job := some s.nextJob }
  | .takeIdle _ =>
      b = none ∧ s' = { s with idle := [] } ∧ l' = { l with hold := .spawning none } ∨
        ∃ gone w rest, b = some w ∧ s.idle = gone ++ w :: rest ∧ s' = { s with idle := rest } ∧
          l' = { l with hold := .worker w.number, assigned := some w.number }
  | .launch _ =>
      b = .ok s.fresh ∧ s' = { s with fresh := s.fresh + 1 } ∧
          l' = { l with hold := .spawning (some s.fresh) } ∨
        (∃ reason, b = .error reason) ∧ s' = s ∧ l' = l
  | .ready child => s' = s ∧ l' = { l with hold := .worker child, assigned := some child }
  | .dropChild | .shutdown _ => s' = s ∧ l' = { l with hold := .nothing }
  | .write worker buffer =>
      s' = s ∧ ((∃ n, b = .ok n ∧ l' = { l with sent := l.sent ++ [(worker, buffer.take n)] }) ∨
        (∃ reason, b = .error reason) ∧ l' = { l with sent := l.sent ++ [(worker, [])] })
  | .nextLine worker _ =>
      s.Alike s' ∧
        ((∃ bytes, b = some (.ok (some bytes)) ∧
            l' = { l with read := l.read ++ [(worker, bytes)] }) ∨
          (∀ bytes, b ≠ some (.ok (some bytes))) ∧ l' = l)
  | .park w => s' = { s with idle := w :: s.idle } ∧ l' = { l with hold := .nothing }
  | .pending => False
  | _ => s.Alike s' ∧ l' = l

/-- The workers popped before the one taken are gone, the rest stays. -/
theorem takeIdle_spec {ttl : Option Nat} {readings : List (Nat × Bool)}
    {idle rest : List Worker} {taken : Option Worker}
    (h : takeIdle ttl readings idle = some (taken, rest)) :
    taken = none ∧ rest = [] ∨ ∃ gone w, taken = some w ∧ idle = gone ++ w :: rest := by
  induction idle generalizing readings with
  | nil =>
      rw [takeIdle] at h
      cases h
      exact .inl ⟨rfl, rfl⟩
  | cons w idle ih =>
      cases readings with
      | nil => cases h
      | cons r readings =>
          have hgone (hrest : takeIdle ttl readings idle = some (taken, rest)) :
              taken = none ∧ rest = [] ∨ ∃ gone w', taken = some w' ∧
                w :: idle = gone ++ w' :: rest := by
            rcases ih hrest with hnone | ⟨gone, w', ht, hidle⟩
            · exact .inl hnone
            · exact .inr ⟨w :: gone, w', ht, by rw [hidle, List.cons_append]⟩
          rw [takeIdle] at h
          split at h
          · exact hgone h
          · split at h
            · exact hgone h
            · cases h
              exact .inr ⟨[], w, rfl, rfl⟩

theorem reap_sublist {ttl : Nat} {readings : List (Nat × Bool)} {idle kept : List Worker}
    (h : reap ttl readings idle = some kept) : kept.Sublist idle := by
  induction idle generalizing readings kept with
  | nil =>
      rw [reap] at h
      cases h
      exact List.Sublist.refl _
  | cons w idle ih =>
      cases readings with
      | nil => cases h
      | cons r readings =>
          rcases Option.map_eq_some_iff.mp h with ⟨kept', hkept, rfl⟩
          split
          · exact (ih hkept).cons w
          · exact (ih hkept).cons_cons w

/-- Only the launch of a child leaves one in the hands of a spawn. -/
theorem PoolOp.Answers.spawned {β : Type} {op : PoolOp β} {s s' : Pool} {l l' : Run} {b : β}
    {child : Nat} (h : op.Answers s l b s' l') (hafter : l'.hold = .spawning (some child))
    (hne : l.hold ≠ l'.hold) :
    ∃ spec, (⟨β, op⟩ : Sigma PoolOp) = ⟨_, .launch spec⟩ ∧ child = s.fresh ∧
      s' = { s with fresh := s.fresh + 1 } ∧ l' = { l with hold := .spawning (some child) } := by
  cases op with
  | launch spec =>
      rcases h with ⟨_, rfl, rfl⟩ | ⟨_, _, rfl⟩
      · cases hafter
        exact ⟨spec, rfl, rfl, rfl, rfl⟩
      · exact absurd rfl hne
  | enter | nextJob => exact absurd (h.2.2 ▸ rfl) hne
  | acquire => exact absurd (h.2.2.2 ▸ rfl) hne
  | leave => exact absurd (h.2 ▸ rfl) hne
  | takeIdle ttl =>
      rcases h with ⟨_, _, rfl⟩ | ⟨_, w, _, _, _, _, rfl⟩
      · cases hafter
      · cases hafter
  | ready | dropChild | shutdown | park =>
      rcases h with ⟨_, rfl⟩
      cases hafter
  | write worker buffer =>
      rcases h with ⟨_, ⟨_, _, rfl⟩ | ⟨_, rfl⟩⟩
      · exact absurd rfl hne
      · exact absurd rfl hne
  | nextLine worker deadline =>
      rcases h with ⟨_, ⟨_, _, rfl⟩ | ⟨_, rfl⟩⟩
      · exact absurd rfl hne
      · exact absurd rfl hne
  | pending => exact h.elim
  | _ =>
      rcases h with ⟨_, rfl⟩
      exact absurd rfl hne

theorem PoolOp.answers_of_respond {β : Type} {op : PoolOp β} {s s' : Pool} {l l' : Run}
    {c : PoolChoice} {b : β} (h : op.respond (s, l) c = some (b, s', l')) :
    op.Answers s l b s' l' := by
  have halike : ∀ t, s.Alike { s with seen := t } := fun t => ⟨rfl, rfl, rfl, rfl, rfl⟩
  cases op with
  | enter | nextJob =>
      cases h
      exact ⟨rfl, rfl, rfl⟩
  | leave | ready | dropChild | shutdown | park =>
      cases h
      exact ⟨rfl, rfl⟩
  | reject | countSpawn | countJob =>
      cases h
      exact ⟨⟨rfl, rfl, rfl, rfl, rfl⟩, rfl⟩
  | pending => cases h
  | acquire =>
      simp only [respond] at h
      split at h
      · cases h
        exact ⟨rfl, ‹_›, rfl, rfl⟩
      · cases h
  | takeIdle ttl =>
      simp only [respond] at h
      split at h
      · split at h
        · cases h
        · rename_i hidle
          cases h
          rcases takeIdle_spec hidle with ⟨_, rfl⟩ | ⟨gone, w, ht, _⟩
          · exact .inl ⟨rfl, rfl, rfl⟩
          · cases ht
        · rename_i w rest hidle
          cases h
          rcases takeIdle_spec hidle with ⟨ht, _⟩ | ⟨gone, w', ht, hsplit⟩
          · cases ht
          · cases ht
            exact .inr ⟨gone, w, rest, rfl, hsplit, rfl, rfl⟩
      · cases h
  | launch spec =>
      cases c with
      | pass =>
          cases h
          exact .inl ⟨rfl, rfl, rfl⟩
      | failed reason =>
          cases h
          exact .inr ⟨⟨reason, rfl⟩, rfl, rfl⟩
      | _ => cases h
  | write worker buffer =>
      cases c with
      | accepted n =>
          simp only [respond] at h
          split at h
          · cases h
            exact ⟨rfl, .inl ⟨n, rfl, rfl⟩⟩
          · cases h
      | failed reason =>
          cases h
          exact ⟨rfl, .inr ⟨⟨reason, rfl⟩, rfl⟩⟩
      | _ => cases h
  | nextLine worker deadline =>
      cases c with
      | line bytes =>
          cases h
          exact ⟨halike s.seen, .inl ⟨bytes, rfl, rfl⟩⟩
      | ended | failed reason =>
          cases h
          exact ⟨halike s.seen, .inr ⟨fun bytes hb => (by cases hb), rfl⟩⟩
      | time t =>
          simp only [respond] at h
          split at h
          · cases h
            exact ⟨halike t, .inr ⟨fun bytes hb => (by cases hb), rfl⟩⟩
          · cases h
      | _ => cases h
  | now | accept | readHandshake =>
      cases c with
      | time t =>
          simp only [respond] at h
          split at h
          · cases h
            exact ⟨halike _, rfl⟩
          · cases h
      | _ => first | (cases h; exact ⟨halike s.seen, rfl⟩) | cases h
  | bind | flush | localAddr | newToken =>
      cases c <;> first | (cases h; exact ⟨halike s.seen, rfl⟩) | cases h

end TinyRuntime
