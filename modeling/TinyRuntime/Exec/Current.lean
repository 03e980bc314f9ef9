import TinyRuntime.Exec.Torn

/-!
# Calls and the Toolchain They Obtained

Whether a call is answered from what it obtained itself: its harness, its runtime.

The registry compares a launch by its fingerprint, and that determines the binary, the
arguments and the environment (`fingerprint_injective`). The source of the harness is
not in it and the version of the runtime is not either, so a warm worker may have
read an older source and a pool may report an older version (`served_superseded`).

Those two, and the path of the script where another argument stands in for it, are all
that is missing. Along every sequence of calls in which a call that finds a live pool
for its fingerprint has the pool's version and script, and the parked workers have
read the source it obtained, every call is served by what it obtained
(`served_current`).

## Main definitions

* `Execute.Served`: A call served by what it obtained.
* `unchanged`: A live pool is found only by calls that obtained the same.
* `Current`: The invariant.

## Theorems

* `current_joint`: The invariant is a joint one.
* `served_current`: Every call, if what is left out of the fingerprint is the same.
* `served_superseded`: A new source under a warm worker.
-/

namespace TinyRuntime

open Concurrent (tally tally_cons tally_perm)

/-- A child of a pool has read its script. -/
def Executing.Read (s : Executing) (i n : Nat) (bytes : List UInt8) : Prop :=
  ∃ b ∈ s.boots, b.pool = i ∧ b.child = n ∧ b.source = some bytes

/-- A child was started as a launch says. -/
def Boot.Started (launch : Launch) (b : Boot) : Prop :=
  ∃ address token spec, confine launch.spawner (Worker.spec launch address token) = .ok spec ∧
    b.spec = some spec

/-- The worker a call was handed was started from what the call obtained and has read its
    harness, and the version of its outcome is the one it resolved. -/
def Execute.Served (engine : Engine) (s : Executing) (l : Execute) : Prop :=
  (∀ i pool n, l.client.pool = some (i, pool) → l.client.run.assigned = some n →
    ∃ launch version h b, l.Obtained engine launch version ∧ l.harness = some h ∧ b ∈ s.boots ∧
      b.pool = i ∧ b.child = n ∧ b.Started launch ∧ b.source = some h.bytes) ∧
  ∀ outcome, l.client.run.result = some (.ok outcome) →
    ∃ launch, l.Obtained engine launch outcome.runtimeVersion

/-- One call after the other, and a call that finds a live pool for its fingerprint obtained
    what that pool has: its version, its script, and the source its parked workers read. -/
def unchanged (engine : Engine) :
    Concurrent.Limits ExecOp Executing Execute ExecRequest ExecChoice where
  calls _ ls _ := ∀ l ∈ ls, l.ended = true
  drops _ _ _ _ := True
  performs _ op s l _ :=
    match op with
    | .inr (.inl (.ensure launch settings version)) => ∀ i p origin h,
        s.pools.current launch.language (poolFingerprint engine.printable launch settings) =
          some (i, p) →
        s.origins[i]? = some origin → l.harness = some h →
        p.pool.runtimeVersion = version ∧ l.script = some origin.script ∧
          ∀ w ∈ p.state.idle, s.Read i w.number h.bytes
    | _ => True

/-! ## The invariant -/

/-- What a fingerprint determines. -/
structure Launch.Same (launch launch' : Launch) : Prop where
  binary : launch.binary = launch'.binary
  args : launch.args = launch'.args
  env : launch.env = launch'.env
  spawner : launch.spawner = launch'.spawner

/-- A call that has not ended. -/
def Execute.running (l : Execute) : Nat :=
  if l.ended then 0 else 1

/-- What stays true of a call, once it was given a pool. -/
structure Execute.Fits (engine : Engine) (s : Executing) (l : Execute) : Prop where
  given : ∀ i pool, l.client.pool = some (i, pool) → l.writing = none ∧
    (∃ p, s.pools.built[i]? = some p ∧ p.pool = pool) ∧
    ∃ launch, l.Obtained engine launch pool.runtimeVersion ∧ pool.launch.Same launch
  worker : ∀ i pool n h, l.client.pool = some (i, pool) → l.client.run.assigned = some n →
    l.harness = some h → s.Read i n h.bytes
  result : ∀ outcome, l.client.run.result = some (.ok outcome) →
    ∃ i pool, l.client.pool = some (i, pool) ∧ outcome.runtimeVersion = pool.runtimeVersion

/-- What is true while a call runs: its script is on disk, and who runs the script of its
    pool has read it or is about to. -/
structure Execute.Runs (engine : Engine) (s : Executing) (l : Execute) : Prop where
  writing : ∀ w, l.writing = some w → l.script = none ∧ w.Begun ∧
    (∃ h, l.harness = some h ∧ w.contents = h.bytes) ∧
    (w.opened = true → s.files (engine.locate w.path) = some (w.contents.take w.offset))
  script : ∀ path, l.script = some path →
    ∃ h, l.harness = some h ∧ s.files (engine.locate path) = some h.bytes
  parked : ∀ i pool p h, l.client.pool = some (i, pool) → s.pools.built[i]? = some p →
    l.harness = some h → ∀ w ∈ p.state.idle, s.Read i w.number h.bytes
  path : ∀ i pool origin, l.client.pool = some (i, pool) → s.origins[i]? = some origin →
    l.script = some origin.script
  spawning : ∀ i pool n h path, l.client.pool = some (i, pool) →
    l.client.run.hold = .spawning (some n) → l.harness = some h → l.script = some path →
    ∃ b ∈ s.boots, b.pool = i ∧ b.child = n ∧ b.file = engine.locate path ∧
      (b.source = none ∨ b.source = some h.bytes)
  holding : ∀ n, l.client.run.hold = .worker n → l.client.run.assigned = some n

/-- What is known of the pools and their children, and of the calls. -/
structure Current (engine : Engine) (s : Executing) (ls : List Execute) : Prop where
  alone : tally Execute.running ls ≤ 1
  aligned : s.origins.length = s.pools.built.length
  entries : ∀ language entry, s.pools.live language = some entry →
    ∃ p, s.pools.built[entry.pool]? = some p ∧ p.pool.launch.language = language ∧
      p.pool.launch.spawner = engine.spawner ∧
      entry.fingerprint = poolFingerprint engine.printable p.pool.launch p.pool.settings
  keys : (s.boots.map fun b => (b.pool, b.child)).Nodup
  started : ∀ b ∈ s.boots, ∃ p, s.pools.built[b.pool]? = some p ∧ b.child < p.state.fresh ∧
    b.Started p.pool.launch
  fits : ∀ l ∈ ls, l.Fits engine s
  runs : ∀ l ∈ ls, l.ended = false → l.Runs engine s

/-! ### What a step keeps -/

/-- The children and the pools after a step: nothing is forgotten. -/
structure Executing.Grown (s s' : Executing) : Prop where
  boots : ∀ b ∈ s.boots, ∃ b' ∈ s'.boots, b'.pool = b.pool ∧ b'.child = b.child ∧
    b'.file = b.file ∧ b'.source = b.source
  built : ∀ (i : Nat) (p : Pooled), s.pools.built[i]? = some p →
    ∃ p' : Pooled, s'.pools.built[i]? = some p' ∧
      p'.pool = p.pool ∧ p.state.fresh ≤ p'.state.fresh

section Steps

variable {engine : Engine} {s s' : Executing} {l l' : Execute} {ls : List Execute}

theorem Executing.Grown.read {i n : Nat} {bytes : List UInt8} (h : s.Grown s')
    (hread : s.Read i n bytes) : s'.Read i n bytes := by
  rcases hread with ⟨b, hb, hpool, hchild, hsource⟩
  rcases h.boots b hb with ⟨b', hb', hpool', hchild', _, hsource'⟩
  exact ⟨b', hb', hpool'.trans hpool, hchild'.trans hchild, hsource'.trans hsource⟩

theorem Executing.Grown.refl (s : Executing) : s.Grown s where
  boots b hb := ⟨b, hb, rfl, rfl, rfl, rfl⟩
  built _ p hp := ⟨p, hp, rfl, Nat.le_refl _⟩

theorem Execute.Fits.grown (hs : s.Grown s') (h : l.Fits engine s) : l.Fits engine s' where
  given i pool hpool := by
    rcases h.given i pool hpool with ⟨hwriting, ⟨p, hp, rfl⟩, hlaunch⟩
    rcases hs.built i p hp with ⟨p', hp', hsame, _⟩
    exact ⟨hwriting, ⟨p', hp', hsame⟩, hlaunch⟩
  worker i pool n x hpool hn hx := hs.read (h.worker i pool n x hpool hn hx)
  result := h.result

/-- A call that was not given a pool. -/
theorem Execute.Fits.none (hpool : l.client.pool = none) (hresult : l.client.run.result = none) :
    l.Fits engine s where
  given i pool hi := by
    rw [hpool] at hi
    cases hi
  worker i pool n h hi := by
    rw [hpool] at hi
    cases hi
  result outcome ho := by
    rw [hresult] at ho
    cases ho

/-- A running call keeps what it has while others are dropped or a reaper passes. -/
theorem Execute.Runs.grown (hs : s.Grown s') (hfiles : s'.files = s.files)
    (horigins : s'.origins = s.origins)
    (hidle : ∀ (i : Nat) (p' : Pooled), s'.pools.built[i]? = some p' →
      ∃ p : Pooled, s.pools.built[i]? = some p ∧ ∀ w ∈ p'.state.idle, w ∈ p.state.idle)
    (h : l.Runs engine s) : l.Runs engine s' where
  writing := hfiles ▸ h.writing
  script := hfiles ▸ h.script
  parked i pool p' x hpool hp' hx w hw := by
    rcases hidle i p' hp' with ⟨p, hp, hsub⟩
    exact hs.read (h.parked i pool p x hpool hp hx w (hsub w hw))
  path := horigins ▸ h.path
  spawning i pool n x path hpool hhold hx hpath := by
    rcases h.spawning i pool n x path hpool hhold hx hpath with ⟨b, hb, rfl, rfl, hfile, hsource⟩
    rcases hs.boots b hb with ⟨b', hb', hpool', hchild', hfile', hsource'⟩
    exact ⟨b', hb', hpool', hchild', hfile'.trans hfile, hsource' ▸ hsource⟩
  holding := h.holding

namespace Current

theorem perm {ls' : List Execute} (hp : ls.Perm ls') (h : Current engine s ls) :
    Current engine s ls' where
  alone := tally_perm Execute.running hp ▸ h.alone
  aligned := h.aligned
  entries := h.entries
  keys := h.keys
  started := h.started
  fits l hl := h.fits l (hp.mem_iff.mpr hl)
  runs l hl := h.runs l (hp.mem_iff.mpr hl)

/-- While a call runs, every other one has ended. -/
theorem others (h : Current engine s (l :: ls)) (hl : l.ended = false) :
    ∀ x ∈ ls, x.ended = true := by
  intro x hx
  have hcount := h.alone
  have hle := @Concurrent.le_tally _ Execute.running x ls hx
  rw [tally_cons, Execute.running, hl] at hcount
  by_contra hno
  rw [Bool.not_eq_true] at hno
  rw [Execute.running, hno] at hle
  simp only [Bool.false_eq_true, ↓reduceIte] at hcount hle
  omega

/-- The call that runs moves. -/
theorem moved (h : Current engine s (l :: ls)) (hl : l.ended = false) (hl' : l'.ended = false)
    (hgrown : s.Grown s') (haligned : s'.origins.length = s'.pools.built.length)
    (hentries : ∀ language entry, s'.pools.live language = some entry →
      ∃ p, s'.pools.built[entry.pool]? = some p ∧ p.pool.launch.language = language ∧
        p.pool.launch.spawner = engine.spawner ∧
        entry.fingerprint = poolFingerprint engine.printable p.pool.launch p.pool.settings)
    (hkeys : (s'.boots.map fun b => (b.pool, b.child)).Nodup)
    (hstarted : ∀ b ∈ s'.boots, ∃ p, s'.pools.built[b.pool]? = some p ∧
      b.child < p.state.fresh ∧ b.Started p.pool.launch)
    (hfits : l'.Fits engine s') (hruns : l'.Runs engine s') : Current engine s' (l' :: ls) where
  alone := by
    have hcount := h.alone
    rw [tally_cons, Execute.running, hl] at hcount
    rw [tally_cons, Execute.running, hl']
    exact hcount
  aligned := haligned
  entries := hentries
  keys := hkeys
  started := hstarted
  fits := List.forall_mem_cons.mpr ⟨hfits,
    fun x hx => (h.fits x (List.mem_cons_of_mem _ hx)).grown hgrown⟩
  runs := List.forall_mem_cons.mpr ⟨fun _ => hruns, fun x hx hno => by
    rw [h.others hl x hx] at hno
    cases hno⟩

/-- It moves beside the pools. -/
theorem engine_moved (h : Current engine s (l :: ls)) (hl : l.ended = false)
    (hl' : l'.ended = false) (hpools : s'.pools = s.pools) (horigins : s'.origins = s.origins)
    (hboots : s'.boots = s.boots) (hfits : l'.Fits engine s') (hruns : l'.Runs engine s') :
    Current engine s' (l' :: ls) := by
  refine h.moved hl hl' ⟨fun b hb => ?_, fun i p hp => ?_⟩ ?_ ?_ ?_ ?_ hfits hruns
  · exact ⟨b, hboots ▸ hb, rfl, rfl, rfl, rfl⟩
  · exact ⟨p, hpools ▸ hp, rfl, Nat.le_refl _⟩
  · rw [horigins, hpools]
    exact h.aligned
  · rw [hpools]
    exact h.entries
  · rw [hboots]
    exact h.keys
  · rw [hboots, hpools]
    exact h.started

/-- One effect of the engine. Those that change what a call obtained come before it is
    given a pool. -/
theorem engine_op {β : Type} {op : EngineOp β} {c : ExecChoice} {b : β}
    (h : Current engine s (l :: ls)) (hl : l.ended = false)
    (hA : engine.Asserts β (.inl op) l) (hr : op.respond engine s l c = some (b, s', l')) :
    Current engine s' (l' :: ls) := by
  have hfits := h.fits l (List.mem_cons_self ..)
  have hruns := h.runs l (List.mem_cons_self ..) hl
  -- A call with a pool has a runtime, a harness, a script and no write.
  have hearly : l.runtime = none ∨ l.harness = none ∨ l.script = none ∨ l.writing ≠ none →
      l.client.pool = none := by
    intro hno
    cases hpool : l.client.pool with
    | none => rfl
    | some x =>
        rcases hfits.given x.1 x.2 hpool with
          ⟨hwriting, _, _, ⟨_, _, _, _, _, hruntime, hharness, hscript, _⟩, _⟩
        rw [hruntime, hharness, hscript] at hno
        simp only [reduceCtorEq, false_or] at hno
        exact absurd hwriting hno
  -- Without a pool there is only the write and the script to speak of.
  have hmove : ∀ (s' : Executing) (l' : Execute), s'.pools = s.pools → s'.origins = s.origins →
      s'.boots = s.boots → l'.client = l.client → l'.ended = l.ended → l.client.pool = none →
      (∀ w, l'.writing = some w → l'.script = none ∧ w.Begun ∧
        (∃ h, l'.harness = some h ∧ w.contents = h.bytes) ∧
        (w.opened = true → s'.files (engine.locate w.path) = some (w.contents.take w.offset))) →
      (∀ path, l'.script = some path →
        ∃ h, l'.harness = some h ∧ s'.files (engine.locate path) = some h.bytes) →
      Current engine s' (l' :: ls) := by
    intro s' l' hpools horigins hboots hclient hended hpool hwriting hscript
    have hnone : ∀ i pool, l'.client.pool = some (i, pool) → False := by
      intro i pool hi
      rw [hclient, hpool] at hi
      cases hi
    refine h.engine_moved hl (hended.trans hl) hpools horigins hboots ?_ ?_
    · refine ⟨fun i pool hi => (hnone i pool hi).elim, fun i pool _ _ hi => (hnone i pool hi).elim,
        fun outcome ho => ?_⟩
      rw [hclient] at ho ⊢
      exact hfits.result outcome ho
    · refine ⟨hwriting, hscript, fun i pool _ _ hi => (hnone i pool hi).elim,
        fun i pool _ hi => (hnone i pool hi).elim,
        fun i pool _ _ _ hi => (hnone i pool hi).elim, ?_⟩
      rw [hclient]
      exact hruns.holding
  cases op with
  | require request =>
      rcases hA with ⟨hruntime, hwriting⟩
      simp only [EngineOp.respond] at hr
      split at hr
      · cases hr
        exact hmove s { l with runtime := _ } rfl rfl rfl rfl rfl (hearly (.inl hruntime))
          hruns.writing hruns.script
      · cases hr
        exact h
      · cases hr
  | provider language | createDirAll path | environ =>
      simp only [EngineOp.respond] at hr
      split at hr <;> cases hr <;> exact h
  | harness =>
      rcases hA with ⟨hharness, hscript, hwriting⟩
      simp only [EngineOp.respond] at hr
      split at hr
      · cases hr
        refine hmove _ _ rfl rfl rfl rfl rfl (hearly (.inr (.inl hharness))) (fun w hw => ?_)
          fun path hpath => ?_
        · rw [show l.writing = some w from hw] at hwriting
          cases hwriting
        · rw [show l.script = some path from hpath] at hscript
          cases hscript
      · cases hr
        exact h
      · cases hr
  | handOver path contents =>
      rcases hA with ⟨hwriting, hscript, x, hx, rfl⟩
      cases hr
      refine hmove _ _ rfl rfl rfl rfl rfl (hearly (.inr (.inr (.inl hscript)))) (fun w hw => ?_)
        hruns.script
      cases hw
      exact ⟨hscript, ⟨fun _ => ⟨rfl, rfl⟩, Nat.zero_le _⟩, ⟨x, hx, rfl⟩, fun hno => by cases hno⟩
  | create path =>
      rcases hA with ⟨contents, hw⟩
      have hpool := hearly (.inr (.inr (.inr (by rw [hw]; exact Option.some_ne_none _))))
      rcases hruns.writing _ hw with ⟨hscript, _, hbytes, _⟩
      have hnone : ∀ path, l.script = some path → False := fun path hpath => by
        rw [hscript] at hpath
        cases hpath
      simp only [EngineOp.respond, hw] at hr
      split at hr
      · rename_i w' hw'
        cases hw'
        cases hr
        refine hmove _ _ rfl rfl rfl rfl rfl hpool (fun w hw => ?_)
          fun path hpath => (hnone path hpath).elim
        cases hw
        refine ⟨hscript, ⟨fun hno => (by cases hno), Nat.zero_le _⟩, hbytes, fun _ => ?_⟩
        exact Function.update_self ..
      · cases hr
        exact hmove s { l with writing := none } rfl rfl rfl rfl rfl hpool
          (fun w hno => by cases hno) fun path hpath => (hnone path hpath).elim
      · cases hr
  | write path offset buffer =>
      rcases hA with ⟨w, hw, rfl, hopen, _, rfl, rfl⟩
      have hpool := hearly (.inr (.inr (.inr (by rw [hw]; exact Option.some_ne_none _))))
      rcases hruns.writing _ hw with ⟨hscript, hbegun, hbytes, hfile⟩
      have hnone : ∀ path, l.script = some path → False := fun path hpath => by
        rw [hscript] at hpath
        cases hpath
      simp only [EngineOp.respond, hw] at hr
      split at hr
      · rename_i n w' hw'
        cases hw'
        split at hr
        · rename_i hn
          cases hr
          refine hmove _ _ rfl rfl rfl rfl rfl hpool (fun w' hw' => ?_)
            fun path hpath => (hnone path hpath).elim
          cases hw'
          rw [List.length_drop] at hn
          have hwithin := hbegun.within
          refine ⟨hscript, ⟨fun hno => ?_, ?_⟩, hbytes, fun _ => ?_⟩
          · rw [Writing.wrote, hopen] at hno
            cases hno
          · change w.offset + n ≤ w.contents.length
            omega
          · change Function.update s.files _ _ (engine.locate w.path) =
              some (w.contents.take (w.offset + n))
            rw [Function.update_self, hfile hopen, Option.getD_some, writeAt_take n hwithin]
        · cases hr
      · rename_i w' hw'
        cases hw'
        cases hr
        refine hmove s { l with writing := some w.fail } rfl rfl rfl rfl rfl hpool (fun w' hw' => ?_)
          fun path hpath => (hnone path hpath).elim
        cases hw'
        refine ⟨hscript, ⟨fun hno => ?_, hbegun.within⟩, hbytes, hfile⟩
        rw [Writing.fail, hopen] at hno
        cases hno
      · cases hr
  | close path =>
      rcases hA with ⟨w, hw, rfl, hopen, _⟩
      have hpool := hearly (.inr (.inr (.inr (by rw [hw]; exact Option.some_ne_none _))))
      rcases hruns.writing _ hw with ⟨hscript, _, ⟨x, hx, hbytes⟩, hfile⟩
      simp only [EngineOp.respond, hw] at hr
      cases hr
      refine hmove _ _ rfl rfl rfl rfl rfl hpool (fun w' hw' => (by cases hw')) fun path hpath => ?_
      change (if w.complete then some w.path else l.script) = some path at hpath
      split at hpath
      · rename_i hcomplete
        cases hpath
        simp only [Writing.complete, Bool.and_eq_true, beq_iff_eq] at hcomplete
        refine ⟨x, hx, ?_⟩
        change s.files (engine.locate w.path) = some x.bytes
        rw [hfile hopen, hcomplete.2, List.take_length, hbytes]
      · rw [hscript] at hpath
        cases hpath

/-- What a call has when it was just given a pool. -/
theorem fits_given {launch : Launch} {i : Nat} {p : Pooled} {input : Submission}
    (hp : s'.pools.built[i]? = some p) (hwriting : l.writing = none)
    (hobtained : l.Obtained engine launch p.pool.runtimeVersion)
    (hsame : p.pool.launch.Same launch) (hrun : l.client.run = Run.new input)
    (hpool : l.client.pool = some (i, p.pool)) : l.Fits engine s' where
  given j pool hj := by
    rw [hpool] at hj
    cases hj
    exact ⟨hwriting, ⟨p, hp, rfl⟩, launch, hobtained, hsame⟩
  worker j pool n x _ hn := by
    rw [hrun] at hn
    cases hn
  result outcome ho := by
    rw [hrun] at ho
    cases ho

/-- The locals of a call that was just given a pool. -/
def given (l : Execute) (launch : Launch) (i : Nat) (pool : LangPool) : Execute :=
  { l with launch := some launch
           client := { l.client with pool := some (i, pool), arc := true } }

/-- A call finds a live pool with its version, its script and its source. -/
theorem join {launch : Launch} {i : Nat} {p : Pooled} {x : WorkerHarness} {input : Submission}
    (h : Current engine s (l :: ls)) (hl : l.ended = false) (hp : s.pools.built[i]? = some p)
    (hwriting : l.writing = none) (hobtained : l.Obtained engine launch p.pool.runtimeVersion)
    (hsame : p.pool.launch.Same launch) (hrun : l.client.run = Run.new input)
    (hharness : l.harness = some x)
    (hpath : ∀ origin, s.origins[i]? = some origin → l.script = some origin.script)
    (hparked : ∀ w ∈ p.state.idle, s.Read i w.number x.bytes) :
    Current engine { s with pools := s.pools.put i { p with handles := p.handles + 1 } }
      (given l launch i p.pool :: ls) := by
  have hruns := h.runs l (List.mem_cons_self ..) hl
  have hput := @getElem?_put s.pools i p { p with handles := p.handles + 1 } hp
  have hlength : (s.pools.put i { p with handles := p.handles + 1 }).built.length =
      s.pools.built.length := List.length_set ..
  have hfree : ∀ hold : Hold, l.client.run.hold = hold → hold = .nothing := by
    intro hold hhold
    rw [hrun] at hhold
    exact hhold.symm
  have hfind : ∀ (j : Nat) (q : Pooled), s.pools.built[j]? = some q →
      ∃ q' : Pooled, (s.pools.put i { p with handles := p.handles + 1 }).built[j]? =
        some q' ∧ q'.pool = q.pool ∧ q'.state = q.state := by
    intro j q hq
    rw [hput]
    split
    · rename_i hj
      rw [hj, hp] at hq
      cases hq
      exact ⟨_, rfl, rfl, rfl⟩
    · exact ⟨q, hq, rfl, rfl⟩
  refine h.moved hl hl ⟨fun b hb => ⟨b, hb, rfl, rfl, rfl, rfl⟩, fun j q hq => ?_⟩
    (h.aligned.trans hlength.symm) (fun language entry hentry => ?_) h.keys (fun b hb => ?_)
    (fits_given ((hput i).trans (if_pos rfl)) hwriting hobtained hsame hrun rfl)
    ⟨fun w hw => ?_, hruns.script, fun j pool q y hj hq hy w hw => ?_, fun j pool origin hj ho => ?_,
      fun j pool n y path hj hhold => ?_, fun n hhold => ?_⟩
  · rcases hfind j q hq with ⟨q', hq', hpool, hstate⟩
    exact ⟨q', hq', hpool, hstate ▸ Nat.le_refl _⟩
  · rcases h.entries language entry hentry with ⟨q, hq, hlang, hspawn, hprint⟩
    rcases hfind _ q hq with ⟨q', hq', hpool, _⟩
    rw [← hpool] at hlang hspawn hprint
    exact ⟨q', hq', hlang, hspawn, hprint⟩
  · rcases h.started b hb with ⟨q, hq, hfresh, hstarted⟩
    rcases hfind _ q hq with ⟨q', hq', hpool, hstate⟩
    exact ⟨q', hq', hstate ▸ hfresh, hpool ▸ hstarted⟩
  · rw [show l.writing = some w from hw] at hwriting
    cases hwriting
  · cases hj
    rw [hput, if_pos rfl] at hq
    cases hq
    rw [show l.harness = some y from hy] at hharness
    cases hharness
    exact hparked w hw
  · cases hj
    exact hpath origin ho
  · cases hfree _ hhold
  · cases hfree _ hhold

/-- A call builds a pool. -/
theorem build {i : Nat} {p : Pooled} {script : String} {x : WorkerHarness} {input : Submission}
    (h : Current engine s (l :: ls)) (hl : l.ended = false)
    (hstart : p.pool.start = some p.state) (hspawner : p.pool.launch.spawner = engine.spawner)
    (hwriting : l.writing = none)
    (hobtained : l.Obtained engine p.pool.launch p.pool.runtimeVersion)
    (hrun : l.client.run = Run.new input) (hscript : l.script = some script)
    (hi : i = s.pools.built.length) :
    Current engine
      { s with
        pools := s.pools.insert
          (poolFingerprint engine.printable p.pool.launch p.pool.settings) p
        origins := s.origins ++ [{ script := script, harness := x }] }
      (given l p.pool.launch i p.pool :: ls) := by
  subst hi
  have hruns := h.runs l (List.mem_cons_self ..) hl
  generalize hprint : poolFingerprint engine.printable p.pool.launch p.pool.settings = fingerprint
  have hinsert := getElem?_insert s.pools fingerprint p
  have hfree : ∀ hold : Hold, l.client.run.hold = hold → hold = .nothing := by
    intro hold hhold
    rw [hrun] at hhold
    exact hhold.symm
  have hkept : ∀ {j : Nat} {q : Pooled}, s.pools.built[j]? = some q →
      (s.pools.insert fingerprint p).built[j]? = some q := by
    intro j q hq
    rw [hinsert, if_neg (Nat.ne_of_lt (List.getElem?_eq_some_iff.mp hq).1)]
    exact hq
  have hnew : (s.pools.insert fingerprint p).built[s.pools.built.length]? = some p :=
    (hinsert _).trans (if_pos rfl)
  refine h.moved hl hl ⟨fun b hb => ⟨b, hb, rfl, rfl, rfl, rfl⟩,
      fun j q hq => ⟨q, hkept hq, rfl, Nat.le_refl _⟩⟩ ?_ (fun language entry hentry => ?_)
    h.keys (fun b hb => ?_) (fits_given hnew hwriting hobtained ⟨rfl, rfl, rfl, rfl⟩ hrun rfl)
    ⟨fun w hw => ?_, hruns.script, fun j pool q y hj hq hy w hw => ?_, fun j pool origin hj ho => ?_,
      fun j pool n y path hj hhold => ?_, fun n hhold => ?_⟩
  · change (s.origins ++ [_]).length = (s.pools.built ++ [p]).length
    rw [List.length_append, List.length_append, h.aligned]
    rfl
  · simp only [Pools.insert] at hentry
    split at hentry
    · rename_i hlanguage
      cases hentry
      exact ⟨p, hnew, hlanguage.symm, hspawner, hprint.symm⟩
    · rcases h.entries language entry hentry with ⟨q, hq, hrest⟩
      exact ⟨q, hkept hq, hrest⟩
  · rcases h.started b hb with ⟨q, hq, hrest⟩
    exact ⟨q, hkept hq, hrest⟩
  · rw [show l.writing = some w from hw] at hwriting
    cases hwriting
  · cases hj
    rw [hnew] at hq
    cases hq
    rw [LangPool.start] at hstart
    split at hstart
    · rw [← Option.some.inj hstart] at hw
      cases hw
    · cases hstart
  · cases hj
    rw [← h.aligned, List.getElem?_append_right (Nat.le_refl _), Nat.sub_self] at ho
    cases ho
    exact hscript
  · cases hfree _ hhold
  · cases hfree _ hhold

/-- Asking the registry for a pool. -/
theorem ensure {launch : Launch} {settings : PoolSettings} {version : String} {b : LangPool}
    {c : ExecChoice} (h : Current engine s (l :: ls)) (hl : l.ended = false)
    (hlim : (unchanged engine).performs _ (.inr (.inl (.ensure launch settings version))) s l c)
    (hA : engine.Asserts _ (.inr (.inl (.ensure launch settings version))) l)
    (hr : ExecOp.respond engine (.inr (.inl (.ensure launch settings version))) (s, l) c =
      some (b, s', l')) : Current engine s' (l' :: ls) := by
  rcases hA with ⟨hwriting, hobtained, _, hnone, _, input, hrun⟩
  rcases Engine.pools_respond hr with ⟨c', pools, client, _, _, hop, hfollow⟩
  rcases ensure_respond hop with ⟨i, hensure, rfl⟩
  have haligned := h.aligned
  rcases hobtained with ⟨runtime, x, script, binary, lookup, hruntime, hharness, hscript, hrest⟩
  have hobtained : l.Obtained engine launch version :=
    ⟨runtime, x, script, binary, lookup, hruntime, hharness, hscript, hrest⟩
  have hspawner : launch.spawner = engine.spawner := by
    rw [hrest.2.1]
    rfl
  -- Neither the children nor what the run holds changes.
  have hstep : (s', l') = ({ s with
      pools := pools
      origins := if s.origins.length < pools.built.length then
        s.origins ++ [{ script := script, harness := x }] else s.origins }, given l launch i b) := by
    rw [hfollow]
    simp only [Executing.follow, Execute.asked, hscript, hharness, noteBoots, given, ↓reduceIte]
  cases hstep
  rcases ensure_pool hensure with ⟨p, hcurrent, rfl, rfl⟩ |
    ⟨_, hi, rfl, rfl, rfl, _, state, hstart, rfl⟩
  · rcases current_spec hcurrent with ⟨hp, entry, hentry, rfl, hfound⟩
    rcases h.entries _ entry hentry with ⟨q, hq, hlanguage, hown, hprint⟩
    rw [hp] at hq
    cases hq
    have hsame : p.pool.launch.Same launch := by
      rcases fingerprint_injective hlanguage (by rw [Launch.spawnerId, hown, ← hspawner]; rfl)
        (hprint.symm.trans hfound) with ⟨hbinary, hargs, henv, _⟩
      exact ⟨hbinary, hargs, henv, hown.trans hspawner.symm⟩
    have hlt : entry.pool < s.origins.length :=
      haligned.symm ▸ (List.getElem?_eq_some_iff.mp hp).1
    rcases hlim entry.pool p s.origins[entry.pool] x hcurrent (List.getElem?_eq_getElem hlt)
      hharness with ⟨hversion, hpath, hparked⟩
    have hlength : (s.pools.put entry.pool { p with handles := p.handles + 1 }).built.length =
        s.pools.built.length := List.length_set ..
    rw [hlength, haligned, if_neg (Nat.lt_irrefl _)]
    refine h.join hl hp hwriting (hversion ▸ hobtained) hsame hrun hharness (fun origin ho => ?_)
      hparked
    rw [List.getElem?_eq_getElem hlt] at ho
    cases ho
    exact hpath
  · have hlength : (s.pools.insert (poolFingerprint engine.printable b.launch b.settings)
        (Pooled.new b state)).built.length = s.pools.built.length + 1 := List.length_append ..
    rw [hlength, haligned, if_pos (Nat.lt_succ_self _)]
    exact @build engine s l ls i (Pooled.new b state) script x input h hl hstart hspawner hwriting
      hobtained hrun hscript hi

/-- A child that has read its script is the one with its number. -/
theorem source_unique {b b' : Boot} (h : Current engine s ls) (hb : b ∈ s.boots)
    (hb' : b' ∈ s.boots) (hpool : b.pool = b'.pool) (hchild : b.child = b'.child) : b = b' :=
  List.inj_on_of_nodup_map h.keys hb hb' (Prod.ext hpool hchild)

/-- One effect of the pool of a call. -/
theorem pool_op {β : Type} {op : PoolOp β} {c : ExecChoice} {b : β}
    (h : Current engine s (l :: ls)) (hl : l.ended = false)
    (hA : engine.Asserts β (.inr (.inr op)) l)
    (hr : ExecOp.respond engine (.inr (.inr op)) (s, l) c = some (b, s', l')) :
    Current engine s' (l' :: ls) := by
  rcases hA with ⟨hwriting, harc, i, pool, hpool, hA⟩
  rcases Engine.pools_respond hr with ⟨c', pools, client, _, hready, hop, hfollow⟩
  rcases pool_respond hop with ⟨i', pool', p, c₁, state, run, _, hpool', hp, hrun, rfl, rfl⟩
  rw [hpool] at hpool'
  cases hpool'
  have hfits := h.fits l (List.mem_cons_self ..)
  have hruns := h.runs l (List.mem_cons_self ..) hl
  rcases hfits.given i pool hpool with ⟨_, ⟨q, hq, rfl⟩, launch, hobtained, hsame⟩
  rw [hp] at hq
  cases hq
  rcases hobtained with ⟨runtime, x, path, binary, lookup, hruntime, hharness, hscript, hrest⟩
  have hlt : i < s.origins.length :=
    h.aligned.symm ▸ (List.getElem?_eq_some_iff.mp hp).1
  have hpath := hruns.path i p.pool s.origins[i] hpool (List.getElem?_eq_getElem hlt)
  rw [hscript] at hpath
  have hlength : (s.pools.put i { p with state := state }).built.length = s.pools.built.length :=
    List.length_set ..
  rcases Engine.asked_eq l (.inr op) with ⟨launch', spec, hasked⟩
  have hclient : ({ l.client with run := run } : Client).pool = some (i, p.pool) := hpool
  rw [Engine.follow_put hclient (Nat.le_of_eq (hlength.trans h.aligned.symm))
    (List.getElem?_eq_getElem hlt), ← Option.some.inj hpath] at hfollow
  have hspec : (l.asked (.inr op)).spec = spec := by rw [hasked]
  rw [hspec, hasked] at hfollow
  cases hfollow
  have hanswers := PoolOp.answers_of_respond hrun
  rcases LangPool.answers_hands hanswers hA with ⟨hfresh, hresult, hidle, hassigned⟩
  have hput := @getElem?_put s.pools i p { p with state := state } hp
  have hnow : (s.pools.put i { p with state := state }).built[i]? =
      some { p with state := state } := (hput i).trans (if_pos rfl)
  have hfind : ∀ (j : Nat) (q : Pooled), s.pools.built[j]? = some q →
      ∃ q' : Pooled, (s.pools.put i { p with state := state }).built[j]? = some q' ∧
        q'.pool = q.pool ∧ q.state.fresh ≤ q'.state.fresh := by
    intro j q hq
    rw [hput]
    split
    · rename_i hj
      rw [hj, hp] at hq
      cases hq
      exact ⟨_, rfl, rfl, hfresh⟩
    · exact ⟨q, hq, rfl, Nat.le_refl _⟩
  -- Who the run is handed has read the script of the call.
  have hread : ∀ n, run.assigned = some n → s.Read i n x.bytes := by
    intro n hn
    rcases hassigned with ⟨hsame, _⟩ | ⟨m, hm, _, ⟨w, hw, rfl⟩ | ⟨hop, hhold⟩⟩
    · exact hfits.worker i p.pool n x hpool (hsame ▸ hn) hharness
    · rw [hm] at hn
      cases hn
      exact hruns.parked i p.pool p x hpool hp hharness w hw
    · rw [hm] at hn
      cases hn
      cases hop
      rcases hruns.spawning i p.pool n x path hpool hhold hharness hscript with
        ⟨b, hb, rfl, rfl, _, hsource⟩
      simp only [PoolsOp.ready, hpool, Executing.loaded, List.any_eq_true, Bool.and_eq_true,
        beq_iff_eq, Option.isSome_iff_exists] at hready
      rcases hready with ⟨b', hb', ⟨hpool', hchild'⟩, bytes, hbytes⟩
      have hthis := h.source_unique hb' hb hpool' hchild'
      subst hthis
      rcases hsource with hnone | hsome
      · rw [hbytes] at hnone
        cases hnone
      · exact ⟨b', hb, rfl, rfl, hsome⟩
  have hgrown : s.Grown { s with
      pools := s.pools.put i { p with state := state }
      boots := noteBoots (engine.locate path) i spec l.client.run.hold run.hold s.boots } := by
    refine ⟨fun b hb => ?_, hfind⟩
    rcases noteBoots_kept (engine.locate path) i spec l.client.run.hold run.hold s.boots b hb with
      ⟨b', hb', rfl | rfl⟩
    · exact ⟨_, hb', rfl, rfl, rfl, rfl⟩
    · exact ⟨_, hb', rfl, rfl, rfl, rfl⟩
  refine h.moved hl hl hgrown (h.aligned.trans hlength.symm) (fun language entry hentry => ?_) ?_
    (fun b hb => ?_)
    ⟨fun j pool hj => ?_, fun j pool n y hj hn hy => ?_, fun outcome ho => ?_⟩
    ⟨fun w hw => ?_, hruns.script, fun j pool q y hj hq hy w hw => ?_, fun j pool origin hj ho => ?_,
      fun j pool n y path' hj hhold hy hpath' => ?_, fun n hhold => ?_⟩
  · rcases h.entries language entry hentry with ⟨q, hq, hlang, hspawn, hprint⟩
    rcases hfind _ q hq with ⟨q', hq', hsame', _⟩
    rw [← hsame'] at hlang hspawn hprint
    exact ⟨q', hq', hlang, hspawn, hprint⟩
  · rcases noteBoots_keys (engine.locate path) i spec l.client.run.hold run.hold s.boots with
      hkeys | ⟨child, hafter, hne, hkeys⟩
    · exact hkeys ▸ h.keys
    · change ((noteBoots _ _ _ _ _ _).map fun b => (b.pool, b.child)).Nodup
      rw [hkeys]
      refine List.nodup_append.mpr ⟨h.keys, List.nodup_singleton _, fun key hkey key' hkey' => ?_⟩
      rcases hanswers.spawned hafter hne with ⟨_, _, rfl, _⟩
      rcases List.mem_map.mp hkey with ⟨b, hb, rfl⟩
      rw [List.mem_singleton.mp hkey']
      intro heq
      simp only [Prod.mk.injEq] at heq
      rcases h.started b hb with ⟨q, hq, hlow, _⟩
      rw [heq.1, hp] at hq
      cases hq
      omega
  · rcases mem_noteBoots hb with ⟨b₀, hb₀, hb⟩ | ⟨child, hafter, hne, rfl⟩
    · rcases h.started b₀ hb₀ with ⟨q, hq, hlow, hstarted⟩
      rcases hfind _ q hq with ⟨q', hq', hsame', hle⟩
      refine ⟨q', ?_⟩
      rcases hb with rfl | rfl
      · exact ⟨hq', Nat.lt_of_lt_of_le hlow hle, hsame' ▸ hstarted⟩
      · exact ⟨hq', Nat.lt_of_lt_of_le hlow hle, hsame' ▸ hstarted⟩
    · rcases hanswers.spawned hafter hne with ⟨spec', hlaunch, rfl, rfl, _⟩
      cases hlaunch
      cases hspec
      rcases hA.2 with ⟨address, token, hconfined⟩
      exact ⟨_, hnow, Nat.lt_succ_self _, address, token, spec', hconfined, rfl⟩
  · have hj' : l.client.pool = some (j, pool) := hj
    rcases hfits.given j pool hj' with ⟨hw, ⟨q, hq, rfl⟩, hlaunch⟩
    rcases hfind j q hq with ⟨q', hq', hsame', _⟩
    exact ⟨hw, ⟨q', hq', hsame'⟩, hlaunch⟩
  · have hj' : l.client.pool = some (j, pool) := hj
    rw [hpool] at hj'
    cases hj'
    rw [show l.harness = some y from hy] at hharness
    cases hharness
    exact hgrown.read (hread n hn)
  · change run.result = _ at ho
    rw [hresult] at ho
    exact hfits.result outcome ho
  · rw [show l.writing = some w from hw] at hwriting
    cases hwriting
  · have hj' : l.client.pool = some (j, pool) := hj
    rw [hpool] at hj'
    cases hj'
    rw [hnow] at hq
    cases hq
    rw [show l.harness = some y from hy] at hharness
    cases hharness
    refine hgrown.read ?_
    rcases hidle w hw with hw | hhold
    · exact hruns.parked i p.pool p x hpool hp hy w hw
    · exact hfits.worker i p.pool w.number x hpool (hruns.holding _ hhold) hy
  · exact hruns.path j pool origin hj ho
  · have hj' : l.client.pool = some (j, pool) := hj
    rw [hpool] at hj'
    cases hj'
    rw [show l.harness = some y from hy] at hharness
    cases hharness
    rw [show l.script = some path' from hpath'] at hscript
    cases hscript
    change run.hold = _ at hhold
    by_cases hne : l.client.run.hold = run.hold
    · rcases hruns.spawning i p.pool n x path hpool (hne.trans hhold) hy hpath' with
        ⟨b, hb, rfl, rfl, hfile, hsource⟩
      rcases hgrown.boots b hb with ⟨b', hb', hpool', hchild', hfile', hsource'⟩
      exact ⟨b', hb', hpool', hchild', hfile'.trans hfile, hsource' ▸ hsource⟩
    · rw [hhold] at hne
      have hnew := @mem_noteBoots_new (engine.locate path) i n spec _ s.boots hne
      rw [← hhold] at hnew
      exact ⟨_, hnew, rfl, rfl, rfl, .inl rfl⟩
  · change run.hold = _ at hhold
    change run.assigned = _
    rcases hassigned with ⟨hsame', hheld⟩ | ⟨m, hm, hheld, _⟩
    · rw [hsame']
      exact hruns.holding n (hheld n hhold)
    · rw [hm, hheld n hhold]

/-- A call that has not asked for anything yet. -/
theorem call (request : ExecRequest) (h : Current engine s ls) (hls : ∀ l ∈ ls, l.ended = true) :
    Current engine s (Execute.new request :: ls) where
  alone := by
    have hzero : tally Execute.running ls = 0 := Concurrent.tally_eq_zero fun l hl => by
      rw [Execute.running, hls l hl]
      rfl
    rw [tally_cons, hzero]
    exact Nat.le_refl 1
  aligned := h.aligned
  entries := h.entries
  keys := h.keys
  started := h.started
  fits := List.forall_mem_cons.mpr ⟨.none rfl rfl, h.fits⟩
  runs := List.forall_mem_cons.mpr ⟨fun _ => ⟨fun _ hno => (by cases hno), fun _ hno => (by cases hno),
    fun _ _ _ _ hno => (by cases hno), fun _ _ _ hno => (by cases hno),
    fun _ _ _ _ _ hno => (by cases hno), fun _ hno => by cases hno⟩, h.runs⟩

/-- What others do that touches no file: a drop of locals, a pass of a reaper. -/
theorem aside {ls' : List Execute} (h : Current engine s ls) (hgrown : s.Grown s')
    (hfiles : s'.files = s.files) (horigins : s'.origins = s.origins)
    (hlive : s'.pools.live = s.pools.live)
    (hlength : s'.pools.built.length = s.pools.built.length)
    (hidle : ∀ (i : Nat) (p' : Pooled), s'.pools.built[i]? = some p' →
      ∃ p : Pooled, s.pools.built[i]? = some p ∧ ∀ w ∈ p'.state.idle, w ∈ p.state.idle)
    (hkeys : (s'.boots.map fun b => (b.pool, b.child)).Nodup)
    (hstarted : ∀ b ∈ s'.boots, ∃ b₀ ∈ s.boots, b.pool = b₀.pool ∧ b.child = b₀.child ∧
      b.spec = b₀.spec)
    (halone : tally Execute.running ls' ≤ 1)
    (hls : ∀ l' ∈ ls', ∃ l ∈ ls, (l.Fits engine s → l'.Fits engine s) ∧
      (l'.ended = false → l.ended = false ∧ (l.Runs engine s → l'.Runs engine s))) :
    Current engine s' ls' where
  alone := halone
  aligned := by
    rw [horigins, hlength]
    exact h.aligned
  entries language entry hentry := by
    rw [hlive] at hentry
    rcases h.entries language entry hentry with ⟨p, hp, hlang, hspawn, hprint⟩
    rcases hgrown.built _ p hp with ⟨p', hp', hsame, _⟩
    rw [← hsame] at hlang hspawn hprint
    exact ⟨p', hp', hlang, hspawn, hprint⟩
  keys := hkeys
  started b hb := by
    rcases hstarted b hb with ⟨b₀, hb₀, hpool, hchild, hspec⟩
    rcases h.started b₀ hb₀ with ⟨p, hp, hlow, hstarted⟩
    rcases hgrown.built _ p hp with ⟨p', hp', hsame, hle⟩
    rw [Boot.Started, ← hspec, ← hsame] at hstarted
    rw [hpool, hchild]
    exact ⟨p', hp', Nat.lt_of_lt_of_le hlow hle, hstarted⟩
  fits l' hl' := by
    rcases hls l' hl' with ⟨l, hl, hfits, _⟩
    exact (hfits (h.fits l hl)).grown hgrown
  runs l' hl' hended := by
    rcases hls l' hl' with ⟨l, hl, _, hruns⟩
    rcases hruns hended with ⟨hold, hruns⟩
    exact (hruns (h.runs l hl hold)).grown hgrown hfiles horigins hidle

/-- One pool changes in what only counts. -/
theorem put_spec {i : Nat} {p p' : Pooled} (hp : s.pools.built[i]? = some p)
    (hpool : p'.pool = p.pool) (hfresh : p'.state.fresh = p.state.fresh)
    (hidle : ∀ w ∈ p'.state.idle, w ∈ p.state.idle) :
    (s.pools.put i p').live = s.pools.live ∧
      (s.pools.put i p').built.length = s.pools.built.length ∧
      (∀ (j : Nat) (q : Pooled), s.pools.built[j]? = some q →
        ∃ q' : Pooled, (s.pools.put i p').built[j]? = some q' ∧ q'.pool = q.pool ∧
          q.state.fresh ≤ q'.state.fresh) ∧
      ∀ (j : Nat) (q' : Pooled), (s.pools.put i p').built[j]? = some q' →
        ∃ q : Pooled, s.pools.built[j]? = some q ∧ ∀ w ∈ q'.state.idle, w ∈ q.state.idle := by
  have hput := @getElem?_put s.pools i p p' hp
  refine ⟨rfl, List.length_set .., fun j q hq => ?_, fun j q' hq' => ?_⟩
  · rw [hput]
    split
    · rename_i hj
      rw [hj, hp] at hq
      cases hq
      exact ⟨p', rfl, hpool, Nat.le_of_eq hfresh.symm⟩
    · exact ⟨q, hq, rfl, Nat.le_refl _⟩
  · rw [hput] at hq'
    split at hq'
    · rename_i hj
      cases hq'
      exact ⟨p, hj ▸ hp, hidle⟩
    · exact ⟨q', hq', fun _ hw => hw⟩

/-- An ended call drops one of its locals. -/
theorem release (h : Current engine s (l :: ls))
    (hr : Execute.release engine (s, l) = some (s', l')) : Current engine s' (l' :: ls) := by
  rcases Option.map_eq_some_iff.mp hr with ⟨⟨pools, client⟩, hclient, hfollow⟩
  rcases Engine.release_spec hclient with ⟨i, pool, p, p', hpool, hp, rfl, hsame, hfresh, hidle, hpool',
    hassigned, hresult, hhold⟩
  rcases put_spec hp hsame hfresh (fun w hw => hidle ▸ hw) with ⟨hlive, hlength, hfind, hparked⟩
  have hlt : i < s.origins.length := h.aligned.symm ▸ (List.getElem?_eq_some_iff.mp hp).1
  simp only [] at hfollow
  rw [Engine.follow_put (hpool'.trans hpool) (Nat.le_of_eq (hlength.trans h.aligned.symm))
    (List.getElem?_eq_getElem hlt)] at hfollow
  cases hfollow
  -- No child is in the hands of a spawn that was not before.
  have hold : ∀ child, client.run.hold = .spawning (some child) →
      l.client.run.hold = client.run.hold := by
    intro child hafter
    rcases hhold with hsame | hnone
    · exact hsame.symm
    · rw [hnone] at hafter
      cases hafter
  refine h.aside ⟨fun b hb => ?_, hfind⟩ rfl rfl hlive hlength hparked ?_ (fun b hb => ?_) ?_
    (List.forall_mem_cons.mpr ⟨⟨l, List.mem_cons_self .., fun hfits => ?_, fun hended =>
      ⟨hended, fun hruns => ?_⟩⟩,
      fun x hx => ⟨x, List.mem_cons_of_mem _ hx, id, fun hended => ⟨hended, id⟩⟩⟩)
  · rcases noteBoots_kept (engine.locate s.origins[i].script) i l.spec l.client.run.hold
      client.run.hold s.boots b hb with ⟨b', hb', rfl | rfl⟩
    · exact ⟨_, hb', rfl, rfl, rfl, rfl⟩
    · exact ⟨_, hb', rfl, rfl, rfl, rfl⟩
  · rcases noteBoots_keys (engine.locate s.origins[i].script) i l.spec l.client.run.hold
      client.run.hold s.boots with hkeys | ⟨child, hafter, hne, _⟩
    · exact hkeys ▸ h.keys
    · exact absurd (hold child hafter) hne
  · rcases mem_noteBoots hb with ⟨b₀, hb₀, rfl | rfl⟩ | ⟨child, hafter, hne, _⟩
    · exact ⟨_, hb₀, rfl, rfl, rfl⟩
    · exact ⟨_, hb₀, rfl, rfl, rfl⟩
    · exact absurd (hold child hafter) hne
  · have hcount := h.alone
    rw [tally_cons] at hcount ⊢
    exact hcount
  · refine ⟨fun j pool hj => hfits.given j pool (hpool' ▸ hj), fun j pool n x hj hn => ?_,
      fun outcome ho => ?_⟩
    · exact hfits.worker j pool n x (hpool' ▸ hj) (hassigned ▸ hn)
    · rcases hfits.result outcome (hresult ▸ ho) with ⟨j, pool, hj, hversion⟩
      exact ⟨j, pool, hpool'.trans hj, hversion⟩
  · refine ⟨hruns.writing, hruns.script, fun j pool q x hj => hruns.parked j pool q x (hpool' ▸ hj),
      fun j pool origin hj => hruns.path j pool origin (hpool' ▸ hj),
      fun j pool n x path hj hn => ?_, fun n hn => ?_⟩
    · exact hruns.spawning j pool n x path (hpool' ▸ hj) ((hold n hn).trans hn)
    · change client.run.assigned = some n
      rw [hassigned]
      refine hruns.holding n ?_
      rcases hhold with hsame | hnone
      · exact hsame.symm.trans hn
      · rw [show client.run.hold = _ from hn] at hnone
        cases hnone

/-- A child reads its script. If it is in the hands of a running call, that is the script
    the call has written. -/
theorem loaded {k : Nat} {b : Boot} {bytes : List UInt8} (h : Current engine s ls)
    (hb : s.boots[k]? = some b) (hsource : b.source = none) (hfile : s.files b.file = some bytes) :
    Current engine { s with boots := s.boots.set k { b with source := some bytes } } ls := by
  have hmem := List.mem_of_getElem? hb
  have hother : ∀ b' ∈ s.boots, b' ≠ b → b' ∈ s.boots.set k { b with source := some bytes } := by
    intro b' hb' hne
    rcases List.mem_iff_getElem?.mp hb' with ⟨j, hj⟩
    refine List.mem_iff_getElem?.mpr ⟨j, ?_⟩
    rw [List.getElem?_set_ne]
    · exact hj
    · rintro rfl
      exact hne (Option.some.inj (hj.symm.trans hb))
  have hthis : { b with source := some bytes } ∈ s.boots.set k { b with source := some bytes } :=
    List.mem_set (List.getElem?_eq_some_iff.mp hb).1 _
  have hread : ∀ i n bytes', s.Read i n bytes' →
      ({ s with boots := s.boots.set k { b with source := some bytes } } : Executing).Read i n
        bytes' := by
    rintro i n bytes' ⟨b', hb', hpool, hchild, hsource'⟩
    refine ⟨b', hother b' hb' ?_, hpool, hchild, hsource'⟩
    rintro rfl
    rw [hsource] at hsource'
    cases hsource'
  refine ⟨h.alone, h.aligned, h.entries, ?_, fun b' hb' => ?_, fun l hl => ?_, fun l hl hended => ?_⟩
  · have hkeys : (s.boots.set k { b with source := some bytes }).map (fun b => (b.pool, b.child)) =
        s.boots.map fun b => (b.pool, b.child) := by
      have hkey : (s.boots.map fun b => (b.pool, b.child))[k]? = some (b.pool, b.child) := by
        rw [List.getElem?_map, hb]
        rfl
      rcases List.getElem?_eq_some_iff.mp hkey with ⟨hlt, hget⟩
      rw [List.map_set]
      change List.set _ k (b.pool, b.child) = _
      rw [← hget]
      exact List.set_getElem_self hlt
    exact hkeys ▸ h.keys
  · rcases List.mem_or_eq_of_mem_set hb' with hb' | rfl
    · exact h.started b' hb'
    · exact h.started b hmem
  · have hfits := h.fits l hl
    exact ⟨hfits.given, fun i pool n x hi hn hx => hread _ _ _ (hfits.worker i pool n x hi hn hx),
      hfits.result⟩
  · have hruns := h.runs l hl hended
    refine ⟨hruns.writing, hruns.script,
      fun i pool p x hi hp hx w hw => hread _ _ _ (hruns.parked i pool p x hi hp hx w hw),
      hruns.path, fun i pool n x path hi hn hx hpath => ?_, hruns.holding⟩
    rcases hruns.spawning i pool n x path hi hn hx hpath with ⟨b', hb', hpool, hchild, hpath', hs⟩
    by_cases hne : b' = b
    · subst hne
      rcases hruns.script path hpath with ⟨y, hy, hbytes⟩
      rw [hx] at hy
      cases hy
      rw [hpath', hbytes] at hfile
      exact ⟨_, hthis, hpool, hchild, hpath', .inr hfile.symm⟩
    · exact ⟨b', hother b' hb' hne, hpool, hchild, hpath', hs⟩

/-- A reaper makes its pass, or a child reads its script. -/
theorem env {c : ExecChoice} (h : Current engine s ls) (hr : s.env c = some s') :
    Current engine s' ls := by
  cases c with
  | pools c =>
      rcases Option.map_eq_some_iff.mp hr with ⟨pools, hpools, rfl⟩
      rcases Engine.reaper_spec hpools with ⟨i, p, p', hp, rfl, hsame, hfresh, hidle⟩
      rcases put_spec hp hsame hfresh hidle with ⟨hlive, hlength, hfind, hparked⟩
      exact h.aside ⟨fun b hb => ⟨b, hb, rfl, rfl, rfl, rfl⟩, hfind⟩ rfl rfl hlive hlength hparked
        h.keys (fun b hb => ⟨b, hb, rfl, rfl, rfl⟩) h.alone
        fun l hl => ⟨l, hl, id, fun hended => ⟨hended, id⟩⟩
  | load k =>
      change s.load k = some s' at hr
      simp only [Executing.load] at hr
      split at hr
      · rename_i b hb
        split at hr
        · rename_i bytes hsource hfile
          split at hr
          · cases hr
            exact h.loaded hb hsource hfile
          · cases hr
        · cases hr
      · cases hr
  | _ => cases hr

/-- A call ends. What is left of its write goes on as another call. -/
theorem ended (result : Option (Except Error ExecResponse)) (h : Current engine s (l :: ls))
    (hresult : ∀ outcome, result = some (.ok outcome) →
      ∃ i pool, l.client.pool = some (i, pool) ∧ outcome.runtimeVersion = pool.runtimeVersion)
    (hl : l.orphans ≠ [] → l.ended = false) :
    Current engine s (l.orphans.map Prod.snd ++ engine.calls.ended result l :: ls) := by
  have hended : (engine.calls.ended result l).Fits engine s := by
    have hfits := h.fits l (List.mem_cons_self ..)
    refine ⟨fun i pool hi => ?_, hfits.worker, hresult⟩
    rcases hfits.given i pool hi with ⟨_, hrest⟩
    exact ⟨rfl, hrest⟩
  have hcount := h.alone
  rw [tally_cons] at hcount
  have hzero : (engine.calls.ended result l).running = 0 := rfl
  have hfits := h.fits
  rw [List.forall_mem_cons] at hfits
  have hruns := h.runs
  rw [List.forall_mem_cons] at hruns
  cases hwriting : l.writing with
  | none =>
      rw [Execute.orphans, hwriting]
      refine ⟨?_, h.aligned, h.entries, h.keys, h.started,
        List.forall_mem_cons.mpr ⟨hended, hfits.2⟩,
        List.forall_mem_cons.mpr ⟨fun hno => (by cases hno), hruns.2⟩⟩
      rw [List.map_nil, List.nil_append, tally_cons, hzero]
      omega
  | some w =>
      have hlive : l.ended = false := hl (by rw [Execute.orphans, hwriting]; exact List.cons_ne_nil _ _)
      rw [Execute.orphans, hwriting]
      change Current engine s (l.orphan :: engine.calls.ended result l :: ls)
      have hone : l.orphan.running = l.running := by
        rw [Execute.running, Execute.running, hlive]
        rfl
      refine ⟨?_, h.aligned, h.entries, h.keys, h.started, List.forall_mem_cons.mpr
        ⟨.none rfl rfl, List.forall_mem_cons.mpr ⟨hended, hfits.2⟩⟩, List.forall_mem_cons.mpr
        ⟨fun _ => ?_, List.forall_mem_cons.mpr ⟨fun hno => (by cases hno), hruns.2⟩⟩⟩
      · rw [tally_cons, tally_cons, hone, hzero]
        omega
      · refine ⟨fun w' hw' => ?_, fun _ hno => (by cases hno), fun _ _ _ _ hno => (by cases hno),
          fun _ _ _ hno => (by cases hno), fun _ _ _ _ _ hno => (by cases hno),
          fun _ hno => by cases hno⟩
        exact ⟨rfl, ((hruns.1 hlive).writing w' hw').2⟩

end Current

end Steps

/-- No effect ends a call. -/
theorem respond_ended {engine : Engine} {β : Type} {op : ExecOp β} {s s' : Executing}
    {l l' : Execute} {c : ExecChoice} {b : β} (h : op.respond engine (s, l) c = some (b, s', l')) :
    l'.ended = l.ended := by
  cases op with
  | inl op =>
      change op.respond engine s l c = _ at h
      cases op with
      | handOver path contents =>
          cases h
          rfl
      | close path =>
          simp only [EngineOp.respond] at h
          split at h <;> cases h
          rfl
      | write path offset buffer =>
          simp only [EngineOp.respond] at h
          split at h
          · split at h <;> cases h
            rfl
          · cases h
            rfl
          · cases h
      | _ =>
          simp only [EngineOp.respond] at h
          split at h <;> cases h <;> rfl
  | inr op =>
      rcases Engine.pools_respond h with ⟨c', pools, client, _, _, _, hfollow⟩
      rcases Engine.asked_eq l op with ⟨launch, spec, hasked⟩
      have hl' := congrArg Prod.snd hfollow
      rw [Engine.follow_snd, hasked] at hl'
      simp only [] at hl'
      rw [hl']

/-- Whatever a running call does, it runs on until it ends. -/
theorem wp_running {engine : Engine} {A : ∀ β, ExecOp β → Execute → Prop}
    {Q : Except Error ExecResponse → Execute → Prop}
    {p : Prog ExecOp (Except Error ExecResponse)} {l : Execute}
    (h : p.wp engine.calls.localised A Q l) (hl : l.ended = false) :
    p.wp engine.calls.localised (fun β op l => A β op l ∧ l.ended = false)
      (fun r l => Q r l ∧ l.ended = false) l := by
  refine Prog.wp_and p l h (Prog.wp_uses (fun l => l.ended = false) ?_ p l (Prog.uses_true p) hl)
  rintro β op l ⟨s, c⟩ b l' _ hrunning hr
  rcases Option.map_eq_some_iff.mp hr with ⟨⟨b', s', l''⟩, hrespond, hr⟩
  cases hr
  exact (respond_ended hrespond).trans hrunning

theorem current_joint (engine : Engine) :
    Concurrent.Joint engine.calls (unchanged engine)
      (fun p l => p.wp engine.calls.localised (fun β op l => engine.Asserts β op l ∧ l.ended = false)
        (fun r l => Engine.Returns r l ∧ l.ended = false) l) (Current engine) := by
  refine Concurrent.Joint.of_wp
    (fun request _ _ _ => wp_running (engine.execute_asserts request) rfl) ?_ ?_ ?_ ?_ ?_ ?_ ?_
  · exact fun s ls ls' hp h => h.perm hp
  · exact fun s ls request hls h => h.call request hls
  · intro β op s l ls c b s' l' hlim hA h hr
    rcases hA with ⟨hA, hl⟩
    rcases op with op | op | op
    · exact h.engine_op hl hA hr
    · cases op with
      | ensure launch settings version => exact h.ensure hl hlim hA hr
    · exact h.pool_op hl hA hr
  · intro r s l ls hreturns h
    have hended := h.ended (some r) (fun outcome ho => hreturns.1.2 outcome (Option.some.inj ho))
      fun _ => hreturns.2
    rw [Execute.orphans, hreturns.1.1] at hended
    exact hended
  · intro β e k s l ls _ _ hwp h
    refine ⟨fun o ho => ?_, h.ended none (fun _ ho => by cases ho) fun _ => hwp.1.2⟩
    change o ∈ l.orphans at ho
    rw [Execute.orphans] at ho
    split at ho
    · cases ho
    · rename_i w hw
      rw [List.mem_singleton.mp ho]
      refine wp_running ?_ rfl
      rw [Prog.wp_bind]
      have hbegun := ((h.runs l (List.mem_cons_self ..) hwp.1.2).writing w hw).2.1
      refine Prog.wp_mono _ (fun _ l' hl' => ?_) _ (Engine.resume_spec hw hbegun)
      exact ⟨hl', fun _ hno => by cases hno⟩
  · exact fun s l ls s' l' h hr => h.release hr
  · exact fun s ls c s' h hr => h.env hr

theorem Boot.Started.same {launch launch' : Launch} {b : Boot} (h : launch.Same launch')
    (hb : b.Started launch) : b.Started launch' := by
  rcases hb with ⟨address, token, spec, hconfined, hspec⟩
  refine ⟨address, token, spec, ?_, hspec⟩
  rw [Worker.spec, h.binary, h.args, h.env, h.spawner] at hconfined
  exact hconfined

/-- **What a call is served by.** Along every sequence of calls in which a call that finds a
    live pool for its fingerprint obtained what that pool has (the version, the script, and
    the source its parked workers read), every call is served by what it obtained. -/
theorem served_current (engine : Engine) {g : Engine.State}
    (h : Transition.Reachable (engine.calls.system (unchanged engine) Executing.fresh) g) :
    ∀ l ∈ g.locals, l.Served engine g.shared := by
  have hcurrent : Current engine g.shared g.locals := by
    refine ((current_joint engine).reachable ?_ h).2
    rintro s ⟨hpools, horigins, hwriters, hboots, _⟩
    have hnone : ∀ {P : Execute → Prop}, ∀ l ∈ ([] : List Execute), P l :=
      fun _ hno => absurd hno List.not_mem_nil
    refine ⟨Nat.zero_le 1, ?_, fun language entry hentry => ?_, ?_, ?_, hnone, hnone⟩
    · rw [horigins, hpools]
      rfl
    · rw [hpools] at hentry
      cases hentry
    · rw [hboots]
      exact List.nodup_nil
    · exact fun b hb => absurd (hboots ▸ hb) List.not_mem_nil
  intro l hl
  have hfits := hcurrent.fits l hl
  refine ⟨fun i pool n hpool hn => ?_, fun outcome ho => ?_⟩
  · rcases hfits.given i pool hpool with ⟨_, ⟨p, hp, rfl⟩, launch, hobtained, hsame⟩
    have hobtained' := hobtained
    rcases hobtained' with ⟨_, x, _, _, _, _, hharness, _⟩
    rcases hfits.worker i p.pool n x hpool hn hharness with ⟨b, hb, hbpool, hchild, hsource⟩
    rcases hcurrent.started b hb with ⟨q, hq, _, hstarted⟩
    rw [hbpool, hp] at hq
    cases hq
    exact ⟨launch, _, x, b, hobtained, hharness, hb, hbpool, hchild, hstarted.same hsame, hsource⟩
  · rcases hfits.result outcome ho with ⟨i, pool, hpool, hversion⟩
    rcases hfits.given i pool hpool with ⟨_, _, launch, hobtained, _⟩
    rw [hversion]
    exact ⟨launch, hobtained⟩

/-! ## A warm worker and a second call -/

open Concurrent.Step ExecChoice in
/-- A first call, served and ended. -/
def served : List (Concurrent.Step ExecRequest ExecChoice) :=
  launched 0 ++ [env (load 0)] ++
    ((spawnRun 0).drop 13 ++ answeredJob 0).map fun e =>
      match e with
      | .perform i c => perform i (pools (.op c))
      | .finish i => finish i
      | .release i => release i
      | _ => finish 0

open Concurrent.Step ExecChoice in
/-- A second call up to the point where it has a worker. -/
def warm (h : WorkerHarness) : List (Concurrent.Step ExecRequest ExecChoice) :=
  opened 1 h ++
    [perform 1 (accepted 1), perform 1 pass, perform 1 (environ fun _ => none)] ++
    [PoolChoice.pass, .pass, .time 0, .pass, .time 0, .pass, .time 0, .checks [(0, false)]].map
      fun c => perform 1 (pools (.op c))

theorem warm_unchanged : smallEngine.calls.allowed (unchanged smallEngine)
    { shared := smallStart, calls := [] } (served ++ warm smallHarness) := by
  refine And.intro (fun l hl => by cases hl) fun g hg => ?_
  cases hg
  iterate 9
    refine And.intro trivial fun g hg => ?_
    cases hg
  refine And.intro (fun i p origin h hcurrent => by cases hcurrent) fun g hg => ?_
  cases hg
  iterate 27
    refine And.intro trivial fun g hg => ?_
    cases hg
  refine And.intro (fun l hl => ?_) fun g hg => ?_
  · rw [List.mem_singleton.mp hl]
    rfl
  cases hg
  iterate 9
    refine And.intro trivial fun g hg => ?_
    cases hg
  refine And.intro (fun i p origin h hcurrent horigin hharness => ?_) fun g hg => ?_
  · cases hcurrent
    cases horigin
    cases hharness
    refine ⟨rfl, rfl, fun w hw => ?_⟩
    rw [List.mem_singleton.mp hw]
    exact ⟨_, List.mem_singleton_self _, rfl, rfl, rfl⟩
  cases hg
  iterate 6
    refine And.intro trivial fun g hg => ?_
    cases hg
  exact And.intro trivial fun _ _ => trivial

/-- A second call on the warm worker of the first. -/
theorem served_current_warm : ∃ g : Engine.State,
    g.locals.map (fun l => l.client.run.assigned) = [some 0, some 0] ∧
      ∀ l ∈ g.locals, l.Served smallEngine g.shared := by
  have hrun : (Transition.play smallEngine.calls.move { shared := smallStart, calls := [] }
      (served ++ warm smallHarness)).map
        (fun g => g.locals.map fun l => l.client.run.assigned) = some [some 0, some 0] := by rfl
  rcases Option.map_eq_some_iff.mp hrun with ⟨g, hg, hassigned⟩
  exact ⟨g, hassigned, served_current smallEngine
    (Concurrent.reachable_allowed smallStart_fresh hg warm_unchanged)⟩

/-- A call that obtained a new source and is handed a worker that runs the old one. -/
theorem served_superseded : ¬ ∀ (engine : Engine) (g : Engine.State),
    Transition.Reachable (engine.calls.system .none Executing.fresh) g →
      ∀ l ∈ g.locals, l.Served engine g.shared := by
  intro h
  have hrun : (Transition.play smallEngine.calls.move { shared := smallStart, calls := [] }
      (served ++ warm { smallHarness with source := "y" })).map
        (fun g => (g.shared.boots.map fun b => b.source, g.locals.map fun l =>
          (l.client.run.assigned, l.harness, l.client.pool.isSome))) =
      some ([some [120]], [(some 0, some smallHarness, true),
        (some 0, some { smallHarness with source := "y" }, true)]) := by rfl
  rcases Option.map_eq_some_iff.mp hrun with ⟨g, hg, hfacts⟩
  simp only [Prod.mk.injEq] at hfacts
  rcases hfacts with ⟨hboots, hlocals⟩
  have hsecond : (some 0, some { smallHarness with source := "y" }, true) ∈ g.locals.map fun l =>
      (l.client.run.assigned, l.harness, l.client.pool.isSome) := by
    rw [hlocals]
    exact List.mem_cons_of_mem _ (List.mem_singleton_self _)
  rcases List.mem_map.mp hsecond with ⟨l, hl, hfacts⟩
  simp only [Prod.mk.injEq, Option.isSome_iff_exists, Prod.exists] at hfacts
  rcases hfacts with ⟨hassigned, hharness, i, pool, hpool⟩
  rcases (h smallEngine g (Concurrent.reachable_play smallStart_fresh hg) l hl).1 i pool 0 hpool
    hassigned with ⟨_, _, x, b, _, hx, hb, _, _, _, hsource⟩
  have hold : b.source ∈ g.shared.boots.map fun b => b.source := List.mem_map_of_mem hb
  rw [hboots, List.mem_singleton, hsource, ← Option.some.inj (hharness.symm.trans hx)] at hold
  exact absurd hold (by decide)

end TinyRuntime
