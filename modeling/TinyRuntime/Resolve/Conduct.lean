import TinyRuntime.Resolve.Install

/-!
# The Conduct of One Install

What one install does with what it owns, whatever the other calls do.

`InstallOp.Footprint` says which paths an effect may name and which closure it is
part of. It holds of the closures that are left of dropped calls as well.
`InstallOp.Custody` says how far a call is at an effect, and that it has the lock as
soon as it had it once. A closure of a dropped call is without it.

## Main definitions

* `RunOp.Answers`: What each effect can answer and change.
* `InstallOp.Footprint`, `InstallOp.Custody`: What a call asserts.
* `Conduct`: The same for calls and for what is left of them.

## Theorems

* `RunOp.answers_of_respond`: The answers of the handler.
* `promote_spec`, `fetch_spec`, `extract_spec`: The stages.
* `install_conduct`: A call meets its assertions.
* `orphan_conduct`: So does a closure that is left of one.
-/

namespace TinyRuntime

open Prog (act attempt)

/-! ## Answers -/

/-- What an effect of the install can answer and change, over all choices. -/
def RunOp.Answers {β : Type} (S : Site) (op : RunOp β) (s : Installing) (l : Installation) (b : β)
    (s' : Installing) (l' : Installation) : Prop :=
  match op with
  | .selectDistribution =>
      s' = s ∧ l' = l ∧ (b = .ok l.request.distribution ∨ ∃ e, b = .error e)
  | .begin job =>
      s.busy < S.threads ∧ s' = { s with busy := s.busy + 1 } ∧ l' = { l with working := some job }
  | .finish =>
      l.working ≠ none ∧ s' = { s with busy := s.busy - 1 } ∧
        l' = { l with working := none, reading := none }
  | .openLock path =>
      l' = l ∧ (s' = s ∨ s.disk.node (S.lookup.locate path) ≠ some .dir ∧
        s' = { s with disk := s.disk.touch (S.lookup.locate path) })
  | .lockExclusive path =>
      b = .ok () ∧ S.lookup.locate path ∉ s.locked ∧
          s' = { s with locked := S.lookup.locate path :: s.locked } ∧
          l' = { l with
            lock := some (S.lookup.locate path)
            phase := .holding
            found := some (s.disk.tree (S.lookup.locate (S.installDir l.request))) } ∨
        (∃ reason, b = .error reason) ∧ s' = s ∧ l' = l
  | .send _ _ => s' = { s with downloads := s.downloads + 1 } ∧ l' = l
  | .chunk => s' = s ∧ l' = l
  | .createFile path =>
      b = .ok () ∧ Opens s.disk (s.disk.follow (S.lookup.locate path)) ∧
          s' = { s with disk := (s.disk.create (s.disk.follow (S.lookup.locate path))).2 } ∧
          l' = { l with
            file := some ((s.disk.create (s.disk.follow (S.lookup.locate path))).1, 0)
            archived := true
            written := [] } ∨
        (∃ reason, b = .error reason) ∧ s' = s ∧ l' = l
  | .write buffer =>
      (∃ n i offset, l.file = some (i, offset) ∧ b = .ok (buffer.take n).length ∧
          s' = { s with disk := s.disk.overwrite i offset (buffer.take n) } ∧
          l' = { l with
            file := some (i, offset + (buffer.take n).length)
            written := l.written ++ buffer.take n }) ∨
        (∃ reason, b = .error reason) ∧ s' = s ∧ l' = l
  | .flush => s' = s ∧ l' = l
  | .close => s' = s ∧ l' = { l with file := none }
  | .removeFile path =>
      l' = l ∧ (s' = s ∨ s.disk.node (S.lookup.locate path) ≠ some .dir ∧
        s' = { s with disk := s.disk.remove (S.lookup.locate path) })
  | .stagingDir root =>
      Unused S l.request s (S.lookup.locate b) ∧
        (∃ id, b = root ++ [stagingName l.request.process id]) ∧
        s' = { s with stages := S.lookup.locate b :: s.stages } ∧ l' = { l with stage := some b }
  | .openArchive path =>
      s' = s ∧
        ((∃ i, b = .ok () ∧
            s.disk.node (s.disk.follow (S.lookup.locate path)) = some (.file i) ∧
            l' = { l with reading := some (i, 0), read := [] }) ∨
          (∃ reason, b = .error reason) ∧ l' = l)
  | .readArchive =>
      s' = s ∧
        ((∃ i offset, l.reading = some (i, offset) ∧ (s.disk.data i).drop offset = [] ∧
            b = .ok none ∧ l' = { l with unpacked := some l.read }) ∨
          (∃ i offset bytes, l.reading = some (i, offset) ∧
            bytes <+: (s.disk.data i).drop offset ∧ b = .ok (some bytes) ∧
            l' = { l with
              reading := some (i, offset + bytes.length)
              read := l.read ++ bytes }) ∨
          (∃ reason, b = .error reason) ∧ l' = l)
  | .unpackEntry staging name _ =>
      l' = l ∧ (s' = s ∨ ∃ contents,
        s' = { s with disk := s.disk.place (S.lookup.locate staging ++ name) contents })

section Answers

variable {S : Site} {s s' : Installing} {l l' : Installation} {c : InstallChoice}

theorem RunOp.answers_of_respond {β : Type} {op : RunOp β} {b : β}
    (h : op.respond S s l c = some (b, s', l')) : op.Answers S s l b s' l' := by
  cases op with
  | selectDistribution =>
      simp only [respond] at h
      split at h <;> cases h
      · exact ⟨rfl, rfl, .inl rfl⟩
      · exact ⟨rfl, rfl, .inr ⟨_, rfl⟩⟩
  | begin job =>
      simp only [respond] at h
      split at h <;> cases h
      exact ⟨‹_›, rfl, rfl⟩
  | finish =>
      simp only [respond] at h
      split at h <;> cases h
      · rename_i hw
        exact ⟨by rw [hw]; exact Option.some_ne_none _, rfl, rfl⟩
      · rename_i hw
        exact ⟨by rw [hw]; exact Option.some_ne_none _, rfl, rfl⟩
  | openLock path =>
      simp only [respond] at h
      split at h
      · split at h
        · split at h <;> cases h
          exact ⟨rfl, .inr ⟨‹_›, rfl⟩⟩
        · cases h
      · cases h
        exact ⟨rfl, .inl rfl⟩
      · cases h
  | lockExclusive path =>
      simp only [respond] at h
      split at h
      · split at h <;> cases h
        exact .inl ⟨rfl, ‹_›, rfl, rfl⟩
      · cases h
        exact .inr ⟨⟨_, rfl⟩, rfl, rfl⟩
      · cases h
  | send url headers =>
      simp only [respond] at h
      split at h <;> cases h <;> exact ⟨rfl, rfl⟩
  | chunk =>
      simp only [respond] at h
      split at h <;> cases h <;> exact ⟨rfl, rfl⟩
  | createFile path =>
      simp only [respond] at h
      split at h
      · split at h <;> cases h
        exact .inl ⟨rfl, ‹_›, rfl, rfl⟩
      · cases h
        exact .inr ⟨⟨_, rfl⟩, rfl, rfl⟩
      · cases h
  | write buffer =>
      simp only [respond] at h
      split at h
      · rename_i n i offset hfile
        cases h
        exact .inl ⟨n, i, offset, hfile, rfl, rfl, rfl⟩
      · cases h
        exact .inr ⟨⟨_, rfl⟩, rfl, rfl⟩
      · cases h
  | flush =>
      simp only [respond] at h
      split at h <;> cases h <;> exact ⟨rfl, rfl⟩
  | close =>
      cases h
      exact ⟨rfl, rfl⟩
  | removeFile path =>
      simp only [respond] at h
      split at h
      · split at h <;> cases h
        rename_i hnode
        exact ⟨rfl, .inr ⟨hnode.2, rfl⟩⟩
      · cases h
        exact ⟨rfl, .inl rfl⟩
      · cases h
  | stagingDir root =>
      simp only [respond] at h
      split at h
      · split at h <;> cases h
        exact ⟨‹_›, ⟨_, rfl⟩, rfl, rfl⟩
      · cases h
  | openArchive path =>
      simp only [respond] at h
      split at h
      · cases h
        exact ⟨rfl, .inl ⟨_, rfl, ‹_›, rfl⟩⟩
      · cases h
        exact ⟨rfl, .inr ⟨⟨_, rfl⟩, rfl⟩⟩
      · cases h
  | readArchive =>
      simp only [respond] at h
      split at h
      · rename_i n i offset hreading
        split at h <;> cases h
        · exact ⟨rfl, .inl ⟨i, offset, hreading, ‹_›, rfl, rfl⟩⟩
        · exact ⟨rfl, .inr (.inl ⟨i, offset, _, hreading, List.take_prefix _ _, rfl, rfl⟩)⟩
      · cases h
        exact ⟨rfl, .inr (.inr ⟨⟨_, rfl⟩, rfl⟩)⟩
      · cases h
  | unpackEntry staging name contents =>
      simp only [respond] at h
      split at h
      · split at h <;> cases h
        exact ⟨rfl, .inr ⟨_, rfl⟩⟩
      · split at h <;> cases h
        exact ⟨rfl, .inr ⟨_, rfl⟩⟩
      · cases h
        exact ⟨rfl, .inl rfl⟩
      · cases h

theorem answers_of_inl {β : Type} {op : RunOp β} {b : β}
    (h : InstallOp.respond S (.inl op) (s, l) c = some (b, s', l')) : op.Answers S s l b s' l' :=
  RunOp.answers_of_respond h

theorem answers_of_inr {β : Type} {op : StoreOp β} {b : β}
    (h : InstallOp.respond S (.inr op) (s, l) c = some (b, s', l')) :
    ∃ provider sc d, op.respond S.lookup provider s.disk sc = some (b, d) ∧
      s' = { s with disk := d } ∧ l' = l.after S op b := by
  simp only [InstallOp.respond] at h
  split at h
  · rename_i provider sc
    rcases Option.map_eq_some_iff.mp h with ⟨⟨b', d⟩, hstore, heq⟩
    cases heq
    exact ⟨provider, sc, d, hstore, rfl, rfl⟩
  · cases h

end Answers

/-! ## What a call asserts -/

/-- A directory that was unpacked. -/
def Installation.Staged (l : Installation) (path : PathBuf) : Prop :=
  ∃ stage name, l.stage = some stage ∧ name ≠ ".." ∧ path = stage ++ [name]

/-- The staging directory is a new one in the root, and none of the call's other
    paths leads into it. -/
def Installation.Stages (S : Site) (l : Installation) : Prop :=
  ∀ stage, l.stage = some stage →
    (∃ id, stage = S.cacheRoot l.request ++ [stagingName l.request.process id]) ∧
      ¬ S.lookup.locate stage <+: S.lookup.locate (S.installDir l.request) ∧
      ¬ S.lookup.locate stage <+: S.lookup.locate (S.aside l.request) ∧
      ¬ S.lookup.locate stage <+: S.lookup.locate (S.archivePath l.request)

/-- What was written has the published digest. -/
def Installation.Verified (S : Site) (l : Installation) : Prop :=
  Install.verified l.request.distribution.expectedSha256 (S.sha256 l.written) = true

namespace InstallOp

/-- The directories a call makes by `tokio::fs`. -/
def Makes (S : Site) (r : InstallRequest) (path : PathBuf) : Prop :=
  path = S.cacheRoot r ∨ (lockPathOf (S.installDir r)).parent = some path ∨
    (S.archivePath r).parent = some path

/-- The paths an effect names, and the closure it is part of. -/
def Footprint {β : Type} (S : Site) (op : InstallOp β) (l : Installation) : Prop :=
  match op with
  | .inl .selectDistribution => l.working = none
  | .inl (.begin job) => l.working = none ∧ (job = .takeLock → l.lock = none)
  | .inl .finish => l.working ≠ none
  | .inl (.openLock path) =>
      path = lockPathOf (S.installDir l.request) ∧ l.working = some .takeLock
  | .inl (.lockExclusive path) =>
      path = lockPathOf (S.installDir l.request) ∧ l.working = some .takeLock ∧ l.lock = none
  | .inl (.createFile path) =>
      path = S.archivePath l.request ∧ l.working = some .createArchive
  | .inl (.write _) => l.working = some .write
  | .inl (.removeFile path) => path = S.archivePath l.request ∧ l.working = some .removeFile
  | .inl (.stagingDir root) => root = S.cacheRoot l.request ∧ l.working = none
  | .inl (.openArchive path) => path = S.archivePath l.request ∧ l.working = some .extract
  | .inl .readArchive => l.working = some .extract
  | .inl (.unpackEntry staging _ _) => l.stage = some staging ∧ l.working = some .extract
  | .inl _ => l.working = none
  | .inr (.createDirAll path) =>
      l.working = some .createDirs ∧ Makes S l.request path ∨
        l.working = some .extract ∧ l.stage = some path ∨
        l.working = some .promote ∧ (S.installDir l.request).parent = some path
  | .inr (.pathExists _) => l.working = some .promote
  | .inr (.rename source target) =>
      l.working = some .promote ∧
        (source = S.installDir l.request ∧ target = S.aside l.request ∨
          l.Staged source ∧ target = S.installDir l.request ∨
          source = S.aside l.request ∧ target = S.installDir l.request)
  | .inr (.removeNext path) =>
      l.working = some .removeDir ∧ l.stage = some path ∨
        l.working = some .promote ∧ path = S.aside l.request
  | .inr (.readDir path) => l.working = some .extract ∧ l.stage = some path
  | .inr (.isInside _ _) => False
  | .inr (.layout path) => path = S.installDir l.request ∧ l.working = none

/-- How far a call is at an effect. -/
def When {β : Type} (S : Site) (op : InstallOp β) (l : Installation) : Prop :=
  match op with
  | .inl .selectDistribution => l.phase = .early
  | .inl (.begin .createDirs) => l.phase = .early ∨ l.phase = .declined
  | .inl (.begin .takeLock) => l.phase = .early
  | .inl (.begin .removeFile) => l.phase = .declined ∨ l.phase = .landed
  | .inl (.begin .removeDir) => l.phase = .declined ∨ l.phase = .landed
  | .inl (.begin .promote) => l.phase = .declined ∧ l.Verified S ∧ l.unpacked ≠ none
  | .inl (.begin _) => l.phase = .declined
  | .inl .finish => True
  | .inl (.openLock _) => l.phase = .early
  | .inl (.lockExclusive _) => l.phase = .early
  | .inl (.removeFile _) => l.phase = .declined ∨ l.phase = .landed
  | .inl _ => l.phase = .declined
  | .inr (.createDirAll _) => l.phase = .early ∨ l.phase = .declined
  | .inr (.removeNext _) => l.phase = .declined ∨ l.phase = .landed
  | .inr (.rename source _) =>
      (l.phase = .declined ∨ l.phase = .moved) ∧
        (source = S.installDir l.request → l.phase = .declined) ∧
        (source = S.aside l.request → source ≠ S.installDir l.request → l.phase = .moved)
  | .inr (.layout _) => l.phase = .holding ∨ l.phase = .landed
  | .inr _ => l.phase = .declined

/-- How far a call is at an effect, and that it has its lock. -/
def Custody {β : Type} (S : Site) (op : InstallOp β) (l : Installation) : Prop :=
  (l.phase ≠ .early → l.lock = some (S.lockAt l.request)) ∧ op.When S l

end InstallOp

/-- What a call asserts at each effect, and what a closure that is left of one does. -/
def Conduct (S : Site) : ∀ β, InstallOp β → Installation → Prop :=
  fun _ op l => InstallOp.Footprint S op l ∧ l.Stages S ∧ l.ended = false ∧
    (l.task = none → InstallOp.Custody S op l) ∧
    ∀ job, l.task = some job → InstallOp.job op l = some job

/-- What a call has returned: the layout it was told last, if it was told one. -/
def Installation.Told (S : Site) (l : Installation) (result : Except Error ResolvedRuntime) :
    Prop :=
  ∀ layout, l.answer = some (.ok (some layout)) →
    result = .ok (managed l.request.language (S.installDir l.request) layout)

/-- Where a call is. -/
structure Running (S : Site) (r : InstallRequest) (phase : Phase) (l : Installation) : Prop where
  request : l.request = r
  task : l.task = none
  ended : l.ended = false
  far : l.phase = phase
  lock : l.lock = if phase = .early then none else some (S.lockAt r)
  stages : l.Stages S
  answer : ∀ layout, l.answer ≠ some (.ok (some layout))

/-- Where a call is between its closures. -/
structure At (S : Site) (r : InstallRequest) (phase : Phase) (l : Installation) : Prop where
  running : Running S r phase l
  working : l.working = none
  reading : l.reading = none

/-- The locals a call's whereabouts depend on. -/
def Installation.core (l : Installation) :=
  (l.request, l.task, l.ended, l.phase, l.lock, l.stage, l.answer)

section Walk

variable {S : Site} {r : InstallRequest} {phase : Phase} {l l' : Installation} {α β : Type}

theorem Running.congr (h : Running S r phase l) (hcore : l'.core = l.core) :
    Running S r phase l' := by
  simp only [Installation.core, Prod.mk.injEq] at hcore
  rcases hcore with ⟨hr, ht, he, hp, hl, hs, ha⟩
  refine ⟨hr ▸ h.request, ht ▸ h.task, he ▸ h.ended, hp ▸ h.far, hl ▸ h.lock, ?_, ha ▸ h.answer⟩
  have hstages := h.stages
  rw [Installation.Stages] at hstages ⊢
  rw [hs, hr]
  exact hstages

theorem Running.conduct {op : InstallOp β} (h : Running S r phase l) (hf : op.Footprint S l)
    (hw : op.When S l) : Conduct S β op l := by
  refine ⟨hf, h.stages, h.ended, fun _ => ⟨fun hne => ?_, hw⟩, fun job hjob => ?_⟩
  · rw [h.lock, if_neg (h.far ▸ hne), h.request]
  · rw [h.task] at hjob
    cases hjob

/-- One effect of the install. -/
theorem wp_runOp {op : RunOp β} {Q : β → Installation → Prop} (hA : Conduct S β (.inl op) l)
    (hQ : ∀ s b s' l', op.Answers S s l b s' l' → Q b l') :
    (@Prog.op InstallOp β (.inl op)).wp (installs S).localised (Conduct S) Q l := by
  refine ⟨hA, ?_⟩
  rintro ⟨s, c⟩ b l' hr
  rcases Option.map_eq_some_iff.mp hr with ⟨⟨b', s', l''⟩, hrespond, heq⟩
  cases heq
  exact hQ s _ s' _ (RunOp.answers_of_respond hrespond)

/-- A call of the store is answered by the store. -/
theorem localised_store {op : StoreOp β} {s : Installing} {c : InstallChoice} {b : β}
    (hr : (installs S).localised.respond (.inr op) l (s, c) = some (b, l')) :
    ∃ provider sc d, op.respond S.lookup provider s.disk sc = some (b, d) ∧
      l' = l.after S op b := by
  rcases Option.map_eq_some_iff.mp hr with ⟨⟨b', s', l''⟩, hrespond, heq⟩
  cases heq
  rcases answers_of_inr hrespond with ⟨provider, sc, d, hstore, _, hl⟩
  exact ⟨provider, sc, d, hstore, hl⟩

/-- One call of the store. -/
theorem wp_storeOp {op : StoreOp β} {Q : β → Installation → Prop} (hA : Conduct S β (.inr op) l)
    (hQ : ∀ provider d b d', op.Answers S.lookup provider d b d' → Q b (l.after S op b)) :
    (@Prog.op InstallOp β (.inr op)).wp (installs S).localised (Conduct S) Q l := by
  refine ⟨hA, ?_⟩
  rintro ⟨s, c⟩ b l' hr
  rcases localised_store hr with ⟨provider, sc, d, hstore, rfl⟩
  exact hQ provider s.disk _ d (StoreOp.answers_of_respond hstore)

/-- It runs inside its closures as well. -/
theorem At.within (h : At S r phase l) (job : BlockingJob) :
    Running S r phase { l with working := some job } :=
  h.running.congr rfl

/-- One effect of the install of a call that runs. -/
theorem Running.runOp {op : RunOp β} {Q : β → Installation → Prop} (h : Running S r phase l)
    (hf : @InstallOp.Footprint β S (.inl op) l) (hw : @InstallOp.When β S (.inl op) l)
    (hQ : ∀ s b s' l', op.Answers S s l b s' l' → Q b l') :
    (@Prog.op InstallOp β (.inl op)).wp (installs S).localised (Conduct S) Q l :=
  wp_runOp (h.conduct hf hw) hQ

/-- One call of the store of a call that runs. -/
theorem Running.storeOp {op : StoreOp β} {Q : β → Installation → Prop} (h : Running S r phase l)
    (hf : @InstallOp.Footprint β S (.inr op) l) (hw : @InstallOp.When β S (.inr op) l)
    (hQ : ∀ provider d b d', op.Answers S.lookup provider d b d' → Q b (l.after S op b)) :
    (@Prog.op InstallOp β (.inr op)).wp (installs S).localised (Conduct S) Q l :=
  wp_storeOp (h.conduct hf hw) hQ

/-- The store's calls as one call sees them. -/
def storeLocal (S : Site) : Handler StoreOp Installation (Inspect × Disk String × StoreChoice) where
  respond op l c := (op.respond S.lookup c.1 c.2.1 c.2.2).map fun r => (r.1, l.after S op r.1)

theorem wp_local {op : StoreOp β} {A : ∀ β, StoreOp β → Installation → Prop}
    {Q : β → Installation → Prop} (hA : A _ op l)
    (hQ : ∀ provider d b d', op.Answers S.lookup provider d b d' → Q b (l.after S op b)) :
    (Prog.op op).wp (storeLocal S) A Q l := by
  refine ⟨hA, ?_⟩
  rintro ⟨provider, d, c⟩ b l' hr
  rcases Option.map_eq_some_iff.mp hr with ⟨⟨b', d'⟩, hstore, heq⟩
  cases heq
  exact hQ provider d _ d' (StoreOp.answers_of_respond hstore)

/-- A program of the store, inside an install. -/
theorem wp_onStore {p : Prog StoreOp α} {Q : α → Installation → Prop}
    (h : p.wp (storeLocal S) (fun _ op => Conduct S _ (.inr op)) Q l) :
    (p.embed fun _ op => (.inr op : InstallOp _)).wp (installs S).localised (Conduct S) Q l := by
  refine Prog.wp_embed Eq (fun _ _ _ _ heq hA => heq ▸ hA) ?_ (fun _ _ _ heq hQ => heq ▸ hQ) p
    l l rfl h
  rintro β op l _ ⟨s, c⟩ b l' rfl _ hr
  rcases localised_store hr with ⟨provider, sc, d, hstore, rfl⟩
  exact ⟨(provider, s.disk, sc), _, by simp only [storeLocal, hstore, Option.map_some], rfl⟩

/-- The locals after a closure that changed none of them. -/
theorem At.settled (h : At S r phase l) (job : BlockingJob) :
    { { l with working := some job } with working := none, reading := none } = l := by
  have hw := h.working
  have hr := h.reading
  cases l
  simp only at hw hr
  rw [hw, hr]

theorem At.start (h : At S r phase l) {job : BlockingJob} {Q : Unit → Installation → Prop}
    (hjob : @InstallOp.When Unit S (.inl (.begin job)) l)
    (hQ : Q () { l with working := some job }) :
    (@Prog.op InstallOp Unit (.inl (.begin job))).wp (installs S).localised (Conduct S) Q l := by
  have hlock : job = .takeLock → l.lock = none := by
    rintro rfl
    have hearly : phase = .early := h.running.far.symm.trans hjob
    rw [h.running.lock, if_pos hearly]
  refine h.running.runOp ⟨h.working, hlock⟩ hjob ?_
  rintro s ⟨⟩ s' l' ⟨_, _, rfl⟩
  exact hQ

theorem Running.finish (h : Running S r phase l) (hw : l.working ≠ none)
    {Q : Option String → Installation → Prop}
    (hQ : ∀ panic, Q panic { l with working := none, reading := none }) :
    (@Prog.op InstallOp _ (.inl .finish)).wp (installs S).localised (Conduct S) Q l := by
  refine h.runOp hw trivial ?_
  rintro s panic s' l' ⟨_, _, rfl⟩
  exact hQ panic

/-- A call of `tokio::fs`. -/
theorem onThread_spec {job : BlockingJob} {work : Prog InstallOp α} {Q : α → Installation → Prop}
    (h : At S r phase l) (hjob : @InstallOp.When Unit S (.inl (.begin job)) l)
    (hwork : work.wp (installs S).localised (Conduct S)
      (fun a l' => Running S r phase l' ∧ l'.working ≠ none ∧
        Q a { l' with working := none, reading := none }) { l with working := some job }) :
    (Install.onThread job work).wp (installs S).localised (Conduct S) Q l := by
  rw [Install.onThread, Prog.wp_bind]
  refine h.start hjob ?_
  rw [Prog.wp_bind]
  refine Prog.wp_mono _ ?_ _ hwork
  rintro a l' ⟨hrun, hw, hQ⟩
  rw [Prog.wp_bind]
  exact hrun.finish hw fun _ => hQ

/-- One that changes no locals. -/
theorem onThread_quiet {job : BlockingJob} {work : Prog InstallOp α} {Q : α → Installation → Prop}
    (h : At S r phase l) (hjob : @InstallOp.When Unit S (.inl (.begin job)) l)
    (hwork : work.wp (installs S).localised (Conduct S)
      (fun _ l' => l' = { l with working := some job }) { l with working := some job })
    (hQ : ∀ a, Q a l) :
    (Install.onThread job work).wp (installs S).localised (Conduct S) Q l := by
  refine onThread_spec h hjob (Prog.wp_mono _ ?_ _ hwork)
  rintro a _ rfl
  refine ⟨h.running.congr rfl, Option.some_ne_none _, ?_⟩
  rw [h.settled job]
  exact hQ a

/-- `blocking::run`. -/
theorem blocking_spec {language : Language} {job : BlockingJob} {work : Prog InstallOp (Except Error α)}
    {Q : Except Error α → Installation → Prop} (h : At S r phase l)
    (hjob : @InstallOp.When Unit S (.inl (.begin job)) l)
    (hwork : work.wp (installs S).localised (Conduct S)
      (fun a l' => ∃ phase', Running S r phase' l' ∧ l'.working ≠ none ∧
        Q a { l' with working := none, reading := none } ∧
        ∀ e, Q (.error e) { l' with working := none, reading := none })
      { l with working := some job }) :
    (Install.blocking language job work).wp (installs S).localised (Conduct S) Q l := by
  rw [Install.blocking, Prog.wp_bind]
  refine h.start hjob ?_
  rw [Prog.wp_bind]
  refine Prog.wp_mono _ ?_ _ hwork
  rintro a l' ⟨phase', hrun, hw, hQ, herror⟩
  rw [Prog.wp_bind]
  refine hrun.finish hw fun panic => ?_
  cases panic with
  | none => exact hQ
  | some reason => exact herror _

/-! ## The stages -/

theorem createDirs_spec {path : PathBuf} {Q : Except Error Unit → Installation → Prop}
    (h : At S r phase l) (hphase : phase = .early ∨ phase = .declined)
    (hpath : InstallOp.Makes S r path) (hQ : ∀ result, Q result l) :
    (Install.createDirs path).run.wp (installs S).localised (Conduct S) Q l := by
  have hwhen : l.phase = .early ∨ l.phase = .declined := by
    rw [h.running.far]
    exact hphase
  have hmakes : InstallOp.Makes S l.request path := by
    rw [h.running.request]
    exact hpath
  rw [Install.createDirs, Prog.wp_run_mk, Prog.wp_bind]
  refine onThread_quiet h hwhen ?_ fun result => ?_
  · refine (h.within .createDirs).storeOp (.inl ⟨rfl, hmakes⟩) hwhen ?_
    exact fun _ _ _ _ _ => rfl
  · cases result with
    | ok u => exact hQ _
    | error reason => exact hQ _

theorem createParent_spec {path : PathBuf} {Q : Except Error Unit → Installation → Prop}
    (h : At S r phase l) (hphase : phase = .early ∨ phase = .declined)
    (hpath : ∀ parent, path.parent = some parent → InstallOp.Makes S r parent)
    (hQ : ∀ result, Q result l) :
    (Install.createParent path).run.wp (installs S).localised (Conduct S) Q l := by
  rw [Install.createParent]
  cases hparent : path.parent with
  | none => exact hQ _
  | some parent => exact createDirs_spec h hphase (hpath parent hparent) hQ

/-- The locals of a call that has its lock. -/
def Installation.locked (S : Site) (l : Installation) (tree : Tree) : Installation :=
  { l with lock := some (S.lockAt l.request), phase := .holding, found := some tree }

theorem takeLock_spec {Q : Except Error Unit → Installation → Prop} (h : At S r .early l)
    (herror : ∀ e, Q (.error e) { l with working := some .takeLock })
    (hok : ∀ tree, Q (.ok ()) { l.locked S tree with working := some .takeLock }) :
    (Install.takeLock r.language (lockPathOf (S.installDir r))).wp (installs S).localised (Conduct S)
      Q { l with working := some .takeLock } := by
  have hpath : lockPathOf (S.installDir r) = lockPathOf (S.installDir l.request) := by
    rw [h.running.request]
  have hrun := h.within .takeLock
  rw [Install.takeLock, Prog.wp_bind]
  refine hrun.runOp ⟨hpath, rfl⟩ hrun.far ?_
  rintro s opened s' l' ⟨rfl, _⟩
  cases opened with
  | error reason => exact herror _
  | ok u =>
      dsimp only
      rw [Prog.wp_bind]
      refine hrun.runOp ⟨hpath, rfl, hrun.lock⟩ hrun.far ?_
      rintro s taken s' l' (⟨rfl, _, _, rfl⟩ | ⟨⟨reason, rfl⟩, _, rfl⟩)
      · have hlock : S.lookup.locate (lockPathOf (S.installDir r)) = S.lockAt l.request := by
          rw [hpath, Site.lockAt]
        rw [hlock]
        exact hok _
      · exact herror _

theorem acquire_spec {Q : Except Error Unit → Installation → Prop} (h : At S r .early l)
    (herror : ∀ e l', l'.answer = l.answer → Q (.error e) l')
    (hok : ∀ l', At S r .holding l' → Q (.ok ()) l') :
    (Install.acquire r.language (S.installDir r)).run.wp (installs S).localised (Conduct S) Q l := by
  rw [Install.acquire, Prog.wp_run_bind]
  refine createParent_spec h (.inl rfl) (fun parent hparent => .inr (.inl hparent)) fun result => ?_
  cases result with
  | error e => exact herror e l rfl
  | ok u =>
      dsimp only
      rw [Prog.wp_run_mk]
      refine blocking_spec h h.running.far (takeLock_spec h (fun e => ?_) fun tree => ?_)
      · exact ⟨.early, h.running.congr rfl, Option.some_ne_none _, herror _ _ rfl,
          fun _ => herror _ _ rfl⟩
      · have hrun : Running S r .holding (l.locked S tree) := by
          refine ⟨h.running.request, h.running.task, h.running.ended, rfl, ?_, h.running.stages,
            h.running.answer⟩
          rw [← h.running.request]
          rfl
        exact ⟨.holding, hrun.congr rfl, Option.some_ne_none _,
          hok _ ⟨hrun.congr rfl, rfl, rfl⟩, fun _ => herror _ _ rfl⟩

theorem removeFile_spec {Q : Unit → Installation → Prop} (h : At S r phase l)
    (hphase : phase = .declined ∨ phase = .landed) (hQ : Q () l) :
    (Install.removeFile (S.archivePath r)).wp (installs S).localised (Conduct S) Q l := by
  have hwhen : l.phase = .declined ∨ l.phase = .landed := by
    rw [h.running.far]
    exact hphase
  have hpath : S.archivePath r = S.archivePath l.request := by rw [h.running.request]
  rw [Install.removeFile, Prog.wp_bind]
  refine onThread_quiet h hwhen ?_ fun _ => hQ
  refine (h.within .removeFile).runOp ⟨hpath, rfl⟩ hwhen ?_
  exact fun _ _ _ _ ha => ha.1

/-- A recursive deletion leaves the locals as they are. -/
theorem removeDirAll_conduct {path : PathBuf}
    (h : @Conduct S _ (.inr (.removeNext path)) l) (removals : Nat) :
    (removeDirAll path removals).wp (storeLocal S) (fun _ op => Conduct S _ (.inr op))
      (fun _ l' => l' = l) l := by
  induction removals with
  | zero => exact rfl
  | succ removals ih =>
      rw [removeDirAll, Prog.wp_bind]
      refine wp_local h ?_
      intro _ _ b _ _
      split
      · exact rfl
      · exact rfl
      · exact ih

theorem install_discard {path : PathBuf} {removals : Nat} {Q : Unit → Installation → Prop}
    (h : At S r phase l) (hphase : phase = .declined ∨ phase = .landed)
    (hstage : l.stage = some path) (hQ : Q () l) :
    (Install.discard removals path).wp (installs S).localised (Conduct S) Q l := by
  have hwhen : l.phase = .declined ∨ l.phase = .landed := by
    rw [h.running.far]
    exact hphase
  rw [Install.discard, Prog.wp_bind]
  refine onThread_quiet h hwhen (wp_onStore (removeDirAll_conduct ?_ removals)) fun _ => hQ
  exact @Running.conduct _ _ _ _ _ (.inr (.removeNext path)) (h.within .removeDir)
    (.inl ⟨rfl, hstage⟩) hwhen

/-! ### The download -/

/-- What a download that goes on may change. -/
def Installation.writes (l l' : Installation) : Prop :=
  l'.working = l.working ∧ l'.reading = l.reading ∧ l'.stage = l.stage

theorem writeAll_spec (rounds : Nat) : ∀ (buffer : List UInt8) (l : Installation),
    Running S r .declined l → l.working = some .write →
    (Install.writeAll rounds buffer).wp (installs S).localised (Conduct S)
      (fun result l' => Running S r .declined l' ∧ l.writes l' ∧
        (result = .ok () → l'.written = l.written ++ buffer)) l := by
  induction rounds with
  | zero =>
      intro buffer l h _
      cases buffer with
      | nil => exact ⟨h, ⟨rfl, rfl, rfl⟩, fun _ => (List.append_nil _).symm⟩
      | cons b buffer => exact ⟨h, ⟨rfl, rfl, rfl⟩, fun hr => by cases hr⟩
  | succ rounds ih =>
      intro buffer l h hw
      cases buffer with
      | nil => exact ⟨h, ⟨rfl, rfl, rfl⟩, fun _ => (List.append_nil _).symm⟩
      | cons b buffer =>
          rw [Install.writeAll.eq_3 _ _ (by simp only [reduceCtorEq, imp_self]), Prog.wp_bind]
          refine h.runOp hw h.far ?_
          rintro s result s' l' (⟨n, i, offset, _, rfl, _, rfl⟩ | ⟨⟨reason, rfl⟩, _, rfl⟩)
          · split
            · rename_i heq
              cases heq
            · exact ⟨h.congr rfl, ⟨rfl, rfl, rfl⟩, fun hr => by cases hr⟩
            · rename_i written _ heq
              have hlen : written = ((b :: buffer).take n).length := (Except.ok.inj heq).symm
              refine Prog.wp_mono _ ?_ _ (ih _ _ (h.congr rfl) hw)
              rintro result l' ⟨hrun, hwrites, hdone⟩
              refine ⟨hrun, hwrites, fun hr => ?_⟩
              rw [hdone hr, hlen, List.append_assoc, List.length_take]
              rcases Nat.le_total n (b :: buffer).length with hle | hle
              · rw [Nat.min_eq_left hle, List.take_append_drop]
              · rw [Nat.min_eq_right hle, List.drop_length, List.append_nil,
                  List.take_of_length_le hle]
          · exact ⟨h, ⟨rfl, rfl, rfl⟩, fun hr => by cases hr⟩

theorem writeChunks_spec (rounds : Nat) : ∀ (hashed : List UInt8) (l : Installation),
    At S r .declined l → hashed = l.written →
    (Install.writeChunks r.language rounds hashed).wp (installs S).localised (Conduct S)
      (fun result l' => At S r .declined l' ∧ ∀ hashed, result = .ok hashed → hashed = l'.written)
      l := by
  induction rounds with
  | zero => exact fun _ _ h _ => ⟨h, fun _ hr => by cases hr⟩
  | succ rounds ih =>
      intro hashed l h hhashed
      rw [Install.writeChunks, Prog.wp_bind]
      refine h.running.runOp h.working h.running.far ?_
      rintro s result s' l' ⟨_, rfl⟩
      split
      · exact ⟨h, fun _ hr => by cases hr⟩
      · exact ⟨h, fun _ hr => Except.ok.inj hr ▸ hhashed⟩
      · rename_i bytes
        rw [Prog.wp_bind]
        refine onThread_spec h h.running.far ?_
        refine Prog.wp_mono _ ?_ _ (writeAll_spec _ bytes _ (h.running.congr rfl) rfl)
        rintro result l₁ ⟨hrun, ⟨hw, _, _⟩, hdone⟩
        have hat : At S r .declined { l₁ with working := none, reading := none } :=
          ⟨hrun.congr rfl, rfl, rfl⟩
        refine ⟨hrun, by rw [hw]; exact Option.some_ne_none _, ?_⟩
        cases result with
        | error reason => exact ⟨hat, fun _ hr => by cases hr⟩
        | ok u => exact ih _ _ hat (by rw [hhashed]; exact (hdone rfl).symm)

theorem streamToFile_spec (h : At S r .declined l) :
    (Install.streamToFile S r r.distribution (S.archivePath r)).wp (installs S).localised
      (Conduct S) (fun result l' => At S r .declined l' ∧
        ∀ digest, result = .ok digest → digest = S.sha256 l'.written) l := by
  have hpath : S.archivePath r = S.archivePath l.request := by rw [h.running.request]
  rw [Install.streamToFile, Prog.wp_bind]
  refine h.running.runOp h.working h.running.far ?_
  rintro s sent s' l' ⟨_, rfl⟩
  cases sent with
  | error e => exact ⟨h, fun _ hr => by cases hr⟩
  | ok u =>
      dsimp only
      rw [Prog.wp_bind]
      refine onThread_spec h h.running.far ?_
      refine (h.within .createArchive).runOp ⟨hpath, rfl⟩ h.running.far ?_
      rintro s created s' l' (⟨rfl, _, _, rfl⟩ | ⟨⟨reason, rfl⟩, _, rfl⟩)
      · refine ⟨h.running.congr rfl, Option.some_ne_none _, ?_⟩
        dsimp only
        rw [Prog.wp_bind, Install.writeBody, Prog.wp_bind]
        refine Prog.wp_mono _ ?_ _ (writeChunks_spec r.rounds [] _ ⟨h.running.congr rfl, rfl, rfl⟩ rfl)
        rintro body l₁ ⟨hat, hbody⟩
        -- The file is dropped whether or not all was written.
        have hclose : ∀ (result : Except Error (List UInt8)),
            (∀ hashed, result = .ok hashed → hashed = l₁.written) →
            (do Prog.op (.inl .close)
                pure (result.map S.sha256) : Prog InstallOp (Except Error String)).wp
              (installs S).localised (Conduct S) (fun result l' => At S r .declined l' ∧
                ∀ digest, result = .ok digest → digest = S.sha256 l'.written) l₁ := by
          intro result hresult
          rw [Prog.wp_bind]
          refine hat.running.runOp hat.working hat.running.far ?_
          rintro s ⟨⟩ s' l' ⟨_, rfl⟩
          refine ⟨⟨hat.running.congr rfl, hat.working, hat.reading⟩, fun digest hdigest => ?_⟩
          cases result with
          | error e => cases hdigest
          | ok hashed => exact Except.ok.inj hdigest ▸ congrArg S.sha256 (hresult hashed rfl)
        cases body with
        | error e => exact hclose _ hbody
        | ok hashed =>
            dsimp only
            rw [Prog.wp_bind]
            refine hat.running.runOp hat.working hat.running.far ?_
            rintro s flushed s' l' ⟨_, rfl⟩
            cases flushed with
            | error reason => exact hclose _ fun _ hr => by cases hr
            | ok u => exact hclose _ hbody
      · refine ⟨h.running.congr rfl, Option.some_ne_none _, ?_⟩
        rw [h.settled]
        exact ⟨h, fun _ hr => by cases hr⟩

theorem fetch_spec {Q : Except Error Unit → Installation → Prop} (h : At S r .declined l)
    (herror : ∀ e l', At S r .declined l' → Q (.error e) l')
    (hok : ∀ l', At S r .declined l' → l'.Verified S → Q (.ok ()) l') :
    (Install.fetch S r r.distribution (S.archivePath r)).run.wp (installs S).localised (Conduct S)
      Q l := by
  rw [Install.fetch, Prog.wp_run_bind]
  refine createParent_spec h (.inr rfl) (fun parent hparent => .inr (.inr hparent)) fun result => ?_
  cases result with
  | error e => exact herror e l h
  | ok u =>
      dsimp only
      rw [Prog.wp_run_mk, Prog.wp_bind]
      refine Prog.wp_mono _ ?_ _ (streamToFile_spec h)
      rintro result l' ⟨hat, hdigest⟩
      have hremove : ∀ e, (do Install.removePartial (S.archivePath r)
                              pure (.error e) : Prog InstallOp (Except Error Unit)).wp
          (installs S).localised (Conduct S) Q l' := by
        intro e
        rw [Prog.wp_bind]
        exact removeFile_spec hat (.inl rfl) (herror e l' hat)
      cases result with
      | error e => exact hremove e
      | ok digest =>
          dsimp only
          split
          · rename_i hverified
            refine hok l' hat ?_
            rw [Installation.Verified, hat.running.request, ← hdigest digest rfl]
            exact hverified
          · exact hremove _

/-! ### Unpacking -/

theorem readAll_spec (rounds : Nat) : ∀ (before : List UInt8) (l : Installation),
    Running S r .declined l → l.working = some .extract →
    (Install.readAll rounds before).wp (installs S).localised (Conduct S)
      (fun result l' => Running S r .declined l' ∧ l'.working = some .extract ∧
        l'.written = l.written ∧ l'.stage = l.stage ∧
        ∀ bytes, result = .ok bytes → l'.unpacked ≠ none) l := by
  induction rounds with
  | zero => exact fun _ _ h hw => ⟨h, hw, rfl, rfl, fun _ hr => by cases hr⟩
  | succ rounds ih =>
      intro before l h hw
      rw [Install.readAll, Prog.wp_bind]
      refine h.runOp hw h.far ?_
      rintro s result s' l' ⟨_, ⟨i, offset, _, _, rfl, rfl⟩ | ⟨i, offset, bytes, _, _, rfl, rfl⟩ |
        ⟨⟨reason, rfl⟩, rfl⟩⟩
      · exact ⟨h.congr rfl, hw, rfl, rfl, fun _ _ => Option.some_ne_none _⟩
      · have hrun : Running S r .declined { l with
            reading := some (i, offset + bytes.length)
            read := l.read ++ bytes } := h.congr rfl
        exact ih (before ++ bytes) _ hrun hw
      · exact ⟨h, hw, rfl, rfl, fun _ hr => by cases hr⟩

theorem unpackAll_spec {staging : PathBuf} (h : Running S r .declined l)
    (hw : l.working = some .extract) (hstage : l.stage = some staging)
    (entries : List ArchiveEntry) :
    (Install.unpackAll staging entries).wp (installs S).localised (Conduct S)
      (fun _ l' => l' = l) l := by
  induction entries with
  | nil => exact rfl
  | cons entry rest ih =>
      rw [Install.unpackAll]
      split
      · exact ih
      · rw [Prog.wp_bind]
        refine h.runOp ⟨hstage, hw⟩ h.far ?_
        rintro s result s' l' ⟨rfl, _⟩
        cases result with
        | error reason => exact rfl
        | ok u => exact ih

theorem unpack_spec {staging : PathBuf} {format : ArchiveFormat} (h : Running S r .declined l)
    (hw : l.working = some .extract) (hstage : l.stage = some staging) :
    (Install.unpack S r.rounds (S.archivePath r) staging format).wp (installs S).localised
      (Conduct S) (fun result l' => Running S r .declined l' ∧ l'.working = some .extract ∧
        l'.written = l.written ∧ l'.stage = l.stage ∧ (result = .ok () → l'.unpacked ≠ none)) l := by
  have hpath : S.archivePath r = S.archivePath l.request := by rw [h.request]
  rw [Install.unpack, Prog.wp_bind]
  refine h.runOp ⟨hpath, hw⟩ h.far ?_
  rintro s result s' l' ⟨_, ⟨i, rfl, _, rfl⟩ | ⟨⟨reason, rfl⟩, rfl⟩⟩
  · dsimp only
    rw [Prog.wp_bind]
    refine Prog.wp_mono _ ?_ _ (readAll_spec r.rounds [] _ (h.congr rfl) hw)
    rintro result l₁ ⟨hrun, hw₁, hwritten, hstage₁, hread⟩
    cases result with
    | error reason => exact ⟨hrun, hw₁, hwritten, hstage₁, fun hr => by cases hr⟩
    | ok bytes =>
        dsimp only
        split
        · exact ⟨hrun, hw₁, hwritten, hstage₁, fun hr => by cases hr⟩
        · refine Prog.wp_mono _ ?_ _ (unpackAll_spec hrun hw₁ (hstage₁.trans hstage) _)
          rintro result _ rfl
          exact ⟨hrun, hw₁, hwritten, hstage₁, fun _ => hread bytes rfl⟩
  · exact ⟨h, hw, rfl, rfl, fun hr => by cases hr⟩

theorem singleRoot_spec {staging : PathBuf} (h : Running S r .declined l)
    (hw : l.working = some .extract) (hstage : l.stage = some staging) :
    (Install.singleRoot staging).wp (installs S).localised (Conduct S)
      (fun result l' => l' = l ∧ ∀ path, result = .ok path → l.Staged path) l := by
  rw [Install.singleRoot, Prog.wp_bind]
  refine h.storeOp ⟨hw, hstage⟩ h.far ?_
  rintro provider d names d' ⟨_, hnames⟩
  cases names with
  | error reason => exact ⟨rfl, fun _ hr => by cases hr⟩
  | ok entries =>
      dsimp only
      split
      · rename_i directory hone
        refine ⟨rfl, fun path hr => ?_⟩
        cases hr
        rcases List.map_eq_singleton_iff.mp hone with ⟨e, he, rfl⟩
        have hmem : e ∈ listing d (S.lookup.locate staging) := by
          rw [← hnames entries rfl]
          exact List.mem_of_mem_filter (he ▸ List.mem_singleton_self e)
        exact ⟨staging, e.1, hstage, name_of_mem_listing hmem, rfl⟩
      · exact ⟨rfl, fun _ hr => by cases hr⟩
      · exact ⟨rfl, fun _ hr => by cases hr⟩

theorem extract_spec {staging : PathBuf} {format : ArchiveFormat} (h : At S r .declined l)
    (hstage : l.stage = some staging) :
    (Install.extract S r (S.archivePath r) staging format).wp (installs S).localised (Conduct S)
      (fun result l' => At S r .declined l' ∧ l'.written = l.written ∧ l'.stage = some staging ∧
        ∀ path, result = .ok path → l'.Staged path ∧ l'.unpacked ≠ none) l := by
  rw [Install.extract]
  refine blocking_spec h h.running.far ?_
  -- What a failure leaves, and what a success does.
  have herror : ∀ l₁, Running S r .declined l₁ → l₁.working = some .extract →
      l₁.written = l.written → l₁.stage = some staging → ∀ e : Error,
      ∃ phase', Running S r phase' l₁ ∧ l₁.working ≠ none ∧
        (At S r .declined { l₁ with working := none, reading := none } ∧
          l₁.written = l.written ∧ l₁.stage = some staging ∧
          ∀ path, (.error e : Except Error PathBuf) = .ok path → l₁.Staged path ∧
            l₁.unpacked ≠ none) ∧
        ∀ e', At S r .declined { l₁ with working := none, reading := none } ∧
          l₁.written = l.written ∧ l₁.stage = some staging ∧
          ∀ path, (.error e' : Except Error PathBuf) = .ok path → l₁.Staged path ∧
            l₁.unpacked ≠ none := by
    intro l₁ hrun hw hwritten hstage₁ e
    have hat : At S r .declined { l₁ with working := none, reading := none } :=
      ⟨hrun.congr rfl, rfl, rfl⟩
    exact ⟨.declined, hrun, by rw [hw]; exact Option.some_ne_none _,
      ⟨hat, hwritten, hstage₁, fun _ hr => by cases hr⟩,
      fun _ => ⟨hat, hwritten, hstage₁, fun _ hr => by cases hr⟩⟩
  rw [Prog.wp_bind]
  refine (h.within .extract).storeOp (.inr (.inl ⟨rfl, hstage⟩)) (.inr h.running.far) ?_
  intro _ _ made _ _
  cases made with
  | error reason => exact herror _ (h.within .extract) rfl rfl hstage _
  | ok u =>
      dsimp only
      rw [Prog.wp_bind]
      refine Prog.wp_mono _ ?_ _ (unpack_spec (h.within .extract) rfl hstage)
      rintro result l₁ ⟨hrun, hw, hwritten, hstage₁, hread⟩
      cases result with
      | error reason => exact herror _ hrun hw hwritten (hstage₁.trans hstage) _
      | ok u =>
          dsimp only
          rw [Prog.wp_bind]
          refine Prog.wp_mono _ ?_ _ (singleRoot_spec hrun hw (hstage₁.trans hstage))
          rintro result _ ⟨rfl, hstaged⟩
          cases result with
          | error reason => exact herror _ hrun hw hwritten (hstage₁.trans hstage) _
          | ok path =>
              rcases herror _ hrun hw hwritten (hstage₁.trans hstage) (.languageMissing) with
                ⟨_, _, hne, ⟨hat, _⟩, hpanic⟩
              refine ⟨.declined, hrun, hne, ⟨hat, hwritten, hstage₁.trans hstage, ?_⟩, hpanic⟩
              intro path' hr
              cases hr
              exact ⟨hstaged path rfl, hread rfl⟩

/-! ### Promoting -/

/-- The locals of a call that got further. -/
def Installation.moveTo (l : Installation) (phase : Phase) : Installation :=
  { l with phase := phase }

theorem moveTo_self (h : l.phase = phase) : l.moveTo phase = l := by
  rw [← h]
  rfl

section Promoting

variable {staged : PathBuf} {m : Promotion}

/-- A call that renamed the new tree in. -/
theorem Running.landed (h : Running S r phase l) (hphase : phase = .declined ∨ phase = .moved) :
    Running S r .landed (l.moveTo .landed) := by
  refine ⟨h.request, h.task, h.ended, rfl, ?_, h.stages, h.answer⟩
  refine h.lock.trans ?_
  rcases hphase with rfl | rfl <;> rfl

/-- The staged directory is not one of the call's other paths. -/
theorem Running.staged_ne (h : Running S r phase l) (hs : l.Staged staged) :
    staged ≠ S.installDir r ∧ staged ≠ S.aside r := by
  rcases hs with ⟨stage, name, hstage, hname, rfl⟩
  rcases h.stages stage hstage with ⟨_, hdest, haside, _⟩
  rw [h.request] at hdest haside
  have hin : S.lookup.locate stage <+: S.lookup.locate (stage ++ [name]) := by
    rw [S.lookup.join stage name hname]
    exact List.prefix_append _ _
  exact ⟨fun heq => hdest (heq ▸ hin), fun heq => haside (heq ▸ hin)⟩

/-- A rename of a promotion. -/
theorem Running.rename {source target : PathBuf} {Q : Except String Unit → Installation → Prop}
    (h : Running S r phase l) (hw : l.working = some .promote)
    (hpaths : source = S.installDir r ∧ target = S.aside r ∨
      l.Staged source ∧ target = S.installDir r ∨ source = S.aside r ∧ target = S.installDir r)
    (hphase : (phase = .declined ∨ phase = .moved) ∧ (source = S.installDir r → phase = .declined) ∧
      (source = S.aside r → source ≠ S.installDir r → phase = .moved))
    (hQ : ∀ done,
      Q done (l.moveTo (phase.renamed (S.installDir r) (S.aside r) source done.toBool))) :
    (Prog.op (.rename source target)).wp (storeLocal S) (fun _ op => Conduct S _ (.inr op)) Q l := by
  have hr := h.request
  have hfar := h.far
  subst hr
  subst hfar
  refine wp_local (h.conduct ⟨hw, hpaths⟩ hphase) ?_
  exact fun _ _ done _ _ => hQ done

/-- How far a call is when it moved something aside, or nothing. -/
def Phase.displaced (S : Site) (r : InstallRequest) (displaced : Option PathBuf) : Phase :=
  match displaced with
  | some _ => if S.aside r = S.installDir r then .declined else .moved
  | none => .declined

theorem displaced_cases (displaced : Option PathBuf) :
    Phase.displaced S r displaced = .declined ∨ Phase.displaced S r displaced = .moved := by
  cases displaced with
  | none => exact .inl rfl
  | some aside =>
      rw [Phase.displaced]
      split
      · exact .inl rfl
      · exact .inr rfl

/-- Renaming a displaced tree back. -/
theorem restore_conduct {displaced : Option PathBuf} {error : String}
    {Q : Except Error Unit → Installation → Prop}
    (h : Running S r (.displaced S r displaced) l) (hw : l.working = some .promote)
    (hdisplaced : ∀ aside ∈ displaced, aside = S.aside r)
    (hQ : ∀ e, Q (.error e) (l.moveTo .declined)) :
    (m.restore (S.installDir r) displaced error).run.wp (storeLocal S)
      (fun _ op => Conduct S _ (.inr op)) Q l := by
  cases displaced with
  | none => exact moveTo_self h.far ▸ hQ _
  | some aside =>
      have haside := hdisplaced aside rfl
      subst haside
      rw [Promotion.restore, Prog.wp_run_bind, Prog.wp_act]
      have hphase : S.aside r = S.installDir r →
          Phase.displaced S r (some (S.aside r)) = .declined := fun heq => if_pos heq
      have hmoved : S.aside r ≠ S.installDir r →
          Phase.displaced S r (some (S.aside r)) = .moved := fun hne => if_neg hne
      refine h.rename hw (.inr (.inr ⟨rfl, rfl⟩))
        ⟨displaced_cases _, hphase, fun _ => hmoved⟩ fun done => ?_
      rw [Phase.renamed, if_pos rfl]
      cases done with
      | error restore => exact hQ _
      | ok u => exact hQ _

theorem land_conduct {displaced : Option PathBuf} {removals : Nat}
    {Q : Except Error Unit → Installation → Prop}
    (h : Running S r (.displaced S r displaced) l) (hw : l.working = some .promote)
    (hstaged : l.Staged m.staged) (hdisplaced : ∀ aside ∈ displaced, aside = S.aside r)
    (herror : ∀ e, Q (.error e) (l.moveTo .declined)) (hok : Q (.ok ()) (l.moveTo .landed)) :
    (m.land removals (S.installDir r) displaced).run.wp (storeLocal S)
      (fun _ op => Conduct S _ (.inr op)) Q l := by
  have hne := h.staged_ne hstaged
  rw [Promotion.land.eq_def, Prog.wp_run_bind, Prog.wp_act]
  refine h.rename hw (.inr (.inl ⟨hstaged, rfl⟩))
    ⟨displaced_cases _, fun heq => absurd heq hne.1, fun heq => absurd heq hne.2⟩ fun done => ?_
  rw [Phase.renamed, if_neg hne.2, if_neg hne.1]
  cases done with
  | error error =>
      have hfailed : (if (Except.error error : Except String Unit).toBool = false then
          Phase.displaced S r displaced else .landed) = Phase.displaced S r displaced := rfl
      rw [hfailed, moveTo_self h.far]
      exact restore_conduct h hw hdisplaced herror
  | ok u =>
      have hdone : (if (Except.ok u : Except String Unit).toBool = false then
          Phase.displaced S r displaced else .landed) = Phase.landed := rfl
      rw [hdone]
      cases displaced with
      | none => exact hok
      | some aside =>
          have haside := hdisplaced aside rfl
          subst haside
          dsimp only
          rw [Prog.wp_run_bind, Prog.wp_run_lift]
          refine Prog.wp_mono _ ?_ _ (removeDirAll_conduct ?_ removals)
          · rintro _ _ rfl
            exact hok
          · have hpath : S.aside r = S.aside l.request := by rw [h.request]
            exact @Running.conduct _ _ _ _ _ (.inr (.removeNext (S.aside r)))
              (h.landed (displaced_cases _)) (.inr ⟨hw, hpath⟩) (.inr rfl)

theorem displace_conduct {removals : Nat} {Q : Except Error (Option PathBuf) → Installation → Prop}
    (h : Running S r .declined l) (hw : l.working = some .promote) (hm : m.process = r.process)
    (herror : ∀ e, Q (.error e) l)
    (hok : ∀ displaced, (∀ aside ∈ displaced, aside = S.aside r) →
      Q (.ok displaced) (l.moveTo (.displaced S r displaced))) :
    (m.displace removals (S.installDir r)).run.wp (storeLocal S)
      (fun _ op => Conduct S _ (.inr op)) Q l := by
  have haside : asideOf (S.installDir r) m.process = S.aside r := by rw [hm, Site.aside]
  rw [Promotion.displace, haside, Prog.wp_run_bind, Prog.wp_act]
  refine wp_local (h.conduct hw h.far) ?_
  intro _ _ found _ _
  dsimp only
  split
  · rw [Prog.wp_run_bind, Prog.wp_run_lift]
    refine Prog.wp_mono _ ?_ _ (removeDirAll_conduct ?_ removals)
    · rintro _ _ rfl
      dsimp only
      rw [Prog.wp_run_bind, Promotion.attemptAs, Prog.wp_run_mk, Prog.wp_bind]
      refine h.rename hw (.inl ⟨rfl, rfl⟩)
        ⟨.inl rfl, fun _ => rfl, fun _ hne => absurd rfl hne⟩ fun done => ?_
      cases done with
      | error reason =>
          have hfailed : Phase.declined.renamed (S.installDir r) (S.aside r) (S.installDir r)
              (Except.error reason : Except String Unit).toBool = .declined := by
            rw [Phase.renamed]
            split <;> rfl
          rw [hfailed, moveTo_self h.far]
          exact herror _
      | ok u =>
          have hdone : Phase.declined.renamed (S.installDir r) (S.aside r) (S.installDir r)
              (Except.ok u : Except String Unit).toBool = .displaced S r (some (S.aside r)) := by
            rw [Phase.renamed, Phase.displaced]
            by_cases heq : S.installDir r = S.aside r
            · rw [if_pos heq, if_pos heq.symm]
            · rw [if_neg heq, if_neg (Ne.symm heq), if_pos rfl]
              exact if_neg fun h => by cases h
          rw [hdone]
          exact hok _ fun _ ha => (Option.some.inj ha).symm
    · have hpath : S.aside r = S.aside l.request := by rw [h.request]
      exact @Running.conduct _ _ _ _ _ (.inr (.removeNext (S.aside r))) h
        (.inr ⟨hw, hpath⟩) (.inl h.far)
  · exact moveTo_self h.far ▸ hok none fun _ ha => by cases ha

theorem promoteBlocking_conduct {removals : Nat} {Q : Except Error Unit → Installation → Prop}
    (h : Running S r .declined l) (hw : l.working = some .promote) (hm : m.process = r.process)
    (hstaged : l.Staged m.staged) (herror : ∀ e, Q (.error e) l)
    (hok : Q (.ok ()) (l.moveTo .landed)) :
    (m.promoteBlocking removals (S.installDir r)).run.wp (storeLocal S)
      (fun _ op => Conduct S _ (.inr op)) Q l := by
  have hrest : (m.displace removals (S.installDir r) >>=
      m.land removals (S.installDir r)).run.wp (storeLocal S)
        (fun _ op => Conduct S _ (.inr op)) Q l := by
    rw [Prog.wp_run_bind]
    refine displace_conduct h hw hm herror fun displaced hdisplaced => ?_
    have hrun : Running S r (.displaced S r displaced) (l.moveTo (.displaced S r displaced)) := by
      refine ⟨h.request, h.task, h.ended, rfl, ?_, h.stages, h.answer⟩
      refine h.lock.trans ?_
      rcases @displaced_cases S r displaced with heq | heq
      · rw [heq]
      · rw [heq, if_neg Phase.noConfusion, if_neg Phase.noConfusion]
    refine land_conduct hrun hw hstaged hdisplaced (fun e => ?_) hok
    exact moveTo_self h.far ▸ herror e
  rw [Promotion.promoteBlocking, Prog.wp_run_bind, Promotion.createParent]
  cases hparent : (S.installDir r).parent with
  | none => exact hrest
  | some parent =>
      have hpath : (S.installDir l.request).parent = some parent := by rw [h.request, hparent]
      dsimp only [Promotion.attemptAs]
      rw [Prog.wp_run_mk, Prog.wp_bind]
      refine wp_local (h.conduct (.inr (.inr ⟨hw, hpath⟩)) (.inr h.far)) ?_
      intro _ _ made _ _
      cases made with
      | error reason => exact herror _
      | ok u => exact hrest

end Promoting

/-- How far a call is after a promotion. -/
def Phase.promoted (result : Except Error Unit) : Phase :=
  match result with
  | .ok () => .landed
  | .error _ => .declined

theorem promote_conduct {staged : PathBuf} {Q : Except Error Unit → Installation → Prop}
    (h : At S r .declined l) (hverified : l.Verified S) (hunpacked : l.unpacked ≠ none)
    (hstaged : l.Staged staged)
    (hQ : ∀ result phase l', At S r phase l' → l'.stage = l.stage →
      phase = .declined ∨ phase = .landed → (result = .ok () → phase = .landed) → Q result l') :
    (Install.promote r staged (S.installDir r)).wp (installs S).localised (Conduct S) Q l := by
  rw [Install.promote]
  refine blocking_spec h ⟨h.running.far, hverified, hunpacked⟩ (wp_onStore ?_)
  have hdeclined : At S r .declined { l with working := none, reading := none } :=
    ⟨h.running.congr rfl, rfl, rfl⟩
  have hlanded : Running S r .landed { l.moveTo .landed with working := some .promote } :=
    (h.running.landed (.inl rfl)).congr rfl
  have herror : ∀ e, Q (.error e) { l with working := none, reading := none } :=
    fun e => hQ _ _ _ hdeclined rfl (.inl rfl) fun hr => by cases hr
  refine promoteBlocking_conduct (h.within .promote) rfl rfl hstaged (fun e => ?_) ?_
  · exact ⟨.declined, h.within .promote, Option.some_ne_none _, herror e, herror⟩
  · have hat : At S r .landed { l.moveTo .landed with working := none, reading := none } :=
      ⟨hlanded.congr rfl, rfl, rfl⟩
    exact ⟨.landed, hlanded, Option.some_ne_none _, hQ _ _ _ hat rfl (.inr rfl) fun _ => rfl,
      fun e => hQ _ _ _ hat rfl (.inr rfl) fun hr => by cases hr⟩

/-! ### The whole -/

/-- Cleaning up, and then a result. -/
theorem cleanup_spec {staging : PathBuf} {result : Except Error Unit}
    {Q : Except Error Unit → Installation → Prop} (h : At S r phase l)
    (hphase : phase = .declined ∨ phase = .landed) (hstage : l.stage = some staging)
    (hQ : Q result l) :
    (do Install.discard r.rounds staging
        Install.removeArchive (S.archivePath r)
        pure result : Prog InstallOp (Except Error Unit)).wp (installs S).localised (Conduct S)
      Q l := by
  rw [Prog.wp_bind]
  refine install_discard h hphase hstage ?_
  rw [Prog.wp_bind]
  exact removeFile_spec h hphase hQ

theorem unpackAndPromote_spec {Q : Except Error Unit → Installation → Prop}
    (h : At S r .declined l) (hverified : l.Verified S)
    (hQ : ∀ result phase l', At S r phase l' → phase = .declined ∨ phase = .landed →
      (result = .ok () → phase = .landed) → Q result l') :
    (Install.unpackAndPromote S r r.distribution (S.archivePath r) (S.installDir r)).run.wp
      (installs S).localised (Conduct S) Q l := by
  have hroot : S.cacheRoot r = S.cacheRoot l.request := by rw [h.running.request]
  rw [Install.unpackAndPromote, Prog.wp_run_mk, Prog.wp_bind]
  refine h.running.runOp ⟨hroot, h.working⟩ h.running.far ?_
  rintro s staging s' l' ⟨⟨_, _, hdest, haside, harchive⟩, ⟨id, hid⟩, _, rfl⟩
  have hat : At S r .declined { l with stage := some staging } := by
    refine ⟨⟨h.running.request, h.running.task, h.running.ended, h.running.far, h.running.lock, ?_,
      h.running.answer⟩, h.working, h.reading⟩
    intro stage hstage
    cases hstage
    exact ⟨⟨id, hroot ▸ hid⟩, hdest, haside, harchive⟩
  rw [Prog.wp_bind]
  refine install_discard hat (.inl rfl) rfl ?_
  rw [Prog.wp_bind]
  refine Prog.wp_mono _ ?_ _ (extract_spec hat rfl)
  rintro result l₁ ⟨hat₁, hwritten, hstage, hunpacked⟩
  cases result with
  | error e =>
      exact cleanup_spec hat₁ (.inl rfl) hstage
        (hQ _ _ _ hat₁ (.inl rfl) fun hr => by cases hr)
  | ok path =>
      have hverified₁ : l₁.Verified S := by
        rw [Installation.Verified, hwritten, hat₁.running.request, ← h.running.request]
        exact hverified
      dsimp only
      rw [Prog.wp_bind]
      refine promote_conduct hat₁ hverified₁ (hunpacked path rfl).2 (hunpacked path rfl).1 ?_
      intro promoted phase l₂ hat₂ hstage₂ hphase hok
      exact cleanup_spec hat₂ hphase (hstage₂.trans hstage) (hQ _ _ _ hat₂ hphase hok)

/-- The provider is asked about the install directory. -/
theorem layout_spec {Q : Except Error (Option RuntimeLayout) → Installation → Prop}
    (h : At S r phase l) (hphase : phase = .holding ∨ phase = .landed)
    (hQ : ∀ answer, Q answer { l with answer := some answer, phase := phase.asked answer }) :
    (attempt (.inr (.layout (S.installDir r))) :
      ExceptT Error (Prog InstallOp) (Option RuntimeLayout)).run.wp (installs S).localised
        (Conduct S) Q l := by
  have hpath : S.installDir r = S.installDir l.request := by rw [h.running.request]
  have hwhen : l.phase = .holding ∨ l.phase = .landed := by
    rw [h.running.far]
    exact hphase
  rw [Prog.wp_attempt]
  refine h.running.storeOp ⟨hpath, h.working⟩ hwhen ?_
  intro _ _ answer _ _
  have hafter : l.after S (.layout (S.installDir r)) answer =
      { l with answer := some answer, phase := phase.asked answer } := by
    rw [← h.running.far]
    rfl
  rw [hafter]
  exact hQ answer

/-- A call meets its assertions, and returns the layout it was told. -/
theorem install_conduct (S : Site) (r : InstallRequest) :
    (Install.run S r).run.wp (installs S).localised (Conduct S)
      (fun result l => l.Told S result) (.new r) := by
  have hstages : (Installation.new r).Stages S := fun _ hs => by cases hs
  have hat : At S r .early (.new r) :=
    ⟨⟨rfl, rfl, rfl, rfl, rfl, hstages, fun _ ha => by cases ha⟩, rfl, rfl⟩
  have huntold : ∀ (l : Installation), (∀ layout, l.answer ≠ some (.ok (some layout))) →
      ∀ result, l.Told S result := fun l hl _ layout ha => absurd ha (hl layout)
  have htold : ∀ (l : Installation) (phase : Phase) layout, l.request = r →
      Installation.Told S { l with answer := some (.ok (some layout)), phase := phase }
        (.ok (managed r.language (S.installDir r) layout)) := by
    rintro l phase layout rfl layout' ha
    cases ha
    rfl
  rw [Install.run, Prog.wp_run_bind, Prog.wp_attempt]
  refine hat.running.runOp rfl rfl ?_
  rintro s selected s' l ⟨_, rfl, rfl | ⟨e, rfl⟩⟩
  · dsimp only [Installation.new]
    rw [Prog.wp_run_bind]
    refine createDirs_spec hat (.inl rfl) (.inl rfl) fun made => ?_
    cases made with
    | error e => exact huntold _ hat.running.answer _
    | ok u =>
        dsimp only
        rw [Prog.wp_run_bind]
        refine acquire_spec hat (fun e l hl => huntold l ?_ _) fun l₁ hat₁ => ?_
        · rw [hl]
          exact hat.running.answer
        dsimp only
        rw [Prog.wp_run_bind]
        refine layout_spec hat₁ (.inl rfl) fun answer => ?_
        cases answer with
        | error e => exact huntold _ (fun _ ha => by cases ha) _
        | ok found =>
            cases found with
            | some layout => exact htold l₁ _ layout hat₁.running.request
            | none =>
                have hat₂ : At S r .declined
                    { l₁ with answer := some (.ok none), phase := .declined } :=
                  ⟨⟨hat₁.running.request, hat₁.running.task, hat₁.running.ended, rfl,
                    hat₁.running.lock, hat₁.running.stages, fun _ ha => by cases ha⟩,
                    hat₁.working, hat₁.reading⟩
                dsimp only
                rw [Prog.wp_run_bind]
                refine fetch_spec hat₂ (fun e l hat => huntold l hat.running.answer _) ?_
                intro l₃ hat₃ hverified
                dsimp only
                rw [Prog.wp_run_bind]
                refine unpackAndPromote_spec hat₃ hverified ?_
                intro promoted phase l₄ hat₄ _ hphase
                cases promoted with
                | error e => exact huntold l₄ hat₄.running.answer _
                | ok u =>
                    dsimp only
                    rw [Prog.wp_run_bind]
                    refine layout_spec hat₄ (.inr (hphase rfl)) fun answer => ?_
                    cases answer with
                    | error e => exact huntold _ (fun _ ha => by cases ha) _
                    | ok found =>
                        cases found with
                        | some layout => exact htold l₄ _ layout hat₄.running.request
                        | none => exact huntold _ (fun _ ha => by cases ha) _
  · exact huntold _ hat.running.answer _

end Walk

/-! ## What is left of a dropped call -/

/-- The locals of a closure that is left of a call. -/
def Installation.left (l : Installation) (job : BlockingJob) (lock : Option (List String)) :
    Installation :=
  { l with task := some job, lock := lock }

/-- Every effect but one leaves the lock alone. -/
def RunOp.keepsLock {β : Type} (op : RunOp β) : Prop :=
  match op with
  | .lockExclusive _ => False
  | _ => True

section Left

variable {S : Site} {l l' t : Installation} {job : BlockingJob} {lock : Option (List String)} {β : Type}
  {s s' : Installing} {c : InstallChoice} {b : β}

theorem RunOp.respond_left {op : RunOp β} (hop : op.keepsLock) :
    op.respond S s (l.left job lock) c =
      (op.respond S s l c).map fun r => (r.1, r.2.1, r.2.2.left job lock) := by
  cases op <;> simp only [RunOp.respond, Installation.left] <;> (repeat' split) <;>
    first | rfl | exact if_pos ‹_› | exact if_neg ‹_› | exact absurd hop id

/-- Such an effect does not change it. -/
theorem RunOp.lock_kept {op : RunOp β} (hop : op.keepsLock)
    (h : op.respond S s l c = some (b, s', l')) : l'.lock = l.lock := by
  have ha := RunOp.answers_of_respond h
  cases op with
  | lockExclusive path => exact absurd hop id
  | _ =>
      simp only [RunOp.Answers] at ha
      grind

theorem localised_of_respond {op : InstallOp β} (h : op.respond S (s, l) c = some (b, s', l')) :
    (installs S).localised.respond op l (s, c) = some (b, l') := by
  change (op.respond S (s, l) c).map _ = _
  rw [h]
  rfl

theorem store_choice {op : StoreOp β} {l : Installation}
    (h : InstallOp.respond S (.inr op) (s, l) c = some (b, s', t)) :
    ∃ provider sc, c = .store provider sc := by
  cases c with
  | store provider sc => exact ⟨provider, sc, rfl⟩
  | _ => cases h

/-- An effect is answered the same when it is left of a call, but the lock may be
    somebody else's. -/
theorem respond_left {op : InstallOp β}
    (h : op.respond S (s, l.left job lock) c = some (b, s', t))
    (hlock : lock = l.lock ∨ lock = none) :
    ∃ l' lock', op.respond S (s, l) c = some (b, s', l') ∧ t = l'.left job lock' ∧
      (lock' = l'.lock ∨ lock' = none) := by
  cases op with
  | inl op =>
      by_cases hop : op.keepsLock
      · change op.respond S s (l.left job lock) c = _ at h
        rw [RunOp.respond_left hop] at h
        rcases Option.map_eq_some_iff.mp h with ⟨⟨b', s'', l'⟩, hr, heq⟩
        cases heq
        exact ⟨l', lock, hr, rfl, RunOp.lock_kept hop hr ▸ hlock⟩
      · cases op with
        | lockExclusive path =>
            change RunOp.respond S (.lockExclusive path) s _ c = _ at h
            simp only [RunOp.respond] at h
            split at h
            · split at h
              · rename_i hfree
                cases h
                have hsome : some (S.lookup.locate path) = Installation.lock { l with
                    lock := some (S.lookup.locate path)
                    phase := .holding
                    found := some (s.disk.tree (S.lookup.locate (S.installDir l.request))) } := rfl
                exact ⟨_, _, if_pos hfree, rfl, .inl hsome⟩
              · cases h
            · cases h
              exact ⟨l, lock, rfl, rfl, hlock⟩
            · cases h
        | _ => exact absurd trivial hop
  | inr op =>
      rcases store_choice h with ⟨provider, sc, rfl⟩
      rcases Option.map_eq_some_iff.mp h with ⟨⟨b', d'⟩, hstore, heq⟩
      cases heq
      refine ⟨l.after S op b', lock, ?_, ?_, ?_⟩
      · simp only [InstallOp.respond, hstore, Option.map_some]
      · cases op <;> rfl
      · cases op <;> exact hlock

/-- What a closure that goes on without its call asserts. -/
theorem Conduct.left {op : InstallOp β} (h : Conduct S β op l) (hjob : op.job l = some job)
    (hlock : lock = l.lock ∨ lock = none) : Conduct S β op (l.left job lock) := by
  refine ⟨?_, h.2.1, h.2.2.1, fun ht => (by cases ht), fun j hj => ?_⟩
  · have hf := h.1
    cases op with
    | inl op =>
        cases op with
        | begin job =>
            rcases hlock with rfl | rfl
            · exact hf
            · exact ⟨hf.1, fun _ => rfl⟩
        | lockExclusive path =>
            rcases hlock with rfl | rfl
            · exact hf
            · exact ⟨hf.1, hf.2.1, rfl⟩
        | _ => exact hf
    | inr op => cases op <;> exact hf
  · cases hj
    cases op with
    | inl op => cases op <;> exact hjob
    | inr op => exact hjob

/-- Once it is at work, it stays at the same job to its end. -/
theorem working_kept {op : InstallOp β} (hstop : op.stops = false) (hA : Conduct S β op l)
    (hw : l.working = some job) (h : op.respond S (s, l) c = some (b, s', l')) :
    l'.working = some job := by
  cases op with
  | inl op =>
      have ha := answers_of_inl h
      have hf := hA.1
      cases op <;> simp only [RunOp.Answers, InstallOp.Footprint] at ha hf <;> grind [InstallOp.stops]
  | inr op =>
      rcases answers_of_inr h with ⟨_, _, _, _, _, rfl⟩
      cases op <;> exact hw

/-- A closure that goes on without its call, once it is at work. -/
theorem upTo_conduct {p : Prog InstallOp (Except Error ResolvedRuntime)}
    {Q : Except Error ResolvedRuntime → Installation → Prop} {a : Except Error ResolvedRuntime}
    (h : p.wp (installs S).localised (Conduct S) Q l) (hw : l.working = some job)
    (hlock : lock = l.lock ∨ lock = none) :
    (p.upTo InstallOp.stops a).wp (installs S).localised (Conduct S)
      (fun _ l => l.task ≠ none) (l.left job lock) := by
  refine Prog.wp_upTo (fun l t : Installation => l.working = some job ∧
      ∃ lock, t = l.left job lock ∧ (lock = l.lock ∨ lock = none)) ?_ ?_ ?_ ?_ p l _
    ⟨hw, lock, rfl, hlock⟩ h
  · rintro β op l _ ⟨hw, lock, rfl, hlock⟩ hA
    refine hA.left ?_ hlock
    cases op with
    | inl op =>
        cases op with
        | begin job' =>
            have hfree : l.working = none := hA.1.1
            rw [hw] at hfree
            cases hfree
        | _ => exact hw
    | inr op => exact hw
  · rintro β op l _ ⟨s, c⟩ b t' hstop ⟨hw, lock, rfl, hlock⟩ hA hr
    rcases Option.map_eq_some_iff.mp hr with ⟨⟨b', s', t''⟩, hrespond, heq⟩
    cases heq
    rcases respond_left hrespond hlock with ⟨l', lock', hl', rfl, hlock'⟩
    exact ⟨(s, c), l', localised_of_respond hl', working_kept hstop hA hw hl', lock', rfl, hlock'⟩
  · rintro β op l _ ⟨s, c⟩ b t' _ ⟨_, lock, rfl, hlock⟩ _ hr
    rcases Option.map_eq_some_iff.mp hr with ⟨⟨b', s', t''⟩, hrespond, heq⟩
    cases heq
    rcases respond_left hrespond hlock with ⟨l', lock', _, rfl, _⟩
    exact Option.some_ne_none _
  · rintro b l _ ⟨_, lock, rfl, _⟩ _
    exact Option.some_ne_none _

/-- What is left of a dropped call meets its assertions. -/
theorem orphan_conduct {e : InstallOp β} {k : β → Prog InstallOp (Except Error ResolvedRuntime)}
    {Q : Except Error ResolvedRuntime → Installation → Prop}
    (h : (Prog.perform e k).wp (installs S).localised (Conduct S) Q l) :
    ∀ o ∈ Installation.orphans (.perform e k) l,
      o.1.wp (installs S).localised (Conduct S) (fun _ l => l.task ≠ none) o.2 := by
  intro o ho
  simp only [Installation.orphans] at ho
  cases hjob : InstallOp.job e l with
  | none =>
      rw [hjob] at ho
      cases ho
  | some job =>
      rw [hjob, List.mem_singleton] at ho
      subst ho
      have hlock : (if job = .takeLock then l.lock else none) = l.lock ∨
          (if job = .takeLock then l.lock else none) = none := by
        split
        · exact .inl rfl
        · exact .inr rfl
      by_cases hw : l.working = some job
      · exact upTo_conduct h hw hlock
      · -- The closure waits for a thread.
        cases e with
        | inr op => exact absurd hjob hw
        | inl op =>
            cases op with
            | begin job' =>
                cases hjob
                refine ⟨h.1.left rfl hlock, ?_⟩
                rintro ⟨s, c⟩ b t' hr
                rcases Option.map_eq_some_iff.mp hr with ⟨⟨b', s', t''⟩, hrespond, heq⟩
                cases heq
                have hbegins : RunOp.respond S (.begin job) s (l.orphan job) c = some (b', s', t'') :=
                  hrespond
                rcases RunOp.answers_of_respond hbegins with ⟨hfree, _, rfl⟩
                have hbegin : InstallOp.respond S (.inl (.begin job)) (s, l) c = some ((),
                    { s with busy := s.busy + 1 }, { l with working := some job }) := if_pos hfree
                exact upTo_conduct (h.2 (s, c) () _ (localised_of_respond hbegin)) rfl hlock
            | _ => exact absurd hjob hw

end Left

/-! ## Joint invariants -/

/-- What a drop leaves of a call. -/
def Installation.leaves {β : Type} (l : Installation) (op : InstallOp β) : List Installation :=
  match op.job l with
  | none => []
  | some job => [l.orphan job]

/-- A joint invariant of all installs: what has to be shown of the shared state and
    the locals alone. -/
theorem install_joint {S : Site}
    {L : Concurrent.Limits InstallOp Installing Installation InstallRequest InstallChoice}
    {J : Installing → List Installation → Prop}
    (hperm : ∀ s ls ls', ls.Perm ls' → J s ls → J s ls')
    (hcall : ∀ s ls r, L.calls s ls r → J s ls → J s (.new r :: ls))
    (hperform : ∀ {β : Type} (op : InstallOp β) s l ls c b s' l', L.performs _ op s l c →
      Conduct S β op l → J s (l :: ls) → op.respond S (s, l) c = some (b, s', l') →
      J s' (l' :: ls))
    (hfinish : ∀ result s l ls, (l.task = none → l.Told S result) → J s (l :: ls) →
      J s (l.close (some result) :: ls))
    (hdrop : ∀ {β : Type} (op : InstallOp β) s l ls, L.drops _ op s l → Conduct S β op l →
      J s (l :: ls) → J s (l.leaves op ++ l.close none :: ls))
    (hrelease : ∀ s l ls s' l', J s (l :: ls) → Installation.release (s, l) = some (s', l') →
      J s' (l' :: ls)) :
    Concurrent.Joint (installs S) L
      (fun p l => p.wp (installs S).localised (Conduct S)
        (fun result l => l.task = none → l.Told S result) l) J := by
  refine Concurrent.Joint.of_wp (fun r _ _ _ => ?_) hperm hcall ?_ hfinish ?_ hrelease ?_
  · have htold := install_conduct S r
    exact Prog.wp_mono (Install.run S r).run (fun result l h (_ : l.task = none) => h) _ htold
  · exact fun op s l ls c b s' l' hlim hA hJ hr => hperform op s l ls c b s' l' hlim hA hJ hr
  · intro β op k s l ls _ hlim hwp hJ
    refine ⟨fun o ho => ?_, ?_⟩
    · refine Prog.wp_mono _ (fun _ l ht hn => absurd hn ht) _ (orphan_conduct hwp o ho)
    · have hleaves : (Installation.orphans (.perform op k) l).map Prod.snd = l.leaves op := by
        simp only [Installation.orphans, Installation.leaves]
        cases InstallOp.job op l with
        | none => rfl
        | some job => rfl
      have hkept := hdrop op s l ls hlim hwp.1 hJ
      rw [← hleaves] at hkept
      exact hkept
  · exact fun s ls c s' _ hr => by cases hr

end TinyRuntime
