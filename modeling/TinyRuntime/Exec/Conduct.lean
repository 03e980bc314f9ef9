import TinyRuntime.Exec.Execute
import TinyRuntime.Pool.Rebuild

/-!
# The Conduct of One Execution

What one call of `execute` does with what it owns, whatever the other calls do. The
shared state is a choice of the outside, so everything is a fact about the call's
locals.

`Asserts` lists what a call knows at each effect: what is left of the write it waits
for, that its launch is made of the runtime and the harness it obtained, and what a
run knows on its pool.

## Main definitions

* `Execute.Obtained`: A launch made of what a call obtained.
* `Writing.Begun`: A write of a harness.
* `Engine.Asserts`, `Engine.Returns`: What a call asserts.

## Theorems

* `closure_spec`, `resume_spec`: The write of a harness, and what is left of one.
* `execute_asserts`: A call meets its assertions.
-/

namespace TinyRuntime

/-- A launch and a version made of what a call obtained. -/
def Execute.Obtained (engine : Engine) (l : Execute) (launch : Launch) (version : String) : Prop :=
  ∃ runtime h script binary lookup, l.runtime = some runtime ∧ l.harness = some h ∧
    l.script = some script ∧ runtime.executable h.executable = some binary ∧
    launch = engine.launch l.request.language runtime h binary script lookup ∧
    version = runtime.version

/-- A write in its order: nothing before the file is open, and no more than the
    contents. -/
structure Writing.Begun (w : Writing) : Prop where
  closed : w.opened = false → w.offset = 0 ∧ w.failed = false
  within : w.offset ≤ w.contents.length

/-- Writing on after the part that was written. -/
theorem writeAt_take {contents : List UInt8} {offset : Nat} (n : Nat)
    (h : offset ≤ contents.length) :
    writeAt (contents.take offset) offset ((contents.drop offset).take n) =
      contents.take (offset + n) := by
  rw [writeAt_end _ (List.length_take_of_le h), List.take_add]

/-- The children after a call moved what it holds. -/
theorem mem_noteBoots {file pool : Nat} {spec : Option SpawnSpec} {before after : Hold}
    {boots : List Boot} {b : Boot} (h : b ∈ noteBoots file pool spec before after boots) :
    (∃ b₀ ∈ boots, b = b₀ ∨ b = { b₀ with booting := false }) ∨
      ∃ child, after = .spawning (some child) ∧ before ≠ after ∧
        b = { pool := pool, child := child, file := file, spec := spec, source := none
              booting := true } := by
  have hkept : b ∈ boots → ∃ b₀ ∈ boots, b = b₀ ∨ b = { b₀ with booting := false } :=
    fun hb => ⟨b, hb, .inl rfl⟩
  have hleft : ∀ child, b ∈ boots.map (fun b =>
      if b.pool = pool ∧ b.child = child then { b with booting := false } else b) →
      ∃ b₀ ∈ boots, b = b₀ ∨ b = { b₀ with booting := false } := by
    intro child hb
    rcases List.mem_map.mp hb with ⟨b₀, hb₀, rfl⟩
    refine ⟨b₀, hb₀, ?_⟩
    split
    · exact .inr rfl
    · exact .inl rfl
  unfold noteBoots at h
  split at h
  · exact .inl (hkept h)
  · rename_i hne
    simp only [] at h
    split at h
    · rename_i child
      rcases List.mem_append.mp h with h | h
      · split at h
        · exact .inl (hleft _ h)
        · exact .inl (hkept h)
      · exact .inr ⟨child, rfl, hne, List.mem_singleton.mp h⟩
    · split at h
      · exact .inl (hleft _ h)
      · exact .inl (hkept h)

/-- No child is forgotten. -/
theorem noteBoots_kept (file pool : Nat) (spec : Option SpawnSpec) (before after : Hold)
    (boots : List Boot) : ∀ b ∈ boots, ∃ b' ∈ noteBoots file pool spec before after boots,
      b' = b ∨ b' = { b with booting := false } := by
  intro b hb
  have hleft : ∀ child, ∃ b' ∈ boots.map (fun b =>
      if b.pool = pool ∧ b.child = child then { b with booting := false } else b),
      b' = b ∨ b' = { b with booting := false } := by
    intro child
    refine ⟨_, List.mem_map_of_mem hb, ?_⟩
    split
    · exact .inr rfl
    · exact .inl rfl
  have hgrow : ∀ {more : List Boot} {left : List Boot},
      (∃ b' ∈ left, b' = b ∨ b' = { b with booting := false }) →
      ∃ b' ∈ left ++ more, b' = b ∨ b' = { b with booting := false } :=
    fun ⟨b', hb', heq⟩ => ⟨b', List.mem_append_left _ hb', heq⟩
  unfold noteBoots
  split
  · exact ⟨b, hb, .inl rfl⟩
  · simp only []
    split <;> split
    · exact hgrow (hleft _)
    · exact hgrow ⟨b, hb, .inl rfl⟩
    · exact hleft _
    · exact ⟨b, hb, .inl rfl⟩

theorem mem_noteBoots_new {file pool child : Nat} {spec : Option SpawnSpec} {before : Hold}
    (boots : List Boot) (hne : before ≠ .spawning (some child)) :
    { pool := pool, child := child, file := file, spec := spec, source := none, booting := true } ∈
      noteBoots file pool spec before (.spawning (some child)) boots := by
  unfold noteBoots
  rw [if_neg hne]
  exact List.mem_append_right _ (List.mem_singleton_self _)

/-- The children are the same, and a new one if there is one. -/
theorem noteBoots_keys (file pool : Nat) (spec : Option SpawnSpec) (before after : Hold)
    (boots : List Boot) :
    let keys := (noteBoots file pool spec before after boots).map fun b => (b.pool, b.child)
    keys = boots.map (fun b => (b.pool, b.child)) ∨
      ∃ child, after = .spawning (some child) ∧ before ≠ after ∧
        keys = boots.map (fun b => (b.pool, b.child)) ++ [(pool, child)] := by
  have hleft : ∀ child, (boots.map (fun b =>
      if b.pool = pool ∧ b.child = child then { b with booting := false } else b)).map
        (fun b => (b.pool, b.child)) = boots.map (fun b => (b.pool, b.child)) := by
    intro child
    rw [List.map_map]
    refine List.map_congr_left fun b _ => ?_
    simp only [Function.comp_apply]
    split <;> rfl
  unfold noteBoots
  split
  · exact .inl rfl
  · rename_i hne
    simp only []
    split <;> split
    · exact .inr ⟨_, rfl, hne, by rw [List.map_append, hleft]; rfl⟩
    · exact .inr ⟨_, rfl, hne, by rw [List.map_append]; rfl⟩
    · exact .inl (hleft _)
    · exact .inl rfl

namespace Engine

/-- What a call knows of its locals when it performs an effect. -/
def Asserts (engine : Engine) : ∀ β, ExecOp β → Execute → Prop := fun β op l =>
  match op with
  | .inl (.require _) => l.runtime = none ∧ l.writing = none
  | .inl (.harness) => l.harness = none ∧ l.script = none ∧ l.writing = none
  | .inl (.handOver _ contents) =>
      l.writing = none ∧ l.script = none ∧ ∃ h, l.harness = some h ∧ contents = h.bytes
  | .inl (.create path) => ∃ contents, l.writing = some (Writing.new path contents)
  | .inl (.write path offset buffer) => ∃ w, l.writing = some w ∧ w.path = path ∧
      w.opened = true ∧ w.failed = false ∧ w.offset = offset ∧ buffer = w.contents.drop offset
  | .inl (.close path) => ∃ w, l.writing = some w ∧ w.path = path ∧ w.opened = true ∧
      (w.failed = false → w.offset = w.contents.length)
  | .inl _ => l.writing = none
  | .inr (.inl (.ensure launch settings version)) =>
      l.writing = none ∧ l.Obtained engine launch version ∧ l.launch = none ∧
        Pools.Asserts _ (.inl (.ensure launch settings version)) l.client
  | .inr (.inr op) => l.writing = none ∧ Pools.Asserts β (.inr op) l.client

/-- What a call knows of its locals when it returns. -/
def Returns (r : Except Error ExecResponse) (l : Execute) : Prop :=
  l.writing = none ∧ ∀ outcome, r = .ok outcome →
    ∃ i pool, l.client.pool = some (i, pool) ∧ outcome.runtimeVersion = pool.runtimeVersion

section Conduct

variable {engine : Engine} {l : Execute}

/-- One effect of the engine as a call sees it. -/
theorem wp_engine {β : Type} {op : EngineOp β} {A : ∀ β, ExecOp β → Execute → Prop}
    {Q : β → Execute → Prop} (hA : A _ (.inl op) l)
    (hQ : ∀ s c b s' l', op.respond engine s l c = some (b, s', l') → Q b l') :
    (Prog.op (.inl op) : Prog ExecOp β).wp engine.calls.localised A Q l := by
  refine ⟨hA, ?_⟩
  rintro ⟨s, c⟩ b l' hr
  rcases Option.map_eq_some_iff.mp hr with ⟨⟨b', s', l''⟩, hrespond, hr⟩
  cases hr
  exact hQ s c _ s' _ hrespond

/-! ### The harness on disk -/

/-- Writing what is left: all of it is written, or the write has failed. -/
theorem writeAllAt_spec {path : String} (fuel : Nat) : ∀ {l : Execute} {w : Writing},
    l.writing = some w → w.path = path → w.opened = true → w.failed = false →
    w.offset ≤ w.contents.length → w.contents.length - w.offset ≤ fuel →
    (writeAllAt path fuel w.offset (w.contents.drop w.offset)).wp engine.calls.localised
      engine.Asserts (fun r l' => ∃ w', l' = { l with writing := some w' } ∧ w'.path = path ∧
        w'.opened = true ∧ (r = .ok () → w'.failed = false ∧ w'.offset = w'.contents.length) ∧
        ∀ e, r = .error e → w'.failed = true) l := by
  induction fuel with
  | zero =>
      intro l w hl hpath hopen hfailed hle hfuel
      exact ⟨w, by rw [← hl], hpath, hopen, fun _ => ⟨hfailed, by omega⟩, fun _ he => by cases he⟩
  | succ fuel ih =>
      intro l w hl hpath hopen hfailed hle hfuel
      rw [writeAllAt]
      split
      · rename_i hdone
        have hlen := List.drop_eq_nil_iff.mp hdone
        exact ⟨w, by rw [← hl], hpath, hopen, fun _ => ⟨hfailed, by omega⟩, fun _ he => by cases he⟩
      · rename_i hmore
        rw [Prog.wp_bind]
        refine wp_engine ⟨w, hl, hpath, hopen, hfailed, rfl, rfl⟩ ?_
        intro s c b s' l' hr
        simp only [EngineOp.respond, hl] at hr
        split at hr
        · rename_i n w' hw
          cases hw
          split at hr
          · rename_i hn
            cases hr
            rw [List.length_drop] at hn
            simp only []
            split
            · rename_i hzero
              refine ⟨w.wrote n, rfl, hpath, hopen, fun he => (by cases he), fun _ _ => ?_⟩
              rw [hzero]
              exact Bool.or_true _
            · rename_i hzero
              have hwrote : (w.wrote n).failed = false := by
                rw [Writing.wrote, hfailed]
                exact beq_eq_false_iff_ne.mpr hzero
              have hsmall : (w.wrote n).contents.length - (w.wrote n).offset ≤ fuel := by
                change w.contents.length - (w.offset + n) ≤ fuel
                omega
              have hnext := @ih { l with writing := some (w.wrote n) } (w.wrote n) rfl hpath hopen
                hwrote (by change w.offset + n ≤ w.contents.length; omega) hsmall
              rw [List.drop_drop]
              exact hnext
          · cases hr
        · rename_i reason w' hw
          cases hw
          cases hr
          exact ⟨w.fail, rfl, hpath, hopen, fun he => (by cases he), fun _ _ => rfl⟩
        · cases hr

/-- The script a call has written after its write. -/
def written (path : String) (l : Execute) (r : Except String Unit) : Execute :=
  { l with
    writing := none
    script := match r with
      | .ok () => some path
      | .error _ => l.script }

/-- Closing the file. -/
theorem close_spec {path : String} {w : Writing} (hl : l.writing = some w) (hpath : w.path = path)
    (hopen : w.opened = true) {r : Except String Unit}
    (hok : r = .ok () → w.failed = false ∧ w.offset = w.contents.length)
    (herror : ∀ e, r = .error e → w.failed = true) :
    (Prog.op (.inl (.close path)) : Prog ExecOp Unit).wp engine.calls.localised engine.Asserts
      (fun _ l' => l' = written path l r) l := by
  have hdone : w.failed = false → w.offset = w.contents.length := by
    intro hfailed
    cases r with
    | ok _ => exact (hok rfl).2
    | error e =>
        rw [herror e rfl] at hfailed
        cases hfailed
  refine wp_engine ⟨w, hl, hpath, hopen, hdone⟩ ?_
  intro s c b s' l' hr
  simp only [EngineOp.respond, hl, Option.some.injEq, Prod.mk.injEq, true_and] at hr
  rw [← hr.2]
  cases r with
  | ok _ =>
      rcases hok rfl with ⟨hfailed, hlen⟩
      have hcomplete : w.complete = true := by
        simp only [Writing.complete, hfailed, hlen, Bool.not_false, beq_self_eq_true, Bool.and_self]
      rw [if_pos hcomplete]
      rfl
  | error e =>
      have hcomplete : w.complete = false := by
        simp only [Writing.complete, herror e rfl, Bool.not_true, Bool.false_and]
      rw [if_neg (by rw [hcomplete]; exact Bool.false_ne_true)]
      rfl

theorem finishWrite_spec {path : String} {w : Writing} (hl : l.writing = some w)
    (hpath : w.path = path) (hopen : w.opened = true) (hfailed : w.failed = false)
    (hle : w.offset ≤ w.contents.length) :
    (finishWrite path w.offset (w.contents.drop w.offset)).wp engine.calls.localised engine.Asserts
      (fun r l' => l' = written path l r) l := by
  rw [finishWrite, Prog.wp_bind]
  refine Prog.wp_mono _ ?_ _ (writeAllAt_spec _ hl hpath hopen hfailed hle
    (by rw [List.length_drop]))
  rintro r _ ⟨w', rfl, hpath', hopen', hok, herror⟩
  rw [Prog.wp_bind]
  refine Prog.wp_mono _ ?_ _ (close_spec rfl hpath' hopen' hok herror)
  rintro _ _ rfl
  rfl

theorem closure_spec {path : String} {contents : List UInt8}
    (hl : l.writing = some (Writing.new path contents)) :
    (closure path contents).wp engine.calls.localised engine.Asserts
      (fun r l' => l' = written path l r) l := by
  rw [closure, Prog.wp_bind]
  refine wp_engine ⟨contents, hl⟩ ?_
  intro s c b s' l' hr
  simp only [EngineOp.respond, hl] at hr
  split at hr
  · rename_i w hw
    cases hw
    cases hr
    exact @finishWrite_spec engine { l with writing := some (Writing.new path contents).start } path
      (Writing.new path contents).start rfl rfl rfl rfl (Nat.zero_le _)
  · cases hr
    rfl
  · cases hr

/-- What is left of the write of a dropped call. -/
theorem resume_spec {w : Writing} (hl : l.writing = some w) (hw : w.Begun) :
    (resume w).wp engine.calls.localised engine.Asserts (fun _ l' => l'.writing = none) l := by
  rw [resume]
  split
  · rename_i hclosed
    rcases hw.closed hclosed with ⟨hoffset, hfailed⟩
    have hnew : w = Writing.new w.path w.contents := by
      cases w
      cases hclosed
      cases hoffset
      cases hfailed
      rfl
    exact Prog.wp_mono _ (fun _ _ h => by rw [h]; rfl) _ (closure_spec (hnew ▸ hl))
  · rename_i hopen
    rw [Bool.not_eq_false] at hopen
    split
    · rename_i hfailed
      rw [Prog.wp_bind]
      refine Prog.wp_mono _ ?_ _ (@close_spec engine l w.path w hl rfl hopen (.error "") (fun he => by cases he)
        (fun _ _ => hfailed))
      rintro _ _ rfl
      rfl
    · rename_i hfailed
      rw [Bool.not_eq_true] at hfailed
      exact Prog.wp_mono _ (fun _ _ h => by rw [h]; rfl) _
        (finishWrite_spec hl rfl hopen hfailed hw.within)

/-! ### One call -/

theorem materialise_spec {root : String} {h : WorkerHarness} (hharness : l.harness = some h)
    (hwriting : l.writing = none) (hscript : l.script = none) :
    (materialise root h).wp engine.calls.localised engine.Asserts
      (fun r l' => (∃ script, l' = { l with script := script }) ∧
        ∀ script, r = .ok script → l'.script = some script) l := by
  have hsame : l = { l with script := none } := by rw [← hscript]
  rw [materialise, Prog.wp_bind]
  refine wp_engine hwriting ?_
  intro s c b s' l' hr
  have hl : l' = l := by
    simp only [EngineOp.respond] at hr
    split at hr <;> cases hr <;> rfl
  subst hl
  cases b with
  | error reason => exact ⟨⟨none, hsame⟩, fun _ he => by cases he⟩
  | ok _ =>
      simp only []
      rw [Prog.wp_bind]
      refine wp_engine ⟨hwriting, hscript, h, hharness, rfl⟩ ?_
      intro s c b s' l₂ hr
      cases hr
      rw [Prog.wp_bind]
      refine Prog.wp_mono _ ?_ _ (closure_spec rfl)
      rintro r _ rfl
      cases r with
      | error reason =>
          refine ⟨⟨l'.script, ?_⟩, fun _ he => by cases he⟩
          rw [written, ← hwriting]
      | ok _ =>
          refine ⟨⟨some (joinPath root h.filename), ?_⟩, fun _ he => by cases he; rfl⟩
          rw [written, ← hwriting]

theorem launchFor_spec {runtime : ResolvedRuntime} (hruntime : l.runtime = some runtime)
    (hharness : l.harness = none) (hwriting : l.writing = none) (hscript : l.script = none) :
    (engine.launchFor runtime l.request.language).wp engine.calls.localised engine.Asserts
      (fun r l' => (∃ harness script, l' = { l with harness := harness, script := script }) ∧
        ∀ launch, r = .ok launch → l'.Obtained engine launch runtime.version) l := by
  have hsame : l = { l with harness := none, script := none } := by rw [← hharness, ← hscript]
  rw [launchFor, Prog.wp_bind]
  refine wp_engine hwriting ?_
  intro s c b s' l' hr
  have hl : l' = l := by
    simp only [EngineOp.respond] at hr
    split at hr <;> cases hr
    rfl
  subst hl
  cases b with
  | error e => exact ⟨⟨none, none, hsame⟩, fun _ he => by cases he⟩
  | ok _ =>
      simp only []
      rw [Prog.wp_bind]
      refine wp_engine ⟨hharness, hscript, hwriting⟩ ?_
      intro s c b s' l₂ hr
      simp only [EngineOp.respond] at hr
      split at hr
      · rename_i h
        cases hr
        simp only []
        split
        · refine ⟨⟨some h, none, ?_⟩, fun _ he => by cases he⟩
          rw [← hscript]
        · rename_i binary hbinary
          rw [Prog.wp_bind]
          refine Prog.wp_mono _ ?_ _ (@materialise_spec engine { l' with harness := some h } _ h rfl
            hwriting hscript)
          rintro r _ ⟨⟨script, rfl⟩, hwritten⟩
          cases r with
          | error e => exact ⟨⟨some h, script, rfl⟩, fun _ he => by cases he⟩
          | ok path =>
              simp only []
              rw [Prog.wp_bind]
              refine wp_engine hwriting ?_
              intro s c lookup s' l₃ hr
              simp only [EngineOp.respond] at hr
              split at hr
              · cases hr
                refine ⟨⟨some h, script, rfl⟩, fun launch he => ?_⟩
                cases he
                exact ⟨runtime, h, path, binary, _, hruntime, rfl, hwritten path rfl, hbinary, rfl,
                  rfl⟩
              · cases hr
      · cases hr
        exact ⟨⟨none, none, hsame⟩, fun _ he => by cases he⟩
      · cases hr

/-- What the registry and the pool make of a call. -/
theorem pools_respond {β : Type} {op : PoolsOp β} {s s' : Executing} {l' : Execute}
    {c : ExecChoice} {b : β} (h : ExecOp.respond engine (.inr op) (s, l) c = some (b, s', l')) :
    ∃ c' pools client, c = .pools c' ∧ PoolsOp.ready s l β op = true ∧
      PoolsOp.respond engine.json engine.printable op (s.pools, l.client) c' =
        some (b, pools, client) ∧ (s', l') = s.follow engine (l.asked op) pools client := by
  simp only [ExecOp.respond] at h
  split at h
  · rename_i c'
    split at h
    · rename_i hready
      rcases Option.map_eq_some_iff.mp h with ⟨⟨b', pools, client⟩, hr, heq⟩
      simp only [Prod.mk.injEq] at heq
      rcases heq with ⟨rfl, heq⟩
      exact ⟨c', pools, client, rfl, hready, hr, heq.symm⟩
    · cases h
  · cases h

/-- What asking changes of the locals. -/
theorem asked_eq {β : Type} (l : Execute) (op : PoolsOp β) :
    ∃ launch spec, l.asked op = { l with launch := launch, spec := spec } := by
  cases op with
  | inl op =>
      cases op with
      | ensure launch settings version => exact ⟨some launch, l.spec, rfl⟩
  | inr op =>
      cases op with
      | launch spec => exact ⟨l.launch, some spec, rfl⟩
      | _ => exact ⟨l.launch, l.spec, rfl⟩

/-- The locals only get the client. -/
theorem follow_snd (s : Executing) (l : Execute) (pools : Pools) (client : Client) :
    (s.follow engine l pools client).2 = { l with client := client } := by
  rw [Executing.follow]
  split <;> rfl

/-- What the drop of one local changes. -/
theorem release_spec {s₁ s₂ : Pools} {l₁ l₂ : Client} (h : Client.release (s₁, l₁) = some (s₂, l₂)) :
    ∃ i pool p p', l₁.pool = some (i, pool) ∧ s₁.built[i]? = some p ∧ s₂ = s₁.put i p' ∧
      p'.pool = p.pool ∧ p'.state.fresh = p.state.fresh ∧ p'.state.idle = p.state.idle ∧
      l₂.pool = l₁.pool ∧ l₂.run.assigned = l₁.run.assigned ∧ l₂.run.result = l₁.run.result ∧
      (l₂.run.hold = l₁.run.hold ∨ l₂.run.hold = .nothing) := by
  simp only [Client.release] at h
  split at h
  · cases h
  · rename_i i pool hpool
    split at h
    · cases h
    · rename_i p hp
      refine ⟨i, pool, p, ?_⟩
      split at h
      · rename_i state run hrun
        cases h
        simp only [Run.release] at hrun
        split at hrun
        · cases hrun
          exact ⟨_, hpool, hp, rfl, rfl, rfl, rfl, rfl, rfl, rfl, .inr rfl⟩
        · split at hrun
          · cases hrun
            exact ⟨_, hpool, hp, rfl, rfl, rfl, rfl, rfl, rfl, rfl, .inl rfl⟩
          · split at hrun
            · cases hrun
              exact ⟨_, hpool, hp, rfl, rfl, rfl, rfl, rfl, rfl, rfl, .inl rfl⟩
            · cases hrun
      · split at h
        · cases h
          exact ⟨_, hpool, hp, rfl, rfl, rfl, rfl, rfl, rfl, rfl, .inl rfl⟩
        · cases h

/-- What a reaper changes. -/
theorem reaper_spec {s₁ s₂ : Pools} {c : PoolsChoice} (h : s₁.reaper c = some s₂) :
    ∃ i p p', s₁.built[i]? = some p ∧ s₂ = s₁.put i p' ∧ p'.pool = p.pool ∧
      p'.state.fresh = p.state.fresh ∧ ∀ w ∈ p'.state.idle, w ∈ p.state.idle := by
  cases c with
  | op c => cases h
  | upgrade i =>
      simp only [Pools.reaper] at h
      split at h
      · rename_i p hp
        split at h
        · cases h
          exact ⟨i, p, _, hp, rfl, rfl, rfl, fun _ hw => hw⟩
        · cases h
      · cases h
  | reap i c =>
      simp only [Pools.reaper] at h
      split at h
      · rename_i p hp
        split at h
        · rcases Option.map_eq_some_iff.mp h with ⟨state, hstate, rfl⟩
          simp only [LangPool.reaped] at hstate
          split at hstate
          · rcases Option.map_eq_some_iff.mp hstate with ⟨kept, hkept, rfl⟩
            exact ⟨i, p, _, hp, rfl, rfl, rfl, fun w hw => (reap_sublist hkept).subset hw⟩
          · cases hstate
        · cases h
      · cases h

/-- What follows when no pool is built. -/
theorem follow_put {s : Executing} {l : Execute} {pools : Pools} {client : Client} {i : Nat}
    {pool : LangPool} {origin : Origin} (hpool : client.pool = some (i, pool))
    (hlength : pools.built.length ≤ s.origins.length) (horigin : s.origins[i]? = some origin) :
    s.follow engine l pools client =
      ({ s with
          pools := pools
          boots := noteBoots (engine.locate origin.script) i l.spec l.client.run.hold
            client.run.hold s.boots },
        { l with client := client }) := by
  simp only [Executing.follow, hpool, if_neg (Nat.not_lt.mpr hlength), horigin]

/-- A call meets its assertions. -/
theorem execute_asserts (engine : Engine) (request : ExecRequest) :
    (engine.execute request).wp engine.calls.localised engine.Asserts Returns
      (Execute.new request) := by
  rw [execute, Prog.wp_bind]
  refine wp_engine ⟨rfl, rfl⟩ ?_
  intro s c b s' l₁ hr
  simp only [EngineOp.respond] at hr
  split at hr
  · rename_i runtime
    cases hr
    simp only []
    rw [Prog.wp_bind]
    refine Prog.wp_mono _ ?_ _ (@launchFor_spec engine
      { Execute.new request with runtime := some runtime } runtime rfl rfl rfl rfl)
    rintro r _ ⟨⟨harness, script, rfl⟩, hobtained⟩
    cases r with
    | error e => exact ⟨rfl, fun _ he => by cases he⟩
    | ok launch =>
        simp only []
        rw [Prog.wp_bind]
        refine ⟨⟨rfl, hobtained launch rfl, rfl, rfl, rfl, request.submission, rfl⟩, ?_⟩
        rintro ⟨s, c⟩ pool l₂ hr
        rcases Option.map_eq_some_iff.mp hr with ⟨⟨b, s', l₃⟩, hrespond, hr⟩
        cases hr
        rcases pools_respond hrespond with ⟨c', pools, client, _, _, hop, hfollow⟩
        rcases ensure_respond hop with ⟨i, _, rfl⟩
        have hl₃ := congrArg Prod.snd hfollow
        rw [follow_snd] at hl₃
        subst hl₃
        refine Prog.wp_embed (fun run l => l.writing = none ∧ l.client.arc = true ∧
          l.client.pool = some (i, b) ∧ l.client.run = run) ?_ ?_ ?_ _
          (Run.new request.submission) _ ⟨rfl, rfl, rfl, rfl⟩
          (LangPool.run_built b request.submission)
        · rintro β op run l ⟨hwriting, harc, hpool, rfl⟩ hA
          exact ⟨hwriting, harc, i, b, hpool, hA⟩
        · rintro β op run l ⟨s, c⟩ b' l' ⟨hwriting, harc, hpool, rfl⟩ _ hr
          rcases Option.map_eq_some_iff.mp hr with ⟨⟨b'', s', l''⟩, hrespond, hr⟩
          cases hr
          rcases pools_respond hrespond with ⟨c', pools, client, _, _, hop, hfollow⟩
          rcases pool_respond hop with ⟨_, _, p, c', state, run, _, _, _, hrun, _, rfl⟩
          have hl' := congrArg Prod.snd hfollow
          rcases asked_eq l (.inr op) with ⟨launch, spec, hasked⟩
          rw [follow_snd, hasked] at hl'
          subst hl'
          refine ⟨(p.state, c'), run, ?_, hwriting, harc, hpool, rfl⟩
          change (op.respond (p.state, l.client.run) c').map _ = _
          rw [hrun]
          rfl
        · rintro r run l ⟨hwriting, _, hpool, rfl⟩ ⟨_, hbuilt, _⟩
          refine ⟨hwriting, fun outcome he => ⟨i, b, hpool, ?_⟩⟩
          rcases hbuilt outcome he with ⟨response, elapsed, queueWait, _, _, rfl⟩
          rfl
  · cases hr
    exact ⟨rfl, fun _ he => by cases he⟩
  · cases hr

end Conduct

end Engine

end TinyRuntime
