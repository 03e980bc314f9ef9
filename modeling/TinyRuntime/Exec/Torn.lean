import TinyRuntime.Exec.Conduct

/-!
# What a Launching Worker Reads

Every call writes the harness out, also one that finds a live pool. The write makes
the file empty first, and the children of the pool read the same file. So a child
may read nothing (`harness_torn`), or what two writes left between them.

That is all that can go wrong. If a file is opened for writing only while no other
write has it open and no child that runs it is between its spawn and its reading,
and a child is spawned only while its script is whole, then every child reads the
complete source of a harness (`harness_whole`). The invariant keeps, for each file
that a script is in, that it is whole unless a write has it open or failed.

## Main definitions

* `Executing.Ready`: A file that is whole unless it is being written.
* `Written`: The invariant.
* `calm`: No write while a child boots, no child while a write goes on.

## Theorems

* `Written.move`, `Written.follow`: What a write and what a run keeps.
* `written_joint`: The invariant is a joint one.
* `harness_whole`: Every child, if it is calm.
* `harness_torn`: A call beside a launch.
-/

namespace TinyRuntime

open Concurrent (tally tally_cons tally_perm)

/-- A file that holds a complete source, unless a write has it open or failed. -/
def Executing.Ready (s : Executing) (f : Nat) : Prop :=
  s.writers f = 0 → s.spoiled f = false → ∃ h ∈ s.harnesses, s.files f = some h.bytes

/-- The write of a call has a file open. -/
def Execute.opens (engine : Engine) (f : Nat) (l : Execute) : Nat :=
  if l.writing.any fun w => w.opened && engine.locate w.path == f then 1 else 0

/-- No write of a script while a child that runs it has not read it, and no other; and
    no child while its script is being written or its last write failed. -/
def calm (engine : Engine) : Concurrent.Limits ExecOp Executing Execute ExecRequest ExecChoice where
  calls _ _ _ := True
  drops _ _ _ _ := True
  performs _ op s l c :=
    match op with
    | .inl (.create path) => c = .pass → s.writers (engine.locate path) = 0 ∧
        ∀ b ∈ s.boots, b.booting = true → b.source = none → b.file ≠ engine.locate path
    | .inr (.inr (.launch _)) => ∀ i pool origin, l.client.pool = some (i, pool) →
        s.origins[i]? = some origin →
        s.writers (engine.locate origin.script) = 0 ∧
          s.spoiled (engine.locate origin.script) = false
    | _ => True

/-- What is known of the files, and of the children that read them. -/
structure Written (engine : Engine) (s : Executing) (ls : List Execute) : Prop where
  writers : ∀ f, s.writers f = tally (Execute.opens engine f) ls
  single : ∀ f, s.writers f ≤ 1
  writing : ∀ l ∈ ls, ∀ w, l.writing = some w → w.Begun ∧
    (∃ h ∈ s.harnesses, w.contents = h.bytes) ∧
    (w.opened = true → s.files (engine.locate w.path) = some (w.contents.take w.offset))
  harness : ∀ l ∈ ls, ∀ h, l.harness = some h → h ∈ s.harnesses
  script : ∀ l ∈ ls, ∀ path, l.script = some path → s.Ready (engine.locate path)
  origins : ∀ o ∈ s.origins, s.Ready (engine.locate o.script)
  aligned : s.origins.length = s.pools.built.length
  given : ∀ l ∈ ls, ∀ i pool, l.client.pool = some (i, pool) → i < s.pools.built.length
  read : ∀ b ∈ s.boots, ∀ bytes, b.source = some bytes → ∃ h ∈ s.harnesses, bytes = h.bytes
  unread : ∀ b ∈ s.boots, b.booting = true → b.source = none →
    s.writers b.file = 0 ∧ s.spoiled b.file = false ∧ s.Ready b.file

namespace Written

variable {engine : Engine} {s s' : Executing} {l l' : Execute} {ls : List Execute}

theorem perm {ls' : List Execute} (hp : ls.Perm ls') (h : Written engine s ls) :
    Written engine s ls' where
  writers f := tally_perm (Execute.opens engine f) hp ▸ h.writers f
  single := h.single
  writing l hl := h.writing l (hp.mem_iff.mpr hl)
  harness l hl := h.harness l (hp.mem_iff.mpr hl)
  script l hl := h.script l (hp.mem_iff.mpr hl)
  origins := h.origins
  aligned := h.aligned
  given l hl := h.given l (hp.mem_iff.mpr hl)
  read := h.read
  unread := h.unread

/-- A call that has done nothing yet. -/
theorem call (request : ExecRequest) (h : Written engine s ls) :
    Written engine s (Execute.new request :: ls) where
  writers f := by
    rw [tally_cons, h.writers f]
    exact (Nat.zero_add _).symm
  single := h.single
  writing := List.forall_mem_cons.mpr ⟨fun _ hno => (by cases hno), h.writing⟩
  harness := List.forall_mem_cons.mpr ⟨fun _ hno => (by cases hno), h.harness⟩
  script := List.forall_mem_cons.mpr ⟨fun _ hno => (by cases hno), h.script⟩
  origins := h.origins
  aligned := h.aligned
  given := List.forall_mem_cons.mpr ⟨fun _ _ hno => (by cases hno), h.given⟩
  read := h.read
  unread := h.unread

/-- Nothing is written, and the provider may have returned something. -/
theorem learn (h : Written engine s (l :: ls)) {harnesses : List WorkerHarness}
    (hsub : ∀ x ∈ s.harnesses, x ∈ harnesses) (hwriting : l'.writing = l.writing)
    (hscript : l'.script = l.script) (hclient : l'.client.pool = l.client.pool)
    (hharness : ∀ x, l'.harness = some x → x ∈ harnesses) :
    Written engine { s with harnesses := harnesses } (l' :: ls) := by
  have hready : ∀ f, s.Ready f → ({ s with harnesses := harnesses } : Executing).Ready f := by
    intro f hf hw hs
    rcases hf hw hs with ⟨x, hx, hfile⟩
    exact ⟨x, hsub x hx, hfile⟩
  refine ⟨?_, h.single, ?_, ?_, ?_, ?_, h.aligned, ?_, ?_, ?_⟩
  · intro f
    have hopens : l'.opens engine f = l.opens engine f := by
      rw [Execute.opens, hwriting, Execute.opens]
    rw [tally_cons, hopens, ← tally_cons]
    exact h.writers f
  · have hold : ∀ x ∈ l :: ls, ∀ w, x.writing = some w → w.Begun ∧
        (∃ y ∈ harnesses, w.contents = y.bytes) ∧
        (w.opened = true → s.files (engine.locate w.path) = some (w.contents.take w.offset)) := by
      intro x hx w hw
      rcases h.writing x hx w hw with ⟨hbegun, ⟨y, hy, hbytes⟩, hfile⟩
      exact ⟨hbegun, ⟨y, hsub y hy, hbytes⟩, hfile⟩
    rw [List.forall_mem_cons] at hold
    exact List.forall_mem_cons.mpr ⟨hwriting ▸ hold.1, hold.2⟩
  · exact List.forall_mem_cons.mpr ⟨hharness,
      fun x hx y hy => hsub y (h.harness x (List.mem_cons_of_mem _ hx) y hy)⟩
  · have hold := h.script
    rw [List.forall_mem_cons] at hold
    exact List.forall_mem_cons.mpr ⟨fun path hpath => hready _ (hold.1 path (hscript ▸ hpath)),
      fun x hx path hpath => hready _ (hold.2 x hx path hpath)⟩
  · exact fun o ho => hready _ (h.origins o ho)
  · have hold := h.given
    rw [List.forall_mem_cons] at hold
    exact List.forall_mem_cons.mpr ⟨hclient ▸ hold.1, hold.2⟩
  · intro b hb bytes hbytes
    rcases h.read b hb bytes hbytes with ⟨y, hy, heq⟩
    exact ⟨y, hsub y hy, heq⟩
  · intro b hb hboot hsource
    rcases h.unread b hb hboot hsource with ⟨hw, hs, hr⟩
    exact ⟨hw, hs, hready _ hr⟩

/-- One file is opened, written or closed by the only call that has it open. -/
theorem move (f : Nat) (h : Written engine s (l :: ls))
    (hsame : s'.pools = s.pools ∧ s'.origins = s.origins ∧ s'.boots = s.boots ∧
      s'.harnesses = s.harnesses)
    (helse : ∀ g, g ≠ f → s'.files g = s.files g ∧ s'.writers g = s.writers g ∧
      s'.spoiled g = s.spoiled g)
    (hopens : ∀ g, s'.writers g + l.opens engine g = s.writers g + l'.opens engine g)
    (hsingle : s'.writers f ≤ 1) (hothers : ∀ x ∈ ls, x.opens engine f = 0)
    (hwriting : ∀ w, l'.writing = some w → w.Begun ∧
      (∃ x ∈ s.harnesses, w.contents = x.bytes) ∧
      (w.opened = true → s'.files (engine.locate w.path) = some (w.contents.take w.offset)))
    (hready : s'.Ready f)
    (hboots : ∀ b ∈ s.boots, b.booting = true → b.source = none → b.file ≠ f)
    (hlocals : l'.harness = l.harness ∧ l'.client = l.client)
    (hscript : ∀ path, l'.script = some path → l.script = some path ∨ engine.locate path = f) :
    Written engine s' (l' :: ls) := by
  rcases hsame with ⟨hpools, horigins, hsboots, hharnesses⟩
  have hkept : ∀ g, s.Ready g → s'.Ready g := by
    intro g hg
    by_cases hgf : g = f
    · exact hgf ▸ hready
    · rcases helse g hgf with ⟨hfile, hw, hs⟩
      intro hw' hs'
      rw [hharnesses, hfile]
      exact hg (hw ▸ hw') (hs ▸ hs')
  refine ⟨?_, ?_, ?_, ?_, ?_, ?_, ?_, ?_, ?_, ?_⟩
  · intro g
    have hold := h.writers g
    have hmoved := hopens g
    rw [tally_cons] at hold ⊢
    omega
  · intro g
    by_cases hgf : g = f
    · exact hgf ▸ hsingle
    · rw [(helse g hgf).2.1]
      exact h.single g
  · refine List.forall_mem_cons.mpr ⟨?_, fun x hx w hw => ?_⟩
    · rw [hharnesses]
      exact hwriting
    · rcases h.writing x (List.mem_cons_of_mem _ hx) w hw with ⟨hbegun, hbytes, hfile⟩
      refine ⟨hbegun, hharnesses ▸ hbytes, fun hopen => ?_⟩
      -- The file is another one, since nobody else has this one open.
      have hne : engine.locate w.path ≠ f := by
        intro heq
        have hx := hothers x hx
        rw [Execute.opens, hw] at hx
        simp only [Option.any_some, hopen, heq, beq_self_eq_true, Bool.and_self, ↓reduceIte,
          Nat.one_ne_zero] at hx
      rw [(helse _ hne).1]
      exact hfile hopen
  · have hold := h.harness
    rw [List.forall_mem_cons] at hold
    rw [hharnesses]
    exact List.forall_mem_cons.mpr ⟨hlocals.1 ▸ hold.1, hold.2⟩
  · have hold := h.script
    rw [List.forall_mem_cons] at hold
    refine List.forall_mem_cons.mpr ⟨fun path hpath => ?_, fun x hx path hpath => ?_⟩
    · rcases hscript path hpath with hpath | hpath
      · exact hkept _ (hold.1 path hpath)
      · exact hpath ▸ hready
    · exact hkept _ (hold.2 x hx path hpath)
  · intro o ho
    exact hkept _ (h.origins o (horigins ▸ ho))
  · rw [horigins, hpools]
    exact h.aligned
  · have hold := h.given
    rw [List.forall_mem_cons] at hold
    rw [hpools]
    exact List.forall_mem_cons.mpr ⟨hlocals.2 ▸ hold.1, hold.2⟩
  · rw [hsboots, hharnesses]
    exact h.read
  · intro b hb hboot hsource
    rw [hsboots] at hb
    rcases helse b.file (hboots b hb hboot hsource) with ⟨_, hw, hs⟩
    rw [hw, hs]
    rcases h.unread b hb hboot hsource with ⟨hno, hgood, hr⟩
    exact ⟨hno, hgood, hkept _ hr⟩

/-- A call that has no file open. -/
theorem opens_eq_zero {x : Execute} (hx : ∀ w, x.writing = some w → w.opened = false) (f : Nat) :
    x.opens engine f = 0 := by
  rw [Execute.opens]
  refine if_neg ?_
  cases hw : x.writing with
  | none => exact Bool.false_ne_true
  | some w =>
      rw [Option.any_some, hx w hw, Bool.false_and]
      exact Bool.false_ne_true

theorem opens_open {x : Execute} {w : Writing} (hx : x.writing = some w) (hopen : w.opened = true)
    (f : Nat) : x.opens engine f = if engine.locate w.path = f then 1 else 0 := by
  rw [Execute.opens, hx, Option.any_some, hopen, Bool.true_and]
  exact if_congr beq_iff_eq rfl rfl

/-- Who has a file open is the only one. -/
theorem alone {w : Writing} (h : Written engine s (l :: ls)) (hl : l.writing = some w)
    (hopen : w.opened = true) : s.writers (engine.locate w.path) = 1 ∧
      ∀ x ∈ ls, x.opens engine (engine.locate w.path) = 0 := by
  have hone := @opens_open engine l w hl hopen (engine.locate w.path)
  rw [if_pos rfl] at hone
  have hcount := h.writers (engine.locate w.path)
  have hsingle := h.single (engine.locate w.path)
  rw [tally_cons, hone] at hcount
  refine ⟨by omega, fun x hx => ?_⟩
  have hle := @Concurrent.le_tally _ (Execute.opens engine (engine.locate w.path)) x ls hx
  omega

/-- No child that has not read its script runs a file that is open. -/
theorem unread_ne {f : Nat} (h : Written engine s (l :: ls)) (hf : s.writers f = 1) :
    ∀ b ∈ s.boots, b.booting = true → b.source = none → b.file ≠ f := by
  rintro b hb hboot hsource rfl
  rw [(h.unread b hb hboot hsource).1] at hf
  cases hf

/-- Opening a file, if nobody else has it open and no child is about to read it. -/
theorem create {path : String} {contents : List UInt8} (h : Written engine s (l :: ls))
    (hl : l.writing = some (Writing.new path contents))
    (hfree : s.writers (engine.locate path) = 0)
    (hboots : ∀ b ∈ s.boots, b.booting = true → b.source = none → b.file ≠ engine.locate path) :
    Written engine
      { s with
        files := Function.update s.files (engine.locate path) (some [])
        writers := Function.update s.writers (engine.locate path)
          (s.writers (engine.locate path) + 1) }
      ({ l with writing := some (Writing.new path contents).start } :: ls) := by
  have hclosed := @opens_eq_zero engine l fun w hw => by
    rw [hl] at hw
    cases hw
    rfl
  rcases h.writing l (List.mem_cons_self ..) _ hl with ⟨_, hbytes, _⟩
  refine h.move (engine.locate path) ⟨rfl, rfl, rfl, rfl⟩ (fun g hg => ?_) (fun g => ?_) ?_
    (fun x hx => ?_) (fun w hw => ?_) ?_ hboots ⟨rfl, rfl⟩ fun _ hpath => .inl hpath
  · exact ⟨Function.update_of_ne hg .., Function.update_of_ne hg .., rfl⟩
  · rw [hclosed, opens_open rfl rfl]
    change Function.update s.writers _ _ g + 0 = s.writers g + if engine.locate path = g then 1 else 0
    by_cases hg : g = engine.locate path
    · rw [hg, Function.update_self, if_pos rfl]
    · rw [Function.update_of_ne hg, if_neg (Ne.symm hg)]
  · change Function.update s.writers _ _ _ ≤ 1
    rw [Function.update_self, hfree]
  · have hcount := h.writers (engine.locate path)
    rw [tally_cons] at hcount
    have hle := @Concurrent.le_tally _ (Execute.opens engine (engine.locate path)) x ls hx
    omega
  · cases hw
    refine ⟨⟨fun hno => (by cases hno), Nat.zero_le _⟩, hbytes, fun _ => ?_⟩
    exact Function.update_self ..
  · intro hzero
    change Function.update s.writers _ _ _ = 0 at hzero
    rw [Function.update_self, hfree] at hzero
    cases hzero

/-- Bytes accepted at the end of what is there. -/
theorem write {w : Writing} {n : Nat} (h : Written engine s (l :: ls)) (hl : l.writing = some w)
    (hopen : w.opened = true) (hn : n ≤ (w.contents.drop w.offset).length) :
    Written engine
      { s with
        files := Function.update s.files (engine.locate w.path)
          (some (writeAt ((s.files (engine.locate w.path)).getD []) w.offset
            ((w.contents.drop w.offset).take n))) }
      ({ l with writing := some (w.wrote n) } :: ls) := by
  rcases h.writing l (List.mem_cons_self ..) w hl with ⟨hbegun, hbytes, hfile⟩
  rcases h.alone hl hopen with ⟨hone, hothers⟩
  refine h.move (engine.locate w.path) ⟨rfl, rfl, rfl, rfl⟩ (fun g hg => ?_) (fun g => ?_)
    (Nat.le_of_eq hone) hothers (fun w' hw' => ?_) (fun hzero => ?_) (h.unread_ne hone) ⟨rfl, rfl⟩
    fun _ hpath => .inl hpath
  · exact ⟨Function.update_of_ne hg .., rfl, rfl⟩
  · rw [opens_open hl hopen, @opens_open engine _ (w.wrote n) rfl hopen]
    rfl
  · cases hw'
    rw [List.length_drop] at hn
    have hwithin := hbegun.within
    refine ⟨⟨fun hno => ?_, ?_⟩, hbytes, fun _ => ?_⟩
    · rw [Writing.wrote, hopen] at hno
      cases hno
    · change w.offset + n ≤ w.contents.length
      omega
    · change Function.update s.files _ _ (engine.locate w.path) =
        some (w.contents.take (w.offset + n))
      rw [Function.update_self, hfile hopen, Option.getD_some, writeAt_take n hwithin]
  · rw [hone] at hzero
    cases hzero

/-- The file is dropped: it is whole, or the write has failed. -/
theorem close {w : Writing} (h : Written engine s (l :: ls)) (hl : l.writing = some w)
    (hopen : w.opened = true) :
    Written engine
      { s with
        writers := Function.update s.writers (engine.locate w.path)
          (s.writers (engine.locate w.path) - 1)
        spoiled := Function.update s.spoiled (engine.locate w.path) (!w.complete) }
      ({ l with writing := none
                script := if w.complete then some w.path else l.script } :: ls) := by
  rcases h.writing l (List.mem_cons_self ..) w hl with ⟨_, ⟨x, hx, hbytes⟩, hfile⟩
  rcases h.alone hl hopen with ⟨hone, hothers⟩
  refine h.move (engine.locate w.path) ⟨rfl, rfl, rfl, rfl⟩ (fun g hg => ?_) (fun g => ?_) ?_
    hothers (fun w' hw' => (by cases hw')) (fun _ hgood => ?_) (h.unread_ne hone) ⟨rfl, rfl⟩
    fun path hpath => ?_
  · exact ⟨rfl, Function.update_of_ne hg .., Function.update_of_ne hg ..⟩
  · rw [opens_open hl hopen, opens_eq_zero fun w' hw' => by cases hw']
    change Function.update s.writers _ _ g + _ = _
    by_cases hg : g = engine.locate w.path
    · rw [hg, Function.update_self, hone, if_pos rfl]
    · rw [Function.update_of_ne hg, if_neg (Ne.symm hg)]
  · change Function.update s.writers _ _ _ ≤ 1
    rw [Function.update_self, hone]
    exact Nat.zero_le _
  · change Function.update s.spoiled _ _ _ = false at hgood
    rw [Function.update_self, Bool.not_eq_false'] at hgood
    simp only [Writing.complete, Bool.and_eq_true, beq_iff_eq] at hgood
    refine ⟨x, hx, ?_⟩
    rw [← hbytes, hfile hopen, hgood.2, List.take_length]
  · change (if w.complete then some w.path else l.script) = some path at hpath
    split at hpath
    · cases hpath
      exact .inr rfl
    · exact .inl hpath

/-- The write of a call is another one, and no file is opened or closed. -/
theorem rewrite {writing : Option Writing} (h : Written engine s (l :: ls))
    (hopens : ∀ f, ({ l with writing := writing } : Execute).opens engine f = l.opens engine f)
    (hwriting : ∀ w, writing = some w → w.Begun ∧ (∃ x ∈ s.harnesses, w.contents = x.bytes) ∧
      (w.opened = true → s.files (engine.locate w.path) = some (w.contents.take w.offset))) :
    Written engine s ({ l with writing := writing } :: ls) := by
  refine ⟨fun f => ?_, h.single, ?_, ?_, ?_, h.origins, h.aligned, ?_, h.read, h.unread⟩
  · rw [tally_cons, hopens, ← tally_cons]
    exact h.writers f
  · exact List.forall_mem_cons.mpr ⟨hwriting, fun x hx => h.writing x (List.mem_cons_of_mem _ hx)⟩
  · exact List.forall_mem_cons.mpr ⟨h.harness l (List.mem_cons_self ..),
      fun x hx => h.harness x (List.mem_cons_of_mem _ hx)⟩
  · exact List.forall_mem_cons.mpr ⟨h.script l (List.mem_cons_self ..),
      fun x hx => h.script x (List.mem_cons_of_mem _ hx)⟩
  · exact List.forall_mem_cons.mpr ⟨h.given l (List.mem_cons_self ..),
      fun x hx => h.given x (List.mem_cons_of_mem _ hx)⟩

/-- A write that failed. -/
theorem fail {w : Writing} (h : Written engine s (l :: ls)) (hl : l.writing = some w)
    (hopen : w.opened = true) :
    Written engine s ({ l with writing := some w.fail } :: ls) := by
  rcases h.writing l (List.mem_cons_self ..) w hl with ⟨hbegun, hbytes, hfile⟩
  refine h.rewrite (fun f => ?_) fun w' hw' => ?_
  · rw [opens_open hl hopen, @opens_open engine _ w.fail rfl hopen]
    rfl
  · cases hw'
    refine ⟨⟨fun hno => ?_, hbegun.within⟩, hbytes, hfile⟩
    rw [Writing.fail, hopen] at hno
    cases hno

/-- What the pools and the run of a call become: no file changes, a new pool runs
    the script of the call, and a new child runs a script that is whole. -/
theorem followed {pools : Pools} {origins : List Origin} {boots : List Boot}
    (h : Written engine s (l :: ls)) (hwriting : l'.writing = l.writing)
    (hscript : l'.script = l.script) (hharness : l'.harness = l.harness)
    (horigins : ∀ o ∈ origins, o ∈ s.origins ∨ l.script = some o.script)
    (haligned : origins.length = pools.built.length)
    (hgrow : s.pools.built.length ≤ pools.built.length)
    (hgiven : ∀ i pool, l'.client.pool = some (i, pool) → i < pools.built.length)
    (hboots : ∀ b ∈ boots, (∃ b₀ ∈ s.boots, b.source = b₀.source ∧ b.file = b₀.file ∧
        (b.booting = true → b₀.booting = true)) ∨
      b.source = none ∧ s.writers b.file = 0 ∧ s.spoiled b.file = false ∧ s.Ready b.file) :
    Written engine { s with pools := pools, origins := origins, boots := boots } (l' :: ls) := by
  have hready : ∀ f, s.Ready f →
      ({ s with pools := pools, origins := origins, boots := boots } : Executing).Ready f :=
    fun _ hf => hf
  refine ⟨?_, h.single, ?_, ?_, ?_, ?_, haligned, ?_, ?_, ?_⟩
  · intro f
    have hopens : l'.opens engine f = l.opens engine f := by
      rw [Execute.opens, hwriting, Execute.opens]
    rw [tally_cons, hopens, ← tally_cons]
    exact h.writers f
  · have hold := h.writing
    rw [List.forall_mem_cons] at hold
    exact List.forall_mem_cons.mpr ⟨hwriting ▸ hold.1, hold.2⟩
  · have hold := h.harness
    rw [List.forall_mem_cons] at hold
    exact List.forall_mem_cons.mpr ⟨hharness ▸ hold.1, hold.2⟩
  · have hold := h.script
    rw [List.forall_mem_cons] at hold
    exact List.forall_mem_cons.mpr ⟨hscript ▸ hold.1, hold.2⟩
  · intro o ho
    rcases horigins o ho with ho | ho
    · exact h.origins o ho
    · exact h.script l (List.mem_cons_self ..) o.script ho
  · have hold := h.given
    rw [List.forall_mem_cons] at hold
    exact List.forall_mem_cons.mpr ⟨hgiven,
      fun x hx i pool hi => Nat.lt_of_lt_of_le (hold.2 x hx i pool hi) hgrow⟩
  · intro b hb bytes hbytes
    rcases hboots b hb with ⟨b₀, hb₀, hsource, _, _⟩ | ⟨hnone, _⟩
    · exact h.read b₀ hb₀ bytes (hsource ▸ hbytes)
    · rw [hnone] at hbytes
      cases hbytes
  · intro b hb hboot hsource
    rcases hboots b hb with ⟨b₀, hb₀, hsame, hfile, hold⟩ | ⟨_, hnew⟩
    · have hunread := h.unread b₀ hb₀ (hold hboot) (hsame ▸ hsource)
      rw [← hfile] at hunread
      exact hunread
    · exact hnew

/-- One effect of the engine. -/
theorem engine_op {β : Type} {op : EngineOp β} {c : ExecChoice} {b : β}
    (h : Written engine s (l :: ls)) (hlim : (calm engine).performs _ (.inl op) s l c)
    (hA : engine.Asserts β (.inl op) l) (hr : op.respond engine s l c = some (b, s', l')) :
    Written engine s' (l' :: ls) := by
  cases op with
  | require request =>
      simp only [EngineOp.respond] at hr
      split at hr
      · cases hr
        exact h.learn (fun _ hx => hx) rfl rfl rfl (h.harness l (List.mem_cons_self ..))
      · cases hr
        exact h
      · cases hr
  | provider language | createDirAll path | environ =>
      simp only [EngineOp.respond] at hr
      split at hr <;> cases hr <;> exact h
  | harness =>
      simp only [EngineOp.respond] at hr
      split at hr
      · rename_i x
        cases hr
        exact h.learn (fun y hy => List.mem_append_left _ hy) rfl rfl rfl fun y hy =>
          List.mem_append_right _ (List.mem_singleton.mpr (Option.some.inj hy).symm)
      · cases hr
        exact h
      · cases hr
  | handOver path contents =>
      rcases hA with ⟨hwriting, _, x, hx, rfl⟩
      cases hr
      have hclosed : ∀ f, ({ l with writing := some (Writing.new path x.bytes) } : Execute).opens
          engine f = l.opens engine f := by
        intro f
        rw [opens_eq_zero fun w hw => (by cases hw; rfl), opens_eq_zero fun w hw => by
          rw [hwriting] at hw; cases hw]
      refine h.rewrite hclosed fun w hw => ?_
      cases hw
      exact ⟨⟨fun _ => ⟨rfl, rfl⟩, Nat.zero_le _⟩,
        ⟨x, h.harness l (List.mem_cons_self ..) x hx, rfl⟩, fun hno => by cases hno⟩
  | create path =>
      rcases hA with ⟨contents, hl⟩
      simp only [EngineOp.respond, hl] at hr
      split at hr
      · rename_i w hw
        cases hw
        cases hr
        rcases hlim rfl with ⟨hfree, hboots⟩
        exact h.create hl hfree hboots
      · cases hr
        refine h.rewrite (fun f => ?_) fun w hw => by cases hw
        rw [opens_eq_zero fun w hw => (by cases hw), opens_eq_zero fun w hw => by
          rw [hl] at hw
          cases hw
          rfl]
      · cases hr
  | write path offset buffer =>
      rcases hA with ⟨w, hl, rfl, hopen, _, rfl, rfl⟩
      simp only [EngineOp.respond, hl] at hr
      split at hr
      · rename_i n w' hw
        cases hw
        split at hr
        · cases hr
          exact h.write hl hopen ‹_›
        · cases hr
      · rename_i reason w' hw
        cases hw
        cases hr
        exact h.fail hl hopen
      · cases hr
  | close path =>
      rcases hA with ⟨w, hl, rfl, hopen, _⟩
      simp only [EngineOp.respond, hl] at hr
      cases hr
      exact h.close hl hopen

/-- What the pools and the run became, where the call knows the script of a pool it
    builds, and a child is spawned only while the script of its pool is whole. -/
theorem follow {pools : Pools} {client : Client} (h : Written engine s (l :: ls))
    (hgrow : pools.built.length = s.pools.built.length ∨
      pools.built.length = s.pools.built.length + 1 ∧
        ∃ script x, l.script = some script ∧ l.harness = some x)
    (hnone : client.pool = none → pools.built.length = s.pools.built.length)
    (hgiven : ∀ i pool, client.pool = some (i, pool) → i < pools.built.length)
    (hspawn : ∀ i pool child, client.pool = some (i, pool) →
      client.run.hold = .spawning (some child) → l.client.run.hold ≠ client.run.hold →
      ∃ origin, s.origins[i]? = some origin ∧ s.writers (engine.locate origin.script) = 0 ∧
        s.spoiled (engine.locate origin.script) = false) :
    Written engine (s.follow engine l pools client).1 ((s.follow engine l pools client).2 :: ls) := by
  have haligned := h.aligned
  unfold Executing.follow
  split
  · rename_i hpool
    refine h.followed rfl rfl rfl (fun _ ho => .inl ho) (haligned.trans (hnone hpool).symm)
      (Nat.le_of_eq (hnone hpool).symm) hgiven fun b hb => .inl ⟨b, hb, rfl, rfl, id⟩
  · rename_i i pool hpool
    have hchild : ∀ file, (∀ o, s.origins[i]? = some o → file = engine.locate o.script) →
        ∀ b ∈ noteBoots file i l.spec l.client.run.hold client.run.hold s.boots,
        (∃ b₀ ∈ s.boots, b.source = b₀.source ∧ b.file = b₀.file ∧
            (b.booting = true → b₀.booting = true)) ∨
          b.source = none ∧ s.writers b.file = 0 ∧ s.spoiled b.file = false ∧ s.Ready b.file := by
      intro file hfile b hb
      rcases mem_noteBoots hb with ⟨b₀, hb₀, rfl | rfl⟩ | ⟨child, hafter, hne, rfl⟩
      · exact .inl ⟨b, hb₀, rfl, rfl, id⟩
      · exact .inl ⟨b₀, hb₀, rfl, rfl, fun hno => by cases hno⟩
      · rcases hspawn i pool child hpool hafter hne with ⟨origin, horigin, hfree, hgood⟩
        rw [hfile origin horigin]
        exact .inr ⟨rfl, hfree, hgood, h.origins origin (List.mem_of_getElem? horigin)⟩
    simp only []
    split
    · rename_i hlt
      rcases hgrow with hsame | ⟨hmore, script, x, hscript, hharness⟩
      · omega
      · rw [hscript, hharness]
        refine h.followed rfl hscript.symm hharness.symm (fun o ho => ?_) ?_ (by omega) hgiven
          (hchild _ fun o ho => ?_)
        · rcases List.mem_append.mp ho with ho | ho
          · exact .inl ho
          · rw [List.mem_singleton.mp ho]
            exact .inr hscript
        · rw [List.length_append, List.length_singleton]
          omega
        · rw [(List.getElem?_append_left (List.getElem?_eq_some_iff.mp ho).1).trans ho]
    · rename_i hge
      exact h.followed rfl rfl rfl (fun _ ho => .inl ho) (by omega) (by omega) hgiven
        (hchild _ fun _ ho => by rw [ho])

/-- One effect of the registry or of a pool. -/
theorem pools_op {β : Type} {op : PoolsOp β} {c : ExecChoice} {b : β}
    (h : Written engine s (l :: ls)) (hlim : (calm engine).performs _ (.inr op) s l c)
    (hA : engine.Asserts β (.inr op) l)
    (hr : ExecOp.respond engine (.inr op) (s, l) c = some (b, s', l')) :
    Written engine s' (l' :: ls) := by
  rcases Engine.pools_respond hr with ⟨c', pools, client, _, _, hop, hfollow⟩
  have hfollow := Prod.ext_iff.mp hfollow
  simp only [] at hfollow
  have haligned := h.aligned
  have hasked : Written engine s (l.asked op :: ls) := by
    rcases Engine.asked_eq l op with ⟨launch, spec, hasked⟩
    rw [hasked]
    exact h.learn (fun _ hx => hx) rfl rfl rfl (h.harness l (List.mem_cons_self ..))
  rw [hfollow.1, hfollow.2]
  cases op with
  | inl op =>
      cases op with
      | ensure launch settings version =>
          rcases hA with ⟨_, ⟨_, x, script, _, _, _, hharness, hscript, _⟩, _⟩
          rcases ensure_respond hop with ⟨i, hensure, rfl⟩
          refine hasked.follow ?_ (fun hno => (by cases hno)) ?_ fun _ _ _ _ _ hne =>
            absurd rfl hne
          · rcases ensure_pool hensure with ⟨p, _, _, rfl⟩ | ⟨_, _, _, _, _, _, state, _, rfl⟩
            · exact .inl (List.length_set ..)
            · exact .inr ⟨List.length_append .., script, x, hscript, hharness⟩
          · intro j pool hj
            cases hj
            rcases ensure_pool hensure with ⟨p, hcurrent, _, rfl⟩ | ⟨_, rfl, _, _, _, _, state, _, rfl⟩
            · rw [Pools.put, List.length_set]
              exact (List.getElem?_eq_some_iff.mp (current_spec hcurrent).1).1
            · rw [Pools.insert, List.length_append]
              exact Nat.lt_succ_self _
  | inr op =>
      rcases pool_respond hop with ⟨i, pool, p, c₁, state, run, _, hpool, hp, hrun, rfl, rfl⟩
      have hlt : i < s.pools.built.length := (List.getElem?_eq_some_iff.mp hp).1
      have hclient : (l.asked (.inr op)).client = l.client := by
        rcases Engine.asked_eq l (.inr op) with ⟨launch, spec, hasked⟩
        rw [hasked]
      refine hasked.follow (.inl (List.length_set ..)) (fun _ => List.length_set ..) ?_ ?_
      · intro j pool' hj
        rw [Pools.put, List.length_set]
        exact h.given l (List.mem_cons_self ..) j pool' hj
      · intro j pool' child hj hafter hne
        have hj' : l.client.pool = some (j, pool') := hj
        rw [hpool] at hj'
        cases hj'
        rw [hclient] at hne
        rcases (PoolOp.answers_of_respond hrun).spawned hafter hne with ⟨spec, heq, _⟩
        cases heq
        have horigin : i < s.origins.length := haligned.symm ▸ hlt
        exact ⟨s.origins[i], List.getElem?_eq_getElem horigin,
          hlim i pool _ hpool (List.getElem?_eq_getElem horigin)⟩

/-- An ended call drops one of its locals. -/
theorem release (h : Written engine s (l :: ls))
    (hr : Execute.release engine (s, l) = some (s', l')) : Written engine s' (l' :: ls) := by
  rcases Option.map_eq_some_iff.mp hr with ⟨⟨pools, client⟩, hclient, hfollow⟩
  rcases Engine.release_spec hclient with ⟨i, pool, p, p', _, _, rfl, _, _, _, hpool, _, _, hhold⟩
  have hlength : (s.pools.put i p').built.length = s.pools.built.length := List.length_set ..
  have hhold : ∀ child, client.run.hold = .spawning (some child) →
      l.client.run.hold = client.run.hold := by
    intro child hafter
    rcases hhold with hsame | hnone
    · exact hsame.symm
    · rw [hnone] at hafter
      cases hafter
  have hfollow := Prod.ext_iff.mp hfollow
  simp only [] at hfollow
  rw [← hfollow.1, ← hfollow.2]
  refine h.follow (.inl hlength) (fun _ => hlength) (fun i pool hi => ?_)
    fun i pool child _ hafter hne => absurd (hhold child hafter) hne
  rw [hlength]
  exact h.given l (List.mem_cons_self ..) i pool (hpool ▸ hi)

/-- A reaper makes its pass, or a child reads a script that is whole. -/
theorem env {c : ExecChoice} (h : Written engine s ls) (hr : s.env c = some s') :
    Written engine s' ls := by
  cases c with
  | pools c =>
      rcases Option.map_eq_some_iff.mp hr with ⟨pools, hpools, rfl⟩
      have hlength : pools.built.length = s.pools.built.length := by
        rcases Engine.reaper_spec hpools with ⟨_, _, _, _, rfl, _⟩
        exact List.length_set ..
      exact ⟨h.writers, h.single, h.writing, h.harness, h.script, h.origins,
        h.aligned.trans hlength.symm,
        fun x hx i pool hi => hlength ▸ h.given x hx i pool hi, h.read, h.unread⟩
  | load k =>
      change s.load k = some s' at hr
      simp only [Executing.load] at hr
      split at hr
      · rename_i b hb
        split at hr
        · rename_i bytes hsource hfile
          split at hr
          · rename_i hboot
            cases hr
            rcases h.unread b (List.mem_of_getElem? hb) hboot hsource with ⟨hfree, hgood, hready⟩
            rcases hready hfree hgood with ⟨x, hx, hbytes⟩
            refine ⟨h.writers, h.single, h.writing, h.harness, h.script, h.origins, h.aligned,
              h.given, ?_, ?_⟩
            · intro b' hb' bytes' hread
              rcases List.mem_or_eq_of_mem_set hb' with hb' | rfl
              · exact h.read b' hb' bytes' hread
              · cases hread
                exact ⟨x, hx, Option.some.inj (hfile.symm.trans hbytes)⟩
            · intro b' hb' hboot' hsource'
              rcases List.mem_or_eq_of_mem_set hb' with hb' | rfl
              · exact h.unread b' hb' hboot' hsource'
              · cases hsource'
          · cases hr
        · cases hr
      · cases hr
  | _ => cases hr

/-- A call ends. What is left of its write goes on as another call. -/
theorem ended (result : Option (Except Error ExecResponse)) (h : Written engine s (l :: ls)) :
    Written engine s (l.orphans.map Prod.snd ++ engine.calls.ended result l :: ls) := by
  cases hwriting : l.writing with
  | none =>
      rw [Execute.orphans, hwriting]
      exact h.learn (fun _ hx => hx) hwriting.symm rfl rfl (h.harness l (List.mem_cons_self ..))
  | some w =>
      rw [Execute.orphans, hwriting]
      change Written engine s (l.orphan :: engine.calls.ended result l :: ls)
      have horphan : ∀ f, l.orphan.opens engine f = l.opens engine f := fun _ => rfl
      have hclosed : ∀ f, (engine.calls.ended result l).opens engine f = 0 :=
        opens_eq_zero fun w hw => by cases hw
      refine ⟨fun f => ?_, h.single, ?_, ?_, ?_, h.origins, h.aligned, ?_, h.read, h.unread⟩
      · rw [tally_cons, tally_cons, horphan, hclosed, Nat.zero_add, ← tally_cons]
        exact h.writers f
      · refine List.forall_mem_cons.mpr ⟨h.writing l (List.mem_cons_self ..), ?_⟩
        exact List.forall_mem_cons.mpr ⟨fun w hw => (by cases hw),
          fun x hx => h.writing x (List.mem_cons_of_mem _ hx)⟩
      · have hharness := h.harness l (List.mem_cons_self ..)
        refine List.forall_mem_cons.mpr ⟨hharness, List.forall_mem_cons.mpr ⟨hharness, ?_⟩⟩
        exact fun x hx => h.harness x (List.mem_cons_of_mem _ hx)
      · refine List.forall_mem_cons.mpr ⟨fun path hpath => (by cases hpath), ?_⟩
        exact List.forall_mem_cons.mpr ⟨h.script l (List.mem_cons_self ..),
          fun x hx => h.script x (List.mem_cons_of_mem _ hx)⟩
      · refine List.forall_mem_cons.mpr ⟨fun i pool hi => (by cases hi), ?_⟩
        exact List.forall_mem_cons.mpr ⟨h.given l (List.mem_cons_self ..),
          fun x hx => h.given x (List.mem_cons_of_mem _ hx)⟩

end Written

theorem written_joint (engine : Engine) :
    Concurrent.Joint engine.calls (calm engine)
      (fun p l => p.wp engine.calls.localised engine.Asserts Engine.Returns l)
      (Written engine) := by
  refine Concurrent.Joint.of_wp (fun request _ _ _ => engine.execute_asserts request) ?_ ?_ ?_ ?_
    ?_ ?_ ?_
  · exact fun s ls ls' hp h => h.perm hp
  · exact fun s ls request _ h => h.call request
  · intro β op s l ls c b s' l' hlim hA h hr
    cases op with
    | inl op => exact h.engine_op hlim hA hr
    | inr op => exact h.pools_op hlim hA hr
  · intro a s l ls hreturns h
    have hended := h.ended (some a)
    rw [Execute.orphans, hreturns.1] at hended
    exact hended
  · intro β e k s l ls _ _ _ h
    refine ⟨fun o ho => ?_, h.ended none⟩
    change o ∈ l.orphans at ho
    rw [Execute.orphans] at ho
    split at ho
    · cases ho
    · rename_i w hw
      rw [List.mem_singleton.mp ho]
      rw [Prog.wp_bind]
      refine Prog.wp_mono _ (fun _ l' hl' => ?_) _
        (Engine.resume_spec hw (h.writing l (List.mem_cons_self ..) w hw).1)
      exact ⟨hl', fun _ hno => by cases hno⟩
  · exact fun s l ls s' l' h hr => h.release hr
  · exact fun s ls c s' h hr => h.env hr

/-- **Whole harnesses.** If a harness is written only while no child is about to read
    it and nobody else writes it, and children are spawned only while it is whole, then
    every child reads the complete source of a harness that the provider returned. -/
theorem harness_whole (engine : Engine) {g : Engine.State}
    (h : Transition.Reachable (engine.calls.system (calm engine) Executing.fresh) g) :
    ∀ b ∈ g.shared.boots, ∀ bytes, b.source = some bytes →
      ∃ x ∈ g.shared.harnesses, bytes = x.bytes := by
  refine ((written_joint engine).reachable ?_ h).2.read
  rintro s ⟨hpools, horigins, hwriters, hboots, _⟩
  have hnone : ∀ {P : Execute → Prop}, ∀ l ∈ ([] : List Execute), P l :=
    fun _ hno => absurd hno List.not_mem_nil
  refine ⟨hwriters, fun f => ?_, hnone, hnone, hnone, ?_, ?_, hnone, ?_, ?_⟩
  · rw [hwriters]
    exact Nat.zero_le 1
  · exact fun o ho => absurd (horigins ▸ ho) List.not_mem_nil
  · rw [horigins, hpools]
    rfl
  · exact fun b hb => absurd (hboots ▸ hb) List.not_mem_nil
  · exact fun b hb => absurd (hboots ▸ hb) List.not_mem_nil

/-! ## One launch, and another call beside it -/

def smallEngine : Engine :=
  { harnessRoot := "/h", spawner := none, json := printableJson, printable := fun _ => true
    locate := String.length }

def smallHarness : WorkerHarness :=
  { filename := "w.py", source := "x", argsBeforeScript := [], argsAfterScript := [], env := []
    protocolVersion := 1, executable := "python" }

def smallRuntime : ResolvedRuntime :=
  { language := Language.new "python", version := "3.12", source := .system, binDir := "/b"
    executables := [("python", "/b/python")], installDir := none }

def smallRequest : ExecRequest :=
  { language := Language.new "python"
    settings :=
      { enabled := true, preferSystem := true, version := "3", maximumVersion := ""
        cacheDir := "", releaseTag := "", preferredCommand := "" }
    pool := smallPool.settings, code := "1", cwd := none, timeoutMs := none, lines := 1 }

/-- Before the first call, with nothing in the files. -/
def smallStart : Executing :=
  { pools := Pools.new, origins := [], files := fun _ => none, writers := fun _ => 0
    spoiled := fun _ => false, boots := [], harnesses := [] }

theorem smallStart_fresh : smallStart.fresh :=
  ⟨rfl, rfl, fun _ => rfl, rfl, rfl⟩

open Concurrent.Step ExecChoice in
/-- A call up to the point where it has opened the file of its harness. -/
def opened (i : Nat) (h : WorkerHarness) : List (Concurrent.Step ExecRequest ExecChoice) :=
  [call smallRequest, perform i (runtime (.ok smallRuntime)), perform i (provider (.ok ())),
    perform i (harness (.ok h)), perform i pass, perform i pass, perform i pass]

open Concurrent.Step ExecChoice in
/-- The harness written, a pool built and a child spawned. -/
def launched (i : Nat) : List (Concurrent.Step ExecRequest ExecChoice) :=
  opened i smallHarness ++
    [perform i (accepted 1), perform i pass, perform i (environ fun _ => none),
      perform i (pools (.op .pass))] ++
    (((spawnRun 0).drop 1).take 12).map fun e =>
      match e with
      | .perform _ c => perform i (pools (.op c))
      | _ => finish i

theorem launched_calm : smallEngine.calls.allowed (calm smallEngine)
    { shared := smallStart, calls := [] } (launched 0 ++ [.env (.load 0)]) := by
  iterate 6
    refine And.intro trivial fun g hg => ?_
    cases hg
  refine And.intro (fun _ => ⟨rfl, fun b hb => by cases hb⟩) fun g hg => ?_
  cases hg
  iterate 15
    refine And.intro trivial fun g hg => ?_
    cases hg
  refine And.intro (fun i pool origin hpool horigin => ?_) fun g hg => ?_
  · cases hpool
    cases horigin
    exact ⟨rfl, rfl⟩
  cases hg
  exact And.intro trivial fun _ _ => trivial

/-- The first child reads the first harness. -/
theorem harness_whole_launched : ∃ g : Engine.State,
    g.shared.boots.map Boot.source = [some [120]] ∧ ∃ x ∈ g.shared.harnesses, [120] = x.bytes := by
  have hrun : (Transition.play smallEngine.calls.move { shared := smallStart, calls := [] }
      (launched 0 ++ [.env (.load 0)])).map
        (fun g => g.shared.boots.map Boot.source) = some [some [120]] := by rfl
  rcases Option.map_eq_some_iff.mp hrun with ⟨g, hg, hread⟩
  rcases List.map_eq_singleton_iff.mp hread with ⟨b, hb, hsource⟩
  refine ⟨g, hread, ?_⟩
  exact harness_whole smallEngine
    (Concurrent.reachable_allowed smallStart_fresh hg launched_calm) b
    (hb ▸ List.mem_singleton_self b) [120] hsource

/-- A child that reads its script after another call has opened it. -/
theorem harness_torn : ¬ ∀ (engine : Engine) (g : Engine.State),
    Transition.Reachable (engine.calls.system .none Executing.fresh) g →
      ∀ b ∈ g.shared.boots, ∀ bytes, b.source = some bytes →
        ∃ x ∈ g.shared.harnesses, bytes = x.bytes := by
  intro h
  have hrun : (Transition.play smallEngine.calls.move { shared := smallStart, calls := [] }
      (launched 0 ++ opened 1 smallHarness ++ [.env (.load 0)])).map
        (fun g => (g.shared.boots.map Boot.source, g.shared.harnesses)) =
      some ([some []], [smallHarness, smallHarness]) := by rfl
  rcases Option.map_eq_some_iff.mp hrun with ⟨g, hg, hfacts⟩
  simp only [Prod.mk.injEq] at hfacts
  rcases List.map_eq_singleton_iff.mp hfacts.1 with ⟨b, hb, hsource⟩
  rcases h smallEngine g (Concurrent.reachable_play smallStart_fresh hg) b
    (hb ▸ List.mem_singleton_self b) [] hsource with ⟨x, hx, hbytes⟩
  have hsmall : x = smallHarness := by
    rw [hfacts.2] at hx
    simpa only [List.mem_cons, List.not_mem_nil, or_false, or_self] using hx
  rw [hsmall] at hbytes
  exact absurd hbytes (by decide)

end TinyRuntime
