import TinyRuntime.Resolve.Archives
import TinyRuntime.Resolve.Found

/-!
# Installed Once

Calls that install one directory ask the provider again as soon as they have the lock. So
once the provider accepts what is there, and no call that has the lock was told otherwise,
nobody downloads, unpacks, renames or deletes anything for it any more: its tree stays as
it is, whatever other directories the calls install, and every call for it that takes the
lock from then on returns it.

It needs a provider that looks at directories the same way every time, and no promotion
that goes on without its call.

## Main definitions

* `steady`: Histories with one provider and without dropped promotions.
* `Aloof`: The paths of the calls that do not lead into a directory.
* `Installation.Stands`: What a call was answered, by how far it is.
* `Installation.Settled`: The same once the directory is accepted.

## Theorems

* `Installation.Touches.tree_kept`: The directory after one step.
* `Settled.perform`: A call that is told once.
* `one_install`: The directory is installed once.
-/

namespace TinyRuntime

/-! ## Histories -/

/-- One provider for all calls, and no call is dropped while its promotion waits for a
    thread or is at work. -/
def steady (R : InstallRequest → Prop) (inspect : Inspect) :
    Concurrent.Limits InstallOp Installing Installation InstallRequest InstallChoice where
  calls _ _ r := R r
  drops _ op _ l := op.job l ≠ some .promote
  performs _ _ _ _ c := ∀ provider sc, c = .store provider sc → provider = inspect

/-- Nothing going on, and no archive is a link. -/
def Installing.clean (S : Site) (R : InstallRequest → Prop) (s : Installing) : Prop :=
  s.idle ∧ ∀ r, R r → ∀ target, s.disk.node (S.archiveAt r) ≠ some (.link target)

/-- A call installs the directory, or none of its paths leads into it. -/
structure Aloof (S : Site) (R : InstallRequest → Prop) (dir : PathBuf) : Prop where
  installed : ∀ r, R r → S.installDir r = dir ∨
    Disk.Apart (S.lookup.locate (S.installDir r)) (S.lookup.locate dir)
  aside : ∀ r, R r → Disk.Apart (S.lookup.locate (S.aside r)) (S.lookup.locate dir)
  archive : ∀ r, R r → ¬ S.lookup.locate dir <+: S.archiveAt r
  lock : ∀ r, R r → ¬ S.lookup.locate dir <+: S.lockAt r
  staged : ∀ r id, R r → Disk.Apart
    (S.lookup.locate (S.cacheRoot r ++ [stagingName r.process id])) (S.lookup.locate dir)
  dirs : ∀ r path, R r → InstallOp.Makes S r path ∨ (S.installDir r).parent = some path →
    ¬ S.lookup.locate dir <+: S.lookup.locate path

section Trees

variable {S : Site} {R : InstallRequest → Prop} {dir : PathBuf} {l : Installation}
  {d d' : Disk String}

/-- Every step but a promotion of the directory leaves it as it is. -/
theorem Installation.Touches.tree_kept (haloof : Aloof S R dir) (h : l.Touches S d d')
    (hrequest : R l.request) (hstages : l.Stages S)
    (hplain : ∀ target, d.node (S.archiveAt l.request) ≠ some (.link target))
    (hnamed : ∀ i, l.uses i → ∀ p, d.node p = some (.file i) → p = S.archiveAt l.request)
    (hquiet : S.installDir l.request = dir → l.working = some .promote →
      l.task = none ∧ l.phase ≠ .declined ∧ l.phase ≠ .moved) :
    d'.tree (S.lookup.locate dir) = d.tree (S.lookup.locate dir) := by
  have hstaging : ∀ {stage}, l.stage = some stage →
      Disk.Apart (S.lookup.locate stage) (S.lookup.locate dir) := by
    intro stage hstage
    rcases (hstages stage hstage).1 with ⟨id, rfl⟩
    exact haloof.staged _ id hrequest
  cases h with
  | same => rfl
  | dirs hmakes hmade =>
      refine Disk.tree_makeDirs fun hin => ?_
      rcases hmakes with hmakes | hstage | hparent
      · exact haloof.dirs _ _ hrequest (.inl hmakes) (hin.trans hmade)
      · exact (hstaging hstage).2 (hin.trans hmade)
      · exact haloof.dirs _ _ hrequest (.inr hparent) (hin.trans hmade)
  | lock =>
      unfold Disk.touch
      split
      · exact Disk.tree_link (haloof.lock _ hrequest)
      · rfl
  | archive =>
      refine Disk.tree_create ?_
      rw [Disk.follow]
      split
      · exact absurd ‹_› (hplain _)
      · exact haloof.archive _ hrequest
  | written bytes _ _ hfile =>
      refine Disk.tree_put fun x hx hnode => haloof.archive _ hrequest ?_
      exact hnamed _ (.inl ⟨_, hfile⟩) x hnode ▸ hx
  | dropped =>
      refine Disk.tree_prune fun x hx => haloof.archive _ hrequest ?_
      exact hx ▸ List.prefix_append _ _
  | unpacked staging name contents hstage =>
      exact Disk.tree_place fun hin =>
        (hstaging hstage).symm.not_prefix name hin
  | renamed hw hphase hpaths =>
      rcases haloof.installed _ hrequest with hdir | hother
      · rcases hquiet hdir hw with ⟨htask, hdeclined, hmoved⟩
        exact ((hphase htask).elim hdeclined hmoved).elim
      · have haside := haloof.aside _ hrequest
        rcases hpaths with ⟨rfl, rfl⟩ | ⟨hstaged, rfl⟩ | ⟨rfl, rfl⟩
        · exact Disk.tree_rename_apart hother haside
        · refine Disk.tree_rename_apart ?_ hother
          rcases hstaged with ⟨stage, name, hstage, hname, rfl⟩
          have hout := hstaging hstage
          rw [S.lookup.join _ _ hname]
          exact ⟨fun hin => hout.1 ((List.prefix_append _ _).trans hin),
            fun hin => hout.symm.not_prefix _ hin⟩
        · exact Disk.tree_rename_apart haside hother
  | removed hx =>
      rcases hx with ⟨stage, hstage, hx⟩ | hx
      · exact Disk.tree_remove_apart (hstaging hstage) hx
      · exact Disk.tree_remove_apart (haloof.aside _ hrequest) hx

end Trees

/-! ## What a call was answered -/

namespace Installation

/-- What a call was answered, by how far it is. -/
def Heard (l : Installation) : Prop :=
  match l.phase with
  | .early => l.answer = none
  | .holding => l.answer = none
  | .concluded => True
  | _ => l.answer = some (.ok none)

/-- A call of its own, by how far it is: what it was answered, and its lock. -/
structure Stands (l : Installation) : Prop where
  heard : l.Heard
  lock : l.ended = false → l.phase ≠ .early → l.lock ≠ none

/-- A call that has not asked yet, or was told of the layout. -/
def Settled (layout : RuntimeLayout) (l : Installation) : Prop :=
  (l.phase = .early ∨ l.phase = .holding) ∧ l.answer = none ∨
    l.phase = .concluded ∧ l.answer = some (.ok (some layout))

end Installation

section Answers

variable {S : Site} {s s' : Installing} {l l' : Installation} {c : InstallChoice} {β : Type}
  {op : InstallOp β} {b : β}

/-- How far a call is, and what it was answered, after one effect. -/
theorem progress_of_respond (hA : Conduct S β op l) (ht : l.task = none)
    (hr : op.respond S (s, l) c = some (b, s', l')) :
    l'.phase = l.phase ∧ l'.answer = l.answer ∨
      l.phase = .early ∧ l'.phase = .holding ∧ l'.answer = l.answer ∧
        l'.lock = some (S.lockAt l.request) ∨
      (l.phase = .declined ∨ l.phase = .moved) ∧ l'.answer = l.answer ∧
        (l'.phase = .declined ∨ l'.phase = .moved ∨ l'.phase = .landed) ∨
      ∃ provider sc answer, c = .store provider sc ∧ (l.phase = .holding ∨ l.phase = .landed) ∧
        answer = provider (S.installDir l.request)
          (s.disk.tree (S.lookup.locate (S.installDir l.request))) ∧
        l'.answer = some answer ∧ l'.phase = l.phase.asked answer := by
  have hwhen := (hA.2.2.2.1 ht).2
  cases op with
  | inl op =>
      have ha := answers_of_inl hr
      cases op with
      | lockExclusive path =>
          have hpath := hA.1.1
          subst hpath
          rcases ha with ⟨_, _, _, rfl⟩ | ⟨_, _, rfl⟩
          · exact .inr (.inl ⟨hwhen, rfl, rfl, rfl⟩)
          · exact .inl ⟨rfl, rfl⟩
      | _ =>
          simp only [RunOp.Answers] at ha
          exact .inl (by grind)
  | inr op =>
      rcases store_choice hr with ⟨provider, sc, rfl⟩
      rcases Option.map_eq_some_iff.mp hr with ⟨⟨b', d⟩, hstore, heq⟩
      cases heq
      cases op with
      | layout path =>
          cases hstore
          have hpath := hA.1.1
          subst hpath
          exact .inr (.inr (.inr ⟨provider, sc, _, rfl, hwhen, rfl, rfl, rfl⟩))
      | rename source target =>
          refine .inr (.inr (.inl ⟨hwhen.1, rfl, ?_⟩))
          change Phase.renamed _ _ _ _ _ = _ ∨ Phase.renamed _ _ _ _ _ = _ ∨
            Phase.renamed _ _ _ _ _ = _
          rw [Phase.renamed]
          split
          · exact .inl rfl
          · split
            · exact hwhen.1.elim .inl fun h => .inr (.inl h)
            · split
              · exact .inr (.inl rfl)
              · exact .inr (.inr rfl)
      | _ => exact .inl ⟨rfl, rfl⟩

/-- No effect gives the lock away. -/
theorem lock_stays {p : List String} (hA : Conduct S β op l)
    (hr : op.respond S (s, l) c = some (b, s', l')) (h : l.lock = some p) : l'.lock = some p := by
  cases op with
  | inr op =>
      rcases answers_of_inr hr with ⟨_, _, _, _, _, rfl⟩
      rw [after_lock]
      exact h
  | inl op =>
      by_cases hop : op.keepsLock
      · rw [(RunOp.locks_kept hop hr).1]
        exact h
      · cases op with
        | lockExclusive path =>
            have hnone : l.lock = none := hA.1.2.2
            rw [h] at hnone
            cases hnone
        | _ => exact absurd trivial hop

/-- A call that is past the lock has it. -/
theorem custody_kept (hA : Conduct S β op l) (ht : l.task = none)
    (hr : op.respond S (s, l) c = some (b, s', l')) (hne : l'.phase ≠ .early) :
    l'.lock = some (S.lockAt l.request) := by
  have hcustody := (hA.2.2.2.1 ht).1
  rcases progress_of_respond hA ht hr with ⟨hphase, _⟩ | ⟨_, _, _, hlock⟩ | ⟨hfar, _⟩ |
    ⟨_, _, _, _, hfar, _⟩
  · exact lock_stays hA hr (hcustody (hphase ▸ hne))
  · exact hlock
  · refine lock_stays hA hr (hcustody fun he => ?_)
    rcases hfar with hfar | hfar <;> rw [he] at hfar <;> cases hfar
  · refine lock_stays hA hr (hcustody fun he => ?_)
    rcases hfar with hfar | hfar <;> rw [he] at hfar <;> cases hfar

theorem Installation.Stands.perform (hA : Conduct S β op l) (ht : l.task = none) (h : l.Stands)
    (hr : op.respond S (s, l) c = some (b, s', l')) : l'.Stands := by
  have hheard := h.heard
  rw [Installation.Heard] at hheard
  refine ⟨?_, fun _ hne => by
    rw [custody_kept hA ht hr hne]
    exact Option.some_ne_none _⟩
  rcases progress_of_respond hA ht hr with ⟨hphase, hanswer⟩ | ⟨hearly, hphase, hanswer, _⟩ |
    ⟨hfar, hanswer, hphase⟩ | ⟨_, _, answer, _, hfar, _, hanswer, hphase⟩
  · rw [Installation.Heard, hphase, hanswer]
    exact hheard
  · rw [hearly] at hheard
    rw [Installation.Heard, hphase, hanswer]
    exact hheard
  · have hdeclined : l.answer = some (.ok none) := by
      rcases hfar with hfar | hfar <;> rw [hfar] at hheard <;> exact hheard
    rw [Installation.Heard, hanswer]
    rcases hphase with hphase | hphase | hphase <;> rw [hphase] <;> exact hdeclined
  · rw [Installation.Heard, hphase, hanswer]
    rcases hfar with hfar | hfar
    · rw [hfar]
      rcases answer with e | _ | layout <;> trivial
    · rw [hfar]
      trivial

/-- A call that has asked nothing yet is told of the layout, if it asks. -/
theorem Installation.Settled.perform {layout : RuntimeLayout} {inspect : Inspect}
    (hA : Conduct S β op l) (ht : l.task = none) (h : l.Settled layout)
    (hr : op.respond S (s, l) c = some (b, s', l'))
    (hprovider : ∀ provider sc, c = .store provider sc → provider = inspect)
    (haccepted : inspect (S.installDir l.request)
      (s.disk.tree (S.lookup.locate (S.installDir l.request))) = .ok (some layout)) :
    l'.Settled layout := by
  rcases progress_of_respond hA ht hr with ⟨hphase, hanswer⟩ | ⟨hearly, hphase, hanswer, hlock⟩ |
    ⟨hfar, _⟩ | ⟨provider, sc, answer, hc, hfar, hasked, hanswer, hphase⟩
  · rw [Installation.Settled, hphase, hanswer]
    exact h
  · rcases h with ⟨_, hnone⟩ | ⟨hconcluded, _⟩
    · exact .inl ⟨.inr hphase, hanswer.trans hnone⟩
    · rw [hearly] at hconcluded
      cases hconcluded
  · rcases h with ⟨h | h, _⟩ | ⟨h, _⟩ <;> rw [h] at hfar <;> rcases hfar with hfar | hfar <;>
      cases hfar
  · rw [hprovider provider sc hc, haccepted] at hasked
    subst hasked
    refine .inr ⟨hphase.trans ?_, hanswer⟩
    rcases hfar with hfar | hfar <;> rw [hfar] <;> rfl

end Answers

/-! ## All calls -/

/-- A step of a download, of unpacking or of a promotion. -/
def InstallOp.Installs {β : Type} (op : InstallOp β) : Prop :=
  match op with
  | .inl (.send _ _) => True
  | .inl (.createFile _) => True
  | .inl (.write _) => True
  | .inl (.removeFile _) => True
  | .inl (.stagingDir _) => True
  | .inl (.openArchive _) => True
  | .inl (.unpackEntry _ _ _) => True
  | .inr (.pathExists _) => True
  | .inr (.rename _ _) => True
  | .inr (.removeNext _) => True
  | _ => False

/-- Every call stands where it should, and no promotion is without its call. -/
structure Standing (S : Site) (R : InstallRequest → Prop) (s : Installing)
    (ls : List Installation) : Prop where
  archives : Archives S R s ls
  promotes : ∀ l ∈ ls, l.task ≠ some .promote
  stands : ∀ l ∈ ls, l.task = none → l.Stands

/-- The directory holds what is accepted, and the calls for it have been told so, if they
    were told anything. -/
structure Holds (S : Site) (R : InstallRequest → Prop) (dir : PathBuf) (T : Tree)
    (layout : RuntimeLayout) (s : Installing) (ls : List Installation) : Prop where
  archives : Archives S R s ls
  promotes : ∀ l ∈ ls, l.task ≠ some .promote
  tree : s.disk.tree (S.lookup.locate dir) = T
  settled : ∀ l ∈ ls, l.task = none → l.ended = false → S.installDir l.request = dir →
    l.Settled layout

section Joint

variable {S : Site} {R : InstallRequest → Prop} {inspect : Inspect} {dir : PathBuf} {T : Tree}
  {layout : RuntimeLayout} {s s' : Installing} {l l' : Installation} {ls : List Installation}
  {c : InstallChoice} {β : Type} {op : InstallOp β} {b : β}

/-- A closure at work is its call's. -/
theorem task_of_working {job : BlockingJob} (hA : Conduct S β op l) (hw : l.working = some job)
    (ht : l.task ≠ some job) : l.task = none := by
  cases htask : l.task with
  | none => rfl
  | some job' =>
      have hjob := hA.2.2.2.2 job' htask
      cases op with
      | inr op => exact absurd (htask.trans (hjob.symm.trans hw)) ht
      | inl op =>
          cases op with
          | begin job'' =>
              have hfree : l.working = none := hA.1.1
              rw [hw] at hfree
              cases hfree
          | _ => exact absurd (htask.trans (hjob.symm.trans hw)) ht

/-- What a drop leaves is not a promotion, if the call may be dropped. -/
theorem leaves_quiet {o : Installation} (ho : o ∈ l.leaves op) (hlim : op.job l ≠ some .promote) :
    o.task ≠ some .promote ∧ o.task ≠ none := by
  rcases uses_leaves ho with ⟨_, _, _, job, hjob, htask, _⟩
  exact ⟨fun h => hlim (hjob.trans (htask.symm.trans h)), fun h => by rw [htask] at h; cases h⟩

/-- Such a call was not declined. -/
theorem Installation.Settled.far (h : l.Settled layout) :
    l.phase ≠ .declined ∧ l.phase ≠ .moved ∧ l.phase ≠ .landed := by
  rcases h with ⟨h | h, _⟩ | ⟨h, _⟩ <;> rw [h] <;>
    exact ⟨fun h => (by cases h), fun h => (by cases h), fun h => by cases h⟩

/-- One step leaves the directory as it is. -/
theorem Holds.tree_step (haloof : Aloof S R dir) (h : Holds S R dir T layout s (l :: ls))
    (hA : Conduct S β op l) (hr : op.respond S (s, l) c = some (b, s', l')) :
    s'.disk.tree (S.lookup.locate dir) = T := by
  have hmem : l ∈ l :: ls := List.mem_cons_self ..
  have hrequest := h.archives.requests l hmem
  refine ((touches_of_respond hA hr).tree_kept haloof hrequest hA.2.1
    (h.archives.plain _ hrequest) (h.archives.named l hmem) fun hdir hw => ?_).trans h.tree
  have ht := task_of_working hA hw (h.promotes l hmem)
  have hfar := (h.settled l hmem ht hA.2.2.1 hdir).far
  exact ⟨ht, hfar.1, hfar.2.1⟩

theorem standing_joint (hapart : ArchivesApart S R) :
    Concurrent.Joint (installs S) (steady R inspect) (Tended S) (Standing S R) := by
  refine orderly_joint ?_ ?_ ?_ ?_ ?_ ?_
  · exact fun s ls ls' hp h => ⟨h.archives.perm hp, fun l hl => h.promotes l (hp.mem_iff.mpr hl),
      fun l hl => h.stands l (hp.mem_iff.mpr hl)⟩
  · intro s ls r hr h
    refine ⟨h.archives.call hr, List.forall_mem_cons.mpr ⟨fun ht => (by cases ht), h.promotes⟩,
      List.forall_mem_cons.mpr ⟨fun _ => ⟨rfl, fun _ hne => absurd rfl hne⟩, h.stands⟩⟩
  · intro β op s l ls c b s' l' _ hA _ h hr
    rcases List.forall_mem_cons.mp h.promotes with ⟨hl, hls⟩
    rcases List.forall_mem_cons.mp h.stands with ⟨hs, hss⟩
    have htask := (request_kept hr).2.1
    refine ⟨h.archives.perform hapart hA hr, List.forall_mem_cons.mpr ⟨htask ▸ hl, hls⟩,
      List.forall_mem_cons.mpr ⟨fun ht => ?_, hss⟩⟩
    have ht' := htask.symm.trans ht
    exact (hs ht').perform hA ht' hr
  · intro result s l ls h
    rcases List.forall_mem_cons.mp h.promotes with ⟨hl, hls⟩
    rcases List.forall_mem_cons.mp h.stands with ⟨hs, hss⟩
    exact ⟨h.archives.close _, List.forall_mem_cons.mpr ⟨hl, hls⟩, List.forall_mem_cons.mpr
      ⟨fun ht => ⟨(hs ht).heard, fun hended => (by cases hended)⟩, hss⟩⟩
  · intro β op s l ls hlim hA h
    rcases List.forall_mem_cons.mp h.promotes with ⟨hl, hls⟩
    rcases List.forall_mem_cons.mp h.stands with ⟨hs, hss⟩
    refine ⟨h.archives.drop, List.forall_mem_append.mpr
      ⟨fun o ho => (leaves_quiet ho hlim).1, List.forall_mem_cons.mpr ⟨hl, hls⟩⟩,
      List.forall_mem_append.mpr ⟨fun o ho ht => absurd ht (leaves_quiet ho hlim).2,
        List.forall_mem_cons.mpr
          ⟨fun ht => ⟨(hs ht).heard, fun hended => (by cases hended)⟩, hss⟩⟩⟩
  · intro s l ls s' l' h hr
    rcases List.forall_mem_cons.mp h.promotes with ⟨hl, hls⟩
    rcases List.forall_mem_cons.mp h.stands with ⟨hs, hss⟩
    have harchives := h.archives.release hr
    rcases of_release hr with ⟨p, hended, _, rfl, rfl⟩
    refine ⟨harchives, List.forall_mem_cons.mpr ⟨hl, hls⟩, List.forall_mem_cons.mpr
      ⟨fun ht => ⟨(hs ht).heard, fun hopen => ?_⟩, hss⟩⟩
    exact absurd (hended.symm.trans hopen) fun h => by cases h

theorem holds_joint (hapart : ArchivesApart S R) (haloof : Aloof S R dir)
    (haccepted : inspect dir T = .ok (some layout)) :
    Concurrent.Joint (installs S) (steady R inspect) (Tended S) (Holds S R dir T layout) := by
  refine orderly_joint ?_ ?_ ?_ ?_ ?_ ?_
  · exact fun s ls ls' hp h => ⟨h.archives.perm hp, fun l hl => h.promotes l (hp.mem_iff.mpr hl),
      h.tree, fun l hl => h.settled l (hp.mem_iff.mpr hl)⟩
  · intro s ls r hr h
    exact ⟨h.archives.call hr, List.forall_mem_cons.mpr ⟨fun ht => (by cases ht), h.promotes⟩,
      h.tree, List.forall_mem_cons.mpr ⟨fun _ _ _ => .inl ⟨.inl rfl, rfl⟩, h.settled⟩⟩
  · intro β op s l ls c b s' l' hlim hA _ h hr
    rcases List.forall_mem_cons.mp h.promotes with ⟨hl, hls⟩
    rcases List.forall_mem_cons.mp h.settled with ⟨hs, hss⟩
    rcases request_kept hr with ⟨hreq, htask, hended⟩
    refine ⟨h.archives.perform hapart hA hr, List.forall_mem_cons.mpr ⟨htask ▸ hl, hls⟩,
      h.tree_step haloof hA hr, List.forall_mem_cons.mpr ⟨fun ht _ hdir => ?_, hss⟩⟩
    rw [htask] at ht
    rw [hreq] at hdir
    refine (hs ht hA.2.2.1 hdir).perform hA ht hr hlim ?_
    rw [hdir, h.tree]
    exact haccepted
  · intro result s l ls h
    rcases List.forall_mem_cons.mp h.promotes with ⟨hl, hls⟩
    rcases List.forall_mem_cons.mp h.settled with ⟨hs, hss⟩
    exact ⟨h.archives.close _, List.forall_mem_cons.mpr ⟨hl, hls⟩, h.tree,
      List.forall_mem_cons.mpr ⟨fun _ hended => (by cases hended), hss⟩⟩
  · intro β op s l ls hlim hA h
    rcases List.forall_mem_cons.mp h.promotes with ⟨hl, hls⟩
    rcases List.forall_mem_cons.mp h.settled with ⟨hs, hss⟩
    exact ⟨h.archives.drop, List.forall_mem_append.mpr
      ⟨fun o ho => (leaves_quiet ho hlim).1, List.forall_mem_cons.mpr ⟨hl, hls⟩⟩, h.tree,
      List.forall_mem_append.mpr ⟨fun o ho ht => absurd ht (leaves_quiet ho hlim).2,
        List.forall_mem_cons.mpr ⟨fun _ hended => (by cases hended), hss⟩⟩⟩
  · intro s l ls s' l' h hr
    rcases List.forall_mem_cons.mp h.promotes with ⟨hl, hls⟩
    rcases List.forall_mem_cons.mp h.settled with ⟨hs, hss⟩
    have harchives := h.archives.release hr
    rcases of_release hr with ⟨p, hended, _, rfl, rfl⟩
    refine ⟨harchives, List.forall_mem_cons.mpr ⟨hl, hls⟩, h.tree, List.forall_mem_cons.mpr
      ⟨fun _ hopen => ?_, hss⟩⟩
    exact absurd (hended.symm.trans hopen) fun h => by cases h

/-- It does not install anything. -/
theorem Installation.Settled.quiet (hA : Conduct S β op l) (ht : l.task = none)
    (h : l.Settled layout) : ¬ op.Installs := by
  intro hinstalls
  have hwhen := (hA.2.2.2.1 ht).2
  have hphase := h.far
  cases op with
  | inl op =>
      cases op <;> first | exact hinstalls | exact hphase.1 hwhen | skip
      exact hwhen.elim hphase.1 hphase.2.2
  | inr op =>
      cases op <;> first | exact hinstalls | exact hphase.1 hwhen | skip
      · exact hwhen.1.elim hphase.1 hphase.2.1
      · exact hwhen.elim hphase.1 hphase.2.2

end Joint

/-! ## The tool -/

/-- The calls that install `/cache/tool`. -/
def toolCall (r : InstallRequest) : Prop :=
  r.settings.cacheDir = "/cache" ∧ r.distribution.installDirName = "tool" ∧
    r.distribution.archiveName = "tool.tgz" ∧ r.process = 7

section Tool

variable {r : InstallRequest}

theorem cacheRoot_tool (h : toolCall r) : toolSite.cacheRoot r = ["cache"] := by
  have hdirectory : r.settings.cacheDirectory = some "/cache" := by
    rw [RuntimeSettings.cacheDirectory, h.1]
    decide
  rw [Site.cacheRoot, hdirectory]
  show PathBuf.join [] "/cache" = _
  decide

theorem installDir_tool (h : toolCall r) : toolSite.installDir r = ["cache", "tool"] := by
  rw [Site.installDir, cacheRoot_tool h, h.2.1]
  decide

theorem archivePath_tool (h : toolCall r) : toolSite.archivePath r = ["cache", "tool.tgz"] := by
  rw [Site.archivePath, cacheRoot_tool h, h.2.2.1]
  decide

theorem aside_tool (h : toolCall r) : toolSite.aside r = ["cache", "tool.replaced-7"] := by
  rw [Site.aside, installDir_tool h, h.2.2.2]
  decide

/-- No staging directory is named like anything else there. -/
theorem staging_apart_tool (h : toolCall r) (id : String) {name : String}
    (hname : STAGING_PREFIX.toList.isPrefixOf name.toList = false) :
    Disk.Apart (toolSite.lookup.locate (toolSite.cacheRoot r ++ [stagingName r.process id]))
      ["cache", name] := by
  rw [cacheRoot_tool h]
  refine Disk.apart_of_ne (p := ["cache"]) fun heq => ?_
  rw [← heq, stagingName, String.append_assoc, String.append_assoc, String.toList_append] at hname
  exact Bool.false_ne_true (hname.symm.trans (List.isPrefixOf_iff_prefix.mpr
    (List.prefix_append _ _)))

theorem archives_tool : ArchivesApart toolSite toolCall := by
  refine ⟨fun r r' h h' => ?_, fun r r' h h' => ?_, fun r r' id h h' => ?_⟩
  · rw [Site.archiveAt, installDir_tool h, archivePath_tool h']
    decide
  · rw [Site.archiveAt, aside_tool h, archivePath_tool h']
    decide
  · rw [Site.archiveAt, archivePath_tool h']
    exact (staging_apart_tool h id (by decide)).1

theorem aloof_tool : Aloof toolSite toolCall ["cache", "tool"] := by
  refine ⟨fun r h => .inl (installDir_tool h), fun r h => ?_, fun r h => ?_, fun r h => ?_,
    fun r id h => staging_apart_tool h id (by decide), fun r path h hpath => ?_⟩
  · rw [aside_tool h]
    exact ⟨by decide, by decide⟩
  · rw [Site.archiveAt, archivePath_tool h]
    decide
  · rw [Site.lockAt, installDir_tool h]
    decide
  · have hroot : path = ["cache"] := by
      rcases hpath with (hroot | hlock | harchive) | hdir
      · rw [hroot, cacheRoot_tool h]
      · rw [installDir_tool h] at hlock
        cases hlock
        decide
      · rw [archivePath_tool h] at harchive
        cases harchive
        rfl
      · rw [installDir_tool h] at hdir
        cases hdir
        rfl
    rw [hroot]
    decide

end Tool

/-- The same step with another provider. -/
def provided (inspect : Inspect) :
    Concurrent.Step InstallRequest InstallChoice → Concurrent.Step InstallRequest InstallChoice
  | .perform i (.store _ c) => .perform i (.store inspect c)
  | e => e

open Concurrent.Step InstallChoice in
/-- The install of `/cache/tool`, up to the last answer of a provider that accepts it. -/
def acceptedRun : List (Concurrent.Step InstallRequest InstallChoice) :=
  (landedRun ++ [perform 0 (store declines .pass)]).map (provided acceptDirs)

open Concurrent.Step InstallChoice in
/-- The call returns, and another one takes its lock and asks. -/
def secondRun : List (Concurrent.Step InstallRequest InstallChoice) :=
  ([finish 0, release 0, call toolRequest] ++ (installRun 1).take 12).map (provided acceptDirs)

instance (r : InstallRequest) : Decidable (toolCall r) :=
  inferInstanceAs (Decidable (_ ∧ _ ∧ _ ∧ _))

/-- A step of calls for the tool, none of them dropped. -/
def isTool : Concurrent.Step InstallRequest InstallChoice → Bool
  | .call r => decide (toolCall r)
  | .drop _ => false
  | _ => true

theorem allowed_of_tool {inspect : Inspect}
    {es : List (Concurrent.Step InstallRequest InstallChoice)} (h : es.all isTool) :
    ∀ g, (installs toolSite).allowed (steady toolCall inspect) g (es.map (provided inspect)) := by
  induction es with
  | nil => exact fun _ => trivial
  | cons e es ih =>
      rw [List.all_cons, Bool.and_eq_true] at h
      refine fun g => ⟨?_, fun g' _ => ih h.2 g'⟩
      cases e with
      | call r =>
          have hcall : toolCall r := of_decide_eq_true h.1
          exact hcall
      | drop i => cases h.1
      | perform i c =>
          cases c with
          | store provider sc =>
              simp only [provided, Concurrent.Limits.allow]
              split
              · intro _ _ hc
                cases hc
                rfl
              · trivial
          | _ =>
              simp only [provided, Concurrent.Limits.allow]
              split
              · exact fun _ _ hc => by cases hc
              · trivial
      | _ => trivial

/-- What is told of it. -/
def toolLayout : RuntimeLayout :=
  { version := "1", binDir := "bin", executables := [] }

end TinyRuntime
