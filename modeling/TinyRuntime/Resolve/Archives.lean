import TinyRuntime.Resolve.Landed

/-!
# The Archives of Concurrent Installs

What the calls do to the disk, one step at a time, and to which files.

A call that was dropped may leave an open archive behind, and a closure that still writes
to it. As long as no install directory, no directory that was moved aside and no staging
directory is above the archive of any call, the file that is open stays where it was made
or loses its name. So whatever is written reaches no tree that is installed.

## Main definitions

* `Installation.Touches`: What one step does to the disk.
* `ArchivesApart`: The paths of the calls that lead to no archive.
* `Archives`: The files that calls have open.
* `InstallOp.Orderly`: First the download, then what was downloaded.

## Theorems

* `touches_of_respond`: The steps of the handler.
* `Archives.perform`: Open files stay archives.
* `install_orderly`: A call that took its lock asks before it returns.
* `orderly_joint`: Joint invariants that use this.
-/

namespace TinyRuntime

open Prog (act attempt)

/-- Where the archive of a call is. -/
def Site.archiveAt (S : Site) (r : InstallRequest) : List String :=
  S.lookup.locate (S.archivePath r)

/-! ## Steps on the disk -/

namespace Installation

/-- The directories a call makes. -/
def MakesAt (S : Site) (l : Installation) (path : PathBuf) : Prop :=
  InstallOp.Makes S l.request path ∨ l.stage = some path ∨
    (S.installDir l.request).parent = some path

/-- The renames of a call. -/
def RenamesAt (S : Site) (l : Installation) (source target : PathBuf) : Prop :=
  source = S.installDir l.request ∧ target = S.aside l.request ∨
    l.Staged source ∧ target = S.installDir l.request ∨
    source = S.aside l.request ∧ target = S.installDir l.request

/-- What one step of a call does to the disk. -/
inductive Touches (S : Site) (l : Installation) (d : Disk String) : Disk String → Prop
  | same : Touches S l d d
  | dirs {path : PathBuf} {made : List String} (h : l.MakesAt S path)
      (hmade : made <+: S.lookup.locate path) : Touches S l d (d.makeDirs made)
  | lock : Touches S l d (d.touch (S.lockAt l.request))
  | archive (h : l.working = some .createArchive) (hphase : l.task = none → l.phase = .declined) :
      Touches S l d (d.create (d.follow (S.archiveAt l.request))).2
  | written {i offset : Nat} (bytes : List UInt8) (h : l.working = some .write)
      (hphase : l.task = none → l.phase = .declined) (hfile : l.file = some (i, offset)) :
      Touches S l d (d.overwrite i offset bytes)
  | dropped : Touches S l d (d.remove (S.archiveAt l.request))
  | unpacked (staging : PathBuf) (name : List String) (contents : DiskEntry String)
      (h : l.stage = some staging) :
      Touches S l d (d.place (S.lookup.locate staging ++ name) contents)
  | renamed {source target : PathBuf} (h : l.working = some .promote)
      (hphase : l.task = none → l.phase = .declined ∨ l.phase = .moved)
      (hpaths : l.RenamesAt S source target) :
      Touches S l d (d.rename (S.lookup.locate source) (S.lookup.locate target))
  | removed {x : List String} (h : (∃ staging, l.stage = some staging ∧
      S.lookup.locate staging <+: x) ∨ S.lookup.locate (S.aside l.request) <+: x) :
      Touches S l d (d.remove x)

/-- It has the file open. -/
def uses (l : Installation) (i : Nat) : Prop :=
  (∃ offset, l.file = some (i, offset)) ∨ ∃ offset, l.reading = some (i, offset)

end Installation

section Steps

variable {S : Site} {s s' : Installing} {l l' : Installation} {c : InstallChoice} {β : Type}
  {op : InstallOp β} {b : β}

/-- Every step is one of these. -/
theorem touches_of_respond (hA : Conduct S β op l)
    (hr : op.respond S (s, l) c = some (b, s', l')) : l.Touches S s.disk s'.disk := by
  have hfootprint := hA.1
  cases op with
  | inl op =>
      have ha := answers_of_inl hr
      cases op with
      | openLock path =>
          rcases ha with ⟨_, rfl | ⟨_, rfl⟩⟩
          · exact .same
          · rw [hfootprint.1]
            exact .lock
      | createFile path =>
          rcases ha with ⟨_, _, rfl, _⟩ | ⟨_, rfl, _⟩
          · rw [hfootprint.1]
            exact .archive hfootprint.2 fun ht => (hA.2.2.2.1 ht).2
          · exact .same
      | write buffer =>
          rcases ha with ⟨n, i, offset, hfile, _, rfl, _⟩ | ⟨_, rfl, _⟩
          · exact .written _ hfootprint (fun ht => (hA.2.2.2.1 ht).2) hfile
          · exact .same
      | removeFile path =>
          rcases ha with ⟨_, rfl | ⟨_, rfl⟩⟩
          · exact .same
          · rw [hfootprint.1]
            exact .dropped
      | unpackEntry staging name contents =>
          rcases ha with ⟨_, rfl | ⟨contents, rfl⟩⟩
          · exact .same
          · exact .unpacked _ _ _ hfootprint.1
      | begin job => exact ha.2.1 ▸ .same
      | finish => exact ha.2.1 ▸ .same
      | lockExclusive path =>
          rcases ha with ⟨_, _, rfl, _⟩ | ⟨_, rfl, _⟩
          · exact .same
          · exact .same
      | stagingDir root => exact ha.2.2.1 ▸ .same
      | _ => exact ha.1 ▸ .same
  | inr op =>
      rcases answers_of_inr hr with ⟨provider, sc, d, hstore, rfl, rfl⟩
      have ha := StoreOp.answers_of_respond hstore
      cases op with
      | createDirAll path =>
          have hmakes : l.MakesAt S path := by
            rcases hfootprint with ⟨_, h⟩ | ⟨_, h⟩ | ⟨_, h⟩
            · exact .inl h
            · exact .inr (.inl h)
            · exact .inr (.inr h)
          rcases ha with rfl | ⟨made, hmade, rfl⟩
          · exact .same
          · exact .dirs hmakes hmade
      | rename source target =>
          rcases ha with ⟨_, _, ⟨_, rfl⟩ | ⟨_, rfl⟩⟩ | ⟨_, rfl⟩
          · exact .same
          · exact .renamed hfootprint.1 (fun ht => (hA.2.2.2.1 ht).2.1) hfootprint.2
          · exact .same
      | removeNext path =>
          rcases ha with ⟨x, _, hx, _, rfl⟩ | ⟨_, rfl⟩
          · refine .removed ?_
            rcases hfootprint with ⟨_, hstage⟩ | ⟨_, rfl⟩
            · exact .inl ⟨path, hstage, hx⟩
            · exact .inr hx
          · exact .same
      | isInside root candidate => exact hfootprint.elim
      | _ => exact ha.1 ▸ .same

theorem follow_plain {d : Disk String} {p : List String}
    (h : ∀ target, d.node p ≠ some (.link target)) : d.follow p = p := by
  rw [Disk.follow]
  split
  · exact absurd ‹_› (h _)
  · rfl

/-- A file is opened at the archive path. -/
theorem uses_perform (hA : Conduct S β op l) (hr : op.respond S (s, l) c = some (b, s', l'))
    (hplain : ∀ target, s.disk.node (S.archiveAt l.request) ≠ some (.link target)) {i : Nat}
    (h : l'.uses i) : l.uses i ∨ s'.disk.node (S.archiveAt l.request) = some (.file i) := by
  have hfollow := follow_plain hplain
  have hfootprint := hA.1
  cases op with
  | inr op =>
      rcases answers_of_inr hr with ⟨_, _, _, _, _, rfl⟩
      have hsame : (l.after S op b).file = l.file ∧ (l.after S op b).reading = l.reading := by
        cases op <;> exact ⟨rfl, rfl⟩
      rw [Installation.uses, hsame.1, hsame.2] at h
      exact .inl h
  | inl op =>
      have ha := answers_of_inl hr
      cases op with
      | createFile path =>
          rcases ha with ⟨_, _, rfl, rfl⟩ | ⟨_, rfl, rfl⟩
          · rcases h with ⟨offset, hfile⟩ | hreading
            · rw [hfootprint.1] at hfile ⊢
              change some (((s.disk.create (s.disk.follow (S.archiveAt l.request))).1, 0)) = _
                at hfile
              rw [hfollow] at hfile
              cases hfile
              change _ ∨ (s.disk.create (s.disk.follow (S.archiveAt l.request))).2.node _ = _
              rw [hfollow]
              exact .inr Disk.node_create_self
            · exact .inl (.inr hreading)
          · exact .inl h
      | openArchive path =>
          rcases ha with ⟨rfl, ⟨j, _, hnode, rfl⟩ | ⟨_, rfl⟩⟩
          · rcases h with hfile | ⟨offset, hreading⟩
            · exact .inl (.inl hfile)
            · cases hreading
              rw [hfootprint.1] at hnode
              change s'.disk.node (s'.disk.follow (S.archiveAt l.request)) = _ at hnode
              rw [hfollow] at hnode
              exact .inr hnode
          · exact .inl h
      | write buffer =>
          rcases ha with ⟨n, j, offset, hfile, _, rfl, rfl⟩ | ⟨_, rfl, rfl⟩
          · refine .inl (h.imp_left ?_)
            rintro ⟨offset', hfile'⟩
            cases hfile'
            exact ⟨offset, hfile⟩
          · exact .inl h
      | readArchive =>
          rcases ha with ⟨rfl, ⟨_, _, _, _, _, rfl⟩ | ⟨j, offset, bytes, hreading, _, _, rfl⟩ |
            ⟨_, rfl⟩⟩
          · exact .inl h
          · refine .inl (h.imp_right ?_)
            rintro ⟨offset', hreading'⟩
            cases hreading'
            exact ⟨offset, hreading⟩
          · exact .inl h
      | finish =>
          rcases ha with ⟨_, _, rfl⟩
          exact .inl (.inl (h.resolve_right fun hreading => by rcases hreading with ⟨_, h⟩; cases h))
      | close =>
          rcases ha with ⟨_, rfl⟩
          exact .inl (.inr (h.resolve_left fun hfile => by rcases hfile with ⟨_, h⟩; cases h))
      | lockExclusive path =>
          rcases ha with ⟨_, _, _, rfl⟩ | ⟨_, _, rfl⟩
          · exact .inl h
          · exact .inl h
      | selectDistribution => exact .inl (ha.2.1 ▸ h)
      | begin job =>
          rcases ha with ⟨_, _, rfl⟩
          exact .inl h
      | openLock path => exact .inl (ha.1 ▸ h)
      | removeFile path => exact .inl (ha.1 ▸ h)
      | unpackEntry staging name contents => exact .inl (ha.1 ▸ h)
      | stagingDir root =>
          rcases ha with ⟨_, _, _, rfl⟩
          exact .inl h
      | _ => exact .inl (ha.2 ▸ h)

end Steps

/-! ## Open files -/

/-- No path of a call but its archive leads to the archive of any. -/
structure ArchivesApart (S : Site) (R : InstallRequest → Prop) : Prop where
  installed : ∀ r r', R r → R r' → ¬ S.lookup.locate (S.installDir r) <+: S.archiveAt r'
  aside : ∀ r r', R r → R r' → ¬ S.lookup.locate (S.aside r) <+: S.archiveAt r'
  staged : ∀ r r' id, R r → R r' →
    ¬ S.lookup.locate (S.cacheRoot r ++ [stagingName r.process id]) <+: S.archiveAt r'

/-- What the calls have open are archives, or have no name any more. -/
structure Archives (S : Site) (R : InstallRequest → Prop) (s : Installing)
    (ls : List Installation) : Prop where
  requests : ∀ l ∈ ls, R l.request
  plain : ∀ r, R r → ∀ target, s.disk.node (S.archiveAt r) ≠ some (.link target)
  known : ∀ l ∈ ls, ∀ i, l.uses i → i < s.disk.fresh
  named : ∀ l ∈ ls, ∀ i, l.uses i → ∀ p, s.disk.node p = some (.file i) →
    p = S.archiveAt l.request
  shared : ∀ l ∈ ls, ∀ l' ∈ ls, ∀ i, l.uses i → l'.uses i →
    S.archiveAt l.request = S.archiveAt l'.request

section Open

variable {S : Site} {R : InstallRequest → Prop} {s s' : Installing} {l l' : Installation}
  {ls ls' : List Installation} {d d' : Disk String}

/-- Numbers of files are not used again. -/
theorem Installation.Touches.fresh_le (h : l.Touches S d d') : d.fresh ≤ d'.fresh := by
  have hcreate : ∀ (d : Disk String) p, d.fresh ≤ (d.create p).2.fresh := by
    intro d p
    unfold Disk.create
    split
    · exact Nat.le_refl _
    · exact Nat.le_succ _
  cases h with
  | lock =>
      unfold Disk.touch
      split
      · exact Nat.le_succ _
      · exact Nat.le_refl _
  | archive => exact hcreate _ _
  | unpacked staging name contents =>
      cases contents with
      | file bytes => exact hcreate (d.makeDirs _) _
      | _ => exact Nat.le_refl _
  | _ => exact Nat.le_refl _

/-- What is staged is in the staging directory. -/
theorem Installation.Staged.above {path : PathBuf} (h : l.Staged path) :
    ∃ stage, l.stage = some stage ∧ S.lookup.locate stage <+: S.lookup.locate path := by
  rcases h with ⟨stage, name, hstage, hname, rfl⟩
  refine ⟨stage, hstage, ?_⟩
  rw [S.lookup.join _ _ hname]
  exact List.prefix_append _ _

section Apart

variable (hapart : ArchivesApart S R) (hrequest : R l.request) (hstages : l.Stages S)

include hapart hrequest hstages

theorem ArchivesApart.staging {r : InstallRequest} (hr : R r) {stage : PathBuf}
    (h : l.stage = some stage) : ¬ S.lookup.locate stage <+: S.archiveAt r := by
  rcases (hstages stage h).1 with ⟨id, rfl⟩
  exact hapart.staged _ _ id hrequest hr

/-- Neither path of a rename is above an archive. -/
theorem ArchivesApart.renames {r : InstallRequest} (hr : R r) {source target : PathBuf}
    (h : l.RenamesAt S source target) :
    ¬ S.lookup.locate source <+: S.archiveAt r ∧ ¬ S.lookup.locate target <+: S.archiveAt r := by
  have hinstalled := hapart.installed _ _ hrequest hr
  have haside := hapart.aside _ _ hrequest hr
  rcases h with ⟨rfl, rfl⟩ | ⟨hstaged, rfl⟩ | ⟨rfl, rfl⟩
  · exact ⟨hinstalled, haside⟩
  · rcases hstaged.above with ⟨stage, hstage, habove⟩
    exact ⟨fun h => hapart.staging hrequest hstages hr hstage (habove.trans h), hinstalled⟩
  · exact ⟨haside, hinstalled⟩

/-- No step makes a link of an archive. -/
theorem Installation.Touches.plain (h : l.Touches S d d') {r : InstallRequest} (hr : R r)
    (hplain : ∀ r, R r → ∀ target, d.node (S.archiveAt r) ≠ some (.link target))
    (target : List String) : d'.node (S.archiveAt r) ≠ some (.link target) := by
  have hold := hplain r hr target
  have hcreate : ∀ (d : Disk String) p, d.node (S.archiveAt r) ≠ some (.link target) →
      (d.create p).2.node (S.archiveAt r) ≠ some (.link target) := by
    intro d p hold
    by_cases hp : S.archiveAt r = p
    · rw [hp, Disk.node_create_self]
      exact fun h => by cases h
    · rw [Disk.node_create hp]
      exact hold
  have hdirs : ∀ p, (d.makeDirs p).node (S.archiveAt r) ≠ some (.link target) := by
    intro p
    simp only [Disk.makeDirs]
    split
    · exact fun h => by cases h
    · exact hold
  have hprune : ∀ x, (d.remove x).node (S.archiveAt r) ≠ some (.link target) := by
    intro x
    by_cases hx : S.archiveAt r = x
    · rw [← hx, Disk.node_remove_self]
      exact fun h => by cases h
    · rw [Disk.node_remove_ne hx]
      exact hold
  cases h with
  | same => exact hold
  | dirs => exact hdirs _
  | lock =>
      rw [Disk.touch]
      split
      · simp only [Disk.link]
        split
        · exact fun h => by cases h
        · exact hold
      · exact hold
  | archive => exact hcreate d _ hold
  | written => exact hold
  | dropped => exact hprune _
  | unpacked staging name contents hstage =>
      have hne : S.archiveAt r ≠ S.lookup.locate staging ++ name := fun heq =>
        hapart.staging hrequest hstages hr hstage (heq ▸ List.prefix_append _ _)
      cases contents with
      | dir => exact hdirs _
      | file bytes => exact hcreate _ _ (hdirs _)
      | link target' => exact fun h => hdirs _ ((if_neg hne).symm.trans h)
  | renamed _ _ hpaths =>
      have hnot := hapart.renames hrequest hstages hr hpaths
      rw [Disk.node_rename_of_not hnot.1 hnot.2]
      exact hold
  | removed => exact hprune _

/-- A file that is an archive, or has no name, gets no other name. -/
theorem Installation.Touches.named (h : l.Touches S d d') {r : InstallRequest} (hr : R r)
    {i : Nat} (hknown : i < d.fresh) (hnamed : ∀ p, d.node p = some (.file i) → p = S.archiveAt r)
    {p : List String} (hp : d'.node p = some (.file i)) : p = S.archiveAt r := by
  have hdirs : ∀ q x, (d.makeDirs q).node x = some (.file i) → x = S.archiveAt r := by
    intro q x hx
    simp only [Disk.makeDirs] at hx
    split at hx
    · cases hx
    · exact hnamed x hx
  -- A file that is created is a new one, or has its name already.
  have hcreate : ∀ (d : Disk String) q, i < d.fresh →
      (∀ p, d.node p = some (.file i) → p = S.archiveAt r) →
      (d.create q).2.node p = some (.file i) → p = S.archiveAt r := by
    intro d q hknown hnamed hp
    unfold Disk.create at hp
    split at hp
    · exact hnamed p hp
    · simp only [Disk.link] at hp
      split at hp
      · cases hp
        exact absurd hknown (Nat.lt_irrefl _)
      · exact hnamed p hp
  have hprune : ∀ x, (d.remove x).node p = some (.file i) → p = S.archiveAt r := by
    intro x hx
    simp only [Disk.remove, Disk.prune] at hx
    split at hx
    · cases hx
    · exact hnamed p hx
  cases h with
  | same => exact hnamed p hp
  | dirs => exact hdirs _ p hp
  | lock =>
      unfold Disk.touch at hp
      split at hp
      · simp only [Disk.link] at hp
        split at hp
        · cases hp
          exact absurd hknown (Nat.lt_irrefl _)
        · exact hnamed p hp
      · exact hnamed p hp
  | archive => exact hcreate d _ hknown hnamed hp
  | written => exact hnamed p hp
  | dropped => exact hprune _ hp
  | unpacked staging name contents hstage =>
      cases contents with
      | dir => exact hdirs _ p hp
      | file bytes => exact hcreate (d.makeDirs _) _ hknown (hdirs _) hp
      | link target =>
          change (if _ then some (Node.link target) else _) = _ at hp
          split at hp
          · cases hp
          · exact hdirs _ p hp
  | renamed _ _ hpaths =>
      have hnot := hapart.renames hrequest hstages hr hpaths
      simp only [Disk.rename] at hp
      split at hp
      · have hsource := hnamed _ hp
        exact absurd (hsource ▸ List.prefix_append _ _) hnot.1
      · split at hp
        · cases hp
        · exact hnamed p hp
  | removed => exact hprune _ hp

end Apart

theorem Archives.perm (hp : ls.Perm ls') (h : Archives S R s ls) : Archives S R s ls' :=
  ⟨fun l hl => h.requests l (hp.mem_iff.mpr hl), h.plain,
    fun l hl => h.known l (hp.mem_iff.mpr hl), fun l hl => h.named l (hp.mem_iff.mpr hl),
    fun l hl l' hl' => h.shared l (hp.mem_iff.mpr hl) l' (hp.mem_iff.mpr hl')⟩

/-- Calls that have no other files open. -/
theorem Archives.same (h : Archives S R s ls) (hdisk : s'.disk = s.disk)
    (hls : ∀ x ∈ ls', ∃ y ∈ ls, x.request = y.request ∧ ∀ i, x.uses i → y.uses i) :
    Archives S R s' ls' := by
  refine ⟨fun x hx => ?_, hdisk ▸ h.plain, fun x hx i hi => ?_, fun x hx i hi => ?_,
    fun x hx x' hx' i hi hi' => ?_⟩
  · rcases hls x hx with ⟨y, hy, hreq, _⟩
    exact hreq ▸ h.requests y hy
  · rcases hls x hx with ⟨y, hy, _, huses⟩
    exact hdisk ▸ h.known y hy i (huses i hi)
  · rcases hls x hx with ⟨y, hy, hreq, huses⟩
    exact hdisk ▸ hreq ▸ h.named y hy i (huses i hi)
  · rcases hls x hx with ⟨y, hy, hreq, huses⟩
    rcases hls x' hx' with ⟨y', hy', hreq', huses'⟩
    rw [hreq, hreq']
    exact h.shared y hy y' hy' i (huses i hi) (huses' i hi')

theorem Archives.call (h : Archives S R s ls) {r : InstallRequest} (hr : R r) :
    Archives S R s (.new r :: ls) := by
  have hnone : ∀ i, ¬ (Installation.new r).uses i := by
    rintro i (⟨_, h⟩ | ⟨_, h⟩) <;> cases h
  refine ⟨List.forall_mem_cons.mpr ⟨hr, h.requests⟩, h.plain,
    List.forall_mem_cons.mpr ⟨fun i hi => absurd hi (hnone i), h.known⟩,
    List.forall_mem_cons.mpr ⟨fun i hi => absurd hi (hnone i), h.named⟩, ?_⟩
  intro x hx x' hx' i hi hi'
  rcases List.mem_cons.mp hx with rfl | hx
  · exact absurd hi (hnone i)
  · rcases List.mem_cons.mp hx' with rfl | hx'
    · exact absurd hi' (hnone i)
    · exact h.shared x hx x' hx' i hi hi'

/-- Open files stay archives. -/
theorem Archives.perform {β : Type} {op : InstallOp β} {b : β} {c : InstallChoice}
    (hapart : ArchivesApart S R) (h : Archives S R s (l :: ls)) (hA : Conduct S β op l)
    (hr : op.respond S (s, l) c = some (b, s', l')) : Archives S R s' (l' :: ls) := by
  have hreq := (request_kept hr).1
  have hl := h.requests l (List.mem_cons_self ..)
  have htouches := touches_of_respond hA hr
  -- An open file was open before, or is the archive of this call.
  have hcases : ∀ x ∈ l' :: ls, ∀ i, x.uses i → ∃ y ∈ l :: ls, y.request = x.request ∧
      (y.uses i ∨ s'.disk.node (S.archiveAt x.request) = some (.file i)) := by
    intro x hx i hi
    rcases List.mem_cons.mp hx with rfl | hx
    · refine ⟨l, List.mem_cons_self .., hreq.symm, ?_⟩
      rw [hreq]
      exact uses_perform hA hr (h.plain _ hl) hi
    · exact ⟨x, List.mem_cons_of_mem _ hx, rfl, .inl hi⟩
  have hnamed : ∀ x ∈ l' :: ls, ∀ i, x.uses i → ∀ p, s'.disk.node p = some (.file i) →
      p = S.archiveAt x.request := by
    intro x hx i hi p hp
    rcases hcases x hx i hi with ⟨y, hy, hyx, hold | hnew⟩
    · rw [← hyx]
      exact htouches.named hapart hl hA.2.1 (h.requests y hy) (h.known y hy i hold)
        (h.named y hy i hold) hp
    · exact s'.disk.single _ _ i hp hnew
  refine ⟨List.forall_mem_cons.mpr ⟨hreq ▸ hl, fun x hx => h.requests x (List.mem_cons_of_mem _ hx)⟩,
    fun r hr => htouches.plain hapart hl hA.2.1 hr h.plain, ?_, hnamed, ?_⟩
  · intro x hx i hi
    rcases hcases x hx i hi with ⟨y, hy, _, hold | hnew⟩
    · exact Nat.lt_of_lt_of_le (h.known y hy i hold) htouches.fresh_le
    · exact s'.disk.bounded _ i hnew
  · intro x hx x' hx' i hi hi'
    rcases hcases x hx i hi with ⟨y, hy, hyx, hold | hnew⟩
    · rcases hcases x' hx' i hi' with ⟨y', hy', hyx', hold' | hnew'⟩
      · rw [← hyx, ← hyx']
        exact h.shared y hy y' hy' i hold hold'
      · exact (hnamed x hx i hi _ hnew').symm
    · exact hnamed x' hx' i hi' _ hnew

theorem uses_leaves {β : Type} {op : InstallOp β} {o : Installation} (ho : o ∈ l.leaves op) :
    o.request = l.request ∧ (∀ i, o.uses i → l.uses i) ∧ o.phase = l.phase ∧
      ∃ job, op.job l = some job ∧ o.task = some job ∧ o.ended = l.ended := by
  rw [Installation.leaves] at ho
  split at ho
  · cases ho
  · rename_i job hjob
    rw [List.mem_singleton] at ho
    subst ho
    exact ⟨rfl, fun _ h => h, rfl, job, hjob, rfl, rfl⟩

theorem Archives.close (h : Archives S R s (l :: ls))
    (result : Option (Except Error ResolvedRuntime)) :
    Archives S R s (l.close result :: ls) := by
  refine h.same rfl fun x hx => ?_
  rcases List.mem_cons.mp hx with rfl | hx
  · exact ⟨l, List.mem_cons_self .., rfl, fun _ h => h⟩
  · exact ⟨x, List.mem_cons_of_mem _ hx, rfl, fun _ h => h⟩

theorem Archives.drop {β : Type} {op : InstallOp β} (h : Archives S R s (l :: ls)) :
    Archives S R s (l.leaves op ++ l.close none :: ls) := by
  refine h.same rfl fun x hx => ?_
  rcases List.mem_append.mp hx with hx | hx
  · rcases uses_leaves hx with ⟨hreq, huses, _⟩
    exact ⟨l, List.mem_cons_self .., hreq, huses⟩
  · rcases List.mem_cons.mp hx with rfl | hx
    · exact ⟨l, List.mem_cons_self .., rfl, fun _ h => h⟩
    · exact ⟨x, List.mem_cons_of_mem _ hx, rfl, fun _ h => h⟩

theorem Archives.release (h : Archives S R s (l :: ls))
    (hr : Installation.release (s, l) = some (s', l')) : Archives S R s' (l' :: ls) := by
  rcases of_release hr with ⟨p, _, _, rfl, rfl⟩
  refine h.same rfl fun x hx => ?_
  rcases List.mem_cons.mp hx with rfl | hx
  · exact ⟨l, List.mem_cons_self .., rfl, fun _ h => h⟩
  · exact ⟨x, List.mem_cons_of_mem _ hx, rfl, fun _ h => h⟩

end Open

/-! ## Order -/

/-- Nothing is downloaded after something was unpacked, and nothing is unpacked before an
    archive was made. -/
def InstallOp.Orderly {β : Type} (op : InstallOp β) (l : Installation) : Prop :=
  match op with
  | .inl (.createFile _) => l.task = none → l.unpacked = none
  | .inl (.write _) => l.task = none → l.unpacked = none
  | .inl (.openArchive _) => l.task = none → l.archived = true
  | _ => True

/-- It has been answered, if it had the lock. -/
def Installation.Asked (l : Installation) : Prop :=
  l.phase = .early ∨ l.answer ≠ none

namespace InstallOp

/-- The effects before the lock. -/
def Opening {β : Type} (op : InstallOp β) : Prop :=
  match op with
  | .inl (.lockExclusive _) => False
  | .inl (.openArchive _) => False
  | .inl .readArchive => False
  | .inl (.createFile _) => False
  | .inl (.write _) => False
  | .inr (.layout _) => False
  | .inr (.rename _ _) => False
  | _ => True

/-- Reading is not part of a download. -/
def Downloads {β : Type} (op : InstallOp β) : Prop :=
  match op with
  | .inl (.openArchive _) => False
  | .inl .readArchive => False
  | _ => True

/-- Making the archive is not part of unpacking it. -/
def Settles {β : Type} (op : InstallOp β) : Prop :=
  match op with
  | .inl (.createFile _) => False
  | .inl (.write _) => False
  | _ => True

end InstallOp

section Order

variable {S : Site} {r : InstallRequest} {l l' : Installation} {α β : Type}

theorem uses_onThread {P : ∀ β, InstallOp β → Prop} {job : BlockingJob} {work : Prog InstallOp α}
    (hbegin : P _ (.inl (.begin job))) (hfinish : P _ (.inl .finish)) (hwork : work.Uses P) :
    (Install.onThread job work).Uses P :=
  Prog.uses_bind ((Prog.uses_op _).mpr hbegin) fun _ =>
    Prog.uses_bind hwork fun _ => Prog.uses_bind ((Prog.uses_op _).mpr hfinish) fun _ => trivial

theorem uses_blocking {P : ∀ β, InstallOp β → Prop} {language : Language} {job : BlockingJob}
    {work : Prog InstallOp (Except Error α)} (hbegin : P _ (.inl (.begin job)))
    (hfinish : P _ (.inl .finish)) (hwork : work.Uses P) :
    (Install.blocking language job work).Uses P := by
  refine Prog.uses_bind ((Prog.uses_op _).mpr hbegin) fun _ => Prog.uses_bind hwork fun _ =>
    Prog.uses_bind ((Prog.uses_op _).mpr hfinish) fun panic => ?_
  cases panic <;> trivial

theorem uses_createParent {P : ∀ β, InstallOp β → Prop} (path : PathBuf)
    (hbegin : P _ (.inl (.begin .createDirs))) (hfinish : P _ (.inl .finish))
    (hmake : ∀ path, P _ (.inr (.createDirAll path))) :
    (Install.createParent path).run.Uses P := by
  rw [Install.createParent]
  split
  · refine Prog.uses_bind (uses_onThread hbegin hfinish ((Prog.uses_op _).mpr (hmake _))) fun b => ?_
    cases b <;> trivial
  · trivial

theorem opening_createDirs (path : PathBuf) :
    (Install.createDirs path).run.Uses fun _ => InstallOp.Opening := by
  refine Prog.uses_bind (uses_onThread trivial trivial ((Prog.uses_op _).mpr trivial)) fun b => ?_
  cases b <;> trivial

/-! ### The download -/

theorem downloads_writeAll (rounds : Nat) : ∀ buffer,
    (Install.writeAll rounds buffer).Uses fun _ => InstallOp.Downloads := by
  induction rounds with
  | zero =>
      intro buffer
      cases buffer <;> trivial
  | succ rounds ih =>
      intro buffer
      cases buffer with
      | nil => trivial
      | cons byte rest =>
          refine Prog.uses_bind ((Prog.uses_op _).mpr trivial) fun b => ?_
          cases b with
          | error reason => trivial
          | ok n =>
              cases n with
              | zero => trivial
              | succ n => exact ih _

theorem downloads_writeChunks (language : Language) (rounds : Nat) : ∀ hashed,
    (Install.writeChunks language rounds hashed).Uses fun _ => InstallOp.Downloads := by
  induction rounds with
  | zero => exact fun _ => trivial
  | succ rounds ih =>
      intro hashed
      refine Prog.uses_bind ((Prog.uses_op _).mpr trivial) fun b => ?_
      cases b with
      | error e => trivial
      | ok chunk =>
          cases chunk with
          | none => trivial
          | some bytes =>
              refine Prog.uses_bind (uses_onThread trivial trivial (downloads_writeAll _ _))
                fun b => ?_
              cases b with
              | error reason => trivial
              | ok u => exact ih _

theorem downloads_writeBody (r : InstallRequest) :
    (Install.writeBody r).Uses fun _ => InstallOp.Downloads := by
  refine Prog.uses_bind (downloads_writeChunks _ _ _) fun b => ?_
  cases b with
  | error e => trivial
  | ok hashed =>
      refine Prog.uses_bind ((Prog.uses_op _).mpr trivial) fun b => ?_
      cases b <;> trivial

theorem downloads_removePartial (target : PathBuf) :
    (Install.removePartial target).Uses fun _ => InstallOp.Downloads :=
  Prog.uses_bind (uses_onThread trivial trivial ((Prog.uses_op _).mpr trivial)) fun _ => trivial

/-! ### What was downloaded -/

theorem settles_embed (p : Prog StoreOp α) :
    (p.embed fun _ op => (.inr op : InstallOp _)).Uses fun _ => InstallOp.Settles := by
  induction p with
  | done a => trivial
  | perform e k ih => exact ⟨trivial, ih⟩

theorem settles_unpack (rounds : Nat) (archive staging : PathBuf) (format : ArchiveFormat) :
    (Install.unpack S rounds archive staging format).Uses fun _ => InstallOp.Settles := by
  have hunpacks : ∀ β (op : InstallOp β), op.Unpacks staging → op.Settles := by
    intro β op h
    cases op with
    | inr op => exact h.elim
    | inl op => cases op <;> trivial
  refine Prog.uses_bind ((Prog.uses_op _).mpr trivial) fun b => ?_
  cases b with
  | error reason => trivial
  | ok u =>
      refine Prog.uses_bind (Prog.uses_mono hunpacks (unpacks_readAll rounds [])) fun b => ?_
      cases b with
      | error reason => trivial
      | ok bytes =>
          dsimp only
          split
          · trivial
          · exact Prog.uses_mono hunpacks (unpacks_unpackAll _)

theorem settles_extract (archive staging : PathBuf) (format : ArchiveFormat) :
    (Install.extract S r archive staging format).Uses fun _ => InstallOp.Settles := by
  refine uses_blocking trivial trivial (Prog.uses_bind ((Prog.uses_op _).mpr trivial) fun b => ?_)
  cases b with
  | error reason => trivial
  | ok u =>
      refine Prog.uses_bind (settles_unpack _ _ _ _) fun b => ?_
      cases b with
      | error reason => trivial
      | ok u =>
          refine Prog.uses_bind (Prog.uses_bind ((Prog.uses_op _).mpr trivial) fun b => ?_)
            fun b => ?_
          · cases b with
            | error reason => trivial
            | ok entries =>
                dsimp only
                split <;> trivial
          · cases b <;> trivial

theorem settles_unpackAndPromote (distribution : Distribution) (archivePath installDir : PathBuf) :
    (Install.unpackAndPromote S r distribution archivePath installDir).run.Uses
      fun _ => InstallOp.Settles := by
  have hdiscard : ∀ path, (Install.discard r.rounds path).Uses fun _ => InstallOp.Settles :=
    fun _ => Prog.uses_bind (uses_onThread trivial trivial (settles_embed _)) fun _ => trivial
  have hremove : (Install.removeArchive archivePath).Uses fun _ => InstallOp.Settles :=
    Prog.uses_bind (uses_onThread trivial trivial ((Prog.uses_op _).mpr trivial)) fun _ => trivial
  refine Prog.uses_bind ((Prog.uses_op _).mpr trivial) fun staging => ?_
  refine Prog.uses_bind (hdiscard _) fun _ => Prog.uses_bind (settles_extract _ _ _) fun b => ?_
  cases b with
  | error e =>
      exact Prog.uses_bind (hdiscard _) fun _ => Prog.uses_bind hremove fun _ => trivial
  | ok unpacked =>
      refine Prog.uses_bind (uses_blocking trivial trivial (settles_embed _)) fun _ => ?_
      exact Prog.uses_bind (hdiscard _) fun _ => Prog.uses_bind hremove fun _ => trivial

/-! ### The whole install -/

section Kept

variable {s s' : Installing} {c : InstallChoice} {op : InstallOp β} {b : β}
  (hr : op.respond S (s, l) c = some (b, s', l'))

include hr

theorem unpacked_kept (hop : op.Downloads) : l'.unpacked = l.unpacked := by
  cases op with
  | inl op =>
      have ha := answers_of_inl hr
      cases op <;> simp only [RunOp.Answers] at ha <;> grind [InstallOp.Downloads]
  | inr op =>
      rcases answers_of_inr hr with ⟨_, _, _, _, _, rfl⟩
      cases op <;> rfl

theorem phase_kept (hop : op.Opening) : l'.phase = l.phase := by
  cases op with
  | inl op =>
      have ha := answers_of_inl hr
      cases op <;> simp only [RunOp.Answers] at ha <;> grind [InstallOp.Opening]
  | inr op =>
      rcases answers_of_inr hr with ⟨_, _, _, _, _, rfl⟩
      cases op <;> first | rfl | exact hop.elim

theorem archived_kept (h : l.archived = true) : l'.archived = true := by
  cases op with
  | inl op =>
      have ha := answers_of_inl hr
      cases op <;> simp only [RunOp.Answers] at ha <;> grind
  | inr op =>
      rcases answers_of_inr hr with ⟨_, _, _, _, _, rfl⟩
      cases op <;> exact h

theorem answered_kept (h : l.answer ≠ none) : l'.answer ≠ none := by
  cases op with
  | inl op =>
      have ha := answers_of_inl hr
      cases op <;> simp only [RunOp.Answers] at ha <;> grind
  | inr op =>
      rcases answers_of_inr hr with ⟨_, _, _, _, _, rfl⟩
      cases op <;> first | exact h | exact Option.some_ne_none _

end Kept

/-- A part of the program whose effects keep something. -/
theorem wp_stage {P : ∀ β, InstallOp β → Prop} {C : Installation → Prop} {p : Prog InstallOp α}
    {Q : α → Installation → Prop} (hp : p.Uses P)
    (hkeep : ∀ {β} (op : InstallOp β) s l c b s' l', P β op → C l →
      op.respond S (s, l) c = some (b, s', l') → C l')
    (horder : ∀ {β} (op : InstallOp β) l, P β op → C l → op.Orderly l) (hC : C l)
    (hQ : ∀ a l', C l' → Q a l') :
    p.wp (installs S).localised (fun _ op l => op.Orderly l) Q l := by
  have hkept := Prog.wp_uses (H := (installs S).localised) C (P := P) ?_ p l hp hC
  · refine Prog.wp_mono _ hQ _ (Prog.wp_weaken _ ?_ _ (Prog.wp_and_uses p l hkept hp))
    exact fun β op l h => horder op l h.2 h.1
  · rintro β op l ⟨s, c⟩ b l' hop hC hr
    rcases Option.map_eq_some_iff.mp hr with ⟨⟨b', s', l''⟩, hrespond, heq⟩
    cases heq
    exact hkeep op s l c _ _ _ hop hC hrespond

/-- One effect, whatever it is. -/
theorem wp_effect {op : InstallOp β} {Q : β → Installation → Prop} (horder : op.Orderly l)
    (hQ : ∀ s c b s' l', op.respond S (s, l) c = some (b, s', l') → Q b l') :
    (Prog.op op).wp (installs S).localised (fun _ op l => op.Orderly l) Q l := by
  refine ⟨horder, ?_⟩
  rintro ⟨s, c⟩ b l' hr
  rcases Option.map_eq_some_iff.mp hr with ⟨⟨b', s', l''⟩, hrespond, heq⟩
  cases heq
  exact hQ s c _ s' _ hrespond

/-- Without its lock, a call has asked nothing and unpacked nothing. -/
def Installation.Waits (l : Installation) : Prop :=
  l.phase = .early ∧ l.unpacked = none

theorem waits_kept {s s' : Installing} {c : InstallChoice} {op : InstallOp β} {b : β}
    (hop : op.Opening) (h : l.Waits) (hr : op.respond S (s, l) c = some (b, s', l')) : l'.Waits := by
  have hdownloads : op.Downloads := by
    cases op with
    | inr op => trivial
    | inl op => cases op <;> trivial
  exact ⟨(phase_kept hr hop).trans h.1, (unpacked_kept hr hdownloads).trans h.2⟩

theorem orderly_opening {op : InstallOp β} (hop : op.Opening) : op.Orderly l := by
  cases op with
  | inr op => trivial
  | inl op => cases op <;> trivial

theorem wp_opening {p : Prog InstallOp α} {Q : α → Installation → Prop}
    (hp : p.Uses fun _ => InstallOp.Opening) (h : l.Waits) (hQ : ∀ a l', l'.Waits → Q a l') :
    p.wp (installs S).localised (fun _ op l => op.Orderly l) Q l :=
  wp_stage hp (fun _ _ _ _ _ _ _ hop h hr => waits_kept hop h hr)
    (fun _ _ hop _ => orderly_opening hop) h hQ

/-- Waiting for the lock cannot panic, so the call knows whether it has it. -/
theorem lockJob_orderly {language : Language} {work : Prog InstallOp (Except Error α)}
    {Q : Except Error α → Installation → Prop}
    (hwork : work.wp (installs S).localised (fun _ op l => op.Orderly l)
      (fun result l' => l'.working = some .takeLock ∧
        Q result { l' with working := none, reading := none })
      { l with working := some .takeLock }) :
    (Install.blocking language .takeLock work).wp (installs S).localised
      (fun _ op l => op.Orderly l) Q l := by
  rw [Install.blocking, Prog.wp_bind]
  refine wp_effect trivial fun s c _ s' l₁ hr => ?_
  rcases answers_of_inl hr with ⟨_, _, rfl⟩
  rw [Prog.wp_bind]
  refine Prog.wp_mono _ ?_ _ hwork
  rintro result l₂ ⟨hw, hQ⟩
  rw [Prog.wp_bind]
  refine wp_effect trivial fun s c panic s' l₃ hr => ?_
  simp only [InstallOp.respond, RunOp.respond, hw] at hr
  split at hr <;> cases hr
  · exact hQ
  · cases ‹some BlockingJob.takeLock = _›

/-- The lock is taken, or the call has failed without it. -/
theorem acquire_orderly {Q : Except Error Unit → Installation → Prop} (h : l.Waits)
    (herror : ∀ e l', l'.phase = .early → Q (.error e) l')
    (hok : ∀ l', l'.unpacked = none → Q (.ok ()) l') (language : Language) (installDir : PathBuf) :
    (Install.acquire language installDir).run.wp (installs S).localised
      (fun _ op l => op.Orderly l) Q l := by
  rw [Install.acquire, Prog.wp_run_bind]
  refine wp_opening (uses_createParent _ trivial trivial fun _ => trivial) h fun made l₁ h₁ => ?_
  cases made with
  | error e => exact herror e l₁ h₁.1
  | ok u =>
      dsimp only
      rw [Prog.wp_run_mk]
      refine lockJob_orderly ?_
      rw [Install.takeLock, Prog.wp_bind]
      refine wp_effect trivial fun s c opened s' l₂ hr => ?_
      rcases answers_of_inl hr with ⟨rfl, _⟩
      cases opened with
      | error reason => exact ⟨rfl, herror _ _ h₁.1⟩
      | ok u =>
          dsimp only
          rw [Prog.wp_bind]
          refine wp_effect trivial fun s c taken s' l₃ hr => ?_
          rcases answers_of_inl hr with ⟨rfl, _, _, rfl⟩ | ⟨⟨reason, rfl⟩, _, rfl⟩
          · exact ⟨rfl, hok _ h₁.2⟩
          · exact ⟨rfl, herror _ _ h₁.1⟩

/-- What the call has been answered. -/
theorem layout_orderly {path : PathBuf} {Q : Except Error (Option RuntimeLayout) → Installation → Prop}
    (hQ : ∀ answer l', l'.answer ≠ none → l'.unpacked = l.unpacked → Q answer l') :
    (attempt (.inr (.layout path)) : ExceptT Error (Prog InstallOp) (Option RuntimeLayout)).run.wp
      (installs S).localised (fun _ op l => op.Orderly l) Q l := by
  rw [Prog.wp_attempt]
  refine wp_effect trivial fun s c answer s' l' hr => ?_
  rcases answers_of_inr hr with ⟨_, _, _, _, _, rfl⟩
  exact hQ _ _ (Option.some_ne_none _) rfl

/-- What a call that was declined has. -/
def Installation.Declined (l : Installation) : Prop :=
  l.answer ≠ none ∧ l.unpacked = none

theorem declined_kept {s s' : Installing} {c : InstallChoice} {op : InstallOp β} {b : β}
    (hop : op.Downloads) (h : l.Declined) (hr : op.respond S (s, l) c = some (b, s', l')) :
    l'.Declined :=
  ⟨answered_kept hr h.1, (unpacked_kept hr hop).trans h.2⟩

theorem orderly_declined {op : InstallOp β} (hop : op.Downloads) (h : l.Declined) :
    op.Orderly l := by
  cases op with
  | inr op => trivial
  | inl op => cases op <;> first | trivial | exact fun _ => h.2

theorem wp_downloading {p : Prog InstallOp α} {Q : α → Installation → Prop}
    (hp : p.Uses fun _ => InstallOp.Downloads) (h : l.Declined)
    (hQ : ∀ a l', l'.Declined → Q a l') :
    p.wp (installs S).localised (fun _ op l => op.Orderly l) Q l :=
  wp_stage hp (fun _ _ _ _ _ _ _ hop h hr => declined_kept hop h hr)
    (fun _ _ hop h => orderly_declined hop h) h hQ

/-- The same with the archive made. -/
theorem wp_archived {p : Prog InstallOp α} {Q : α → Installation → Prop}
    (hp : p.Uses fun _ => InstallOp.Downloads) (h : l.Declined) (harchived : l.archived = true)
    (hQ : ∀ a l', l'.Declined → l'.archived = true → Q a l') :
    p.wp (installs S).localised (fun _ op l => op.Orderly l) Q l :=
  wp_stage (C := fun l => l.Declined ∧ l.archived = true) hp
    (fun _ _ _ _ _ _ _ hop h hr => ⟨declined_kept hop h.1 hr, archived_kept hr h.2⟩)
    (fun _ _ hop h => orderly_declined hop h.1) ⟨h, harchived⟩ fun a l' h => hQ a l' h.1 h.2

/-- A download that succeeds has made its archive. -/
theorem streamToFile_orderly {distribution : Distribution} {target : PathBuf} (h : l.Declined)
    {Q : Except Error String → Installation → Prop}
    (herror : ∀ e l', l'.Declined → Q (.error e) l')
    (hok : ∀ digest l', l'.Declined → l'.archived = true → Q (.ok digest) l') :
    (Install.streamToFile S r distribution target).wp (installs S).localised
      (fun _ op l => op.Orderly l) Q l := by
  rw [Install.streamToFile, Prog.wp_bind]
  refine wp_downloading ((Prog.uses_op _).mpr trivial) h fun sent l₁ h₁ => ?_
  cases sent with
  | error e => exact herror _ l₁ h₁
  | ok u =>
      dsimp only
      rw [Prog.wp_bind, Install.onThread, Prog.wp_bind]
      refine wp_downloading ((Prog.uses_op _).mpr trivial) h₁ fun _ l₂ h₂ => ?_
      rw [Prog.wp_bind]
      refine wp_effect (fun _ => h₂.2) fun s c created s' l₃ hr => ?_
      have hdownloads : InstallOp.Downloads (.inl (.createFile target)) := trivial
      have h₃ := declined_kept hdownloads h₂ hr
      rw [Prog.wp_bind]
      rcases answers_of_inl hr with ⟨rfl, _, _, hl₃⟩ | ⟨⟨reason, rfl⟩, _, rfl⟩
      · have harchived : l₃.archived = true := by rw [hl₃]
        refine wp_archived ((Prog.uses_op _).mpr trivial) h₃ harchived fun _ l₄ h₄ ha₄ => ?_
        rw [Prog.wp_pure]
        dsimp only
        rw [Prog.wp_bind]
        refine wp_archived (downloads_writeBody r) h₄ ha₄ fun body l₅ h₅ ha₅ => ?_
        rw [Prog.wp_bind]
        refine wp_archived ((Prog.uses_op _).mpr trivial) h₅ ha₅ fun _ l₆ h₆ ha₆ => ?_
        cases body with
        | error e => exact herror _ l₆ h₆
        | ok hashed => exact hok _ l₆ h₆ ha₆
      · refine wp_downloading ((Prog.uses_op _).mpr trivial) h₃ fun _ l₄ h₄ => ?_
        exact herror _ l₄ h₄

theorem fetch_orderly {distribution : Distribution} {target : PathBuf} (h : l.Declined)
    {Q : Except Error Unit → Installation → Prop}
    (herror : ∀ e l', l'.Declined → Q (.error e) l')
    (hok : ∀ l', l'.Declined → l'.archived = true → Q (.ok ()) l') :
    (Install.fetch S r distribution target).run.wp (installs S).localised
      (fun _ op l => op.Orderly l) Q l := by
  rw [Install.fetch, Prog.wp_run_bind]
  refine wp_downloading (uses_createParent _ trivial trivial fun _ => trivial) h
    fun made l₁ h₁ => ?_
  cases made with
  | error e => exact herror e l₁ h₁
  | ok u =>
      dsimp only
      rw [Prog.wp_run_mk, Prog.wp_bind]
      refine streamToFile_orderly h₁ (fun e l₂ h₂ => ?_) fun digest l₂ h₂ ha₂ => ?_
      · dsimp only
        rw [Prog.wp_bind]
        exact wp_downloading (downloads_removePartial target) h₂ fun _ l₃ h₃ => herror _ l₃ h₃
      · dsimp only
        split
        · exact hok l₂ h₂ ha₂
        · rw [Prog.wp_bind]
          exact wp_downloading (downloads_removePartial target) h₂ fun _ l₃ h₃ => herror _ l₃ h₃

theorem wp_settling {p : Prog InstallOp α} {Q : α → Installation → Prop}
    (hp : p.Uses fun _ => InstallOp.Settles) (hanswer : l.answer ≠ none)
    (harchived : l.archived = true) (hQ : ∀ a l', l'.answer ≠ none → Q a l') :
    p.wp (installs S).localised (fun _ op l => op.Orderly l) Q l := by
  refine wp_stage (C := fun l => l.answer ≠ none ∧ l.archived = true) hp
    (fun op s l c b s' l' _ h hr => ⟨answered_kept hr h.1, archived_kept hr h.2⟩) ?_
    ⟨hanswer, harchived⟩ fun a l' h => hQ a l' h.1
  intro β op l hop h
  cases op with
  | inr op => trivial
  | inl op => cases op <;> first | trivial | exact fun _ => h.2

/-- A call downloads first and unpacks then, and it does not return without having asked the
    provider, if it took its lock. -/
theorem install_orderly (S : Site) (r : InstallRequest) :
    (Install.run S r).run.wp (installs S).localised (fun _ op l => op.Orderly l)
      (fun _ l => l.Asked) (.new r) := by
  have hnew : (Installation.new r).Waits := ⟨rfl, rfl⟩
  rw [Install.run, Prog.wp_run_bind]
  refine wp_opening ((Prog.uses_op _).mpr trivial) hnew fun selected l₁ h₁ => ?_
  cases selected with
  | error e => exact .inl h₁.1
  | ok distribution =>
      dsimp only
      rw [Prog.wp_run_bind]
      refine wp_opening (opening_createDirs _) h₁ fun made l₂ h₂ => ?_
      cases made with
      | error e => exact .inl h₂.1
      | ok u =>
          dsimp only
          rw [Prog.wp_run_bind]
          refine acquire_orderly h₂ (fun e l' hphase => .inl hphase) (fun l₃ h₃ => ?_) _ _
          dsimp only
          rw [Prog.wp_run_bind]
          refine layout_orderly fun found l₄ h₄ hunpacked => ?_
          cases found with
          | error e => exact .inr h₄
          | ok found =>
              cases found with
              | some layout => exact .inr h₄
              | none =>
                  dsimp only
                  rw [Prog.wp_run_bind]
                  refine fetch_orderly ⟨h₄, hunpacked.trans h₃⟩ (fun e l' h' => .inr h'.1)
                    fun l₅ h₅ harchived => ?_
                  dsimp only
                  rw [Prog.wp_run_bind]
                  refine wp_settling (settles_unpackAndPromote _ _ _) h₅.1 harchived
                    fun promoted l₆ h₆ => ?_
                  cases promoted with
                  | error e => exact .inr h₆
                  | ok u =>
                      dsimp only
                      rw [Prog.wp_run_bind]
                      refine layout_orderly fun found l₇ h₇ _ => ?_
                      cases found with
                      | error e => exact .inr h₇
                      | ok found => cases found <;> exact .inr h₇

/-- What is left of a dropped call is not its call any more. -/
theorem orphan_orderly {p : Prog InstallOp (Except Error ResolvedRuntime)} :
    ∀ o ∈ Installation.orphans p l, o.1.wp (installs S).localised
      (fun _ op l => op.Orderly l) (fun _ l => l.task ≠ none) o.2 := by
  intro o ho
  cases p with
  | done result => cases ho
  | perform op k =>
      simp only [Installation.orphans] at ho
      split at ho
      · cases ho
      · rename_i job _
        rw [List.mem_singleton] at ho
        subst ho
        refine wp_stage (C := fun l => l.task ≠ none) (Prog.uses_true _)
          (fun op s l c b s' l' _ h hr => (request_kept hr).2.1 ▸ h) (fun op l _ h => ?_)
          (Option.some_ne_none _) fun _ _ h => h
        cases op with
        | inr op => trivial
        | inl op => cases op <;> first | trivial | exact fun ht => absurd ht h

/-- No effect ends the call. -/
theorem running_kept (p : Prog InstallOp α) (h : l.ended = false) :
    p.wp (installs S).localised (Prog.always fun l => l.ended = false)
      (fun _ l => l.ended = false) l := by
  refine Prog.wp_uses _ ?_ p l (Prog.uses_true p) h
  rintro β op l ⟨s, c⟩ b l' _ hended hr
  rcases Option.map_eq_some_iff.mp hr with ⟨⟨b', s', l''⟩, hrespond, heq⟩
  cases heq
  exact (request_kept hrespond).2.2.trans hended

end Order

/-! ## Joint invariants -/

/-- What a call asserts at each effect, and what it has returned. -/
def Tended (S : Site) (p : Prog InstallOp (Except Error ResolvedRuntime)) (l : Installation) :
    Prop :=
  p.wp (installs S).localised (fun β op l => Conduct S β op l ∧ op.Orderly l)
    (fun result l => l.ended = false ∧ (l.task = none → l.Told S result ∧ l.Asked)) l

/-- It is enough that it asserts both, and returns what it should. -/
theorem tended_of {S : Site} {p : Prog InstallOp (Except Error ResolvedRuntime)} {l : Installation}
    {Q Q' : Except Error ResolvedRuntime → Installation → Prop}
    (hconduct : p.wp (installs S).localised (Conduct S) Q l)
    (horderly : p.wp (installs S).localised (fun _ op l => op.Orderly l) Q' l)
    (hended : l.ended = false)
    (hQ : ∀ result l, Q result l → Q' result l → l.task = none → l.Told S result ∧ l.Asked) :
    Tended S p l := by
  have hboth := Prog.wp_and p l (Prog.wp_and p l hconduct horderly) (running_kept p hended)
  refine Prog.wp_mono _ ?_ _ (Prog.wp_weaken _ (fun _ _ _ h => h.1) _ hboth)
  exact fun result l h => ⟨h.2, hQ result l h.1.1 h.1.2⟩

/-- A joint invariant of all installs that may use both. -/
theorem orderly_joint {S : Site}
    {L : Concurrent.Limits InstallOp Installing Installation InstallRequest InstallChoice}
    {J : Installing → List Installation → Prop}
    (hperm : ∀ s ls ls', ls.Perm ls' → J s ls → J s ls')
    (hcall : ∀ s ls r, L.calls s ls r → J s ls → J s (.new r :: ls))
    (hperform : ∀ {β : Type} (op : InstallOp β) s l ls c b s' l', L.performs _ op s l c →
      Conduct S β op l → op.Orderly l → J s (l :: ls) →
      op.respond S (s, l) c = some (b, s', l') → J s' (l' :: ls))
    (hfinish : ∀ result s l ls, J s (l :: ls) → J s (l.close (some result) :: ls))
    (hdrop : ∀ {β : Type} (op : InstallOp β) s l ls, L.drops _ op s l → Conduct S β op l →
      J s (l :: ls) → J s (l.leaves op ++ l.close none :: ls))
    (hrelease : ∀ s l ls s' l', J s (l :: ls) → Installation.release (s, l) = some (s', l') →
      J s' (l' :: ls)) :
    Concurrent.Joint (installs S) L (Tended S) J := by
  refine Concurrent.Joint.of_wp (fun r _ _ _ => ?_) hperm hcall ?_ ?_ ?_ hrelease ?_
  · exact tended_of (install_conduct S r) (install_orderly S r) rfl
      fun _ _ htold hasked _ => ⟨htold, hasked⟩
  · exact fun op s l ls c b s' l' hlim hA hJ hr => hperform op s l ls c b s' l' hlim hA.1 hA.2 hJ hr
  · exact fun result s l ls hQ hJ => hfinish result s l ls hJ
  · intro β op k s l ls _ hlim hwp hJ
    have hleaves : (Installation.orphans (.perform op k) l).map Prod.snd = l.leaves op := by
      simp only [Installation.orphans, Installation.leaves]
      cases InstallOp.job op l with
      | none => rfl
      | some job => rfl
    refine ⟨fun o ho => ?_, ?_⟩
    · have hconduct := Prog.wp_weaken _ (fun _ _ _ h => h.1) _ hwp
      have hmem : o.2 ∈ l.leaves op := hleaves ▸ List.mem_map_of_mem ho
      rcases uses_leaves hmem with ⟨_, _, _, _, _, _, hended⟩
      exact tended_of (orphan_conduct hconduct o ho) (@orphan_orderly S l (.perform op k) o ho)
        (hended.trans hwp.1.1.2.2.1) fun _ _ h _ ht => absurd ht h
    · have hkept := hdrop op s l ls hlim hwp.1.1 hJ
      rw [← hleaves] at hkept
      exact hkept
  · exact fun s ls c s' _ hr => by cases hr

end TinyRuntime
