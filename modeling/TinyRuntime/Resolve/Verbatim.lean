import TinyRuntime.Resolve.Kept

/-!
# The Bytes That Were Verified

What is unpacked is read from the archive again, after its digest was compared while it
was written. In between, other calls move. If calls that share an archive path also share
their lock, and no call is dropped while it makes or writes its archive, then the bytes
that are read are the bytes that were hashed: every tree that is put in place was unpacked
from bytes with the published digest, also by a promotion that goes on without its call.

Two calls for different directories with one archive name do not share their lock, and
then one unpacks what the other downloads.

## Main definitions

* `upright`: Histories without drops in the middle of an archive.
* `LocksApart`: What is asked of the paths.
* `Verbatim`: The archive of a call holds what the call wrote.
* `Installation.Proper`: How a call gets from one to the other.

## Theorems

* `Installation.Touches.data_kept`: What a step of another call leaves alone.
* `Verbatim.frame`, `Verbatim.perform`: The archive after a step of another call, and of its own.
* `verified_bytes`: What is promoted was verified.
* `bytes_swapped`: With two locks for one archive it need not be.
-/

namespace TinyRuntime

/-! ## Histories -/

/-- No call is dropped while a closure makes or writes its archive. -/
def upright (R : InstallRequest → Prop) :
    Concurrent.Limits InstallOp Installing Installation InstallRequest InstallChoice where
  calls _ _ r := R r
  drops _ op _ l := op.job l ≠ some .createArchive ∧ op.job l ≠ some .write
  performs _ _ _ _ _ := True

/-- No lock file is an archive, and calls with one archive have one lock. -/
structure LocksApart (S : Site) (R : InstallRequest → Prop) : Prop where
  apart : ∀ r r', R r → R r' → S.lockAt r ≠ S.archiveAt r'
  shared : ∀ r r', R r → R r' → S.archiveAt r = S.archiveAt r' → S.lockAt r = S.lockAt r'

/-! ## Steps of other calls -/

section Frame

variable {S : Site} {R : InstallRequest → Prop} {l : Installation} {d d' : Disk String}
  {r : InstallRequest} {i : Nat}

/-- It makes or writes the archive. -/
def Installation.Rivals (S : Site) (l : Installation) (r : InstallRequest) : Prop :=
  (l.working = some .createArchive ∨ l.working = some .write) ∧
    (l.task = none → l.phase = .declined) ∧ S.archiveAt l.request = S.archiveAt r

variable (hapart : ArchivesApart S R) (hrequest : R l.request) (hstages : l.Stages S) (hr : R r)
  (hplain : ∀ target, d.node (S.archiveAt l.request) ≠ some (.link target))
  (hrival : ¬ l.Rivals S r) (h : l.Touches S d d')

include hapart hrequest hstages hr hplain hrival h

/-- A file at the archive path was there before. -/
theorem Installation.Touches.named_back (hlock : S.lockAt l.request ≠ S.archiveAt r)
    (hnode : d'.node (S.archiveAt r) = some (.file i)) :
    d.node (S.archiveAt r) = some (.file i) := by
  have hdirs : ∀ q, (d.makeDirs q).node (S.archiveAt r) = some (.file i) →
      d.node (S.archiveAt r) = some (.file i) := by
    intro q hq
    simp only [Disk.makeDirs] at hq
    split at hq
    · cases hq
    · exact hq
  have hprune : ∀ x, (d.remove x).node (S.archiveAt r) = some (.file i) →
      d.node (S.archiveAt r) = some (.file i) := by
    intro x hx
    simp only [Disk.remove, Disk.prune] at hx
    split at hx
    · cases hx
    · exact hx
  cases h with
  | same => exact hnode
  | dirs => exact hdirs _ hnode
  | lock =>
      unfold Disk.touch at hnode
      split at hnode
      · rwa [Disk.node_link_ne (Ne.symm hlock)] at hnode
      · exact hnode
  | archive hw hphase =>
      have hne : S.archiveAt r ≠ S.archiveAt l.request := fun heq =>
        hrival ⟨.inl hw, hphase, heq.symm⟩
      rw [follow_plain hplain, Disk.node_create hne] at hnode
      exact hnode
  | written => exact hnode
  | dropped => exact hprune _ hnode
  | unpacked staging name contents hstage =>
      have hne : S.archiveAt r ≠ S.lookup.locate staging ++ name := fun heq =>
        hapart.staging hrequest hstages hr hstage (heq ▸ List.prefix_append _ _)
      cases contents with
      | dir => exact hdirs _ hnode
      | file bytes => exact hdirs _ ((Disk.node_create hne).symm.trans hnode)
      | link target => exact hdirs _ ((if_neg hne).symm.trans hnode)
  | renamed _ _ hpaths =>
      have hnot := hapart.renames hrequest hstages hr hpaths
      rwa [Disk.node_rename_of_not hnot.1 hnot.2] at hnode
  | removed => exact hprune _ hnode

/-- The contents of a file that is only named there stay. -/
theorem Installation.Touches.data_kept (hknown : i < d.fresh)
    (hnamed : ∀ p, d.node p = some (.file i) → p = S.archiveAt r)
    (huses : l.uses i → S.archiveAt l.request = S.archiveAt r) : d'.data i = d.data i := by
  have hcreate : ∀ (d : Disk String) q, i < d.fresh →
      (∀ p, d.node p = some (.file i) → p = S.archiveAt r) → q ≠ S.archiveAt r →
      i ≠ (d.create q).1 := by
    intro d q hknown hnamed hne heq
    unfold Disk.create at heq
    split at heq
    · rename_i j hj
      cases heq
      exact hne (hnamed q hj)
    · exact absurd (heq ▸ hknown) (Nat.lt_irrefl _)
  cases h with
  | same => rfl
  | dirs => rfl
  | lock => exact Disk.data_touch hknown
  | archive hw hphase =>
      refine Disk.data_create_ne (hcreate d _ hknown hnamed fun heq => ?_)
      rw [follow_plain hplain] at heq
      exact hrival ⟨.inl hw, hphase, heq⟩
  | written bytes hw hphase hfile =>
      refine Disk.data_put_ne _ fun heq => ?_
      subst heq
      exact hrival ⟨.inr hw, hphase, huses (.inl ⟨_, hfile⟩)⟩
  | dropped => rfl
  | unpacked staging name contents hstage =>
      cases contents with
      | dir => rfl
      | file bytes =>
          have hne : S.lookup.locate staging ++ name ≠ S.archiveAt r := fun heq =>
            hapart.staging hrequest hstages hr hstage (heq ▸ List.prefix_append _ _)
          have hother : i ≠ ((d.makeDirs (S.lookup.locate staging ++ name).dropLast).create
              (S.lookup.locate staging ++ name)).1 := by
            refine hcreate (d.makeDirs _) _ hknown (fun p hp => ?_) hne
            simp only [Disk.makeDirs] at hp
            split at hp
            · cases hp
            · exact hnamed p hp
          exact (Disk.data_put_ne _ hother).trans (Disk.data_create_ne hother)
      | link target => rfl
  | renamed => rfl
  | removed => rfl

end Frame

/-! ## The archive of one call -/

/-- What was read of a file, as far as the call has read it. -/
def Reads (data : List UInt8) (l : Installation) (offset : Nat) : Prop :=
  data = l.written ∧ l.read <+: l.written ∧ offset = l.read.length

/-- The archive of a call, if it is there, holds what the call wrote, and what it reads of
    it is that. -/
structure Verbatim (S : Site) (d : Disk String) (l : Installation) : Prop where
  whole : ∀ i, d.node (S.archiveAt l.request) = some (.file i) → d.data i = l.written ∧
    ∀ j offset, l.file = some (j, offset) → j = i ∧ offset = l.written.length
  reading : ∀ i offset, l.reading = some (i, offset) → Reads (d.data i) l offset
  unpacked : ∀ bytes, l.unpacked = some bytes → bytes = l.written

/-- What was unpacked has the published digest. -/
def Installation.Good (S : Site) (l : Installation) : Prop :=
  ∃ bytes, l.unpacked = some bytes ∧
    Install.verified l.request.distribution.expectedSha256 (S.sha256 bytes) = true

/-- How a call gets from its archive to its promotion. -/
structure Installation.Proper (S : Site) (l : Installation) : Prop where
  task : l.task ≠ some .createArchive ∧ l.task ≠ some .write
  lock : l.task = none → l.ended = false → l.phase ≠ .early → l.lock = some (S.lockAt l.request)
  archived : l.task = none → l.archived = true → l.phase ≠ .early
  opened : l.task = none → l.reading ≠ none ∨ l.unpacked ≠ none → l.archived = true
  reading : l.ended = false → l.reading ≠ none → l.working = some .extract
  promotes : l.ended = false → l.working = some .promote ∨ l.task = some .promote → l.Good S

/-- A call of its own that has made its archive. -/
def Installation.Armed (l : Installation) : Prop :=
  l.task = none ∧ l.ended = false ∧ l.archived = true

section Step

variable {S : Site} {R : InstallRequest → Prop} {s s' : Installing} {l l' x : Installation}
  {ls : List Installation} {c : InstallChoice} {β : Type} {op : InstallOp β} {b : β}
  {d d' : Disk String}

/-- Two calls with one archive have one lock, so only one of them works on it. -/
theorem not_rivals (hlocks : LocksApart S R) (harchives : Archives S R s (l :: ls))
    (hexclusive : Exclusive s (l :: ls)) (hA : Conduct S β op l) (hl : l.Proper S)
    (hx : x ∈ ls) (hproper : x.Proper S) (harmed : x.Armed) : ¬ l.Rivals S x.request := by
  rintro ⟨hw, hphase, hsame⟩
  have ht : l.task = none := by
    rcases hw with hw | hw
    · exact task_of_working hA hw hl.task.1
    · exact task_of_working hA hw hl.task.2
  have hlock : l.lock = some (S.lockAt l.request) :=
    (hA.2.2.2.1 ht).1 (by rw [hphase ht]; exact fun h => by cases h)
  have hlock' := hproper.lock harmed.1 harmed.2.1 (hproper.archived harmed.1 harmed.2.2)
  have heq := hlocks.shared _ _ (harchives.requests l (List.mem_cons_self ..))
    (harchives.requests x (List.mem_cons_of_mem _ hx)) hsame
  rcases List.mem_iff_getElem?.mp hx with ⟨k, hk⟩
  have hzero := hexclusive.unique (i := 0) (j := k + 1) rfl hk hlock (heq ▸ hlock')
  cases hzero

/-- The archive of a call that did not move. -/
theorem Verbatim.frame (hapart : ArchivesApart S R) (hlocks : LocksApart S R)
    (htouches : l.Touches S d d') (hrequest : R l.request) (hstages : l.Stages S)
    (hplain : ∀ target, d.node (S.archiveAt l.request) ≠ some (.link target))
    (hx : R x.request) (hrival : ¬ l.Rivals S x.request)
    (hnamed : ∀ i, l.uses i → ∀ p, d.node p = some (.file i) → p = S.archiveAt l.request)
    (hknown : ∀ i, x.uses i → i < d.fresh)
    (hnamed' : ∀ i, x.uses i → ∀ p, d.node p = some (.file i) → p = S.archiveAt x.request)
    (hshared : ∀ i, l.uses i → x.uses i → S.archiveAt l.request = S.archiveAt x.request)
    (h : Verbatim S d x) : Verbatim S d' x := by
  refine ⟨fun i hnode => ?_, fun i offset hreading => ?_, h.unpacked⟩
  · have hold := htouches.named_back hapart hrequest hstages hx hplain hrival
      (hlocks.apart _ _ hrequest hx) hnode
    rw [htouches.data_kept hapart hrequest hstages hx hplain hrival (d.bounded _ i hold)
      (fun p hp => d.single _ _ i hp hold) fun huses => (hnamed i huses _ hold).symm]
    exact h.whole i hold
  · have huses : x.uses i := .inr ⟨offset, hreading⟩
    rw [Reads, htouches.data_kept hapart hrequest hstages hx hplain hrival (hknown i huses)
      (hnamed' i huses) fun hl => hshared i hl huses]
    exact h.reading i offset hreading

/-- What a call knows of its archive. -/
def Installation.carried (l : Installation) :=
  (l.request, l.file, l.reading, l.read, l.written, l.unpacked)

theorem Verbatim.congr (h : Verbatim S d l) (heq : l'.carried = l.carried) : Verbatim S d l' := by
  simp only [Installation.carried, Prod.mk.injEq] at heq
  rcases heq with ⟨hrequest, hfile, hreading, hread, hwritten, hunpacked⟩
  refine ⟨?_, fun i offset hr => ?_, fun bytes hb => ?_⟩
  · rw [hrequest, hfile, hwritten]
    exact h.whole
  · rw [hreading] at hr
    rw [Reads, hread, hwritten]
    exact h.reading i offset hr
  · rw [hunpacked] at hb
    rw [hwritten]
    exact h.unpacked bytes hb

/-- A step that does not concern the archive. -/
theorem Verbatim.apart (hapart : ArchivesApart S R) (hlocks : LocksApart S R)
    (harchives : Archives S R s (l :: ls)) (hA : Conduct S β op l)
    (hr : op.respond S (s, l) c = some (b, s', l'))
    (hw : l.working ≠ some .createArchive ∧ l.working ≠ some .write)
    (h : Verbatim S s.disk l) (heq : l'.carried = l.carried) : Verbatim S s'.disk l' := by
  have hmem : l ∈ l :: ls := List.mem_cons_self ..
  have hrequest := harchives.requests l hmem
  have hkept := h.frame hapart hlocks (touches_of_respond hA hr) hrequest hA.2.1
    (harchives.plain _ hrequest) hrequest (fun hrival => hrival.1.elim hw.1 hw.2)
    (harchives.named l hmem) (harchives.known l hmem) (harchives.named l hmem) fun _ _ _ => rfl
  exact hkept.congr heq

/-- More of the same list. -/
theorem append_prefix {read written bytes : List UInt8} (hread : read <+: written)
    (hbytes : bytes <+: written.drop read.length) : read ++ bytes <+: written := by
  rcases hread with ⟨rest, rfl⟩
  rw [List.drop_left] at hbytes
  exact (List.prefix_append_right_inj read).mpr hbytes

/-- The archive of the call that moves. -/
theorem Verbatim.perform (hapart : ArchivesApart S R) (hlocks : LocksApart S R)
    (harchives : Archives S R s (l :: ls)) (hA : Conduct S β op l) (horderly : op.Orderly l)
    (ht : l.task = none) (hproper : l.Proper S) (h : l.archived = true → Verbatim S s.disk l)
    (hr : op.respond S (s, l) c = some (b, s', l')) (harchived : l'.archived = true) :
    Verbatim S s'.disk l' := by
  have hrequest := harchives.requests l (List.mem_cons_self ..)
  have hplain := harchives.plain _ hrequest
  have hfootprint := hA.1
  -- Nothing is read but inside the closure that unpacks.
  have hidle : ∀ {job}, l.working = some job → job ≠ .extract → l.reading = none := by
    intro job hw hne
    by_contra hreading
    exact hne (Option.some.inj (hw.symm.trans (hproper.reading hA.2.2.1 hreading)))
  cases op with
  | inr op =>
      have hfree : l.working ≠ some .createArchive ∧ l.working ≠ some .write := by
        refine ⟨fun hw => ?_, fun hw => ?_⟩ <;>
          cases op <;> simp only [InstallOp.Footprint, hw, reduceCtorEq, false_and, and_false,
            or_false, Option.some.injEq] at hfootprint
      rcases answers_of_inr hr with ⟨_, _, _, _, _, rfl⟩
      have hcarried : (l.after S op b).carried = l.carried := by cases op <;> rfl
      have hold : l.archived = true := harchived ▸ by cases op <;> rfl
      exact (h hold).apart hapart hlocks harchives hA hr hfree hcarried
  | inl op =>
      have ha := answers_of_inl hr
      cases op with
      | createFile path =>
          rcases ha with ⟨_, _, rfl, rfl⟩ | ⟨_, rfl, rfl⟩
          · rw [hfootprint.1]
            change Verbatim S (s.disk.create (s.disk.follow (S.archiveAt l.request))).2 _
            rw [follow_plain hplain]
            refine ⟨fun i hnode => ?_, fun i offset hreading => ?_, fun bytes hb => ?_⟩
            · have hi : i = (s.disk.create (S.archiveAt l.request)).1 := by
                have hself := @Disk.node_create_self _ _ s.disk (S.archiveAt l.request)
                exact Node.file.inj (Option.some.inj (hnode.symm.trans hself))
              refine ⟨hi ▸ Disk.data_create_self, fun j offset hfile => ?_⟩
              change some ((s.disk.create (s.disk.follow (S.archiveAt l.request))).1, 0) = _ at hfile
              rw [follow_plain hplain] at hfile
              cases hfile
              exact ⟨hi.symm, rfl⟩
            · have hnone := hidle hfootprint.2 fun h => by cases h
              rw [show l.reading = some (i, offset) from hreading] at hnone
              cases hnone
            · have hnone : l.unpacked = none := horderly ht
              rw [show l.unpacked = some bytes from hb] at hnone
              cases hnone
          · exact h harchived
      | write buffer =>
          rcases ha with ⟨n, i, offset, hfile, _, rfl, rfl⟩ | ⟨_, rfl, rfl⟩
          · have hold := h harchived
            refine ⟨fun k hnode => ?_, fun k offset' hreading => ?_, fun bytes hb => ?_⟩
            · rcases hold.whole k hnode with ⟨hdata, hopen⟩
              rcases hopen i offset hfile with ⟨rfl, rfl⟩
              refine ⟨?_, fun j offset' hfile' => ?_⟩
              · refine (Disk.data_put_self _).trans ?_
                rw [hdata]
                exact writeAt_end _ rfl
              · cases hfile'
                exact ⟨rfl, List.length_append.symm⟩
            · have hnone := hidle hfootprint fun h => by cases h
              rw [show l.reading = some (k, offset') from hreading] at hnone
              cases hnone
            · have hnone : l.unpacked = none := horderly ht
              rw [show l.unpacked = some bytes from hb] at hnone
              cases hnone
          · exact h harchived
      | openArchive path =>
          have hold := h (horderly ht)
          rcases ha with ⟨rfl, ⟨i, _, hnode, rfl⟩ | ⟨_, rfl⟩⟩
          · refine ⟨hold.whole, fun k offset hreading => ?_, hold.unpacked⟩
            cases hreading
            rw [hfootprint.1] at hnode
            change s'.disk.node (s'.disk.follow (S.archiveAt l.request)) = _ at hnode
            rw [follow_plain hplain] at hnode
            exact ⟨(hold.whole i hnode).1, List.nil_prefix, rfl⟩
          · exact hold
      | readArchive =>
          rcases ha with ⟨rfl, ⟨i, offset, hreading, hend, _, rfl⟩ |
            ⟨i, offset, bytes, hreading, hbytes, _, rfl⟩ | ⟨_, rfl⟩⟩
          · have hold := h harchived
            rcases hold.reading i offset hreading with ⟨hdata, hread, hoffset⟩
            refine ⟨hold.whole, hold.reading, fun bytes hb => ?_⟩
            cases hb
            -- At the end of the file, everything has been read.
            rw [hdata, List.drop_eq_nil_iff, hoffset] at hend
            exact hread.eq_of_length_le hend
          · have hold := h harchived
            rcases hold.reading i offset hreading with ⟨hdata, hread, hoffset⟩
            refine ⟨hold.whole, fun k offset' hreading' => ?_, hold.unpacked⟩
            cases hreading'
            refine ⟨hdata, ?_, by rw [hoffset]; exact List.length_append.symm⟩
            rw [hdata, hoffset] at hbytes
            exact append_prefix hread hbytes
          · exact h harchived
      | begin job =>
          rcases ha with ⟨_, rfl, rfl⟩
          exact (h harchived).congr rfl
      | finish =>
          rcases ha with ⟨_, rfl, rfl⟩
          have hold := h harchived
          exact ⟨hold.whole, fun i offset hr => (by cases hr), hold.unpacked⟩
      | openLock path =>
          rcases ha with ⟨rfl, _⟩
          exact (h harchived).apart hapart hlocks harchives hA hr
            ⟨by rw [hfootprint.2]; decide, by rw [hfootprint.2]; decide⟩ rfl
      | removeFile path =>
          rcases ha with ⟨rfl, _⟩
          exact (h harchived).apart hapart hlocks harchives hA hr
            ⟨by rw [hfootprint.2]; decide, by rw [hfootprint.2]; decide⟩ rfl
      | unpackEntry staging name contents =>
          rcases ha with ⟨rfl, _⟩
          exact (h harchived).apart hapart hlocks harchives hA hr
            ⟨by rw [hfootprint.2]; decide, by rw [hfootprint.2]; decide⟩ rfl
      | lockExclusive path =>
          rcases ha with ⟨_, _, rfl, rfl⟩ | ⟨_, rfl, rfl⟩
          · exact (h harchived).congr rfl
          · exact h harchived
      | stagingDir root =>
          rcases ha with ⟨_, _, rfl, rfl⟩
          exact (h harchived).congr rfl
      | close =>
          rcases ha with ⟨rfl, rfl⟩
          have hold := h harchived
          exact ⟨fun i hnode => ⟨(hold.whole i hnode).1, fun j offset hf => by cases hf⟩,
            hold.reading, hold.unpacked⟩
      | selectDistribution =>
          rcases ha with ⟨rfl, rfl, _⟩
          exact h harchived
      | _ =>
          rcases ha with ⟨rfl, rfl⟩
          exact h harchived

/-! ## From the archive to the promotion -/

/-- What a call may change on the way. -/
theorem reading_kept (hA : Conduct S β op l) (hr : op.respond S (s, l) c = some (b, s', l'))
    (h : l.reading ≠ none → l.working = some .extract) :
    l'.reading ≠ none → l'.working = some .extract := by
  have hf := hA.1
  cases op with
  | inl op =>
      have ha := answers_of_inl hr
      cases op <;> simp only [RunOp.Answers, InstallOp.Footprint] at ha hf <;> grind
  | inr op =>
      rcases answers_of_inr hr with ⟨_, _, _, _, _, rfl⟩
      cases op <;> exact h

theorem opened_kept (horderly : op.Orderly l) (ht : l.task = none)
    (hr : op.respond S (s, l) c = some (b, s', l'))
    (h : l.reading ≠ none ∨ l.unpacked ≠ none → l.archived = true) :
    l'.reading ≠ none ∨ l'.unpacked ≠ none → l'.archived = true := by
  cases op with
  | inl op =>
      have ha := answers_of_inl hr
      cases op <;> simp only [RunOp.Answers, InstallOp.Orderly] at ha horderly <;> grind
  | inr op =>
      rcases answers_of_inr hr with ⟨_, _, _, _, _, rfl⟩
      cases op <;> exact h

/-- A call that is past the lock stays there, and it makes its archive there. -/
theorem far_kept (hA : Conduct S β op l) (ht : l.task = none)
    (hr : op.respond S (s, l) c = some (b, s', l')) (h : l.archived = true → l.phase ≠ .early) :
    l'.archived = true → l'.phase ≠ .early := by
  intro harchived hearly
  have hl : l.phase = .early := by
    rcases progress_of_respond hA ht hr with ⟨hphase, _⟩ | ⟨hphase, _⟩ | ⟨_, _, hphase⟩ |
      ⟨_, _, answer, _, hfar, _, _, hphase⟩
    · exact hphase.symm.trans hearly
    · exact hphase
    · rw [hearly] at hphase
      rcases hphase with hphase | hphase | hphase <;> cases hphase
    · rw [hearly] at hphase
      rcases hfar with hfar | hfar <;> rw [hfar] at hphase <;>
        rcases answer with e | _ | layout <;> cases hphase
  have hnone : l.archived ≠ true := fun h' => h h' hl
  have hwhen := (hA.2.2.2.1 ht).2
  cases op with
  | inl op =>
      have ha := answers_of_inl hr
      cases op <;> simp only [RunOp.Answers, InstallOp.When] at ha hwhen <;> grind
  | inr op =>
      rcases answers_of_inr hr with ⟨_, _, _, _, _, rfl⟩
      cases op <;> exact hnone harchived

/-- Only reading changes what was unpacked, and it is part of unpacking. -/
theorem unpacked_stays (hA : Conduct S β op l) (hr : op.respond S (s, l) c = some (b, s', l'))
    (hw : l.working ≠ some .extract) : l'.unpacked = l.unpacked := by
  have hf := hA.1
  cases op with
  | inl op =>
      have ha := answers_of_inl hr
      cases op <;> simp only [RunOp.Answers, InstallOp.Footprint] at ha hf <;> grind
  | inr op =>
      rcases answers_of_inr hr with ⟨_, _, _, _, _, rfl⟩
      cases op <;> rfl

/-- A promotion begins with what was verified. -/
theorem begins_good (hA : Conduct S β op l) (ht : l.task = none)
    (hunpacked : ∀ bytes, l.unpacked = some bytes → bytes = l.written)
    (hjob : op.job l = some .promote) (hw : l.working ≠ some .promote) : l.Good S := by
  have hwhen := (hA.2.2.2.1 ht).2
  cases op with
  | inr op => exact absurd hjob hw
  | inl op =>
      cases op with
      | begin job =>
          cases hjob
          rcases Option.ne_none_iff_exists'.mp hwhen.2.2 with ⟨bytes, hbytes⟩
          exact ⟨bytes, hbytes, hunpacked bytes hbytes ▸ hwhen.2.1⟩
      | _ => exact absurd hjob hw

/-- Whose job is a promotion, has what was verified. -/
theorem Installation.Proper.good (h : l.Proper S) (hA : Conduct S β op l)
    (hverbatim : l.Armed → Verbatim S d l) (hjob : op.job l = some .promote) : l.Good S := by
  have hopen := hA.2.2.1
  by_cases hw : l.working = some .promote
  · exact h.promotes hopen (.inl hw)
  · cases htask : l.task with
    | some job =>
        have hsame := hA.2.2.2.2 job htask
        rw [hjob] at hsame
        exact h.promotes hopen (.inr (htask.trans hsame.symm))
    | none =>
        refine begins_good hA htask (fun bytes hbytes => ?_) hjob hw
        have harchived := h.opened htask (.inr (by rw [hbytes]; exact Option.some_ne_none _))
        exact (hverbatim ⟨htask, hopen, harchived⟩).unpacked bytes hbytes

/-- A closure at work was begun, or was at work before. -/
theorem job_of_working {job : BlockingJob} (hr : op.respond S (s, l) c = some (b, s', l'))
    (h : l'.working = some job) : op.job l = some job := by
  cases op with
  | inr op =>
      rcases answers_of_inr hr with ⟨_, _, _, _, _, rfl⟩
      cases op <;> exact h
  | inl op =>
      have ha := answers_of_inl hr
      cases op with
      | begin job' =>
          rcases ha with ⟨_, _, rfl⟩
          exact h
      | finish =>
          rcases ha with ⟨_, _, rfl⟩
          cases h
      | _ =>
          simp only [RunOp.Answers] at ha
          change l.working = some job
          grind

/-- A closure waits for a thread, or is at work. -/
theorem working_of_job {job : BlockingJob} (hA : Conduct S β op l) (h : op.job l = some job) :
    l.working = none ∨ l.working = some job := by
  cases op with
  | inl op =>
      cases op with
      | begin job' => exact .inl hA.1.1
      | _ => exact .inr h
  | inr op => exact .inr h

theorem Installation.Proper.perform (h : l.Proper S) (hA : Conduct S β op l)
    (horderly : op.Orderly l) (hverbatim : l.Armed → Verbatim S d l)
    (hr : op.respond S (s, l) c = some (b, s', l')) : l'.Proper S := by
  rcases request_kept hr with ⟨hrequest, htask, hended⟩
  refine ⟨htask ▸ h.task, fun ht _ hne => ?_, fun ht => ?_, fun ht => ?_,
    fun _ => reading_kept hA hr (h.reading hA.2.2.1), fun _ hpromote => ?_⟩
  · rw [hrequest]
    exact custody_kept hA (htask ▸ ht) hr hne
  · exact far_kept hA (htask ▸ ht) hr (h.archived (htask ▸ ht))
  · exact opened_kept horderly (htask ▸ ht) hr (h.opened (htask ▸ ht))
  · have hjob : op.job l = some .promote :=
      hpromote.elim (job_of_working hr) fun ht => hA.2.2.2.2 _ (htask.symm.trans ht)
    rcases h.good hA hverbatim hjob with ⟨bytes, hbytes, hverified⟩
    refine ⟨bytes, (unpacked_stays hA hr fun hw => ?_).trans hbytes, hrequest ▸ hverified⟩
    rcases working_of_job hA hjob with hfree | hfree <;> rw [hw] at hfree <;> cases hfree

/-- What goes on without its call is no archive being made, and a promotion has what was
    verified. -/
theorem Installation.Proper.orphan {o : Installation} (h : l.Proper S) (hA : Conduct S β op l)
    (hverbatim : l.Armed → Verbatim S d l)
    (hlim : op.job l ≠ some .createArchive ∧ op.job l ≠ some .write) (ho : o ∈ l.leaves op) :
    o.Proper S := by
  rw [Installation.leaves] at ho
  split at ho
  · cases ho
  · rename_i job hjob
    rw [List.mem_singleton] at ho
    subst ho
    rw [hjob] at hlim
    refine ⟨hlim, fun ht => (by cases ht), fun ht => (by cases ht), fun ht => (by cases ht),
      fun _ => h.reading hA.2.2.1, fun _ hpromote => ?_⟩
    rcases hpromote with hw | ht
    · exact h.promotes hA.2.2.1 (.inl hw)
    · exact h.good hA hverbatim (hjob.trans ht)

end Step

/-! ## All calls -/

/-- Every archive holds what its call wrote, and every promotion has what was verified. -/
structure Vouched (S : Site) (R : InstallRequest → Prop) (s : Installing)
    (ls : List Installation) : Prop where
  archives : Archives S R s ls
  exclusive : Exclusive s ls
  proper : ∀ l ∈ ls, l.Proper S
  verbatim : ∀ l ∈ ls, l.Armed → Verbatim S s.disk l

section Joint

variable {S : Site} {R : InstallRequest → Prop}

theorem proper_new (r : InstallRequest) : (Installation.new r).Proper S := by
  refine ⟨⟨fun h => (by cases h), fun h => by cases h⟩, fun _ _ h => absurd rfl h,
    fun _ h => (by cases h), fun _ h => absurd rfl (h.resolve_left fun h => h rfl),
    fun _ h => absurd rfl h, fun _ h => by rcases h with h | h <;> cases h⟩

/-- Once a call has ended, only its archive is left of it. -/
theorem Installation.Proper.ended {l l' : Installation} (h : l.Proper S)
    (hended : l'.ended = true) (htask : l'.task = l.task) (hphase : l'.phase = l.phase)
    (harchived : l'.archived = l.archived) (hcarried : l'.carried = l.carried) : l'.Proper S := by
  simp only [Installation.carried, Prod.mk.injEq] at hcarried
  have hover : l'.ended ≠ false := fun h => absurd (hended.symm.trans h) fun h => by cases h
  refine ⟨htask ▸ h.task, fun _ hopen => absurd hopen hover, ?_, ?_,
    fun hopen => absurd hopen hover, fun hopen => absurd hopen hover⟩
  · rw [htask, harchived, hphase]
    exact h.archived
  · rw [htask, harchived, hcarried.2.2.1, hcarried.2.2.2.2.2]
    exact h.opened

theorem vouched_joint (hapart : ArchivesApart S R) (hlocks : LocksApart S R) :
    Concurrent.Joint (installs S) (upright R) (Tended S) (Vouched S R) := by
  refine orderly_joint ?_ ?_ ?_ ?_ ?_ ?_
  · exact fun s ls ls' hp h => ⟨h.archives.perm hp, h.exclusive.perm hp,
      fun l hl => h.proper l (hp.mem_iff.mpr hl), fun l hl => h.verbatim l (hp.mem_iff.mpr hl)⟩
  · intro s ls r hr h
    exact ⟨h.archives.call hr, h.exclusive.call r, List.forall_mem_cons.mpr ⟨proper_new r, h.proper⟩,
      List.forall_mem_cons.mpr ⟨fun harmed => (by cases harmed.2.2), h.verbatim⟩⟩
  · intro β op s l ls c b s' l' _ hA horderly h hr
    rcases List.forall_mem_cons.mp h.proper with ⟨hl, hls⟩
    rcases List.forall_mem_cons.mp h.verbatim with ⟨hv, hvs⟩
    have hmem : l ∈ l :: ls := List.mem_cons_self ..
    have hrequest := h.archives.requests l hmem
    rcases request_kept hr with ⟨_, htask, hended⟩
    refine ⟨h.archives.perform hapart hA hr, h.exclusive.perform hA hr,
      List.forall_mem_cons.mpr ⟨hl.perform hA horderly hv hr, hls⟩,
      List.forall_mem_cons.mpr ⟨fun harmed => ?_, fun x hx harmed => ?_⟩⟩
    · have ht : l.task = none := htask.symm.trans harmed.1
      exact Verbatim.perform hapart hlocks h.archives hA horderly ht hl
        (fun ha => hv ⟨ht, hA.2.2.1, ha⟩) hr harmed.2.2
    · have hxs : x ∈ l :: ls := List.mem_cons_of_mem _ hx
      exact (hvs x hx harmed).frame hapart hlocks (touches_of_respond hA hr) hrequest hA.2.1
        (h.archives.plain _ hrequest) (h.archives.requests x hxs)
        (not_rivals hlocks h.archives h.exclusive hA hl hx (hls x hx) harmed)
        (h.archives.named l hmem) (h.archives.known x hxs) (h.archives.named x hxs)
        (h.archives.shared l hmem x hxs)
  · intro result s l ls h
    rcases List.forall_mem_cons.mp h.proper with ⟨hl, hls⟩
    rcases List.forall_mem_cons.mp h.verbatim with ⟨_, hvs⟩
    exact ⟨h.archives.close _, h.exclusive.close _,
      List.forall_mem_cons.mpr ⟨hl.ended rfl rfl rfl rfl rfl, hls⟩,
      List.forall_mem_cons.mpr ⟨fun harmed => (by cases harmed.2.1), hvs⟩⟩
  · intro β op s l ls hlim hA h
    rcases List.forall_mem_cons.mp h.proper with ⟨hl, hls⟩
    rcases List.forall_mem_cons.mp h.verbatim with ⟨hv, hvs⟩
    refine ⟨h.archives.drop, h.exclusive.drop hA, List.forall_mem_append.mpr
      ⟨fun o ho => ?_, List.forall_mem_cons.mpr ⟨hl.ended rfl rfl rfl rfl rfl, hls⟩⟩,
      List.forall_mem_append.mpr ⟨fun o ho harmed => ?_,
        List.forall_mem_cons.mpr ⟨fun harmed => (by cases harmed.2.1), hvs⟩⟩⟩
    · exact hl.orphan hA hv hlim ho
    · rcases uses_leaves ho with ⟨_, _, _, job, _, htask, _⟩
      rw [harmed.1] at htask
      cases htask
  · intro s l ls s' l' h hr
    rcases List.forall_mem_cons.mp h.proper with ⟨hl, hls⟩
    rcases List.forall_mem_cons.mp h.verbatim with ⟨_, hvs⟩
    have harchives := h.archives.release hr
    have hexclusive := h.exclusive.release hr
    rcases of_release hr with ⟨p, hended, _, rfl, rfl⟩
    refine ⟨harchives, hexclusive,
      List.forall_mem_cons.mpr ⟨hl.ended hended rfl rfl rfl rfl, hls⟩,
      List.forall_mem_cons.mpr ⟨fun harmed => ?_, hvs⟩⟩
    exact absurd (hended.symm.trans harmed.2.1) fun h => by cases h

end Joint

/-! ## The tool -/

theorem locks_tool : LocksApart toolSite toolCall := by
  refine ⟨fun r r' h h' => ?_, fun r r' h h' _ => ?_⟩
  · rw [Site.lockAt, Site.archiveAt, installDir_tool h, archivePath_tool h']
    decide
  · rw [Site.lockAt, Site.lockAt, installDir_tool h, installDir_tool h']

/-- The tool, where one byte has a digest. -/
def digestSite : Site :=
  { toolSite with sha256 := fun bytes => if bytes = [1] then "ab" else "" }

/-- The call that wants this digest. -/
def digestRequest : InstallRequest :=
  { toolRequest with
    distribution := { toolRequest.distribution with expectedSha256 := some "AB" }
    rounds := 3 }

open Concurrent.Step InstallChoice in
/-- It downloads the byte, unpacks it and is about to put the directory in place. -/
def digestRun : List (Concurrent.Step InstallRequest InstallChoice) :=
  let step := fun c => perform 0 c
  let stored := fun c => perform 0 (store declines c)
  [call digestRequest] ++ (installRun 0).take 19 ++
    [step (chunk [1]), step pass, step (accepted 1), step pass] ++
    ((installRun 0).drop 19).take 11 ++ [step (accepted 0)] ++ (installRun 0).drop 30 ++
    [step pass, stored .pass, stored (.failed "")]

/-- The directory a call is about to move, and where it was unpacked. -/
def moving (t : Concurrent.Call InstallOp Installation (Except Error ResolvedRuntime)) :
    Option (PathBuf × PathBuf) :=
  match t.prog with
  | some (.perform (.inr (.rename source target)) _) => some (source, target)
  | _ => none

theorem prog_of_moving
    {t : Concurrent.Call InstallOp Installation (Except Error ResolvedRuntime)}
    {source target : PathBuf} (h : moving t = some (source, target)) :
    ∃ k, t.prog = some (.perform (.inr (.rename source target)) k) := by
  rw [moving] at h
  split at h
  · rename_i hprog
    cases h
    exact ⟨_, hprog⟩
  · cases h

/-- No history of calls for the tool without drops makes an archive without its call. -/
theorem allowed_upright {S : Site} {es : List (Concurrent.Step InstallRequest InstallChoice)}
    (h : es.all isTool) : ∀ g, (installs S).allowed (upright toolCall) g es := by
  induction es with
  | nil => exact fun _ => trivial
  | cons e es ih =>
      rw [List.all_cons, Bool.and_eq_true] at h
      refine fun g => ⟨?_, fun g' _ => ih h.2 g'⟩
      cases e with
      | call r =>
          have hcall : toolCall r := of_decide_eq_true h.1
          exact hcall
      | drop i => cases h.1
      | perform i c =>
          simp only [Concurrent.Limits.allow]
          split <;> trivial
      | _ => trivial

/-- A call that wants the same archive for another directory. -/
def rivalRequest : InstallRequest :=
  { digestRequest with
    distribution :=
      { digestRequest.distribution with expectedSha256 := none, installDirName := "other" } }

open Concurrent.Step InstallChoice in
/-- The first call downloads and verifies its byte, the second one writes another byte to the
    archive, and the first one unpacks that. -/
def swappedRun : List (Concurrent.Step InstallRequest InstallChoice) :=
  digestRun.take 26 ++ [call rivalRequest] ++ (installRun 1).take 19 ++
    [perform 1 (chunk [2]), perform 1 pass, perform 1 (accepted 1), perform 1 pass] ++
    digestRun.drop 26

/-- What was unpacked does not have the published digest. -/
theorem bytes_swapped : ∃ (g : Installs)
    (t : Concurrent.Call InstallOp Installation (Except Error ResolvedRuntime)),
    Transition.Reachable
        ((installs digestSite).system .none (Installing.clean digestSite fun _ => True)) g ∧
      t ∈ g.calls ∧
      (∃ source target k, t.prog = some (.perform (.inr (.rename source target)) k) ∧
        t.loc.Staged source) ∧
      ∃ bytes, t.loc.unpacked = some bytes ∧
        Install.verified t.loc.request.distribution.expectedSha256 (digestSite.sha256 bytes) =
          false := by
  have hrun : (Transition.play (installs digestSite).move
      { shared := emptyInstalling, calls := [] } swappedRun).map
        (fun g => g.calls[0]?.map fun t => ((moving t, t.loc.stage),
          t.loc.unpacked, t.loc.request.distribution.expectedSha256)) =
      some (some ((some (["cache", ".stage-7-0", "tool"], ["cache", "tool"]),
        some ["cache", ".stage-7-0"]), some [2], some "AB")) := by rfl
  rcases Option.map_eq_some_iff.mp hrun with ⟨g, hg, hcall⟩
  rcases Option.map_eq_some_iff.mp hcall with ⟨t, ht, hfacts⟩
  simp only [Prod.mk.injEq] at hfacts
  rcases hfacts with ⟨⟨hmoving, hstage⟩, hunpacked, hexpected⟩
  rcases prog_of_moving hmoving with ⟨k, hprog⟩
  have hclean : emptyInstalling.clean digestSite fun _ => True :=
    ⟨⟨rfl, rfl, rfl, rfl⟩, fun _ _ _ h => by cases h⟩
  refine ⟨g, t, Concurrent.reachable_play hclean hg, List.mem_of_getElem? ht,
    ⟨_, _, k, hprog, _, "tool", hstage, by decide, rfl⟩, [2], hunpacked, ?_⟩
  rw [hexpected]
  decide

end TinyRuntime
