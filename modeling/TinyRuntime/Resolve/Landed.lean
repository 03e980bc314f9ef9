import TinyRuntime.Resolve.Exclusive
import TinyRuntime.Resolve.Within

/-!
# What One Install Leaves

An install that runs alone: the install directory holds what was unpacked, and the archive
is gone, provided that the archive, the install directory and the path it is moved aside to
are three names in one directory.

The file system may refuse anything but to delete a file that is there. Where the promotion
begins, what is on the disk is noted down; no code reads it.

## Main definitions

* `solo`: The effects of an install that runs alone.
* `Spread`: The paths of the install are three names.
* `Landed`: What an install has done in the end.

## Theorems

* `extract_solo`, `promote_solo`, `cleanup_solo`: The stages.
* `install_lands`: A whole install.
-/

namespace TinyRuntime

open Prog (act attempt)

/-! ## One install alone -/

/-- A file that is there is deleted when it is asked for. -/
def InstallOp.refused {β : Type} (S : Site) (op : InstallOp β) (d : Disk String)
    (c : InstallChoice) : Bool :=
  match op, c with
  | .inl (.removeFile path), .failed _ =>
      decide (d.node (S.lookup.locate path) ≠ none ∧ d.node (S.lookup.locate path) ≠ some .dir)
  | _, _ => false

/-- The disk a promotion began with. -/
def InstallOp.noted {β : Type} (op : InstallOp β) (d : Disk String)
    (before : Option (Disk String)) : Option (Disk String) :=
  match op with
  | .inl (.begin .promote) => some d
  | _ => before

/-- The effects of an install that runs alone. -/
def solo (S : Site) :
    Handler InstallOp ((Installing × Installation) × Option (Disk String)) InstallChoice where
  respond op w c :=
    if op.refused S w.1.1.disk c then none
    else (op.respond S w.1 c).map fun r => (r.1, r.2, op.noted w.1.1.disk w.2)

/-- The archive, the install directory and the path it is moved aside to are three names in
    one directory, in the root or below it. -/
def Spread (S : Site) (r : InstallRequest) : Prop :=
  ∃ directory installed archived displaced,
    S.lookup.locate (S.cacheRoot r) <+: directory ∧
      S.lookup.locate (S.installDir r) = directory ++ [installed] ∧
      S.lookup.locate (S.archivePath r) = directory ++ [archived] ∧
      S.lookup.locate (S.aside r) = directory ++ [displaced] ∧
      installed ≠ archived ∧ installed ≠ displaced ∧ archived ≠ displaced

/-- The staging directory held one directory when the promotion began. The install directory
    holds all of it now, and the archive is not there any more, under any name. -/
def Landed (S : Site) (r : InstallRequest) (stage : PathBuf) (before after : Disk String) :
    Prop :=
  ∃ name, (listing before (S.lookup.locate stage)).filter (fun e => e.2) = [(name, true)] ∧
    after.tree (S.lookup.locate (S.installDir r)) =
      before.tree (S.lookup.locate (stage ++ [name])) ∧
    after.node (S.lookup.locate (S.archivePath r)) = none ∧
    ∀ i, before.node (S.lookup.locate (S.archivePath r)) = some (.file i) → after.Unlinked i

section Walk

variable {S : Site} {r : InstallRequest} {s : Installing} {l : Installation}
  {g : Option (Disk String)} {α β : Type}

/-- Nothing is asserted. -/
abbrev free : ∀ β, InstallOp β → (Installing × Installation) × Option (Disk String) → Prop :=
  fun _ _ _ => True

theorem wp_soloOp {op : InstallOp β}
    {Q : β → (Installing × Installation) × Option (Disk String) → Prop}
    (hQ : ∀ c b s' l', op.refused S s.disk c = false → op.respond S (s, l) c = some (b, s', l') →
      Q b ((s', l'), op.noted s.disk g)) :
    (Prog.op op).wp (solo S) free Q ((s, l), g) := by
  refine ⟨trivial, fun c b t hr => ?_⟩
  simp only [solo] at hr
  split at hr
  · cases hr
  · rename_i hpass
    rcases Option.map_eq_some_iff.mp hr with ⟨⟨b', s', l'⟩, hrespond, heq⟩
    cases heq
    exact hQ c b' s' l' (Bool.not_eq_true _ ▸ hpass) hrespond

/-- An effect of the install. -/
theorem wp_soloRun {op : RunOp β}
    {Q : β → (Installing × Installation) × Option (Disk String) → Prop}
    (hQ : ∀ b s' l', op.Answers S s l b s' l' →
      Q b ((s', l'), InstallOp.noted (.inl op) s.disk g)) :
    (@Prog.op InstallOp β (.inl op)).wp (solo S) free Q ((s, l), g) :=
  wp_soloOp fun _ b s' l' _ hr => hQ b s' l' (answers_of_inl hr)

/-- An effect of the store. -/
theorem wp_soloStore {op : StoreOp β}
    {Q : β → (Installing × Installation) × Option (Disk String) → Prop}
    (hQ : ∀ provider d b, op.Answers S.lookup provider s.disk b d →
      Q b (({ s with disk := d }, l.after S op b), g)) :
    (@Prog.op InstallOp β (.inr op)).wp (solo S) free Q ((s, l), g) := by
  refine wp_soloOp fun c b s' l' _ hr => ?_
  rcases answers_of_inr hr with ⟨provider, sc, d, hstore, rfl, rfl⟩
  exact hQ provider d b (StoreOp.answers_of_respond hstore)

/-- It neither names a staging directory nor begins the promotion. -/
def InstallOp.Quiet {β : Type} (op : InstallOp β) : Prop :=
  match op with
  | .inl (.stagingDir _) => False
  | .inl (.begin .promote) => False
  | _ => True

/-- The request, the staging directory and the note are as they were. -/
def Marked (l : Installation) (g : Option (Disk String))
    (w : (Installing × Installation) × Option (Disk String)) : Prop :=
  w.1.2.request = l.request ∧ w.1.2.stage = l.stage ∧ w.2 = g

theorem Marked.refl : Marked l g ((s, l), g) :=
  ⟨rfl, rfl, rfl⟩

theorem Marked.trans {l' : Installation} {g' : Option (Disk String)}
    {w : (Installing × Installation) × Option (Disk String)} (h : Marked l g ((s, l'), g'))
    (h' : Marked l' g' w) : Marked l g w :=
  ⟨h'.1.trans h.1, h'.2.1.trans h.2.1, h'.2.2.trans h.2.2⟩

/-- One quiet effect. -/
theorem marked_solo {op : InstallOp β} (hop : op.Quiet)
    {w w' : (Installing × Installation) × Option (Disk String)} {c : InstallChoice} {b : β}
    (h : Marked l g w) (hr : (solo S).respond op w c = some (b, w')) : Marked l g w' := by
  rcases w with ⟨⟨s₁, l₁⟩, g₁⟩
  simp only [solo] at hr
  split at hr
  · cases hr
  · rcases Option.map_eq_some_iff.mp hr with ⟨⟨b', s₂, l₂⟩, hrespond, heq⟩
    cases heq
    refine ⟨(request_kept hrespond).1.trans h.1, ?_, ?_⟩
    · refine Eq.trans ?_ h.2.1
      cases op with
      | inl op =>
          have ha := answers_of_inl hrespond
          cases op <;> simp only [RunOp.Answers] at ha <;> grind [InstallOp.Quiet]
      | inr op =>
          rcases answers_of_inr hrespond with ⟨_, _, _, _, _, rfl⟩
          cases op <;> rfl
    · refine Eq.trans ?_ h.2.2
      cases op with
      | inl op =>
          cases op with
          | begin job =>
              cases job with
              | promote => exact hop.elim
              | _ => rfl
          | _ => rfl
      | inr op => rfl

/-- A program of quiet effects. -/
theorem wp_quiet {p : Prog InstallOp α} (hp : p.Uses fun _ => InstallOp.Quiet) :
    p.wp (solo S) free (fun _ w => Marked l g w) ((s, l), g) :=
  Prog.wp_weaken _ (fun _ _ _ _ => trivial) _
    (Prog.wp_uses (Marked l g) (fun _ _ _ _ _ _ hop h hr => marked_solo hop h hr) p _ hp .refl)

theorem quiet_begin {job : BlockingJob} (hjob : job ≠ .promote) :
    @InstallOp.Quiet Unit (.inl (.begin job)) := by
  cases job with
  | promote => exact absurd rfl hjob
  | _ => trivial

theorem quiet_onThread {job : BlockingJob} {work : Prog InstallOp α} (hjob : job ≠ .promote)
    (hwork : work.Uses fun _ => InstallOp.Quiet) :
    (Install.onThread job work).Uses fun _ => InstallOp.Quiet :=
  Prog.uses_bind ((Prog.uses_op _).mpr (quiet_begin hjob)) fun _ =>
    Prog.uses_bind hwork fun _ => Prog.uses_bind ((Prog.uses_op _).mpr trivial) fun _ => trivial

theorem quiet_createDirs (path : PathBuf) :
    (Install.createDirs path).run.Uses fun _ => InstallOp.Quiet := by
  refine Prog.uses_bind (quiet_onThread nofun ((Prog.uses_op _).mpr trivial)) fun b => ?_
  cases b <;> trivial

theorem quiet_acquire (language : Language) (installDir : PathBuf) :
    (Install.acquire language installDir).run.Uses fun _ => InstallOp.Quiet := by
  refine Prog.uses_run_bind ?_ fun _ => ?_
  · rw [Install.createParent]
    split
    · exact quiet_createDirs _
    · trivial
  · refine Prog.uses_bind ((Prog.uses_op _).mpr (@quiet_begin .takeLock fun h => by cases h)) fun _ =>
      Prog.uses_bind ?_ fun _ => Prog.uses_bind ((Prog.uses_op _).mpr trivial) fun ended => ?_
    · refine Prog.uses_bind ((Prog.uses_op _).mpr trivial) fun b => ?_
      cases b with
      | error reason => trivial
      | ok u =>
          refine Prog.uses_bind ((Prog.uses_op _).mpr trivial) fun b => ?_
          cases b <;> trivial
    · cases ended <;> trivial

theorem quiet_embed (p : Prog StoreOp α) :
    (p.embed fun _ op => (.inr op : InstallOp _)).Uses fun _ => InstallOp.Quiet := by
  induction p with
  | done a => trivial
  | perform e k ih => exact ⟨trivial, ih⟩

theorem quiet_discard (removals : Nat) (path : PathBuf) :
    (Install.discard removals path).Uses fun _ => InstallOp.Quiet :=
  Prog.uses_bind (quiet_onThread nofun (quiet_embed _)) fun _ => trivial

theorem quiet_removeArchive (path : PathBuf) :
    (Install.removeArchive path).Uses fun _ => InstallOp.Quiet :=
  Prog.uses_bind (quiet_onThread nofun ((Prog.uses_op _).mpr trivial)) fun _ => trivial

/-! ### Unpacking -/

/-- A closure on a thread. What is known of its result is known of the disk alone. -/
theorem onThread_solo {job : BlockingJob} {work : Prog InstallOp α} {g' : Option (Disk String)}
    {R : α → Disk String → Prop}
    (hg : InstallOp.noted (.inl (.begin job) : InstallOp Unit) s.disk g = g')
    (hwork : ∀ s' l', s'.disk = s.disk → Marked l g' ((s', l'), g') →
      work.wp (solo S) free (fun a w => Marked l g' w ∧ R a w.1.1.disk) ((s', l'), g')) :
    (Install.onThread job work).wp (solo S) free (fun a w => Marked l g' w ∧ R a w.1.1.disk)
      ((s, l), g) := by
  rw [Install.onThread, Prog.wp_bind]
  refine wp_soloRun ?_
  rintro _ s' l' ⟨_, rfl, rfl⟩
  rw [hg, Prog.wp_bind]
  refine Prog.wp_mono _ ?_ _ (hwork _ _ rfl ⟨rfl, rfl, rfl⟩)
  rintro a ⟨⟨s₁, l₁⟩, g₁⟩ ⟨hmarked, hR⟩
  rw [Prog.wp_bind]
  refine wp_soloRun ?_
  rintro _ s' l' ⟨_, rfl, rfl⟩
  exact ⟨hmarked, hR⟩

/-- A closure whose panic is an error. -/
theorem blocking_solo {language : Language} {job : BlockingJob}
    {work : Prog InstallOp (Except Error α)} {g' : Option (Disk String)}
    {R : Except Error α → Disk String → Prop} (herror : ∀ e d, R (.error e) d)
    (hg : InstallOp.noted (.inl (.begin job) : InstallOp Unit) s.disk g = g')
    (hwork : ∀ s' l', s'.disk = s.disk → Marked l g' ((s', l'), g') →
      work.wp (solo S) free (fun a w => Marked l g' w ∧ R a w.1.1.disk) ((s', l'), g')) :
    (Install.blocking language job work).wp (solo S) free
      (fun a w => Marked l g' w ∧ R a w.1.1.disk) ((s, l), g) := by
  rw [Install.blocking, Prog.wp_bind]
  refine wp_soloRun ?_
  rintro _ s' l' ⟨_, rfl, rfl⟩
  rw [hg, Prog.wp_bind]
  refine Prog.wp_mono _ ?_ _ (hwork _ _ rfl ⟨rfl, rfl, rfl⟩)
  rintro a ⟨⟨s₁, l₁⟩, g₁⟩ ⟨hmarked, hR⟩
  rw [Prog.wp_bind]
  refine wp_soloRun ?_
  rintro ended s' l' ⟨_, rfl, rfl⟩
  cases ended with
  | none => exact ⟨hmarked, hR⟩
  | some reason => exact ⟨hmarked, herror _ _⟩

/-- Something other than a directory is at the archive path. -/
def Fetched (S : Site) (r : InstallRequest) (n : Node String) (d : Disk String) : Prop :=
  d.node (S.lookup.locate (S.archivePath r)) = some n ∧ n ≠ .dir

/-- A path is the one directory that was unpacked. -/
def Unpacked (S : Site) (staging path : PathBuf) (d : Disk String) : Prop :=
  ∃ name, path = staging ++ [name] ∧ name ≠ ".." ∧
    (listing d (S.lookup.locate staging)).filter (fun e => e.2) = [(name, true)]

/-- It reads the archive, or unpacks something of it. -/
def InstallOp.Unpacks {β : Type} (staging : PathBuf) (op : InstallOp β) : Prop :=
  match op with
  | .inl .readArchive => True
  | .inl (.unpackEntry path _ _) => path = staging
  | _ => False

theorem unpacks_readAll {staging : PathBuf} (rounds : Nat) : ∀ before,
    (Install.readAll rounds before).Uses fun _ => InstallOp.Unpacks staging := by
  induction rounds with
  | zero => exact fun _ => trivial
  | succ rounds ih =>
      intro before
      refine Prog.uses_bind ((Prog.uses_op _).mpr trivial) fun b => ?_
      match b with
      | .error reason => trivial
      | .ok none => trivial
      | .ok (some bytes) => exact ih _

theorem unpacks_unpackAll {staging : PathBuf} (entries : List ArchiveEntry) :
    (Install.unpackAll staging entries).Uses fun _ => InstallOp.Unpacks staging := by
  induction entries with
  | nil => trivial
  | cons entry rest ih =>
      rw [Install.unpackAll]
      split
      · exact ih
      · refine Prog.uses_bind ((Prog.uses_op _).mpr rfl) fun b => ?_
        cases b with
        | error reason => trivial
        | ok u => exact ih

/-- The archive stays where it is while it is read and unpacked. -/
theorem wp_unpacks {p : Prog InstallOp α} {staging : PathBuf} {n : Node String}
    (hout : ¬ S.lookup.locate staging <+: S.lookup.locate (S.archivePath r))
    (hp : p.Uses fun _ => InstallOp.Unpacks staging) (h : Fetched S r n s.disk) :
    p.wp (solo S) free (fun _ w => Marked l g w ∧ Fetched S r n w.1.1.disk) ((s, l), g) := by
  refine Prog.wp_weaken _ (fun _ _ _ _ => trivial) _
    (Prog.wp_uses (fun w => Marked l g w ∧ Fetched S r n w.1.1.disk) ?_ p _ hp ⟨.refl, h⟩)
  rintro β op ⟨⟨s₁, l₁⟩, g₁⟩ c b ⟨⟨s₂, l₂⟩, g₂⟩ hop ⟨hmarked, hfetched⟩ hr
  have hquiet : op.Quiet := by
    cases op with
    | inl op => cases op <;> trivial
    | inr op => trivial
  refine ⟨marked_solo hquiet hmarked hr, ?_⟩
  simp only [solo] at hr
  split at hr
  · cases hr
  · rcases Option.map_eq_some_iff.mp hr with ⟨⟨b', s', l'⟩, hrespond, heq⟩
    cases heq
    cases op with
    | inr op => exact hop.elim
    | inl op =>
        have ha := answers_of_inl hrespond
        cases op with
        | readArchive => exact ha.1 ▸ hfetched
        | unpackEntry path name contents =>
            cases hop
            rcases ha with ⟨_, rfl | ⟨contents, rfl⟩⟩
            · exact hfetched
            · have hne : S.lookup.locate (S.archivePath r) ≠ S.lookup.locate staging ++ name :=
                fun heq => hout (heq ▸ List.prefix_append _ _)
              refine ⟨(Disk.node_place_ne hne ?_).trans hfetched.1, hfetched.2⟩
              exact hfetched.1 ▸ Option.some_ne_none _
        | _ => exact hop.elim

theorem unpack_solo {staging : PathBuf} {format : ArchiveFormat}
    (hout : ¬ S.lookup.locate staging <+: S.lookup.locate (S.archivePath r)) :
    (Install.unpack S r.rounds (S.archivePath r) staging format).wp (solo S) free
      (fun result w => Marked l g w ∧ (result = .ok () → ∃ n, Fetched S r n w.1.1.disk))
      ((s, l), g) := by
  rw [Install.unpack, Prog.wp_bind]
  refine wp_soloRun ?_
  rintro _ s₁ l₁ ⟨rfl, ⟨i, rfl, hfile, rfl⟩ | ⟨⟨reason, rfl⟩, rfl⟩⟩
  · have hfetched : ∃ n, Fetched S r n s₁.disk := by
      simp only [Disk.follow] at hfile
      split at hfile
      · rename_i target hlink
        exact ⟨_, hlink, fun h => by cases h⟩
      · exact ⟨_, hfile, fun h => by cases h⟩
    rcases hfetched with ⟨n, hfetched⟩
    dsimp only
    rw [Prog.wp_bind]
    refine Prog.wp_mono _ ?_ _ (wp_unpacks hout (unpacks_readAll _ _) hfetched)
    rintro bytes ⟨⟨s₂, l₂⟩, g₂⟩ ⟨hmarked, hfetched⟩
    have hfound : Marked l g ((s₂, l₂), g₂) := ⟨hmarked.1, hmarked.2.1, hmarked.2.2⟩
    cases bytes with
    | error reason => exact ⟨hfound, fun h => by cases h⟩
    | ok bytes =>
        dsimp only
        split
        · exact ⟨hfound, fun h => by cases h⟩
        · refine Prog.wp_mono _ ?_ _ (wp_unpacks hout (unpacks_unpackAll _) hfetched)
          exact fun _ _ h => ⟨hfound.trans h.1, fun _ => ⟨n, h.2⟩⟩
  · exact ⟨.refl, fun h => by cases h⟩

theorem singleRoot_solo {staging : PathBuf} {C : Disk String → Prop} (h : C s.disk) :
    (Install.singleRoot staging).wp (solo S) free
      (fun result w => Marked l g w ∧ C w.1.1.disk ∧
        ∀ path, result = .ok path → Unpacked S staging path w.1.1.disk) ((s, l), g) := by
  rw [Install.singleRoot, Prog.wp_bind]
  refine wp_soloStore ?_
  rintro _ d names ⟨rfl, hnames⟩
  cases names with
  | error reason => exact ⟨.refl, h, fun _ h => by cases h⟩
  | ok entries =>
      cases hnames entries rfl
      dsimp only
      split
      · rename_i directory hone
        refine ⟨.refl, h, fun path hr => ?_⟩
        cases hr
        rcases List.map_eq_singleton_iff.mp hone with ⟨⟨name, isDir⟩, he, rfl⟩
        have hmem := he ▸ List.mem_singleton_self (name, isDir)
        rcases List.mem_filter.mp hmem with ⟨hlisted, hdir⟩
        cases hdir
        exact ⟨name, rfl, name_of_mem_listing hlisted, he⟩
      · exact ⟨.refl, h, fun _ h => by cases h⟩
      · exact ⟨.refl, h, fun _ h => by cases h⟩

theorem extract_solo {staging : PathBuf} {format : ArchiveFormat}
    (hout : ¬ S.lookup.locate staging <+: S.lookup.locate (S.archivePath r)) :
    (Install.extract S r (S.archivePath r) staging format).wp (solo S) free
      (fun result w => Marked l g w ∧ ∀ path, result = .ok path →
        Unpacked S staging path w.1.1.disk ∧ ∃ n, Fetched S r n w.1.1.disk) ((s, l), g) := by
  refine blocking_solo (R := fun result d => ∀ path, result = .ok path →
    Unpacked S staging path d ∧ ∃ n, Fetched S r n d) (fun _ _ _ he => nomatch he) rfl
    fun s₁ l₁ _ hmarked => ?_
  rw [Prog.wp_bind]
  refine wp_soloStore ?_
  intro _ d made _
  cases made with
  | error reason => exact ⟨hmarked, nofun⟩
  | ok u =>
      dsimp only
      rw [Prog.wp_bind]
      refine Prog.wp_mono _ ?_ _ (unpack_solo hout)
      rintro result ⟨⟨s₂, l₂⟩, g₂⟩ ⟨hmarked₂, hfetched⟩
      have hfound : Marked l g ((s₂, l₂), g₂) := hmarked.trans hmarked₂
      cases result with
      | error reason => exact ⟨hfound, nofun⟩
      | ok u =>
          dsimp only
          rw [Prog.wp_bind]
          refine Prog.wp_mono _ ?_ _ (singleRoot_solo (C := fun d => ∃ n, Fetched S r n d)
            (hfetched rfl))
          rintro result w ⟨hmarked₃, hfetched, hunpacked⟩
          cases result with
          | error reason => exact ⟨hfound.trans hmarked₃, nofun⟩
          | ok path =>
              refine ⟨hfound.trans hmarked₃, fun path' hr => ?_⟩
              cases hr
              exact ⟨hunpacked path rfl, hfetched⟩

/-! ### Promoting -/

/-- It does not ask the provider. -/
def StoreOp.Blind {β : Type} (op : StoreOp β) : Prop :=
  match op with
  | .layout _ => False
  | _ => True

theorem blind_removeDirAll (path : PathBuf) (removals : Nat) :
    (removeDirAll path removals).Uses fun _ => StoreOp.Blind := by
  induction removals with
  | zero => trivial
  | succ removals ih =>
      refine Prog.uses_bind ((Prog.uses_op _).mpr trivial) fun b => ?_
      match b with
      | .error reason => trivial
      | .ok true => trivial
      | .ok false => exact ih

theorem blind_attemptAs {m : Promotion} {what : String} {op : StoreOp (Except String α)}
    (hop : op.Blind) : (m.attemptAs what op).run.Uses fun _ => StoreOp.Blind := by
  refine Prog.uses_bind ((Prog.uses_op _).mpr hop) fun b => ?_
  cases b <;> trivial

theorem blind_act {op : StoreOp α} (hop : op.Blind) :
    (act op : ExceptT Error (Prog StoreOp) α).run.Uses fun _ => StoreOp.Blind :=
  Prog.uses_run_lift ⟨hop, fun _ => trivial⟩

theorem blind_promote (m : Promotion) (removals : Nat) (destination : PathBuf) :
    (m.promoteBlocking removals destination).run.Uses fun _ => StoreOp.Blind := by
  refine Prog.uses_run_bind ?_ fun _ => Prog.uses_run_bind ?_ fun displaced => ?_
  · rw [Promotion.createParent]
    split
    · exact blind_attemptAs trivial
    · trivial
  · refine Prog.uses_run_bind (blind_act trivial) fun found => ?_
    split
    · exact Prog.uses_run_bind (Prog.uses_run_lift (blind_removeDirAll _ _)) fun _ =>
        Prog.uses_run_bind (blind_attemptAs trivial) fun _ => trivial
    · trivial
  · refine Prog.uses_run_bind (blind_act trivial) fun landed => ?_
    cases landed with
    | error error =>
        cases displaced with
        | none => trivial
        | some aside =>
            refine Prog.uses_run_bind (blind_act trivial) fun restored => ?_
            cases restored <;> trivial
    | ok u =>
        cases displaced with
        | none => trivial
        | some aside =>
            exact Prog.uses_run_bind (Prog.uses_run_lift (blind_removeDirAll _ _)) fun _ => trivial

theorem respond_blind {inspect provider : Inspect} {op : StoreOp β} (hop : op.Blind)
    (d : Disk String) (c : StoreChoice) :
    op.respond S.lookup provider d c = op.respond S.lookup inspect d c := by
  cases op with
  | layout path => exact hop.elim
  | _ => rfl

/-- A program of the store that does not ask the provider, inside an install. -/
theorem wp_soloProgram {p : Prog StoreOp α} {inspect : Inspect} {R : α → Disk String → Prop}
    (hp : p.Uses fun _ => StoreOp.Blind)
    (h : p.wp (storeHandler S.lookup inspect) (fun _ _ _ => True) R s.disk) :
    (p.embed fun _ op => (.inr op : InstallOp _)).wp (solo S) free
      (fun a w => Marked l g w ∧ R a w.1.1.disk) ((s, l), g) := by
  refine Prog.wp_embed (fun d w => w.1.1.disk = d ∧ Marked l g w) (fun _ _ _ _ _ _ => trivial) ?_
    (fun _ _ _ hw hR => ⟨hw.2, hw.1 ▸ hR⟩) p s.disk _ ⟨rfl, .refl⟩ (Prog.wp_and_uses p _ h hp)
  rintro β op d w c b w' ⟨rfl, hmarked⟩ ⟨_, hblind⟩ hr
  have hquiet : @InstallOp.Quiet β (.inr op) := trivial
  have hnext : Marked l g w' := marked_solo hquiet hmarked hr
  simp only [solo] at hr
  split at hr
  · cases hr
  · rcases Option.map_eq_some_iff.mp hr with ⟨⟨b', s', l'⟩, hrespond, heq⟩
    cases heq
    rcases answers_of_inr hrespond with ⟨provider, sc, d, hstore, rfl, rfl⟩
    exact ⟨sc, d, (respond_blind hblind _ _).symm.trans hstore, rfl, hnext⟩

/-- A staging directory is next to the three names or above none of them. -/
structure Clear (S : Site) (r : InstallRequest) (stage : PathBuf) : Prop where
  named : ∃ process id, stage = S.cacheRoot r ++ [stagingName process id]
  installed : ¬ S.lookup.locate stage <+: S.lookup.locate (S.installDir r)
  displaced : ¬ S.lookup.locate stage <+: S.lookup.locate (S.aside r)
  archived : ¬ S.lookup.locate stage <+: S.lookup.locate (S.archivePath r)

/-- A name below the root is not above the staging directory. -/
theorem Clear.not_above {stage : PathBuf} (hclear : Clear S r stage) {directory : List String}
    {name : String} (hbelow : S.lookup.locate (S.cacheRoot r) <+: directory)
    (hout : ¬ S.lookup.locate stage <+: directory ++ [name]) :
    ¬ directory ++ [name] <+: S.lookup.locate stage := by
  intro hpre
  rcases hclear.named with ⟨process, id, rfl⟩
  rw [S.lookup.join _ _ (stagingName_ne process id)] at hpre hout
  rcases List.prefix_concat_iff.mp hpre with heq | hshort
  · exact hout (heq ▸ List.prefix_refl _)
  · have hle := (hshort.trans hbelow).length_le
    rw [List.length_append, List.length_singleton] at hle
    omega

theorem Spread.separate (h : Spread S r) {stage : PathBuf} (hclear : Clear S r stage)
    {name : String} (hname : name ≠ "..") :
    Promotion.Separate S.lookup (S.installDir r)
      { staged := stage ++ [name], language := r.language, process := r.process } := by
  rcases h with ⟨directory, installed, archived, displaced, hbelow, hi, ha, hd, _, hne, _⟩
  refine ⟨fun heq => hne ?_, fun hpre => ?_⟩
  · have hsame : directory ++ [displaced] = directory ++ [installed] := hd ▸ hi ▸ heq
    exact (List.singleton_inj.mp (List.append_cancel_left hsame)).symm
  · have hout := hclear.displaced
    rw [hd] at hout
    replace hpre : directory ++ [displaced] <+: S.lookup.locate (stage ++ [name]) := hd ▸ hpre
    rw [S.lookup.join stage name hname] at hpre
    rcases List.prefix_concat_iff.mp hpre with heq | hpre
    · exact hout (heq ▸ List.prefix_append _ _)
    · exact hclear.not_above hbelow hout hpre

/-- The promotion leaves the archive where it is. -/
theorem Spread.stable (h : Spread S r) {stage : PathBuf} (hclear : Clear S r stage)
    {name : String} (hname : name ≠ "..") {n : Node String} :
    Stable S.lookup (S.installDir r)
      { staged := stage ++ [name], language := r.language, process := r.process }
      (Fetched S r n) := by
  rcases h with ⟨directory, installed, archived, displaced, _, hi, ha, hd, hia, _, had⟩
  have hinstalled : ¬ S.lookup.locate (S.installDir r) <+: S.lookup.locate (S.archivePath r) :=
    hi ▸ ha ▸ (Disk.apart_of_ne hia).1
  have hdisplaced : ¬ S.lookup.locate (S.aside r) <+: S.lookup.locate (S.archivePath r) :=
    hd ▸ ha ▸ (Disk.apart_of_ne had).2
  have hstaged : ¬ S.lookup.locate (stage ++ [name]) <+: S.lookup.locate (S.archivePath r) := by
    rw [S.lookup.join stage name hname]
    exact fun hpre => hclear.archived ((List.prefix_append _ _).trans hpre)
  refine ⟨fun d _ _ _ _ hf => ?_, fun d x hx hf => ?_, fun d p q hp hq hf => ?_⟩
  · exact ⟨(Disk.node_makeDirs_ne (hf.1 ▸ Option.some_ne_none _)).trans hf.1, hf.2⟩
  · have hne : S.lookup.locate (S.archivePath r) ≠ x := fun heq => hdisplaced (heq ▸ hx)
    exact ⟨(Disk.node_remove_ne hne).trans hf.1, hf.2⟩
  · refine ⟨(Disk.node_rename_of_not ?_ ?_).trans hf.1, hf.2⟩
    · rcases hp with rfl | rfl | rfl
      · exact hinstalled
      · exact hdisplaced
      · exact hstaged
    · rcases hq with rfl | rfl
      · exact hinstalled
      · exact hdisplaced

theorem promote_solo (h : Spread S r) {stage : PathBuf} (hclear : Clear S r stage) {name : String}
    (hname : name ≠ "..") {n : Node String} (hfetched : Fetched S r n s.disk) :
    (Install.promote r (stage ++ [name]) (S.installDir r)).wp (solo S) free
      (fun result w => Marked l (some s.disk) w ∧ (result = .ok () →
        w.1.1.disk.tree (S.lookup.locate (S.installDir r)) =
          s.disk.tree (S.lookup.locate (stage ++ [name])) ∧ Fetched S r n w.1.1.disk))
      ((s, l), g) := by
  refine blocking_solo (R := fun result d => result = .ok () →
    d.tree (S.lookup.locate (S.installDir r)) =
      s.disk.tree (S.lookup.locate (stage ++ [name])) ∧ Fetched S r n d) (fun _ _ => nofun) rfl
    fun s₁ l₁ hdisk hmarked => ?_
  let m : Promotion := { staged := stage ++ [name], language := r.language, process := r.process }
  have inspect : Inspect := fun _ _ => .ok none
  have hlands := @promote_spec S.lookup inspect (S.installDir r) m r.rounds s.disk _
    (h.separate hclear hname) (.inl rfl)
  have hkeeps := @promote_keeps S.lookup inspect (S.installDir r) m r.rounds s.disk _
    (h.stable hclear hname) hfetched
  have hboth := Prog.wp_weaken _ (fun _ _ _ _ => trivial) _ (Prog.wp_and _ _ hlands hkeeps)
  rw [← hdisk] at hboth
  refine Prog.wp_mono _ ?_ _ (wp_soloProgram (blind_promote m _ _) hboth)
  rintro result w ⟨hmarked₂, ⟨_, hconcluded⟩, hfetched⟩
  refine ⟨hmarked.trans hmarked₂, fun hr => ?_⟩
  cases hr
  exact ⟨hdisk ▸ hconcluded, hfetched⟩

/-! ### Cleaning up -/

theorem Spread.discard_solo (h : Spread S r) {stage : PathBuf} (hclear : Clear S r stage)
    {n : Node String} {T : Tree} (hfetched : Fetched S r n s.disk)
    (hheld : s.disk.tree (S.lookup.locate (S.installDir r)) = T) :
    (Install.discard r.rounds stage).wp (solo S) free
      (fun _ w => Marked l g w ∧ Fetched S r n w.1.1.disk ∧
        w.1.1.disk.tree (S.lookup.locate (S.installDir r)) = T) ((s, l), g) := by
  rcases h with ⟨directory, installed, archived, displaced, hbelow, hi, ha, hd, _, _, _⟩
  have hapart : Disk.Apart (S.lookup.locate stage) (S.lookup.locate (S.installDir r)) := by
    refine ⟨hclear.installed, ?_⟩
    rw [hi]
    exact hclear.not_above hbelow (hi ▸ hclear.installed)
  have hremoves : ∀ d x, (Fetched S r n d ∧ d.tree (S.lookup.locate (S.installDir r)) = T) →
      S.lookup.locate stage <+: x →
        Fetched S r n (d.remove x) ∧ (d.remove x).tree (S.lookup.locate (S.installDir r)) = T := by
    rintro d x ⟨hfetched, hheld⟩ hx
    have hne : S.lookup.locate (S.archivePath r) ≠ x := fun heq => hclear.archived (heq ▸ hx)
    exact ⟨⟨(Disk.node_remove_ne hne).trans hfetched.1, hfetched.2⟩,
      (Disk.tree_remove_apart hapart hx).trans hheld⟩
  rw [Install.discard, Prog.wp_bind]
  refine Prog.wp_mono _ (fun _ _ hw => hw) _ (onThread_solo (R := fun _ d => Fetched S r n d ∧
    d.tree (S.lookup.locate (S.installDir r)) = T) rfl fun s₁ l₁ hdisk hmarked => ?_)
  have hkept := @removeDirAll_spec S.lookup (fun _ _ => .ok none) stage _ hremoves r.rounds s₁.disk
    (hdisk ▸ ⟨hfetched, hheld⟩)
  refine Prog.wp_mono _ (fun _ _ hw => ⟨hmarked.trans hw.1, hw.2⟩) _
    (wp_soloProgram (blind_removeDirAll _ _) (Prog.wp_weaken _ (fun _ _ _ _ => trivial) _ hkept))

/-- The archive is deleted, and the install directory is left alone. -/
theorem Spread.removeArchive_solo (h : Spread S r) {n : Node String} {T : Tree}
    (hfetched : Fetched S r n s.disk)
    (hheld : s.disk.tree (S.lookup.locate (S.installDir r)) = T) :
    (Install.removeArchive (S.archivePath r)).wp (solo S) free
      (fun _ w => Marked l g w ∧ w.1.1.disk.tree (S.lookup.locate (S.installDir r)) = T ∧
        w.1.1.disk.node (S.lookup.locate (S.archivePath r)) = none ∧
        ∀ i, n = .file i → w.1.1.disk.Unlinked i) ((s, l), g) := by
  rcases h with ⟨directory, installed, archived, displaced, _, hi, ha, _, hia, _, _⟩
  have hapart : Disk.Apart (S.lookup.locate (S.archivePath r))
      (S.lookup.locate (S.installDir r)) := by
    rw [hi, ha]
    exact Disk.apart_of_ne hia.symm
  rw [Install.removeArchive, Install.removeFile, Prog.wp_bind]
  refine Prog.wp_mono _ (fun _ _ hw => hw) _ (onThread_solo (R := fun _ d =>
    d.tree (S.lookup.locate (S.installDir r)) = T ∧
      d.node (S.lookup.locate (S.archivePath r)) = none ∧ ∀ i, n = .file i → d.Unlinked i) rfl
    fun s₁ l₁ hdisk hmarked => ?_)
  have hthere : s₁.disk.node (S.lookup.locate (S.archivePath r)) ≠ none ∧
      s₁.disk.node (S.lookup.locate (S.archivePath r)) ≠ some .dir := by
    rw [hdisk, hfetched.1]
    exact ⟨Option.some_ne_none _, fun heq => hfetched.2 (Option.some.inj heq)⟩
  refine wp_soloOp fun c b s' l' hgranted hr => ?_
  cases c with
  | failed reason =>
      -- This is what the file system does not do.
      exact absurd hthere (of_decide_eq_false hgranted)
  | pass =>
      simp only [InstallOp.respond, RunOp.respond] at hr
      rw [if_pos hthere] at hr
      cases hr
      refine ⟨hmarked, (Disk.tree_remove_apart hapart (List.prefix_refl _)).trans (hdisk ▸ hheld),
        Disk.node_remove_self, ?_⟩
      rintro i rfl
      exact Disk.unlinked_remove (hdisk ▸ hfetched.1)
  | _ => cases hr

/-- Unpacking and putting in place, once the request has been made. -/
theorem unpackAndPromote_solo (h : Spread S r) (hrequest : l.request = r) :
    (Install.unpackAndPromote S r r.distribution (S.archivePath r) (S.installDir r)).run.wp (solo S)
      free (fun result w => w.1.2.request = r ∧ (result = .ok () →
        ∃ stage d, w.1.2.stage = some stage ∧ w.2 = some d ∧ Landed S r stage d w.1.1.disk))
      ((s, l), g) := by
  rw [Install.unpackAndPromote, Prog.wp_run_mk, Prog.wp_bind]
  refine wp_soloRun ?_
  rintro stage s₁ l₁ ⟨⟨_, _, hinstalled, hdisplaced, harchived⟩, ⟨id, hnamed⟩, rfl, rfl⟩
  subst hrequest
  have hclear : Clear S l.request stage := ⟨⟨_, id, hnamed⟩, hinstalled, hdisplaced, harchived⟩
  rw [Prog.wp_bind]
  refine Prog.wp_mono _ ?_ _ (wp_quiet (quiet_discard _ _))
  rintro _ ⟨⟨s₂, l₂⟩, g₂⟩ hmarked₂
  rw [Prog.wp_bind]
  refine Prog.wp_mono _ ?_ _ (extract_solo harchived)
  rintro result ⟨⟨s₃, l₃⟩, g₃⟩ ⟨hmarked₃, hunpacked⟩
  replace hmarked₃ := hmarked₂.trans hmarked₃
  cases result with
  | error e =>
      dsimp only
      rw [Prog.wp_bind]
      refine Prog.wp_mono _ ?_ _ (wp_quiet (quiet_discard _ _))
      rintro _ ⟨⟨s₄, l₄⟩, g₄⟩ hmarked₄
      rw [Prog.wp_bind]
      refine Prog.wp_mono _ ?_ _ (wp_quiet (quiet_removeArchive _))
      exact fun _ w hmarked => ⟨((hmarked₃.trans hmarked₄).trans hmarked).1, fun h => by cases h⟩
  | ok path =>
      rcases hunpacked path rfl with ⟨⟨name, rfl, hname, hone⟩, n, hfetched⟩
      dsimp only
      rw [Prog.wp_bind]
      refine Prog.wp_mono _ ?_ _ (promote_solo h hclear hname hfetched)
      rintro result ⟨⟨s₄, l₄⟩, g₄⟩ ⟨hmarked₄, hpromoted⟩
      rw [Prog.wp_bind]
      cases result with
      | error e =>
          refine Prog.wp_mono _ ?_ _ (wp_quiet (quiet_discard _ _))
          rintro _ ⟨⟨s₅, l₅⟩, g₅⟩ hmarked₅
          rw [Prog.wp_bind]
          refine Prog.wp_mono _ ?_ _ (wp_quiet (quiet_removeArchive _))
          rintro _ ⟨⟨s₆, l₆⟩, g₆⟩ hmarked₆
          have hmarked := (hmarked₄.trans hmarked₅).trans hmarked₆
          exact ⟨hmarked.1.trans hmarked₃.1, fun h => by cases h⟩
      | ok u =>
          rcases hpromoted rfl with ⟨hheld, hfetched₄⟩
          refine Prog.wp_mono _ ?_ _ (h.discard_solo hclear hfetched₄ hheld)
          rintro _ ⟨⟨s₅, l₅⟩, g₅⟩ ⟨hmarked₅, hfetched₅, hheld₅⟩
          rw [Prog.wp_bind]
          refine Prog.wp_mono _ ?_ _ (h.removeArchive_solo hfetched₅ hheld₅)
          rintro _ ⟨⟨s₆, l₆⟩, g₆⟩ ⟨hmarked₆, hheld₆, hgone, hunlinked⟩
          have hmarked := (hmarked₄.trans hmarked₅).trans hmarked₆
          refine ⟨hmarked.1.trans hmarked₃.1, fun _ => ⟨stage, s₃.disk, ?_, hmarked.2.2, name, hone,
            hheld₆, hgone, fun i hi => hunlinked i ?_⟩⟩
          · exact hmarked.2.1.trans hmarked₃.2.1
          · exact Option.some.inj (hfetched.1.symm.trans hi)

/-- No effect changes what was asked for. -/
theorem wp_requested {p : Prog InstallOp α} :
    p.wp (solo S) free (fun _ w => w.1.2.request = l.request) ((s, l), g) := by
  let C : (Installing × Installation) × Option (Disk String) → Prop :=
    fun w => w.1.2.request = l.request
  refine Prog.wp_weaken _ (fun _ _ _ _ => trivial) _
    (Prog.wp_uses C ?_ p _ (Prog.uses_true p) rfl)
  rintro β op ⟨⟨s₁, l₁⟩, g₁⟩ c b w _ hrequest hr
  simp only [solo] at hr
  split at hr
  · cases hr
  · rcases Option.map_eq_some_iff.mp hr with ⟨⟨b', s₂, l₂⟩, hrespond, heq⟩
    cases heq
    exact (request_kept hrespond).1.trans hrequest

/-- A whole install. -/
theorem install_solo (h : Spread S r) :
    (Install.run S r).run.wp (solo S) free (fun result w => ∀ resolved, result = .ok resolved →
      ∀ d, w.2 = some d → ∃ stage, w.1.2.stage = some stage ∧ Landed S r stage d w.1.1.disk)
      ((s, .new r), none) := by
  have hfailed : ∀ (e : Error) (w : (Installing × Installation) × Option (Disk String)) resolved,
      (.error e : Except Error ResolvedRuntime) = .ok resolved → ∀ d, w.2 = some d →
        ∃ stage, w.1.2.stage = some stage ∧ Landed S r stage d w.1.1.disk :=
    fun _ _ _ he => by cases he
  rw [Install.run, Prog.wp_run_bind, Prog.wp_attempt]
  refine wp_soloRun ?_
  rintro selected s₁ l₁ ⟨rfl, rfl, rfl | ⟨e, rfl⟩⟩
  · dsimp only
    rw [Prog.wp_run_bind]
    refine Prog.wp_mono _ ?_ _ (wp_quiet (quiet_createDirs _))
    rintro made ⟨⟨s₂, l₂⟩, g₂⟩ hmarked₂
    cases made with
    | error e => exact hfailed e _
    | ok u =>
        dsimp only
        rw [Prog.wp_run_bind]
        refine Prog.wp_mono _ ?_ _ (wp_quiet (quiet_acquire _ _))
        rintro locked ⟨⟨s₃, l₃⟩, g₃⟩ hmarked₃
        replace hmarked₃ := hmarked₂.trans hmarked₃
        cases locked with
        | error e => exact hfailed e _
        | ok u =>
            dsimp only
            rw [Prog.wp_run_bind, Prog.wp_attempt]
            refine wp_soloStore ?_
            rintro provider d found ⟨rfl, _⟩
            rcases found with e | (_ | layout)
            case error => exact hfailed e _
            case ok.some =>
                -- The install that is there is used, and nothing was promoted.
                intro _ _ d hd
                cases hmarked₃.2.2.symm.trans hd
            case ok.none =>
                dsimp only
                rw [Prog.wp_run_bind]
                refine Prog.wp_mono _ ?_ _ wp_requested
                rintro fetched ⟨⟨s₄, l₄⟩, g₄⟩ hrequest
                cases fetched with
                | error e => exact hfailed e _
                | ok u =>
                    dsimp only
                    rw [Prog.wp_run_bind]
                    refine Prog.wp_mono _ ?_ _
                      (unpackAndPromote_solo h (hrequest.trans hmarked₃.1))
                    rintro promoted ⟨⟨s₅, l₅⟩, g₅⟩ ⟨_, hlanded⟩
                    cases promoted with
                    | error e => exact hfailed e _
                    | ok u =>
                        rcases hlanded rfl with ⟨stage, before, hstage, hbefore, hlanded⟩
                        dsimp only
                        rw [Prog.wp_run_bind, Prog.wp_attempt]
                        refine wp_soloStore ?_
                        rintro provider d answer ⟨rfl, _⟩
                        rcases answer with e | (_ | layout)
                        · exact hfailed e _
                        · exact hfailed _ _
                        · intro _ _ d hd
                          cases hbefore.symm.trans hd
                          exact ⟨stage, hstage, hlanded⟩
  · exact hfailed e _

end Walk

/-- After an install that promoted something, all of it is in place and the archive is gone. -/
theorem install_lands {S : Site} {r : InstallRequest} (h : Spread S r) {s s' : Installing}
    {l : Installation} {resolved : ResolvedRuntime} {before : Disk String}
    (hr : Prog.Reaches (solo S) (Install.run S r).run ((s, .new r), none) (.done (.ok resolved))
      ((s', l), some before)) :
    ∃ stage, l.stage = some stage ∧ Landed S r stage before s'.disk :=
  Prog.wp_reaches (install_solo h) hr resolved rfl before rfl

end TinyRuntime
