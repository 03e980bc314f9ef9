import TinyRuntime.Resolve.Landed

/-!
# An Archive in its Install Directory

An archive whose name ends in a directory is downloaded into the install directory. The
install is moved aside with the archive in it, and if the displaced install cannot be deleted,
the archive stays.

## Main definitions

* `Goes`: A program can get from one disk to another.
* `Laid`: The directories and files on a disk.
* `Nested`: The working paths of such an install.

## Theorems

* `createDirs_goes`, `fetch_goes`, `extract_goes`, `promote_goes`: The stages.
* `promoted_disk`: Where everything is in the end.
* `Nested.stays`: Such an install, to its end.
-/

namespace TinyRuntime

open Prog (act attempt)

/-- A program that starts with one disk can return a value and leave another one, with the
    threads, the locks and the request as they were. -/
def Goes {α : Type} (S : Site) (p : Prog InstallOp α) (d : Disk String) (a : α)
    (d' : Disk String) : Prop :=
  ∀ (s : Installing) (l : Installation) (g : Option (Disk String)), s.disk = d →
    s.busy < S.threads →
      ∃ (s' : Installing) (l' : Installation), Prog.Reaches (solo S) p ((s, l), g) (.done a)
        ((s', l'), g) ∧ s'.disk = d' ∧ s'.busy = s.busy ∧ s'.stages = s.stages ∧
          s'.locked = s.locked ∧ l'.request = l.request

section Steps

variable {S : Site} {s s' : Installing} {l l' : Installation} {g : Option (Disk String)}
  {d d₁ d₂ : Disk String} {α β : Type}

theorem solo_grants {op : InstallOp β} {c : InstallChoice} {b : β}
    (hgranted : op.refused S s.disk c = false) (h : op.respond S (s, l) c = some (b, s', l')) :
    (solo S).respond op ((s, l), g) c = some (b, (s', l'), op.noted s.disk g) := by
  simp only [solo, hgranted, h, Bool.false_eq_true, if_false, Option.map_some]

theorem store_answers {op : StoreOp β} {provider : Inspect} {c : StoreChoice} {b : β}
    (h : op.respond S.lookup provider s.disk c = some (b, d)) :
    InstallOp.respond S (.inr op) (s, l) (.store provider c) =
      some (b, { s with disk := d }, l.after S op b) := by
  simp only [InstallOp.respond, h, Option.map_some]

theorem Goes.run_bind {x : ExceptT Error (Prog InstallOp) α}
    {f : α → ExceptT Error (Prog InstallOp) β} {a : α} {b : Except Error β}
    (h : Goes S x.run d (.ok a) d₁) (h' : Goes S (f a).run d₁ b d₂) :
    Goes S (x >>= f).run d b d₂ := by
  intro s l g hd hbusy
  rcases h s l g hd hbusy with ⟨s₁, l₁, hrun, hd₁, hbusy₁, hstages₁, hlocked₁, hreq₁⟩
  rcases h' s₁ l₁ g hd₁ (hbusy₁ ▸ hbusy) with
    ⟨s₂, l₂, hrun₂, hd₂, hbusy₂, hstages₂, hlocked₂, hreq₂⟩
  exact ⟨s₂, l₂, hrun.run_bind hrun₂, hd₂, hbusy₂.trans hbusy₁, hstages₂.trans hstages₁,
    hlocked₂.trans hlocked₁, hreq₂.trans hreq₁⟩

theorem createDirs_goes {path : PathBuf} (h : Makes d (S.lookup.locate path)) :
    Goes S (Install.createDirs path).run d (.ok ()) (d.makeDirs (S.lookup.locate path)) := by
  rintro s l g rfl hbusy
  exact ⟨_, _, .perform (c := .pass) (solo_grants rfl (if_pos hbusy))
    (.perform (c := .store declines .pass) (solo_grants rfl (store_answers (if_pos h)))
      (.perform (c := .pass) (solo_grants rfl rfl) .refl)), rfl, rfl, rfl, rfl, rfl⟩

theorem createParent_goes {path parent : PathBuf} (hparent : path.parent = some parent)
    (h : Makes d (S.lookup.locate parent)) :
    Goes S (Install.createParent path).run d (.ok ()) (d.makeDirs (S.lookup.locate parent)) := by
  rw [Install.createParent, hparent]
  exact createDirs_goes h

/-- The lock file is made, and locked. -/
theorem takeLock_goes {language : Language} {path : PathBuf}
    (hfree : d.node (S.lookup.locate path) ≠ some .dir)
    (hdir : d.node (S.lookup.locate path).dropLast = some .dir) {s : Installing} {l : Installation}
    (hd : s.disk = d) (hbusy : s.busy < S.threads) (hlocked : s.locked = []) :
    ∃ (s' : Installing) (l' : Installation), Prog.Reaches (solo S)
      (Install.blocking language .takeLock (Install.takeLock language path)) ((s, l), g)
        (.done (.ok ())) ((s', l'), g) ∧ s'.disk = d.touch (S.lookup.locate path) ∧
          s'.busy = s.busy ∧ s'.stages = s.stages ∧ l'.request = l.request := by
  subst hd
  have hopens : ∀ l, (RunOp.openLock path).respond S { s with busy := s.busy + 1 } l .pass =
      some (.ok (), { s with
        busy := s.busy + 1
        disk := s.disk.touch (S.lookup.locate path) }, l) :=
    fun l => (if_pos hfree).trans (if_pos (.inr hdir))
  have hlocks : S.lookup.locate path ∉ s.locked := hlocked ▸ List.not_mem_nil
  exact ⟨_, _, .perform (c := .pass) (solo_grants rfl (if_pos hbusy))
    (.perform (c := .pass) (solo_grants rfl (hopens _))
      (.perform (c := .pass) (solo_grants rfl (if_pos hlocks))
        (.perform (c := .pass) (solo_grants rfl rfl) .refl))), rfl, rfl, rfl, rfl⟩

/-- An empty archive is downloaded, where nothing is. -/
theorem fetch_goes {target parent : PathBuf} (hparent : target.parent = some parent)
    (hmakes : Makes d (S.lookup.locate parent)) {dist : Distribution}
    (hsha : dist.expectedSha256 = none)
    (hfree : (d.makeDirs (S.lookup.locate parent)).node (S.lookup.locate target) = none)
    (hdir : (d.makeDirs (S.lookup.locate parent)).node (S.lookup.locate target).dropLast =
      some .dir) :
    Goes S (Install.fetch S { toolRequest with distribution := dist } dist target).run d (.ok ())
      ((d.makeDirs (S.lookup.locate parent)).create (S.lookup.locate target)).2 := by
  refine (createParent_goes hparent hmakes).run_bind ?_
  rintro s l g hd hbusy
  rw [← hd] at hfree hdir ⊢
  have hfollow : s.disk.follow (S.lookup.locate target) = S.lookup.locate target := by
    rw [Disk.follow, hfree]
  have hcreates : ∀ l, (RunOp.createFile target).respond S { s with
        downloads := s.downloads + 1
        busy := s.busy + 1 } l .pass =
      some (.ok (), { s with
          downloads := s.downloads + 1
          busy := s.busy + 1
          disk := (s.disk.create (S.lookup.locate target)).2 },
        { l with
          file := some ((s.disk.create (S.lookup.locate target)).1, 0)
          archived := true
          written := [] }) := by
    intro l
    simp only [RunOp.respond, hfollow]
    exact if_pos (.inr ⟨hfree, hdir⟩)
  have hverified : ∀ digest, Install.verified dist.expectedSha256 digest = true := by
    rw [hsha]
    exact fun _ => rfl
  simp only [hverified]
  exact ⟨_, _, .perform (c := .pass) (solo_grants rfl rfl)
    (.perform (c := .pass) (solo_grants rfl (if_pos hbusy))
      (.perform (c := .pass) (solo_grants rfl (hcreates _))
        (.perform (c := .pass) (solo_grants rfl rfl)
          (.perform (c := .pass) (solo_grants rfl rfl)
            (.perform (c := .pass) (solo_grants rfl rfl)
              (.perform (c := .pass) (solo_grants rfl rfl) .refl)))))), rfl, rfl, rfl, rfl, rfl⟩

/-- One directory is unpacked. -/
theorem extract_goes {archive staging : PathBuf} {dist : Distribution} {format : ArchiveFormat}
    {i : Nat} (hmakes : Makes d (toolSite.lookup.locate staging)) {p : List String}
    (hp : toolSite.lookup.locate staging = p)
    (harchive : (d.makeDirs p).node (toolSite.lookup.locate archive) = some (.file i))
    (hempty : d.data i = []) (hentry : Makes (d.makeDirs p) (p ++ ["tool"]))
    (hlisting : listing ((d.makeDirs p).makeDirs (p ++ ["tool"])) p = [("tool", true)]) :
    Goes toolSite (Install.extract toolSite { toolRequest with distribution := dist } archive
      staging format) d (.ok (staging ++ ["tool"])) ((d.makeDirs p).makeDirs (p ++ ["tool"])) := by
  subst hp
  rintro s l g rfl hbusy
  have hfollow : (s.disk.makeDirs (toolSite.lookup.locate staging)).follow
      (toolSite.lookup.locate archive) = toolSite.lookup.locate archive := by
    rw [Disk.follow, harchive]
  have hopens : ∀ l, (RunOp.openArchive archive).respond toolSite { s with
        busy := s.busy + 1
        disk := s.disk.makeDirs (toolSite.lookup.locate staging) } l .pass =
      some (.ok (), { s with
          busy := s.busy + 1
          disk := s.disk.makeDirs (toolSite.lookup.locate staging) },
        { l with reading := some (i, 0), read := [] }) := by
    intro l
    simp only [RunOp.respond, hfollow, harchive]
  have hreads : ((s.disk.makeDirs (toolSite.lookup.locate staging)).data i).drop 0 = [] := hempty
  have hlists : ∀ l, InstallOp.respond toolSite (.inr (.readDir staging)) ({ s with
        busy := s.busy + 1
        disk := (s.disk.makeDirs (toolSite.lookup.locate staging)).makeDirs
          (toolSite.lookup.locate staging ++ ["tool"]) }, l) (.store declines .pass) =
      some (.ok [("tool", true)], { s with
        busy := s.busy + 1
        disk := (s.disk.makeDirs (toolSite.lookup.locate staging)).makeDirs
          (toolSite.lookup.locate staging ++ ["tool"]) }, l) := by
    intro l
    simp only [InstallOp.respond, StoreOp.respond, hlisting, Option.map_some]
    rfl
  exact ⟨_, _, .perform (c := .pass) (solo_grants rfl (if_pos hbusy))
    (.perform (c := .store declines .pass) (solo_grants rfl (store_answers (if_pos hmakes)))
      (.perform (c := .pass) (solo_grants rfl (hopens _))
        (.perform (c := .accepted 0) (solo_grants rfl (if_pos hreads))
          (.perform (c := .pass) (solo_grants rfl (if_pos hentry))
            (.perform (c := .store declines .pass) (solo_grants rfl (hlists _))
              (.perform (c := .pass) (solo_grants rfl rfl) .refl)))))), rfl, rfl, rfl, rfl, rfl⟩

/-- A deletion that fails at once. -/
theorem discard_goes {path : PathBuf} {removals : Nat} :
    Goes S (Install.discard (removals + 1) path) d () d := by
  rintro s l g rfl hbusy
  exact ⟨_, _, .perform (c := .pass) (solo_grants rfl (if_pos hbusy))
    (.perform (c := .store declines (.failed "")) (solo_grants rfl (store_answers rfl))
      (.perform (c := .pass) (solo_grants rfl rfl) .refl)), rfl, rfl, rfl, rfl, rfl⟩

/-- There is no archive to delete. -/
theorem removeArchive_goes {path : PathBuf} (hgone : d.node (S.lookup.locate path) = none) :
    Goes S (Install.removeArchive path) d () d := by
  rintro s l g rfl hbusy
  have hgranted : ∀ s' : Installing, s'.disk = s.disk →
      @InstallOp.refused _ S (.inl (.removeFile path)) s'.disk (.failed "") = false := by
    intro s' hs'
    refine decide_eq_false fun h => h.1 ?_
    rw [hs']
    exact hgone
  exact ⟨_, _, .perform (c := .pass) (solo_grants rfl (if_pos hbusy))
    (.perform (c := .failed "") (solo_grants (hgranted _ rfl) rfl)
      (.perform (c := .pass) (solo_grants rfl rfl) .refl)), rfl, rfl, rfl, rfl, rfl⟩

/-- The install directory is moved aside, the new one is put in its place, and what was
    displaced is not deleted. -/
theorem promote_goes {dist : Distribution} {staged destination parent : PathBuf}
    (hparent : destination.parent = some parent) (hmakes : Makes d (S.lookup.locate parent))
    {p q t : List String} (hp : S.lookup.locate destination = p)
    (hq : S.lookup.locate (asideOf destination toolRequest.process) = q)
    (ht : S.lookup.locate staged = t) (hd₁ : d.makeDirs (S.lookup.locate parent) = d₁)
    (hthere : d₁.node p ≠ none) (hpq : p ≠ q) (htp : t ≠ p) (haside : d₁.Renames p q)
    (hlands : (d₁.rename p q).Renames t p) {s : Installing} {l : Installation}
    (hd : s.disk = d) (hbusy : s.busy < S.threads) :
    ∃ (s' : Installing) (l' : Installation), Prog.Reaches (solo S)
      (Install.promote { toolRequest with distribution := dist } staged destination) ((s, l), g)
        (.done (.ok ())) ((s', l'), some d) ∧ s'.disk = (d₁.rename p q).rename t p ∧
          s'.busy = s.busy ∧ s'.stages = s.stages ∧ l'.request = l.request := by
  subst hp hq ht hd₁ hd
  simp only [Install.promote, Promotion.promoteBlocking, Promotion.createParent, hparent]
  exact ⟨_, _, .perform (c := .pass) (solo_grants rfl (if_pos hbusy))
    (.perform (c := .store declines .pass) (solo_grants rfl (store_answers (if_pos hmakes)))
      (.perform (c := .store declines .pass) (solo_grants rfl (store_answers (if_pos hthere)))
        (.perform (c := .store declines (.failed "")) (solo_grants rfl (store_answers rfl))
          (.perform (c := .store declines .pass)
            (solo_grants rfl (store_answers ((if_neg hpq).trans (if_pos haside))))
            (.perform (c := .store declines .pass)
              (solo_grants rfl (store_answers ((if_neg htp).trans (if_pos hlands))))
              (.perform (c := .store declines (.failed "")) (solo_grants rfl (store_answers rfl))
                (.perform (c := .pass) (solo_grants rfl rfl) .refl))))))), rfl, rfl, rfl, rfl⟩

end Steps

/-! ## What is on the disk -/

/-- The directories on the disk are those down to some paths, and there are some files. -/
structure Laid (dirs files : List (List String)) (d : Disk String) : Prop where
  made : ∀ t ∈ dirs, ∀ x, x <+: t → d.node x = some .dir
  only : ∀ x, d.node x ≠ none → (∃ t ∈ dirs, x <+: t) ∨ x ∈ files

namespace Laid

variable {dirs files : List (List String)} {d : Disk String} {p x : List String}

theorem start (p : List String) : Laid [p] [] (Disk.empty.makeDirs p) := by
  have hnode : ∀ x, ((Disk.empty : Disk String).makeDirs p).node x =
      if x <+: p then some .dir else none := by
    intro x
    simp only [Disk.makeDirs, Disk.empty, true_and]
  refine ⟨fun t ht x hx => ?_, fun x hx => ?_⟩
  · rw [hnode, if_pos (List.mem_singleton.mp ht ▸ hx)]
  · rw [hnode] at hx
    split at hx
    · exact .inl ⟨p, List.mem_singleton_self p, ‹_›⟩
    · exact absurd rfl hx

theorem free (h : Laid dirs files d) (hdirs : ∀ t ∈ dirs, ¬ x <+: t) (hfiles : x ∉ files) :
    d.node x = none := by
  by_contra hne
  rcases h.only x hne with ⟨t, ht, hx⟩ | hx
  · exact hdirs t ht hx
  · exact hfiles hx

/-- Whatever is on the way is a directory. -/
theorem dir_or_none (h : Laid dirs files d) (hfiles : x ∉ files) :
    d.node x = none ∨ d.node x = some .dir := by
  by_cases hx : d.node x = none
  · exact .inl hx
  · rcases h.only x hx with ⟨t, ht, hpre⟩ | hmem
    · exact .inr (h.made t ht x hpre)
    · exact absurd hmem hfiles

theorem makes (h : Laid dirs files d) (hfiles : ∀ f ∈ files, ¬ f <+: p) : Makes d p :=
  fun x hx => h.dir_or_none fun hmem => hfiles x hmem ((List.mem_inits _ _).mp hx)

theorem makeDirs (h : Laid dirs files d) (hfiles : ∀ f ∈ files, ¬ f <+: p) :
    Laid (p :: dirs) files (d.makeDirs p) := by
  refine ⟨fun t ht x hx => ?_, fun x hx => ?_⟩
  · rcases List.mem_cons.mp ht with rfl | ht
    · rcases h.dir_or_none fun hmem => hfiles x hmem hx with hnone | hdir
      · exact if_pos ⟨hnone, hx⟩
      · exact (Disk.node_makeDirs_ne (hdir ▸ Option.some_ne_none _)).trans hdir
    · have hdir := h.made t ht x hx
      exact (Disk.node_makeDirs_ne (hdir ▸ Option.some_ne_none _)).trans hdir
  · simp only [Disk.makeDirs] at hx
    split at hx
    · rename_i hnew
      exact .inl ⟨p, List.mem_cons_self .., hnew.2⟩
    · rcases h.only x hx with ⟨t, ht, hpre⟩ | hmem
      · exact .inl ⟨t, List.mem_cons_of_mem _ ht, hpre⟩
      · exact .inr hmem

/-- A file where nothing is. -/
theorem file {d' : Disk String} (h : Laid dirs files d) (hdirs : ∀ t ∈ dirs, ¬ p <+: t)
    (hnode : ∀ x, x ≠ p → d'.node x = d.node x) : Laid dirs (p :: files) d' := by
  refine ⟨fun t ht x hx => ?_, fun x hx => ?_⟩
  · rw [hnode x fun heq => hdirs t ht (heq ▸ hx)]
    exact h.made t ht x hx
  · by_cases hp : x = p
    · exact .inr (hp ▸ List.mem_cons_self ..)
    · rw [hnode x hp] at hx
      exact (h.only x hx).imp id (List.mem_cons_of_mem _)

end Laid

/-- A directory with one directory in it. -/
theorem listing_single {d : Disk String} {p : List String} {name : String} (hname : name ≠ "..")
    (hdir : d.node (p ++ [name]) = some .dir)
    (honly : ∀ other, d.node (p ++ [other]) ≠ none → other = name) :
    listing d p = [(name, true)] := by
  have hnames : ∀ names : List String, name ∈ names →
      (names.filter fun other => other ≠ ".." ∧ d.node (p ++ [other]) ≠ none).dedup = [name] := by
    intro names hmem
    have hnode : d.node (p ++ [name]) ≠ none := hdir ▸ Option.some_ne_none _
    have hkept : name ∈ names.filter fun other => other ≠ ".." ∧ d.node (p ++ [other]) ≠ none :=
      List.mem_filter.mpr ⟨hmem, decide_eq_true ⟨hname, hnode⟩⟩
    have hall : ∀ other ∈ names.filter fun other => other ≠ ".." ∧ d.node (p ++ [other]) ≠ none,
        other = name := fun other hother =>
      honly other (of_decide_eq_true (List.mem_filter.mp hother).2).2
    rw [List.eq_replicate_of_mem hall]
    exact List.replicate_dedup fun hlen =>
      List.not_mem_nil (List.eq_nil_of_length_eq_zero hlen ▸ hkept)
  have hnode : d.node (p ++ [name]) ≠ none := hdir ▸ Option.some_ne_none _
  have hthere : p ++ [name] ∈ d.paths.filter fun x => x.dropLast = p :=
    List.mem_filter.mpr ⟨d.listed _ hnode, decide_eq_true List.dropLast_concat⟩
  rw [listing, hnames _ (List.mem_filterMap.mpr ⟨_, hthere, List.getLast?_concat⟩),
    List.map_singleton, hdir]
  rfl

/-- A staging directory with a name that is not in use. -/
theorem fresh_name (names : List String) (process : Nat) :
    ∃ id, stagingName process id ∉ names := by
  have hlong : ∃ n, ∀ x ∈ names, x.length ≤ n := by
    induction names with
    | nil => exact ⟨0, fun _ hx => absurd hx List.not_mem_nil⟩
    | cons name names ih =>
        rcases ih with ⟨n, hn⟩
        refine ⟨max name.length n, fun x hx => ?_⟩
        rcases List.mem_cons.mp hx with rfl | hx
        · exact Nat.le_max_left _ _
        · exact (hn x hx).trans (Nat.le_max_right _ _)
  rcases hlong with ⟨n, hn⟩
  refine ⟨String.ofList (List.replicate n 'a'), fun hmem => ?_⟩
  have hle := hn _ hmem
  have hpre : STAGING_PREFIX.length = 7 := rfl
  simp only [stagingName, String.length_append, hpre, String.length_ofList,
    List.length_replicate] at hle
  omega

/-! ## A whole install -/

/-- The working paths of an install into `/cache`, with the archive in the install
    directory. -/
structure Nested (r : InstallRequest) (front : PathBuf) (last lock displaced file : String) :
    Prop where
  installed : toolSite.installDir r = "cache" :: front ++ [last]
  locked : lockPathOf (toolSite.installDir r) = "cache" :: front ++ [lock]
  moved : toolSite.aside r = "cache" :: front ++ [displaced]
  archived : toolSite.archivePath r = "cache" :: front ++ [last] ++ [file]
  lock_ne : lock ≠ last
  displaced_ne : displaced ≠ last
  other_ne : displaced ≠ lock

section Names

variable {r : InstallRequest} {front : PathBuf} {last lock displaced file name : String}

/-- The staging directory is apart from a name in another directory. -/
theorem stage_apart {x : String} (h : name ∉ front ++ [x]) :
    Disk.Apart ["cache", name] ("cache" :: front ++ [x]) := by
  cases front with
  | nil => exact Disk.apart_of_ne (p := ["cache"]) fun heq => h (heq ▸ List.mem_singleton_self _)
  | cons f front =>
      have hne : name ≠ f := fun heq => h (heq ▸ List.mem_cons_self ..)
      refine ⟨fun hpre => ?_, fun hpre => ?_⟩
      · exact hne (List.cons_prefix_cons.mp (List.cons_prefix_cons.mp hpre).2).1
      · exact hne (List.cons_prefix_cons.mp (List.cons_prefix_cons.mp hpre).2).1.symm

/-- The directories, before anything is downloaded. -/
def cacheDisk (front : PathBuf) (last : String) : Disk String :=
  ((Disk.empty.makeDirs ("cache" :: front ++ [last])).makeDirs ["cache"]).makeDirs
    ("cache" :: front)

/-- With the lock and the archive. -/
def fetchedDisk (front : PathBuf) (last lock file : String) : Nat × Disk String :=
  (((cacheDisk front last).touch ("cache" :: front ++ [lock])).makeDirs
    ("cache" :: front ++ [last])).create ("cache" :: front ++ [last] ++ [file])

/-- With what was unpacked. -/
def unpackedDisk (d : Disk String) (name : String) : Disk String :=
  (d.makeDirs ["cache", name]).makeDirs (["cache", name] ++ ["tool"])

/-- A path that is longer by a name is not on the way. -/
theorem not_prefix_longer (directory : List String) (x : String) :
    ¬ directory ++ [x] <+: directory := by
  intro hpre
  have hle := hpre.length_le
  rw [List.length_append, List.length_singleton] at hle
  omega

theorem laid_cache (front : PathBuf) (last : String) :
    Laid ["cache" :: front, ["cache"], "cache" :: front ++ [last]] [] (cacheDisk front last) :=
  ((Laid.start _).makeDirs fun _ hf => absurd hf List.not_mem_nil).makeDirs
    fun _ hf => absurd hf List.not_mem_nil

/-- Every directory is on the way to the install directory. -/
theorem cached_above : ∀ t ∈ ["cache" :: front ++ [last], "cache" :: front, ["cache"],
    "cache" :: front ++ [last]], t <+: "cache" :: front ++ [last] := by
  intro t ht
  simp only [List.mem_cons, List.not_mem_nil, or_false] at ht
  rcases ht with rfl | rfl | rfl | rfl
  · exact List.prefix_refl _
  · exact List.prefix_append _ _
  · exact List.prefix_append ["cache"] (front ++ [last])
  · exact List.prefix_refl _

/-- The directories are there still, and there are two files. -/
theorem laid_fetched (hlock : lock ≠ last) :
    (cacheDisk front last).node ("cache" :: front ++ [lock]) = none ∧
      Makes ((cacheDisk front last).touch ("cache" :: front ++ [lock]))
        ("cache" :: front ++ [last]) ∧
      (((cacheDisk front last).touch ("cache" :: front ++ [lock])).makeDirs
        ("cache" :: front ++ [last])).node ("cache" :: front ++ [last]) = some .dir ∧
      (((cacheDisk front last).touch ("cache" :: front ++ [lock])).makeDirs
        ("cache" :: front ++ [last])).node ("cache" :: front ++ [last] ++ [file]) = none ∧
      Laid ["cache" :: front ++ [last], "cache" :: front, ["cache"], "cache" :: front ++ [last]]
        ["cache" :: front ++ [last] ++ [file], "cache" :: front ++ [lock]]
        (fetchedDisk front last lock file).2 := by
  have hlocked : ¬ "cache" :: front ++ [lock] <+: "cache" :: front ++ [last] :=
    (Disk.apart_of_ne hlock).1
  have hcached : ∀ t ∈ ["cache" :: front, ["cache"], "cache" :: front ++ [last]],
      ¬ "cache" :: front ++ [lock] <+: t := fun t ht hpre =>
    hlocked (hpre.trans (cached_above t (List.mem_cons_of_mem _ ht)))
  have hnone := (laid_cache front last).free hcached List.not_mem_nil
  have htouched : Laid ["cache" :: front, ["cache"], "cache" :: front ++ [last]]
      ["cache" :: front ++ [lock]]
      ((cacheDisk front last).touch ("cache" :: front ++ [lock])) := by
    refine (laid_cache front last).file hcached fun x hx => ?_
    rw [Disk.touch, if_pos hnone, Disk.node_link_ne hx]
  have hclear : ∀ f ∈ ["cache" :: front ++ [lock]], ¬ f <+: "cache" :: front ++ [last] :=
    fun f hf => List.mem_singleton.mp hf ▸ hlocked
  have hmade := htouched.makeDirs hclear
  have harchived : ∀ t ∈ ["cache" :: front ++ [last], "cache" :: front, ["cache"],
      "cache" :: front ++ [last]], ¬ "cache" :: front ++ [last] ++ [file] <+: t := by
    exact fun t ht hpre => not_prefix_longer _ _ (hpre.trans (cached_above t ht))
  refine ⟨hnone, htouched.makes hclear, hmade.made _ (List.mem_cons_self ..) _ (List.prefix_refl _),
    hmade.free harchived fun hmem => ?_, hmade.file harchived fun x hx => ?_⟩
  · have hlen := congrArg List.length (List.mem_singleton.mp hmem)
    simp only [List.length_append, List.length_singleton] at hlen
    omega
  · exact Disk.node_create hx

/-- What is unpacked is apart from the other paths. -/
theorem laid_unpacked {dirs files : List (List String)} {d : Disk String}
    (h : Laid dirs files d) (hfiles : ∀ f ∈ files, ¬ f <+: ["cache", name, "tool"])  :
    Makes d ["cache", name] ∧ Makes (d.makeDirs ["cache", name]) ["cache", name, "tool"] ∧
      Laid (["cache", name, "tool"] :: ["cache", name] :: dirs) files (unpackedDisk d name) := by
  have hstage : ∀ f ∈ files, ¬ f <+: ["cache", name] := fun f hf hpre =>
    hfiles f hf (hpre.trans (List.prefix_append ["cache", name] ["tool"]))
  exact ⟨h.makes hstage, (h.makeDirs hstage).makes hfiles, (h.makeDirs hstage).makeDirs hfiles⟩

/-- The promotion takes the archive along with the install. -/
theorem promoted_disk {d : Disk String}
    (h : Laid ["cache" :: front, ["cache", name, "tool"], ["cache", name],
      "cache" :: front ++ [last], "cache" :: front, ["cache"], "cache" :: front ++ [last]]
      ["cache" :: front ++ [last] ++ [file], "cache" :: front ++ [lock]] d)
    (hdisplaced : displaced ≠ last) (hother : displaced ≠ lock)
    (hlast : name ∉ front ++ [last]) (hlock : name ∉ front ++ [lock])
    (haside : name ∉ front ++ [displaced]) {p q t : List String}
    (hp : "cache" :: front ++ [last] = p) (hq : "cache" :: front ++ [displaced] = q)
    (ht : ["cache", name, "tool"] = t) :
    d.Renames p q ∧ (d.rename p q).Renames t p ∧
      ((d.rename p q).rename t p).node (p ++ [file]) = none ∧
      ((d.rename p q).rename t p).node (q ++ [file]) = d.node (p ++ [file]) := by
  have hpq : Disk.Apart p q := hp ▸ hq ▸ Disk.apart_of_ne hdisplaced.symm
  have hsp : Disk.Apart ["cache", name] p := hp ▸ stage_apart hlast
  have hsq : Disk.Apart ["cache", name] q := hq ▸ stage_apart haside
  have hstage : ["cache", name] <+: t := ht ▸ List.prefix_append ["cache", name] ["tool"]
  have hthere : ∀ x, x <+: p → d.node x = some .dir :=
    h.made p (hp ▸ by simp only [List.mem_cons, true_or, or_true])
  have htop : ∀ x, ¬ x <+: p → ¬ x <+: t → ∀ u ∈ ["cache" :: front, ["cache", name, "tool"],
      ["cache", name], "cache" :: front ++ [last], "cache" :: front, ["cache"],
      "cache" :: front ++ [last]], ¬ x <+: u := by
    intro x hxp hxt u hu hpre
    have hcached := @cached_above front last
    rw [hp] at hcached
    simp only [List.mem_cons, List.not_mem_nil, or_false] at hu hcached
    rcases hu with rfl | rfl | rfl | hu
    · exact hxp (hpre.trans (hcached _ (.inr (.inl rfl))))
    · exact hxt (ht ▸ hpre)
    · exact hxt (hpre.trans hstage)
    · exact hxp (hpre.trans (hcached u (hp ▸ hu)))
  have hpup : p.dropLast = "cache" :: front := by rw [← hp, List.dropLast_concat]
  have hqup : q.dropLast = "cache" :: front := by rw [← hq, List.dropLast_concat]
  have hdir : d.node ("cache" :: front) = some .dir :=
    hthere _ (hp ▸ List.prefix_append _ _)
  have hqnone : d.node q = none := by
    refine h.free (htop q hpq.2 (ht ▸ hsq.symm.not_prefix ["tool"])) fun hmem => ?_
    rcases List.mem_cons.mp hmem with heq | hmem
    · exact hpq.1 (heq ▸ hp ▸ List.prefix_append _ _)
    · exact hother (List.singleton_inj.mp (List.append_cancel_left
        (hq.trans (List.mem_singleton.mp hmem))))
  have htdir : d.node t = some .dir :=
    h.made t (ht ▸ List.mem_cons_of_mem _ (List.mem_cons_self ..)) t (List.prefix_refl t)
  have hfree : d.node (t ++ [file]) = none := by
    have hlong : ¬ t ++ [file] <+: t := not_prefix_longer _ _
    have hout : ¬ t ++ [file] <+: p := fun hpre =>
      hsp.1 (hstage.trans ((List.prefix_append _ _).trans hpre))
    refine h.free (htop _ hout hlong) fun hmem => ?_
    rcases List.mem_cons.mp hmem with heq | hmem
    · exact hsp.not_prefix [file] (hp ▸ heq ▸ hstage.trans (List.prefix_append _ _))
    · exact (stage_apart hlock).1
        (List.mem_singleton.mp hmem ▸ hstage.trans (List.prefix_append _ _))
  have hqt : ∀ rest, ¬ q <+: t ++ rest := fun rest => by
    rw [← ht]
    exact hsq.symm.not_prefix ("tool" :: rest)
  have hpt : ∀ rest, ¬ p <+: t ++ rest := fun rest => by
    rw [← ht]
    exact hsp.symm.not_prefix ("tool" :: rest)
  have hmoved : ∀ rest, (d.rename p q).node (t ++ rest) = d.node (t ++ rest) := fun rest =>
    Disk.node_rename_of_not (hpt rest) (hqt rest)
  refine ⟨⟨?_, hpq.1, hqup ▸ hdir, .inl hqnone⟩, ⟨?_, ?_, ?_, .inl (Disk.node_rename_self hpq)⟩,
    ?_, ?_⟩
  · exact hthere p (List.prefix_refl p) ▸ Option.some_ne_none _
  · have hkept := hmoved []
    rw [List.append_nil, htdir] at hkept
    exact hkept ▸ Option.some_ne_none _
  · exact fun hpre => hsp.1 (hstage.trans hpre)
  · rw [hpup]
    exact (Disk.node_rename_of_not (hp ▸ not_prefix_longer _ _) (hq ▸ not_prefix_longer _ _)).trans
      hdir
  · refine (if_pos (List.prefix_append p [file])).trans ?_
    rw [List.drop_left]
    exact (hmoved [file]).trans hfree
  · have hout : ¬ t <+: q ++ [file] := fun hpre => hsq.not_prefix [file] (hstage.trans hpre)
    refine (Disk.node_rename_of_not hout (hpq.not_prefix [file])).trans ?_
    refine (if_pos (List.prefix_append q [file])).trans ?_
    rw [List.drop_left]

end Names

/-- A provider that accepts every directory. -/
def accepts : Inspect := fun _ _ => .ok (some { version := "1", binDir := "", executables := [] })

section Run

variable {front : PathBuf} {last lock displaced file : String} {dist : Distribution}

theorem parent_concat (directory : PathBuf) (name : String) :
    (directory ++ [name]).parent = some directory := by
  rw [PathBuf.parent, if_neg (List.append_ne_nil_of_right_ne_nil _ (List.cons_ne_nil _ _)),
    List.dropLast_concat]

/-- What an install does after its download. -/
def afterFetch (S : Site) (r : InstallRequest) :
    ExceptT Error (Prog InstallOp) ResolvedRuntime := do
  Install.unpackAndPromote S r r.distribution (S.archivePath r) (S.installDir r)
  match ← attempt (.inr (.layout (S.installDir r))) with
  | some layout => pure (managed r.language (S.installDir r) layout)
  | none => throw (.emptyInstall r.language)

/-- Up to the download. -/
theorem Nested.fetches
    (h : Nested { toolRequest with distribution := dist } front last lock displaced file)
    (hsha : dist.expectedSha256 = none) :
    ∃ (s₀ s : Installing) (l : Installation), s.disk = (fetchedDisk front last lock file).2 ∧
      s.busy = 0 ∧ s.stages = [] ∧ l.request = { toolRequest with distribution := dist } ∧
      ∀ q t, Prog.Reaches (solo toolSite)
          (afterFetch toolSite { toolRequest with distribution := dist }).run ((s, l), none) q t →
        Prog.Reaches (solo toolSite)
          (Install.run toolSite { toolRequest with distribution := dist }).run
          ((s₀, .new { toolRequest with distribution := dist }), none) q t := by
  let r : InstallRequest := { toolRequest with distribution := dist }
  let s₀ : Installing :=
    { emptyInstalling with disk := Disk.empty.makeDirs ("cache" :: front ++ [last]) }
  have hroot : toolSite.cacheRoot r = ["cache"] :=
    (by decide : toolSite.cacheRoot toolRequest = ["cache"])
  rcases @laid_fetched front last lock file h.lock_ne with
    ⟨hlock, hmade, hinstall, harchive, _⟩
  have hselect : Prog.Reaches (solo toolSite)
      (attempt (.inl .selectDistribution) : ExceptT Error (Prog InstallOp) Distribution).run
      ((s₀, .new r), none) (.done (.ok dist)) ((s₀, .new r), none) :=
    .perform (c := .pass) (solo_grants rfl rfl) .refl
  have hstart : Laid ["cache" :: front ++ [last]] [] s₀.disk := Laid.start _
  have hclean : ∀ {p : List String}, ∀ f ∈ ([] : List (List String)), ¬ f <+: p :=
    fun f hf => absurd hf List.not_mem_nil
  have hmakes : Makes s₀.disk (toolSite.lookup.locate (toolSite.cacheRoot r)) := by
    rw [hroot]
    exact hstart.makes hclean
  rcases createDirs_goes hmakes s₀ (.new r) none rfl (by decide : 0 < 2) with
    ⟨s₁, l₁, hensure, hd₁, hbusy₁, hstages₁, hlocked₁, hreq₁⟩
  rw [hroot] at hd₁
  -- The lock.
  have hmakes₁ : Makes s₁.disk ("cache" :: front) :=
    hd₁ ▸ (hstart.makeDirs hclean).makes hclean
  have hparent : (lockPathOf (toolSite.installDir r)).parent = some ("cache" :: front) := by
    rw [h.locked]
    exact parent_concat _ _
  have hthreads : ∀ {n m : Nat}, n = m → m = 0 → n < toolSite.threads := by
    rintro _ _ rfl rfl
    exact (by decide : 0 < 2)
  rcases @createParent_goes toolSite _ _ _ hparent hmakes₁ s₁ l₁ none rfl (hthreads hbusy₁ rfl)
    with ⟨s₂, l₂, habove, hd₂, hbusy₂, hstages₂, hlocked₂, hreq₂⟩
  replace hd₂ : s₂.disk = cacheDisk front last := hd₂.trans (hd₁ ▸ rfl)
  have hplace : toolSite.lookup.locate (lockPathOf (toolSite.installDir r)) =
      "cache" :: front ++ [lock] := h.locked
  have hfree : s₂.disk.node (toolSite.lookup.locate (lockPathOf (toolSite.installDir r))) ≠
      some .dir := by
    rw [hplace, hd₂, hlock]
    exact nofun
  have hdir : s₂.disk.node
      (toolSite.lookup.locate (lockPathOf (toolSite.installDir r))).dropLast = some .dir := by
    rw [hplace, hd₂, List.dropLast_concat]
    exact (laid_cache front last).made _ (List.mem_cons_self ..) _ (List.prefix_refl _)
  rcases @takeLock_goes toolSite none _ r.language _ hfree hdir s₂ l₂ rfl
    (hthreads (hbusy₂.trans hbusy₁) rfl) (hlocked₂.trans hlocked₁) with
    ⟨s₃, l₃, htake, hd₃, hbusy₃, hstages₃, hreq₃⟩
  rw [hplace, hd₂] at hd₃
  have hacquire : Prog.Reaches (solo toolSite)
      (Install.acquire r.language (toolSite.installDir r)).run ((s₁, l₁), none) (.done (.ok ()))
      ((s₃, l₃), none) :=
    habove.run_bind (f := fun _ => ExceptT.mk (Install.blocking r.language .takeLock
      (Install.takeLock r.language (lockPathOf (toolSite.installDir r))))) htake
  have hlayout : Prog.Reaches (solo toolSite)
      (attempt (.inr (.layout (toolSite.installDir r))) :
        ExceptT Error (Prog InstallOp) (Option RuntimeLayout)).run ((s₃, l₃), none)
      (.done (.ok none)) ((s₃, l₃.after toolSite (.layout (toolSite.installDir r)) (.ok none)),
        none) :=
    .perform (c := .store declines .pass) (solo_grants rfl (store_answers rfl)) .refl
  -- The download.
  have hat : toolSite.lookup.locate (toolSite.archivePath r) =
      "cache" :: front ++ [last] ++ [file] := h.archived
  have hparent₃ : (toolSite.archivePath r).parent = some ("cache" :: front ++ [last]) := by
    rw [h.archived]
    exact parent_concat _ _
  rcases @fetch_goes toolSite _ _ _ hparent₃ (hd₃ ▸ hmade) dist hsha
    (by rw [hat, hd₃]; exact harchive)
    (by rw [hat, hd₃, List.dropLast_concat]; exact hinstall) s₃
    (l₃.after toolSite (.layout (toolSite.installDir r)) (.ok none)) none rfl
    (hthreads (hbusy₃.trans (hbusy₂.trans hbusy₁)) rfl) with
    ⟨s₄, l₄, hfetch, hd₄, hbusy₄, hstages₄, _, hreq₄⟩
  refine ⟨s₀, s₄, l₄, ?_, ?_, ?_, ?_, fun q t hq => ?_⟩
  · rw [hd₄, hat, hd₃]
    rfl
  · exact hbusy₄.trans (hbusy₃.trans (hbusy₂.trans hbusy₁))
  · exact hstages₄.trans (hstages₃.trans (hstages₂.trans hstages₁))
  · exact hreq₄.trans (hreq₃.trans (hreq₂.trans hreq₁))
  · exact hselect.run_bind (hensure.run_bind (hacquire.run_bind (hlayout.run_bind
      (hfetch.run_bind hq))))

/-- The rest of it. -/
theorem Nested.settles
    (h : Nested { toolRequest with distribution := dist } front last lock displaced file)
    {s : Installing} {l : Installation} (hd : s.disk = (fetchedDisk front last lock file).2)
    (hbusy : s.busy = 0) (hstages : s.stages = [])
    (hrequest : l.request = { toolRequest with distribution := dist }) :
    ∃ (s' : Installing) (l' : Installation) (resolved : ResolvedRuntime) (before : Disk String)
      (i : Nat),
      Prog.Reaches (solo toolSite)
        (afterFetch toolSite { toolRequest with distribution := dist }).run ((s, l), none)
        (.done (.ok resolved)) ((s', l'), some before) ∧
      before.node (toolSite.lookup.locate
        (toolSite.archivePath { toolRequest with distribution := dist })) = some (.file i) ∧
      ¬ s'.disk.Unlinked i := by
  let r : InstallRequest := { toolRequest with distribution := dist }
  rcases fresh_name (front ++ [last, lock, displaced]) 7 with ⟨id, hfresh⟩
  generalize hname : stagingName 7 id = name at hfresh
  have hlast : name ∉ front ++ [last] := fun hmem => hfresh (by grind)
  have hlock : name ∉ front ++ [lock] := fun hmem => hfresh (by grind)
  have haside : name ∉ front ++ [displaced] := fun hmem => hfresh (by grind)
  rcases @laid_fetched front last lock file h.lock_ne with ⟨_, _, _, harchive, hlaid⟩
  rw [← hd] at hlaid
  have hfile : s.disk.node ("cache" :: front ++ [last] ++ [file]) =
      some (.file (fetchedDisk front last lock file).1) := hd ▸ Disk.node_create_self
  have hempty : s.disk.data (fetchedDisk front last lock file).1 = [] :=
    hd ▸ Disk.data_create_self
  -- The staging directory is named.
  have hroot : toolSite.cacheRoot r = ["cache"] :=
    (by decide : toolSite.cacheRoot toolRequest = ["cache"])
  have hunused : Unused toolSite l.request s ["cache", name] := by
    rw [hrequest]
    refine ⟨hstages ▸ List.not_mem_nil, fun x _ hx => ?_, ?_, ?_, ?_⟩
    · refine hlaid.free (fun t ht hpre => ?_) fun hmem => ?_
      · exact (stage_apart hlast).1 (hx.trans (hpre.trans (cached_above t ht)))
      · rcases List.mem_cons.mp hmem with rfl | hmem
        · exact Disk.Apart.not_prefix (stage_apart hlast) [file] hx
        · exact (stage_apart hlock).1 (List.mem_singleton.mp hmem ▸ hx)
    · exact h.installed ▸ (stage_apart hlast).1
    · exact h.moved ▸ (stage_apart haside).1
    · exact h.archived ▸ Disk.Apart.not_prefix (stage_apart hlast) [file]
  have hpath : toolSite.cacheRoot r ++ [stagingName l.request.process id] = ["cache", name] := by
    rw [hroot, hrequest]
    exact congrArg (fun n => ["cache", n]) hname
  have hstaged : (RunOp.stagingDir (toolSite.cacheRoot r)).respond toolSite s l (.fresh id) =
      some (["cache", name], { s with stages := ["cache", name] :: s.stages },
        { l with stage := some ["cache", name] }) := by
    simp only [RunOp.respond, hpath]
    exact if_pos hunused
  have hstaging : Prog.Reaches (solo toolSite)
      (Prog.op (.inl (.stagingDir (toolSite.cacheRoot r))) : Prog InstallOp PathBuf)
      ((s, l), none) (.done ["cache", name])
      (({ s with stages := ["cache", name] :: s.stages },
        { l with stage := some ["cache", name] }), none) :=
    .perform (c := .fresh id) (solo_grants rfl hstaged) .refl
  have hthreads : ∀ {n m : Nat}, n = m → m = 0 → n < toolSite.threads := by
    rintro _ _ rfl rfl
    exact (by decide : 0 < 2)
  rcases @discard_goes toolSite s.disk ["cache", name] 0 { s with
      stages := ["cache", name] :: s.stages } { l with stage := some ["cache", name] } none rfl
    (hthreads hbusy rfl) with ⟨s₁, l₁, hdiscard, hd₁, hbusy₁, _⟩
  -- The archive is unpacked.
  have hclear : ∀ f ∈ ["cache" :: front ++ [last] ++ [file], "cache" :: front ++ [lock]],
      ¬ f <+: ["cache", name, "tool"] := by
    intro f hf hpre
    rcases List.mem_cons.mp hf with rfl | hf
    · exact Disk.Apart.not_prefix (stage_apart hlast).symm ["tool"]
        ((List.prefix_append _ _).trans hpre)
    · exact Disk.Apart.not_prefix (stage_apart hlock).symm ["tool"]
        (List.mem_singleton.mp hf ▸ hpre)
  rcases laid_unpacked hlaid hclear with ⟨hmakes, hentry, hunpacked⟩
  have hkept : ∀ p q : List String, ((s.disk.makeDirs p).makeDirs q).node
      ("cache" :: front ++ [last] ++ [file]) =
        some (.file (fetchedDisk front last lock file).1) := fun p q =>
    Disk.node_makeDirs_file (Disk.node_makeDirs_file hfile)
  have hlisting : listing (unpackedDisk s.disk name) ["cache", name] = [("tool", true)] := by
    refine listing_single (by decide)
      (hunpacked.made _ (List.mem_cons_self ..) _ (List.prefix_refl _)) fun other hother => ?_
    have hbelow : ["cache", name] <+: ["cache", name] ++ [other] := List.prefix_append _ _
    rcases hunpacked.only _ hother with ⟨t, ht, hpre⟩ | hmem
    · rcases List.mem_cons.mp ht with rfl | ht
      · have heq := hpre.eq_of_length rfl
        exact (List.cons.inj (List.cons.inj (List.cons.inj heq).2).2).1
      · rcases List.mem_cons.mp ht with rfl | ht
        · exact absurd hpre (not_prefix_longer ["cache", name] other)
        · exact absurd (hbelow.trans (hpre.trans (cached_above t ht))) (stage_apart hlast).1
    · rcases List.mem_cons.mp hmem with heq | hmem
      · exact absurd (heq ▸ hbelow) (Disk.Apart.not_prefix (stage_apart hlast) [file])
      · exact absurd (List.mem_singleton.mp hmem ▸ hbelow) (stage_apart hlock).1
  rcases @extract_goes s.disk (toolSite.archivePath r) ["cache", name] dist dist.format _ hmakes _
    rfl (h.archived ▸ Disk.node_makeDirs_file hfile) hempty hentry hlisting s₁ l₁ none hd₁
    (hthreads hbusy₁ hbusy) with ⟨s₂, l₂, hextract, hd₂, hbusy₂, _⟩
  -- It is put in place.
  have hup : ∀ f ∈ ["cache" :: front ++ [last] ++ [file], "cache" :: front ++ [lock]],
      ¬ f <+: "cache" :: front := by
    intro f hf hpre
    rcases List.mem_cons.mp hf with rfl | hf
    · exact not_prefix_longer _ _ ((List.prefix_append _ _).trans hpre)
    · exact not_prefix_longer _ _ (List.mem_singleton.mp hf ▸ hpre)
  have hready := hunpacked.makeDirs hup
  rcases promoted_disk hready h.displaced_ne h.other_ne hlast hlock haside rfl rfl rfl with
    ⟨hdisplaces, hlands, hgone, hcopy⟩
  have hparent : (toolSite.installDir r).parent = some ("cache" :: front) := by
    rw [h.installed]
    exact parent_concat _ _
  have hthere : ((unpackedDisk s.disk name).makeDirs ("cache" :: front)).node
      ("cache" :: front ++ [last]) ≠ none := hdisplaces.1
  have hpq : "cache" :: front ++ [last] ≠ "cache" :: front ++ [displaced] := fun heq =>
    h.displaced_ne (List.singleton_inj.mp (List.append_cancel_left heq)).symm
  have htp : ["cache", name, "tool"] ≠ "cache" :: front ++ [last] := fun heq =>
    (stage_apart hlast).1 (heq ▸ List.prefix_append ["cache", name] ["tool"])
  rcases @promote_goes toolSite none _ _ dist ["cache", name, "tool"] _ _ hparent
    (hunpacked.makes hup) _ _ _ h.installed h.moved rfl rfl hthere hpq htp hdisplaces hlands s₂ l₂
    hd₂ (hthreads (hbusy₂.trans hbusy₁) hbusy) with ⟨s₃, l₃, hpromote, hd₃, hbusy₃, _⟩
  have hbusy₃ := hbusy₃.trans (hbusy₂.trans hbusy₁)
  rcases @discard_goes toolSite _ ["cache", name] 0 s₃ l₃ (some (unpackedDisk s.disk name)) hd₃
    (hthreads hbusy₃ hbusy) with ⟨s₄, l₄, hagain, hd₄, hbusy₄, _⟩
  have hat : toolSite.lookup.locate (toolSite.archivePath r) =
      "cache" :: front ++ [last] ++ [file] := h.archived
  rcases @removeArchive_goes toolSite _ (toolSite.archivePath r) (hat ▸ hgone) s₄ l₄
    (some (unpackedDisk s.disk name)) hd₄ (hthreads (hbusy₄.trans hbusy₃) hbusy) with
    ⟨s₅, l₅, hremove, hd₅, _⟩
  have hunpack : Prog.Reaches (solo toolSite)
      (Install.unpackAndPromote toolSite r dist (toolSite.archivePath r)
        (toolSite.installDir r)).run ((s, l), none) (.done (.ok ()))
      ((s₅, l₅), some (unpackedDisk s.disk name)) :=
    hstaging.bind (hdiscard.bind (hextract.bind (hpromote.bind (hagain.bind
      (hremove.bind .refl)))))
  have hlayout : Prog.Reaches (solo toolSite)
      (attempt (.inr (.layout (toolSite.installDir r))) :
        ExceptT Error (Prog InstallOp) (Option RuntimeLayout)).run
      ((s₅, l₅), some (unpackedDisk s.disk name)) (.done (accepts [] fun _ => none))
      ((s₅, l₅.after toolSite (.layout (toolSite.installDir r)) (accepts [] fun _ => none)),
        some (unpackedDisk s.disk name)) :=
    .perform (c := .store accepts .pass) (solo_grants rfl (store_answers rfl)) .refl
  refine ⟨s₅, _, _, unpackedDisk s.disk name, _, hunpack.run_bind (hlayout.run_bind .refl),
    hat ▸ hkept _ _, fun hunlinked => ?_⟩
  rw [hd₅] at hunlinked
  exact hunlinked _ (hcopy.trans (Disk.node_makeDirs_file (hkept _ _)))

/-- An install to its end: what was displaced still has the archive in it. -/
theorem Nested.stays
    (h : Nested { toolRequest with distribution := dist } front last lock displaced file)
    (hsha : dist.expectedSha256 = none) :
    ∃ (s s' : Installing) (l : Installation) (resolved : ResolvedRuntime) (before : Disk String)
      (i : Nat),
      Prog.Reaches (solo toolSite)
        (Install.run toolSite { toolRequest with distribution := dist }).run
        ((s, .new { toolRequest with distribution := dist }), none) (.done (.ok resolved))
        ((s', l), some before) ∧
      before.node (toolSite.lookup.locate
        (toolSite.archivePath { toolRequest with distribution := dist })) = some (.file i) ∧
      ¬ s'.disk.Unlinked i := by
  rcases h.fetches hsha with ⟨s, s₁, l₁, hd, hbusy, hstages, hrequest, hrun⟩
  rcases h.settles hd hbusy hstages hrequest with ⟨s', l, resolved, before, i, hrest, hfile, hkept⟩
  exact ⟨s, s', l, resolved, before, i, hrun _ _ hrest, hfile, hkept⟩

end Run

end TinyRuntime
