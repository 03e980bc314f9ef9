import TinyRuntime.Resolve.Reuse
import TinyRuntime.Lib.Version
import Mathlib.Data.Finset.Max

/-!
# The Newest Install First

The scan of a root whose toolchains are named by their versions.

The scan offers the directories by their names, the greatest name first. A name is
compared character by character, so the newest version is offered first only if its
text is the greatest one. It is when the numbers that decide have equally many digits;
next to `9`, the newer `10` is taken only when nothing else is there.

## Main definitions

* `still`: The calls of a scan while nothing else happens.
* `versioned`: The name of a version.
* `Versioned`: A root whose toolchains are named by versions, all of them accepted.

## Theorems

* `scan_greatest`: The scan returns the directory with the greatest name.
* `scan_newest_iff`: When it returns the newest version.
* `older_reused`: A newer version that is not found.
-/

namespace TinyRuntime

/-- The calls of the scan, all of them answered and nothing changed in between. -/
def still (L : Lookup) (inspect : Inspect) : Handler StoreOp (Disk String) Unit where
  respond op d _ := op.respond L inspect d .pass

/-- The name of a version's directory. -/
def versioned (before after : String) (v : Version) : String :=
  before ++ String.ofList v.text ++ after

/-- The directories the scan looks at are those of the versions, each of them accepted by
    the provider. Whatever else is in the root is staging or no directory. -/
structure Versioned (L : Lookup) (inspect : Inspect) (root : PathBuf) (before after : String)
    (vs : List Version) (d : Disk String) : Prop where
  named : ∀ name, name ≠ ".." → d.node (L.locate root ++ [name]) = some .dir →
    isStaging (root ++ [name]) = false → ∃ v ∈ vs, name = versioned before after v
  numbered : ∀ v ∈ vs, v ≠ []
  ordinary : ∀ v ∈ vs, versioned before after v ≠ ".."
  finished : ∀ v ∈ vs, isStaging (root ++ [versioned before after v]) = false
  there : ∀ v ∈ vs, d.node (L.locate root ++ [versioned before after v]) = some .dir
  accepted : ∀ v ∈ vs, ∃ layout, inspect (root ++ [versioned before after v])
    (d.tree (L.locate (root ++ [versioned before after v]))) = .ok (some layout)

/-! ## The greatest name -/

section Greatest

variable {L : Lookup} {inspect : Inspect} {root : PathBuf} {language : Language} {d : Disk String}

/-- A directory of the root is inside it. -/
theorem keepInside_still (candidates : List PathBuf)
    (h : ∀ p ∈ candidates, ∃ name, name ≠ ".." ∧ p = root ++ [name] ∧
      d.node (L.locate root ++ [name]) = some .dir) :
    (keepInside root candidates).eval (still L inspect) d = some (candidates, d) := by
  induction candidates with
  | nil => rfl
  | cons p rest ih =>
      rcases h p List.mem_cons_self with ⟨name, hname, rfl, hdir⟩
      have hlocate := L.join root name hname
      have hinside : L.locate root <+: L.locate (root ++ [name]) :=
        hlocate ▸ List.prefix_append _ _
      have hop : (Prog.op (.isInside root (root ++ [name]))).eval (still L inspect) d =
          some (true, d) := by
        show ((StoreOp.isInside root (root ++ [name])).respond L inspect d .pass).bind _ = _
        simp only [StoreOp.respond, hlocate, hdir]
        rw [← hlocate, decide_eq_true hinside]
        rfl
      rw [keepInside, Prog.eval_bind, hop, Option.bind_some, Prog.eval_bind,
        ih fun q hq => h q (List.mem_cons_of_mem _ hq)]
      rfl

/-- The first candidate is returned when it is accepted. -/
theorem firstAccepted_head {p : PathBuf} {rest : List PathBuf} {layout : RuntimeLayout}
    (h : inspect p (d.tree (L.locate p)) = .ok (some layout)) :
    (firstAccepted language (p :: rest)).eval (still L inspect) d =
      some (some (managed language p layout), d) := by
  have hop : (Prog.op (.layout p)).eval (still L inspect) d = some (.ok (some layout), d) := by
    rw [← h]
    rfl
  rw [firstAccepted, Prog.eval_bind, hop]
  rfl

/-- What the scan lists. -/
theorem dir_of_mem_listing {e : String × Bool} {p : List String} (h : e ∈ listing d p)
    (hdir : e.2 = true) : d.node (p ++ [e.1]) = some .dir := by
  rcases List.mem_map.mp h with ⟨name, _, rfl⟩
  exact of_decide_eq_true hdir

theorem descending_head {candidates : List PathBuf} {p : PathBuf} (hp : p ∈ candidates)
    (hgreatest : ∀ q ∈ candidates, q ≤ p) : ∃ rest, descending candidates = p :: rest := by
  have hmem : ∀ q, q ∈ descending candidates ↔ q ∈ candidates :=
    fun q => (List.perm_insertionSort _ _).mem_iff
  have hsorted : (descending candidates).Pairwise (· ≥ ·) :=
    List.pairwise_insertionSort (· ≥ ·) candidates
  cases hlist : descending candidates with
  | nil =>
      have := (hmem p).mpr hp
      rw [hlist] at this
      cases this
  | cons q rest =>
      rw [hlist] at hmem hsorted
      have hqp : q ≤ p := hgreatest q ((hmem q).mp List.mem_cons_self)
      have hpq : p ≤ q := by
        rcases List.mem_cons.mp ((hmem p).mpr hp) with rfl | hrest
        · exact le_refl _
        · exact (List.pairwise_cons.mp hsorted).1 p hrest
      rw [le_antisymm hpq hqp]
      exact ⟨rest, rfl⟩

/-- The directory with the greatest name is the one returned, in whatever order the root
    is listed. -/
theorem scan_greatest {name : String} {layout : RuntimeLayout} (hname : name ≠ "..")
    (hdir : d.node (L.locate root ++ [name]) = some .dir)
    (hfinished : isStaging (root ++ [name]) = false)
    (hgreatest : ∀ other, other ≠ ".." → d.node (L.locate root ++ [other]) = some .dir →
      isStaging (root ++ [other]) = false → other ≤ name)
    (haccepted : inspect (root ++ [name]) (d.tree (L.locate (root ++ [name]))) =
      .ok (some layout)) :
    (scan root language).eval (still L inspect) d =
      some (some (managed language (root ++ [name]) layout), d) := by
  set directories := ((listing d (L.locate root)).filter fun e => e.2).map fun e => root ++ [e.1]
    with hdirectories
  set candidates := directories.filter fun p => !isStaging p with hcandidates
  have hmem : ∀ p ∈ candidates, ∃ other, other ≠ ".." ∧ p = root ++ [other] ∧
      d.node (L.locate root ++ [other]) = some .dir ∧ isStaging (root ++ [other]) = false := by
    intro p hp
    rcases List.mem_filter.mp hp with ⟨hp, hstaging⟩
    rcases List.mem_map.mp hp with ⟨e, he, rfl⟩
    rcases List.mem_filter.mp he with ⟨he, hkind⟩
    refine ⟨e.1, name_of_mem_listing he, rfl, dir_of_mem_listing he hkind, ?_⟩
    exact Bool.not_eq_true' _ ▸ hstaging
  have hthere : root ++ [name] ∈ candidates := by
    refine List.mem_filter.mpr ⟨List.mem_map.mpr ⟨(name, true), ?_, rfl⟩, ?_⟩
    · exact List.mem_filter.mpr ⟨mem_listing hname hdir, rfl⟩
    · rw [hfinished]
      rfl
  have hgreater : ∀ p ∈ candidates, p ≤ root ++ [name] := by
    intro p hp
    rcases hmem p hp with ⟨other, hother, rfl, hnode, hstaging⟩
    refine not_lt.mp fun hlt => ?_
    rw [List.append_left_lt_iff, List.cons_lt_cons_iff] at hlt
    rcases hlt with hlt | ⟨_, hlt⟩
    · exact absurd hlt (not_lt.mpr (hgreatest other hother hnode hstaging))
    · exact absurd hlt (List.lt_irrefl _)
  rcases descending_head hthere hgreater with ⟨rest, hsorted⟩
  have hkept : (keepInside root candidates).eval (still L inspect) d = some (candidates, d) :=
    keepInside_still candidates fun p hp => by
      rcases hmem p hp with ⟨other, hother, hpath, hnode, _⟩
      exact ⟨other, hother, hpath, hnode⟩
  have hread : (Prog.op (.readDir root)).eval (still L inspect) d =
      some (.ok (listing d (L.locate root)), d) := rfl
  rw [scan, Prog.eval_bind, hread, Option.bind_some]
  show ((keepInside root candidates >>= fun candidates =>
    firstAccepted language (descending candidates)).eval (still L inspect) d) = _
  rw [Prog.eval_bind, hkept, Option.bind_some, hsorted]
  exact firstAccepted_head haccepted

end Greatest

/-! ## Two versions -/

/-- A root with two directories in it. -/
def pairDisk (first second : String) : Disk String :=
  (Disk.empty.makeDirs ["cache", first]).makeDirs ["cache", second]

theorem node_pairDisk (first second name : String) :
    (pairDisk first second).node ["cache", name] =
      if name = first ∨ name = second then some .dir else none := by
  simp only [pairDisk, Disk.makeDirs, Disk.empty, List.cons_prefix_cons, List.prefix_nil,
    true_and, and_true]
  by_cases hfirst : name = first
  · simp [hfirst]
  · by_cases hsecond : name = second
    · simp [hsecond]
    · simp [hfirst, hsecond]

theorem toList_v (v : Version) : (versioned "v" "" v).toList = 'v' :: v.text := by
  simp only [versioned, String.toList_append, String.toList_ofList]
  exact List.append_nil _

theorem ordinary_v (v : Version) : versioned "v" "" v ≠ ".." := by
  intro h
  have hlist := congrArg String.toList h
  rw [toList_v] at hlist
  exact absurd (List.cons.inj hlist).1 (by decide)

theorem finished_v (v : Version) : isStaging (["cache"] ++ [versioned "v" "" v]) = false := by
  have hfile :
      PathBuf.fileName (["cache"] ++ [versioned "v" "" v]) = some (versioned "v" "" v) := by
    show (if versioned "v" "" v = ".." then none else some (versioned "v" "" v)) = _
    exact if_neg (ordinary_v v)
  rw [isStaging, hfile]
  show STAGING_PREFIX.toList.isPrefixOf (versioned "v" "" v).toList = false
  rw [toList_v]
  rfl

theorem there_pair {v w u : Version} (hu : u ∈ [v, w]) :
    (pairDisk (versioned "v" "" v) (versioned "v" "" w)).node ["cache", versioned "v" "" u] =
      some .dir := by
  rw [node_pairDisk]
  refine if_pos ?_
  rcases List.mem_cons.mp hu with rfl | hu
  · exact .inl rfl
  · exact .inr (by rw [List.mem_singleton.mp hu])

theorem versioned_pair {v w : Version} (hv : v ≠ []) (hw : w ≠ []) :
    Versioned plainLookup acceptDirs ["cache"] "v" "" [v, w]
      (pairDisk (versioned "v" "" v) (versioned "v" "" w)) where
  named := by
    intro name _ hdir _
    change (pairDisk _ _).node ["cache", name] = _ at hdir
    rw [node_pairDisk] at hdir
    split at hdir
    · rename_i hname
      rcases hname with hname | hname
      · exact ⟨v, List.mem_cons_self, hname⟩
      · exact ⟨w, List.mem_cons_of_mem _ List.mem_cons_self, hname⟩
    · cases hdir
  numbered := by
    simp only [List.forall_mem_cons, List.not_mem_nil, false_imp_iff, implies_true, and_true]
    exact ⟨hv, hw⟩
  ordinary u _ := ordinary_v u
  finished u _ := finished_v u
  there _ hu := there_pair hu
  accepted := by
    intro u hu
    refine ⟨{ version := "1", binDir := "bin", executables := [] }, ?_⟩
    refine congrArg Except.ok (if_pos ?_)
    rw [Disk.tree_nil]
    show (pairDisk _ _).entry ["cache", versioned "v" "" u] = _
    rw [Disk.entry, there_pair hu]
    rfl

/-! ## The newest version -/

theorem versioned_lt_iff {before after : String} {v w : Version} (hw : w ≠ []) (hlt : w < v) :
    versioned before after w < versioned before after v ↔ Version.Shown after.toList v w := by
  rw [← Version.text_lt_iff after.toList hw hlt, String.lt_iff_toList_lt]
  simp only [versioned, String.toList_append, String.toList_ofList, List.append_assoc]
  rw [List.append_left_lt_iff]

theorem versioned_injective {before after : String} {v w : Version} (hv : v ≠ []) (hw : w ≠ [])
    (h : versioned before after v = versioned before after w) : v = w := by
  have hlist := congrArg String.toList h
  simp only [versioned, String.toList_append, String.toList_ofList] at hlist
  exact Version.text_injective hv hw (List.append_cancel_left (List.append_cancel_right hlist))

/-- A path in the root is recognised by its text. -/
theorem display_injective {root : PathBuf} {name other : String}
    (h : PathBuf.display (root ++ [name]) = PathBuf.display (root ++ [other])) : name = other := by
  have hlist := congrArg String.toList h
  simp only [PathBuf.display, String.toList_append] at hlist
  have hpath := List.append_cancel_left hlist
  cases root with
  | nil =>
      rw [List.nil_append, List.nil_append, String.intercalate_singleton,
        String.intercalate_singleton] at hpath
      exact String.toList_inj.mp hpath
  | cons x xs =>
      have hroot : x :: xs ≠ [] := List.cons_ne_nil x xs
      rw [String.intercalate_append_of_ne_nil hroot (List.cons_ne_nil _ _),
        String.intercalate_append_of_ne_nil hroot (List.cons_ne_nil _ _),
        String.intercalate_singleton, String.intercalate_singleton] at hpath
      simp only [String.toList_append] at hpath
      exact String.toList_inj.mp (List.append_cancel_left hpath)

/-- A resolution tells which directory of the root was taken. -/
theorem managed_injective {language : Language} {root : PathBuf} {name other : String}
    {layout layout' : RuntimeLayout}
    (h : managed language (root ++ [name]) layout = managed language (root ++ [other]) layout') :
    name = other :=
  display_injective (Option.some.inj (congrArg ResolvedRuntime.installDir h))

section Newest

variable {L : Lookup} {inspect : Inspect} {root : PathBuf} {d : Disk String}
  {before after : String} {vs : List Version}

/-- One of the versions has the greatest name, and the scan returns it. -/
theorem scan_versioned (language : Language)
    (hd : Versioned L inspect root before after vs d) {v : Version} (hv : v ∈ vs) (hgreatest : ∀ w ∈ vs, versioned before after w ≤ versioned before after v) :
    ∃ layout, (scan root language).eval (still L inspect) d =
      some (some (managed language (root ++ [versioned before after v]) layout), d) := by
  rcases hd.accepted v hv with ⟨layout, haccepted⟩
  refine ⟨layout, ?_⟩
  refine scan_greatest (hd.ordinary v hv) (hd.there v hv) (hd.finished v hv) ?_ haccepted
  intro other hother hdir hstaging
  rcases hd.named other hother hdir hstaging with ⟨w, hw, rfl⟩
  exact hgreatest w hw

/-- The scan returns the newest version just when its name is the greatest: against every
    other version, the first digits of the number that decides are the greater ones. -/
theorem scan_newest_iff (L : Lookup) (inspect : Inspect) (root : PathBuf) (language : Language)
    (before after : String) (vs : List Version) (d : Disk String)
    (hd : Versioned L inspect root before after vs d) (v : Version) (hv : v ∈ vs)
    (hnewest : ∀ w ∈ vs, w ≤ v) :
    (∃ layout, (scan root language).eval (still L inspect) d =
      some (some (managed language (root ++ [versioned before after v]) layout), d)) ↔
      ∀ w ∈ vs, w ≠ v → Version.Shown after.toList v w := by
  constructor
  · rintro ⟨layout, hscan⟩ w hw hne
    have hlt : w < v := lt_of_le_of_ne (hnewest w hw) hne
    rw [← @versioned_lt_iff before after v w (hd.numbered w hw) hlt]
    -- What was returned is the greatest name, so this one is smaller.
    rcases Finset.exists_max_image vs.toFinset (versioned before after)
      ⟨v, List.mem_toFinset.mpr hv⟩ with ⟨u, hu, hgreatest⟩
    have hu := List.mem_toFinset.mp hu
    rcases scan_versioned language hd hu
      fun w hw => hgreatest w (List.mem_toFinset.mpr hw) with ⟨layout', hscan'⟩
    have hsame := (Prod.mk.inj (Option.some.inj (hscan.symm.trans hscan'))).1
    have hvu := versioned_injective (hd.numbered v hv) (hd.numbered u hu)
      (managed_injective (Option.some.inj hsame))
    subst hvu
    refine lt_of_le_of_ne (hgreatest w (List.mem_toFinset.mpr hw)) fun heq => hne ?_
    exact versioned_injective (hd.numbered w hw) (hd.numbered v hv) heq
  · intro hshown
    refine scan_versioned language hd hv fun w hw => ?_
    by_cases hwv : w = v
    · rw [hwv]
    · have hlt := lt_of_le_of_ne (hnewest w hw) hwv
      exact le_of_lt ((versioned_lt_iff (hd.numbered w hw) hlt).mpr (hshown w hw hwv))

end Newest

/-- `2.0` is taken before `1.9`. -/
theorem scan_newest_iff_two : ∃ layout,
    (scan ["cache"] (Language.new "python")).eval (still plainLookup acceptDirs)
      (pairDisk (versioned "v" "" [2, 0]) (versioned "v" "" [1, 9])) =
        some (some (managed (Language.new "python")
          (["cache"] ++ [versioned "v" "" [2, 0]]) layout),
          pairDisk (versioned "v" "" [2, 0]) (versioned "v" "" [1, 9])) :=
  (scan_newest_iff plainLookup acceptDirs ["cache"] (Language.new "python") "v" ""
    [[2, 0], [1, 9]] _ (versioned_pair (by decide) (by decide)) [2, 0] (by decide)
    (by decide)).mpr (by decide)

/-- `10` is there, and `9` is taken. -/
theorem older_reused :
    Versioned plainLookup acceptDirs ["cache"] "v" "" [[9], [10]]
      (pairDisk (versioned "v" "" [9]) (versioned "v" "" [10])) ∧
    (∀ w ∈ [[9], [10]], w ≤ ([10] : Version)) ∧
    ¬ ∃ layout, (scan ["cache"] (Language.new "python")).eval (still plainLookup acceptDirs)
      (pairDisk (versioned "v" "" [9]) (versioned "v" "" [10])) =
        some (some (managed (Language.new "python")
          (["cache"] ++ [versioned "v" "" [10]]) layout),
          pairDisk (versioned "v" "" [9]) (versioned "v" "" [10])) := by
  have hd := @versioned_pair [9] [10] (by decide) (by decide)
  refine ⟨hd, by decide, ?_⟩
  rintro ⟨layout, hscan⟩
  rcases scan_versioned (Language.new "python") hd (v := [9]) (by decide) (by decide) with ⟨layout', hscan'⟩
  have hsame := (Prod.mk.inj (Option.some.inj (hscan.symm.trans hscan'))).1
  have hname := managed_injective (Option.some.inj hsame)
  exact absurd (versioned_injective (by decide) (by decide) hname) (by decide)

end TinyRuntime
