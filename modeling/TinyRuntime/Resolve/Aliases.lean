import TinyRuntime.Resolve.Nested

/-!
# The Names of an Install

The archive, the install directory, its lock and the path it is moved aside to are all
named after the archive, by `Distribution::new` and by giving a name another extension.

They are different paths only for some archive names. One without the extension of its
format is the name of the install directory as well, one that starts with the root directory
leaves the cache root, one that goes up may lead anywhere, and an extension may be that of a
lock already. Nothing refuses such a name.

## Main definitions

* `Distribution.new`, `stripSuffix`: The code.
* `Site.places`: The working paths of an install.
* `Distribution.Unaliased`: What the names of a distribution have to give.
* `ArchiveFormat.Names`: The archive names that give it.

## Theorems

* `components_extended`: The components of a text and of the text with an extension.
* `ArchiveFormat.Names.spread`: Where the working paths are.
-/

namespace TinyRuntime

open Prog (act attempt)

/-! ## Distributions -/

/-- The conventional file extension for a format, without a leading dot. -/
def ArchiveFormat.extension : ArchiveFormat → String
  | .tarGz => "tar.gz"
  | .tarXz => "tar.xz"
  | .zip => "zip"

/-- `str::strip_suffix`. -/
def stripSuffix (text ending : String) : Option String :=
  if ending.toList <:+ text.toList then
    some (String.ofList (text.toList.take (text.toList.length - ending.toList.length)))
  else none

theorem stripSuffix_iff {text ending stem : String} :
    stripSuffix text ending = some stem ↔ text = stem ++ ending := by
  unfold stripSuffix
  constructor
  · intro h
    split at h
    · rename_i hends
      rcases hends with ⟨before, hbefore⟩
      cases h
      rw [← hbefore, List.length_append, Nat.add_sub_cancel, List.take_left, ← String.toList_inj,
        String.toList_append, String.toList_ofList, hbefore]
    · cases h
  · rintro rfl
    rw [String.toList_append, if_pos (List.suffix_append _ _), List.length_append,
      Nat.add_sub_cancel, List.take_left, String.ofList_toList]

/-- A distribution descriptor with no extra headers. -/
def Distribution.new (version archiveName url : String) (format : ArchiveFormat) : Distribution :=
  { version := version
    archiveName := archiveName
    url := url
    expectedSha256 := none
    format := format
    installDirName := (stripSuffix archiveName ("." ++ format.extension)).getD archiveName
    headers := [] }

/-- The cache root, and the paths an install works with. -/
def Site.places (S : Site) (r : InstallRequest) : List (List String) :=
  [S.lookup.locate (S.cacheRoot r), S.lookup.locate (S.installDir r),
    S.lookup.locate (S.archivePath r), S.lockAt r, S.lookup.locate (S.aside r)]

/-- What the names of a distribution give: an install directory with a name, working paths
    that are pairwise different and none of them the root, and after an install that promoted
    something, all of it in place and the archive gone. -/
structure Distribution.Unaliased (dist : Distribution) : Prop where
  named : dist.installDirName ≠ ""
  apart : ∀ (S : Site) (r : InstallRequest), r.distribution = dist → (S.places r).Nodup
  lands : ∀ (S : Site) (r : InstallRequest), r.distribution = dist →
    ∀ (s s' : Installing) (l : Installation) (resolved : ResolvedRuntime) (before : Disk String),
      Prog.Reaches (solo S) (Install.run S r).run ((s, .new r), none) (.done (.ok resolved))
        ((s', l), some before) →
      ∃ stage, l.stage = some stage ∧ Landed S r stage before s'.disk

/-! ## Archive names -/

/-- What is after the last `/` of a text. -/
def baseName (text : String) : String :=
  String.ofList ((text.toList.splitOn '/').getLastD [])

/-- A name that neither a lock nor an aside path has. -/
def Unclaimed (base : String) : Prop :=
  base ≠ PathBuf.fileStem base ++ "." ++ "lock" ∧
    ∀ process : Nat, base ≠ PathBuf.fileStem base ++ "." ++ ("replaced-" ++ toString process)

/-- A name for an archive of this format: with its extension, and before that a relative path
    without `..` whose last component is a name of its own. -/
def ArchiveFormat.Names (format : ArchiveFormat) (name : String) : Prop :=
  ∃ stem, stripSuffix name ("." ++ format.extension) = some stem ∧
    stem.toList.head? ≠ some '/' ∧ ".." ∉ PathBuf.components stem ∧
      baseName stem ≠ "" ∧ baseName stem ≠ "." ∧ Unclaimed (baseName stem)

section Paths

variable {L : Lookup} {root : PathBuf} {stem ending : String}

/-- The components of a text, and of the text with an extension. -/
theorem components_extended (hclean : '/' ∉ ending.toList) (hlong : 1 < ending.length) :
    ∃ before, PathBuf.components stem =
        before ++ ([baseName stem].filter fun c => c ≠ "" ∧ c ≠ ".") ∧
      PathBuf.components (stem ++ ending) = before ++ [baseName stem ++ ending] := by
  rcases Separator.splitOn_append '/' stem.toList with ⟨pieces, last, hstem, hmore⟩
  have hbase : baseName stem = String.ofList last := by
    rw [baseName, hstem, List.getLastD_concat]
  have hkept : (decide (baseName stem ++ ending ≠ "" ∧ baseName stem ++ ending ≠ ".")) = true := by
    have hempty : "".length = 0 := rfl
    have hdot : ".".length = 1 := rfl
    refine decide_eq_true ⟨fun h => ?_, fun h => ?_⟩ <;>
      · have hlen := congrArg String.length h
        rw [String.length_append] at hlen
        omega
  refine ⟨(pieces.map String.ofList).filter fun c => c ≠ "" ∧ c ≠ ".", ?_, ?_⟩
  · rw [PathBuf.components, hstem, List.map_append, List.filter_append, hbase]
    rfl
  · rw [PathBuf.components, String.toList_append, hmore _ hclean, List.map_append,
      List.filter_append, List.map_singleton, String.ofList_append, String.ofList_toList, ← hbase,
      List.filter_singleton, hkept]
    rfl

/-- Ordinary names are looked up one after the other. -/
theorem locate_append (path : PathBuf) (h : ".." ∉ path) :
    L.locate (root ++ path) = L.locate root ++ path := by
  induction path using List.reverseRecOn with
  | nil => rw [List.append_nil, List.append_nil]
  | append_singleton path name ih =>
      rw [List.mem_append, not_or, List.mem_singleton] at h
      rw [← List.append_assoc, L.join _ _ (Ne.symm h.2), ih h.1, List.append_assoc]

end Paths

theorem extension_clean (format : ArchiveFormat) : '/' ∉ ("." ++ format.extension).toList := by
  cases format <;> decide

theorem extension_long (format : ArchiveFormat) : 2 < ("." ++ format.extension).length := by
  cases format <;> decide

/-- What follows the last dot of an archive name is short. -/
theorem extension_last (format : ArchiveFormat) (base : String) : ∃ s e,
    base ++ ("." ++ format.extension) = s ++ "." ++ e ∧ '.' ∉ e.toList ∧ e.length < 4 := by
  cases format with
  | tarGz =>
      refine ⟨base ++ ".tar", "gz", ?_, by decide, by decide⟩
      rw [String.append_assoc, String.append_assoc]
      rfl
  | tarXz =>
      refine ⟨base ++ ".tar", "xz", ?_, by decide, by decide⟩
      rw [String.append_assoc, String.append_assoc]
      rfl
  | zip => exact ⟨base, "zip", (String.append_assoc ..).symm, by decide, by decide⟩

section Distribution

variable {S : Site} {r : InstallRequest} {version name url stem : String} {format : ArchiveFormat}

/-- An extension does not make a path absolute. -/
theorem relative_extended (hhead : stem.toList.head? ≠ some '/') :
    (stem ++ ("." ++ format.extension)).toList.head? ≠ some '/' := by
  rw [String.toList_append]
  cases hstem : stem.toList with
  | nil => cases format <;> decide
  | cons c cs =>
      rw [hstem] at hhead
      exact hhead

/-- The name without its extension, if it has that. -/
theorem installDirName_new (hstem : stripSuffix name ("." ++ format.extension) = some stem) :
    (Distribution.new version name url format).installDirName = stem :=
  congrArg (fun found : Option String => found.getD name) hstem

/-- The directory the working paths are in, and their names there. -/
theorem ArchiveFormat.Names.places (h : format.Names name)
    (hdist : r.distribution = Distribution.new version name url format) :
    ∃ (before : PathBuf) (base : String), ".." ∉ before ∧ Unclaimed base ∧
      S.places r = S.lookup.locate (S.cacheRoot r) ::
        [base, base ++ ("." ++ format.extension), PathBuf.fileStem base ++ "." ++ "lock",
          PathBuf.fileStem base ++ "." ++ ("replaced-" ++ toString r.process)].map
            fun c => S.lookup.locate (S.cacheRoot r) ++ before ++ [c] := by
  rcases h with ⟨stem, hstem, hhead, hdots, hempty, hdot, hunclaimed⟩
  have hname : name = stem ++ ("." ++ format.extension) := stripSuffix_iff.mp hstem
  have hlong := extension_long format
  rcases @components_extended stem _ (extension_clean format) (Nat.lt_of_succ_lt hlong) with
    ⟨before, hcomponents, harchive⟩
  have hkept : decide (baseName stem ≠ "" ∧ baseName stem ≠ ".") = true :=
    decide_eq_true ⟨hempty, hdot⟩
  rw [List.filter_singleton, hkept] at hcomponents
  replace hcomponents : PathBuf.components stem = before ++ [baseName stem] := hcomponents
  rw [hcomponents, List.mem_append, not_or, List.mem_singleton] at hdots
  rcases hdots with ⟨hbefore, hbase⟩
  have hinstalled : S.installDir r = S.cacheRoot r ++ before ++ [baseName stem] := by
    rw [Site.installDir, hdist, installDirName_new hstem, PathBuf.join, if_neg hhead, hcomponents,
      List.append_assoc]
  have harchived : S.archivePath r =
      S.cacheRoot r ++ before ++ [baseName stem ++ ("." ++ format.extension)] := by
    have hjoin : (S.cacheRoot r).join name = S.cacheRoot r ++ PathBuf.components name :=
      if_neg (hname ▸ relative_extended hhead)
    rw [Site.archivePath, hdist]
    exact hjoin.trans (by rw [hname, harchive, List.append_assoc])
  have hat : ∀ c, c ≠ ".." → S.lookup.locate (S.cacheRoot r ++ before ++ [c]) =
      S.lookup.locate (S.cacheRoot r) ++ before ++ [c] := fun c hc => by
    rw [S.lookup.join _ _ hc, locate_append before hbefore]
  refine ⟨before, baseName stem, hbefore, hunclaimed, ?_⟩
  rw [Site.places, Site.lockAt, Site.aside, hinstalled, harchived,
    lockPathOf_concat (Ne.symm hbase), asideOf_concat (Ne.symm hbase), hat _ (Ne.symm hbase),
    hat _ (extended_ne _ (by decide)),
    hat _ (extended_ne _ (replaced_long _)), hat]
  · rfl
  · intro heq
    have hlen := congrArg String.length heq
    have hdots : "..".length = 2 := rfl
    rw [String.length_append, hdots] at hlen
    omega

/-- The four names are different. -/
theorem Unclaimed.nodup {base : String} (h : Unclaimed base) (format : ArchiveFormat)
    (process : Nat) :
    [base, base ++ ("." ++ format.extension), PathBuf.fileStem base ++ "." ++ "lock",
      PathBuf.fileStem base ++ "." ++ ("replaced-" ++ toString process)].Nodup := by
  rcases extension_last format base with ⟨s, e, hlast, hclean, hshort⟩
  have hlonger : base ≠ base ++ ("." ++ format.extension) := by
    intro heq
    have hlen := congrArg String.length heq
    have hlong := extension_long format
    rw [String.length_append] at hlen
    omega
  have hlock : "lock".length = 4 := rfl
  have hreplaced : 8 < ("replaced-" ++ toString process).length := by
    have hpre : "replaced-".length = 9 := rfl
    rw [String.length_append, hpre]
    omega
  have harchive : ∀ t f, '.' ∉ f.toList → 3 < f.length →
      base ++ ("." ++ format.extension) ≠ t ++ "." ++ f := by
    intro t f hf hlen heq
    have hsame := (extended_unique hclean hf (hlast.symm.trans heq)).2
    rw [hsame] at hshort
    omega
  have hother : PathBuf.fileStem base ++ "." ++ "lock" ≠
      PathBuf.fileStem base ++ "." ++ ("replaced-" ++ toString process) := by
    intro heq
    have hsame := congrArg String.length (extended_unique lock_clean (replaced_clean _) heq).2
    omega
  have hclaims := h.2 process
  simp only [List.nodup_cons, List.mem_cons, List.not_mem_nil, or_false, not_or, not_false_eq_true,
    List.nodup_nil, and_true]
  exact ⟨⟨hlonger, h.1, hclaims⟩, ⟨harchive _ _ lock_clean (by decide),
    harchive _ _ (replaced_clean _) (by omega)⟩, hother⟩

theorem ArchiveFormat.Names.apart (h : format.Names name)
    (hdist : r.distribution = Distribution.new version name url format) : (S.places r).Nodup := by
  rcases h.places (S := S) hdist with ⟨before, base, hbefore, hunclaimed, hplaces⟩
  rw [hplaces, List.nodup_cons]
  refine ⟨fun hmem => ?_, (hunclaimed.nodup format r.process).map fun c c' heq => ?_⟩
  · rcases List.mem_map.mp hmem with ⟨c, _, hroot⟩
    have hlen := congrArg List.length hroot
    simp only [List.length_append, List.length_singleton] at hlen
    omega
  · exact List.singleton_inj.mp (List.append_cancel_left heq)

theorem ArchiveFormat.Names.spread (h : format.Names name)
    (hdist : r.distribution = Distribution.new version name url format) : Spread S r := by
  rcases h.places (S := S) hdist with ⟨before, base, hbefore, hunclaimed, hplaces⟩
  simp only [Site.places, List.map_cons, List.map_nil, List.cons.injEq, true_and, and_true]
    at hplaces
  rcases hplaces with ⟨hinstalled, harchived, _, haside⟩
  have hnodup := hunclaimed.nodup format r.process
  simp only [List.nodup_cons, List.mem_cons, List.not_mem_nil, or_false, not_or, not_false_eq_true,
    List.nodup_nil, and_true] at hnodup
  exact ⟨_, _, _, _, List.prefix_append _ before, hinstalled, harchived, haside, hnodup.1.1,
    hnodup.1.2.2, hnodup.2.1.2⟩

theorem ArchiveFormat.Names.unaliased (h : format.Names name) :
    (Distribution.new version name url format).Unaliased := by
  refine ⟨fun hempty => ?_, fun S r hdist => h.apart hdist, fun S r hdist _ _ _ _ _ hr =>
    install_lands (h.spread hdist) hr⟩
  rcases h with ⟨stem, hstem, _, _, hbase, _⟩
  rw [installDirName_new hstem] at hempty
  exact hbase (by rw [hempty]; decide)


/-! ### The other way -/

/-- A host whose cache root is its working directory. -/
def hereSite (lookup : Lookup) (workingDir : PathBuf) : Site :=
  { toolSite with lookup := lookup, workingDir := workingDir }

/-- A call that installs there. -/
def hereRequest (dist : Distribution) (process : Nat) : InstallRequest :=
  { toolRequest with
    settings := { toolRequest.settings with cacheDir := "." }
    process := process
    distribution := dist }

theorem cacheRoot_here (lookup : Lookup) (workingDir : PathBuf) (dist : Distribution)
    (process : Nat) : (hereSite lookup workingDir).cacheRoot (hereRequest dist process) =
      workingDir := by
  have hhere : PathBuf.components "." = [] := by decide
  have hdir : (hereRequest dist process).settings.cacheDirectory = some "." :=
    (by decide : (hereRequest toolRequest.distribution 0).settings.cacheDirectory = some ".")
  rw [Site.cacheRoot, hdir, cacheRootUnder]
  exact (if_neg (by decide)).trans (by rw [hhere]; exact List.append_nil _)

/-- A look-up in which every directory is in the root directory. -/
def topLookup : Lookup :=
  { locate := fun path => path.rtakeWhile (· ≠ "..")
    join := fun _ _ hname => List.rtakeWhile_concat_pos _ _ _ (decide_eq_true hname) }

theorem locate_top (path rest : PathBuf) (h : ".." ∈ rest) :
    topLookup.locate (path ++ rest) = topLookup.locate rest := by
  have hstop : ∀ front, topLookup.locate (front ++ [".."]) = [] := fun front =>
    List.rtakeWhile_concat_neg (fun c => decide (c ≠ "..")) front ".." (by decide)
  induction rest using List.reverseRecOn with
  | nil => exact absurd h List.not_mem_nil
  | append_singleton rest name ih =>
      by_cases hname : name = ".."
      · subst hname
        rw [← List.append_assoc, hstop, hstop]
      · have hrest : ".." ∈ rest := by
          rcases List.mem_append.mp h with hmem | hmem
          · exact hmem
          · exact absurd (List.mem_singleton.mp hmem).symm hname
        rw [← List.append_assoc, topLookup.join _ _ hname, topLookup.join _ _ hname, ih hrest]

theorem places_apart (h : (S.places r).Nodup) :
    S.lookup.locate (S.installDir r) ≠ S.lookup.locate (S.cacheRoot r) ∧
      S.lookup.locate (S.archivePath r) ≠ S.lookup.locate (S.installDir r) ∧
      S.lockAt r ≠ S.lookup.locate (S.installDir r) ∧
      S.lookup.locate (S.aside r) ≠ S.lookup.locate (S.installDir r) ∧
      S.lookup.locate (S.aside r) ≠ S.lockAt r := by
  simp only [Site.places, List.nodup_cons, List.mem_cons, List.not_mem_nil, or_false, not_or,
    not_false_eq_true, List.nodup_nil, and_true] at h
  exact ⟨Ne.symm h.1.1, Ne.symm h.2.1.1, Ne.symm h.2.1.2.1, Ne.symm h.2.1.2.2,
    Ne.symm h.2.2.2⟩

/-- The extension is there. -/
theorem Distribution.Unaliased.ends (h : (Distribution.new version name url format).Unaliased) :
    ∃ stem, stripSuffix name ("." ++ format.extension) = some stem := by
  cases hstem : stripSuffix name ("." ++ format.extension) with
  | some stem => exact ⟨stem, rfl⟩
  | none =>
      have hsame : (Distribution.new version name url format).installDirName = name :=
        congrArg (fun found : Option String => found.getD name) hstem
      have hapart := places_apart
        (h.apart toolSite { toolRequest with
          distribution := Distribution.new version name url format } rfl)
      refine absurd ?_ hapart.2.1
      rw [Site.installDir, hsame]
      rfl

/-- The path is relative. -/
theorem Distribution.Unaliased.relative
    (h : (Distribution.new version name url format).Unaliased)
    (hstem : stripSuffix name ("." ++ format.extension) = some stem) :
    stem.toList.head? ≠ some '/' := by
  intro hhead
  have hapart := places_apart (h.apart (hereSite plainLookup (PathBuf.components stem))
    (hereRequest (Distribution.new version name url format) 0) rfl)
  refine hapart.1 (congrArg plainLookup.locate ?_)
  rw [Site.installDir, cacheRoot_here, hereRequest, installDirName_new hstem]
  exact if_pos hhead

/-- It does not go up. -/
theorem Distribution.Unaliased.no_dots
    (h : (Distribution.new version name url format).Unaliased)
    (hstem : stripSuffix name ("." ++ format.extension) = some stem) :
    ".." ∉ PathBuf.components stem := by
  intro hdots
  have hapart := places_apart (h.apart
    (hereSite topLookup (topLookup.locate (PathBuf.components stem)))
    (hereRequest (Distribution.new version name url format) 0) rfl)
  refine hapart.1 ?_
  rw [Site.installDir, cacheRoot_here, hereRequest, installDirName_new hstem, PathBuf.join,
    if_neg (h.relative hstem)]
  exact (locate_top _ _ hdots).trans (List.rtakeWhile_idempotent _ _).symm

/-- The last component is a name. -/
theorem Distribution.Unaliased.last
    (h : (Distribution.new version name url format).Unaliased)
    (hstem : stripSuffix name ("." ++ format.extension) = some stem) :
    baseName stem ≠ "" ∧ baseName stem ≠ "." := by
  by_contra hno
  let r : InstallRequest :=
    { toolRequest with distribution := Distribution.new version name url format }
  have hname : name = stem ++ ("." ++ format.extension) := stripSuffix_iff.mp hstem
  have hdots := h.no_dots hstem
  rcases @components_extended stem _ (extension_clean format)
    (Nat.lt_of_succ_lt (extension_long format)) with ⟨before, hcomponents, harchive⟩
  have hdropped : decide (baseName stem ≠ "" ∧ baseName stem ≠ ".") = false :=
    decide_eq_false hno
  rw [List.filter_singleton, hdropped] at hcomponents
  replace hcomponents : PathBuf.components stem = before :=
    hcomponents.trans (List.append_nil before)
  have hroot : toolSite.cacheRoot r = ["cache"] :=
    (by decide : toolSite.cacheRoot toolRequest = ["cache"])
  have hinstalled : toolSite.installDir r = ["cache"] ++ before := by
    rw [Site.installDir, hroot, installDirName_new hstem, PathBuf.join, if_neg (h.relative hstem),
      hcomponents]
  have harchived : toolSite.archivePath r =
      ["cache"] ++ before ++ [baseName stem ++ ("." ++ format.extension)] := by
    have hjoin : PathBuf.join ["cache"] name = ["cache"] ++ PathBuf.components name :=
      if_neg (hname ▸ relative_extended (h.relative hstem))
    rw [Site.archivePath, hroot]
    exact hjoin.trans (by rw [hname, harchive, List.append_assoc])
  have hapart := places_apart (h.apart toolSite r rfl)
  rw [hcomponents] at hdots
  rcases List.eq_nil_or_concat before with rfl | ⟨front, last, rfl⟩
  · refine hapart.1 (congrArg toolSite.lookup.locate ?_)
    rw [hinstalled, hroot, List.append_nil]
  · -- The archive is downloaded into the install directory.
    rw [List.concat_eq_append] at hinstalled harchived hdots
    replace hinstalled : toolSite.installDir r = "cache" :: front ++ [last] := hinstalled
    have hlast : last ≠ ".." := fun heq => hdots (heq ▸ List.mem_append_right _
      (List.mem_singleton_self _))
    have hlocked : lockPathOf (toolSite.installDir r) =
        "cache" :: front ++ [PathBuf.fileStem last ++ "." ++ "lock"] := by
      rw [hinstalled, lockPathOf_concat hlast]
    have hmoved : toolSite.aside r =
        "cache" :: front ++ [PathBuf.fileStem last ++ "." ++ ("replaced-" ++ toString 7)] := by
      rw [Site.aside, hinstalled, asideOf_concat hlast]
      rfl
    have hnested : Nested r front last (PathBuf.fileStem last ++ "." ++ "lock")
        (PathBuf.fileStem last ++ "." ++ ("replaced-" ++ toString 7))
        (baseName stem ++ ("." ++ format.extension)) := by
      refine ⟨hinstalled, hlocked, hmoved, harchived, fun heq => hapart.2.2.1 ?_,
        fun heq => hapart.2.2.2.1 ?_, fun heq => hapart.2.2.2.2 ?_⟩
      · exact congrArg toolSite.lookup.locate (by rw [hlocked, heq, hinstalled])
      · exact congrArg toolSite.lookup.locate (by rw [hmoved, heq, hinstalled])
      · exact congrArg toolSite.lookup.locate (by rw [hmoved, heq, hlocked])
    rcases hnested.stays rfl with ⟨s, s', l, resolved, before, i, hrun, hfile, hkept⟩
    rcases h.lands toolSite r rfl s s' l resolved before hrun with ⟨_, _, _, _, _, _, hunlinked⟩
    exact hkept (hunlinked i hfile)

/-- Nor does it end like the name of a lock or of an aside path. -/
theorem Distribution.Unaliased.unclaimed
    (h : (Distribution.new version name url format).Unaliased)
    (hstem : stripSuffix name ("." ++ format.extension) = some stem) :
    Unclaimed (baseName stem) := by
  have hdots := h.no_dots hstem
  rcases @components_extended stem _ (extension_clean format)
    (Nat.lt_of_succ_lt (extension_long format)) with ⟨before, hcomponents, _⟩
  have hkept : decide (baseName stem ≠ "" ∧ baseName stem ≠ ".") = true :=
    decide_eq_true (h.last hstem)
  rw [List.filter_singleton, hkept] at hcomponents
  replace hcomponents : PathBuf.components stem = before ++ [baseName stem] := hcomponents
  have hbase : baseName stem ≠ ".." := fun heq => hdots (hcomponents ▸ heq ▸
    List.mem_append_right _ (List.mem_singleton_self _))
  have hinstalled : ∀ process, (hereSite plainLookup []).installDir
      (hereRequest (Distribution.new version name url format) process) =
        before ++ [baseName stem] := by
    intro process
    rw [Site.installDir, cacheRoot_here, hereRequest, installDirName_new hstem, PathBuf.join,
      if_neg (h.relative hstem), hcomponents]
    rfl
  have hapart := fun process => places_apart (h.apart (hereSite plainLookup [])
    (hereRequest (Distribution.new version name url format) process) rfl)
  refine ⟨fun heq => (hapart 0).2.2.1 ?_, fun process heq => (hapart process).2.2.2.1 ?_⟩
  · rw [Site.lockAt, hinstalled, lockPathOf_concat hbase, ← heq]
  · rw [Site.aside, hinstalled, asideOf_concat hbase]
    exact congrArg (fun c => plainLookup.locate (before ++ [c])) heq.symm

/-- **The working paths of an install never alias**, exactly for the archive names that have the
    extension of their format, and before that a relative path without `..` whose last component
    is a name of its own. -/
theorem unaliased_iff (version name url : String) (format : ArchiveFormat) :
    (Distribution.new version name url format).Unaliased ↔ format.Names name := by
  refine ⟨fun h => ?_, fun h => h.unaliased⟩
  rcases h.ends with ⟨stem, hstem⟩
  exact ⟨stem, hstem, h.relative hstem, h.no_dots hstem, (h.last hstem).1, (h.last hstem).2,
    h.unclaimed hstem⟩

end Distribution

/-- A channel that names an archive without an extension: it is downloaded to the install
    directory itself. -/
theorem bare_name_aliases : ¬ ∀ (version name url : String) (format : ArchiveFormat),
    (Distribution.new version name url format).Unaliased := by
  intro h
  have hdist := h "1.0.0" "toolchain" "https://example.invalid/t" .zip
  have hapart := hdist.apart toolSite { toolRequest with
    distribution := Distribution.new "1.0.0" "toolchain" "https://example.invalid/t" .zip } rfl
  exact absurd hapart (by decide)

end TinyRuntime
