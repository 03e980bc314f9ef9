import TinyRuntime.Store.Promote
import TinyRuntime.Lib.Concurrent
import Mathlib.Data.List.Sort
import Mathlib.Data.String.Basic

/-!
# Finding an Installed Toolchain

The scan of the cache root for a toolchain that is there already, while an install
directory is being replaced.

The scan lists the root once, keeps the directories that are not staging, and asks
the provider about one after the other, the greatest name first. The replacement
goes on in between: between its two renames there is no install directory, and the
displaced tree has a name that the scan takes for a toolchain. So a scan may find
nothing, or the displaced tree.

What is left to show is that this is all that can go wrong: a scan that looks for
the destination only while it is there, and is not told to take a displaced tree,
returns the destination with the old tree in it or the new one.

## Main definitions

* `managed`: A resolution from a layout.
* `scan`: The scan.
* `Replacing`, `scans`: Any number of scans while one promotion runs.
* `Replacement`: The root, the two trees and the rest of what is there.
* `Undisturbed`: The steps outside the windows.

## Theorems

* `scan_spec`: One scan.
* `readers_undisturbed`: Every scan.
* `readers_disturbed`: A scan that finds the displaced tree.
-/

namespace TinyRuntime

open Prog (act)

/-! ## The scan -/

def STAGING_PREFIX : String := ".stage-"

/-- Whether a path is an install in progress rather than a finished toolchain. -/
def isStaging (path : PathBuf) : Bool :=
  match path.fileName with
  | some name => STAGING_PREFIX.toList.isPrefixOf name.toList
  | none => false

/-- `Path::to_string_lossy`. -/
def PathBuf.display (path : PathBuf) : String :=
  "/" ++ "/".intercalate path

/-- A resolution from a layout found in a directory. -/
def managed (language : Language) (installDir : PathBuf) (layout : RuntimeLayout) :
    ResolvedRuntime :=
  { ResolvedRuntime.fromLayout language .managed layout with
    installDir := some (PathBuf.display installDir) }

/-- The candidates that are inside the root. -/
def keepInside (root : PathBuf) : List PathBuf → Prog StoreOp (List PathBuf)
  | [] => pure []
  | candidate :: rest => do
      let inside ← Prog.op (.isInside root candidate)
      let kept ← keepInside root rest
      pure (if inside then candidate :: kept else kept)

/-- The first candidate the provider accepts. -/
def firstAccepted (language : Language) : List PathBuf → Prog StoreOp (Option ResolvedRuntime)
  | [] => pure none
  | candidate :: rest => do
      match ← Prog.op (.layout candidate) with
      | .ok (some layout) => pure (some (managed language candidate layout))
      | .ok none => firstAccepted language rest
      | .error _ => firstAccepted language rest

/-- The greatest path first. -/
def descending (candidates : List PathBuf) : List PathBuf :=
  candidates.insertionSort (· ≥ ·)

/-- Look through the root for an installed toolchain the provider accepts. -/
def scan (root : PathBuf) (language : Language) : Prog StoreOp (Option ResolvedRuntime) := do
  match ← Prog.op (.readDir root) with
  | .error _ => pure none
  | .ok entries => do
      let directories := (entries.filter fun e => e.2).map fun e => root ++ [e.1]
      let candidates ← keepInside root (directories.filter fun p => !isStaging p)
      firstAccepted language (descending candidates)

/-! ## Scans during a promotion -/

/-- The cache root, and what is left of the promotion. It may stop anywhere. -/
structure Replacing where
  disk : Disk String
  rest : Prog StoreOp (Except Error Unit)

/-- The locals of a scan: the directory it asked about last and what that held,
    and what it returned. No code reads them. -/
structure Scanning where
  asked : Option (PathBuf × Tree)
  result : Option (Option ResolvedRuntime)

/-- What a scan has asked after a call. -/
def Scanning.after {β : Type} (L : Lookup) (op : StoreOp β) (d : Disk String) (l : Scanning) :
    Scanning :=
  match op with
  | .layout path => { l with asked := some (path, d.tree (L.locate path)) }
  | _ => l

/-- A call of a scan. -/
def StoreOp.observe {β : Type} (L : Lookup) (inspect : Inspect) (op : StoreOp β)
    (w : Replacing × Scanning) (c : StoreChoice) : Option (β × Replacing × Scanning) :=
  (op.respond L inspect w.1.disk c).map fun r =>
    (r.1, { w.1 with disk := r.2 }, w.2.after L op w.1.disk)

/-- The next call of the promotion. -/
def Replacing.advance (L : Lookup) (inspect : Inspect) (s : Replacing) (c : StoreChoice) :
    Option Replacing :=
  (Prog.advance (storeHandler L inspect) s.rest s.disk c).map fun r =>
    { disk := r.2, rest := r.1 }

/-- The scans of other tasks and processes. -/
def scans (L : Lookup) (inspect : Inspect) (root : PathBuf) (language : Language) :
    Concurrent.Calls StoreOp Replacing Scanning Unit StoreChoice (Option ResolvedRuntime) where
  handler := { respond := fun op w c => op.observe L inspect w c }
  suspends _ _ := true
  main _ := scan root language
  fresh _ := { asked := none, result := none }
  orphans _ _ := []
  ended result l := { l with result := result }
  release _ := none
  env s c := s.advance L inspect c

/-! ## What is there -/

/-- A directory in the root that the scan looks at and the promotion does not touch. -/
def Elsewhere (root : PathBuf) (name : String) (m : Promotion) (other : String) : Prop :=
  other ≠ ".." ∧ isStaging (root ++ [other]) = false ∧ other ≠ name ∧
    root ++ [other] ≠ asideOf (root ++ [name]) m.process

/-- An install directory of the root is replaced: a finished toolchain by another
    one, both accepted, with nothing else accepted before them. -/
structure Replacement (L : Lookup) (inspect : Inspect) (root : PathBuf) (name : String)
    (m : Promotion) (d₀ : Disk String) : Prop where
  ordinary : name ≠ ".."
  finished : isStaging (root ++ [name]) = false
  separate : m.Separate L (root ++ [name])
  /-- It is staged in a directory of the root that the scan skips. -/
  staging : ∃ stage, stage ≠ ".." ∧ isStaging (root ++ [stage]) = true ∧
    L.locate (root ++ [stage]) <+: L.locate m.staged
  rooted : d₀.node (L.locate root) = some .dir
  old : d₀.node (L.locate (root ++ [name])) = some .dir
  new : d₀.node (L.locate m.staged) = some .dir
  oldAccepted : ∃ layout,
    inspect (root ++ [name]) (d₀.tree (L.locate (root ++ [name]))) = .ok (some layout)
  newAccepted : ∃ layout,
    inspect (root ++ [name]) (d₀.tree (L.locate m.staged)) = .ok (some layout)
  others : ∀ other, Elsewhere root name m other → root ++ [other] ≥ root ++ [name] →
    ∀ layout, inspect (root ++ [other]) (d₀.tree (L.locate (root ++ [other]))) ≠ .ok (some layout)

/-- The scans look at the destination only while it is there, and are not told to
    take a displaced tree. -/
def undisturbed (L : Lookup) (inspect : Inspect) (root : PathBuf) (name : String)
    (m : Promotion) : Concurrent.Limits StoreOp Replacing Scanning Unit StoreChoice where
  calls _ _ _ := True
  drops _ _ _ _ := True
  performs _ op s _ c :=
    match op with
    | .readDir _ => c = .pass ∧ s.disk.node (L.locate (root ++ [name])) ≠ none
    | .isInside _ candidate =>
        candidate = root ++ [name] → s.disk.node (L.locate (root ++ [name])) ≠ none
    | .layout path =>
        (path = root ++ [name] → s.disk.node (L.locate (root ++ [name])) ≠ none) ∧
        (path = asideOf (root ++ [name]) m.process →
          ∀ layout, inspect path (s.disk.tree (L.locate path)) ≠ .ok (some layout))
    | _ => True

/-- What is known of the disk at any point of the promotion. -/
structure Shape (L : Lookup) (inspect : Inspect) (root : PathBuf) (name : String) (m : Promotion)
    (d₀ d : Disk String) : Prop where
  kept : Kept L (root ++ [name]) (d₀.tree (L.locate (root ++ [name])))
    (d₀.tree (L.locate m.staged)) d
  rooted : d.node (L.locate root) = some .dir
  others : ∀ other, Elsewhere root name m other →
    d.tree (L.locate (root ++ [other])) = d₀.tree (L.locate (root ++ [other]))

/-- What a scan that was not disturbed returns: the destination, with the tree it
    held when the provider was asked. -/
def Found (L : Lookup) (inspect : Inspect) (root : PathBuf) (name : String) (m : Promotion)
    (d₀ : Disk String) (language : Language) (r : Option ResolvedRuntime) (l : Scanning) : Prop :=
  ∃ tree layout, (tree = d₀.tree (L.locate (root ++ [name])) ∨ tree = d₀.tree (L.locate m.staged)) ∧
    inspect (root ++ [name]) tree = .ok (some layout) ∧ l.asked = some (root ++ [name], tree) ∧
    r = some (managed language (root ++ [name]) layout)

section Readers

variable {L : Lookup} {inspect : Inspect} {root : PathBuf} {name : String} {m : Promotion}
  {d₀ : Disk String} {language : Language}

/-- While the destination is there, it holds one of the two trees. -/
theorem Shape.held {d : Disk String} (h : Shape L inspect root name m d₀ d)
    (hnode : d.node (L.locate (root ++ [name])) ≠ none) :
    d.tree (L.locate (root ++ [name])) = d₀.tree (L.locate (root ++ [name])) ∨
      d.tree (L.locate (root ++ [name])) = d₀.tree (L.locate m.staged) := by
  rcases h.kept with (h | ⟨hnone, _⟩) | h
  · exact .inl h
  · exact absurd hnone hnode
  · exact .inr h

/-- And is a directory. -/
theorem Shape.dir {d : Disk String} (hd : Replacement L inspect root name m d₀)
    (h : Shape L inspect root name m d₀ d)
    (hnode : d.node (L.locate (root ++ [name])) ≠ none) :
    d.node (L.locate (root ++ [name])) = some .dir := by
  have hsame : ∀ p, d.tree (L.locate (root ++ [name])) = d₀.tree p → d₀.node p = some .dir →
      d.node (L.locate (root ++ [name])) = some .dir := by
    intro p htree hp
    have hentry := congrFun htree []
    rw [Disk.tree_nil, Disk.tree_nil, Disk.entry, Disk.entry, hp] at hentry
    cases hn : d.node (L.locate (root ++ [name])) with
    | none => exact absurd hn hnode
    | some n =>
        rw [hn] at hentry
        cases n with
        | dir => rfl
        | file i => cases hentry
        | link target => cases hentry
  rcases h.held hnode with htree | htree
  · exact hsame _ htree hd.old
  · exact hsame _ htree hd.new

/-- One call of a scan that is not disturbed. -/
theorem wp_scan {β : Type} {op : StoreOp β} {l : Scanning} {Q : β → Scanning → Prop}
    (hQ : ∀ s c b d', Shape L inspect root name m d₀ s.disk →
      (undisturbed L inspect root name m).performs _ op s l c →
      op.respond L inspect s.disk c = some (b, d') → Q b (l.after L op s.disk)) :
    (Prog.op op).wp ((scans L inspect root language).within (undisturbed L inspect root name m)
      fun s => Shape L inspect root name m d₀ s.disk) (fun _ _ _ => True) Q l := by
  refine ⟨trivial, ?_⟩
  rintro ⟨s, c⟩ b l' hr
  simp only [Concurrent.Calls.within] at hr
  split at hr
  · rename_i hknown
    rcases Option.map_eq_some_iff.mp hr with ⟨⟨b', s', l''⟩, hrespond, hr⟩
    cases hr
    rcases Option.map_eq_some_iff.mp hrespond with ⟨⟨b'', d'⟩, hstore, hr⟩
    cases hr
    exact hQ s c _ d' hknown.1 hknown.2 hstore
  · cases hr

/-- The candidates of a scan: directories of the root that are not staging. -/
def Candidate (root : PathBuf) (p : PathBuf) : Prop :=
  ∃ other, other ≠ ".." ∧ p = root ++ [other] ∧ isStaging p = false

/-- Asking about a candidate other than the destination, when it comes first. -/
theorem not_accepted (hd : Replacement L inspect root name m d₀) {s : Replacing} {c : StoreChoice}
    {l : Scanning} {p : PathBuf} (hs : Shape L inspect root name m d₀ s.disk)
    (hlim : (undisturbed L inspect root name m).performs _ (.layout p) s l c)
    (hp : Candidate root p) (hne : p ≠ root ++ [name]) (hge : p ≥ root ++ [name])
    (layout : RuntimeLayout) : inspect p (s.disk.tree (L.locate p)) ≠ .ok (some layout) := by
  rcases hp with ⟨other, hother, rfl, hstaging⟩
  by_cases haside : root ++ [other] = asideOf (root ++ [name]) m.process
  · exact hlim.2 haside layout
  · have helse : Elsewhere root name m other :=
      ⟨hother, hstaging, fun h => hne (by rw [h]), haside⟩
    rw [hs.others other helse]
    exact hd.others other helse hge layout

theorem firstAccepted_spec (hd : Replacement L inspect root name m d₀) (candidates : List PathBuf) :
    ∀ l, candidates.Pairwise (· ≥ ·) → root ++ [name] ∈ candidates →
      (∀ p ∈ candidates, Candidate root p) →
      (firstAccepted language candidates).wp
        ((scans L inspect root language).within (undisturbed L inspect root name m)
          fun s => Shape L inspect root name m d₀ s.disk) (fun _ _ _ => True)
        (Found L inspect root name m d₀ language) l := by
  induction candidates with
  | nil => exact fun _ _ hmem => by cases hmem
  | cons p rest ih =>
      intro l hsorted hmem hall
      rw [List.pairwise_cons] at hsorted
      rw [firstAccepted, Prog.wp_bind]
      refine wp_scan ?_
      intro s c b d' hs hlim hr
      rcases StoreOp.answers_of_respond hr with ⟨_, rfl⟩
      by_cases hp : p = root ++ [name]
      · subst hp
        have hnode := hlim.1 rfl
        have haccepted : ∃ layout, inspect (root ++ [name])
            (s.disk.tree (L.locate (root ++ [name]))) = .ok (some layout) := by
          rcases hs.held hnode with h | h
          · exact h ▸ hd.oldAccepted
          · exact h ▸ hd.newAccepted
        rcases haccepted with ⟨layout, haccepted⟩
        rw [haccepted]
        exact ⟨_, layout, hs.held hnode, haccepted, rfl, rfl⟩
      · have hrest : root ++ [name] ∈ rest := by
          rcases List.mem_cons.mp hmem with h | h
          · exact absurd h.symm hp
          · exact h
        have hno := not_accepted hd hs hlim (hall p (List.mem_cons_self ..)) hp
          (hsorted.1 _ hrest)
        have hgo := ih (l.after L (.layout p) s.disk) hsorted.2 hrest
          fun q hq => hall q (List.mem_cons_of_mem _ hq)
        split
        · rename_i layout haccepted
          exact absurd haccepted (hno layout)
        · exact hgo
        · exact hgo

theorem keepInside_spec (hd : Replacement L inspect root name m d₀) (candidates : List PathBuf) :
    ∀ l, (keepInside root candidates).wp
        ((scans L inspect root language).within (undisturbed L inspect root name m)
          fun s => Shape L inspect root name m d₀ s.disk) (fun _ _ _ => True)
        (fun kept _ => kept.Sublist candidates ∧
          (root ++ [name] ∈ candidates → root ++ [name] ∈ kept)) l := by
  induction candidates with
  | nil => exact fun _ => ⟨List.Sublist.refl _, id⟩
  | cons p rest ih =>
      intro l
      rw [keepInside, Prog.wp_bind]
      refine wp_scan ?_
      intro s c b d' hs hlim hr
      rcases StoreOp.answers_of_respond hr with ⟨_, hinside⟩
      rw [Prog.wp_bind]
      refine Prog.wp_mono _ ?_ _ (ih _)
      rintro kept _ ⟨hsub, hmem⟩
      have hkept : p = root ++ [name] → b = true := by
        rintro rfl
        rw [hinside (hs.dir hd (hlim rfl))]
        refine decide_eq_true ?_
        rw [L.join root name hd.ordinary]
        exact List.prefix_append _ _
      rw [Prog.wp_pure]
      split
      · refine ⟨hsub.cons_cons p, fun h => ?_⟩
        rcases List.mem_cons.mp h with h | h
        · exact h ▸ List.mem_cons_self ..
        · exact List.mem_cons_of_mem _ (hmem h)
      · rename_i hout
        refine ⟨hsub.cons p, fun h => ?_⟩
        rcases List.mem_cons.mp h with h | h
        · exact absurd (hkept h.symm) hout
        · exact hmem h

/-- A scan that is not disturbed. -/
theorem scan_spec (hd : Replacement L inspect root name m d₀) (l : Scanning) :
    (scan root language).wp
      ((scans L inspect root language).within (undisturbed L inspect root name m)
        fun s => Shape L inspect root name m d₀ s.disk) (fun _ _ _ => True)
      (Found L inspect root name m d₀ language) l := by
  rw [scan, Prog.wp_bind]
  refine wp_scan ?_
  intro s c b d' hs hlim hr
  rcases StoreOp.answers_of_respond hr with ⟨_, hlisted⟩
  cases b with
  | error reason =>
      rw [hlim.1] at hr
      cases hr
  | ok entries =>
      have hentries := hlisted entries rfl
      dsimp only
      rw [Prog.wp_bind]
      refine Prog.wp_mono _ ?_ _ (keepInside_spec hd _ _)
      rintro kept l' ⟨hsub, hmem⟩
      have hcandidate : ∀ p ∈ kept, Candidate root p := by
        intro p hp
        rcases List.mem_filter.mp (hsub.subset hp) with ⟨hp, hstaging⟩
        rcases List.mem_map.mp hp with ⟨e, he, rfl⟩
        have hname : e.1 ≠ ".." :=
          name_of_mem_listing (hentries ▸ (List.mem_filter.mp he).1)
        exact ⟨e.1, hname, rfl, by simpa only [Bool.not_eq_true'] using hstaging⟩
      have hdest : root ++ [name] ∈ kept := by
        refine hmem (List.mem_filter.mpr ⟨List.mem_map.mpr ⟨(name, true), ?_, rfl⟩, ?_⟩)
        · refine List.mem_filter.mpr ⟨?_, rfl⟩
          rw [hentries]
          refine mem_listing hd.ordinary ?_
          rw [← L.join root name hd.ordinary]
          exact hs.dir hd hlim.2
        · rw [hd.finished]
          rfl
      have hperm := @List.perm_insertionSort PathBuf (· ≥ ·) _ kept
      refine firstAccepted_spec hd _ _ (List.pairwise_insertionSort _ _) ?_ fun p hp => ?_
      · exact hperm.mem_iff.mpr hdest
      · exact hcandidate p (hperm.mem_iff.mp hp)

/-! ## The promotion -/

/-- What else is looked at is apart from what the promotion touches. -/
theorem Elsewhere.apart (hd : Replacement L inspect root name m d₀) {other : String}
    (h : Elsewhere root name m other) :
    Disk.Apart (L.locate (root ++ [name])) (L.locate (root ++ [other])) ∧
      Disk.Apart (L.locate (asideOf (root ++ [name]) m.process)) (L.locate (root ++ [other])) ∧
      Disk.Apart (L.locate m.staged) (L.locate (root ++ [other])) := by
  rcases h with ⟨hother, hstaging, hne, haside⟩
  have hat : ∀ x : String, x ≠ ".." → L.locate (root ++ [x]) = L.locate root ++ [x] :=
    fun x hx => L.join root x hx
  refine ⟨?_, ?_, ?_⟩
  · rw [hat name hd.ordinary, hat other hother]
    exact Disk.apart_of_ne (Ne.symm hne)
  · rcases asideOf_cases (root ++ [name]) m.process with heq | ⟨dir, _, moved, hpath, _, hmoved, ha⟩
    · exact absurd (congrArg L.locate heq) hd.separate.1
    · have hroot : dir = root := (List.append_inj' hpath rfl).1.symm
      subst hroot
      rw [ha, hat moved hmoved, hat other hother]
      refine Disk.apart_of_ne ?_
      rintro rfl
      exact haside ha.symm
  · rcases hd.staging with ⟨stage, hstage, hskip, hin⟩
    have hsep : Disk.Apart (L.locate (root ++ [stage])) (L.locate (root ++ [other])) := by
      rw [hat stage hstage, hat other hother]
      refine Disk.apart_of_ne ?_
      rintro rfl
      rw [hskip] at hstaging
      cases hstaging
    rcases hin with ⟨z, hz⟩
    refine ⟨fun hpre => ?_, fun hpre => ?_⟩
    · exact hsep.1 (((List.prefix_append _ z).trans (hz ▸ List.prefix_refl _)).trans hpre)
    · exact hsep.symm.not_prefix z (hz ▸ hpre)

/-- The root is above what the promotion touches. -/
theorem root_above (hd : Replacement L inspect root name m d₀) {p : List String}
    (hp : p = L.locate (root ++ [name]) ∨ p = L.locate (asideOf (root ++ [name]) m.process) ∨
      p = L.locate m.staged) : ¬ p <+: L.locate root := by
  have hlong : ∀ x y, L.locate root ++ [x] <+: y → ¬ y <+: L.locate root := by
    intro x y hy hpre
    have hle := (hy.trans hpre).length_le
    rw [List.length_append, List.length_singleton] at hle
    omega
  rcases hp with rfl | rfl | rfl
  · exact hlong name _ (L.join root name hd.ordinary ▸ List.prefix_refl _)
  · rcases asideOf_cases (root ++ [name]) m.process with heq | ⟨dir, _, moved, hpath, _, hmoved, ha⟩
    · exact absurd (congrArg L.locate heq) hd.separate.1
    · have hroot : dir = root := (List.append_inj' hpath rfl).1.symm
      subst hroot
      rw [ha]
      exact hlong moved _ (L.join dir moved hmoved ▸ List.prefix_refl _)
  · rcases hd.staging with ⟨stage, hstage, _, hin⟩
    exact hlong stage _ (L.join root stage hstage ▸ hin)

/-- The promotion keeps the root and what is elsewhere in it. -/
theorem stable_elsewhere (hd : Replacement L inspect root name m d₀) :
    Stable L (root ++ [name]) m fun d => d.node (L.locate root) = some .dir ∧
      ∀ other, Elsewhere root name m other →
        d.tree (L.locate (root ++ [other])) = d₀.tree (L.locate (root ++ [other])) := by
  refine ⟨?_, ?_, ?_⟩
  · intro d directory made hparent hmade ⟨hroot, hothers⟩
    have hsame : directory = root := by
      rw [PathBuf.parent, if_neg (List.append_ne_nil_of_right_ne_nil _ (List.cons_ne_nil _ _)),
        List.dropLast_concat] at hparent
      exact (Option.some.inj hparent).symm
    subst hsame
    refine ⟨(if_neg fun h => ?_).trans hroot, fun other hother => ?_⟩
    · rw [hroot] at h
      cases h.1
    · refine (Disk.tree_makeDirs fun hpre => ?_).trans (hothers other hother)
      have hle := (hpre.trans hmade).length_le
      rw [L.join directory other hother.1, List.length_append, List.length_singleton] at hle
      omega
  · intro d x hx ⟨hroot, hothers⟩
    refine ⟨(Disk.node_remove_ne ?_).trans hroot, fun other hother => ?_⟩
    · rintro rfl
      exact root_above hd (.inr (.inl rfl)) hx
    · exact (Disk.tree_remove_apart (hother.apart hd).2.1 hx).trans (hothers other hother)
  · intro d p q hp hq ⟨hroot, hothers⟩
    refine ⟨(Disk.node_rename_of_not (root_above hd hp) ?_).trans hroot, fun other hother => ?_⟩
    · exact root_above hd (hq.imp id .inl)
    · have hapart := hother.apart hd
      refine (Disk.tree_rename_apart ?_ ?_).trans (hothers other hother)
      · rcases hp with rfl | rfl | rfl
        · exact hapart.1
        · exact hapart.2.1
        · exact hapart.2.2
      · rcases hq with rfl | rfl
        · exact hapart.1
        · exact hapart.2.1

/-- What is known of the disk holds at every point of the promotion. -/
theorem promote_shape (hd : Replacement L inspect root name m d₀) (removals : Nat) :
    (m.promoteBlocking removals (root ++ [name])).run.wp (storeHandler L inspect)
      (fun _ _ d => Shape L inspect root name m d₀ d)
      (fun _ d => Shape L inspect root name m d₀ d) d₀ := by
  have hboth := Prog.wp_and _ _ (@promote_spec _ inspect _ _ removals _ _ hd.separate (.inl rfl))
    (promote_keeps (stable_elsewhere hd) ⟨hd.rooted, fun _ _ => rfl⟩)
  refine Prog.wp_mono _ (fun _ d h => ⟨h.1.1, h.2.1, h.2.2⟩) _
    (Prog.wp_weaken _ (fun _ _ d h => ?_) _ hboth)
  exact ⟨h.1, h.2.1, h.2.2⟩

/-! ## All scans -/

/-- The calls that change nothing. -/
def StoreOp.reads : ∀ β, StoreOp β → Prop
  | _, .readDir _ => True
  | _, .isInside _ _ => True
  | _, .layout _ => True
  | _, _ => False

theorem disk_kept {β : Type} {op : StoreOp β} (hop : StoreOp.reads β op) {d d' : Disk String}
    {b : β} (ha : op.Answers L inspect d b d') : d' = d := by
  cases op with
  | readDir path => exact ha.1
  | isInside root candidate => exact ha.1
  | layout path => exact ha.1
  | _ => exact hop.elim

theorem uses_firstAccepted (candidates : List PathBuf) :
    Prog.Uses StoreOp.reads (firstAccepted language candidates) := by
  induction candidates with
  | nil => trivial
  | cons p rest ih =>
      refine Prog.uses_bind ((Prog.uses_op _).mpr trivial) fun r => ?_
      split
      · trivial
      · exact ih
      · exact ih

theorem uses_keepInside (candidates : List PathBuf) :
    Prog.Uses StoreOp.reads (keepInside root candidates) := by
  induction candidates with
  | nil => trivial
  | cons p rest ih =>
      exact Prog.uses_bind ((Prog.uses_op _).mpr trivial) fun _ =>
        Prog.uses_bind ih fun _ => trivial

theorem uses_scan : Prog.Uses StoreOp.reads (scan root language) := by
  refine Prog.uses_bind ((Prog.uses_op _).mpr trivial) fun r => ?_
  split
  · trivial
  · exact Prog.uses_bind (uses_keepInside _) fun _ => uses_firstAccepted _

/-- A scan has returned nothing while it goes on. -/
theorem scan_unended (l : Scanning) (h : l.result = none) :
    (scan root language).wp
      ((scans L inspect root language).within (undisturbed L inspect root name m)
        fun s => Shape L inspect root name m d₀ s.disk)
      (Prog.always fun l => l.result = none) (fun _ l => l.result = none) l := by
  refine Prog.wp_uses _ ?_ _ _ (Prog.uses_true _) h
  rintro β op l ⟨s, c⟩ b l' _ hnone hr
  simp only [Concurrent.Calls.within] at hr
  split at hr
  · rcases Option.map_eq_some_iff.mp hr with ⟨⟨b', s', l''⟩, hrespond, hr⟩
    cases hr
    rcases Option.map_eq_some_iff.mp hrespond with ⟨⟨b'', d'⟩, _, hr⟩
    cases hr
    cases op <;> exact hnone
  · cases hr

/-- What holds of the replacement and of all scans. -/
def Reading (L : Lookup) (inspect : Inspect) (root : PathBuf) (name : String) (m : Promotion)
    (d₀ : Disk String) (language : Language) (s : Replacing) (ls : List Scanning) : Prop :=
  s.rest.wp (storeHandler L inspect) (fun _ _ d => Shape L inspect root name m d₀ d)
      (fun _ d => Shape L inspect root name m d₀ d) s.disk ∧
    ∀ l ∈ ls, ∀ r, l.result = some r → Found L inspect root name m d₀ language r l

theorem reading_joint (hd : Replacement L inspect root name m d₀) :
    Concurrent.Joint (scans L inspect root language) (undisturbed L inspect root name m)
      (fun p l => p.wp ((scans L inspect root language).within (undisturbed L inspect root name m)
          fun s => Shape L inspect root name m d₀ s.disk)
        (fun β op l => l.result = none ∧ StoreOp.reads β op) (Found L inspect root name m d₀ language) l)
      (Reading L inspect root name m d₀ language) := by
  have hshape : ∀ s ls, Reading L inspect root name m d₀ language s ls →
      Shape L inspect root name m d₀ s.disk :=
    fun s ls h => Prog.wp_point (fun _ _ _ h => h) (fun _ _ h => h) h.1
  refine Concurrent.Joint.of_handler ?_ (fun _ _ _ _ => ?_) ?_ ?_ ?_ ?_ ?_ ?_ ?_
  · exact fun e s l ls c b s' l' hlim h hr => Concurrent.within_respond (hshape s _ h) hlim hr
  · have hnone : (Scanning.mk none none).result = none := rfl
    have hboth := Prog.wp_and _ _ (scan_spec hd _) (@scan_unended L inspect root name m d₀ language _ hnone)
    have hfound := Prog.wp_mono _ (fun _ _ h => And.left h) _
      (Prog.wp_weaken _ (fun _ _ _ h => And.right h) _ hboth)
    exact Prog.wp_and_uses _ _ hfound uses_scan
  · exact fun s ls ls' hp h => ⟨h.1, fun l hl => h.2 l (hp.mem_iff.mpr hl)⟩
  · exact fun s ls _ _ h => ⟨h.1, List.forall_mem_cons.mpr ⟨fun _ hr => (by cases hr), h.2⟩⟩
  · intro β op s l ls c b s' l' _ hA h hr
    rcases Option.map_eq_some_iff.mp hr with ⟨⟨b', d'⟩, hstore, hr⟩
    cases hr
    have hkept : d' = s.disk := disk_kept hA.2 (StoreOp.answers_of_respond hstore)
    subst hkept
    rw [Reading, List.forall_mem_cons] at h
    refine ⟨h.1, List.forall_mem_cons.mpr ⟨fun r hresult => ?_, h.2.2⟩⟩
    have hnone : (l.after L op s.disk).result = none := by cases op <;> exact hA.1
    rw [hnone] at hresult
    cases hresult
  · intro r s l ls hfound h
    rw [Reading, List.forall_mem_cons] at h
    refine ⟨h.1, List.forall_mem_cons.mpr ⟨fun r' hr => ?_, h.2.2⟩⟩
    cases hr
    exact hfound
  · intro β e k s l ls _ _ _ h
    rw [Reading, List.forall_mem_cons] at h
    exact ⟨fun _ ho => absurd ho List.not_mem_nil, h.1,
      List.forall_mem_cons.mpr ⟨fun _ hr => (by cases hr), h.2.2⟩⟩
  · exact fun s l ls s' l' _ hr => by cases hr
  · intro s ls c s' h hr
    rcases Option.map_eq_some_iff.mp hr with ⟨⟨rest, d'⟩, hadvance, rfl⟩
    exact ⟨Prog.wp_step hadvance h.1, h.2⟩

/-- **Readers of a replacement**, when they are not disturbed. One install directory
    of the root is replaced, interrupted anywhere, under every pattern of failures,
    and any number of scans go on meanwhile. If they look at the destination only
    while it is there, and are not told to take a displaced tree, then each of them
    returns the destination, which held the complete old tree or the complete new
    one when the provider was asked. -/
theorem readers_undisturbed (L : Lookup) (inspect : Inspect) (root : PathBuf) (name : String)
    (m : Promotion) (removals : Nat) (language : Language) (d₀ : Disk String)
    (hd : Replacement L inspect root name m d₀)
    {g : Concurrent.Config StoreOp Replacing Scanning (Option ResolvedRuntime)}
    (h : Transition.Reachable
      ((scans L inspect root language).system (undisturbed L inspect root name m) fun s =>
        s = { disk := d₀, rest := (m.promoteBlocking removals (root ++ [name])).run }) g) :
    ∀ l ∈ g.locals, ∀ r, l.result = some r → Found L inspect root name m d₀ language r l := by
  refine ((reading_joint hd).reachable ?_ h).2.2
  rintro s rfl
  exact ⟨promote_shape hd removals, fun _ hl => by cases hl⟩

end Readers

/-! ## A small root -/

/-- A provider that accepts every directory. -/
def acceptDirs : Inspect := fun _ tree =>
  .ok (if tree [] = some .dir then some { version := "1", binDir := "bin", executables := [] }
    else none)

/-- A root with one toolchain, and the next version staged. -/
def toolDisk : Disk String :=
  (Disk.empty.makeDirs ["cache", "tool"]).makeDirs ["cache", ".stage-7-0", "tool"]

def toolPromotion : Promotion :=
  { staged := ["cache", ".stage-7-0", "tool"], language := Language.new "python", process := 7 }

/-- The promotion of it, before its first call. -/
def toolReplacing : Replacing :=
  { disk := toolDisk, rest := (toolPromotion.promoteBlocking 1 ["cache", "tool"]).run }

theorem replacement_tool :
    Replacement plainLookup acceptDirs ["cache"] "tool" toolPromotion toolDisk where
  ordinary := by decide
  finished := by decide
  separate := ⟨by decide, by decide⟩
  staging := ⟨".stage-7-0", by decide, by decide, by decide⟩
  rooted := rfl
  old := rfl
  new := rfl
  oldAccepted := ⟨_, rfl⟩
  newAccepted := ⟨_, rfl⟩
  others := by
    intro other ⟨_, hstaging, hne, _⟩ _ layout haccepted
    have hstage : other ≠ ".stage-7-0" := by
      rintro rfl
      exact absurd hstaging (by decide)
    have hnone : toolDisk.node ["cache", other] = none := by
      simp only [toolDisk, Disk.makeDirs, Disk.empty, List.cons_prefix_cons, List.nil_prefix,
        true_and, and_true, hstage, hne, if_false, and_false]
    have hentry : toolDisk.entry ["cache", other] = none := Disk.entry_eq_none.mpr hnone
    have htree : toolDisk.tree (plainLookup.locate (["cache"] ++ [other])) [] = none := hentry
    rw [acceptDirs, htree] at haccepted
    cases haccepted

/-- What is claimed of the readers of a replacement. -/
def ReadersSee (L : Lookup) (inspect : Inspect) (root : PathBuf) (name : String)
    (m : Promotion) (removals : Nat) (language : Language) (d₀ : Disk String) : Prop :=
  ∀ g, Transition.Reachable ((scans L inspect root language).system .none fun s =>
      s = { disk := d₀, rest := (m.promoteBlocking removals (root ++ [name])).run }) g →
    ∀ l ∈ g.locals, ∀ r, l.result = some r → Found L inspect root name m d₀ language r l

open Concurrent.Step StoreChoice in
/-- A scan between the two renames. -/
def disturbedRun : List (Concurrent.Step Unit StoreChoice) :=
  [env pass, env pass, env (failed "not found"), env pass, call (), perform 0 pass,
    perform 0 pass, perform 0 pass, finish 0]

/-- It returns the displaced directory. -/
theorem readers_disturbed :
    ¬ ReadersSee plainLookup acceptDirs ["cache"] "tool" toolPromotion 1 (Language.new "python")
      toolDisk := by
  intro h
  have hrun : (Transition.play
      (scans plainLookup acceptDirs ["cache"] (Language.new "python")).move
      { shared := toolReplacing, calls := [] } disturbedRun).map
        (fun g => g.locals.map fun l => l.result.map fun r => r.map ResolvedRuntime.installDir) =
      some [some (some (some "/cache/tool.replaced-7"))] := by rfl
  rcases Option.map_eq_some_iff.mp hrun with ⟨g, hg, hlocals⟩
  rcases List.map_eq_singleton_iff.mp hlocals with ⟨l, hl, hresult⟩
  rcases Option.map_eq_some_iff.mp hresult with ⟨r, hr, hdir⟩
  have hfound := h g (Concurrent.reachable_play rfl hg) l (hl ▸ List.mem_singleton_self _) r hr
  rcases hfound with ⟨_, layout, _, _, _, rfl⟩
  have hnames : PathBuf.display ["cache", "tool"] = "/cache/tool.replaced-7" :=
    Option.some.inj (Option.some.inj hdir)
  exact absurd hnames (by decide)

open Concurrent.Step StoreChoice in
/-- A scan before the promotion moves anything. -/
def earlyRun : List (Concurrent.Step Unit StoreChoice) :=
  [call (), perform 0 pass, perform 0 pass, perform 0 pass, finish 0]

theorem earlyRun_allowed : (scans plainLookup acceptDirs ["cache"] (Language.new "python")).allowed
    (undisturbed plainLookup acceptDirs ["cache"] "tool" toolPromotion)
    { shared := toolReplacing, calls := [] } earlyRun := by
  have hthere : toolDisk.node ["cache", "tool"] ≠ none := by decide
  refine And.intro trivial fun g hg => ?_
  cases hg
  refine And.intro (And.intro rfl hthere) fun g hg => ?_
  cases hg
  refine And.intro (fun _ => hthere) fun g hg => ?_
  cases hg
  refine And.intro (And.intro (fun _ => hthere) fun haside => absurd haside (by decide))
    fun g hg => ?_
  cases hg
  exact And.intro trivial fun g hg => trivial

/-- It returns the destination. -/
theorem readers_undisturbed_early : ∃ l : Scanning, ∃ r, l.result = some r ∧
    Found plainLookup acceptDirs ["cache"] "tool" toolPromotion toolDisk (Language.new "python")
      r l := by
  have hrun : (Transition.play
      (scans plainLookup acceptDirs ["cache"] (Language.new "python")).move
      { shared := toolReplacing, calls := [] } earlyRun).map
        (fun g => g.locals.map fun l => l.result.map fun r => r.map ResolvedRuntime.installDir) =
      some [some (some (some "/cache/tool"))] := by rfl
  rcases Option.map_eq_some_iff.mp hrun with ⟨g, hg, hlocals⟩
  rcases List.map_eq_singleton_iff.mp hlocals with ⟨l, hl, hresult⟩
  rcases Option.map_eq_some_iff.mp hresult with ⟨r, hr, _⟩
  exact ⟨l, r, hr, readers_undisturbed plainLookup acceptDirs ["cache"] "tool" toolPromotion 1
    (Language.new "python") toolDisk replacement_tool
    (Concurrent.reachable_allowed rfl hg earlyRun_allowed) l (hl ▸ List.mem_singleton_self _) r hr⟩

end TinyRuntime
