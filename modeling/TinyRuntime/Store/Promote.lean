import TinyRuntime.Store.State

/-!
# Promotion

How an unpacked toolchain gets into place: what is there is moved aside, the new
tree is renamed in, and the displaced one is deleted; if the rename fails, the
displaced tree is put back.

A promotion that fails or is interrupted loses nothing, provided the name it moves
the old install to is another one than the destination's. The name is made by
replacing the extension with `replaced-` and the process id, so it is the same for
a destination that has this extension already and for one without a file name, and
there the cleanup of leftovers deletes the install itself.

`Promotion.Separate` is the condition, and `promote_spec` walks through the code
once. What a history of promotions has to keep is the tree its last one found or
landed (`History`).

## Main definitions

* `Promotion`, `promoteBlocking`: The code.
* `Promotion.Separate`: Its names do not collide.
* `Good`: A tree is in place, or moved aside and nothing is.
* `History`: Promotions one after the other, each interrupted anywhere.
* `Promotes`: What is claimed of a promotion.

## Theorems

* `promote_spec`: One promotion with names that do not collide.
-/

namespace TinyRuntime

open Prog (act)

/-- One call of `promote_blocking` for a destination. -/
structure Promotion where
  staged : PathBuf
  language : Language
  /-- `std::process::id()`. -/
  process : Nat

/-- Where the existing install is moved. -/
def asideOf (destination : PathBuf) (process : Nat) : PathBuf :=
  destination.withExtension ("replaced-" ++ toString process)

namespace Promotion

/-- An install error with what failed and why. -/
def failed (m : Promotion) (what error : String) : Error :=
  .install m.language (what ++ ": " ++ error)

/-- The promotion and the restoring both failed. -/
def notRestored (m : Promotion) (error restore : String) : Error :=
  .install m.language ("the toolchain could not be installed (" ++ error ++
    ") and the previous one could not be restored (" ++ restore ++ ")")

/-- A call whose error becomes an install error. -/
def attemptAs {α : Type} (m : Promotion) (what : String) (e : StoreOp (Except String α)) :
    ExceptT Error (Prog StoreOp) α :=
  ExceptT.mk do
    match ← Prog.op e with
    | .ok a => pure (.ok a)
    | .error error => pure (.error (m.failed what error))

/-- Create the directory the destination is in. -/
def createParent (m : Promotion) (destination : PathBuf) : ExceptT Error (Prog StoreOp) Unit :=
  match destination.parent with
  | some parent => m.attemptAs "the cache root could not be created" (.createDirAll parent)
  | none => pure ()

/-- Move an existing install aside. -/
def displace (m : Promotion) (removals : Nat) (destination : PathBuf) :
    ExceptT Error (Prog StoreOp) (Option PathBuf) := do
  if (← act (.pathExists destination)) = true then do
    let aside := asideOf destination m.process
    let _ ← ExceptT.lift (removeDirAll aside removals)
    m.attemptAs "the existing install could not be moved aside" (.rename destination aside)
    pure (some aside)
  else pure none

/-- Put a displaced install back, and fail. -/
def restore (m : Promotion) (destination : PathBuf) (displaced : Option PathBuf)
    (error : String) : ExceptT Error (Prog StoreOp) Unit := do
  match displaced with
  | some aside =>
      match ← act (.rename aside destination) with
      | .error restore => throw (m.notRestored error restore)
      | .ok () => throw (m.failed "the unpacked toolchain could not be moved into place" error)
  | none => throw (m.failed "the unpacked toolchain could not be moved into place" error)

/-- Rename the staged directory in, and delete what was displaced. -/
def land (m : Promotion) (removals : Nat) (destination : PathBuf)
    (displaced : Option PathBuf) : ExceptT Error (Prog StoreOp) Unit := do
  match ← act (.rename m.staged destination) with
  | .error error => m.restore destination displaced error
  | .ok () =>
      match displaced with
      | some aside => do
          let _ ← ExceptT.lift (removeDirAll aside removals)
          pure ()
      | none => pure ()

/-- Promote a staged directory to a destination with one rename. -/
def promoteBlocking (m : Promotion) (removals : Nat) (destination : PathBuf) :
    ExceptT Error (Prog StoreOp) Unit := do
  m.createParent destination
  let displaced ← m.displace removals destination
  m.land removals destination displaced

/-- Its names do not collide: what is moved aside goes elsewhere, and the staged
    tree is not in the way. -/
def Separate (L : Lookup) (destination : PathBuf) (m : Promotion) : Prop :=
  L.locate (asideOf destination m.process) ≠ L.locate destination ∧
    ¬ L.locate (asideOf destination m.process) <+: L.locate m.staged

end Promotion

/-! ## Names -/

theorem fileName_cases (path : PathBuf) :
    path.fileName = none ∨
      ∃ directory name, path = directory ++ [name] ∧ name ≠ ".." ∧ path.fileName = some name := by
  rcases List.eq_nil_or_concat path with rfl | ⟨directory, name, rfl⟩
  · exact .inl rfl
  · have hname : PathBuf.fileName (directory.concat name) =
        if name = ".." then none else some name := by
      rw [PathBuf.fileName, List.concat_eq_append, List.getLast?_concat]
    by_cases hdots : name = ".."
    · exact .inl (by rw [hname, if_pos hdots])
    · exact .inr ⟨directory, name, List.concat_eq_append, hdots, by rw [hname, if_neg hdots]⟩

/-- An extension of more than one letter makes an ordinary name. -/
theorem extended_ne (stem : String) {extension : String} (h : 1 < extension.length) :
    stem ++ "." ++ extension ≠ ".." := by
  intro heq
  have hlen := congrArg String.length heq
  have hdot : ".".length = 1 := rfl
  have hdots : "..".length = 2 := rfl
  simp only [String.length_append, hdot, hdots] at hlen
  omega

/-- The aside path is the destination, or another name in its directory. -/
theorem asideOf_cases (destination : PathBuf) (process : Nat) :
    asideOf destination process = destination ∨
      ∃ (directory : PathBuf) (name other : String),
        destination = directory ++ [name] ∧ name ≠ ".." ∧ other ≠ ".." ∧
          asideOf destination process = directory ++ [other] := by
  unfold asideOf PathBuf.withExtension
  rcases fileName_cases destination with hnone | ⟨directory, name, rfl, hdots, hname⟩
  · exact .inl (by rw [hnone])
  · have hlen : 1 < ("replaced-" ++ toString process).length := by
      have hpre : "replaced-".length = 9 := rfl
      rw [String.length_append, hpre]
      omega
    refine .inr ⟨directory, name, _, rfl, hdots, extended_ne (PathBuf.fileStem name) hlen, ?_⟩
    rw [hname, List.dropLast_concat]

section Names

variable {L : Lookup} {destination : PathBuf} {m : Promotion}

/-- A destination and an aside path that lead elsewhere are two names in one
    directory. -/
theorem siblings (h : L.locate (asideOf destination m.process) ≠ L.locate destination) :
    ∃ directory name other, destination = directory ++ [name] ∧ name ≠ ".." ∧
      destination.parent = some directory ∧ name ≠ other ∧
      L.locate destination = L.locate directory ++ [name] ∧
      L.locate (asideOf destination m.process) = L.locate directory ++ [other] := by
  rcases asideOf_cases destination m.process with heq | ⟨directory, name, other, hd, hn, ho, ha⟩
  · exact absurd (congrArg L.locate heq) h
  · have hdest : L.locate destination = L.locate directory ++ [name] := by
      rw [hd, L.join directory name hn]
    have haside : L.locate (asideOf destination m.process) = L.locate directory ++ [other] := by
      rw [ha, L.join directory other ho]
    refine ⟨directory, name, other, hd, hn, ?_, ?_, hdest, haside⟩
    · rw [hd, PathBuf.parent, if_neg (List.append_ne_nil_of_right_ne_nil _ (List.cons_ne_nil _ _)),
        List.dropLast_concat]
    · rintro rfl
      exact h (haside.trans hdest.symm)

theorem Promotion.Separate.apart (h : m.Separate L destination) :
    Disk.Apart (L.locate destination) (L.locate (asideOf destination m.process)) := by
  rcases siblings h.1 with ⟨directory, name, other, _, _, _, hne, hdest, haside⟩
  rw [hdest, haside]
  exact Disk.apart_of_ne hne

end Names

/-! ## One promotion -/

/-- A tree is in place, or moved aside and nothing is in place. -/
def Good (L : Lookup) (destination : PathBuf) (d : Disk String)
    (T : Tree) : Prop :=
  d.tree (L.locate destination) = T ∨
    d.node (L.locate destination) = none ∧
      ∃ process, d.tree (L.locate (asideOf destination process)) = T

/-- The staged tree is the one to promote, or the rename will fail. -/
def Staged (L : Lookup) (destination staged : PathBuf) (d : Disk String)
    (N : Tree) : Prop :=
  d.tree (L.locate staged) = N ∨ d.node (L.locate staged) = none ∨
    L.locate staged <+: L.locate destination

/-- What the destination holds has not changed, nor what is to be promoted. -/
structure Intact (L : Lookup) (destination staged : PathBuf) (d₀ d : Disk String) : Prop where
  held : d.tree (L.locate destination) = d₀.tree (L.locate destination)
  staged : Staged L destination staged d (d₀.tree (L.locate staged))

section Promote

variable {L : Lookup} {inspect : Inspect} {destination : PathBuf} {m : Promotion}
  {removals : Nat} {d₀ d d' : Disk String} {T : Tree}

theorem node_of_tree {p : List String} (h : d.tree p = d'.tree p) (hd : d.node p = none) :
    d'.node p = none := by
  rw [← Disk.entry_eq_none, ← Disk.tree_nil] at hd ⊢
  rw [← h, hd]

/-- A staged path that does not contain the destination is not in the way of the
    aside path either. -/
theorem Promotion.Separate.staged_apart (h : m.Separate L destination)
    (hs : ¬ L.locate m.staged <+: L.locate destination) :
    Disk.Apart (L.locate (asideOf destination m.process)) (L.locate m.staged) := by
  rcases siblings h.1 with ⟨directory, name, other, _, _, _, _, hdest, haside⟩
  refine ⟨h.2, fun hpre => ?_⟩
  rw [haside] at hpre
  rcases List.prefix_concat_iff.mp hpre with heq | hpre
  · exact h.2 (haside ▸ heq ▸ List.prefix_refl _)
  · exact hs (hdest ▸ hpre.trans (List.prefix_append _ _))

namespace Intact

/-- Directories made on the way to the destination. -/
theorem makeDirs (h : Intact L destination m.staged d₀ d) {directory made : List String}
    {name : String} (hdest : L.locate destination = directory ++ [name])
    (hmade : made <+: directory) : Intact L destination m.staged d₀ (d.makeDirs made) := by
  have hshort : ¬ L.locate destination <+: made := by
    intro hpre
    have hle := (hpre.trans hmade).length_le
    rw [hdest, List.length_append, List.length_singleton] at hle
    omega
  refine ⟨(Disk.tree_makeDirs hshort).trans h.held, ?_⟩
  by_cases hs : L.locate m.staged <+: made
  · exact .inr (.inr (hdest ▸ hs.trans (hmade.trans (List.prefix_append _ _))))
  · have htree : (d.makeDirs made).tree _ = d.tree _ := Disk.tree_makeDirs hs
    rcases h.staged with h | h | h
    · exact .inl (htree.trans h)
    · exact .inr (.inl (node_of_tree htree.symm h))
    · exact .inr (.inr h)

/-- Names lost at the aside path. -/
theorem remove (hm : m.Separate L destination) (h : Intact L destination m.staged d₀ d)
    {x : List String} (hx : L.locate (asideOf destination m.process) <+: x) :
    Intact L destination m.staged d₀ (d.remove x) := by
  refine ⟨(Disk.tree_remove_apart hm.apart.symm hx).trans h.held, ?_⟩
  by_cases hs : L.locate m.staged <+: L.locate destination
  · exact .inr (.inr hs)
  · have htree : (d.remove x).tree _ = d.tree _ := Disk.tree_remove_apart (hm.staged_apart hs) hx
    rcases h.staged with h | h | h
    · exact .inl (htree.trans h)
    · exact .inr (.inl (node_of_tree htree.symm h))
    · exact absurd h hs

/-- The destination moved aside. -/
theorem moved (hm : m.Separate L destination) (h : Intact L destination m.staged d₀ d) :
    Staged L destination m.staged
      (d.rename (L.locate destination) (L.locate (asideOf destination m.process)))
      (d₀.tree (L.locate m.staged)) := by
  by_cases hs : L.locate m.staged <+: L.locate destination
  · exact .inr (.inr hs)
  · have haside := hm.staged_apart hs
    by_cases hd : L.locate destination <+: L.locate m.staged
    · exact .inr (.inl ((if_neg haside.1).trans (if_pos hd)))
    · have htree : (d.rename _ _).tree _ = d.tree _ := Disk.tree_rename_apart ⟨hd, hs⟩ haside
      rcases h.staged with h | h | h
      · exact .inl (htree.trans h)
      · exact .inr (.inl (node_of_tree htree.symm h))
      · exact absurd h hs

end Intact

/-- What was staged has been renamed in. -/
theorem Staged.landed {N : Tree}
    (h : Staged L destination m.staged d N)
    (hr : d.Renames (L.locate m.staged) (L.locate destination)) :
    (d.rename (L.locate m.staged) (L.locate destination)).tree (L.locate destination) = N := by
  rcases h with h | h | h
  · exact Disk.tree_rename.trans h
  · exact absurd h hr.1
  · exact absurd h hr.2.1

/-- Directories made on the way leave the aside paths alone as well. -/
theorem Good.makeDirs (h : Good L destination d T) {directory : PathBuf} {name : String}
    (hpath : destination = directory ++ [name]) (hname : name ≠ "..") {made : List String}
    (hmade : made <+: L.locate directory) : Good L destination (d.makeDirs made) T := by
  have hlong : ∀ other, ¬ L.locate directory ++ [other] <+: made := by
    intro other hpre
    have hle := (hpre.trans hmade).length_le
    rw [List.length_append, List.length_singleton] at hle
    omega
  have hdest : ¬ L.locate destination <+: made := by
    rw [hpath, L.join directory name hname]
    exact hlong name
  have hasides : ∀ process, ¬ L.locate (asideOf destination process) <+: made := by
    intro process
    rcases asideOf_cases destination process with heq | ⟨directory', _, other, hd, _, ho, ha⟩
    · rw [heq]
      exact hdest
    · have hsame : directory' = directory := by
        rw [hpath] at hd
        exact (List.append_inj' hd rfl).1.symm
      rw [ha, hsame, L.join directory other ho]
      exact hlong other
  rcases h with h | ⟨hnone, process, h⟩
  · exact .inl ((Disk.tree_makeDirs hdest).trans h)
  · refine .inr ⟨?_, process, (Disk.tree_makeDirs (hasides process)).trans h⟩
    exact node_of_tree (Disk.tree_makeDirs hdest).symm hnone

/-- The tree to keep is kept, or the new one is in place. -/
def Kept (L : Lookup) (destination : PathBuf) (T N : Tree)
    (d : Disk String) : Prop :=
  Good L destination d T ∨ d.tree (L.locate destination) = N

/-- What a promotion that returns has done. -/
def Concluded (L : Lookup) (destination : PathBuf) (m : Promotion) (d₀ : Disk String)
    (result : Except Error Unit) (d : Disk String) : Prop :=
  match result with
  | .ok () => d.tree (L.locate destination) = d₀.tree (L.locate m.staged)
  | .error e =>
      d.tree (L.locate destination) = d₀.tree (L.locate destination) ∨
        (∃ error restore, e = m.notRestored error restore) ∧
          d.tree (L.locate (asideOf destination m.process)) = d₀.tree (L.locate destination)

/-- A recursive deletion of the aside path leaves the destination alone. -/
theorem discard_spec (hm : m.Separate L destination) {N : Tree}
    (h : d.tree (L.locate destination) = N) :
    (removeDirAll (asideOf destination m.process) removals).wp (storeHandler L inspect)
      (Prog.always (Kept L destination T N)) (fun _ d' => d'.tree (L.locate destination) = N) d := by
  refine Prog.wp_weaken _ (fun _ _ _ hd => .inr hd) _ (removeDirAll_spec ?_ _ d h)
  exact fun d x hd hx => (Disk.tree_remove_apart hm.apart.symm hx).trans hd

/-- The staged tree renamed in, or the displaced one restored. -/
theorem land_displaced_spec (hm : m.Separate L destination)
    (hnone : d.node (L.locate destination) = none)
    (haside : d.tree (L.locate (asideOf destination m.process)) =
      d₀.tree (L.locate destination))
    (hstaged : Staged L destination m.staged d (d₀.tree (L.locate m.staged)))
    (hT : d₀.tree (L.locate destination) = T) :
    (m.land removals destination (some (asideOf destination m.process))).run.wp (storeHandler L inspect)
      (Prog.always (Kept L destination T (d₀.tree (L.locate m.staged))))
      (fun r d => Kept L destination T (d₀.tree (L.locate m.staged)) d ∧
        Concluded L destination m d₀ r d) d := by
  have hgood : Kept L destination T (d₀.tree (L.locate m.staged)) d :=
    .inl (.inr ⟨hnone, m.process, haside.trans hT⟩)
  rw [Promotion.land, Prog.wp_run_bind, Prog.wp_act]
  refine wp_store hgood ?_
  rintro b d₁ (⟨rfl, hnode, ⟨heq, rfl⟩ | ⟨hr, rfl⟩⟩ | ⟨⟨error, rfl⟩, rfl⟩)
  · exact absurd (heq ▸ hnone) hnode
  · dsimp only
    rw [Prog.wp_run_bind, Prog.wp_run_lift]
    refine Prog.wp_mono _ ?_ _ (discard_spec hm (hstaged.landed hr))
    exact fun _ d₂ h => ⟨.inr h, h⟩
  · dsimp only [Promotion.restore]
    rw [Prog.wp_run_bind, Prog.wp_act]
    refine wp_store hgood ?_
    rintro b d₂ (⟨rfl, _, ⟨heq, rfl⟩ | ⟨hr, rfl⟩⟩ | ⟨⟨restore, rfl⟩, rfl⟩)
    · exact absurd heq hm.1
    · have hback : (d₁.rename (L.locate (asideOf destination m.process))
          (L.locate destination)).tree (L.locate destination) = d₀.tree (L.locate destination) :=
        Disk.tree_rename.trans haside
      exact ⟨.inl (.inl (hback.trans hT)), .inl hback⟩
    · exact ⟨hgood, .inr ⟨⟨error, restore, rfl⟩, haside⟩⟩

/-- The staged tree renamed in where nothing was moved. -/
theorem land_spec (hgood : Good L destination d T)
    (h : Intact L destination m.staged d₀ d) :
    (m.land removals destination none).run.wp (storeHandler L inspect)
      (Prog.always (Kept L destination T (d₀.tree (L.locate m.staged))))
      (fun r d => Kept L destination T (d₀.tree (L.locate m.staged)) d ∧
        Concluded L destination m d₀ r d) d := by
  rw [Promotion.land, Prog.wp_run_bind, Prog.wp_act]
  refine wp_store (.inl hgood) ?_
  rintro b d₁ (⟨rfl, hnode, ⟨heq, rfl⟩ | ⟨hr, rfl⟩⟩ | ⟨⟨error, rfl⟩, rfl⟩)
  · have hsame : d₁.tree (L.locate destination) = d₀.tree (L.locate m.staged) := by
      rw [heq]
      exact h.held
    exact ⟨.inr hsame, hsame⟩
  · exact ⟨.inr (h.staged.landed hr), h.staged.landed hr⟩
  · exact ⟨.inl hgood, .inl h.held⟩

/-- One promotion whose names do not collide, over every pattern of failures: at
    every point what was to be kept is kept or the new tree is in place, and the
    result says which. -/
theorem promote_spec (hm : m.Separate L destination) (hT : Good L destination d₀ T) :
    (m.promoteBlocking removals destination).run.wp (storeHandler L inspect)
      (Prog.always (Kept L destination T (d₀.tree (L.locate m.staged))))
      (fun r d => Kept L destination T (d₀.tree (L.locate m.staged)) d ∧
        Concluded L destination m d₀ r d) d₀ := by
  rcases siblings hm.1 with ⟨directory, name, _, hpath, hname, hparent, _, hdest, _⟩
  rw [Promotion.promoteBlocking, Prog.wp_run_bind, Promotion.createParent, hparent]
  dsimp only [Promotion.attemptAs]
  rw [Prog.wp_run_mk, Prog.wp_bind]
  refine wp_store (.inl hT) ?_
  intro b d₁ hmade
  -- Whatever was made, the destination and the aside paths are as they were.
  have hkept : Good L destination d₁ T ∧ Intact L destination m.staged d₀ d₁ := by
    have hstart : Intact L destination m.staged d₀ d₀ := ⟨rfl, .inl rfl⟩
    rcases hmade with rfl | ⟨made, hmade, rfl⟩
    · exact ⟨hT, hstart⟩
    · exact ⟨hT.makeDirs hpath hname hmade, hstart.makeDirs hdest hmade⟩
  rcases hkept with ⟨hgood, hintact⟩
  cases b with
  | error reason => exact ⟨.inl hgood, .inl hintact.held⟩
  | ok u =>
      dsimp only
      rw [Prog.wp_pure, Prog.wp_run_bind, Promotion.displace, Prog.wp_run_bind, Prog.wp_act]
      refine wp_store (.inl hgood) ?_
      rintro found d₂ ⟨rfl, hfound⟩
      dsimp only
      split
      · rename_i hyes
        have hheld : d₀.tree (L.locate destination) = T := by
          rcases hgood with h | ⟨hnone, _⟩
          · exact hintact.held.symm.trans h
          · exact absurd hnone (hfound hyes)
        have hkept : ∀ d, Intact L destination m.staged d₀ d →
            Kept L destination T (d₀.tree (L.locate m.staged)) d :=
          fun d h => .inl (.inl (h.held.trans hheld))
        rw [Prog.wp_run_bind, Prog.wp_run_lift]
        refine Prog.wp_mono _ ?_ _ (Prog.wp_weaken _ (fun _ _ d h => hkept d h) _
          (removeDirAll_spec (fun d x h hx => h.remove hm hx) removals _ hintact))
        intro _ d₃ hintact₃
        rw [Prog.wp_run_bind, Promotion.attemptAs, Prog.wp_run_mk, Prog.wp_bind]
        refine wp_store (hkept d₃ hintact₃) ?_
        rintro b d₄ (⟨rfl, _, ⟨heq, rfl⟩ | ⟨hr, rfl⟩⟩ | ⟨⟨reason, rfl⟩, rfl⟩)
        · exact absurd heq.symm hm.1
        · exact land_displaced_spec hm (Disk.node_rename_self hm.apart)
            (Disk.tree_rename.trans hintact₃.held) (hintact₃.moved hm) hheld
        · exact ⟨hkept _ hintact₃, .inl hintact₃.held⟩
      · exact @land_spec _ _ _ _ removals _ _ _ hgood hintact

/-! ### What else a promotion keeps -/

/-- Kept by the steps of a promotion. -/
structure Stable (L : Lookup) (destination : PathBuf) (m : Promotion) (C : Disk String → Prop) :
    Prop where
  makeDirs : ∀ d directory made, destination.parent = some directory → made <+: L.locate directory →
    C d → C (d.makeDirs made)
  remove : ∀ d x, L.locate (asideOf destination m.process) <+: x → C d → C (d.remove x)
  rename : ∀ d p q, p = L.locate destination ∨ p = L.locate (asideOf destination m.process) ∨
      p = L.locate m.staged →
    q = L.locate destination ∨ q = L.locate (asideOf destination m.process) → C d →
    C (d.rename p q)

variable {C : Disk String → Prop}

theorem rename_keeps (hC : Stable L destination m C) {source target : PathBuf}
    (hsource : source = destination ∨ source = asideOf destination m.process ∨ source = m.staged)
    (htarget : target = destination ∨ target = asideOf destination m.process)
    {Q : Except String Unit → Disk String → Prop} (hQ : ∀ r d, C d → Q r d) (h : C d) :
    (Prog.op (.rename source target)).wp (storeHandler L inspect) (Prog.always C) Q d := by
  refine wp_store h ?_
  rintro b d' (⟨rfl, _, ⟨_, rfl⟩ | ⟨_, rfl⟩⟩ | ⟨_, rfl⟩)
  · exact hQ _ _ h
  · refine hQ _ _ (hC.rename d _ _ ?_ ?_ h)
    · exact hsource.imp (congrArg _) (Or.imp (congrArg _) (congrArg _))
    · exact htarget.imp (congrArg _) (congrArg _)
  · exact hQ _ _ h

theorem displace_keeps (hC : Stable L destination m C) (h : C d) :
    (m.displace removals destination).run.wp (storeHandler L inspect) (Prog.always C)
      (fun r d => C d ∧ ∀ displaced, r = .ok displaced →
        ∀ aside ∈ displaced, aside = asideOf destination m.process) d := by
  rw [Promotion.displace, Prog.wp_run_bind, Prog.wp_act]
  refine wp_store h ?_
  rintro found _ ⟨rfl, _⟩
  dsimp only
  split
  · rw [Prog.wp_run_bind, Prog.wp_run_lift]
    refine Prog.wp_mono _ ?_ _ (removeDirAll_spec (fun d x hd hx => hC.remove d x hx hd) removals _ h)
    intro _ d₁ h₁
    rw [Prog.wp_run_bind, Promotion.attemptAs, Prog.wp_run_mk, Prog.wp_bind]
    refine rename_keeps hC (.inl rfl) (.inr rfl) (fun r d₂ h₂ => ?_) h₁
    cases r with
    | error reason => exact ⟨h₂, fun _ he => by cases he⟩
    | ok u =>
        refine ⟨h₂, fun displaced he aside ha => ?_⟩
        cases he
        exact (Option.some.inj ha).symm
  · refine ⟨h, fun displaced he aside ha => ?_⟩
    cases he
    cases ha

theorem land_keeps (hC : Stable L destination m C) {displaced : Option PathBuf}
    (hdisplaced : ∀ aside ∈ displaced, aside = asideOf destination m.process) (h : C d) :
    (m.land removals destination displaced).run.wp (storeHandler L inspect) (Prog.always C)
      (fun _ d => C d) d := by
  rw [Promotion.land.eq_def, Prog.wp_run_bind, Prog.wp_act]
  refine rename_keeps hC (.inr (.inr rfl)) (.inl rfl) (fun r d₁ h₁ => ?_) h
  cases displaced with
  | none =>
      cases r with
      | error error => exact h₁
      | ok u => exact h₁
  | some aside =>
      have haside := hdisplaced aside rfl
      subst haside
      cases r with
      | error error =>
          dsimp only [Promotion.restore]
          rw [Prog.wp_run_bind, Prog.wp_act]
          refine rename_keeps hC (.inr (.inl rfl)) (.inl rfl) (fun r d₂ h₂ => ?_) h₁
          cases r with
          | error restore => exact h₂
          | ok u => exact h₂
      | ok u =>
          dsimp only
          rw [Prog.wp_run_bind, Prog.wp_run_lift]
          exact removeDirAll_spec (fun d x hd hx => hC.remove d x hx hd) removals d₁ h₁

/-- Whatever its steps keep, a promotion keeps. -/
theorem promote_keeps (hC : Stable L destination m C) (h : C d) :
    (m.promoteBlocking removals destination).run.wp (storeHandler L inspect) (Prog.always C)
      (fun _ d => C d) d := by
  have hrest : ∀ d, C d → (m.displace removals destination >>= m.land removals destination).run.wp
      (storeHandler L inspect) (Prog.always C) (fun _ d => C d) d := by
    intro d h
    rw [Prog.wp_run_bind]
    refine Prog.wp_mono _ ?_ _ (displace_keeps hC h)
    rintro r d₁ ⟨h₁, hdisplaced⟩
    cases r with
    | error e => exact h₁
    | ok displaced => exact land_keeps hC (hdisplaced displaced rfl) h₁
  rw [Promotion.promoteBlocking, Prog.wp_run_bind, Promotion.createParent]
  cases hparent : destination.parent with
  | none => exact hrest d h
  | some directory =>
      dsimp only [Promotion.attemptAs]
      rw [Prog.wp_run_mk, Prog.wp_bind]
      refine wp_store h ?_
      intro b d₁ hmade
      have h₁ : C d₁ := by
        rcases hmade with rfl | ⟨made, hmade, rfl⟩
        · exact h
        · exact hC.makeDirs d directory made hparent hmade h
      cases b with
      | error reason => exact h₁
      | ok u => exact hrest d₁ h₁

end Promote

/-! ## Promotions in a row -/

/-- Promotions for a destination, one after the other, each ended or interrupted
    anywhere: the disk then, and the tree to keep, which is the new one as soon as
    it is in place. -/
inductive History (L : Lookup) (inspect : Inspect) (destination : PathBuf) (d₀ : Disk String) :
    List Promotion → Disk String → Tree → Prop
  | start : History L inspect destination d₀ [] d₀ (d₀.tree (L.locate destination))
  | kept {ms d T m removals p d'} : History L inspect destination d₀ ms d T →
      Prog.Reaches (storeHandler L inspect) (m.promoteBlocking removals destination).run d p d' →
      d'.tree (L.locate destination) ≠ d.tree (L.locate m.staged) →
      History L inspect destination d₀ (ms ++ [m]) d' T
  | landed {ms d T m removals p d'} : History L inspect destination d₀ ms d T →
      Prog.Reaches (storeHandler L inspect) (m.promoteBlocking removals destination).run d p d' →
      d'.tree (L.locate destination) = d.tree (L.locate m.staged) →
      History L inspect destination d₀ (ms ++ [m]) d' (d.tree (L.locate m.staged))

/-- Promotions lose nothing. From every initial content, under every pattern of
    failures: what each of them returns is true of the destination. And after any
    part of the last one, the others ended or interrupted before, the tree to keep
    is in place or moved aside. -/
def Promotes (L : Lookup) (inspect : Inspect) (destination : PathBuf) (ms : List Promotion) :
    Prop :=
  ∀ d₀ : Disk String,
    (∀ m ∈ ms, ∀ removals result d,
      Prog.Reaches (storeHandler L inspect) (m.promoteBlocking removals destination).run d₀
        (.done result) d → Concluded L destination m d₀ result d) ∧
    ∀ d T, History L inspect destination d₀ ms d T →
      d.tree (L.locate destination) = T ∨
        ∃ process, d.tree (L.locate (asideOf destination process)) = T

section Row

variable {L : Lookup} {inspect : Inspect} {destination : PathBuf} {m : Promotion}

/-- What is known at any point of a promotion. -/
theorem kept_of_reaches {removals : Nat} {d₀ d : Disk String} {p : Prog StoreOp (Except Error Unit)}
    {T : Tree} (hm : m.Separate L destination)
    (hT : Good L destination d₀ T)
    (hr : Prog.Reaches (storeHandler L inspect) (m.promoteBlocking removals destination).run d₀
      p d) : Kept L destination T (d₀.tree (L.locate m.staged)) d :=
  Prog.wp_point (fun _ _ _ h => h) (fun _ _ h => h.1) (Prog.wp_reaches (promote_spec hm hT) hr)

theorem good_of_history {ms : List Promotion} {d₀ d : Disk String}
    {T : Tree} (hms : ∀ m ∈ ms, m.Separate L destination)
    (h : History L inspect destination d₀ ms d T) : Good L destination d T := by
  induction h with
  | start => exact .inl rfl
  | kept _ hr hne ih =>
      rcases List.forall_mem_append.mp hms with ⟨hms, hm⟩
      rcases kept_of_reaches (hm _ (List.mem_singleton_self _)) (ih hms) hr with h | h
      · exact h
      · exact absurd h hne
  | landed _ _ heq _ => exact .inl heq

theorem promotes_of_separate {ms : List Promotion} (hms : ∀ m ∈ ms, m.Separate L destination) :
    Promotes L inspect destination ms := by
  refine fun d₀ => ⟨fun m hm removals result d hr => ?_, fun d T h => ?_⟩
  · exact (Prog.wp_reaches (promote_spec (hms m hm) (.inl rfl)) hr).2
  · rcases good_of_history hms h with h | ⟨_, h⟩
    · exact .inl h
    · exact .inr h

/-- Where the directory of the destination is. -/
def parentAt (L : Lookup) (destination : PathBuf) : List String :=
  (destination.parent.map L.locate).getD []

/-- A disk with one path of directories, and the directory of the destination. -/
def baseDisk (L : Lookup) (destination : PathBuf) (p : List String) : Disk String :=
  (Disk.empty.makeDirs p).makeDirs (parentAt L destination)

theorem node_baseDisk (p x : List String) :
    (baseDisk L destination p).node x =
      if x <+: p ∨ x <+: parentAt L destination then some .dir else none := by
  simp only [baseDisk, Disk.makeDirs, Disk.empty]
  grind

theorem node_remade (p x : List String) :
    ((baseDisk L destination p).makeDirs (parentAt L destination)).node x =
      (baseDisk L destination p).node x := by
  have hnode := @node_baseDisk L destination p x
  simp only [Disk.makeDirs]
  grind

/-- A promotion that starts on such a disk can get past the creation of the
    directory. -/
theorem wp_created {Q : Except Error Unit → Disk String → Prop} {removals : Nat}
    {p : List String}
    (h : (m.promoteBlocking removals destination).run.wp (storeHandler L inspect)
      (fun _ _ _ => True) Q (baseDisk L destination p)) :
    ∃ d, (∀ x, d.node x = (baseDisk L destination p).node x) ∧
      (m.displace removals destination >>= m.land removals destination).run.wp
        (storeHandler L inspect) (fun _ _ _ => True) Q d := by
  rw [Promotion.promoteBlocking, Prog.wp_run_bind, Promotion.createParent] at h
  have hmakes : Makes (baseDisk L destination p) (parentAt L destination) := by
    intro x _
    rw [node_baseDisk]
    split
    · exact .inr rfl
    · exact .inl rfl
  cases hparent : destination.parent with
  | none =>
      rw [hparent] at h
      exact ⟨_, fun _ => rfl, h⟩
  | some parent =>
      have hat : parentAt L destination = L.locate parent := by
        rw [parentAt, hparent]
        rfl
      rw [hparent] at h
      dsimp only [Promotion.attemptAs] at h
      rw [Prog.wp_run_mk, Prog.wp_bind] at h
      refine ⟨_, node_remade p, ?_⟩
      refine h.2 .pass (.ok ()) _ ?_
      rw [hat] at hmakes ⊢
      exact if_pos hmakes

/-- A recursive deletion may take one name and stop. -/
theorem removal_stops {path : PathBuf} {removals : Nat} {d : Disk String} {x : List String}
    {Q : Except String Unit → Disk String → Prop}
    (h : (removeDirAll path (removals + 2)).wp (storeHandler L inspect) (fun _ _ _ => True) Q d)
    (hx : L.locate path <+: x) (hdir : d.isFile (L.locate path) = false) (hnode : d.node x ≠ none)
    (hvacant : d.Vacant x) : ∃ r, Q r (d.remove x) := by
  rw [removeDirAll, Prog.wp_bind] at h
  have htaken := @answer_of_wp _ _ _ _ _ _ _ h (.entry x) (.ok (decide (x = L.locate path)))
    (d.remove x) (if_pos ⟨hx, hdir, hnode, hvacant⟩)
  by_cases hdone : x = L.locate path
  · rw [decide_eq_true hdone] at htaken
    exact ⟨.ok (), htaken⟩
  · rw [decide_eq_false hdone] at htaken
    dsimp only at htaken
    rw [removeDirAll, Prog.wp_bind] at htaken
    exact ⟨_, @answer_of_wp _ _ _ _ _ _ _ htaken (.failed "") (.error "") _ rfl⟩

/-- A destination that is its own aside path loses a directory to the cleanup, and
    then the promotion fails. -/
theorem lost_of_same (hsame : L.locate (asideOf destination m.process) = L.locate destination) :
    ∃ d₀, ¬ (m.promoteBlocking 2 destination).run.wp (storeHandler L inspect)
      (fun _ _ _ => True) (Concluded L destination m d₀) d₀ := by
  -- A directory with nothing below it, at the destination or further down.
  obtain ⟨x, hx, hhere, hleaf⟩ : ∃ x, L.locate destination <+: x ∧
      (x <+: L.locate destination ∨ x <+: parentAt L destination) ∧
      ∀ y, x <+: y → y ≠ x → ¬ (y <+: L.locate destination ∨ y <+: parentAt L destination) := by
    have heq : ∀ a b : List String, a <+: b → b <+: a → b = a :=
      fun a b hab hba => (hab.eq_of_length_le hba.length_le).symm
    by_cases hdown : L.locate destination <+: parentAt L destination
    · refine ⟨_, hdown, .inr (List.prefix_refl _), fun y hy hne hor => hne (heq _ _ hy ?_)⟩
      exact hor.elim (fun h => h.trans hdown) id
    · refine ⟨_, List.prefix_refl _, .inl (List.prefix_refl _), fun y hy hne hor => ?_⟩
      exact hor.elim (fun h => hne (heq _ _ hy h)) fun h => hdown (hy.trans h)
  refine ⟨baseDisk L destination (L.locate destination), fun h => ?_⟩
  rcases wp_created h with ⟨d, hd, h⟩
  have hbase : ∀ y, d.node y = if y <+: L.locate destination ∨ y <+: parentAt L destination then
      some .dir else none := fun y => (hd y).trans (node_baseDisk _ y)
  have hdest : d.node (L.locate destination) = some .dir :=
    (hbase _).trans (if_pos (.inl (List.prefix_refl _)))
  have hnode : d.node x = some .dir := (hbase x).trans (if_pos hhere)
  have hvacant : d.Vacant x := fun y _ hy hne => (hbase y).trans (if_neg (hleaf y hy hne))
  have hlost : (d.remove x).tree (L.locate destination) ≠
      (baseDisk L destination (L.locate destination)).tree (L.locate destination) := by
    intro heq
    rcases hx with ⟨z, rfl⟩
    have hgone : (baseDisk L destination (L.locate destination)).node
        (L.locate destination ++ z) = none := by
      rw [← Disk.entry_eq_none]
      refine (congrFun heq z).symm.trans ?_
      exact Disk.entry_eq_none.mpr Disk.node_remove_self
    rw [← hd, hnode] at hgone
    cases hgone
  -- The install is there, and the cleanup takes one name of it and stops.
  rw [Prog.wp_run_bind, Promotion.displace, Prog.wp_run_bind, Prog.wp_act] at h
  have hfound := @answer_of_wp _ _ _ _ _ _ _ h .pass true d
    (if_pos (by rw [hdest]; exact Option.some_ne_none _))
  dsimp only at hfound
  rw [if_pos rfl, Prog.wp_run_bind, Prog.wp_run_lift] at hfound
  rcases removal_stops hfound (hsame ▸ hx) (by rw [hsame, Disk.isFile, hdest])
    (by rw [hnode]; exact Option.some_ne_none _) hvacant with ⟨r, hstopped⟩
  rw [Prog.wp_run_bind, Promotion.attemptAs, Prog.wp_run_mk, Prog.wp_bind] at hstopped
  have hfailed := @answer_of_wp _ _ _ _ _ _ _ hstopped (.failed "") (.error "") (d.remove x) rfl
  rcases hfailed with hheld | ⟨_, haside⟩
  · exact hlost hheld
  · exact hlost (hsame ▸ haside)

/-- A staged path inside the aside path is not there, and comes with the install
    that is moved. -/
theorem lost_of_inside (hne : L.locate (asideOf destination m.process) ≠ L.locate destination)
    (hin : L.locate (asideOf destination m.process) <+: L.locate m.staged) :
    ∃ d₀, ¬ (m.promoteBlocking 1 destination).run.wp (storeHandler L inspect)
      (fun _ _ _ => True) (Concluded L destination m d₀) d₀ := by
  rcases siblings hne with ⟨directory, name, other, _, _, hparent, hnames, hdest, haside⟩
  rcases hin with ⟨z, hz⟩
  have hapart : Disk.Apart (L.locate destination) (L.locate (asideOf destination m.process)) := by
    rw [hdest, haside]
    exact Disk.apart_of_ne hnames
  have hat : parentAt L destination = L.locate directory := by
    rw [parentAt, hparent]
    rfl
  refine ⟨baseDisk L destination (L.locate destination ++ z), fun h => ?_⟩
  rcases wp_created h with ⟨d, hd, h⟩
  have hbase : ∀ y, d.node y = if y <+: L.locate destination ++ z ∨ y <+: L.locate directory then
      some .dir else none := fun y => (hd y).trans (hat ▸ node_baseDisk _ y)
  have hnode : ∀ y, y <+: L.locate destination ++ z → d.node y = some .dir :=
    fun y hy => (hbase y).trans (if_pos (.inl hy))
  have hdir : d.node (L.locate directory) = some .dir :=
    (hbase _).trans (if_pos (.inr (List.prefix_refl _)))
  have hfree : ∀ y, d.node (L.locate (asideOf destination m.process) ++ y) = none := by
    refine fun y => (hbase _).trans (if_neg ?_)
    rintro (hy | hy)
    · exact hapart.symm.not_prefix z ((List.prefix_append _ _).trans hy)
    · have hle := hy.length_le
      rw [haside, List.length_append, List.length_append, List.length_singleton] at hle
      omega
  -- The install is moved aside, and with it what is found at the staged path.
  rw [Prog.wp_run_bind, Promotion.displace, Prog.wp_run_bind, Prog.wp_act] at h
  have hfound := @answer_of_wp _ _ _ _ _ _ _ h .pass true d
    (if_pos (by rw [hnode _ (List.prefix_append _ _)]; exact Option.some_ne_none _))
  dsimp only at hfound
  rw [if_pos rfl, Prog.wp_run_bind, Prog.wp_run_lift, removeDirAll, Prog.wp_bind] at hfound
  have hclear := @answer_of_wp _ _ _ _ _ _ _ hfound (.failed "") (.error "") d rfl
  dsimp only at hclear
  rw [Prog.wp_pure, Prog.wp_run_bind, Promotion.attemptAs, Prog.wp_run_mk, Prog.wp_bind] at hclear
  have hrenames : d.Renames (L.locate destination) (L.locate (asideOf destination m.process)) := by
    refine ⟨?_, hapart.1, ?_, .inl ?_⟩
    · rw [hnode _ (List.prefix_append _ _)]
      exact Option.some_ne_none _
    · rw [haside, List.dropLast_concat]
      exact hdir
    · exact List.append_nil (L.locate (asideOf destination m.process)) ▸ hfree []
  have hmoved : (m.land 1 destination (some (asideOf destination m.process))).run.wp
      (storeHandler L inspect) (fun _ _ _ => True) (Concluded L destination m _)
      (d.rename (L.locate destination) (L.locate (asideOf destination m.process))) :=
    @answer_of_wp _ _ _ _ _ _ _ hclear .pass (.ok ()) _
      ((if_neg hne.symm).trans (if_pos hrenames))
  have hstaged : (d.rename (L.locate destination)
      (L.locate (asideOf destination m.process))).node (L.locate m.staged) = some .dir := by
    rw [← hz]
    refine (if_pos (List.prefix_append _ _)).trans ?_
    rw [List.drop_left]
    exact hnode _ (List.prefix_refl _)
  have hout : ¬ L.locate m.staged <+: L.locate destination := fun hpre =>
    hapart.2 (((List.prefix_append _ z).trans (hz ▸ List.prefix_refl _)).trans hpre)
  have hlands : (d.rename (L.locate destination)
      (L.locate (asideOf destination m.process))).Renames (L.locate m.staged)
      (L.locate destination) := by
    have hshort : ∀ other, ¬ L.locate directory ++ [other] <+: L.locate directory := by
      intro other hpre
      have hle := hpre.length_le
      rw [List.length_append, List.length_singleton] at hle
      omega
    refine ⟨?_, hout, ?_, .inl (Disk.node_rename_self hapart)⟩
    · rw [hstaged]
      exact Option.some_ne_none _
    · rw [hdest, haside, List.dropLast_concat]
      exact (Disk.node_rename_of_not (hshort _) (hshort _)).trans hdir
  rw [Promotion.land, Prog.wp_run_bind, Prog.wp_act] at hmoved
  have helse : L.locate m.staged ≠ L.locate destination := fun heq => hout (heq ▸ List.prefix_refl _)
  have hlanded := @answer_of_wp _ _ _ _ _ _ _ hmoved .pass (.ok ()) _
    ((if_neg helse).trans (if_pos hlands))
  dsimp only at hlanded
  rw [Prog.wp_run_bind, Prog.wp_run_lift, removeDirAll, Prog.wp_bind] at hlanded
  have hdone : Concluded L destination m _ (.ok ()) _ :=
    @answer_of_wp _ _ _ _ _ _ _ hlanded (.failed "") (.error "") _ rfl
  have htree := congrFun (Disk.tree_rename.symm.trans hdone) []
  rw [Disk.tree_nil, Disk.tree_nil] at htree
  have hnone := htree.trans (Disk.entry_eq_none.mpr ((hd _).symm.trans (hz ▸ hfree z)))
  rw [Disk.entry_eq_none, hstaged] at hnone
  cases hnone

theorem not_promotes {ms : List Promotion} (hmem : m ∈ ms) (hm : ¬ m.Separate L destination) :
    ¬ Promotes L inspect destination ms := by
  intro h
  have hwp : ∀ d₀ removals, (m.promoteBlocking removals destination).run.wp
      (storeHandler L inspect) (fun _ _ _ => True) (Concluded L destination m d₀) d₀ :=
    fun d₀ removals => Prog.wp_of_reaches _ _ ((h d₀).1 m hmem removals)
  by_cases hsame : L.locate (asideOf destination m.process) = L.locate destination
  · rcases @lost_of_same _ inspect _ _ hsame with ⟨d₀, hlost⟩
    exact hlost (hwp d₀ 2)
  · have hin : L.locate (asideOf destination m.process) <+: L.locate m.staged := by
      by_contra hno
      exact hm ⟨hsame, hno⟩
    rcases @lost_of_inside _ inspect _ _ hsame hin with ⟨d₀, hlost⟩
    exact hlost (hwp d₀ 1)

/-- **A failed promotion loses nothing**, exactly if names do not collide. For
    promotions in a row, by any processes, of one destination:

    What each of them returns is true of the destination, from every initial
    content and under every pattern of failures, and after every prefix of the
    last one the tree to keep is in place or moved aside, if and only if each
    moves the install to another name than the destination's own and has staged
    its tree elsewhere. -/
theorem promotes_iff (L : Lookup) (inspect : Inspect) (destination : PathBuf)
    (ms : List Promotion) :
    Promotes L inspect destination ms ↔ ∀ m ∈ ms, m.Separate L destination := by
  refine ⟨fun h m hm => ?_, promotes_of_separate⟩
  by_contra hno
  exact not_promotes hm hno h

end Row

/-! ## A collision -/

/-- Paths without links or `..`. -/
def plainLookup : Lookup :=
  { locate := id, join := fun _ _ _ => rfl }

/-- An install directory whose name has the extension of the aside path of process
    7, the way a provider may name it. -/
def collidingPromotion : Promotion :=
  { staged := ["cache", ".stage-7-0", "tool"], language := Language.new "python", process := 7 }

/-- The cleanup of leftovers deletes the existing install, and nothing can be put
    back when the promotion then fails. -/
theorem promotes_collides : ¬ ∀ (inspect : Inspect) (destination : PathBuf)
    (ms : List Promotion), Promotes plainLookup inspect destination ms := by
  intro h
  exact not_promotes (List.mem_singleton_self _) (fun hm => hm.1 (by decide))
    (h (fun _ _ => .ok none) ["cache", "tool.replaced-7"] [collidingPromotion])

end TinyRuntime
