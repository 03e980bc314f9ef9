import TinyRuntime.Resolve.Exclusive
import TinyRuntime.Lib.Separator

/-!
# Names beside an Install

The lock of an install directory and the path it is moved aside to are named after it,
by giving its name another extension. What takes the place of the extension is whatever
follows the last dot, so that a version in the name loses its last number: two versions
of one toolchain may share both.

Two installs are independent exactly if their names differ before the last dot.

## Main definitions

* `PathBuf.Ordinary`: A name that is one component.
* `Independent`: Two installs that share neither a lock nor an aside path.

## Theorems

* `extended_unique`: A name with an extension determines both.
* `independent_iff`: When two installs are independent.
-/

namespace TinyRuntime

namespace PathBuf

/-- One component, as a provider may name a directory. -/
structure Ordinary (name : String) : Prop where
  nonempty : name ≠ ""
  current : name ≠ "."
  above : name ≠ ".."
  single : '/' ∉ name.toList

variable {root : PathBuf} {name : String}

theorem Ordinary.components (h : Ordinary name) : PathBuf.components name = [name] := by
  rw [PathBuf.components, List.splitOn_eq_singleton h.single, List.map_singleton,
    String.ofList_toList]
  refine List.filter_eq_self.mpr fun c hc => ?_
  rw [List.mem_singleton.mp hc]
  exact decide_eq_true ⟨h.nonempty, h.current⟩

/-- Joined, it is one more component. -/
theorem Ordinary.join (h : Ordinary name) : root.join name = root ++ [name] := by
  have hhead : name.toList.head? ≠ some '/' := by
    intro hhead
    exact h.single (List.mem_of_mem_head? hhead)
  rw [PathBuf.join, if_neg hhead, h.components]

theorem withExtension_concat (hname : name ≠ "..") (extension : String) :
    PathBuf.withExtension (root ++ [name]) extension =
      root ++ [fileStem name ++ "." ++ extension] := by
  have hfile : PathBuf.fileName (root ++ [name]) = some name := by
    rw [PathBuf.fileName, List.getLast?_concat]
    exact if_neg hname
  rw [PathBuf.withExtension, hfile, List.dropLast_concat]

end PathBuf

/-! ## Extensions -/

/-- A name with an extension determines what is before it, and the extension. -/
theorem extended_unique {s t e f : String} (he : '.' ∉ e.toList) (hf : '.' ∉ f.toList)
    (h : s ++ "." ++ e = t ++ "." ++ f) : s = t ∧ e = f := by
  have htext := congrArg String.toList h
  have hdot : ".".toList = ['.'] := rfl
  simp only [String.toList_append, hdot, List.append_assoc, List.cons_append,
    List.nil_append] at htext
  rcases Separator.split_clean he hf htext with ⟨hst, hef⟩
  exact ⟨String.toList_inj.mp hst, String.toList_inj.mp hef⟩

theorem lock_clean : '.' ∉ "lock".toList := by decide

/-- The extension of an aside path has no dot in it. -/
theorem replaced_clean (process : Nat) : '.' ∉ ("replaced-" ++ toString process).toList := by
  rw [String.toList_append, List.mem_append, not_or]
  refine ⟨by decide, fun h => ?_⟩
  rw [Nat.toString_eq_repr, Nat.toList_repr] at h
  exact absurd (Nat.isDigit_of_mem_toDigits (by decide) (by decide) h) (by decide)

theorem lockPathOf_concat {root : PathBuf} {name : String} (hname : name ≠ "..") :
    lockPathOf (root ++ [name]) = root ++ [PathBuf.fileStem name ++ "." ++ "lock"] :=
  PathBuf.withExtension_concat hname _

theorem asideOf_concat {root : PathBuf} {name : String} (hname : name ≠ "..") (process : Nat) :
    asideOf (root ++ [name]) process =
      root ++ [PathBuf.fileStem name ++ "." ++ ("replaced-" ++ toString process)] :=
  PathBuf.withExtension_concat hname _

/-! ## Two installs -/

/-- Two installs that share neither a lock nor an aside path, so that the one never waits
    for the other. -/
structure Independent (S : Site) (r r' : InstallRequest) : Prop where
  lock : S.lockAt r ≠ S.lockAt r'
  aside : S.lookup.locate (S.aside r) ≠ S.lookup.locate (S.aside r')
  waits : ∀ s l, s.locked = [S.lockAt r] →
    (RunOp.lockExclusive (lockPathOf (S.installDir r'))).respond S s l .pass ≠ none

section Two

variable {S : Site} {r r' : InstallRequest}

/-- The name of the lock, in the root. -/
theorem lockAt_eq (h : PathBuf.Ordinary r.distribution.installDirName) :
    S.lockAt r = S.lookup.locate (S.cacheRoot r) ++
      [PathBuf.fileStem r.distribution.installDirName ++ "." ++ "lock"] := by
  rw [Site.lockAt, Site.installDir, h.join, lockPathOf_concat h.above]
  exact S.lookup.join _ _ (extended_ne _ (by decide))

theorem replaced_long (process : Nat) : 1 < ("replaced-" ++ toString process).length := by
  have hpre : "replaced-".length = 9 := rfl
  rw [String.length_append, hpre]
  omega

/-- The name of the aside path, in the root. -/
theorem aside_eq (h : PathBuf.Ordinary r.distribution.installDirName) :
    S.lookup.locate (S.aside r) = S.lookup.locate (S.cacheRoot r) ++
      [PathBuf.fileStem r.distribution.installDirName ++ "." ++
        ("replaced-" ++ toString r.process)] := by
  rw [Site.aside, Site.installDir, h.join, asideOf_concat h.above]
  exact S.lookup.join _ _ (extended_ne _ (replaced_long _))

/-- Two names in one root belong to independent installs exactly if they differ
    before the last dot. -/
theorem independent_iff (S : Site) (r r' : InstallRequest)
    (h : PathBuf.Ordinary r.distribution.installDirName)
    (h' : PathBuf.Ordinary r'.distribution.installDirName)
    (hroot : S.cacheRoot r = S.cacheRoot r') :
    Independent S r r' ↔
      PathBuf.fileStem r.distribution.installDirName ≠
        PathBuf.fileStem r'.distribution.installDirName := by
  refine ⟨fun hind hstem => hind.lock ?_, fun hstem => ?_⟩
  · rw [lockAt_eq h, lockAt_eq h', hroot, hstem]
  · have hlock : S.lockAt r ≠ S.lockAt r' := by
      rw [lockAt_eq h, lockAt_eq h', hroot]
      intro heq
      have hname := List.singleton_inj.mp (List.append_cancel_left heq)
      exact hstem (extended_unique lock_clean lock_clean hname).1
    refine ⟨hlock, ?_, fun s l hlocked => ?_⟩
    · rw [aside_eq h, aside_eq h', hroot]
      intro heq
      have hname := List.singleton_inj.mp (List.append_cancel_left heq)
      exact hstem (extended_unique (replaced_clean _) (replaced_clean _) hname).1
    · have hfree : S.lookup.locate (lockPathOf (S.installDir r')) ∉ s.locked := by
        rw [hlocked]
        exact fun hmem => hlock (List.mem_singleton.mp hmem).symm
      simp only [RunOp.respond, if_pos hfree]
      exact Option.some_ne_none _

end Two

/-- A call that installs into a directory with a name. -/
def namedRequest (name : String) : InstallRequest :=
  { toolRequest with distribution := { toolRequest.distribution with installDirName := name } }

/-- Two toolchains of different languages. -/
theorem independent_iff_languages :
    PathBuf.fileStem "node-v22.11.0-linux-x64" ≠ PathBuf.fileStem "cpython-3.12.4-linux" ∧
      Independent toolSite (namedRequest "node-v22.11.0-linux-x64")
        (namedRequest "cpython-3.12.4-linux") := by
  have hstem : PathBuf.fileStem "node-v22.11.0-linux-x64" ≠
      PathBuf.fileStem "cpython-3.12.4-linux" := by decide
  refine ⟨hstem, (independent_iff toolSite (namedRequest "node-v22.11.0-linux-x64")
    (namedRequest "cpython-3.12.4-linux") ?_ ?_ rfl).mpr hstem⟩
  · exact ⟨by decide, by decide, by decide, by decide⟩
  · exact ⟨by decide, by decide, by decide, by decide⟩

/-- Two releases of one toolchain share their lock. -/
theorem releases_share : ¬ ∀ (S : Site) (r r' : InstallRequest),
    PathBuf.Ordinary r.distribution.installDirName →
    PathBuf.Ordinary r'.distribution.installDirName → S.cacheRoot r = S.cacheRoot r' →
    r.distribution.installDirName ≠ r'.distribution.installDirName → Independent S r r' := by
  intro h
  have hfirst : PathBuf.Ordinary
      (namedRequest "node-v22.11.0-linux-x64").distribution.installDirName :=
    ⟨by decide, by decide, by decide, by decide⟩
  have hsecond : PathBuf.Ordinary
      (namedRequest "node-v22.11.1-linux-x64").distribution.installDirName :=
    ⟨by decide, by decide, by decide, by decide⟩
  have hstem : PathBuf.fileStem "node-v22.11.0-linux-x64" =
      PathBuf.fileStem "node-v22.11.1-linux-x64" := by decide
  have hind := h toolSite _ _ hfirst hsecond rfl (by decide)
  refine hind.lock ?_
  rw [lockAt_eq hfirst, lockAt_eq hsecond]
  exact congrArg (fun stem => _ ++ [stem ++ "." ++ "lock"]) hstem

end TinyRuntime
