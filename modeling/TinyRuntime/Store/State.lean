import TinyRuntime.Bus.Runtime
import TinyRuntime.Lib.Disk
import TinyRuntime.Lib.Program
import Mathlib.Data.List.Dedup

/-!
# The Cache Root on Disk

Paths as the store builds them, and the calls of the file system it makes.

A `PathBuf` is a list of components, and what the store does to one is text: the
extension is replaced, not appended, and a path without a file name is left as it
is. Where a path leads is the operating system's business (`Lookup`); all that is
used of it is that an ordinary name is looked up in the directory before it.

Every call may fail. One that succeeds needs what the system needs for it, and a
recursive deletion is a loop over single names, each of them free of others below
it, in any order.

## Main definitions

* `PathBuf.fileName`, `PathBuf.parent`, `PathBuf.withExtension`: Paths.
* `Lookup`: Where paths lead.
* `StoreOp`, `StoreChoice`, `StoreOp.respond`: The calls and their answers.
* `StoreOp.Answers`: The same as a relation.
* `removeDirAll`: The recursive deletion.

## Theorems

* `StoreOp.answers_of_respond`: What each call can answer and change.
* `removeDirAll_spec`: What losing a name keeps, the recursive deletion keeps.
-/

namespace TinyRuntime

/-! ## Paths -/

/-- The components of a path, root first. -/
abbrev PathBuf := List String

namespace PathBuf

/-- `Path::file_name`. -/
def fileName (path : PathBuf) : Option String :=
  match path.getLast? with
  | some name => if name = ".." then none else some name
  | none => none

/-- `Path::parent`. -/
def parent (path : PathBuf) : Option PathBuf :=
  if path = [] then none else some path.dropLast

/-- `Path::file_stem` of a file name: what is before the last dot, unless that is
    nothing. -/
def fileStem (name : String) : String :=
  let reversed := name.toList.reverse
  let before := (reversed.dropWhile (· ≠ '.')).drop 1
  if before = [] then name else String.ofList before.reverse

/-- `Path::with_extension`. -/
def withExtension (path : PathBuf) (extension : String) : PathBuf :=
  match path.fileName with
  | none => path
  | some name => path.dropLast ++ [fileStem name ++ "." ++ extension]

end PathBuf

/-- Where paths lead, every link in their directories followed. -/
structure Lookup where
  locate : PathBuf → List String
  join : ∀ path name, name ≠ ".." → locate (path ++ [name]) = locate path ++ [name]

/-! ## Calls -/

/-- The calls of the file system. -/
inductive StoreOp : Type → Type
  /-- `fs::create_dir_all`. -/
  | createDirAll (path : PathBuf) : StoreOp (Except String Unit)
  /-- `Path::exists`. -/
  | pathExists (path : PathBuf) : StoreOp Bool
  /-- `fs::rename`. -/
  | rename (source target : PathBuf) : StoreOp (Except String Unit)
  /-- One step of `fs::remove_dir_all`; true when the directory is gone. -/
  | removeNext (path : PathBuf) : StoreOp (Except String Bool)
  /-- `fs::read_dir`: every name with whether it is a directory. -/
  | readDir (path : PathBuf) : StoreOp (Except String (List (String × Bool)))
  /-- `is_inside`. -/
  | isInside (root candidate : PathBuf) : StoreOp Bool
  /-- `provider.layout`. -/
  | layout (path : PathBuf) : StoreOp (Except Error (Option RuntimeLayout))

/-- What the outside decides when a call is answered. -/
inductive StoreChoice
  | pass
  | failed (reason : String)
  /-- How many directories were made before one could not be. -/
  | partly (made : Nat) (reason : String)
  /-- The name a deletion takes next. -/
  | entry (path : List String)

/-- The directories down to a path are there or can be made. -/
def Makes (d : Disk String) (p : List String) : Prop :=
  ∀ x ∈ p.inits, d.node x = none ∨ d.node x = some .dir

instance (d : Disk String) (p : List String) : Decidable (Makes d p) :=
  inferInstanceAs (Decidable (∀ x ∈ p.inits, d.node x = none ∨ d.node x = some .dir))

/-- The names in a directory, with whether they are directories. -/
def listing (d : Disk String) (p : List String) : List (String × Bool) :=
  let names := (d.paths.filter fun x => x.dropLast = p).filterMap List.getLast?
  (names.filter fun name => name ≠ ".." ∧ d.node (p ++ [name]) ≠ none).dedup.map fun name =>
    (name, decide (d.node (p ++ [name]) = some .dir))

theorem mem_listing {d : Disk String} {p : List String} {name : String} (hname : name ≠ "..")
    (hdir : d.node (p ++ [name]) = some .dir) : (name, true) ∈ listing d p := by
  have hnode : d.node (p ++ [name]) ≠ none := by
    rw [hdir]
    exact Option.some_ne_none _
  refine List.mem_map.mpr ⟨name, ?_, by rw [hdir]; rfl⟩
  refine List.mem_dedup.mpr (List.mem_filter.mpr ⟨?_, decide_eq_true ⟨hname, hnode⟩⟩)
  refine List.mem_filterMap.mpr ⟨p ++ [name], List.mem_filter.mpr ⟨d.listed _ hnode, ?_⟩, ?_⟩
  · exact decide_eq_true List.dropLast_concat
  · exact List.getLast?_concat

theorem name_of_mem_listing {d : Disk String} {p : List String} {e : String × Bool}
    (h : e ∈ listing d p) : e.1 ≠ ".." := by
  rcases List.mem_map.mp h with ⟨name, hname, rfl⟩
  exact (of_decide_eq_true (List.mem_filter.mp (List.mem_dedup.mp hname)).2).1

/-- All a path holds. -/
abbrev Tree := List String → Option (DiskEntry String)

/-- How a provider looks at a directory: its path and all it holds. -/
abbrev Inspect :=
  PathBuf → Tree → Except Error (Option RuntimeLayout)

/-- The answer of a call under a choice, and what it changes. -/
def StoreOp.respond {β : Type} (L : Lookup) (inspect : Inspect) (op : StoreOp β)
    (d : Disk String) (c : StoreChoice) : Option (β × Disk String) :=
  match op with
  | .createDirAll path =>
      match c with
      | .pass =>
          if Makes d (L.locate path) then some (.ok (), d.makeDirs (L.locate path)) else none
      | .partly made reason =>
          if Makes d ((L.locate path).take made) then
            some (.error reason, d.makeDirs ((L.locate path).take made))
          else none
      | .failed reason => some (.error reason, d)
      | _ => none
  | .pathExists path =>
      match c with
      | .pass => if d.node (L.locate path) ≠ none then some (true, d) else none
      | .failed _ => some (false, d)
      | _ => none
  | .rename source target =>
      match c with
      | .pass =>
          if L.locate source = L.locate target then
            if d.node (L.locate source) ≠ none then some (.ok (), d) else none
          else if d.Renames (L.locate source) (L.locate target) then
            some (.ok (), d.rename (L.locate source) (L.locate target))
          else none
      | .failed reason => some (.error reason, d)
      | _ => none
  | .removeNext path =>
      match c with
      | .entry x =>
          if L.locate path <+: x ∧ d.isFile (L.locate path) = false ∧ d.node x ≠ none ∧
              d.Vacant x then
            some (.ok (decide (x = L.locate path)), d.remove x)
          else none
      | .failed reason => some (.error reason, d)
      | _ => none
  | .readDir path =>
      match c with
      | .pass => some (.ok (listing d (L.locate path)), d)
      | .failed reason => some (.error reason, d)
      | _ => none
  | .isInside root candidate =>
      match c, d.node (L.locate candidate) with
      | .pass, none => some (false, d)
      -- Where a link leads is not known here.
      | .pass, some (.link _) => some (true, d)
      | .failed _, some (.link _) => some (false, d)
      | .pass, some _ => some (decide (L.locate root <+: L.locate candidate), d)
      | _, _ => none
  | .layout path => some (inspect path (d.tree (L.locate path)), d)

/-- What a call can answer and change, over all choices. -/
def StoreOp.Answers {β : Type} (L : Lookup) (inspect : Inspect) (op : StoreOp β)
    (d : Disk String) (b : β) (d' : Disk String) : Prop :=
  match op with
  | .createDirAll path => d' = d ∨ ∃ made, made <+: L.locate path ∧ d' = d.makeDirs made
  | .pathExists path => d' = d ∧ (b = true → d.node (L.locate path) ≠ none)
  | .rename source target =>
      b = .ok () ∧ d.node (L.locate source) ≠ none ∧
          (L.locate source = L.locate target ∧ d' = d ∨
            d.Renames (L.locate source) (L.locate target) ∧
              d' = d.rename (L.locate source) (L.locate target)) ∨
        (∃ reason, b = .error reason) ∧ d' = d
  | .removeNext path =>
      (∃ x, b = .ok (decide (x = L.locate path)) ∧ L.locate path <+: x ∧ d.node x ≠ none ∧
          d' = d.remove x) ∨
        (∃ reason, b = .error reason) ∧ d' = d
  | .readDir path => d' = d ∧ ∀ names, b = .ok names → names = listing d (L.locate path)
  | .isInside root candidate => d' = d ∧
      (d.node (L.locate candidate) = some .dir → b = decide (L.locate root <+: L.locate candidate))
  | .layout path => d' = d ∧ b = inspect path (d.tree (L.locate path))

theorem StoreOp.answers_of_respond {β : Type} {L : Lookup} {inspect : Inspect} {op : StoreOp β}
    {d d' : Disk String} {c : StoreChoice} {b : β}
    (h : op.respond L inspect d c = some (b, d')) : op.Answers L inspect d b d' := by
  cases op with
  | createDirAll path =>
      cases c with
      | pass =>
          simp only [respond] at h
          split at h
          · cases h
            exact .inr ⟨_, List.prefix_refl _, rfl⟩
          · cases h
      | partly made reason =>
          simp only [respond] at h
          split at h
          · cases h
            exact .inr ⟨_, List.take_prefix _ _, rfl⟩
          · cases h
      | failed reason =>
          cases h
          exact .inl rfl
      | entry x => cases h
  | pathExists path =>
      cases c with
      | pass =>
          simp only [respond] at h
          split at h
          · cases h
            exact ⟨rfl, fun _ => ‹_›⟩
          · cases h
      | failed reason =>
          cases h
          exact ⟨rfl, fun hb => by cases hb⟩
      | _ => cases h
  | rename source target =>
      cases c with
      | pass =>
          simp only [respond] at h
          split at h
          · split at h
            · cases h
              exact .inl ⟨rfl, ‹_›, .inl ⟨‹_›, rfl⟩⟩
            · cases h
          · split at h
            · rename_i hrenames
              cases h
              exact .inl ⟨rfl, hrenames.1, .inr ⟨hrenames, rfl⟩⟩
            · cases h
      | failed reason =>
          cases h
          exact .inr ⟨⟨reason, rfl⟩, rfl⟩
      | _ => cases h
  | removeNext path =>
      cases c with
      | entry x =>
          simp only [respond] at h
          split at h
          · rename_i hx
            cases h
            exact .inl ⟨x, rfl, hx.1, hx.2.2.1, rfl⟩
          · cases h
      | failed reason =>
          cases h
          exact .inr ⟨⟨reason, rfl⟩, rfl⟩
      | _ => cases h
  | readDir path =>
      cases c with
      | pass =>
          cases h
          exact ⟨rfl, fun names hb => (Except.ok.inj hb).symm⟩
      | failed reason =>
          cases h
          exact ⟨rfl, fun names hb => by cases hb⟩
      | _ => cases h
  | isInside root candidate =>
      simp only [respond] at h
      split at h <;> cases h <;> grind [Answers]
  | layout path =>
      cases h
      exact ⟨rfl, rfl⟩

/-- The cache root under the store's calls. -/
def storeHandler (L : Lookup) (inspect : Inspect) : Handler StoreOp (Disk String) StoreChoice where
  respond op d c := op.respond L inspect d c

/-- `fs::remove_dir_all`, one name at a time. It may fail anywhere, and `removals`
    bounds the names it takes before it does; any history has such a bound. -/
def removeDirAll (path : PathBuf) : Nat → Prog StoreOp (Except String Unit)
  | 0 => pure (.error "interrupted")
  | removals + 1 => do
      match ← Prog.op (.removeNext path) with
      | .error reason => pure (.error reason)
      | .ok true => pure (.ok ())
      | .ok false => removeDirAll path removals

section Deletion

variable {L : Lookup} {inspect : Inspect} {d : Disk String}

/-- One call. -/
theorem wp_store {β : Type} {op : StoreOp β} {A : ∀ β, StoreOp β → Disk String → Prop}
    {Q : β → Disk String → Prop} (hA : A _ op d)
    (hQ : ∀ b d', op.Answers L inspect d b d' → Q b d') :
    (Prog.op op).wp (storeHandler L inspect) A Q d :=
  ⟨hA, fun _ b d' hr => hQ b d' (StoreOp.answers_of_respond hr)⟩

/-- A postcondition of one call holds of each of its answers. -/
theorem answer_of_wp {β : Type} {op : StoreOp β} {A : ∀ β, StoreOp β → Disk String → Prop}
    {Q : β → Disk String → Prop} (h : (Prog.op op).wp (storeHandler L inspect) A Q d)
    {c : StoreChoice} {b : β} {d' : Disk String} (hr : op.respond L inspect d c = some (b, d')) :
    Q b d' :=
  h.2 c b d' hr

/-- What losing a name below a path keeps, its recursive deletion keeps. -/
theorem removeDirAll_spec {path : PathBuf} {C : Disk String → Prop}
    (hC : ∀ d x, C d → L.locate path <+: x → C (d.remove x)) (removals : Nat) :
    ∀ d, C d → (removeDirAll path removals).wp (storeHandler L inspect) (Prog.always C)
      (fun _ d' => C d') d := by
  induction removals with
  | zero => exact fun _ h => h
  | succ removals ih =>
      intro d h
      rw [removeDirAll, Prog.wp_bind]
      refine wp_store h ?_
      rintro b d' (⟨x, rfl, hx, _, rfl⟩ | ⟨⟨reason, rfl⟩, rfl⟩)
      · have hnext := hC d x h hx
        split
        · rename_i hr
          cases hr
        · exact hnext
        · exact ih _ hnext
      · exact h

end Deletion

end TinyRuntime
