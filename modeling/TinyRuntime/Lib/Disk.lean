import Mathlib.Data.List.Infix
import Mathlib.Tactic.Common

/-!
# A File System

Paths name directories, links and files, and files are inodes with contents. The
name components are a parameter, and every path is absolute and resolved: what a
link leads to is for the caller to say.

An inode has one name at most (there are no hard links), and a new file gets an
inode no other file ever had. Both are fields of the structure, so no later proof
has to carry them. An open file keeps writing to its inode after the name is
gone.

The operations are total: whether a call of the operating system fails is for the
caller to say. Where such a call can only succeed under a condition, the condition
has a name (`Renames`).

What a path holds is a tree (`Disk.tree`): all names below it, relative to it, with
their kinds and contents. Two paths neither of which contains the other are
`Apart`, and what is done to one tree leaves the other alone.

## Main definitions

* `Disk`: The names and the contents.
* `Disk.tree`: What a path holds.
* `Disk.makeDirs`, `Disk.create`, `Disk.remove`, `Disk.removeAll`, `Disk.rename`:
  What changes the names.
* `Disk.symlink`, `Disk.place`: Names for links, and for anything.
* `Disk.append`, `Disk.overwrite`: What changes the contents.
* `Disk.follow`: Where a name leads that may be a link.
* `Disk.subdirs`: The directories inside a directory.
* `Disk.Renames`: Whether a rename can succeed.
* `Disk.Apart`: Neither path contains the other.
* `Disk.Unlinked`: An inode without a name.

## Theorems

* `node_create`, `node_rename_of_not`, `node_removeAll_of_not`: Names an operation
  leaves alone.
* `tree_rename`, `tree_rename_apart`, `tree_prune_apart`: The trees afterwards.
* `single`: Two names of one inode are the same.
* `Unlinked.create`, `Unlinked.rename`: An inode never gets a name back.
-/

/-- Bytes written at an offset of a file, zeros before it. -/
def writeAt (old : List UInt8) (offset : Nat) (bytes : List UInt8) : List UInt8 :=
  (old ++ List.replicate (offset - old.length) 0).take offset ++ bytes ++
    old.drop (offset + bytes.length)

/-- Writing on at the end of what is there. -/
theorem writeAt_end {old : List UInt8} {offset : Nat} (bytes : List UInt8)
    (h : old.length = offset) : writeAt old offset bytes = old ++ bytes := by
  have hrest : old.drop (offset + bytes.length) = [] := List.drop_of_length_le (by omega)
  rw [writeAt, hrest, h, Nat.sub_self, List.replicate_zero, List.append_nil, List.append_nil,
    List.take_of_length_le (Nat.le_of_eq h)]

variable {ν : Type} [DecidableEq ν]

/-- What a path names. -/
inductive Node (ν : Type)
  | dir
  | file (inode : Nat)
  /-- A symbolic link. -/
  | link (target : List ν)
deriving DecidableEq

/-- The same with the contents in place of the inode. -/
inductive DiskEntry (ν : Type)
  | dir
  | file (bytes : List UInt8)
  | link (target : List ν)
deriving DecidableEq

/-- The names and the contents. -/
structure Disk (ν : Type) [DecidableEq ν] where
  node : List ν → Option (Node ν)
  /-- Where to look for names; not all of them need to exist. -/
  paths : List (List ν)
  data : Nat → List UInt8
  /-- The next inode. -/
  fresh : Nat
  listed : ∀ p, node p ≠ none → p ∈ paths
  single : ∀ p q i, node p = some (.file i) → node q = some (.file i) → p = q
  bounded : ∀ p i, node p = some (.file i) → i < fresh

namespace Disk

/-- Nothing on it. -/
def empty : Disk ν where
  node _ := none
  paths := []
  data _ := []
  fresh := 0
  listed _ h := absurd rfl h
  single _ _ _ h := by cases h
  bounded _ _ h := by cases h

/-- What a path names, with its contents. -/
def entry (d : Disk ν) (p : List ν) : Option (DiskEntry ν) :=
  (d.node p).map fun n =>
    match n with
    | .dir => .dir
    | .file i => .file (d.data i)
    | .link target => .link target

/-- Whether a path names a file. -/
def isFile (d : Disk ν) (p : List ν) : Bool :=
  match d.node p with
  | some (.file _) => true
  | _ => false

/-- All a path holds. -/
def tree (d : Disk ν) (p : List ν) : List ν → Option (DiskEntry ν) :=
  fun x => d.entry (p ++ x)

/-- No path names the inode. -/
def Unlinked (d : Disk ν) (i : Nat) : Prop :=
  ∀ p, d.node p ≠ some (.file i)

/-- The directories directly inside one. -/
def subdirs (d : Disk ν) (p : List ν) : List (List ν) :=
  (d.paths.filter fun x => x.dropLast = p ∧ x ≠ p ∧ d.node x = some .dir).dedup

/-- Nothing is named below a path. -/
def Vacant (d : Disk ν) (p : List ν) : Prop :=
  ∀ x ∈ d.paths, p <+: x → x ≠ p → d.node x = none

instance (d : Disk ν) (p : List ν) : Decidable (d.Vacant p) :=
  inferInstanceAs (Decidable (∀ x ∈ d.paths, p <+: x → x ≠ p → d.node x = none))

/-- Whether the first path can be renamed to the second: it is there and does not
    contain the second, whose directory is there; and what the second names, if
    anything, can be replaced. -/
def Renames (d : Disk ν) (p q : List ν) : Prop :=
  d.node p ≠ none ∧ ¬ p <+: q ∧ d.node q.dropLast = some .dir ∧
    (d.node q = none ∨
      if d.node p = some .dir then d.node q = some .dir ∧ d.Vacant q else d.node q ≠ some .dir)

instance (d : Disk ν) (p q : List ν) : Decidable (d.Renames p q) :=
  inferInstanceAs (Decidable (_ ∧ _ ∧ _ ∧ (_ ∨ ite _ _ _)))

/-- Neither path contains the other. -/
def Apart (p q : List ν) : Prop :=
  ¬ p <+: q ∧ ¬ q <+: p

/-- A directory and all it is in. -/
def makeDirs (d : Disk ν) (p : List ν) : Disk ν where
  node x := if d.node x = none ∧ x <+: p then some .dir else d.node x
  paths := d.paths ++ p.inits
  data := d.data
  fresh := d.fresh
  listed x h := by
    split at h
    · rename_i hx
      exact List.mem_append_right _ (List.mem_inits _ _ |>.mpr hx.2)
    · exact List.mem_append_left _ (d.listed x h)
  single x y i hx hy := by
    split at hx
    · cases hx
    · split at hy
      · cases hy
      · exact d.single x y i hx hy
  bounded x i hx := by
    split at hx
    · cases hx
    · exact d.bounded x i hx

/-- A name for the next inode. -/
def link (d : Disk ν) (p : List ν) : Disk ν where
  node x := if x = p then some (.file d.fresh) else d.node x
  paths := p :: d.paths
  data := Function.update d.data d.fresh []
  fresh := d.fresh + 1
  listed x h := by
    split at h
    · rename_i hx
      exact hx ▸ List.mem_cons_self ..
    · exact List.mem_cons_of_mem _ (d.listed x h)
  single x y i hx hy := by
    split at hx <;> split at hy
    · rename_i h h'
      exact h.trans h'.symm
    · cases hx
      exact absurd (d.bounded y _ hy) (Nat.lt_irrefl _)
    · cases hy
      exact absurd (d.bounded x _ hx) (Nat.lt_irrefl _)
    · exact d.single x y i hx hy
  bounded x i hx := by
    split at hx
    · cases hx
      exact Nat.lt_succ_self _
    · exact Nat.lt_succ_of_lt (d.bounded x i hx)

/-- A name for a link. -/
def symlink (d : Disk ν) (p target : List ν) : Disk ν where
  node x := if x = p then some (.link target) else d.node x
  paths := p :: d.paths
  data := d.data
  fresh := d.fresh
  listed x h := by
    split at h
    · rename_i hx
      exact hx ▸ List.mem_cons_self ..
    · exact List.mem_cons_of_mem _ (d.listed x h)
  single x y i hx hy := by
    split at hx
    · cases hx
    · split at hy
      · cases hy
      · exact d.single x y i hx hy
  bounded x i hx := by
    split at hx
    · cases hx
    · exact d.bounded x i hx

/-- Where a name leads, if it may be a link. -/
def follow (d : Disk ν) (p : List ν) : List ν :=
  match d.node p with
  | some (.link target) => target
  | _ => p

/-- The contents of an inode replaced. -/
def put (d : Disk ν) (i : Nat) (bytes : List UInt8) : Disk ν :=
  { d with data := Function.update d.data i bytes }

/-- A file opened for writing and made empty: its inode and the disk then. -/
def create (d : Disk ν) (p : List ν) : Nat × Disk ν :=
  match d.node p with
  | some (.file i) => (i, d.put i [])
  | _ => (d.fresh, d.link p)

/-- A file opened without making it empty. -/
def touch (d : Disk ν) (p : List ν) : Disk ν :=
  if d.node p = none then d.link p else d

/-- Bytes written at the end of a file. -/
def append (d : Disk ν) (i : Nat) (bytes : List UInt8) : Disk ν :=
  d.put i (d.data i ++ bytes)

/-- Bytes written at an offset of a file. -/
def overwrite (d : Disk ν) (i offset : Nat) (bytes : List UInt8) : Disk ν :=
  d.put i (writeAt (d.data i) offset bytes)

/-- The names that meet a condition taken away. -/
def prune (d : Disk ν) (gone : List ν → Prop) [DecidablePred gone] : Disk ν where
  node x := if gone x then none else d.node x
  paths := d.paths
  data := d.data
  fresh := d.fresh
  listed x h := by
    split at h
    · exact absurd rfl h
    · exact d.listed x h
  single x y i hx hy := by
    split at hx
    · cases hx
    · split at hy
      · cases hy
      · exact d.single x y i hx hy
  bounded x i hx := by
    split at hx
    · cases hx
    · exact d.bounded x i hx

/-- A file's name taken away. -/
def remove (d : Disk ν) (p : List ν) : Disk ν :=
  d.prune (· = p)

/-- A directory and everything in it. -/
def removeAll (d : Disk ν) (p : List ν) : Disk ν :=
  d.prune (p <+: ·)

omit [DecidableEq ν] in
theorem prefix_drop {p x : List ν} (h : p <+: x) : p ++ x.drop p.length = x := by
  rcases h with ⟨t, rfl⟩
  rw [List.drop_left]

/-- A file or a directory, with everything in it, under another name. What was
    there is gone. -/
def rename (d : Disk ν) (p q : List ν) : Disk ν where
  node x := if q <+: x then d.node (p ++ x.drop q.length) else if p <+: x then none else d.node x
  paths := d.paths ++ d.paths.map fun x => q ++ x.drop p.length
  data := d.data
  fresh := d.fresh
  listed x h := by
    split at h
    · rename_i hx
      refine List.mem_append_right _ (List.mem_map.mpr ⟨_, d.listed _ h, ?_⟩)
      rw [List.drop_left, prefix_drop hx]
    · split at h
      · exact absurd rfl h
      · exact List.mem_append_left _ (d.listed x h)
  single x y i hx hy := by
    split at hx <;> split at hy
    · rename_i h h'
      have heq := List.append_cancel_left (d.single _ _ i hx hy)
      rw [← prefix_drop h, ← prefix_drop h', heq]
    · split at hy
      · cases hy
      · rename_i hp
        exact absurd ⟨_, d.single _ _ i hx hy⟩ hp
    · split at hx
      · cases hx
      · rename_i hp
        exact absurd ⟨_, (d.single _ _ i hx hy).symm⟩ hp
    · split at hx
      · cases hx
      · split at hy
        · cases hy
        · exact d.single x y i hx hy
  bounded x i hx := by
    split at hx
    · exact d.bounded _ i hx
    · split at hx
      · cases hx
      · exact d.bounded x i hx

/-- Anything made at a path, with the directories it is in. -/
def place (d : Disk ν) (p : List ν) (e : DiskEntry ν) : Disk ν :=
  match e with
  | .dir => d.makeDirs p
  | .file bytes =>
      let r := (d.makeDirs p.dropLast).create p
      r.2.put r.1 bytes
  | .link target => (d.makeDirs p.dropLast).symlink p target

/-! ## Names that stay -/

variable {d : Disk ν} {p q x : List ν} {i j : Nat}

@[simp] theorem data_makeDirs : (d.makeDirs p).data = d.data := rfl

@[simp] theorem data_remove : (d.remove p).data = d.data := rfl

@[simp] theorem data_removeAll : (d.removeAll p).data = d.data := rfl

@[simp] theorem data_rename : (d.rename p q).data = d.data := rfl

@[simp] theorem node_put (bytes : List UInt8) : (d.put i bytes).node = d.node := rfl

@[simp] theorem node_append (bytes : List UInt8) : (d.append i bytes).node = d.node := rfl

@[simp] theorem data_put_self (bytes : List UInt8) : (d.put i bytes).data i = bytes :=
  Function.update_self ..

theorem data_put_ne (bytes : List UInt8) (h : j ≠ i) : (d.put i bytes).data j = d.data j :=
  Function.update_of_ne h ..

@[simp] theorem data_append_self (bytes : List UInt8) :
    (d.append i bytes).data i = d.data i ++ bytes :=
  data_put_self _

theorem data_append_ne (bytes : List UInt8) (h : j ≠ i) :
    (d.append i bytes).data j = d.data j :=
  data_put_ne _ h

theorem node_makeDirs_file (h : d.node x = some (.file i)) :
    (d.makeDirs p).node x = some (.file i) := by
  have hne : ¬ (d.node x = none ∧ x <+: p) := fun hx => by rw [h] at hx; cases hx.1
  exact (if_neg hne).trans h

/-- Directories are made where nothing is. -/
theorem node_makeDirs_ne (h : d.node x ≠ none) : (d.makeDirs p).node x = d.node x :=
  if_neg fun hx => h hx.1

theorem node_link_ne (h : x ≠ p) : (d.link p).node x = d.node x :=
  if_neg h

theorem node_remove_ne (h : x ≠ p) : (d.remove p).node x = d.node x :=
  if_neg h

@[simp] theorem node_remove_self : (d.remove p).node p = none :=
  if_pos rfl

theorem node_removeAll_of_not (h : ¬ p <+: x) : (d.removeAll p).node x = d.node x :=
  if_neg h

theorem node_rename_of_not (hp : ¬ p <+: x) (hq : ¬ q <+: x) :
    (d.rename p q).node x = d.node x :=
  (if_neg hq).trans (if_neg hp)

/-- The created file has its name. -/
theorem node_create_self : (d.create p).2.node p = some (.file (d.create p).1) := by
  unfold create
  split
  · assumption
  · exact if_pos rfl

/-- No other name changes. -/
theorem node_create (h : x ≠ p) : (d.create p).2.node x = d.node x := by
  unfold create
  split
  · rfl
  · exact node_link_ne h

/-- Whatever is there stays when something is made elsewhere. -/
theorem node_place_ne {e : DiskEntry ν} (hx : x ≠ p) (h : d.node x ≠ none) :
    (d.place p e).node x = d.node x := by
  cases e with
  | dir => exact node_makeDirs_ne h
  | file bytes => exact (node_create hx).trans (node_makeDirs_ne h)
  | link target => exact (if_neg hx).trans (node_makeDirs_ne h)

/-- It is empty. -/
@[simp] theorem data_create_self : (d.create p).2.data (d.create p).1 = [] := by
  unfold create
  split
  · exact data_put_self _
  · exact Function.update_self ..

/-- Other files keep their contents. -/
theorem data_create_ne (h : j ≠ (d.create p).1) : (d.create p).2.data j = d.data j := by
  unfold create at h ⊢
  split at h
  · exact data_put_ne _ h
  · exact Function.update_of_ne h ..

/-- A file that has a name is another one. -/
theorem create_ne (hj : d.node x = some (.file j)) (h : x ≠ p) : j ≠ (d.create p).1 := by
  rintro rfl
  unfold create at hj
  split at hj
  · rename_i hp
    exact h (d.single x p _ hj hp)
  · exact absurd (d.bounded x _ hj) (Nat.lt_irrefl _)

/-- So is one that had a name and lost it. -/
theorem create_ne_unlinked (hj : d.Unlinked j) (hfresh : j < d.fresh) :
    j ≠ (d.create p).1 := by
  rintro rfl
  unfold create at hj hfresh
  split at hj
  · rename_i hp
    exact hj p hp
  · simp only at hfresh
    exact absurd hfresh (Nat.lt_irrefl _)

theorem node_touch_file (h : d.node x = some (.file i)) :
    (d.touch p).node x = some (.file i) := by
  unfold touch
  split
  · rename_i hp
    refine (node_link_ne ?_).trans h
    rintro rfl
    rw [h] at hp
    cases hp
  · exact h

theorem data_touch (h : i < d.fresh) : (d.touch p).data i = d.data i := by
  unfold touch
  split
  · exact Function.update_of_ne (Nat.ne_of_lt h) ..
  · rfl

/-! ## Trees -/

theorem entry_congr {d' : Disk ν} (hnode : d'.node x = d.node x) (hdata : d'.data = d.data) :
    d'.entry x = d.entry x := by
  rw [entry, hnode, hdata, entry]

@[simp] theorem entry_eq_none : d.entry x = none ↔ d.node x = none :=
  Option.map_eq_none_iff

/-- Nothing is there. -/
theorem tree_nil : d.tree p [] = d.entry p := by
  rw [tree, List.append_nil]

omit [DecidableEq ν] in
theorem Apart.symm (h : Apart p q) : Apart q p :=
  ⟨h.2, h.1⟩

omit [DecidableEq ν] in
/-- Nothing below one of two paths apart is below the other. -/
theorem Apart.not_prefix (h : Apart p q) (x : List ν) : ¬ p <+: q ++ x := by
  intro hpx
  rcases List.prefix_or_prefix_of_prefix hpx (List.prefix_append q x) with hpq | hqp
  · exact h.1 hpq
  · exact h.2 hqp

omit [DecidableEq ν] in
/-- Two names in one directory. -/
theorem apart_of_ne {a b : ν} (h : a ≠ b) : Apart (p ++ [a]) (p ++ [b]) := by
  have hno : ∀ a b : ν, a ≠ b → ¬ p ++ [a] <+: p ++ [b] := by
    intro a b hne hpre
    have hsingle := (List.prefix_append_right_inj p).mp hpre
    exact hne (List.cons_prefix_cons.mp hsingle).1
  exact ⟨hno a b h, hno b a (Ne.symm h)⟩

/-- Names taken away elsewhere. -/
theorem tree_prune {gone : List ν → Prop} [DecidablePred gone] (h : ∀ x, ¬ gone (p ++ x)) :
    (d.prune gone).tree p = d.tree p :=
  funext fun x => entry_congr (if_neg (h x)) rfl

theorem tree_remove_apart (h : Apart p q) (hx : p <+: x) : (d.remove x).tree q = d.tree q := by
  refine tree_prune fun y hy => ?_
  exact h.not_prefix y (hy ▸ hx)

/-- What was renamed is there. -/
theorem tree_rename : (d.rename p q).tree q = d.tree p := by
  funext x
  have hnode : (d.rename p q).node (q ++ x) = d.node (p ++ x) := by
    refine (if_pos (List.prefix_append q x)).trans ?_
    rw [List.drop_left]
  rw [tree, entry, hnode, tree, entry]
  rfl

/-- Its old name is free. -/
theorem node_rename_self (h : Apart p q) : (d.rename p q).node p = none :=
  (if_neg h.2).trans (if_pos (List.prefix_refl p))

theorem tree_rename_apart {r : List ν} (hp : Apart p r) (hq : Apart q r) :
    (d.rename p q).tree r = d.tree r :=
  funext fun x => entry_congr (node_rename_of_not (hp.not_prefix x) (hq.not_prefix x)) rfl

/-- Directories made above a path. -/
theorem tree_makeDirs (h : ¬ q <+: p) : (d.makeDirs p).tree q = d.tree q := by
  refine funext fun x => entry_congr (if_neg ?_) rfl
  rintro ⟨_, hx⟩
  exact h ((List.prefix_append q x).trans hx)

theorem tree_congr {d' : Disk ν} (hnode : ∀ x, q <+: x → d'.node x = d.node x)
    (hdata : ∀ x i, q <+: x → d.node x = some (.file i) → d'.data i = d.data i) :
    d'.tree q = d.tree q := by
  funext x
  have hx : q <+: q ++ x := List.prefix_append q x
  rw [tree, entry, hnode _ hx, tree, entry]
  cases hn : d.node (q ++ x) with
  | none => rfl
  | some n =>
      cases n with
      | file i => exact congrArg (fun bytes => some (DiskEntry.file bytes)) (hdata _ i hx hn)
      | _ => rfl

/-- Another file's contents. -/
theorem tree_put {bytes : List UInt8} (h : ∀ x, q <+: x → d.node x ≠ some (.file i)) :
    (d.put i bytes).tree q = d.tree q :=
  tree_congr (fun _ _ => rfl) fun x _ hx hj => data_put_ne _ fun heq => h x hx (heq ▸ hj)

/-- A file made elsewhere. -/
theorem tree_create (h : ¬ q <+: p) : (d.create p).2.tree q = d.tree q := by
  have hne : ∀ x, q <+: x → x ≠ p := fun x hx heq => h (heq ▸ hx)
  exact tree_congr (fun x hx => node_create (hne x hx)) fun x _ hx hj =>
    data_create_ne (create_ne hj (hne x hx))

theorem tree_link (h : ¬ q <+: p) : (d.link p).tree q = d.tree q := by
  refine tree_congr (fun x hx => node_link_ne fun heq => h (heq ▸ hx)) fun x j _ hj => ?_
  exact Function.update_of_ne (Nat.ne_of_lt (d.bounded x j hj)) ..

theorem tree_symlink {target : List ν} (h : ¬ q <+: p) : (d.symlink p target).tree q = d.tree q :=
  tree_congr (fun x hx => if_neg fun heq : x = p => h (heq ▸ hx)) fun _ _ _ _ => rfl

/-- Anything made elsewhere. -/
theorem tree_place {e : DiskEntry ν} (h : ¬ q <+: p) : (d.place p e).tree q = d.tree q := by
  have hup : ¬ q <+: p.dropLast := fun hq => h (hq.trans (List.dropLast_prefix p))
  cases e with
  | dir => exact tree_makeDirs h
  | file bytes =>
      refine (tree_put fun x hx hnode => ?_).trans ((tree_create h).trans (tree_makeDirs hup))
      exact h (Disk.single _ _ _ _ hnode node_create_self ▸ hx)
  | link target => exact (tree_symlink h).trans (tree_makeDirs hup)

/-! ## Inodes that lost their name -/

theorem Unlinked.makeDirs (h : d.Unlinked i) : (d.makeDirs p).Unlinked i := by
  intro x hx
  simp only [Disk.makeDirs] at hx
  split at hx
  · cases hx
  · exact h x hx

theorem Unlinked.prune {gone : List ν → Prop} [DecidablePred gone] (h : d.Unlinked i) :
    (d.prune gone).Unlinked i := by
  intro x hx
  simp only [Disk.prune] at hx
  split at hx
  · cases hx
  · exact h x hx

theorem Unlinked.rename (h : d.Unlinked i) : (d.rename p q).Unlinked i := by
  intro x hx
  simp only [Disk.rename] at hx
  split at hx
  · exact h _ hx
  · split at hx
    · cases hx
    · exact h x hx

theorem Unlinked.link (h : d.Unlinked i) (hfresh : i < d.fresh) : (d.link p).Unlinked i := by
  intro x hx
  simp only [Disk.link] at hx
  split at hx
  · cases hx
    exact absurd hfresh (Nat.lt_irrefl _)
  · exact h x hx

theorem Unlinked.create (h : d.Unlinked i) (hfresh : i < d.fresh) :
    (d.create p).2.Unlinked i := by
  unfold Disk.create
  split
  · exact h
  · exact h.link hfresh

theorem Unlinked.touch (h : d.Unlinked i) (hfresh : i < d.fresh) : (d.touch p).Unlinked i := by
  unfold Disk.touch
  split
  · exact h.link hfresh
  · exact h

/-- Taking its only name away. -/
theorem unlinked_remove (h : d.node p = some (.file i)) : (d.remove p).Unlinked i := by
  intro x hx
  simp only [remove, prune] at hx
  split at hx
  · cases hx
  · rename_i hne
    exact hne (d.single x p i hx h)

end Disk
