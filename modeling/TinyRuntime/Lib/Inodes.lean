import Mathlib.Data.List.AList
import Mathlib.Logic.Function.Basic
import Mathlib.Tactic.Common

/-!
# Inodes

A file system as a process sees it that holds directories open: a table of inodes,
where a directory has a name for some of them. An open directory is an inode, and
stays the same when it is renamed or loses its name. Nothing here follows a link.

An inode may have more names than there are in the table, so the number of its
names is kept with it, as the system does. Inodes are never used again. That every
name leads to an inode in the table is a field of the structure.

Where an open directory is now is found by looking for it (`Volume.named`).

The operations are total: whether a call of the operating system fails is for the
caller to say. What such a call needs to succeed has a name (`Volume.Makes`,
`Volume.Renames`).

## Main definitions

* `Volume`: The table.
* `Volume.make`, `Volume.write`, `Volume.unlink`, `Volume.rename`: What changes it.
* `Volume.unlinkAll`: Several names taken away.
* `Volume.named`, `Volume.below`, `Volume.Within`: Where a directory is.
* `Volume.Makes`, `Volume.Renames`: What can be done.
* `Volume.Later`: What others may do.

## Theorems

* `name_make_self`, `name_unlink_self`, `name_rename`: The names afterwards.
* `name_unlinkAll`: The same for several names.
* `name_of_named`, `named_isSome`: Where a directory is.
* `later_make`, `later_unlink`, `later_rename`: An inode stays what it is.
-/

/-- What an inode is. -/
inductive InodeKind
  | dir
  | file
  /-- A symbolic link. -/
  | link
  /-- A pipe, a socket or a device. -/
  | other
deriving DecidableEq

/-- The inodes and the names for them. -/
structure Volume (ν : Type) [DecidableEq ν] where
  kind : Nat → InodeKind
  bytes : Nat → List UInt8
  /-- How many names an inode has. -/
  links : Nat → Nat
  /-- What a directory holds. -/
  names : Nat → AList fun _ : ν => Nat
  /-- The next inode. -/
  fresh : Nat
  bounded : ∀ d x i, (names d).lookup x = some i → i < fresh

namespace Volume

variable {ν : Type} [DecidableEq ν]

/-- What a directory has under a name. -/
def name (v : Volume ν) (d : Nat) (x : ν) : Option Nat :=
  (v.names d).lookup x

/-- An inode is a directory. -/
def Dir (v : Volume ν) (i : Nat) : Prop :=
  i < v.fresh ∧ v.kind i = .dir

/-- A directory that has not been removed. -/
def Live (v : Volume ν) (d : Nat) : Prop :=
  v.kind d = .dir ∧ v.links d ≠ 0

instance (v : Volume ν) (d : Nat) : Decidable (v.Live d) :=
  inferInstanceAs (Decidable (_ ∧ _))

/-- Whether a name can be given to something new. -/
def Makes (v : Volume ν) (d : Nat) (x : ν) : Prop :=
  v.Live d ∧ v.name d x = none

instance (v : Volume ν) (d : Nat) (x : ν) : Decidable (v.Makes d x) :=
  inferInstanceAs (Decidable (_ ∧ _))

/-- Something new and empty under a name. -/
def make (v : Volume ν) (k : InodeKind) (d : Nat) (x : ν) : Volume ν where
  kind := Function.update v.kind v.fresh k
  bytes := Function.update v.bytes v.fresh []
  links := Function.update v.links v.fresh 1
  names := Function.update (Function.update v.names v.fresh ∅) d ((v.names d).insert x v.fresh)
  fresh := v.fresh + 1
  bounded e y i h := by
    rw [Function.update_apply] at h
    split at h
    · by_cases hy : y = x
      · subst hy
        rw [AList.lookup_insert] at h
        exact Nat.lt_succ_of_le (Nat.le_of_eq (Option.some.inj h).symm)
      · rw [AList.lookup_insert_ne hy] at h
        exact Nat.lt_succ_of_lt (v.bounded d y i h)
    · rw [Function.update_apply] at h
      split at h
      · rw [AList.lookup_empty] at h
        cases h
      · exact Nat.lt_succ_of_lt (v.bounded e y i h)

/-- Bytes written at the end of a file. -/
def write (v : Volume ν) (i : Nat) (bytes : List UInt8) : Volume ν :=
  { v with bytes := Function.update v.bytes i (v.bytes i ++ bytes) }

/-- One name less for an inode. -/
def forget (v : Volume ν) : Option Nat → Nat → Nat
  | some i => Function.update v.links i (v.links i - 1)
  | none => v.links

/-- A name is taken away. -/
def unlink (v : Volume ν) (d : Nat) (x : ν) : Volume ν where
  kind := v.kind
  bytes := v.bytes
  links := v.forget (v.name d x)
  names := Function.update v.names d ((v.names d).erase x)
  fresh := v.fresh
  bounded e y i h := by
    rw [Function.update_apply] at h
    split at h
    · by_cases hy : y = x
      · subst hy
        rw [AList.lookup_erase] at h
        cases h
      · rw [AList.lookup_erase_ne hy] at h
        exact v.bounded d y i h
    · exact v.bounded e y i h

/-- Several names are taken away, as far as they are there. -/
def unlinkAll (v : Volume ν) (d : Nat) : List ν → Volume ν
  | [] => v
  | x :: xs => (if (v.name d x).isSome then v.unlink d x else v).unlinkAll d xs

/-- An inode is given a name. -/
def bind (v : Volume ν) (d : Nat) (x : ν) (i : Nat) (hi : i < v.fresh) : Volume ν where
  kind := v.kind
  bytes := v.bytes
  links := v.forget (v.name d x)
  names := Function.update v.names d ((v.names d).insert x i)
  fresh := v.fresh
  bounded e y j h := by
    rw [Function.update_apply] at h
    split at h
    · by_cases hy : y = x
      · subst hy
        rw [AList.lookup_insert] at h
        rw [← Option.some.inj h]
        exact hi
      · rw [AList.lookup_insert_ne hy] at h
        exact v.bounded d y j h
    · exact v.bounded e y j h

/-- The name of an inode is moved, over what has that name already. -/
def rename (v : Volume ν) (d : Nat) (x : ν) (e : Nat) (y : ν) : Volume ν :=
  match hi : v.name d x with
  | none => v
  | some i =>
      if v.name e y = some i then v
      else
        { v.bind e y i (v.bounded d x i hi) with
          names := (Volume.unlink (v.bind e y i (v.bounded d x i hi)) d x).names
          bounded := (Volume.unlink (v.bind e y i (v.bounded d x i hi)) d x).bounded }

/-- Where a directory is, if it has a name. -/
def named (v : Volume ν) (i : Nat) : Option (Nat × ν) :=
  (List.range v.fresh).findSome? fun d =>
    ((v.names d).entries.find? fun e => e.2 = i).map fun e => (d, e.1)

/-- Whether a directory is another one or below it, for so many levels. -/
def below (v : Volume ν) (i : Nat) : Nat → Nat → Bool
  | 0, d => d = i
  | n + 1, d => d = i ∨ (v.named d).any fun at' => v.below i n at'.1

/-- Whether a name can be moved. A directory only replaces an empty one, and is not
    moved into itself. -/
def Renames (v : Volume ν) (d : Nat) (x : ν) (e : Nat) (y : ν) : Prop :=
  v.Live e ∧ (v.name d x).any fun i => ((v.name e y).all fun j =>
    if v.kind i = .dir then v.kind j = .dir ∧ (v.names j).entries = [] else v.kind j ≠ .dir) ∧
    (v.kind i = .dir → v.below i v.fresh e = false)

instance (v : Volume ν) (d : Nat) (x : ν) (e : Nat) (y : ν) : Decidable (v.Renames d x e y) :=
  inferInstanceAs (Decidable (_ ∧ _))

/-- The directories below another one. -/
inductive Within (v : Volume ν) (r : Nat) : Nat → Prop
  | root : Within v r r
  | child (d i : Nat) (x : ν) (above : Within v r d) (name : v.name d x = some i)
      (kind : v.kind i = .dir) : Within v r i

/-- What others do: any names and any bytes, but an inode stays what it is. -/
def Later (v w : Volume ν) : Prop :=
  v.fresh ≤ w.fresh ∧ ∀ i < v.fresh, w.kind i = v.kind i

instance (v w : Volume ν) : Decidable (v.Later w) :=
  inferInstanceAs (Decidable (_ ∧ _))

/-! ## The fields afterwards -/

section Fields

variable {v : Volume ν} {k : InodeKind} {d e f i j : Nat} {x y z : ν} {bs : List UInt8}

theorem name_lt (h : v.name d x = some i) : i < v.fresh :=
  v.bounded d x i h

@[simp] theorem fresh_make : (v.make k d x).fresh = v.fresh + 1 := rfl
@[simp] theorem fresh_write : (v.write i bs).fresh = v.fresh := rfl
@[simp] theorem fresh_unlink : (v.unlink d x).fresh = v.fresh := rfl
@[simp] theorem kind_write : (v.write i bs).kind = v.kind := rfl
@[simp] theorem kind_unlink : (v.unlink d x).kind = v.kind := rfl
@[simp] theorem bytes_unlink : (v.unlink d x).bytes = v.bytes := rfl
@[simp] theorem links_write : (v.write i bs).links = v.links := rfl
@[simp] theorem names_write : (v.write i bs).names = v.names := rfl
@[simp] theorem name_write : (v.write i bs).name d x = v.name d x := rfl

@[simp] theorem kind_make_self : (v.make k d x).kind v.fresh = k :=
  Function.update_self ..

theorem kind_make_ne (h : i ≠ v.fresh) : (v.make k d x).kind i = v.kind i :=
  Function.update_of_ne h ..

@[simp] theorem bytes_make_self : (v.make k d x).bytes v.fresh = [] :=
  Function.update_self ..

theorem bytes_make_ne (h : i ≠ v.fresh) : (v.make k d x).bytes i = v.bytes i :=
  Function.update_of_ne h ..

@[simp] theorem links_make_self : (v.make k d x).links v.fresh = 1 :=
  Function.update_self ..

theorem links_make_ne (h : i ≠ v.fresh) : (v.make k d x).links i = v.links i :=
  Function.update_of_ne h ..

@[simp] theorem bytes_write_self : (v.write i bs).bytes i = v.bytes i ++ bs :=
  Function.update_self ..

theorem bytes_write_ne (h : j ≠ i) : (v.write i bs).bytes j = v.bytes j :=
  Function.update_of_ne h ..

theorem forget_ne {o : Option Nat} (h : o ≠ some j) : v.forget o j = v.links j := by
  cases o with
  | none => rfl
  | some i =>
      have hji : j ≠ i := fun heq => h (congrArg some heq.symm)
      exact Function.update_of_ne hji ..

theorem links_unlink_ne (h : v.name d x ≠ some j) : (v.unlink d x).links j = v.links j :=
  forget_ne h

theorem names_make : (v.make k d x).names =
    Function.update (Function.update v.names v.fresh ∅) d ((v.names d).insert x v.fresh) := rfl

theorem names_unlink : (v.unlink d x).names =
    Function.update v.names d ((v.names d).erase x) := rfl

theorem names_bind (hi : i < v.fresh) : (v.bind d x i hi).names =
    Function.update v.names d ((v.names d).insert x i) := rfl

/-- The new name. -/
@[simp] theorem name_make_self : (v.make k d x).name d x = some v.fresh := by
  rw [name, names_make, Function.update_self, AList.lookup_insert]

/-- The other names of what was there. -/
theorem name_make_ne (he : e ≠ v.fresh) (h : ¬ (e = d ∧ y = x)) :
    (v.make k d x).name e y = v.name e y := by
  rw [name, names_make, Function.update_apply]
  split
  · rename_i hed
    subst hed
    exact AList.lookup_insert_ne fun hyx => h ⟨rfl, hyx⟩
  · rw [Function.update_of_ne he]
    rfl

/-- What is new is empty. -/
theorem names_make_fresh (hd : d ≠ v.fresh) : (v.make k d x).names v.fresh = ∅ := by
  rw [names_make, Function.update_of_ne hd.symm, Function.update_self]

theorem name_make_fresh (hd : d ≠ v.fresh) : (v.make k d x).name v.fresh y = none := by
  rw [name, names_make_fresh hd, AList.lookup_empty]

theorem names_make_ne (he : e ≠ v.fresh) (hd : e ≠ d) : (v.make k d x).names e = v.names e := by
  rw [names_make, Function.update_of_ne hd, Function.update_of_ne he]

@[simp] theorem name_unlink_self : (v.unlink d x).name d x = none := by
  rw [name, names_unlink, Function.update_self, AList.lookup_erase]

theorem name_unlink_ne (h : ¬ (e = d ∧ y = x)) : (v.unlink d x).name e y = v.name e y := by
  rw [name, names_unlink, Function.update_apply]
  split
  · rename_i hed
    subst hed
    exact AList.lookup_erase_ne fun hyx => h ⟨rfl, hyx⟩
  · rfl

/-- A rename that moves nothing. -/
theorem rename_same (h : v.name d x = none ∨ v.name e y = v.name d x) :
    v.rename d x e y = v := by
  rw [rename]
  split
  · rfl
  · rename_i i hi
    rcases h with h | h
    · rw [hi] at h
      cases h
    · exact if_pos (h.trans hi)

section Moves

variable (hi : v.name d x = some i) (hne : v.name e y ≠ some i)

include hi hne

/-- One that does. -/
theorem rename_moves :
    v.rename d x e y =
      { v.bind e y i (v.bounded d x i hi) with
        names := ((v.bind e y i (v.bounded d x i hi)).unlink d x).names
        bounded := ((v.bind e y i (v.bounded d x i hi)).unlink d x).bounded } := by
  rw [rename]
  split
  · rename_i hnone
    rw [hi] at hnone
    cases hnone
  · rename_i j hj
    rw [hi] at hj
    cases hj
    exact if_neg hne

theorem name_rename : (v.rename d x e y).name f z =
    if f = d ∧ z = x then none else if f = e ∧ z = y then some i else v.name f z := by
  rw [rename_moves hi hne]
  change ((v.bind e y i _).unlink d x).name f z = _
  by_cases h : f = d ∧ z = x
  · rw [if_pos h, h.1, h.2, name_unlink_self]
  · rw [if_neg h, name_unlink_ne h, name, names_bind, Function.update_apply]
    split
    · rename_i hfe
      subst hfe
      by_cases hz : z = y
      · subst hz
        rw [if_pos ⟨rfl, rfl⟩, AList.lookup_insert]
      · rw [if_neg fun hf => hz hf.2, AList.lookup_insert_ne hz]
        rfl
    · rename_i hfe
      rw [if_neg fun hf => hfe hf.1]
      rfl

theorem links_rename_ne (h : v.name e y ≠ some j) : (v.rename d x e y).links j = v.links j := by
  rw [rename_moves hi hne]
  exact forget_ne h

end Moves

@[simp] theorem kind_rename : (v.rename d x e y).kind = v.kind := by
  rw [rename]
  split
  · rfl
  · split <;> rfl

@[simp] theorem bytes_rename : (v.rename d x e y).bytes = v.bytes := by
  rw [rename]
  split
  · rfl
  · split <;> rfl

@[simp] theorem fresh_rename : (v.rename d x e y).fresh = v.fresh := by
  rw [rename]
  split
  · rfl
  · split <;> rfl

@[simp] theorem kind_unlinkAll {xs : List ν} : (v.unlinkAll d xs).kind = v.kind := by
  induction xs generalizing v with
  | nil => rfl
  | cons x xs ih =>
      rw [unlinkAll, ih]
      split <;> rfl

@[simp] theorem bytes_unlinkAll {xs : List ν} : (v.unlinkAll d xs).bytes = v.bytes := by
  induction xs generalizing v with
  | nil => rfl
  | cons x xs ih =>
      rw [unlinkAll, ih]
      split <;> rfl

@[simp] theorem fresh_unlinkAll {xs : List ν} : (v.unlinkAll d xs).fresh = v.fresh := by
  induction xs generalizing v with
  | nil => rfl
  | cons x xs ih =>
      rw [unlinkAll, ih]
      split <;> rfl

theorem name_unlinkAll {xs : List ν} :
    (v.unlinkAll d xs).name e y = if e = d ∧ y ∈ xs then none else v.name e y := by
  induction xs generalizing v with
  | nil => rw [if_neg fun h => List.not_mem_nil h.2, unlinkAll]
  | cons x xs ih =>
      rw [unlinkAll, ih]
      by_cases hx : e = d ∧ y = x
      · rw [hx.1, hx.2, if_pos (And.intro rfl List.mem_cons_self)]
        split
        · rfl
        · split
          · exact name_unlink_self
          · rename_i hnone
            exact Option.not_isSome_iff_eq_none.mp hnone
      · have hmem : (e = d ∧ y ∈ x :: xs) ↔ (e = d ∧ y ∈ xs) := by
          rw [List.mem_cons]
          exact and_congr_right fun he => or_iff_right fun hy => hx ⟨he, hy⟩
        simp only [hmem]
        split
        · rfl
        · split
          · exact name_unlink_ne hx
          · rfl

/-! ## Where a directory is -/

theorem name_of_named (h : v.named i = some (d, x)) : d < v.fresh ∧ v.name d x = some i := by
  rcases List.exists_of_findSome?_eq_some h with ⟨e, he, hfind⟩
  rcases Option.map_eq_some_iff.mp hfind with ⟨entry, hentry, heq⟩
  cases heq
  have hmem := List.mem_of_find?_eq_some hentry
  have hi : entry.2 = i := by simpa only [decide_eq_true_eq] using List.find?_some hentry
  refine ⟨List.mem_range.mp he, ?_⟩
  subst hi
  exact AList.mem_lookup_iff.mpr hmem

theorem named_isSome (hd : d < v.fresh) (h : v.name d x = some i) : (v.named i).isSome := by
  have hmem : (⟨x, i⟩ : Sigma fun _ : ν => Nat) ∈ (v.names d).entries :=
    AList.mem_lookup_iff.mp h
  rw [named, List.findSome?_isSome_iff]
  refine ⟨d, List.mem_range.mpr hd, ?_⟩
  rw [Option.isSome_map, List.find?_isSome]
  exact ⟨_, hmem, decide_eq_true rfl⟩

theorem named_isSome_iff :
    (v.named i).isSome ↔ ∃ d x, d < v.fresh ∧ v.name d x = some i := by
  constructor
  · intro h
    rcases Option.isSome_iff_exists.mp h with ⟨⟨d, x⟩, hnamed⟩
    exact ⟨d, x, name_of_named hnamed⟩
  · rintro ⟨d, x, hd, hx⟩
    exact named_isSome hd hx

theorem Within.lt {r : Nat} (h : v.Within r d) (hr : r < v.fresh) : d < v.fresh := by
  cases h with
  | root => exact hr
  | child _ _ _ _ hname _ => exact name_lt hname

/-- A directory without names in it. -/
theorem entries_nil_iff : (v.names d).entries = [] ↔ ∀ x, v.name d x = none := by
  constructor
  · intro h x
    rw [name, AList.lookup_eq_none, AList.mem_keys, AList.keys, h]
    exact List.not_mem_nil
  · intro h
    refine List.eq_nil_iff_forall_not_mem.mpr fun e he => ?_
    have hx : v.name d e.1 = some e.2 := AList.mem_lookup_iff.mpr he
    cases (h e.1).symm.trans hx

/-! ## What an inode is -/

theorem Later.rfl : v.Later v :=
  ⟨Nat.le_refl _, fun _ _ => Eq.refl _⟩

theorem Later.trans {w u : Volume ν} (h : v.Later w) (h' : w.Later u) : v.Later u :=
  ⟨Nat.le_trans h.1 h'.1, fun i hi => (h'.2 i (Nat.lt_of_lt_of_le hi h.1)).trans (h.2 i hi)⟩

theorem Dir.later {w : Volume ν} (h : v.Dir i) (hw : v.Later w) : w.Dir i :=
  ⟨Nat.lt_of_lt_of_le h.1 hw.1, (hw.2 i h.1).trans h.2⟩

theorem later_make : v.Later (v.make k d x) :=
  ⟨Nat.le_succ _, fun _ hi => kind_make_ne (Nat.ne_of_lt hi)⟩

theorem later_write : v.Later (v.write i bs) :=
  ⟨Nat.le_refl _, fun _ _ => rfl⟩

theorem later_unlink : v.Later (v.unlink d x) :=
  ⟨Nat.le_refl _, fun _ _ => rfl⟩

theorem later_rename : v.Later (v.rename d x e y) :=
  ⟨Nat.le_of_eq fresh_rename.symm, fun _ _ => congrFun kind_rename _⟩

end Fields

end Volume
