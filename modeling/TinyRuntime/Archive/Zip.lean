import TinyRuntime.Lib.Modes
import Mathlib.Data.Nat.Bitwise
import Mathlib.Data.List.Pairwise

/-!
# Unpacking a Zip Archive

The entries of an archive, unpacked one after the other into a staging directory, each
given its mode at once.

A directory that has its mode may have lost the bits that its own entries need: nothing can
be made in one that is not written, and nothing be reached through one that is not
searched. What an archive yields then depends on the order of its entries. If the entries
behind a directory need nothing that its mode takes away, the staging directory holds
exactly the tree of the archive in the end.

## Main definitions

* `ZipEntry`, `zip`: The entries of an archive and how they are unpacked.
* `Member`, `expected`: The entries that stay inside, and the tree they describe.
* `Consistent`: No path is both a file and a directory.
* `Enters`, `Passable`: What an entry needs of the directories before it.

## Theorems

* `unpackEntry_ok_iff`: One entry.
* `passes_expected`: What an entry needs, in terms of the entries before it.
* `zip_yields_iff`: When the archive's tree is what is unpacked.
-/

namespace TinyRuntime.Archive

open Modes hiding Tree

/-! ## The code -/

/-- `enclosed_name`: the path of an entry below the directory it is unpacked in, of ordinary
    components only. -/
structure EnclosedName where
  components : List String
  normal : ∀ c ∈ components, c ≠ "" ∧ c ≠ "." ∧ c ≠ ".." ∧ '/' ∉ c.toList

/-- One entry. Its name is missing if it would lead out. -/
structure ZipEntry where
  enclosedName : Option EnclosedName
  isDir : Bool
  contents : List UInt8
  unixMode : Option Nat

/-- The directory an entry is, or its file with the directories it is in. -/
def place (u : Umask) (t : Modes.Tree String) (destination : List String) (entry : ZipEntry) :
    Except IoError (Modes.Tree String) :=
  if entry.isDir then createDirAll u t [] destination
  else do
    let t ← createDirAll u t [] destination.dropLast
    create u t destination entry.contents

/-- One entry unpacked, and given its mode if it carries one. -/
def unpackEntry (u : Umask) (t : Modes.Tree String) (destination : List String) (entry : ZipEntry) :
    Except IoError (Modes.Tree String) := do
  let t ← place u t destination entry
  match entry.unixMode with
  | some mode => setPermissions t destination mode
  | none => pure t

/-- The entries in their order, except those that lead out. -/
def zip (u : Umask) (t : Modes.Tree String) : List ZipEntry → Except IoError (Modes.Tree String)
  | [] => .ok t
  | entry :: rest =>
      match entry.enclosedName with
      | none => zip u t rest
      | some relative => do
          let t ← unpackEntry u t relative.components entry
          zip u t rest

/-- The staging directory, before anything is unpacked. -/
def staging (u : Umask) : Modes.Tree String :=
  fun p => if p = [] then some (.dir u.dirMode) else none

/-! ## The tree of an archive -/

/-- An entry that stays inside, with its path. -/
structure Member where
  path : List String
  entry : ZipEntry

def members (entries : List ZipEntry) : List Member :=
  entries.filterMap fun entry =>
    entry.enclosedName.map fun relative => { path := relative.components, entry := entry }

/-- The mode an entry is to have: its own, or that of what is new. -/
def ZipEntry.mode (entry : ZipEntry) (new : Nat) : Nat :=
  match entry.unixMode with
  | some mode => mode % 2 ^ 12
  | none => new

/-- What an entry describes. -/
def ZipEntry.node (u : Umask) (entry : ZipEntry) : Node :=
  if entry.isDir then .dir (entry.mode u.dirMode)
  else .file entry.contents (entry.mode u.fileMode)

/-- The tree that entries describe: what they name, with the directories it is in. -/
def expected (u : Umask) (ms : List Member) : Modes.Tree String := fun p =>
  match ms.find? fun m => m.path = p with
  | some m => some (m.entry.node u)
  | none => if p = [] ∨ ∃ m ∈ ms, p <+: m.path then some (.dir u.dirMode) else none

/-- The paths are different, and no file is in the place of a directory. -/
structure Consistent (ms : List Member) : Prop where
  distinct : ms.Pairwise fun m m' => m.path ≠ m'.path
  files : ∀ m ∈ ms, m.entry.isDir = false →
    m.path ≠ [] ∧ ∀ m' ∈ ms, m.path <+: m'.path → m'.path = m.path

/-- An entry gets into every directory above it that was given a mode before: it can be
    searched, and it can be written, unless what is next on the way was made before. -/
def Enters (before : List Member) (m : Member) : Prop :=
  ∀ d ∈ before, d.entry.isDir = true → d.path <+: m.path → d.path ≠ m.path →
    ∀ mode ∈ d.entry.unixMode, search mode = true ∧
      (write mode = true ∨ ∃ k ∈ before, m.path.take (d.path.length + 1) <+: k.path)

/-- Every entry gets into the directories of those before it. -/
def Passable (before : List Member) : List Member → Prop
  | [] => True
  | m :: rest => Enters before m ∧ Passable (before ++ [m]) rest

instance (before : List Member) (m : Member) : Decidable (Enters before m) :=
  inferInstanceAs (Decidable (∀ d ∈ before, d.entry.isDir = true → d.path <+: m.path →
    d.path ≠ m.path → ∀ mode ∈ d.entry.unixMode, search mode = true ∧
      (write mode = true ∨ ∃ k ∈ before, m.path.take (d.path.length + 1) <+: k.path)))

instance decidablePassable : (before ms : List Member) → Decidable (Passable before ms)
  | _, [] => .isTrue trivial
  | before, m :: rest =>
      have := decidablePassable (before ++ [m]) rest
      inferInstanceAs (Decidable (_ ∧ _))

/-! ## One entry -/

section Unpack

variable {u : Umask} {t t' : Modes.Tree String} {p : List String} {entry : ZipEntry}

theorem put_put (a b : Node) : (t.put p a).put p b = t.put p b := by
  funext x
  by_cases hx : x = p
  · rw [hx, put_self, put_self]
  · rw [put_ne hx, put_ne hx, put_ne hx]

theorem setPermissions_dir {old : Nat} (hknown : t.Known p) (mode : Nat) :
    setPermissions (t.put p (.dir old)) p mode = .ok (t.put p (.dir (mode % 2 ^ 12))) := by
  rw [setPermissions, if_pos (known_put.mpr hknown), put_self]
  exact congrArg Except.ok (put_put _ _)

theorem setPermissions_file {old : Nat} {bytes : List UInt8} (hknown : t.Known p) (mode : Nat) :
    setPermissions (t.put p (.file bytes old)) p mode =
      .ok (t.put p (.file bytes (mode % 2 ^ 12))) := by
  rw [setPermissions, if_pos (known_put.mpr hknown), put_self]
  exact congrArg Except.ok (put_put _ _)

/-- The directory of an entry is made with the mode of what is new. -/
theorem withDirs_self (h : t p = none ∨ t p = some (.dir u.dirMode)) :
    t.withDirs u p = (t.withDirs u p).put p (.dir u.dirMode) := by
  funext x
  by_cases hx : x = p
  · rw [hx, put_self]
    rcases h with h | h
    · exact withDirs_of_none h (List.prefix_refl p)
    · rw [withDirs_of_some (by rw [h]; exact Option.some_ne_none _), h]
  · rw [put_ne hx]

/-- A file is put where its directories end. -/
theorem withDirs_dropLast {node : Node} (hp : p ≠ []) :
    (t.withDirs u p.dropLast).put p node = (t.withDirs u p).put p node := by
  funext x
  by_cases hx : x = p
  · rw [hx, put_self, put_self]
  · have hprefix : x <+: p.dropLast ↔ x <+: p := by
      refine ⟨fun h => h.trans (List.dropLast_prefix p), fun h => ?_⟩
      rw [← List.dropLast_append_getLast hp] at h
      rcases List.prefix_concat_iff.mp h with h | h
      · exact absurd (h.trans (List.dropLast_append_getLast hp)) hx
      · exact h
    rw [put_ne hx, put_ne hx]
    simp only [Modes.Tree.withDirs, hprefix]

/-- What an entry describes, with the mode of what is new. -/
def ZipEntry.fresh (u : Umask) (entry : ZipEntry) : Node :=
  if entry.isDir then .dir u.dirMode else .file entry.contents u.fileMode

theorem place_ok_iff (hclosed : t.Closed) (hroot : ∃ mode, t [] = some (.dir mode))
    (hfile : entry.isDir = false → t p = none ∧ p ≠ [])
    (hdir : entry.isDir = true → t p = none ∨ t p = some (.dir u.dirMode)) :
    place u t p entry = .ok t' ↔
      Passes t [] p ∧ t' = (t.withDirs u p).put p (entry.fresh u) := by
  cases hkind : entry.isDir with
  | true =>
      have hnot : ∀ bytes mode, t p ≠ some (.file bytes mode) := by
        intro bytes mode hnode
        rcases hdir hkind with h | h
        · rw [h] at hnode
          cases hnode
        · rw [h] at hnode
          cases hnode
      have hmade := @createDirAll_ok_iff _ _ t t' u [] p hclosed known_nil hroot
      rw [List.nil_append] at hmade
      rw [place, hkind, if_pos rfl, hmade, ZipEntry.fresh, hkind, if_pos rfl,
        ← withDirs_self (hdir hkind)]
      exact and_congr_right fun _ => ⟨fun h => h.2, fun h => ⟨hnot, h⟩⟩
  | false =>
      rcases hfile hkind with ⟨hnew, hp⟩
      have hlast := List.dropLast_append_getLast hp
      have hmade := @createAt_ok_iff _ _ t t' u p.dropLast (p.getLast hp) entry.contents hclosed
        hroot (by rw [hlast]; exact hnew)
      rw [hlast, withDirs_dropLast hp] at hmade
      rw [place, hkind, if_neg Bool.false_ne_true, hmade, ZipEntry.fresh, hkind,
        if_neg Bool.false_ne_true]

/-- What is there when an entry has its mode. -/
theorem moded {w : Modes.Tree String} (hknown : w.Known p) :
    (match entry.unixMode with
      | some mode => setPermissions (w.put p (entry.fresh u)) p mode
      | none => pure (w.put p (entry.fresh u))) = .ok (w.put p (entry.node u)) := by
  cases hmode : entry.unixMode with
  | none =>
      simp only [ZipEntry.fresh, ZipEntry.node, ZipEntry.mode, hmode]
      rfl
  | some mode =>
      simp only [ZipEntry.fresh, ZipEntry.node, ZipEntry.mode, hmode]
      cases entry.isDir with
      | true => exact setPermissions_dir hknown mode
      | false => exact setPermissions_file hknown mode

/-- When an entry can be unpacked, and what is there then. -/
theorem unpackEntry_ok_iff (hclosed : t.Closed) (hroot : ∃ mode, t [] = some (.dir mode))
    (hfile : entry.isDir = false → t p = none ∧ p ≠ [])
    (hdir : entry.isDir = true → t p = none ∨ t p = some (.dir u.dirMode)) :
    unpackEntry u t p entry = .ok t' ↔
      Passes t [] p ∧ t' = (t.withDirs u p).put p (entry.node u) := by
  have hplace := @place_ok_iff u t
  have hunfold : unpackEntry u t p entry = place u t p entry >>= fun t =>
      match entry.unixMode with
      | some mode => setPermissions t p mode
      | none => pure t := rfl
  rw [hunfold]
  constructor
  · intro hrun
    rcases hfirst : place u t p entry with e | t₁
    · rw [hfirst] at hrun
      cases hrun
    · rcases (hplace hclosed hroot hfile hdir).mp hfirst with ⟨hpass, rfl⟩
      rw [hfirst] at hrun
      exact ⟨hpass, Except.ok.inj (hrun.symm.trans (moded (known_withDirs hpass)))⟩
  · rintro ⟨hpass, rfl⟩
    rw [(hplace hclosed hroot hfile hdir).mpr ⟨hpass, rfl⟩]
    exact moded (known_withDirs hpass)

end Unpack

/-! ## The tree so far -/

section Expected

variable {u : Umask} {before rest : List Member} {m : Member} {p : List String}

theorem find_path {k : Member} (h : (before.find? fun m => m.path = p) = some k) :
    k ∈ before ∧ k.path = p :=
  ⟨List.mem_of_find?_eq_some h, by simpa using List.find?_some h⟩

theorem expected_ne_none_iff :
    expected u before p ≠ none ↔ p = [] ∨ ∃ k ∈ before, p <+: k.path := by
  rw [expected]
  cases hfind : before.find? fun m => m.path = p with
  | some k =>
      rcases find_path hfind with ⟨hk, rfl⟩
      exact iff_of_true (Option.some_ne_none _) (.inr ⟨k, hk, List.prefix_refl _⟩)
  | none =>
      simp only
      split
      · rename_i h
        exact iff_of_true (Option.some_ne_none _) h
      · rename_i h
        exact iff_of_false (fun h => h rfl) h

theorem expected_closed : (expected u before).Closed := by
  intro x y hxy hx
  by_contra hy
  refine absurd hx (expected_ne_none_iff.mpr ?_)
  rcases expected_ne_none_iff.mp hy with rfl | ⟨k, hk, hyk⟩
  · exact .inl (List.prefix_nil.mp hxy)
  · exact .inr ⟨k, hk, hxy.trans hyk⟩

/-- A path that no entry has, if it is there. -/
theorem expected_between (hnew : ∀ k ∈ before, k.path ≠ p) :
    expected u before p =
      if p = [] ∨ ∃ m ∈ before, p <+: m.path then some (.dir u.dirMode) else none := by
  have hfind : (before.find? fun m => m.path = p) = none :=
    List.find?_eq_none.mpr fun k hk => by simpa using hnew k hk
  rw [expected, hfind]

/-- The entry at a path. -/
theorem expected_of_mem (hdistinct : before.Pairwise fun m m' => m.path ≠ m'.path)
    (hm : m ∈ before) : expected u before m.path = some (m.entry.node u) := by
  cases hfind : before.find? fun k => k.path = m.path with
  | none =>
      have hnone := List.find?_eq_none.mp hfind m hm
      exact absurd (decide_eq_true rfl) hnone
  | some k =>
      rcases find_path hfind with ⟨hk, hpath⟩
      have hkm : k = m := by
        by_contra hne
        have : Std.Symm fun m m' : Member => m.path ≠ m'.path := ⟨fun _ _ h => h.symm⟩
        exact hdistinct.forall hk hm hne hpath
      rw [expected, hfind, hkm]

/-- What is next on the way to a path. -/
theorem next_eq {q : List String} {c : String} (h : q ++ [c] <+: p) :
    p.take (q.length + 1) = q ++ [c] := by
  rw [List.prefix_iff_eq_take.mp h, List.length_append, List.length_singleton]

theorem exists_next {q : List String} (h : q <+: p) (hne : q ≠ p) : ∃ c, q ++ [c] <+: p := by
  rcases h with ⟨rest, rfl⟩
  cases rest with
  | nil => exact absurd (List.append_nil q).symm hne
  | cons c rest => exact ⟨c, (List.prefix_append_right_inj q).mpr (List.prefix_append [c] rest)⟩

section Next

variable (hc : Consistent (before ++ m :: rest))

include hc

theorem Consistent.before_distinct : before.Pairwise fun k k' => k.path ≠ k'.path :=
  (List.pairwise_append.mp hc.distinct).1

theorem Consistent.new (k : Member) (hk : k ∈ before) : k.path ≠ m.path :=
  (List.pairwise_append.mp hc.distinct).2.2 k hk m List.mem_cons_self

/-- An entry above another one is a directory. -/
theorem Consistent.dir_above {d : Member} (hd : d ∈ before) (habove : d.path <+: m.path) :
    d.entry.isDir = true := by
  by_contra hfile
  have hm : m ∈ before ++ m :: rest := List.mem_append_right _ List.mem_cons_self
  have hsame := (hc.files d (List.mem_append_left _ hd) (Bool.eq_false_iff.mpr hfile)).2 m hm habove
  exact hc.new d hd hsame.symm

theorem expected_root : ∃ mode, expected u before [] = some (.dir mode) := by
  by_cases hroot : ∃ k ∈ before, k.path = []
  · rcases hroot with ⟨k, hk, hpath⟩
    have hdir := hc.dir_above hk (hpath ▸ List.nil_prefix)
    have hnode := @expected_of_mem u before k hc.before_distinct hk
    rw [hpath, ZipEntry.node, hdir, if_pos rfl] at hnode
    exact ⟨_, hnode⟩
  · refine ⟨u.dirMode, ?_⟩
    rw [expected_between fun k hk hpath => hroot ⟨k, hk, hpath⟩]
    exact if_pos (.inl rfl)

theorem expected_file (hfile : m.entry.isDir = false) :
    expected u before m.path = none ∧ m.path ≠ [] := by
  have hm : m ∈ before ++ m :: rest := List.mem_append_right _ List.mem_cons_self
  rcases hc.files m hm hfile with ⟨hpath, habove⟩
  refine ⟨?_, hpath⟩
  rw [expected_between hc.new]
  refine if_neg ?_
  rintro (h | ⟨k, hk, hmk⟩)
  · exact hpath h
  · exact hc.new k hk (habove k (List.mem_append_left _ hk) hmk)

theorem expected_dir :
    expected u before m.path = none ∨ expected u before m.path = some (.dir u.dirMode) := by
  rw [expected_between hc.new]
  split
  · exact .inr rfl
  · exact .inl rfl

omit hc in
theorem exists_iff_next {q : List String} {c : String} (hnext : q ++ [c] <+: p) :
    expected u before (q ++ [c]) ≠ none ↔ ∃ k ∈ before, p.take (q.length + 1) <+: k.path := by
  rw [expected_ne_none_iff, next_eq hnext]
  exact or_iff_right (by simp)

omit hc in
/-- The last twelve bits of a mode have the owner's. -/
theorem owner_bits (mode : Nat) :
    search (mode % 2 ^ 12) = search mode ∧ write (mode % 2 ^ 12) = write mode := by
  rw [search, search, write, write, Nat.testBit_mod_two_pow, Nat.testBit_mod_two_pow]
  exact ⟨rfl, rfl⟩

/-- A directory that carries no mode stops nothing. -/
theorem expected_above {q : List String} (hq : q <+: m.path) (hsome : expected u before q ≠ none)
    (hno : ∀ d ∈ before, d.path = q → d.entry.unixMode = none) :
    expected u before q = some (.dir u.dirMode) := by
  by_cases hentry : ∃ d ∈ before, d.path = q
  · rcases hentry with ⟨d, hd, rfl⟩
    rw [expected_of_mem hc.before_distinct hd, ZipEntry.node, hc.dir_above hd hq, if_pos rfl,
      ZipEntry.mode, hno d hd rfl]
  · have hbetween := @expected_between u before q fun k hk hpath => hentry ⟨k, hk, hpath⟩
    rw [hbetween] at hsome ⊢
    split
    · rfl
    · rename_i h
      exact absurd (if_neg h) hsome

/-- What an entry needs of the tree so far, it needs of the entries before it that carry
    a mode. -/
theorem passes_expected : Passes (expected u before) [] m.path ↔ Enters before m := by
  have hmoded : ∀ d ∈ before, d.path <+: m.path → ∀ mode ∈ d.entry.unixMode,
      (expected u before).searchable d.path = search mode ∧
        (expected u before).writable d.path = write mode := by
    intro d hd habove mode hmode
    have hnode : expected u before d.path = some (.dir (mode % 2 ^ 12)) := by
      rw [expected_of_mem hc.before_distinct hd, ZipEntry.node, hc.dir_above hd habove, if_pos rfl,
        ZipEntry.mode, hmode]
    rw [Modes.Tree.searchable, Modes.Tree.writable, hnode]
    exact owner_bits mode
  constructor
  · intro h d hd _ habove hne mode hmode
    rcases exists_next habove hne with ⟨c, hnext⟩
    have hthere : expected u before d.path ≠ none :=
      expected_ne_none_iff.mpr (.inr ⟨d, hd, List.prefix_refl _⟩)
    have hpass := h d.path c List.nil_prefix hnext hthere
    rw [(hmoded d hd habove mode hmode).1, (hmoded d hd habove mode hmode).2,
      exists_iff_next hnext] at hpass
    exact ⟨hpass.1, hpass.2.symm⟩
  · intro h q c _ hnext hsome
    have hq : q <+: m.path := (List.prefix_append q [c]).trans hnext
    by_cases hentry : ∃ d ∈ before, d.path = q ∧ d.entry.unixMode ≠ none
    · rcases hentry with ⟨d, hd, rfl, hmode⟩
      rcases Option.ne_none_iff_exists'.mp hmode with ⟨mode, hmode⟩
      have hne : d.path ≠ m.path := hc.new d hd
      have henters := h d hd (hc.dir_above hd hq) hq hne mode hmode
      rw [(hmoded d hd hq mode hmode).1, (hmoded d hd hq mode hmode).2, exists_iff_next hnext]
      exact ⟨henters.1, henters.2.symm⟩
    · have hdefault := expected_above hc hq hsome fun d hd hpath => by
        by_contra hmode
        exact hentry ⟨d, hd, hpath, hmode⟩
      rw [Modes.Tree.searchable, Modes.Tree.writable, hdefault]
      exact ⟨u.searched, .inr u.written⟩

/-- The tree of one more entry. -/
theorem expected_concat :
    expected u (before ++ [m]) =
      ((expected u before).withDirs u m.path).put m.path (m.entry.node u) := by
  have hdistinct : (before ++ [m]).Pairwise fun k k' => k.path ≠ k'.path := by
    refine hc.distinct.sublist (List.Sublist.append_left ?_ before)
    exact List.singleton_sublist.mpr List.mem_cons_self
  funext x
  by_cases hx : x = m.path
  · have hm : m ∈ before ++ [m] := List.mem_append_right _ (List.mem_singleton_self m)
    rw [hx, put_self, expected_of_mem hdistinct hm]
  · rw [put_ne hx]
    by_cases hentry : ∃ k ∈ before, k.path = x
    · rcases hentry with ⟨k, hk, rfl⟩
      have hthere : expected u before k.path ≠ none :=
        expected_ne_none_iff.mpr (.inr ⟨k, hk, List.prefix_refl _⟩)
      rw [withDirs_of_some hthere, expected_of_mem hc.before_distinct hk,
        expected_of_mem hdistinct (List.mem_append_left _ hk)]
    · have hnone : ∀ k ∈ before ++ [m], k.path ≠ x := by
        intro k hk hpath
        rcases List.mem_append.mp hk with hk | hk
        · exact hentry ⟨k, hk, hpath⟩
        · exact hx (by rw [← hpath, List.mem_singleton.mp hk])
      have hbefore := @expected_between u before x fun k hk => hnone k (List.mem_append_left _ hk)
      rw [expected_between hnone, Modes.Tree.withDirs, hbefore]
      by_cases hthere : x = [] ∨ ∃ k ∈ before, x <+: k.path
      · have hmore : x = [] ∨ ∃ k ∈ before ++ [m], x <+: k.path :=
          hthere.imp_right fun h => h.imp fun k hk => ⟨List.mem_append_left _ hk.1, hk.2⟩
        rw [if_pos hthere, if_pos hmore, if_neg fun h => by cases h.1]
      · have hiff : (x = [] ∨ ∃ k ∈ before ++ [m], x <+: k.path) ↔ x <+: m.path := by
          constructor
          · rintro (h | ⟨k, hk, h⟩)
            · exact absurd (.inl h) hthere
            · rcases List.mem_append.mp hk with hk | hk
              · exact absurd (.inr ⟨k, hk, h⟩) hthere
              · exact List.mem_singleton.mp hk ▸ h
          · exact fun h => .inr ⟨m, List.mem_append_right _ (List.mem_singleton_self m), h⟩
        simp only [if_neg hthere, hiff, true_and]

end Next

end Expected

/-! ## The archive -/

/-- An entry is skipped, or it is the first of the members. -/
theorem zip_cons (entry : ZipEntry) (rest : List ZipEntry) :
    (members (entry :: rest) = members rest ∧ ∀ u t, zip u t (entry :: rest) = zip u t rest) ∨
      ∃ m, members (entry :: rest) = m :: members rest ∧ ∀ u t, zip u t (entry :: rest) =
        unpackEntry u t m.path m.entry >>= fun t => zip u t rest := by
  cases hname : entry.enclosedName with
  | none =>
      refine .inl ⟨?_, fun u t => ?_⟩
      · rw [members, List.filterMap_cons, hname]
        rfl
      · rw [zip, hname]
  | some relative =>
      refine .inr ⟨{ path := relative.components, entry := entry }, ?_, fun u t => ?_⟩
      · rw [members, List.filterMap_cons, hname]
        rfl
      · rw [zip, hname]

/-- The entries behind some that were unpacked. By induction over them. -/
theorem zip_yields (u : Umask) (entries : List ZipEntry) (before : List Member)
    (hc : Consistent (before ++ members entries)) :
    zip u (expected u before) entries = .ok (expected u (before ++ members entries)) ↔
      Passable before (members entries) := by
  induction entries generalizing before with
  | nil =>
      rw [members, List.filterMap_nil, List.append_nil]
      exact iff_of_true rfl trivial
  | cons entry rest ih =>
      rcases zip_cons entry rest with ⟨hmembers, hzip⟩ | ⟨m, hmembers, hzip⟩
      · rw [hmembers] at hc ⊢
        rw [hzip]
        exact ih before hc
      · rw [hmembers] at hc ⊢
        have hsplit : before ++ m :: members rest = before ++ [m] ++ members rest :=
          (List.append_assoc before [m] (members rest)).symm
        have hstep : ∀ t, unpackEntry u (expected u before) m.path m.entry = .ok t ↔
            Enters before m ∧ t = expected u (before ++ [m]) := by
          intro t
          rw [unpackEntry_ok_iff expected_closed (expected_root hc) (expected_file hc)
            fun _ => expected_dir hc, passes_expected hc, expected_concat hc]
        have hrest := ih (before ++ [m]) (hsplit ▸ hc)
        rw [← hsplit] at hrest
        rw [Passable, ← hrest, hzip]
        constructor
        · intro hrun
          rcases hfirst : unpackEntry u (expected u before) m.path m.entry with e | t
          · rw [hfirst] at hrun
            cases hrun
          · rcases (hstep t).mp hfirst with ⟨henters, rfl⟩
            rw [hfirst] at hrun
            exact ⟨henters, hrun⟩
        · rintro ⟨henters, hrun⟩
          rw [(hstep _).mpr ⟨henters, rfl⟩]
          exact hrun

/-- Nothing is expected of no entries but the directory itself. -/
theorem staging_eq (u : Umask) : staging u = expected u [] := by
  funext p
  by_cases hp : p = []
  · simp [staging, expected, hp]
  · simp [staging, expected, hp]

/-- The staging directory holds exactly the tree of the archive in the end, if and only if
    every entry gets into the directories of those before it. -/
theorem zip_yields_iff (u : Umask) (entries : List ZipEntry)
    (hc : Consistent (members entries)) :
    zip u (staging u) entries = .ok (expected u (members entries)) ↔
      Passable [] (members entries) := by
  rw [staging_eq]
  exact zip_yields u entries [] hc

/-- The usual modes of what is new. -/
def usual : Umask where
  dirMode := 0o755
  fileMode := 0o644
  searched := rfl
  written := rfl

/-- A toolchain whose directory is not written any more when it is unpacked: its mode comes
    first, or last. -/
def readOnlyDir : ZipEntry :=
  { enclosedName := some { components := ["tool"], normal := by decide }
    isDir := true, contents := [], unixMode := some 0o40555 }

def executable : ZipEntry :=
  { enclosedName := some { components := ["tool", "run"], normal := by decide }
    isDir := false, contents := [35, 33], unixMode := some 0o100755 }

theorem consistent_tool : Consistent (members [executable, readOnlyDir]) where
  distinct := by decide
  files := by decide

/-- The directory comes last, and its tree is unpacked. -/
theorem zip_yields_iff_last :
    zip usual (staging usual) [executable, readOnlyDir] =
      .ok (expected usual (members [executable, readOnlyDir])) :=
  (zip_yields_iff usual [executable, readOnlyDir] consistent_tool).mpr (by decide)

/-- It comes first, and nothing can be made in it. -/
theorem read_only_first : ¬ ∀ (u : Umask) (entries : List ZipEntry),
    Consistent (members entries) →
      zip u (staging u) entries = .ok (expected u (members entries)) := by
  intro h
  have hc : Consistent (members [readOnlyDir, executable]) := ⟨by decide, by decide⟩
  have hrun := h usual [readOnlyDir, executable] hc
  have hfails : zip usual (staging usual) [readOnlyDir, executable] =
      .error .permissionDenied := by rfl
  rw [hfails] at hrun
  cases hrun

end TinyRuntime.Archive
