import Mathlib.Data.List.Infix
import Mathlib.Tactic.Common
import Mathlib.Algebra.Order.Ring.Nat

/-!
# Directories with Modes

A tree of files and directories that carry modes, and the calls that write to it, as the
owner of all of it makes them. What is looked up in a directory needs its search bit, and
what is made in it needs its write bit as well.

A call gives the tree after it, or an error. What an error leaves behind is not kept.

## Main definitions

* `Node`, `Tree`: Files and directories with their modes.
* `Umask`: The modes of what is new.
* `createDirAll`, `create`, `setPermissions`: The calls.
* `Passes`: Whether the directories on the way to a path let it be made.

## Theorems

* `createDirAll_ok_iff`: When a path can be made, and what is there then.
* `createAt_ok_iff`: The same for a new file, its directories first.
-/

namespace Modes

/-- The owner's search bit. -/
def search (mode : Nat) : Bool :=
  mode.testBit 6

/-- The owner's write bit. -/
def write (mode : Nat) : Bool :=
  mode.testBit 7

/-- A file or a directory. -/
inductive Node
  | file (bytes : List UInt8) (mode : Nat)
  | dir (mode : Nat)
deriving DecidableEq

/-- The modes of what is new. They leave the owner his bits. -/
structure Umask where
  dirMode : Nat
  fileMode : Nat
  searched : search dirMode = true
  written : write dirMode = true

inductive IoError
  | notFound
  | permissionDenied
  | notADirectory
  | isADirectory
deriving DecidableEq

variable {ν : Type} [DecidableEq ν]

/-- What is at each path, from a directory on. -/
abbrev Tree (ν : Type) :=
  List ν → Option Node

namespace Tree

/-- Something put at a path. -/
def put (t : Tree ν) (p : List ν) (node : Node) : Tree ν :=
  fun x => if x = p then some node else t x

/-- A directory that can be searched. -/
def searchable (t : Tree ν) (p : List ν) : Bool :=
  match t p with
  | some (.dir mode) => search mode
  | _ => false

/-- A directory that can be written. -/
def writable (t : Tree ν) (p : List ν) : Bool :=
  match t p with
  | some (.dir mode) => write mode
  | _ => false

/-- A path can be looked up: all directories above it can be searched. -/
def Known (t : Tree ν) (p : List ν) : Prop :=
  ∀ q ∈ p.inits, q ≠ p → t.searchable q = true

instance (t : Tree ν) (p : List ν) : Decidable (t.Known p) :=
  inferInstanceAs (Decidable (∀ q ∈ p.inits, q ≠ p → t.searchable q = true))

/-- Nothing is in what is not there. -/
def Closed (t : Tree ν) : Prop :=
  ∀ p q, p <+: q → t p = none → t q = none

/-- The directories down to a path. -/
def withDirs (t : Tree ν) (u : Umask) (p : List ν) : Tree ν :=
  fun x => if t x = none ∧ x <+: p then some (.dir u.dirMode) else t x

end Tree

/-! ## Calls -/

/-- One directory, unless it is there. -/
def ensureDir (u : Umask) (t : Tree ν) (p : List ν) : Except IoError (Tree ν) :=
  if t.Known p then
    match t p with
    | some (.dir _) => .ok t
    | some (.file _ _) => .error .notADirectory
    | none =>
        if t.writable p.dropLast then .ok (t.put p (.dir u.dirMode))
        else .error .permissionDenied
  else .error .permissionDenied

/-- `create_dir_all`, from a directory on. -/
def createDirAll (u : Umask) (t : Tree ν) (done : List ν) : List ν → Except IoError (Tree ν)
  | [] => .ok t
  | c :: rest => do
      let t ← ensureDir u t (done ++ [c])
      createDirAll u t (done ++ [c]) rest

/-- A file created or truncated, and written. -/
def create (u : Umask) (t : Tree ν) (p : List ν) (bytes : List UInt8) :
    Except IoError (Tree ν) :=
  if t.Known p then
    match t p with
    | some (.dir _) => .error .isADirectory
    | some (.file _ mode) =>
        if write mode then .ok (t.put p (.file bytes mode)) else .error .permissionDenied
    | none =>
        if t.writable p.dropLast then .ok (t.put p (.file bytes u.fileMode))
        else .error .permissionDenied
  else .error .permissionDenied

/-- Another mode, of which the file system keeps the last twelve bits. -/
def setPermissions (t : Tree ν) (p : List ν) (mode : Nat) : Except IoError (Tree ν) :=
  if t.Known p then
    match t p with
    | some (.dir _) => .ok (t.put p (.dir (mode % 2 ^ 12)))
    | some (.file bytes _) => .ok (t.put p (.file bytes (mode % 2 ^ 12)))
    | none => .error .notFound
  else .error .permissionDenied

/-! ## What is on the way -/

/-- Every directory between one and a path that is there can be searched, and it can be
    written if the next one is to be made in it. -/
def Passes (t : Tree ν) (done p : List ν) : Prop :=
  ∀ q c, done <+: q → q ++ [c] <+: p → t q ≠ none →
    t.searchable q = true ∧ (t (q ++ [c]) ≠ none ∨ t.writable q = true)

section Facts

variable {t t' : Tree ν} {u : Umask} {p q done : List ν} {c : ν} {node : Node}

@[simp] theorem put_self : t.put p node p = some node :=
  if_pos rfl

theorem put_ne (h : q ≠ p) : t.put p node q = t q :=
  if_neg h

theorem searchable_put_ne (h : q ≠ p) : (t.put p node).searchable q = t.searchable q := by
  rw [Tree.searchable, put_ne h]
  rfl

omit [DecidableEq ν] in
theorem known_nil : t.Known [] :=
  fun _ hq hne => absurd (List.prefix_nil.mp ((List.mem_inits _ _).mp hq)) hne

theorem known_concat : t.Known (p ++ [c]) ↔ t.Known p ∧ t.searchable p = true := by
  have hne : p ≠ p ++ [c] := by simp
  constructor
  · intro h
    have hstep : ∀ q, q <+: p → t.searchable q = true := by
      intro q hq
      refine h q ((List.mem_inits _ _).mpr (hq.trans (List.prefix_append _ _))) ?_
      rintro rfl
      exact absurd hq.length_le (by simp)
    exact ⟨fun q hq _ => hstep q ((List.mem_inits _ _).mp hq), hstep p (List.prefix_refl _)⟩
  · rintro ⟨hknown, hself⟩ q hq hqp
    rcases List.prefix_concat_iff.mp ((List.mem_inits _ _).mp hq) with rfl | hq
    · exact absurd rfl hqp
    · by_cases hp : q = p
      · rw [hp, hself]
      · exact hknown q ((List.mem_inits _ _).mpr hq) hp

/-- What is put does not change what is above it. -/
theorem known_put : (t.put p node).Known p ↔ t.Known p := by
  have hsame : ∀ q, q ≠ p → (t.put p node).searchable q = t.searchable q :=
    fun q hq => searchable_put_ne hq
  exact ⟨fun h q hq hne => hsame q hne ▸ h q hq hne, fun h q hq hne => hsame q hne ▸ h q hq hne⟩

theorem closed_put (hclosed : t.Closed) (habove : ∀ q, q <+: p → q ≠ p → t q ≠ none) :
    (t.put p node).Closed := by
  intro x y hxy hx
  have hxp : x ≠ p := by
    rintro rfl
    rw [put_self] at hx
    cases hx
  rw [put_ne hxp] at hx
  have hyp : y ≠ p := by
    rintro rfl
    exact habove x hxy hxp hx
  rw [put_ne hyp]
  exact hclosed x y hxy hx

omit [DecidableEq ν] in
/-- A directory above what is there is there. -/
theorem Tree.Closed.above (hclosed : t.Closed) (h : t p ≠ none) (hq : q <+: p) : t q ≠ none :=
  fun hnone => h (hclosed q p hq hnone)

theorem withDirs_there (hclosed : t.Closed) (h : t p ≠ none) : t.withDirs u p = t := by
  funext x
  exact if_neg fun hx => hclosed.above h hx.2 hx.1

theorem withDirs_put (hp : t p = none) (hpq : p <+: q) :
    (t.put p (.dir u.dirMode)).withDirs u q = t.withDirs u q := by
  funext x
  by_cases hx : x = p
  · subst hx
    simp only [Tree.withDirs, put_self, hp, hpq, reduceCtorEq, false_and, if_false, and_self,
      if_true]
  · simp only [Tree.withDirs, put_ne hx]

omit [DecidableEq ν] in
/-- The first step of a way, and the rest of it. -/
theorem passes_cons {rest : List ν} :
    Passes t done (done ++ c :: rest) ↔
      (t done ≠ none → t.searchable done = true ∧
        (t (done ++ [c]) ≠ none ∨ t.writable done = true)) ∧
      Passes t (done ++ [c]) (done ++ c :: rest) := by
  constructor
  · intro h
    refine ⟨h done c (List.prefix_refl _) ?_, fun q e hq => h q e ?_⟩
    · exact (List.prefix_append_right_inj done).mpr (List.prefix_append [c] rest)
    · exact (List.prefix_append _ _).trans hq
  · rintro ⟨hfirst, hrest⟩ q e ⟨x, rfl⟩ hq
    rw [List.append_assoc, List.prefix_append_right_inj] at hq
    cases x with
    | nil =>
        rw [List.append_nil]
        rw [(List.cons_prefix_cons.mp hq).1]
        exact hfirst
    | cons d x =>
        have hcd := (List.cons_prefix_cons.mp hq).1
        subst hcd
        refine hrest _ e ?_ ?_
        · exact (List.prefix_append_right_inj done).mpr (List.prefix_append [d] x)
        · rw [List.append_assoc, List.prefix_append_right_inj]
          exact hq

omit [DecidableEq ν] in
/-- Nothing stops a way to where nothing is. -/
theorem passes_new (hclosed : t.Closed) (hp : t p = none) (q : List ν) : Passes t p q :=
  fun x _ hpx _ hx => absurd (hclosed p x hpx hp) hx

/-- A new directory stops no way through it. -/
theorem passes_put (hclosed : t.Closed) (hp : t p = none) (q : List ν) :
    Passes (t.put p (.dir u.dirMode)) p q := by
  intro x c hpx _ hx
  have hxp : x = p := by
    by_contra hne
    rw [put_ne hne] at hx
    exact hx (hclosed p x hpx hp)
  rw [hxp, Tree.searchable, Tree.writable, put_self]
  exact ⟨u.searched, .inr u.written⟩

theorem put_not_file {mode : Nat} (hclosed : t.Closed) (hp : t p = none) (hpq : p <+: q)
    (bytes : List UInt8) (m : Nat) : t.put p (.dir mode) q ≠ some (.file bytes m) := by
  by_cases hq : q = p
  · rw [hq, put_self]
    simp
  · rw [put_ne hq, hclosed p q hpq hp]
    simp

end Facts

/-! ## Making directories -/

section Making

variable {t t' : Tree ν} {u : Umask} {p done : List ν} {c : ν}

/-- One more directory on the way. -/
theorem ensureDir_ok_iff (hknown : t.Known done) :
    ensureDir u t (done ++ [c]) = .ok t' ↔ t.searchable done = true ∧
      ((∃ mode, t (done ++ [c]) = some (.dir mode)) ∧ t' = t ∨
        t (done ++ [c]) = none ∧ t.writable done = true ∧
          t' = t.put (done ++ [c]) (.dir u.dirMode)) := by
  by_cases hsearch : t.searchable done = true
  · rw [ensureDir, if_pos (known_concat.mpr ⟨hknown, hsearch⟩), List.dropLast_concat]
    cases hnode : t (done ++ [c]) with
    | none =>
        by_cases hwrite : t.writable done = true
        · simp [hsearch, hwrite, eq_comm]
        · simp [hwrite]
    | some node =>
        cases node with
        | file bytes mode => simp
        | dir mode =>
            refine ⟨fun h => ⟨hsearch, .inl ⟨⟨mode, rfl⟩, (Except.ok.inj h).symm⟩⟩, ?_⟩
            rintro ⟨_, ⟨_, rfl⟩ | ⟨h, _⟩⟩
            · rfl
            · cases h
  · rw [ensureDir, if_neg fun h => hsearch (known_concat.mp h).2]
    simp [hsearch]

/-- When the directories down to a path can be made, and what is there then. By induction
    along the path. -/
theorem createDirAll_ok_iff {rest : List ν} (hclosed : t.Closed) (hknown : t.Known done)
    (hthere : ∃ mode, t done = some (.dir mode)) :
    createDirAll u t done rest = .ok t' ↔ Passes t done (done ++ rest) ∧
      (∀ bytes mode, t (done ++ rest) ≠ some (.file bytes mode)) ∧
        t' = t.withDirs u (done ++ rest) := by
  induction rest generalizing done t with
  | nil =>
      rcases hthere with ⟨mode, hthere⟩
      have hpasses : Passes t done done := by
        intro q c hq hqc
        have := hq.length_le
        have := hqc.length_le
        simp only [List.length_append, List.length_singleton] at this
        omega
      rw [List.append_nil, withDirs_there hclosed (by rw [hthere]; exact Option.some_ne_none _)]
      simp [createDirAll, hpasses, hthere, eq_comm]
  | cons c rest ih =>
      have hstep := @ensureDir_ok_iff ν _ t
      have hpasses := @passes_cons ν t done c rest
      have hsplit : done ++ c :: rest = done ++ [c] ++ rest := by simp
      have hdone : t done ≠ none := by
        rcases hthere with ⟨mode, hmode⟩
        rw [hmode]
        exact Option.some_ne_none _
      have hway : done ++ [c] <+: done ++ c :: rest := hsplit ▸ List.prefix_append _ _
      have hput : t (done ++ [c]) = none → (t.put (done ++ [c]) (.dir u.dirMode)).Closed := by
        refine fun hnone => closed_put hclosed fun q hq hne => hclosed.above hdone ?_
        exact (List.prefix_concat_iff.mp hq).resolve_left hne
      rw [createDirAll]
      constructor
      · intro hrun
        rcases hfirst : ensureDir u t (done ++ [c]) with e | t₁
        · rw [hfirst] at hrun
          cases hrun
        · rw [hfirst] at hrun
          replace hrun : createDirAll u t₁ (done ++ [c]) rest = .ok t' := hrun
          rcases (hstep hknown).mp hfirst with ⟨hsearch, ⟨hdir, rfl⟩ | ⟨hnone, hwrite, rfl⟩⟩
          · rw [ih hclosed (known_concat.mpr ⟨hknown, hsearch⟩) hdir, ← hsplit] at hrun
            refine ⟨hpasses.mpr ⟨fun _ => ⟨hsearch, .inl ?_⟩, hrun.1⟩, hrun.2⟩
            rcases hdir with ⟨mode, hmode⟩
            rw [hmode]
            exact Option.some_ne_none _
          · rw [ih (hput hnone) (known_put.mpr (known_concat.mpr ⟨hknown, hsearch⟩))
              ⟨_, put_self⟩, ← hsplit, withDirs_put hnone hway] at hrun
            refine ⟨hpasses.mpr ⟨fun _ => ⟨hsearch, .inr hwrite⟩, passes_new hclosed hnone _⟩,
              fun bytes mode => ?_, hrun.2.2⟩
            rw [hclosed _ _ hway hnone]
            exact nofun
      · rintro ⟨hpass, hfile, rfl⟩
        rcases hpasses.mp hpass with ⟨hfirst, hrest⟩
        rcases hfirst hdone with ⟨hsearch, hmake⟩
        cases hnode : t (done ++ [c]) with
        | none =>
            have hwrite := hmake.resolve_left fun h => h hnode
            rw [(hstep hknown).mpr ⟨hsearch, .inr ⟨hnode, hwrite, rfl⟩⟩]
            refine (ih (hput hnode) (known_put.mpr (known_concat.mpr ⟨hknown, hsearch⟩))
              ⟨_, put_self⟩).mpr ?_
            rw [← hsplit, withDirs_put hnode hway]
            exact ⟨passes_put hclosed hnode _, put_not_file hclosed hnode hway, rfl⟩
        | some node =>
            cases node with
            | dir mode =>
                rw [(hstep hknown).mpr ⟨hsearch, .inl ⟨⟨mode, hnode⟩, rfl⟩⟩]
                refine (ih hclosed (known_concat.mpr ⟨hknown, hsearch⟩) ⟨mode, hnode⟩).mpr ?_
                rw [← hsplit]
                exact ⟨hrest, hfile, rfl⟩
            | file bytes mode =>
                -- A file is no way to anything else.
                cases rest with
                | nil => exact absurd hnode (hfile bytes mode)
                | cons d rest =>
                    have hsome : t (done ++ [c]) ≠ none := by
                      rw [hnode]
                      exact Option.some_ne_none _
                    have hblocked := (hrest (done ++ [c]) d (List.prefix_refl _)
                      (by simp) hsome).1
                    rw [Tree.searchable, hnode] at hblocked
                    cases hblocked

omit [DecidableEq ν] in
theorem passes_concat (hnew : t (p ++ [c]) = none) :
    Passes t [] (p ++ [c]) ↔ Passes t [] p ∧
      (t p ≠ none → t.searchable p = true ∧ t.writable p = true) := by
  constructor
  · intro h
    refine ⟨fun q d hq hqp => h q d hq (hqp.trans (List.prefix_append _ _)), fun hp => ?_⟩
    have hlast := h p c List.nil_prefix (List.prefix_refl _) hp
    exact ⟨hlast.1, hlast.2.resolve_left fun h => h hnew⟩
  · rintro ⟨hpass, hlast⟩ q d hq hqd hsome
    rcases List.prefix_concat_iff.mp hqd with heq | hqd
    · rcases List.append_inj' heq rfl with ⟨rfl, _⟩
      exact ⟨(hlast hsome).1, .inr (hlast hsome).2⟩
    · exact hpass q d hq hqd hsome

theorem withDirs_of_some {q : List ν} (h : t q ≠ none) : (t.withDirs u p) q = t q :=
  if_neg fun hx => h hx.1

theorem withDirs_of_none {q : List ν} (h : t q = none) (hq : q <+: p) :
    (t.withDirs u p) q = some (.dir u.dirMode) :=
  if_pos ⟨h, hq⟩

/-- What was made on the way can be searched as well. -/
theorem searchable_withDirs {q : List ν} (hpass : t q ≠ none → t.searchable q = true)
    (hq : q <+: p) : (t.withDirs u p).searchable q = true := by
  by_cases hnone : t q = none
  · rw [Tree.searchable, withDirs_of_none hnone hq]
    exact u.searched
  · rw [Tree.searchable, withDirs_of_some hnone]
    exact hpass hnone

theorem writable_withDirs {q : List ν} (hpass : t q ≠ none → t.writable q = true)
    (hq : q <+: p) : (t.withDirs u p).writable q = true := by
  by_cases hnone : t q = none
  · rw [Tree.writable, withDirs_of_none hnone hq]
    exact u.written
  · rw [Tree.writable, withDirs_of_some hnone]
    exact hpass hnone

/-- A path that was passed is known. -/
theorem known_withDirs (hpass : Passes t [] p) : (t.withDirs u p).Known p := by
  intro q hq hqp
  have hq := (List.mem_inits _ _).mp hq
  rcases hq with ⟨rest, rfl⟩
  cases rest with
  | nil => exact absurd (List.append_nil q).symm hqp
  | cons c rest =>
      refine searchable_withDirs (fun hsome => (hpass q c List.nil_prefix ?_ hsome).1)
        (List.prefix_append _ _)
      exact (List.prefix_append_right_inj q).mpr (List.prefix_append [c] rest)

/-- A new file with its directories. -/
theorem createAt_ok_iff {bytes : List UInt8} (hclosed : t.Closed)
    (hroot : ∃ mode, t [] = some (.dir mode)) (hnew : t (p ++ [c]) = none) :
    (createDirAll u t [] p >>= fun t => create u t (p ++ [c]) bytes) = .ok t' ↔
      Passes t [] (p ++ [c]) ∧
        t' = (t.withDirs u p).put (p ++ [c]) (.file bytes u.fileMode) := by
  have hnot : ¬ p ++ [c] <+: p := fun h => absurd h.length_le (by simp)
  have hnew₁ : (t.withDirs u p) (p ++ [c]) = none := by
    rw [Tree.withDirs, if_neg fun h => hnot h.2, hnew]
  have hdirs := @createDirAll_ok_iff ν _ t
  rw [passes_concat hnew]
  constructor
  · intro hrun
    rcases hmade : createDirAll u t [] p with e | t₁
    · rw [hmade] at hrun
      cases hrun
    · rw [hmade] at hrun
      replace hrun : create u t₁ (p ++ [c]) bytes = .ok t' := hrun
      rcases (hdirs hclosed known_nil hroot).mp hmade with ⟨hpass, _, rfl⟩
      rw [create, List.nil_append, hnew₁, List.dropLast_concat] at hrun
      split at hrun
      · rename_i hknown
        have hsearch := (known_concat.mp hknown).2
        simp only at hrun
        split at hrun
        · rename_i hwrite
          refine ⟨⟨hpass, fun hp => ?_⟩, (Except.ok.inj hrun).symm⟩
          rw [Tree.searchable, withDirs_of_some hp] at hsearch
          rw [Tree.writable, withDirs_of_some hp] at hwrite
          exact ⟨hsearch, hwrite⟩
        · cases hrun
      · cases hrun
  · rintro ⟨⟨hpass, hlast⟩, rfl⟩
    have hfile : ∀ bytes mode, t p ≠ some (.file bytes mode) := by
      intro bytes mode hnode
      have hsearch := (hlast (by rw [hnode]; exact Option.some_ne_none _)).1
      rw [Tree.searchable, hnode] at hsearch
      cases hsearch
    have hself := List.prefix_refl p
    have hknown : (t.withDirs u p).Known (p ++ [c]) := known_concat.mpr
      ⟨known_withDirs hpass, searchable_withDirs (fun h => (hlast h).1) hself⟩
    rw [(hdirs hclosed known_nil hroot).mpr ⟨hpass, hfile, rfl⟩]
    show create u (t.withDirs u p) (p ++ [c]) bytes = _
    rw [create, if_pos hknown, hnew₁, List.dropLast_concat]
    exact if_pos (writable_withDirs (fun h => (hlast h).2) hself)

end Making

end Modes
