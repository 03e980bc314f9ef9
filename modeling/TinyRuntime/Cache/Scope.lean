import TinyRuntime.Bus.Worker
import Mathlib.Data.List.Basic
import Mathlib.Data.String.Basic
import Mathlib.Algebra.BigOperators.Group.List.Basic
import Mathlib.Algebra.Order.Ring.Nat

/-!
# Approved Cache Scopes

Where the host allows persistent caches: which roots are accepted when scopes are
approved, on Unix.

A path is looked at through its components. Redundant separators and `.` are not
among them, so what is said about components is said about every spelling. A name
the system gives may hold bytes that are no text. They are kept apart from the
characters, since the home directory is such a name and the roots are not.

Only a root that is the home directory is compared with it. A root above it is
refused if it is too short or in a place that is refused anyway, and so a home
directory that lies deep enough has a root above it that is accepted.

## Main definitions

* `OsString`, `Component`, `Path.components`: Paths.
* `Cache.validateScope`, `Cache.scopes`: The checks.
* `Cache.Approved`: What the approved scopes are meant to keep to.
* `Cache.Sheltered`: Every root above the home directory is refused.

## Theorems

* `Cache.scopes_ok`: What the checks come to.
* `Cache.scopes_cover_iff`: They keep the home directory apart exactly if it is sheltered.
-/

namespace TinyRuntime

/-! ## Paths -/

/-- A character of a system string, or a byte that is part of none. -/
inductive OsChar
  | char (c : Char)
  | byte (b : UInt8)
deriving DecidableEq

abbrev OsString := List OsChar

def OsString.ofString (s : String) : OsString :=
  s.toList.map .char

/-- `to_str`. -/
def OsString.toStr : OsString → Option (List Char)
  | [] => some []
  | .char c :: rest => (toStr rest).map (c :: ·)
  | .byte _ :: _ => none

/-- `Component`. -/
inductive Component
  | rootDir
  | curDir
  | parentDir
  | normal (name : OsString)
deriving DecidableEq

def SLASH : OsChar := .char '/'

/-- What is between two separators. Nothing and `.` are no component. -/
def Component.of (part : OsString) : Option Component :=
  if part = [] ∨ part = OsString.ofString "." then none
  else if part = OsString.ofString ".." then some .parentDir
  else some (.normal part)

/-- `Path::components`. A relative path may begin with `.`. -/
def Path.components (text : OsString) : List Component :=
  let parts := text.splitOn SLASH
  if text.head? = some SLASH then .rootDir :: parts.filterMap Component.of
  else if parts.head? = some (OsString.ofString ".") then
    .curDir :: parts.tail.filterMap Component.of
  else parts.filterMap Component.of

/-- The size in bytes. -/
def OsString.size (s : OsString) : Nat :=
  (s.map fun | .char c => c.utf8Size | .byte _ => 1).sum

/-- A named absolute cache location. -/
structure WorkerCacheScope where
  id : String
  root : String
deriving DecidableEq

/-- `Path::new(&scope.root)`. -/
def WorkerCacheScope.path (scope : WorkerCacheScope) : List Component :=
  Path.components (.ofString scope.root)

namespace Cache

/-! ## The checks -/

/-- The names of credential stores, whatever the case. -/
def forbidden (value : List Char) : Bool :=
  value.map Char.toLower ∈
    [".ssh", ".gnupg", ".aws", ".azure", ".kube", ".config"].map String.toList

def validId (id : String) : Bool :=
  id.toList ≠ [] ∧ id.utf8ByteSize ≤ 64 ∧
    id.toList.all fun c => c.isAlphanum ∨ c = '-' ∨ c = '_'

/-- The loop over the components: how many are names. -/
def countNormal : List Component → Nat → Except String Nat
  | [], count => .ok count
  | .normal value :: rest, count =>
      match value.toStr with
      | none => .error "cache_scope_invalid"
      | some value =>
          if forbidden value then .error "cache_scope_forbidden" else countNormal rest (count + 1)
  | .rootDir :: rest, count => countNormal rest count
  | _ :: _, _ => .error "cache_scope_invalid"

/-- The system directories. -/
def systemRoots : List (List Component) :=
  ["/etc", "/proc", "/sys", "/dev", "/bin", "/sbin", "/usr", "/boot"].map fun root =>
    Path.components (.ofString root)

/-- `validate::scope`. The home directory is what `dirs::home_dir` says. -/
def validateScope (home : Option (List Component)) (scope : WorkerCacheScope) :
    Except String Unit := do
  let path := scope.path
  if ¬ validId scope.id ∨ 4096 < scope.root.utf8ByteSize ∨ path.head? ≠ some .rootDir ∨
      '\x00' ∈ scope.root.toList then
    throw "cache_scope_invalid"
  let count ← countNormal path 0
  -- Never grant a whole filesystem/system root or an entire home directory.
  if count < 2 ∨ home = some path then throw "cache_scope_forbidden"
  if ∃ root ∈ systemRoots, root <+: path then throw "cache_scope_forbidden"

/-- The comparison of a scope with the ones before it. -/
def conflicts (scope prior : WorkerCacheScope) : Bool :=
  prior.id = scope.id ∨ prior.path <+: scope.path ∨ scope.path <+: prior.path

/-- The loop of `scopes`. -/
def scopesFrom (home : Option (List Component)) :
    List WorkerCacheScope → List WorkerCacheScope → Except String Unit
  | _, [] => .ok ()
  | prior, scope :: rest => do
      validateScope home scope
      if prior.any (conflicts scope) then throw "cache_scope_conflict"
      scopesFrom home (prior ++ [scope]) rest

/-- The scopes a host approves. -/
def scopes (home : Option (List Component)) (scopes : List WorkerCacheScope) :
    Except String Unit :=
  if 32 < scopes.length then .error "cache_scope_limit" else scopesFrom home [] scopes

/-- What the approved scopes are meant to keep to. -/
structure Approved (home : List Component) (scopes : List WorkerCacheScope) : Prop where
  /-- No root is the home directory or above it. -/
  uncovered : ∀ scope ∈ scopes, ¬ scope.path <+: home
  narrow : ∀ scope ∈ scopes, scope.path ≠ [.rootDir] ∧ ∀ root ∈ systemRoots, ¬ root <+: scope.path
  clean : ∀ scope ∈ scopes, ∀ name, .normal name ∈ scope.path →
    ∃ value, name.toStr = some value ∧ forbidden value = false
  apart : scopes.Pairwise fun a b => ¬ a.path <+: b.path ∧ ¬ b.path <+: a.path

/-- A root of these two names is refused. -/
def Refused (first second : OsString) : Prop :=
  (∃ root ∈ systemRoots, root <+: [.rootDir, .normal first]) ∨
    4096 < 2 + first.size + second.size ∨
    ∃ name ∈ [first, second], .char '\x00' ∈ name ∨
      ∀ value, name.toStr = some value → forbidden value

/-- If a home directory lies below a root of two names, that root is refused. -/
def Sheltered (home : List Component) : Prop :=
  ∀ first second rest, home = .rootDir :: .normal first :: .normal second :: rest → rest ≠ [] →
    Refused first second

end Cache

/-! ## Names and separators -/

section Paths

theorem OsString.toStr_iff {s : OsString} {v : List Char} :
    s.toStr = some v ↔ s = v.map .char := by
  induction s generalizing v with
  | nil => cases v <;> simp [OsString.toStr]
  | cons x rest ih =>
      cases x with
      | char c =>
          rw [OsString.toStr, Option.map_eq_some_iff]
          constructor
          · rintro ⟨w, hw, rfl⟩
            rw [ih.mp hw]
            rfl
          · intro h
            cases v with
            | nil => cases h
            | cons d v =>
                rcases List.cons.inj h with ⟨hc, hrest⟩
                cases hc
                exact ⟨v, ih.mpr hrest, rfl⟩
      | byte b =>
          rw [OsString.toStr]
          refine ⟨nofun, fun h => ?_⟩
          cases v with
          | nil => cases h
          | cons d v => cases (List.cons.inj h).1

/-- A part has no separator, and nothing that is not in the text. -/
theorem mem_splitOn {α : Type} [DecidableEq α] {c : α} {text part : List α}
    (h : part ∈ text.splitOn c) : c ∉ part ∧ ∀ x ∈ part, x ∈ text := by
  induction text generalizing part with
  | nil =>
      rw [List.splitOn_nil, List.mem_singleton] at h
      exact ⟨h ▸ List.not_mem_nil, fun x hx => h ▸ hx⟩
  | cons x text ih =>
      rw [List.splitOn_cons_eq_if_modifyHead] at h
      split at h
      · rcases List.mem_cons.mp h with rfl | h
        · exact ⟨List.not_mem_nil, nofun⟩
        · exact ⟨(ih h).1, fun y hy => List.mem_cons_of_mem _ ((ih h).2 y hy)⟩
      · rename_i hx
        rcases List.exists_cons_of_ne_nil (List.splitOn_ne_nil c text) with ⟨first, parts, hparts⟩
        rw [hparts] at ih h
        rw [List.modifyHead_cons] at h
        rcases List.mem_cons.mp h with rfl | h
        · rcases ih List.mem_cons_self with ⟨hclean, hmem⟩
          refine ⟨fun hc => ?_, fun y hy => ?_⟩
          · rcases List.mem_cons.mp hc with rfl | hc
            · exact hx (beq_self_eq_true _)
            · exact hclean hc
          · rcases List.mem_cons.mp hy with rfl | hy
            · exact List.mem_cons_self
            · exact List.mem_cons_of_mem _ (hmem y hy)
        · have hpart := ih (List.mem_cons_of_mem _ h)
          exact ⟨hpart.1, fun y hy => List.mem_cons_of_mem _ (hpart.2 y hy)⟩

variable {c : OsChar} {text part : OsString}

theorem OsString.size_cons (x : OsChar) (s : OsString) :
    OsString.size (x :: s) = OsString.size [x] + OsString.size s := by
  simp only [OsString.size, List.map_cons, List.map_nil, List.sum_cons, List.sum_nil, Nat.add_zero]

theorem OsString.size_append (s t : OsString) :
    OsString.size (s ++ t) = OsString.size s + OsString.size t := by
  rw [OsString.size, List.map_append, List.sum_append]
  rfl

/-- The parts and their separators are the text. -/
theorem size_splitOn (hc : OsString.size [c] = 1) :
    ((text.splitOn c).map fun part => OsString.size part + 1).sum = OsString.size text + 1 := by
  induction text with
  | nil => rfl
  | cons x text ih =>
      rw [List.splitOn_cons_eq_if_modifyHead, OsString.size_cons]
      split
      · rename_i hx
        have hnil : OsString.size [] = 0 := rfl
        rw [List.map_cons, List.sum_cons, ih, eq_of_beq hx, hc, hnil]
        omega
      · rcases List.exists_cons_of_ne_nil (List.splitOn_ne_nil c text) with ⟨first, parts, hparts⟩
        rw [hparts, List.map_cons, List.sum_cons] at ih
        rw [hparts, List.modifyHead_cons, List.map_cons, List.sum_cons, OsString.size_cons]
        omega

/-- What a component is made of. -/
theorem of_eq_normal {part name : OsString} : Component.of part = some (.normal name) ↔
    part = name ∧ name ≠ [] ∧ name ≠ OsString.ofString "." ∧ name ≠ OsString.ofString ".." := by
  rw [Component.of]
  split
  · rename_i h
    refine ⟨nofun, ?_⟩
    rintro ⟨rfl, hnil, hdot, _⟩
    exact (h.elim hnil hdot).elim
  · rename_i h
    rw [not_or] at h
    split
    · rename_i hup
      refine ⟨nofun, ?_⟩
      rintro ⟨rfl, _, _, hne⟩
      exact absurd hup hne
    · rename_i hup
      constructor
      · intro heq
        cases heq
        exact ⟨rfl, h.1, h.2, hup⟩
      · rintro ⟨rfl, _⟩
        rfl

theorem of_ne_rootDir (part : OsString) : Component.of part ≠ some .rootDir := by
  rw [Component.of]
  split
  · nofun
  · split <;> nofun

/-- The components of an absolute path. -/
theorem components_absolute (h : text.head? = some SLASH) :
    Path.components text = .rootDir :: (text.splitOn SLASH).filterMap Component.of := by
  rw [Path.components]
  exact if_pos h

/-- A path with a root begins with the separator. -/
theorem absolute_of_head (h : (Path.components text).head? = some .rootDir) :
    text.head? = some SLASH := by
  have hnot : ∀ parts : List OsString, (parts.filterMap Component.of).head? ≠ some .rootDir := by
    intro parts hp
    rcases List.mem_filterMap.mp (List.mem_of_mem_head? hp) with ⟨part, _, hof⟩
    exact of_ne_rootDir part hof
  rw [Path.components] at h
  split at h
  · assumption
  · split at h
    · cases h
    · exact (hnot _ h).elim

/-- A name in a path. -/
theorem normal_mem {name : OsString} (h : .normal name ∈ Path.components text) :
    name ≠ [] ∧ name ≠ OsString.ofString "." ∧ name ≠ OsString.ofString ".." ∧ SLASH ∉ name ∧
      ∀ x ∈ name, x ∈ text := by
  have hparts : ∀ parts : List OsString, (∀ part ∈ parts, part ∈ text.splitOn SLASH) →
      .normal name ∈ parts.filterMap Component.of →
      name ≠ [] ∧ name ≠ OsString.ofString "." ∧ name ≠ OsString.ofString ".." ∧ SLASH ∉ name ∧
        ∀ x ∈ name, x ∈ text := by
    intro parts hsub hmem
    rcases List.mem_filterMap.mp hmem with ⟨part, hpart, hof⟩
    rcases of_eq_normal.mp hof with ⟨rfl, hnil, hdot, hup⟩
    rcases mem_splitOn (hsub part hpart) with ⟨hclean, hin⟩
    exact ⟨hnil, hdot, hup, hclean, hin⟩
  rw [Path.components] at h
  split at h
  · exact hparts _ (fun _ => id) ((List.mem_cons.mp h).resolve_left nofun)
  · split at h
    · exact hparts _ (fun _ hp => List.mem_of_mem_tail hp)
        ((List.mem_cons.mp h).resolve_left nofun)
    · exact hparts _ (fun _ => id) h

/-- The size of the names of an absolute path, each with its separator. -/
def Component.size : Component → Nat
  | .normal name => name.size + 1
  | _ => 0

theorem size_components (h : text.head? = some SLASH) :
    ((Path.components text).map Component.size).sum ≤ text.size := by
  have hparts : ∀ parts : List OsString, ((parts.filterMap Component.of).map Component.size).sum ≤
      (parts.map fun part => OsString.size part + 1).sum := by
    intro parts
    induction parts with
    | nil => exact Nat.le_refl _
    | cons part parts ih =>
        rw [List.filterMap_cons, List.map_cons, List.sum_cons]
        split
        · omega
        · rename_i component hof
          have hsize : component.size ≤ part.size + 1 := by
            cases component with
            | normal name =>
                rw [(of_eq_normal.mp hof).1]
                exact Nat.le_refl _
            | _ => exact Nat.zero_le _
          rw [List.map_cons, List.sum_cons]
          omega
  cases text with
  | nil => cases h
  | cons x text =>
      cases h
      have hnil : Component.of [] = none := by decide
      have hsplit : (SLASH :: text).splitOn SLASH = [] :: text.splitOn SLASH := by
        rw [List.splitOn_cons_eq_if_modifyHead, if_pos (beq_self_eq_true _)]
      have hsize : OsString.size (SLASH :: text) = 1 + OsString.size text :=
        OsString.size_cons SLASH text
      rw [components_absolute rfl, hsplit, List.filterMap_cons_none hnil, List.map_cons,
        List.sum_cons]
      have hrest := hparts (text.splitOn SLASH)
      rw [size_splitOn (by rfl)] at hrest
      change 0 + _ ≤ _
      omega

theorem size_ofString (s : String) : (OsString.ofString s).size = s.utf8ByteSize := by
  rw [← String.utf8Len_toList, OsString.size, OsString.ofString, List.map_map]
  generalize s.toList = cs
  induction cs with
  | nil => rfl
  | cons c cs ih =>
      rw [List.map_cons, List.sum_cons, ih, String.utf8Len_cons, Nat.add_comm]
      rfl

end Paths

namespace Cache

/-! ## What is accepted -/

/-- A component of an accepted root. -/
def Granted : Component → Prop
  | .rootDir => True
  | .normal name => ∃ value, name.toStr = some value ∧ forbidden value = false
  | _ => False

def isNormal : Component → Bool
  | .normal _ => true
  | _ => false

theorem countNormal_ok {path : List Component} {k n : Nat} : countNormal path k = .ok n ↔
    (∀ component ∈ path, Granted component) ∧ n = k + path.countP isNormal := by
  induction path generalizing k with
  | nil => simp [countNormal, eq_comm]
  | cons component path ih =>
      rw [List.forall_mem_cons, List.countP_cons]
      cases component with
      | rootDir => simp only [countNormal, ih, Granted, isNormal, true_and]; rfl
      | normal name =>
          rw [countNormal, Granted]
          split
          · rename_i hnone
            refine ⟨nofun, fun h => ?_⟩
            rcases h.1.1 with ⟨value, hvalue, _⟩
            cases hnone.symm.trans hvalue
          · rename_i value hvalue
            split
            · rename_i hforbidden
              refine ⟨nofun, fun h => ?_⟩
              rcases h.1.1 with ⟨other, hother, hallowed⟩
              cases hvalue.symm.trans hother
              cases hforbidden.symm.trans hallowed
            · rename_i hallowed
              rw [ih, Nat.add_assoc, Nat.add_comm 1]
              refine and_congr_left fun _ => (and_iff_right ?_).symm
              exact ⟨value, hvalue, Bool.eq_false_iff.mpr hallowed⟩
      | _ => exact ⟨nofun, fun h => h.1.1.elim⟩

/-- What an accepted scope is. -/
structure Accepted (home : Option (List Component)) (scope : WorkerCacheScope) : Prop where
  id : validId scope.id = true
  size : scope.root.utf8ByteSize ≤ 4096
  absolute : scope.path.head? = some .rootDir
  clean : '\x00' ∉ scope.root.toList
  granted : ∀ component ∈ scope.path, Granted component
  count : 2 ≤ scope.path.countP isNormal
  home : home ≠ some scope.path
  system : ∀ root ∈ systemRoots, ¬ root <+: scope.path

theorem validateScope_ok {home : Option (List Component)} {scope : WorkerCacheScope} :
    validateScope home scope = .ok () ↔ Accepted home scope := by
  rw [validateScope]
  dsimp only
  split
  · rename_i h
    refine ⟨nofun, fun ha => ?_⟩
    rcases h with h | h | h | h
    · exact absurd ha.id h
    · exact absurd ha.size (Nat.not_le.mpr h)
    · exact absurd ha.absolute h
    · exact absurd h ha.clean
  · rename_i h
    simp only [not_or, not_not, Nat.not_lt] at h
    cases hcount : countNormal scope.path 0 with
    | error reason =>
        refine ⟨nofun, fun ha => ?_⟩
        have hok : countNormal scope.path 0 = .ok (0 + _) := countNormal_ok.mpr ⟨ha.granted, rfl⟩
        cases hcount.symm.trans hok
    | ok n =>
        rcases countNormal_ok.mp hcount with ⟨hgranted, hn⟩
        rw [Nat.zero_add] at hn
        subst hn
        change (if _ then _ else _) = _ ↔ _
        split
        · rename_i hshort
          refine ⟨nofun, fun ha => ?_⟩
          exact (hshort.elim (Nat.not_lt.mpr ha.count) ha.home).elim
        · rename_i hlong
          rw [not_or, Nat.not_lt] at hlong
          split
          · rename_i hsystem
            refine ⟨nofun, fun ha => ?_⟩
            rcases hsystem with ⟨root, hroot, hpre⟩
            exact (ha.system root hroot hpre).elim
          · rename_i hsystem
            refine ⟨fun _ => ⟨h.1, h.2.1, h.2.2.1, h.2.2.2, hgranted, hlong.1, hlong.2, ?_⟩,
              fun _ => rfl⟩
            exact fun root hroot hpre => hsystem ⟨root, hroot, hpre⟩

theorem scopesFrom_ok {home : Option (List Component)} {prior list : List WorkerCacheScope} :
    scopesFrom home prior list = .ok () ↔ (∀ scope ∈ list, Accepted home scope) ∧
      (∀ scope ∈ list, ∀ p ∈ prior, conflicts scope p = false) ∧
      list.Pairwise fun p scope => conflicts scope p = false := by
  induction list generalizing prior with
  | nil => exact ⟨fun _ => ⟨nofun, nofun, .nil⟩, fun _ => rfl⟩
  | cons scope rest ih =>
      rw [scopesFrom, List.forall_mem_cons, List.forall_mem_cons, List.pairwise_cons]
      cases hscope : validateScope home scope with
      | error reason =>
          refine ⟨nofun, fun h => ?_⟩
          cases hscope.symm.trans (validateScope_ok.mpr h.1.1)
      | ok _ =>
          have haccepted := validateScope_ok.mp hscope
          change (if _ then _ else _) = _ ↔ _
          split
          · rename_i hconflict
            refine ⟨nofun, fun h => ?_⟩
            rcases List.any_eq_true.mp hconflict with ⟨p, hp, hc⟩
            cases hc.symm.trans (h.2.1.1 p hp)
          · rename_i hconflict
            have hclear : ∀ p ∈ prior, conflicts scope p = false := fun p hp =>
              Bool.eq_false_iff.mpr fun hc => hconflict (List.any_eq_true.mpr ⟨p, hp, hc⟩)
            refine ih.trans ⟨fun h => ?_, fun h => ⟨h.1.2, fun s hs p hp => ?_, h.2.2.2⟩⟩
            · refine ⟨⟨haccepted, h.1⟩, ⟨hclear, fun s hs p hp => ?_⟩, fun s hs => ?_, h.2.2⟩
              · exact h.2.1 s hs p (List.mem_append_left _ hp)
              · exact h.2.1 s hs scope (List.mem_append_right _ List.mem_cons_self)
            · rcases List.mem_append.mp hp with hp | hp
              · exact h.2.1.2 s hs p hp
              · rw [List.mem_singleton.mp hp]
                exact h.2.2.1 s hs

/-- What the checks come to. -/
theorem scopes_ok {home : Option (List Component)} {list : List WorkerCacheScope} :
    scopes home list = .ok () ↔ list.length ≤ 32 ∧ (∀ scope ∈ list, Accepted home scope) ∧
      list.Pairwise fun p scope => conflicts scope p = false := by
  rw [scopes]
  split
  · rename_i hlimit
    exact ⟨nofun, fun h => absurd h.1 (Nat.not_le.mpr hlimit)⟩
  · rename_i hlimit
    rw [scopesFrom_ok]
    exact ⟨fun h => ⟨Nat.le_of_not_lt hlimit, h.1, h.2.2⟩, fun h => ⟨h.2.1, nofun, h.2.2⟩⟩

/-! ## Roots above a home directory -/

section Home

variable {home : List Component} {scope : WorkerCacheScope} {text : OsString}

/-- The first two names of an accepted root. -/
theorem Accepted.names (h : Accepted (some home) scope) : ∃ first second rest,
    scope.path = .rootDir :: .normal first :: .normal second :: rest := by
  have hpath : scope.path = .rootDir ::
      ((OsString.ofString scope.root).splitOn SLASH).filterMap Component.of :=
    components_absolute (absolute_of_head h.absolute)
  have hcount := h.count
  have hgranted := h.granted
  rw [hpath] at hcount hgranted ⊢
  generalize hnames : ((OsString.ofString scope.root).splitOn SLASH).filterMap Component.of = names
    at hcount hgranted
  have hnormal : ∀ component ∈ names, ∃ name, component = .normal name := by
    intro component hmem
    have hg := hgranted component (List.mem_cons_of_mem _ hmem)
    cases component with
    | normal name => exact ⟨name, rfl⟩
    | rootDir =>
        rw [← hnames] at hmem
        rcases List.mem_filterMap.mp hmem with ⟨part, _, hof⟩
        exact (of_ne_rootDir part hof).elim
    | _ => exact hg.elim
  have hroot : isNormal .rootDir ≠ true := nofun
  rw [List.countP_cons_of_neg hroot] at hcount
  have hlen := Nat.le_trans hcount List.countP_le_length
  cases names with
  | nil => cases hlen
  | cons a names =>
      cases names with
      | nil => simp only [List.length_singleton] at hlen; omega
      | cons b names =>
          rcases hnormal a List.mem_cons_self with ⟨first, rfl⟩
          rcases hnormal b (List.mem_cons_of_mem _ List.mem_cons_self) with ⟨second, rfl⟩
          exact ⟨first, second, names, rfl⟩

/-- An accepted root does not begin with refused names. -/
theorem Accepted.not_refused (h : Accepted (some home) scope) {first second : OsString}
    {rest : List Component}
    (hpath : scope.path = .rootDir :: .normal first :: .normal second :: rest) :
    ¬ Refused first second := by
  have hname : ∀ name ∈ [first, second], .normal name ∈ scope.path := by
    intro name hmem
    rw [hpath]
    rcases List.mem_pair.mp hmem with rfl | rfl
    · exact List.mem_cons_of_mem _ List.mem_cons_self
    · exact List.mem_cons_of_mem _ (List.mem_cons_of_mem _ List.mem_cons_self)
  rintro (⟨root, hroot, hpre⟩ | hsize | ⟨name, hmem, hnul | htext⟩)
  · refine h.system root hroot (hpre.trans ?_)
    rw [hpath]
    exact ⟨_, rfl⟩
  · have hbound := size_components (absolute_of_head h.absolute)
    rw [size_ofString] at hbound
    change (scope.path.map Component.size).sum ≤ _ at hbound
    rw [hpath] at hbound
    simp only [List.map_cons, List.sum_cons, Component.size] at hbound
    have hlimit := h.size
    omega
  · have hchar := (normal_mem (hname name hmem)).2.2.2.2 _ hnul
    rcases List.mem_map.mp hchar with ⟨c, hc, hcn⟩
    cases hcn
    exact h.clean hc
  · rcases h.granted _ (hname name hmem) with ⟨value, hvalue, hallowed⟩
    cases (htext value hvalue).symm.trans hallowed

theorem systemRoots_length : ∀ root ∈ systemRoots, root.length = 2 := by decide

/-- A root of two names that are not refused, and not all of the home directory, is
    accepted. -/
theorem accepted_of_names {first second : OsString} {rest : List Component}
    (hhome : home = .rootDir :: .normal first :: .normal second :: rest) (hrest : rest ≠ [])
    (hfirst : .normal first ∈ Path.components text)
    (hsecond : .normal second ∈ Path.components text)
    (hok : ¬ Refused first second) : ∃ root, Accepted (some home) ⟨"cache", root⟩ ∧
      WorkerCacheScope.path ⟨"cache", root⟩ = [.rootDir, .normal first, .normal second] := by
  simp only [Refused, List.mem_cons, List.not_mem_nil, or_false, exists_eq_or_imp, exists_eq_left,
    not_or, not_exists, not_and, not_forall, Nat.not_lt] at hok
  rcases hok with ⟨hsystem, hsize, ⟨hnul₁, ⟨f, hf, hallowed₁⟩⟩, hnul₂, ⟨s, hs, hallowed₂⟩⟩
  have hroot : OsString.ofString (String.ofList ('/' :: f ++ '/' :: s)) =
      SLASH :: (first ++ SLASH :: second) := by
    rw [OsString.ofString, String.toList_ofList, OsString.toStr_iff.mp hf, OsString.toStr_iff.mp hs]
    simp only [List.map_append, List.map_cons, List.cons_append]
    rfl
  rcases normal_mem hfirst with ⟨hnil₁, hdot₁, hup₁, hslash₁, _⟩
  rcases normal_mem hsecond with ⟨hnil₂, hdot₂, hup₂, hslash₂, _⟩
  have hpath : WorkerCacheScope.path ⟨"cache", String.ofList ('/' :: f ++ '/' :: s)⟩ =
      [.rootDir, .normal first, .normal second] := by
    have hof₁ := of_eq_normal.mpr ⟨rfl, hnil₁, hdot₁, hup₁⟩
    have hof₂ := of_eq_normal.mpr ⟨rfl, hnil₂, hdot₂, hup₂⟩
    have hsplit : (SLASH :: (first ++ SLASH :: second)).splitOn SLASH = [[], first, second] := by
      rw [List.splitOn_cons_eq_if_modifyHead, if_pos (beq_self_eq_true _),
        List.splitOn_append_cons_self_of_not_mem hslash₁, List.splitOn_eq_singleton hslash₂]
    rw [WorkerCacheScope.path, hroot, components_absolute rfl, hsplit,
      List.filterMap_cons_none (by decide), List.filterMap_cons_some hof₁,
      List.filterMap_cons_some hof₂, List.filterMap_nil]
  have hid : validId "cache" = true := by decide
  refine ⟨_, ⟨hid, ?_, ?_, ?_, ?_, ?_, ?_, ?_⟩, hpath⟩
  · change (String.ofList ('/' :: f ++ '/' :: s)).utf8ByteSize ≤ 4096
    have hslash : OsString.size [SLASH] = 1 := rfl
    rw [← size_ofString, hroot, OsString.size_cons, OsString.size_append,
      OsString.size_cons SLASH second, hslash]
    omega
  · rw [hpath]
    rfl
  · change '\x00' ∉ (String.ofList ('/' :: f ++ '/' :: s)).toList
    rw [OsString.toStr_iff.mp hf] at hnul₁
    rw [OsString.toStr_iff.mp hs] at hnul₂
    rw [String.toList_ofList]
    intro hmem
    rcases List.mem_append.mp hmem with hmem | hmem
    · exact hnul₁ (List.mem_map_of_mem ((List.mem_cons.mp hmem).resolve_left (by decide)))
    · exact hnul₂ (List.mem_map_of_mem ((List.mem_cons.mp hmem).resolve_left (by decide)))
  · rw [hpath]
    intro component hmem
    simp only [List.mem_cons, List.not_mem_nil, or_false] at hmem
    rcases hmem with rfl | rfl | rfl
    · trivial
    · exact ⟨f, hf, Bool.eq_false_iff.mpr hallowed₁⟩
    · exact ⟨s, hs, Bool.eq_false_iff.mpr hallowed₂⟩
  · rw [hpath]
    exact Nat.le_refl 2
  · rw [hpath, hhome]
    intro heq
    cases Option.some.inj heq
    exact hrest rfl
  · rw [hpath]
    intro root hmem hpre
    refine hsystem root hmem (List.prefix_of_prefix_length_le hpre ⟨[.normal second], rfl⟩ ?_)
    exact Nat.le_of_eq (systemRoots_length root hmem)

/-- Whatever is accepted beside a home directory is apart from the file system's root, the
    system directories and the credential stores, and from each other. -/
theorem approved_of_accepted {list : List WorkerCacheScope}
    (h : scopes (some home) list = .ok ()) (huncovered : ∀ scope ∈ list, ¬ scope.path <+: home) :
    Approved home list := by
  rcases scopes_ok.mp h with ⟨_, haccepted, hapart⟩
  refine ⟨huncovered, fun scope hmem => ?_, fun scope hmem name hname => ?_, ?_⟩
  · rcases (haccepted scope hmem).names with ⟨first, second, rest, hpath⟩
    refine ⟨fun hroot => ?_, (haccepted scope hmem).system⟩
    cases hpath.symm.trans hroot
  · exact (haccepted scope hmem).granted _ hname
  · refine hapart.imp fun hclear => ?_
    simp only [conflicts, decide_eq_false_iff_not, not_or] at hclear
    exact hclear.2

/-- The scopes that are accepted never cover a home directory, and keep to everything else
    they are meant to keep to, exactly if every root above it that has two names is
    refused. -/
theorem scopes_cover_iff (text : OsString) :
    (∀ list, scopes (some (Path.components text)) list = .ok () →
      Approved (Path.components text) list) ↔ Sheltered (Path.components text) := by
  constructor
  · intro h first second rest hhome hrest
    by_contra hok
    have hfirst : .normal first ∈ Path.components text := by
      rw [hhome]
      exact List.mem_cons_of_mem _ List.mem_cons_self
    have hsecond : .normal second ∈ Path.components text := by
      rw [hhome]
      exact List.mem_cons_of_mem _ (List.mem_cons_of_mem _ List.mem_cons_self)
    rcases accepted_of_names hhome hrest hfirst hsecond hok with ⟨root, haccepted, hpath⟩
    have hlist : scopes (some (Path.components text)) [⟨"cache", root⟩] = .ok () :=
      scopes_ok.mpr ⟨Nat.succ_le_succ (Nat.zero_le 31),
        fun s hs => List.mem_singleton.mp hs ▸ haccepted, List.pairwise_singleton ..⟩
    refine (h _ hlist).uncovered _ List.mem_cons_self ?_
    rw [hpath, hhome]
    exact ⟨rest, rfl⟩
  · intro hsheltered list hlist
    refine approved_of_accepted hlist fun scope hmem hcover => ?_
    have haccepted := (scopes_ok.mp hlist).2.1 scope hmem
    rcases haccepted.names with ⟨first, second, rest, hpath⟩
    rcases hcover with ⟨below, hbelow⟩
    rw [hpath] at hbelow
    refine haccepted.not_refused hpath (hsheltered first second (rest ++ below) hbelow.symm ?_)
    -- Otherwise the root is the home directory itself.
    intro hnil
    refine haccepted.home ?_
    rw [hpath, ← hbelow, (List.append_eq_nil_iff.mp hnil).1, (List.append_eq_nil_iff.mp hnil).2]
    rfl

/-- A home directory that lies deeper, and a root above it that is accepted. -/
theorem home_covered : ¬ ∀ (text : OsString) (list : List WorkerCacheScope),
    text.head? = some SLASH → scopes (some (Path.components text)) list = .ok () →
      Approved (Path.components text) list := by
  intro h
  have happroved := h (.ofString "/var/home/alice") [⟨"cache", "/var/home"⟩] (by decide) (by decide)
  exact happroved.uncovered _ List.mem_cons_self (by decide)

end Home

end Cache

end TinyRuntime
