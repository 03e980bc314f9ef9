import TinyRuntime.Cache.Session
import TinyRuntime.Lib.Attempt

/-!
# Filled Sessions

What is known of a session after `install` or `adopt_legacy`, whatever others do to
the files meanwhile and wherever the call fails.

Others may change every name and every byte before each effect. What an inode is does
not change, and that is enough: a staging directory that is recorded is a directory
with that inode, held open.

Most of the code only looks at files and changes them. Such code never changes the
session, which is a fact about the effects it has (`CacheOp.Spares`).

## Main definitions

* `Session.attempts`: The cleanup of a session, and what others do.
* `Session.Acquired`: What `acquire` gives.
* `CacheState.Installed`: The states `install` and `adopt_legacy` leave.
* `Staging.Open`, `Session.Filled`: What is known there.

## Theorems

* `files_respond`: What an effect leaves as it is.
* `wp_spares`: Code that changes files only.
* `filled_installed`: What `install` and `adopt_legacy` leave is filled.
* `created_createStaging`: What is recorded is what was made.
* `acquired_acquire`: What `acquire` returns is acquired.
-/

namespace TinyRuntime

open Prog (act op Uses)
open Cache (CacheProg tryAs tryIo)

/-! ## What an effect leaves as it is -/

/-- Whether an effect changes the session. -/
def CacheOp.updates : ∀ β, CacheOp β → Bool
  | _, .update _ => true
  | _, _ => false

/-- Only the files have changed, and an inode stays what it is. -/
structure CacheState.Files (s t : CacheState) : Prop where
  volume : s.volume.Later t.volume
  anchor : t.anchor = s.anchor
  session : t.session = s.session

section Effects

variable {β : Type} {e : CacheOp β} {s t : CacheState} {c : CacheChoice} {b : β}

theorem CacheState.Files.refl (s : CacheState) : s.Files s :=
  ⟨Volume.Later.rfl, rfl, rfl⟩

/-- A call that can fail. -/
theorem files_call {α : Type} {r : Except IoError α × CacheState} {x : Except IoError α}
    (hr : s.Files r.2) (h : c.call s r = some (x, t)) : s.Files t := by
  cases c with
  | pass =>
      cases h
      exact hr
  | fail n =>
      cases h
      exact .refl s
  | flag b => cases h
  | name x => cases h

theorem files_ask {x : Bool} (h : c.ask s = some (x, t)) : s.Files t := by
  cases c with
  | flag b =>
      cases h
      exact .refl s
  | pass => cases h
  | fail n => cases h
  | name x => cases h

theorem files_make (s : CacheState) (k : InodeKind) (d : Nat) (x : OsString) :
    s.Files (s.make k d x).2 := by
  rw [CacheState.make]
  split
  · exact ⟨Volume.later_make, rfl, rfl⟩
  · split <;> exact .refl s

theorem files_openLock (s : CacheState) (d : Nat) (x : OsString) :
    s.Files (s.openLock d x).2 := by
  rw [CacheState.openLock]
  split
  · exact files_make s .file d x
  · exact .refl s
  · split <;> exact .refl s

theorem files_rename (s : CacheState) (d : Nat) (x : OsString) (p : Nat) (y : OsString) :
    s.Files (s.rename d x p y).2 := by
  rw [CacheState.rename]
  split
  · exact ⟨Volume.later_rename, rfl, rfl⟩
  · split <;> exact .refl s

theorem files_removeFile (s : CacheState) (d : Nat) (x : OsString) :
    s.Files (s.removeFile d x).2 := by
  rw [CacheState.removeFile]
  split
  · exact .refl s
  · split
    · exact .refl s
    · exact ⟨Volume.later_unlink, rfl, rfl⟩

theorem files_removeOpenDir (s : CacheState) (d : Nat) : s.Files (s.removeOpenDir d).2 := by
  rw [CacheState.removeOpenDir]
  split
  · exact .refl s
  · split
    · exact ⟨Volume.later_unlink, rfl, rfl⟩
    · exact .refl s

/-- Every effect but an update. -/
theorem files_respond (he : e.updates = false) (h : e.respond s c = some (b, t)) :
    s.Files t := by
  cases e with
  | openRoot | openDir | tryClone | dirMetadata | openRead | metadata | syncAll =>
      exact files_call (.refl s) h
  | createDir dir name =>
      let r := s.make .dir dir name
      exact files_call (r := (r.1.map fun _ => (), r.2)) (files_make s .dir dir name) h
  | openLock dir name => exact files_call (files_openLock s dir name) h
  | createNew dir name => exact files_call (files_make s .file dir name) h
  | symlinkMetadata dir name =>
      rw [CacheOp.respond] at h
      split at h <;> exact files_call (.refl s) h
  | readToEnd file limit =>
      rw [CacheOp.respond] at h
      split at h <;> exact files_call (.refl s) h
  | writeAll file bytes =>
      cases c with
      | pass | fail n =>
          cases h
          exact ⟨Volume.later_write, rfl, rfl⟩
      | flag b => cases h
      | name x => cases h
  | rename dir name parent target => exact files_call (files_rename s dir name parent target) h
  | removeFile dir name => exact files_call (files_removeFile s dir name) h
  | removeOpenDir dir => exact files_call (files_removeOpenDir s dir) h
  | tryLock file =>
      cases c with
      | flag b | fail n =>
          cases h
          exact .refl s
      | pass => cases h
      | name x => cases h
  | newName =>
      cases c with
      | name x =>
          cases h
          exact .refl s
      | pass => cases h
      | fail n => cases h
      | flag b => cases h
  | stopped | expired | sleep => exact files_ask h
  | pending => cases h
  | session =>
      rcases Option.map_eq_some_iff.mp h with ⟨_, _, heq⟩
      cases heq
      exact .refl s
  | update f => cases he

end Effects

/-! ## Code that spares the session -/

/-- An effect that is no update, or one that is harmless. -/
def CacheOp.Spares (harmless : (Session → Session) → Prop) : ∀ β, CacheOp β → Prop
  | _, .update f => harmless f
  | _, _ => True

theorem CacheOp.spares_of {harmless : (Session → Session) → Prop} {β : Type} {e : CacheOp β}
    (he : e.updates = false) : e.Spares harmless := by
  cases e with
  | update f => cases he
  | _ => trivial

namespace Cache

section Uses

variable {harmless : (Session → Session) → Prop}

theorem uses_act {ε β : Type} (e : CacheOp β) (he : e.updates = false) :
    Uses (CacheOp.Spares harmless) (act e : ExceptT ε (Prog CacheOp) β).run :=
  Prog.uses_run_lift ((Prog.uses_op e).mpr (CacheOp.spares_of he))

theorem uses_result {α : Type} {p : CacheProg α} (h : Uses (CacheOp.Spares harmless) p.run) :
    Uses (CacheOp.Spares harmless) (result p).run :=
  Prog.uses_run_lift h

theorem uses_mk {α : Type} (r : Except String α) :
    Uses (CacheOp.Spares harmless) (ExceptT.mk (pure r) : CacheProg α).run := trivial

theorem uses_tryAs {α : Type} (reason : String) (e : CacheOp (Except IoError α))
    (he : e.updates = false) : Uses (CacheOp.Spares harmless) (tryAs reason e).run := by
  refine Prog.uses_run_bind (uses_act e he) fun r => ?_
  cases r with
  | ok a => trivial
  | error x => trivial

theorem uses_tryIo {α : Type} (e : CacheOp (Except IoError α)) (he : e.updates = false) :
    Uses (CacheOp.Spares harmless) (tryIo e).run :=
  uses_tryAs _ e he

theorem uses_descend (dir : Nat) (name : OsString) (create : Bool) :
    Uses (CacheOp.Spares harmless) (descend dir name create).run := by
  refine Prog.uses_run_bind (uses_act _ rfl) fun r => ?_
  cases r with
  | ok child => trivial
  | error x =>
      cases x with
      | notFound =>
          cases create with
          | false => trivial
          | true =>
              refine Prog.uses_run_bind (uses_act _ rfl) fun r => ?_
              cases r with
              | ok _ => exact uses_tryIo _ rfl
              | error x =>
                  cases x with
                  | alreadyExists => exact uses_tryIo _ rfl
                  | notFound | other => trivial
      | alreadyExists | other => trivial

theorem uses_descendAll (create : Bool) (names : List OsString) : ∀ dir,
    Uses (CacheOp.Spares harmless) (descendAll create names dir).run := by
  induction names with
  | nil => exact fun _ => trivial
  | cons name rest ih =>
      exact fun dir => Prog.uses_run_bind (uses_descend dir name create) fun child => ih child

theorem uses_absolute (path : String) (create : Bool) :
    Uses (CacheOp.Spares harmless) (absolute path create).run :=
  Prog.uses_run_bind (uses_mk _) fun names =>
    Prog.uses_run_bind (uses_tryIo _ rfl) fun dir => uses_descendAll create names dir

theorem uses_parentFrom (create : Bool) (names : List OsString) : ∀ dir,
    Uses (CacheOp.Spares harmless) (parentFrom create names dir).run := by
  induction names with
  | nil => exact fun _ => trivial
  | cons name rest ih =>
      intro dir
      cases rest with
      | nil => trivial
      | cons next rest =>
          exact Prog.uses_run_bind (uses_descend dir name create) fun child => ih child

theorem uses_parent (dir : Nat) (path : String) (create : Bool) :
    Uses (CacheOp.Spares harmless) (parent dir path create).run :=
  Prog.uses_run_bind (uses_mk _) fun _ =>
    Prog.uses_run_bind (uses_tryIo _ rfl) fun dir => uses_parentFrom create _ dir

theorem uses_sameDirectory (first second : Nat) :
    Uses (CacheOp.Spares harmless) (sameDirectory first second).run :=
  Prog.uses_run_bind (uses_tryIo _ rfl) fun _ =>
    Prog.uses_run_bind (uses_tryIo _ rfl) fun _ => trivial

theorem uses_matchesFile (dir : Nat) (artifact : CacheArtifact) :
    Uses (CacheOp.Spares harmless) (matchesFile dir artifact).run := by
  refine Prog.uses_run_bind (uses_result (uses_parent _ _ _)) fun r => ?_
  cases r with
  | error x => trivial
  | ok found =>
      refine Prog.uses_run_bind (uses_act _ rfl) fun r => ?_
      cases r with
      | error x => cases x <;> trivial
      | ok file =>
          refine Prog.uses_run_bind (uses_tryIo _ rfl) fun metadata => ?_
          split
          · trivial
          · split
            · trivial
            · exact Prog.uses_run_bind (uses_tryIo _ rfl) fun _ => trivial

theorem uses_regularFileExists (dir : Nat) (path : String) :
    Uses (CacheOp.Spares harmless) (regularFileExists dir path).run := by
  refine Prog.uses_run_bind (uses_result (uses_parent _ _ _)) fun r => ?_
  cases r with
  | error x => trivial
  | ok found =>
      refine Prog.uses_run_bind (uses_act _ rfl) fun r => ?_
      cases r with
      | error x => cases x <;> trivial
      | ok metadata =>
          dsimp only
          split <;> trivial

theorem uses_required (dir : Nat) (entry : CacheEntry) :
    Uses (CacheOp.Spares harmless) (required dir entry).run := by
  refine Prog.uses_run_bind (uses_result (uses_parent _ _ _)) fun r => ?_
  cases r with
  | error x => trivial
  | ok found =>
      refine Prog.uses_run_bind (uses_act _ rfl) fun r => ?_
      cases r with
      | error x => cases x <;> trivial
      | ok metadata => trivial

theorem uses_stage (dir : Nat) (name : String) (bytes : List UInt8) :
    Uses (CacheOp.Spares harmless) (stage dir name bytes).run :=
  Prog.uses_run_bind (uses_tryIo _ rfl) fun _ =>
    Prog.uses_run_bind (uses_tryIo _ rfl) fun _ => uses_tryIo _ rfl

theorem uses_promote (stage : Nat) (name : String) (root : Nat) (destination : String) :
    Uses (CacheOp.Spares harmless) (promote stage name root destination).run := by
  refine Prog.uses_run_bind (uses_parent _ _ _) fun found => ?_
  refine Prog.uses_run_bind (uses_act _ rfl) fun r => ?_
  cases r with
  | error x => exact uses_tryIo _ rfl
  | ok metadata =>
      dsimp only
      split
      · exact Prog.uses_run_bind trivial fun _ => uses_tryIo _ rfl
      · exact uses_tryIo _ rfl

theorem uses_invalidate (root : Nat) (path : String) :
    Uses (CacheOp.Spares harmless) (invalidate root path).run := by
  refine Prog.uses_run_bind (uses_result (uses_parent _ _ _)) fun r => ?_
  cases r with
  | error x => trivial
  | ok found =>
      refine Prog.uses_run_bind (uses_act _ rfl) fun r => ?_
      cases r with
      | error x => cases x <;> trivial
      | ok metadata =>
          dsimp only
          split
          · exact uses_tryIo _ rfl
          · trivial

end Uses

end Cache

namespace Session

section Uses

variable {harmless : (Session → Session) → Prop}

theorem uses_checkBinding (s : Session) :
    Uses (CacheOp.Spares harmless) s.checkBinding.run := by
  refine Prog.uses_run_bind (Cache.uses_absolute _ _) fun current => ?_
  refine Prog.uses_run_bind (Cache.uses_sameDirectory _ _) fun same => ?_
  have hrest : Uses (CacheOp.Spares harmless) (do
      let lock ← tryAs "cache_lock_changed" (.openRead s.root LOCK_NAME)
      let metadata ← tryAs "cache_lock_changed" (.metadata lock)
      if metadata.nlink ≠ 1 ∨ metadata.inode ≠ s.lockIdentity then
        throw "cache_lock_changed" : CacheProg Unit).run := by
    refine Prog.uses_run_bind (Cache.uses_tryAs _ _ rfl) fun lock => ?_
    refine Prog.uses_run_bind (Cache.uses_tryAs _ _ rfl) fun metadata => ?_
    split <;> trivial
  dsimp only
  split
  · exact Prog.uses_run_bind trivial fun _ => hrest
  · exact hrest

theorem uses_every {α : Type} {check : α → CacheProg Bool}
    (hcheck : ∀ a, Uses (CacheOp.Spares harmless) (check a).run) (as : List α) :
    Uses (CacheOp.Spares harmless) (every check as).run := by
  induction as with
  | nil => trivial
  | cons a rest ih =>
      refine Prog.uses_run_bind (hcheck a) fun found => ?_
      cases found with
      | true => exact ih
      | false => trivial

theorem uses_readiness (s : Session) (recipe : CacheRecipe) :
    Uses (CacheOp.Spares harmless) (s.readiness recipe).run := by
  refine Prog.uses_run_bind (Cache.uses_matchesFile _ _) fun marker => ?_
  cases marker with
  | false => trivial
  | true =>
      refine Prog.uses_run_bind (uses_every (Cache.uses_required _) _) fun required => ?_
      cases required with
      | false => trivial
      | true =>
          refine Prog.uses_run_bind (uses_every (Cache.uses_matchesFile _) _) fun artifacts => ?_
          cases artifacts with
          | false => trivial
          | true =>
              refine Prog.uses_run_bind (Cache.uses_regularFileExists _ _) fun sidecar => ?_
              cases sidecar with
              | false => cases recipe.adoption <;> trivial
              | true =>
                  refine Prog.uses_run_bind (Cache.uses_matchesFile _ _) fun same => ?_
                  cases same <;> trivial

end Uses

end Session

/-! ## Attempts -/

/-- The cleanup of a session. Once it has returned `Ok`, the session is gone. -/
def Session.attempts :
    Attempts CacheOp CacheState CacheChoice (Volume OsString) (Except String Unit) where
  handler := caching
  call s := s.session.map fun _ => Session.cleanup.run
  suspends _ _ := false
  finish r s :=
    match r with
    | .ok _ => { s with session := none }
    | .error _ => s
  outside s w := if s.volume.Later w then some { s with volume := w } else none

/-- What `acquire` gives. -/
structure Session.Acquired (s : Session) (v : Volume OsString) : Prop where
  root : v.Dir s.root
  lock : s.lock.isSome
  staging : s.staging = none
  staged : s.staged = []

/-- What fills a session. -/
inductive Session.Filler : Prog CacheOp (Except String Unit) → Prop
  | install (recipe : CacheRecipe) : Filler (Session.install recipe).run
  | adoptLegacy (recipe : CacheRecipe) : Filler (Session.adoptLegacy recipe).run

/-- What `install` and `adopt_legacy` leave, whether they return or fail. -/
def CacheState.Installed (s : CacheState) : Prop :=
  ∃ p s₀ session r, Session.Filler p ∧ s₀.session = some session ∧
    session.Acquired s₀.volume ∧ p.Reaches Session.attempts.contended s₀ (.done r) s

/-- A staging directory that is held open. -/
structure Staging.Open (stage : Staging) (v : Volume OsString) : Prop where
  directory : stage.directory = some stage.identity
  kind : v.Dir stage.identity

/-- What is known of a session once it is filled. -/
structure Session.Filled (s : Session) (v : Volume OsString) : Prop where
  root : v.Dir s.root
  lock : s.lock.isSome
  stage : ∀ stage, s.staging = some stage → stage.Open v

def CacheState.Filled (s : CacheState) : Prop :=
  ∃ session, s.session = some session ∧ session.Filled s.volume

section Filled

variable {s t : CacheState} {Q : Except String Unit → CacheState → Prop}

theorem Staging.Open.later {stage : Staging} {v w : Volume OsString} (h : stage.Open v)
    (hw : v.Later w) : stage.Open w where
  directory := h.directory
  kind := h.kind.later hw

theorem Session.Filled.later {session : Session} {v w : Volume OsString}
    (h : session.Filled v) (hw : v.Later w) : session.Filled w where
  root := h.root.later hw
  lock := h.lock
  stage stage hstage := (h.stage stage hstage).later hw

theorem CacheState.Filled.files (h : s.Filled) (ht : s.Files t) : t.Filled := by
  rcases h with ⟨session, hs, hfilled⟩
  exact ⟨session, ht.session.trans hs, hfilled.later ht.volume⟩

theorem files_outside {w : Volume OsString} (h : Session.attempts.outside s w = some t) :
    s.Files t := by
  change (if s.volume.Later w then _ else _) = _ at h
  split at h
  · rename_i hlater
    cases h
    exact ⟨hlater, rfl, rfl⟩
  · cases h

/-- An update that keeps every session filled. -/
def Session.Keeps (f : Session → Session) : Prop :=
  ∀ s v, Session.Filled s v → (f s).Filled v

/-- One effect where others act, and no update. -/
theorem wp_files {β : Type} {e : CacheOp β} (he : e.updates = false) (I : CacheState → Prop)
    (hI : ∀ s t, I s → s.Files t → I t) {R : β → CacheState → Prop} (hs : I s)
    (hR : ∀ t c b u, I t → e.respond t c = some (b, u) → I u → R b u) :
    (op e).wp Session.attempts.contended (fun _ _ _ => True) R s := by
  refine Attempts.wp_contended I (fun s o t hs ho => hI s t hs (files_outside ho)) hs trivial ?_
  exact fun t c b u ht hr => hR t c b u ht hr (hI t u ht (files_respond he hr))

/-- Code that spares the session keeps what the files cannot change. -/
theorem wp_spares {α : Type} (I : CacheState → Prop) (hI : ∀ s t, I s → s.Files t → I t)
    {harmless : (Session → Session) → Prop}
    (hupdate : ∀ f s, harmless f → I s → I { s with session := s.session.map f })
    {p : Prog CacheOp α} (hp : Uses (CacheOp.Spares harmless) p) (hs : I s) :
    p.wp Session.attempts.contended (fun _ _ _ => True) (fun _ t => I t) s := by
  refine Prog.wp_weaken p (fun _ _ _ _ => trivial) s (Prog.wp_uses I ?_ p s hp hs)
  intro β e s c b t he hs hr
  have hone : (op e).wp Session.attempts.contended (fun _ _ _ => True) (fun _ t => I t) s := by
    refine Attempts.wp_contended I (fun s o t hs ho => hI s t hs (files_outside ho)) hs
      trivial ?_
    intro t c b u ht hr
    cases hup : e.updates with
    | false => exact hI t u ht (files_respond hup hr)
    | true =>
        cases e with
        | update f =>
            cases hr
            exact hupdate f t he ht
        | _ => cases hup
  exact hone.2 c b t hr

/-- Whatever it returns, the session is filled. -/
abbrev Fills {α : Type} (p : CacheProg α) (s : CacheState) : Prop :=
  p.run.wp Session.attempts.contended (fun _ _ _ => True) (fun _ t => t.Filled) s

theorem fills_spares {α : Type} {p : CacheProg α}
    (hp : Uses (CacheOp.Spares Session.Keeps) p.run) (hs : s.Filled) : Fills p s := by
  refine wp_spares CacheState.Filled (fun _ _ => CacheState.Filled.files) ?_ hp hs
  rintro f s hf ⟨session, hsession, hfilled⟩
  exact ⟨f session, by rw [hsession]; rfl, hf _ _ hfilled⟩

theorem fills_bind {α β : Type} {p : CacheProg α} {f : α → CacheProg β} (hp : Fills p s)
    (hf : ∀ a t, t.Filled → Fills (f a) t) : Fills (p >>= f) s := by
  refine (Prog.wp_run_bind p f _ s).mpr (Prog.wp_mono _ (fun r t ht => ?_) s hp)
  cases r with
  | ok a => exact hf a t ht
  | error e => exact ht

theorem openDir_ok {d i : Nat} {x : OsString} (h : s.openDir d x = .ok i) :
    s.volume.name d x = some i ∧ s.volume.Dir i := by
  rw [CacheState.openDir, CacheState.lookup] at h
  cases hname : s.volume.name d x with
  | none =>
      rw [hname] at h
      cases h
  | some j =>
      simp only [hname] at h
      by_cases hlink : s.volume.kind j = .link
      · rw [if_pos hlink] at h
        cases h
      · rw [if_neg hlink] at h
        change (if s.volume.kind j = .dir then _ else _) = _ at h
        split at h
        · rename_i hdir
          cases h
          exact ⟨rfl, Volume.name_lt hname, hdir⟩
        · cases h

theorem openDir_dir {root i : Nat} {x : OsString} (h : s.volume.name root x = some i)
    (hkind : s.volume.kind i = .dir) : s.openDir root x = .ok i := by
  have hlink : s.volume.kind i ≠ .link := by
    rw [hkind]
    exact nofun
  rw [CacheState.openDir, CacheState.lookup, h]
  simp only [if_neg hlink]
  exact if_pos hkind

theorem wp_tryAs {σ χ α : Type} {H : Handler CacheOp σ χ} {A : ∀ β, CacheOp β → σ → Prop}
    (reason : String) (e : CacheOp (Except IoError α)) (R : Except String α → σ → Prop) (s : σ) :
    (tryAs reason e).run.wp H A R s ↔
      (op e).wp H A (fun r t => R (r.mapError fun _ => reason) t) s := by
  rw [tryAs, Prog.wp_run_bind, Prog.wp_act]
  constructor
  · refine Prog.wp_mono _ (fun r t h => ?_) s
    cases r with
    | ok a => exact h
    | error x => exact h
  · refine Prog.wp_mono _ (fun r t h => ?_) s
    cases r with
    | ok a => exact h
    | error x => exact h

/-- What is recorded is an open directory with that inode. -/
theorem wp_open (root : Nat) (name : String) (hs : s.Filled) :
    (Staging.open root name).run.wp Session.attempts.contended (fun _ _ _ => True)
      (fun r t => t.Filled ∧ ∀ stage, r = .ok stage → stage.Open t.volume) s := by
  rw [Staging.open, Prog.wp_run_bind, wp_tryAs]
  refine wp_files rfl CacheState.Filled (fun _ _ => CacheState.Filled.files) hs ?_
  intro t c r u ht hr hu
  cases r with
  | error x => exact ⟨hu, nofun⟩
  | ok i =>
      have hdir : u.volume.Dir i := by
        cases c with
        | pass =>
            have heq : (t.openDir root (OsString.ofString name), t) = (Except.ok i, u) :=
              Option.some.inj hr
            cases (Prod.mk.inj heq).2
            exact (openDir_ok (Prod.mk.inj heq).1).2
        | fail n => cases hr
        | flag b => cases hr
        | name x => cases hr
      refine (Prog.wp_run_bind _ _ _ _).mpr ((wp_tryAs _ _ _ _).mpr ?_)
      refine wp_files rfl (fun t => t.Filled ∧ t.volume.Dir i)
        (fun _ _ h hf => ⟨h.1.files hf, h.2.later hf.volume⟩) ⟨hu, hdir⟩ ?_
      intro t c r u _ hr hu
      cases c with
      | pass =>
          cases hr
          refine ⟨hu.1, fun stage hstage => ?_⟩
          cases hstage
          exact ⟨rfl, hu.2⟩
      | fail n =>
          cases hr
          exact ⟨hu.1, nofun⟩
      | flag b => cases hr
      | name x => cases hr

theorem fills_set (stage : Staging) (hs : s.Filled) (hopen : stage.Open s.volume) :
    Fills stage.set s := by
  refine (Prog.wp_act _ _ _).mpr (Attempts.wp_contended
    (fun t => t.Filled ∧ stage.Open t.volume) ?_ ⟨hs, hopen⟩ trivial ?_)
  · intro s o t hs ho
    exact ⟨hs.1.files (files_outside ho), hs.2.later (files_outside ho).volume⟩
  · rintro t c b u ⟨⟨session, hsession, hfilled⟩, hopen⟩ hr
    cases hr
    refine ⟨{ session with staging := some stage }, by rw [hsession]; rfl, hfilled.root,
      hfilled.lock, ?_⟩
    rintro _ ⟨⟩
    exact hopen

theorem fills_createStaging (root : Nat) (hs : s.Filled) :
    Fills (Session.createStaging root) s := by
  refine fills_bind (fills_spares (Cache.uses_act _ rfl) hs) fun name t ht => ?_
  refine fills_bind (fills_spares (Cache.uses_tryAs _ _ rfl) ht) fun _ t ht => ?_
  refine (Prog.wp_run_bind _ _ _ _).mpr (Prog.wp_mono _ ?_ _ (wp_open _ _ ht))
  intro r t ht
  cases r with
  | error x => exact ht.1
  | ok stage =>
      refine fills_bind (fills_set stage ht.1 (ht.2 stage rfl)) fun _ t ht => ?_
      rw [Staging.handle]
      split
      · exact ht
      · exact ht

/-- A call that fails or does what it can. -/
theorem wp_call {α : Type} {e : CacheOp (Except IoError α)}
    {R : Except IoError α → CacheState → Prop} (r : Except IoError α × CacheState)
    (he : ∀ c, e.respond s c = c.call s r) (hfail : ∀ t, R (.error .other) t) (hr : R r.1 r.2) :
    (op e).wp caching (fun _ _ _ => True) R s := by
  refine ⟨trivial, fun c b t h => ?_⟩
  have hcall : c.call s r = some (b, t) := (he c).symm.trans h
  cases c with
  | pass =>
      cases hcall
      exact hr
  | fail n =>
      cases hcall
      exact hfail s
  | flag b => cases hcall
  | name x => cases hcall

/-- Where nobody else acts, what is recorded is the directory that was made. -/
theorem created_createStaging (root : Nat) (hs : s.Filled) :
    (Session.createStaging root).run.wp caching (fun _ _ _ => True)
      (fun r t => ∀ d, r = .ok d → d = s.volume.fresh ∧ ∃ session stage,
        t.session = some session ∧ session.staging = some stage ∧ stage.identity = d) s := by
  rcases hs with ⟨session, hsession, _⟩
  refine (Prog.wp_run_bind _ _ _ _).mpr ((Prog.wp_act _ _ _).mpr ⟨trivial, fun c x t hr => ?_⟩)
  cases c with
  | pass => cases hr
  | fail n => cases hr
  | flag b => cases hr
  | name u =>
      cases hr
      refine (Prog.wp_run_bind _ _ _ _).mpr ((wp_tryAs _ _ _ _).mpr
        (wp_call _ (fun _ => rfl) (fun _ => nofun) ?_))
      by_cases hmakes : s.volume.Makes root (.ofString (".tinyruntime-stage-" ++ x))
      · rw [CacheState.make, if_pos hmakes]
        refine (Prog.wp_run_bind _ _ _ _).mpr ((Prog.wp_run_bind _ _ _ _).mpr
          ((wp_tryAs _ _ _ _).mpr (wp_call _ (fun _ => rfl) (fun _ => nofun) ?_)))
        have hopen : CacheState.openDir { s with
            volume := s.volume.make .dir root (.ofString (".tinyruntime-stage-" ++ x)) } root
            (.ofString (".tinyruntime-stage-" ++ x)) = .ok s.volume.fresh :=
          openDir_dir Volume.name_make_self Volume.kind_make_self
        rw [hopen]
        refine (Prog.wp_run_bind _ _ _ _).mpr ((wp_tryAs _ _ _ _).mpr
          (wp_call _ (fun _ => rfl) (fun _ => nofun) ?_))
        refine (Prog.wp_run_bind _ _ _ _).mpr ((Prog.wp_act _ _ _).mpr
          ⟨trivial, fun c b t hr => ?_⟩)
        cases hr
        intro d hd
        cases hd
        refine ⟨rfl, _, _, congrArg (Option.map _) hsession, rfl, rfl⟩
      · rw [CacheState.make, if_neg hmakes]
        by_cases hname : s.volume.name root (.ofString (".tinyruntime-stage-" ++ x)) = none
        · rw [if_pos hname]
          exact nofun
        · rw [if_neg hname]
          exact nofun

theorem uses_push (name : String) :
    Uses (CacheOp.Spares Session.Keeps) (Session.push name).run :=
  Prog.uses_run_lift ((Prog.uses_op _).mpr fun _ _ h => ⟨h.root, h.lock, h.stage⟩)

theorem uses_installArtifacts (s : Session) (stage : Nat) (artifacts : List CacheArtifact) :
    ∀ index, Uses (CacheOp.Spares Session.Keeps)
      (s.installArtifacts stage artifacts index).run := by
  induction artifacts with
  | nil => exact fun _ => trivial
  | cons artifact rest ih =>
      intro index
      refine Prog.uses_run_bind (uses_push _) fun _ => ?_
      refine Prog.uses_run_bind (Cache.uses_stage _ _ _) fun _ => ?_
      refine Prog.uses_run_bind (Session.uses_checkBinding s) fun _ => ?_
      exact Prog.uses_run_bind (Cache.uses_promote _ _ _ _) fun _ => ih (index + 1)

theorem fills_install (recipe : CacheRecipe) (hs : s.Filled) :
    Fills (Session.install recipe) s := by
  refine fills_bind (fills_spares (Cache.uses_act _ rfl) hs) fun session t ht => ?_
  refine fills_bind (fills_spares (Session.uses_checkBinding _) ht) fun _ t ht => ?_
  refine fills_bind (fills_spares (Cache.uses_invalidate _ _) ht) fun _ t ht => ?_
  refine fills_bind (fills_createStaging _ ht) fun stage t ht => fills_spares ?_ ht
  refine Prog.uses_run_bind (uses_installArtifacts _ _ _ _) fun _ => ?_
  refine Prog.uses_run_bind (uses_push _) fun _ => ?_
  refine Prog.uses_run_bind (Cache.uses_stage _ _ _) fun _ => ?_
  exact Prog.uses_run_bind (uses_push _) fun _ => Cache.uses_stage _ _ _

theorem fills_adoptLegacy (recipe : CacheRecipe) (hs : s.Filled) :
    Fills (Session.adoptLegacy recipe) s := by
  refine fills_bind (fills_spares (Cache.uses_act _ rfl) hs) fun session t ht => ?_
  refine fills_bind (fills_spares (Session.uses_checkBinding _) ht) fun _ t ht => ?_
  have hfill : ∀ t : CacheState, t.Filled → Fills (do
      let stage ← Session.createStaging session.root
      Session.push "identity"
      Cache.stage stage "identity" session.recipeIdentity.bytes
      session.checkBinding
      Cache.promote stage "identity" session.root session.recipeIdentity.path
      act (.update fun s => { s with legacy := false, cached := true })) t := by
    intro t ht
    refine fills_bind (fills_createStaging _ ht) fun stage t ht => fills_spares ?_ ht
    refine Prog.uses_run_bind (uses_push _) fun _ => ?_
    refine Prog.uses_run_bind (Cache.uses_stage _ _ _) fun _ => ?_
    refine Prog.uses_run_bind (Session.uses_checkBinding session) fun _ => ?_
    refine Prog.uses_run_bind (Cache.uses_promote _ _ _ _) fun _ => ?_
    exact Prog.uses_run_lift ((Prog.uses_op _).mpr fun _ _ h => ⟨h.root, h.lock, h.stage⟩)
  have hready : ∀ t : CacheState, t.Filled → Fills (do
      if (← session.readiness recipe) ≠ .legacy then throw "cache_legacy_changed"
      let stage ← Session.createStaging session.root
      Session.push "identity"
      Cache.stage stage "identity" session.recipeIdentity.bytes
      session.checkBinding
      Cache.promote stage "identity" session.root session.recipeIdentity.path
      act (.update fun s => { s with legacy := false, cached := true })) t := by
    intro t ht
    refine fills_bind (fills_spares (Session.uses_readiness _ _) ht) fun found t ht => ?_
    dsimp only
    split
    · exact fills_bind ht fun _ t ht => hfill t ht
    · exact hfill t ht
  dsimp only
  split
  · exact fills_bind ht fun _ t ht => hready t ht
  · exact hready t ht

/-- What `install` and `adopt_legacy` leave is filled. -/
theorem filled_installed (h : s.Installed) : s.Filled := by
  rcases h with ⟨p, s₀, session, r, hp, hs₀, hacquired, hreach⟩
  have hfilled : s₀.Filled := by
    refine ⟨session, hs₀, hacquired.root, hacquired.lock, fun stage hstage => ?_⟩
    cases hacquired.staging.symm.trans hstage
  have hwp : p.wp Session.attempts.contended (fun _ _ _ => True) (fun _ t => t.Filled) s₀ := by
    cases hp with
    | install recipe => exact fills_install recipe hfilled
    | adoptLegacy recipe => exact fills_adoptLegacy recipe hfilled
  exact Prog.wp_reaches hwp hreach

/-! ## What is acquired -/

/-- The root is a directory. -/
def CacheState.Rooted (s : CacheState) : Prop :=
  s.volume.Dir s.anchor

theorem CacheState.Rooted.files (h : s.Rooted) (ht : s.Files t) : t.Rooted := by
  have hdir := Volume.Dir.later h ht.volume
  rwa [← ht.anchor] at hdir

/-- What it returns is a directory. -/
abbrev OpensDir (p : CacheProg Nat) (s : CacheState) : Prop :=
  p.run.wp Session.attempts.contended (fun _ _ _ => True)
    (fun r t => t.Rooted ∧ ∀ i, r = .ok i → t.volume.Dir i) s

theorem opens_openDir {dir : Nat} {name : OsString} (hs : s.Rooted) :
    (op (.openDir dir name)).wp Session.attempts.contended (fun _ _ _ => True)
      (fun r t => t.Rooted ∧ ∀ i, r = .ok i → t.volume.Dir i) s := by
  refine wp_files rfl CacheState.Rooted (fun _ _ => CacheState.Rooted.files) hs ?_
  intro t c r u _ hr hu
  refine ⟨hu, fun i hi => ?_⟩
  cases c with
  | pass =>
      have heq : (t.openDir dir name, t) = (r, u) := Option.some.inj hr
      cases (Prod.mk.inj heq).2
      exact (openDir_ok ((Prod.mk.inj heq).1.trans hi)).2
  | fail n =>
      cases hr
      cases hi
  | flag b => cases hr
  | name x => cases hr

theorem opens_tryIo {dir : Nat} {name : OsString} (hs : s.Rooted) :
    OpensDir (tryIo (.openDir dir name)) s := by
  refine (wp_tryAs _ _ _ _).mpr (Prog.wp_mono _ (fun r t ht => ⟨ht.1, fun i hi => ?_⟩) s
    (opens_openDir hs))
  cases r with
  | ok j => exact ht.2 i (congrArg _ (Except.ok.inj hi))
  | error x => cases hi

theorem opens_descend {dir : Nat} {name : OsString} {create : Bool} (hs : s.Rooted) :
    OpensDir (Cache.descend dir name create) s := by
  rw [Cache.descend, OpensDir, Prog.wp_run_bind, Prog.wp_act]
  refine Prog.wp_mono _ (fun r t ht => ?_) s (opens_openDir hs)
  cases r with
  | ok child =>
      refine ⟨ht.1, fun i hi => ht.2 i (congrArg _ (Except.ok.inj hi))⟩
  | error x =>
      cases x with
      | notFound =>
          cases create with
          | false => exact ⟨ht.1, nofun⟩
          | true =>
              refine (Prog.wp_run_bind _ _ _ _).mpr ((Prog.wp_act _ _ _).mpr ?_)
              refine wp_files rfl CacheState.Rooted (fun _ _ => CacheState.Rooted.files) ht.1 ?_
              intro _ _ r u _ _ hu
              cases r with
              | ok _ => exact opens_tryIo hu
              | error x =>
                  cases x with
                  | alreadyExists => exact opens_tryIo hu
                  | notFound | other => exact ⟨hu, nofun⟩
      | alreadyExists | other => exact ⟨ht.1, nofun⟩

theorem opens_descendAll {create : Bool} {names : List OsString} : ∀ {dir : Nat} {s : CacheState},
    s.Rooted → s.volume.Dir dir → OpensDir (Cache.descendAll create names dir) s := by
  induction names with
  | nil =>
      intro dir s hs hdir
      refine ⟨hs, ?_⟩
      rintro _ ⟨⟩
      exact hdir
  | cons name rest ih =>
      intro dir s hs _
      refine (Prog.wp_run_bind _ _ _ _).mpr (Prog.wp_mono _ (fun r t ht => ?_) s
        (opens_descend hs))
      cases r with
      | ok child => exact ih ht.1 (ht.2 child rfl)
      | error x => exact ⟨ht.1, nofun⟩

theorem opens_absolute {path : String} {create : Bool} (hs : s.Rooted) :
    OpensDir (Cache.absolute path create) s := by
  rw [Cache.absolute, OpensDir, Prog.wp_run_bind, Prog.wp_run_mk, Prog.wp_pure]
  cases Cache.absoluteNames (Path.components (.ofString path)) with
  | error x => exact ⟨hs, nofun⟩
  | ok names =>
      refine (Prog.wp_run_bind _ _ _ _).mpr ((wp_tryAs _ _ _ _).mpr ?_)
      refine wp_files rfl CacheState.Rooted (fun _ _ => CacheState.Rooted.files) hs ?_
      intro t c r u ht hr hu
      cases c with
      | pass =>
          cases hr
          exact opens_descendAll ht ht
      | fail n =>
          cases hr
          exact ⟨hu, nofun⟩
      | flag b => cases hr
      | name x => cases hr

/-- What `takeLock` does to the session. -/
theorem uses_takeLock {harmless : (Session → Session) → Prop} (lock fuel : Nat) :
    Uses (CacheOp.Spares harmless) (Session.takeLock lock fuel).run := by
  induction fuel with
  | zero => exact Prog.uses_run_bind (Cache.uses_act _ rfl) fun never => nomatch never
  | succ fuel ih =>
      refine Prog.uses_run_bind (Cache.uses_act _ rfl) fun stopped => ?_
      split
      · trivial
      refine Prog.uses_run_bind (Cache.uses_act _ rfl) fun expired => ?_
      split
      · trivial
      refine Prog.uses_run_bind (Cache.uses_act _ rfl) fun r => ?_
      cases r with
      | error x => trivial
      | ok held =>
          cases held with
          | true => trivial
          | false =>
              refine Prog.uses_run_bind (Cache.uses_act _ rfl) fun stopped => ?_
              split
              · trivial
              · exact ih

/-- A session that has only been taken. -/
structure Session.Taken (root : Nat) (s : Session) : Prop where
  root : s.root = root
  lock : s.lock.isSome
  staging : s.staging = none
  staged : s.staged = []

/-- The end of `acquire`, once there is a lock to take. -/
abbrev Session.take (s : Session) (recipe : CacheRecipe) (lock turns : Nat) : CacheProg Session := do
  Session.takeLock lock turns
  s.checkBinding
  match ← s.readiness recipe with
  | .cached => return { s with cached := true }
  | .legacy => return { s with legacy := true }
  | .rebuild => return s

theorem taken_take {root : Nat} {session : Session} (h : session.Taken root)
    (recipe : CacheRecipe) (lock turns : Nat) :
    Prog.Returns (fun r => ∀ x, r = .ok x → x.Taken root)
      (session.take recipe lock turns).run := by
  refine Prog.returns_run_bind _ (fun _ => nofun) fun _ => ?_
  refine Prog.returns_run_bind _ (fun _ => nofun) fun _ => ?_
  refine Prog.returns_run_bind _ (fun _ => nofun) fun readiness => ?_
  cases readiness with
  | cached | legacy =>
      rintro _ ⟨⟩
      exact ⟨h.root, h.lock, h.staging, h.staged⟩
  | rebuild =>
      rintro _ ⟨⟩
      exact h

theorem uses_take {harmless : (Session → Session) → Prop} (session : Session)
    (recipe : CacheRecipe) (lock turns : Nat) :
    Uses (CacheOp.Spares harmless) (session.take recipe lock turns).run := by
  refine Prog.uses_run_bind (uses_takeLock lock turns) fun _ => ?_
  refine Prog.uses_run_bind (Session.uses_checkBinding session) fun _ => ?_
  refine Prog.uses_run_bind (Session.uses_readiness session recipe) fun readiness => ?_
  cases readiness <;> trivial

/-- What `acquire` returns is acquired. -/
theorem acquired_acquire (digest : Digest) (path : String) (recipe : CacheRecipe) (turns : Nat)
    (hs : s.Rooted) :
    (Session.acquire digest path recipe turns).run.wp Session.attempts.contended
      (fun _ _ _ => True) (fun r t => ∀ session, r = .ok session → session.Acquired t.volume) s := by
  rw [Session.acquire, Prog.wp_run_bind, Prog.wp_run_mk, Prog.wp_pure]
  cases Cache.identity digest recipe with
  | error x => exact nofun
  | ok recipeIdentity =>
      refine (Prog.wp_run_bind _ _ _ _).mpr (Prog.wp_mono _ (fun r t ht => ?_) s
        (opens_absolute hs))
      cases r with
      | error x => exact nofun
      | ok root =>
          refine Prog.wp_mono _ (fun r t ht session heq => ?_) t (Prog.wp_and_returns
            (R := fun r => ∀ x, r = .ok x → x.Taken root) _ ?_ t
            (wp_spares (fun t => t.volume.Dir root) (fun _ _ h hf => h.later hf.volume)
              (fun _ _ (_ : True) h => h) ?_ (ht.2 root rfl)))
          · have htaken := ht.1 session heq
            exact ⟨htaken.root ▸ ht.2, htaken.lock, htaken.staging, htaken.staged⟩
          · refine Prog.returns_run_bind _ (fun _ => nofun) fun lock => ?_
            refine Prog.returns_run_bind _ (fun _ => nofun) fun metadata => ?_
            dsimp only
            split
            · exact nofun
            · have htaken : Session.Taken root
                  { root := root, path := path, lock := some lock
                    lockIdentity := metadata.inode, recipeIdentity := recipeIdentity
                    staging := none, staged := [], cached := false, legacy := false } :=
                ⟨rfl, rfl, rfl, rfl⟩
              exact taken_take htaken recipe lock turns
          · refine Prog.uses_run_bind (Cache.uses_tryAs _ _ rfl) fun lock => ?_
            refine Prog.uses_run_bind (Cache.uses_tryAs _ _ rfl) fun metadata => ?_
            dsimp only
            split
            · trivial
            · exact uses_take _ recipe lock turns

end Filled

end TinyRuntime
