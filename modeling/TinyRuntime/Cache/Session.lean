import TinyRuntime.Cache.Filesystem

/-!
# Cache Sessions

The methods of the source's `Session` and `Staging`.

`acquire` gives back a session and leaves nothing behind when it fails, since the lock
is released with the file that is dropped. The other methods change the fields of a
session that is there, and what they have changed stays when they fail.

The serializer and the hash are third-party code and enter as functions.

## Main definitions

* `Digest`, `Cache.identity`: The identity of a recipe.
* `Session.acquire`, `Session.checkBinding`, `Session.readiness`: Taking a cache.
* `Session.install`, `Session.adoptLegacy`, `Session.publish`: Filling it.
* `Staging.cleanup`, `Session.cleanup`: Giving it back.
-/

namespace TinyRuntime

open Prog (act attempt)
open Cache (CacheProg tryAs tryIo)

/-- Third-party code that makes identities. -/
structure Digest where
  /-- `serde_json::to_writer`. -/
  encode : CacheRecipe → Except Unit (List UInt8)
  /-- `hex::encode(Sha256::digest(..))`. -/
  hash : List UInt8 → String

/-- `identity::artifact`. -/
def Cache.identity (digest : Digest) (recipe : CacheRecipe) : Except String CacheArtifact :=
  match digest.encode recipe with
  | .error _ => .error "cache_identity_failed"
  | .ok bytes => .ok
      { path := ".tinyruntime-recipe-" ++ digest.hash recipe.marker.path.toUTF8.toList
        bytes := (digest.hash bytes).toUTF8.toList }

def LOCK_NAME : OsString :=
  .ofString ".tinyruntime-cache.lock"

/-- What a cache is worth to a recipe. -/
inductive Readiness
  | cached
  | legacy
  | rebuild
deriving DecidableEq

namespace Session

/-! ## Taking a cache -/

/-- The scope and the lock are still those that were opened. -/
def checkBinding (s : Session) : CacheProg Unit := do
  let current ← Cache.absolute s.path false
  if ¬ (← Cache.sameDirectory s.root current) then throw "cache_scope_changed"
  let lock ← tryAs "cache_lock_changed" (.openRead s.root LOCK_NAME)
  let metadata ← tryAs "cache_lock_changed" (.metadata lock)
  if metadata.nlink ≠ 1 ∨ metadata.inode ≠ s.lockIdentity then throw "cache_lock_changed"

/-- Whether all of a list hold, up to the first that does not. -/
def every {α : Type} (check : α → CacheProg Bool) : List α → CacheProg Bool
  | [] => pure true
  | a :: rest => do
      if ← check a then every check rest else pure false

def readiness (s : Session) (recipe : CacheRecipe) : CacheProg Readiness := do
  if ¬ (← Cache.matchesFile s.root recipe.marker) then return .rebuild
  if ¬ (← every (Cache.required s.root) recipe.required) then return .rebuild
  if ¬ (← every (Cache.matchesFile s.root) recipe.artifacts) then return .rebuild
  if ← Cache.regularFileExists s.root s.recipeIdentity.path then
    if ← Cache.matchesFile s.root s.recipeIdentity then return .cached else return .rebuild
  match recipe.adoption with
  | .strict => return .rebuild
  | .adoptVerifiedLegacy => return .legacy

/-- The loop that takes the lock, with as many turns as there can be. -/
def takeLock (lock : Nat) : Nat → CacheProg Unit
  | 0 => do
      let never ← act .pending
      nomatch never
  | fuel + 1 => do
      if ← act .stopped then throw "canceled"
      else if ← act .expired then throw "cache_timeout"
      else
        match ← act (.tryLock lock) with
        | .error _ => throw "cache_lock_failed"
        | .ok true => pure ()
        | .ok false => if ← act .sleep then throw "canceled" else takeLock lock fuel

def acquire (digest : Digest) (path : String) (recipe : CacheRecipe) (turns : Nat) :
    CacheProg Session := do
  let recipeIdentity ← ExceptT.mk (pure (Cache.identity digest recipe))
  let root ← Cache.absolute path true
  let lock ← tryAs "cache_lock_failed" (.openLock root LOCK_NAME)
  let metadata ← tryAs "cache_lock_failed" (.metadata lock)
  if ¬ Cache.Metadata.plain metadata then throw "cache_lock_unsafe"
  takeLock lock turns
  let session : Session :=
    { root := root, path := path, lock := some lock, lockIdentity := metadata.inode
      recipeIdentity := recipeIdentity, staging := none, staged := [], cached := false
      legacy := false }
  session.checkBinding
  match ← session.readiness recipe with
  | .cached => return { session with cached := true }
  | .legacy => return { session with legacy := true }
  | .rebuild => return session

end Session

/-! ## Staging -/

namespace Staging

def «open» (root : Nat) (name : String) : CacheProg Staging := do
  let directory ← tryAs "cache_stage_failed" (.openDir root (.ofString name))
  let identity ← tryAs "cache_stage_failed" (.dirMetadata directory)
  return { directory := some directory, name := name, identity := identity }

/-- The field of a session that is there. -/
def set (stage : Staging) : CacheProg Unit :=
  act (.update fun s => { s with staging := some stage })

/-- `directory()`. -/
def handle (stage : Option Staging) : CacheProg Nat :=
  match stage.bind Staging.directory with
  | some directory => pure directory
  | none => throw "cache_stage_failed"

/-- The loop over the staged names. -/
def removeStaged (directory : Nat) : List String → CacheProg Unit
  | [] => pure ()
  | name :: rest => do
      match ← act (.removeFile directory (.ofString name)) with
      | .ok () | .error .notFound => removeStaged directory rest
      | .error _ => throw "cache_stage_cleanup_failed"

/-- The directory to clean up: the one that is held, or the one that is found under
    its name again. -/
def reopen (stage : Staging) (root : Nat) : CacheProg Nat :=
  match stage.directory with
  | some directory => pure directory
  | none => do
      let directory ← tryAs "cache_stage_cleanup_failed" (.openDir root (.ofString stage.name))
      let identity ← tryAs "cache_stage_cleanup_failed" (.dirMetadata directory)
      if identity ≠ stage.identity then throw "cache_stage_cleanup_failed"
      set { stage with directory := some directory }
      pure directory

def cleanup (stage : Staging) (root : Nat) (staged : List String) : CacheProg Unit := do
  let directory ← reopen stage root
  removeStaged directory staged
  -- The handle goes with the attempt, whatever becomes of it.
  set { stage with directory := none }
  tryAs "cache_stage_cleanup_failed" (.removeOpenDir directory)

end Staging

/-! ## Filling a cache, and giving it back -/

namespace Session

/-- `self.staged.push(name)`. -/
def push (name : String) : CacheProg Unit :=
  act (.update fun s => { s with staged := s.staged ++ [name] })

/-- A staging directory under a new name. -/
def createStaging (root : Nat) : CacheProg Nat := do
  let name := ".tinyruntime-stage-" ++ (← act .newName)
  tryAs "cache_stage_failed" (.createDir root (.ofString name))
  let stage ← Staging.open root name
  stage.set
  Staging.handle (some stage)

/-- The loop over the artifacts. -/
def installArtifacts (s : Session) (stage : Nat) : List CacheArtifact → Nat → CacheProg Unit
  | [], _ => pure ()
  | artifact :: rest, index => do
      let name := "artifact-" ++ toString index
      push name
      Cache.stage stage name artifact.bytes
      s.checkBinding
      Cache.promote stage name s.root artifact.path
      installArtifacts s stage rest (index + 1)

def install (recipe : CacheRecipe) : CacheProg Unit := do
  let s ← act .session
  s.checkBinding
  Cache.invalidate s.root recipe.marker.path
  let stage ← createStaging s.root
  installArtifacts s stage recipe.artifacts 0
  push "identity"
  Cache.stage stage "identity" s.recipeIdentity.bytes
  push "marker"
  Cache.stage stage "marker" recipe.marker.bytes

def adoptLegacy (recipe : CacheRecipe) : CacheProg Unit := do
  let s ← act .session
  s.checkBinding
  if ¬ s.legacy then throw "cache_legacy_changed"
  if (← s.readiness recipe) ≠ .legacy then throw "cache_legacy_changed"
  let stage ← createStaging s.root
  push "identity"
  Cache.stage stage "identity" s.recipeIdentity.bytes
  s.checkBinding
  Cache.promote stage "identity" s.root s.recipeIdentity.path
  act (.update fun s => { s with legacy := false, cached := true })

/-- The entries that have to be there before a cache is published. -/
def checkRequired (root : Nat) : List CacheEntry → CacheProg Unit
  | [] => pure ()
  | entry :: rest => do
      if ¬ (← Cache.required root entry) then throw "cache_required_missing"
      checkRequired root rest

def checkArtifacts (root : Nat) : List CacheArtifact → CacheProg Unit
  | [] => pure ()
  | artifact :: rest => do
      if ¬ (← Cache.matchesFile root artifact) then throw "cache_artifact_changed"
      checkArtifacts root rest

def publish (recipe : CacheRecipe) : CacheProg Unit := do
  let s ← act .session
  s.checkBinding
  checkRequired s.root recipe.required
  checkArtifacts s.root recipe.artifacts
  let stage ← Staging.handle s.staging
  Cache.promote stage "identity" s.root s.recipeIdentity.path
  Cache.promote stage "marker" s.root recipe.marker.path

def cleanup : CacheProg Unit := do
  let s ← act .session
  match s.staging with
  | some stage => stage.cleanup s.root s.staged
  | none => pure ()
  act (.update fun s => { s with staging := none, staged := [], lock := none })

end Session

end TinyRuntime
