import TinyRuntime.Cache.State

/-!
# Cache Files

The functions on directory handles that cache writes go through: descending without
following a link, reading a file if it is plain, staging a new one, and moving it to
its place.

A path whose parent cannot be opened is treated as a path where nothing is. A failure
to open it is not told from a missing directory.

## Main definitions

* `Cache.absolute`, `Cache.descend`, `Cache.parent`: Directories.
* `Cache.matchesFile`, `Cache.regularFileExists`, `Cache.required`: What is there.
* `Cache.stage`, `Cache.promote`, `Cache.invalidate`: What is changed.
-/

namespace TinyRuntime

open Prog (act attempt)

namespace Cache

/-- A session's code, up to its first error. -/
abbrev CacheProg := ExceptT String (Prog CacheOp)

/-- `map_err(|_| reason)?`. -/
def tryAs {α : Type} (reason : String) (e : CacheOp (Except IoError α)) : CacheProg α := do
  match ← act e with
  | .ok a => pure a
  | .error _ => throw reason

/-- `map_err(failed)?`. -/
def tryIo {α : Type} (e : CacheOp (Except IoError α)) : CacheProg α :=
  tryAs "cache_io_failed" e

/-- What a fallible step came to. -/
def result {α : Type} (p : CacheProg α) : CacheProg (Except String α) :=
  ExceptT.lift p.run

/-! ## Directories -/

def descend (dir : Nat) (name : OsString) (create : Bool) : CacheProg Nat := do
  match ← act (.openDir dir name) with
  | .ok child => pure child
  | .error .notFound =>
      if create then do
        match ← act (.createDir dir name) with
        | .ok () | .error .alreadyExists => tryIo (.openDir dir name)
        | .error _ => throw "cache_io_failed"
      else throw "cache_io_failed"
  | .error _ => throw "cache_io_failed"

/-- The names of an absolute path. -/
def absoluteNames : List Component → Except String (List OsString)
  | [] => .ok []
  | .rootDir :: rest => absoluteNames rest
  | .normal name :: rest => (absoluteNames rest).map (name :: ·)
  | _ :: _ => .error "cache_scope_invalid"

def descendAll (create : Bool) : List OsString → Nat → CacheProg Nat
  | [], dir => pure dir
  | name :: rest, dir => do
      let child ← descend dir name create
      descendAll create rest child

/-- Open each absolute component without following links, creating only when allowed. -/
def absolute (path : String) (create : Bool) : CacheProg Nat := do
  let names ← ExceptT.mk (pure (absoluteNames (Path.components (.ofString path))))
  let dir ← tryIo .openRoot
  descendAll create names dir

/-- The loop of `parent`. -/
def parentFrom (create : Bool) : List OsString → Nat → CacheProg (Nat × OsString)
  | [], _ => throw "cache_path_invalid"
  | [name], dir => pure (dir, name)
  | part :: rest, dir => do
      let child ← descend dir part create
      parentFrom create rest child

/-- The parts of a relative path. -/
def parts (path : String) : List OsString :=
  (OsString.ofString path).splitOn SLASH

def parent (dir : Nat) (path : String) (create : Bool) : CacheProg (Nat × OsString) := do
  ExceptT.mk (pure (safeRelative path))
  let dir ← tryIo (.tryClone dir)
  parentFrom create (parts path) dir

def sameDirectory (first second : Nat) : CacheProg Bool := do
  let first ← tryIo (.dirMetadata first)
  let second ← tryIo (.dirMetadata second)
  pure (first = second)

/-! ## What is there -/

/-- A file with one name. -/
def Metadata.plain (m : Metadata) : Bool :=
  m.kind = .file ∧ m.nlink = 1

/-- `matches`: whether an artifact is in its place. -/
def matchesFile (dir : Nat) (artifact : CacheArtifact) : CacheProg Bool := do
  match ← result (parent dir artifact.path false) with
  | .error _ => pure false
  | .ok (parent, name) =>
      match ← act (.openRead parent name) with
      | .error .notFound => pure false
      | .error _ => throw "cache_io_failed"
      | .ok file => do
          let metadata ← tryIo (.metadata file)
          if ¬ Metadata.plain metadata then throw "cache_entry_unsafe"
          else if MAX_FILE < metadata.len ∨ metadata.len ≠ artifact.bytes.length then pure false
          else do
            let bytes ← tryIo (.readToEnd file (MAX_FILE + 1))
            pure (bytes = artifact.bytes)

def regularFileExists (dir : Nat) (path : String) : CacheProg Bool := do
  match ← result (parent dir path false) with
  | .error _ => pure false
  | .ok (parent, name) =>
      match ← act (.symlinkMetadata parent name) with
      | .ok metadata => if Metadata.plain metadata then pure true else throw "cache_entry_unsafe"
      | .error .notFound => pure false
      | .error _ => throw "cache_io_failed"

/-- Whether an entry is of the required kind. -/
def ofKind (kind : CacheEntryKind) (metadata : Metadata) : Bool :=
  match kind with
  | .file => Metadata.plain metadata
  | .directory => metadata.kind = .dir
  | .entry => metadata.kind = .file ∨ metadata.kind = .dir ∨ metadata.kind = .link

def required (dir : Nat) (entry : CacheEntry) : CacheProg Bool := do
  match ← result (parent dir entry.path false) with
  | .error _ => pure false
  | .ok (parent, name) =>
      match ← act (.symlinkMetadata parent name) with
      | .ok metadata => pure (ofKind entry.kind metadata)
      | .error .notFound => pure false
      | .error _ => throw "cache_io_failed"

/-! ## What is changed -/

def stage (dir : Nat) (name : String) (bytes : List UInt8) : CacheProg Unit := do
  let file ← tryIo (.createNew dir (.ofString name))
  tryIo (.writeAll file bytes)
  tryIo (.syncAll file)

def promote (stage : Nat) (name : String) (root : Nat) (destination : String) :
    CacheProg Unit := do
  let (parent, target) ← parent root destination true
  match ← act (.symlinkMetadata parent target) with
  | .ok metadata => if ¬ Metadata.plain metadata then throw "cache_entry_unsafe"
  -- Whatever keeps the metadata from being read counts as nothing being there.
  | .error _ => pure ()
  tryIo (.rename stage (.ofString name) parent target)

def invalidate (root : Nat) (path : String) : CacheProg Unit := do
  match ← result (parent root path false) with
  | .error _ => pure ()
  | .ok (parent, name) =>
      match ← act (.symlinkMetadata parent name) with
      | .ok metadata =>
          if Metadata.plain metadata then tryIo (.removeFile parent name)
          else throw "cache_entry_unsafe"
      | .error .notFound => pure ()
      | .error _ => throw "cache_io_failed"

end Cache

end TinyRuntime
