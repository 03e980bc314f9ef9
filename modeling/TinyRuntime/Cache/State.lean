import TinyRuntime.Cache.Recipe
import TinyRuntime.Lib.Inodes
import TinyRuntime.Lib.Program
import TinyRuntime.Worker.State

/-!
# The Cache State

What a cache session does to the file system: calls on directories it holds open.

A directory handle and a file handle are inode numbers, and so is what the source
compares as device and inode. Every call may fail without a reason of its own, and a
write may fail halfway. Otherwise a call does what the names and the inodes say.

The fields of the session are part of the state, since a method that fails keeps what
it has changed of them.

## Main definitions

* `IoError`, `Metadata`: What a call reports.
* `CacheOp`: The effects of a session's code.
* `CacheState`, `CacheChoice`, `CacheOp.respond`: What they do.
-/

namespace TinyRuntime

/-- Why a call failed, as far as the source looks at it. -/
inductive IoError
  | notFound
  | alreadyExists
  | other
deriving DecidableEq

/-- What `metadata` and `symlink_metadata` say. -/
structure Metadata where
  inode : Nat
  kind : InodeKind
  nlink : Nat
  len : Nat

/-- The effects of a session's code. -/
inductive CacheOp : Type → Type
  /-- `Dir::open_ambient_dir("/", ..)`. -/
  | openRoot : CacheOp (Except IoError Nat)
  /-- `dir.open_dir_nofollow(name)`. -/
  | openDir (dir : Nat) (name : OsString) : CacheOp (Except IoError Nat)
  | createDir (dir : Nat) (name : OsString) : CacheOp (Except IoError Unit)
  | tryClone (dir : Nat) : CacheOp (Except IoError Nat)
  /-- `dir.dir_metadata()`: device and inode. -/
  | dirMetadata (dir : Nat) : CacheOp (Except IoError Nat)
  /-- `dir.open_with(name, ..)` for reading, without following links or blocking. -/
  | openRead (dir : Nat) (name : OsString) : CacheOp (Except IoError Nat)
  /-- The same for writing, creating the file if there is none. -/
  | openLock (dir : Nat) (name : OsString) : CacheOp (Except IoError Nat)
  /-- The same for a file that must not be there yet. -/
  | createNew (dir : Nat) (name : OsString) : CacheOp (Except IoError Nat)
  /-- `file.metadata()`. -/
  | metadata (file : Nat) : CacheOp (Except IoError Metadata)
  | symlinkMetadata (dir : Nat) (name : OsString) : CacheOp (Except IoError Metadata)
  /-- `file.take(limit).read_to_end(..)`. -/
  | readToEnd (file limit : Nat) : CacheOp (Except IoError (List UInt8))
  | writeAll (file : Nat) (bytes : List UInt8) : CacheOp (Except IoError Unit)
  | syncAll (file : Nat) : CacheOp (Except IoError Unit)
  | rename (dir : Nat) (name : OsString) (parent : Nat) (target : OsString) :
      CacheOp (Except IoError Unit)
  /-- `remove_file` and `remove_file_or_symlink`. -/
  | removeFile (dir : Nat) (name : OsString) : CacheOp (Except IoError Unit)
  | removeOpenDir (dir : Nat) : CacheOp (Except IoError Unit)
  /-- `lock.try_lock_exclusive()`: false if another process holds it. -/
  | tryLock (file : Nat) : CacheOp (Except IoError Bool)
  /-- `uuid::Uuid::new_v4()`. -/
  | newName : CacheOp String
  /-- `*stop.borrow()`. -/
  | stopped : CacheOp Bool
  /-- `Instant::now() >= deadline`. -/
  | expired : CacheOp Bool
  /-- The sleep before the lock is tried again: true if it is stopped. -/
  | sleep : CacheOp Bool
  /-- What never comes. -/
  | pending : CacheOp Empty
  /-- The fields of the session. -/
  | session : CacheOp Session
  | update (f : Session → Session) : CacheOp Unit

/-- The file system and the session. -/
structure CacheState where
  volume : Volume OsString
  /-- The root directory. -/
  anchor : Nat
  session : Option Session

/-- What is not for the code to decide. -/
inductive CacheChoice
  /-- The call does what it can. -/
  | pass
  /-- It fails, a write after some bytes. -/
  | fail (written : Nat)
  | flag (b : Bool)
  | name (x : String)

namespace CacheState

variable (s : CacheState)

/-- Something under a name, unless a link has to be followed. -/
def lookup (dir : Nat) (name : OsString) : Except IoError Nat :=
  match s.volume.name dir name with
  | none => .error .notFound
  | some i => if s.volume.kind i = .link then .error .other else .ok i

def openDir (dir : Nat) (name : OsString) : Except IoError Nat := do
  let i ← s.lookup dir name
  if s.volume.kind i = .dir then pure i else throw .other

def metadata (i : Nat) : Metadata :=
  { inode := i
    kind := s.volume.kind i
    nlink := s.volume.links i
    len := (s.volume.bytes i).length }

/-- A new inode under a name. -/
def make (k : InodeKind) (dir : Nat) (name : OsString) : Except IoError Nat × CacheState :=
  if s.volume.Makes dir name then
    (.ok s.volume.fresh, { s with volume := s.volume.make k dir name })
  else if s.volume.name dir name = none then (.error .notFound, s)
  else (.error .alreadyExists, s)

def openLock (dir : Nat) (name : OsString) : Except IoError Nat × CacheState :=
  match s.lookup dir name with
  | .error .notFound => s.make .file dir name
  | .error reason => (.error reason, s)
  | .ok i => if s.volume.kind i = .dir then (.error .other, s) else (.ok i, s)

def rename (dir : Nat) (name : OsString) (parent : Nat) (target : OsString) :
    Except IoError Unit × CacheState :=
  if s.volume.Renames dir name parent target then
    (.ok (), { s with volume := s.volume.rename dir name parent target })
  else if s.volume.name dir name = none then (.error .notFound, s)
  else (.error .other, s)

def removeFile (dir : Nat) (name : OsString) : Except IoError Unit × CacheState :=
  match s.volume.name dir name with
  | none => (.error .notFound, s)
  | some i =>
      if s.volume.kind i = .dir then (.error .other, s)
      else (.ok (), { s with volume := s.volume.unlink dir name })

/-- An open directory is removed wherever it is, if it is empty. -/
def removeOpenDir (dir : Nat) : Except IoError Unit × CacheState :=
  match s.volume.named dir with
  | none => (.error .notFound, s)
  | some (parent, name) =>
      if s.volume.kind dir = .dir ∧ (s.volume.names dir).entries = [] then
        (.ok (), { s with volume := s.volume.unlink parent name })
      else (.error .other, s)

end CacheState

/-- A call that does what it can, or fails. -/
def CacheChoice.call {α : Type} (c : CacheChoice) (s : CacheState)
    (r : Except IoError α × CacheState) : Option (Except IoError α × CacheState) :=
  match c with
  | .pass => some r
  | .fail _ => some (.error .other, s)
  | _ => none

/-- A question the outside answers. -/
def CacheChoice.ask (c : CacheChoice) (s : CacheState) : Option (Bool × CacheState) :=
  match c with
  | .flag b => some (b, s)
  | _ => none

/-- The answer of an effect under a choice, and what it changes. -/
def CacheOp.respond {β : Type} (op : CacheOp β) (s : CacheState) (c : CacheChoice) :
    Option (β × CacheState) :=
  match op with
  | .openRoot => c.call s (.ok s.anchor, s)
  | .openDir dir name => c.call s (s.openDir dir name, s)
  | .createDir dir name =>
      let r := s.make .dir dir name
      c.call s (r.1.map fun _ => (), r.2)
  | .tryClone dir => c.call s (.ok dir, s)
  | .dirMetadata dir => c.call s (.ok dir, s)
  | .openRead dir name => c.call s (s.lookup dir name, s)
  | .openLock dir name => c.call s (s.openLock dir name)
  | .createNew dir name => c.call s (s.make .file dir name)
  | .metadata file => c.call s (.ok (s.metadata file), s)
  | .symlinkMetadata dir name =>
      match s.volume.name dir name with
      | none => c.call s (.error .notFound, s)
      | some i => c.call s (.ok (s.metadata i), s)
  | .readToEnd file limit =>
      if s.volume.kind file = .dir then c.call s (.error .other, s)
      else c.call s (.ok ((s.volume.bytes file).take limit), s)
  | .writeAll file bytes =>
      match c with
      | .pass => some (.ok (), { s with volume := s.volume.write file bytes })
      | .fail written =>
          some (.error .other, { s with volume := s.volume.write file (bytes.take written) })
      | _ => none
  | .syncAll _ => c.call s (.ok (), s)
  | .rename dir name parent target => c.call s (s.rename dir name parent target)
  | .removeFile dir name => c.call s (s.removeFile dir name)
  | .removeOpenDir dir => c.call s (s.removeOpenDir dir)
  | .tryLock _ =>
      match c with
      | .flag b => some (.ok b, s)
      | .fail _ => some (.error .other, s)
      | _ => none
  | .newName =>
      match c with
      | .name x => some (x, s)
      | _ => none
  | .stopped | .expired | .sleep => c.ask s
  | .pending => none
  | .session => s.session.map fun session => (session, s)
  | .update f => some ((), { s with session := s.session.map f })

/-- Calls on a cache. -/
def caching : Handler CacheOp CacheState CacheChoice where
  respond op s c := op.respond s c

end TinyRuntime
