import TinyRuntime.Resolve.Reuse

/-!
# Installing a Toolchain

The install of a managed toolchain: ask the provider what to install, take the lock
of the install directory, check whether it is there already, download, verify,
unpack, promote, clean up.

Everything that blocks is a closure on a thread of the blocking pool, the file
system calls of `tokio::fs` as well as unpacking, promoting and waiting for the
lock. A closure begins when a thread is free, and goes on to its end when the call
that waits for it is dropped. The lock is in the call, not in the closure.

Between any two effects other calls move, of this process or of another one. What
the archive libraries make of an archive and what the hash of bytes is are
parameters (`Site`), and so are the paths of the host. How a provider looks at a
directory is for the outside to choose, at each question anew.

The fields of `Installation` after the first line are for the statements. No code
reads them.

## Main definitions

* `PathBuf.join`, `cacheRootUnder`: Where toolchains are installed.
* `Site`, `InstallRequest`: The host, and one call.
* `BlockingJob`: What is done on a thread.
* `Installing`, `Installation`: What the calls share, and the locals of one.
* `RunOp`, `InstallOp`, `InstallOp.respond`: The effects.
* `Install.run`: The code.
* `installs`: Any number of calls.
-/

namespace TinyRuntime

open Prog (act attempt)

/-! ## Paths -/

/-- `Path::components` of a text, below the root. -/
def PathBuf.components (text : String) : PathBuf :=
  ((text.toList.splitOn '/').map String.ofList).filter fun c => c ≠ "" ∧ c ≠ "."

/-- `Path::join`. -/
def PathBuf.join (path : PathBuf) (text : String) : PathBuf :=
  if text.toList.head? = some '/' then components text else path ++ components text

/-- `RuntimeSettings::cache_dir`. -/
def RuntimeSettings.cacheDirectory (settings : RuntimeSettings) : Option String :=
  let text := trim settings.cacheDir
  if text = "" then none else some text

/-- The directory managed toolchains are installed under. Relative paths start at
    the working directory. -/
def cacheRootUnder (workingDir : PathBuf) (platformCache : Option PathBuf)
    (configured : Option String) (language : Language) : PathBuf :=
  match configured with
  | some configured => workingDir.join configured
  | none =>
      match platformCache with
      | some platformCache => (platformCache.join "tinyruntime").join language.id
      | none => (workingDir.join ".tinyruntime").join language.id

/-- `InstallLock::acquire`: the file next to an install directory. -/
def lockPathOf (installDir : PathBuf) : PathBuf :=
  installDir.withExtension "lock"

/-! ## Calls -/

/-- One entry of an archive. Its name is missing if it would lead out. -/
structure ArchiveEntry where
  enclosedName : Option (List String)
  contents : DiskEntry String

/-- The host, and what the code takes from libraries. -/
structure Site where
  lookup : Lookup
  workingDir : PathBuf
  /-- `dirs::cache_dir()`. -/
  platformCache : Option PathBuf
  /-- The threads of the blocking pool. -/
  threads : Nat
  /-- `hex::encode` of `Sha256`. -/
  sha256 : List UInt8 → String
  /-- What the archive libraries read. -/
  unpack : ArchiveFormat → List UInt8 → Except String (List ArchiveEntry)

/-- One call: the arguments, the process that makes it, and what the provider
    selects. `rounds` bounds its loops. -/
structure InstallRequest where
  language : Language
  settings : RuntimeSettings
  process : Nat
  distribution : Distribution
  rounds : Nat

namespace Site

variable (S : Site) (r : InstallRequest)

/-- `store::cache_root`. -/
def cacheRoot : PathBuf :=
  cacheRootUnder S.workingDir S.platformCache r.settings.cacheDirectory r.language

def installDir : PathBuf :=
  (S.cacheRoot r).join r.distribution.installDirName

def archivePath : PathBuf :=
  (S.cacheRoot r).join r.distribution.archiveName

/-- Where an existing install is moved. -/
def aside : PathBuf :=
  asideOf (S.installDir r) r.process

/-- The lock of the install directory. -/
def lockAt : List String :=
  S.lookup.locate (lockPathOf (S.installDir r))

end Site

/-- What a closure on a thread of the blocking pool does. -/
inductive BlockingJob
  | createDirs
  | takeLock
  | createArchive
  | write
  | removeFile
  | removeDir
  | extract
  | promote
deriving DecidableEq

/-- How far a call is. -/
inductive Phase
  /-- Without the lock. -/
  | early
  /-- With the lock, before the provider is asked. -/
  | holding
  /-- The provider declined what is there. -/
  | declined
  /-- And that was moved aside. -/
  | moved
  /-- The new tree is in place. -/
  | landed
  /-- The provider has answered. -/
  | concluded
deriving DecidableEq

/-- What the calls share. -/
structure Installing where
  disk : Disk String
  /-- The lock files that are locked. -/
  locked : List (List String)
  /-- The threads that are at work. -/
  busy : Nat
  /-- The staging directories that were named. -/
  stages : List (List String)
  /-- The downloads that were requested. -/
  downloads : Nat

/-- The locals of one call: its closure on a thread, its lock, and the archive it
    writes or reads, by inode and offset. -/
structure Installation where
  request : InstallRequest
  working : Option BlockingJob
  lock : Option (List String)
  file : Option (Nat × Nat)
  reading : Option (Nat × Nat)
  stage : Option PathBuf
  /-- The closure that is left of a dropped call. -/
  task : Option BlockingJob
  phase : Phase
  /-- What the install directory held when the lock was taken. -/
  found : Option Tree
  /-- The last answer of the provider. -/
  answer : Option (Except Error (Option RuntimeLayout))
  /-- Whether the archive was made. -/
  archived : Bool
  /-- What was written to it, and what was read of it. -/
  written : List UInt8
  read : List UInt8
  /-- All of it, when it was read to its end. -/
  unpacked : Option (List UInt8)
  result : Option (Except Error ResolvedRuntime)
  ended : Bool

def Installation.new (request : InstallRequest) : Installation :=
  { request := request, working := none, lock := none, file := none, reading := none
    stage := none, task := none, phase := .early, found := none, answer := none
    archived := false, written := [], read := [], unpacked := none, result := none
    ended := false }

/-! ## Effects -/

/-- Why a request failed. -/
inductive TransferError
  | timeout
  | connect
  | status (text : String)
  | body
  | other

/-- Describe a request failure by its kind. -/
def sanitise : TransferError → String
  | .timeout => "the request timed out"
  | .connect => "the connection could not be established"
  | .status text => "the channel answered with status " ++ text
  | .body => "the transfer ended early"
  | .other => "the request failed"

/-- The effects of an install other than the store's. -/
inductive RunOp : Type → Type
  /-- `provider.select_distribution`. -/
  | selectDistribution : RunOp (Except Error Distribution)
  /-- A closure begins on a free thread. -/
  | begin (job : BlockingJob) : RunOp Unit
  /-- It has returned, or panicked. -/
  | finish : RunOp (Option String)
  /-- `OpenOptions::open` of the lock file. -/
  | openLock (path : PathBuf) : RunOp (Except String Unit)
  /-- `lock_exclusive`. -/
  | lockExclusive (path : PathBuf) : RunOp (Except String Unit)
  /-- `request.send` and `error_for_status`. -/
  | send (url : String) (headers : List (String × String)) : RunOp (Except TransferError Unit)
  /-- `response.chunk`. -/
  | chunk : RunOp (Except TransferError (Option (List UInt8)))
  /-- `File::create`. -/
  | createFile (path : PathBuf) : RunOp (Except String Unit)
  /-- One `write`, with how many bytes were accepted. -/
  | write (buffer : List UInt8) : RunOp (Except String Nat)
  | flush : RunOp (Except String Unit)
  /-- The file is dropped. -/
  | close : RunOp Unit
  /-- `fs::remove_file`. -/
  | removeFile (path : PathBuf) : RunOp (Except String Unit)
  /-- `store::staging_dir`. -/
  | stagingDir (root : PathBuf) : RunOp PathBuf
  /-- `File::open`. -/
  | openArchive (path : PathBuf) : RunOp (Except String Unit)
  /-- One `read`; nothing at the end. -/
  | readArchive : RunOp (Except String (Option (List UInt8)))
  /-- One entry unpacked. -/
  | unpackEntry (staging : PathBuf) (name : List String) (contents : DiskEntry String) :
      RunOp (Except String Unit)

/-- The effects of an install. -/
abbrev InstallOp (β : Type) : Type :=
  RunOp β ⊕ StoreOp β

/-- The effects at which a call waits. -/
def RunOp.suspends : ∀ β, RunOp β → Bool
  | _, .close => false
  | _, .stagingDir _ => false
  | _, _ => true

def InstallOp.suspends : ∀ β, InstallOp β → Bool
  | β, .inl op => RunOp.suspends β op
  | _, .inr _ => true

/-- What the outside decides. -/
inductive InstallChoice
  | pass
  | failed (reason : String)
  | error (e : Error)
  | transfer (e : TransferError)
  | chunk (bytes : List UInt8)
  | accepted (n : Nat)
  /-- `uuid::Uuid::new_v4()`. -/
  | fresh (id : String)
  /-- How the provider looks at directories, and what the file system does. -/
  | store (provider : Inspect) (c : StoreChoice)

/-- A file can be opened for writing: it is there, or its directory is. -/
def Opens (d : Disk String) (p : List String) : Prop :=
  d.isFile p = true ∨ d.node p = none ∧ d.node p.dropLast = some .dir

instance (d : Disk String) (p : List String) : Decidable (Opens d p) :=
  inferInstanceAs (Decidable (_ ∨ _))

/-- An entry can be made: its directories can, and no directory is in its place. -/
def Places (d : Disk String) (p : List String) (e : DiskEntry String) : Prop :=
  if e = .dir then Makes d p else Makes d p.dropLast ∧ d.node p ≠ some .dir

instance (d : Disk String) (p : List String) (e : DiskEntry String) : Decidable (Places d p e) :=
  inferInstanceAs (Decidable (ite _ _ _))

/-- A name nobody used: it is not on the disk, and no path of the call leads to it. -/
def Unused (S : Site) (r : InstallRequest) (s : Installing) (p : List String) : Prop :=
  p ∉ s.stages ∧ (∀ x ∈ s.disk.paths, p <+: x → s.disk.node x = none) ∧
    ¬ p <+: S.lookup.locate (S.installDir r) ∧ ¬ p <+: S.lookup.locate (S.aside r) ∧
    ¬ p <+: S.lookup.locate (S.archivePath r)

instance (S : Site) (r : InstallRequest) (s : Installing) (p : List String) :
    Decidable (Unused S r s p) :=
  inferInstanceAs (Decidable (_ ∧ (∀ x ∈ s.disk.paths, p <+: x → s.disk.node x = none) ∧ _))

/-- The name of a staging directory. -/
def stagingName (process : Nat) (id : String) : String :=
  STAGING_PREFIX ++ toString process ++ "-" ++ id

/-- The answer of an effect of the install under a choice, and what it changes. -/
def RunOp.respond {β : Type} (S : Site) (op : RunOp β) (s : Installing) (l : Installation)
    (c : InstallChoice) : Option (β × Installing × Installation) :=
  match op with
  | .selectDistribution =>
      match c with
      | .pass => some (.ok l.request.distribution, s, l)
      | .error e => some (.error e, s, l)
      | _ => none
  | .begin job =>
      if s.busy < S.threads then
        some ((), { s with busy := s.busy + 1 }, { l with working := some job })
      else none
  | .finish =>
      match c, l.working with
      | .pass, some _ =>
          some (none, { s with busy := s.busy - 1 }, { l with working := none, reading := none })
      -- Only the archive libraries may panic.
      | .failed reason, some .extract =>
          some (some reason, { s with busy := s.busy - 1 },
            { l with working := none, reading := none })
      | _, _ => none
  | .openLock path =>
      let p := S.lookup.locate path
      match c with
      | .pass =>
          if s.disk.node p ≠ some .dir then
            if s.disk.node p ≠ none ∨ s.disk.node p.dropLast = some .dir then
              some (.ok (), { s with disk := s.disk.touch p }, l)
            else none
          else none
      | .failed reason => some (.error reason, s, l)
      | _ => none
  | .lockExclusive path =>
      let p := S.lookup.locate path
      match c with
      | .pass =>
          if p ∉ s.locked then
            some (.ok (), { s with locked := p :: s.locked },
              { l with
                lock := some p
                phase := .holding
                found := some (s.disk.tree (S.lookup.locate (S.installDir l.request))) })
          else none
      | .failed reason => some (.error reason, s, l)
      | _ => none
  | .send _ _ =>
      let s' := { s with downloads := s.downloads + 1 }
      match c with
      | .pass => some (.ok (), s', l)
      | .transfer e => some (.error e, s', l)
      | _ => none
  | .chunk =>
      match c with
      | .pass => some (.ok none, s, l)
      | .chunk bytes => some (.ok (some bytes), s, l)
      | .transfer e => some (.error e, s, l)
      | _ => none
  | .createFile path =>
      let p := s.disk.follow (S.lookup.locate path)
      match c with
      | .pass =>
          if Opens s.disk p then
            let r := s.disk.create p
            some (.ok (), { s with disk := r.2 },
              { l with file := some (r.1, 0), archived := true, written := [] })
          else none
      | .failed reason => some (.error reason, s, l)
      | _ => none
  | .write buffer =>
      match c, l.file with
      | .accepted n, some (i, offset) =>
          let bytes := buffer.take n
          some (.ok bytes.length, { s with disk := s.disk.overwrite i offset bytes },
            { l with file := some (i, offset + bytes.length), written := l.written ++ bytes })
      | .failed reason, _ => some (.error reason, s, l)
      | _, _ => none
  | .flush =>
      match c with
      | .pass => some (.ok (), s, l)
      | .failed reason => some (.error reason, s, l)
      | _ => none
  | .close => some ((), s, { l with file := none })
  | .removeFile path =>
      let p := S.lookup.locate path
      match c with
      | .pass =>
          if s.disk.node p ≠ none ∧ s.disk.node p ≠ some .dir then
            some (.ok (), { s with disk := s.disk.remove p }, l)
          else none
      | .failed reason => some (.error reason, s, l)
      | _ => none
  | .stagingDir root =>
      match c with
      | .fresh id =>
          let path := root ++ [stagingName l.request.process id]
          if Unused S l.request s (S.lookup.locate path) then
            some (path, { s with stages := S.lookup.locate path :: s.stages },
              { l with stage := some path })
          else none
      | _ => none
  | .openArchive path =>
      match c, s.disk.node (s.disk.follow (S.lookup.locate path)) with
      | .pass, some (.file i) => some (.ok (), s, { l with reading := some (i, 0), read := [] })
      | .failed reason, _ => some (.error reason, s, l)
      | _, _ => none
  | .readArchive =>
      match c, l.reading with
      | .accepted n, some (i, offset) =>
          let rest := (s.disk.data i).drop offset
          if rest = [] then some (.ok none, s, { l with unpacked := some l.read })
          else
            let bytes := rest.take (n + 1)
            some (.ok (some bytes), s,
              { l with reading := some (i, offset + bytes.length), read := l.read ++ bytes })
      | .failed reason, _ => some (.error reason, s, l)
      | _, _ => none
  | .unpackEntry staging name contents =>
      let p := S.lookup.locate staging ++ name
      match c, contents with
      | .pass, _ =>
          if Places s.disk p contents then
            some (.ok (), { s with disk := s.disk.place p contents }, l)
          else none
      | .accepted n, .file bytes =>
          if Places s.disk p contents then
            some (.error "interrupted", { s with disk := s.disk.place p (.file (bytes.take n)) }, l)
          else none
      | .failed reason, _ => some (.error reason, s, l)
      | _, _ => none

/-- How far a call is after an answer of the provider. -/
def Phase.asked (phase : Phase) (answer : Except Error (Option RuntimeLayout)) : Phase :=
  match phase, answer with
  | .holding, .ok none => .declined
  | _, _ => .concluded

/-- How far it is after a rename, which may have failed. -/
def Phase.renamed (phase : Phase) (installDir aside source : PathBuf) (done : Bool) : Phase :=
  if source = aside then .declined
  else if done = false then phase
  else if source = installDir then .moved
  else .landed

/-- What a call of the store tells the locals. -/
def Installation.after {β : Type} (S : Site) (l : Installation) (op : StoreOp β) (b : β) :
    Installation :=
  match op, b with
  | .layout _, answer => { l with answer := some answer, phase := l.phase.asked answer }
  | .rename source _, r =>
      { l with
        phase := l.phase.renamed (S.installDir l.request) (S.aside l.request) source r.toBool }
  | _, _ => l

/-- The answer of an effect under a choice, and what it changes. -/
def InstallOp.respond {β : Type} (S : Site) (op : InstallOp β) (w : Installing × Installation)
    (c : InstallChoice) : Option (β × Installing × Installation) :=
  match op with
  | .inl op => op.respond S w.1 w.2 c
  | .inr op =>
      match c with
      | .store provider c =>
          (op.respond S.lookup provider w.1.disk c).map fun r =>
            (r.1, { w.1 with disk := r.2 }, w.2.after S op r.1)
      | _ => none

/-! ## The code -/

namespace Install

/-- A call of `tokio::fs`. -/
def onThread {α : Type} (job : BlockingJob) (work : Prog InstallOp α) : Prog InstallOp α := do
  Prog.op (.inl (.begin job))
  let result ← work
  let _ ← Prog.op (.inl .finish)
  pure result

/-- `blocking::run`. -/
def blocking {α : Type} (language : Language) (job : BlockingJob) (work : Prog InstallOp (Except Error α)) :
    Prog InstallOp (Except Error α) := do
  Prog.op (.inl (.begin job))
  let result ← work
  match ← Prog.op (.inl .finish) with
  | none => pure result
  | some reason => pure (.error (.install language ("the task did not finish: " ++ reason)))

/-- `create_dir_all`, with its error as one of storage. -/
def createDirs (path : PathBuf) : ExceptT Error (Prog InstallOp) Unit :=
  ExceptT.mk do
    match ← onThread .createDirs (Prog.op (.inr (.createDirAll path))) with
    | .ok () => pure (.ok ())
    | .error reason => pure (.error (.storage reason))

/-- Create the root if it is not already there. -/
def ensureRoot (root : PathBuf) : ExceptT Error (Prog InstallOp) Unit :=
  createDirs root

/-- The directory a path is in, if it is in one. -/
def createParent (path : PathBuf) : ExceptT Error (Prog InstallOp) Unit :=
  match path.parent with
  | some parent => createDirs parent
  | none => pure ()

/-- Open the lock file and wait for the lock. -/
def takeLock (language : Language) (path : PathBuf) : Prog InstallOp (Except Error Unit) := do
  match ← Prog.op (.inl (.openLock path)) with
  | .error reason =>
      pure (.error (.install language ("the install lock could not be opened: " ++ reason)))
  | .ok () =>
      match ← Prog.op (.inl (.lockExclusive path)) with
      | .error reason =>
          pure (.error (.install language ("the install lock could not be taken: " ++ reason)))
      | .ok () => pure (.ok ())

/-- Take the exclusive lock guarding an install directory. -/
def acquire (language : Language) (installDir : PathBuf) : ExceptT Error (Prog InstallOp) Unit := do
  createParent (lockPathOf installDir)
  ExceptT.mk (blocking language .takeLock (takeLock language (lockPathOf installDir)))

/-- Render a transfer failure without the URL. -/
def downloadError (language : Language) (e : TransferError) : Error :=
  .download language (sanitise e)

/-- `fs::remove_file`, best effort. -/
def removeFile (path : PathBuf) : Prog InstallOp Unit := do
  let _ ← onThread .removeFile (Prog.op (.inl (.removeFile path)))
  pure ()

/-- Delete a partial or rejected download, best effort. -/
def removePartial (target : PathBuf) : Prog InstallOp Unit :=
  removeFile target

/-- Drop the archive once it has been unpacked. -/
def removeArchive (path : PathBuf) : Prog InstallOp Unit :=
  removeFile path

/-- Remove a directory and everything under it, best effort. -/
def discard (removals : Nat) (path : PathBuf) : Prog InstallOp Unit := do
  let _ ← onThread .removeDir ((removeDirAll path removals).embed fun _ => .inr)
  pure ()

/-- `write_all`. -/
def writeAll : Nat → List UInt8 → Prog InstallOp (Except String Unit)
  | _, [] => pure (.ok ())
  | 0, _ => pure (.error "failed to write whole buffer")
  | rounds + 1, buffer => do
      match ← Prog.op (.inl (.write buffer)) with
      | .error reason => pure (.error reason)
      | .ok 0 => pure (.error "failed to write whole buffer")
      | .ok n => writeAll rounds (buffer.drop n)

/-- The chunks of the response, hashed as they are written. -/
def writeChunks (language : Language) :
    Nat → List UInt8 → Prog InstallOp (Except Error (List UInt8))
  | 0, _ => pure (.error (downloadError language .body))
  | rounds + 1, hashed => do
      match ← Prog.op (.inl .chunk) with
      | .error e => pure (.error (downloadError language e))
      | .ok none => pure (.ok hashed)
      | .ok (some bytes) =>
          match ← onThread .write (writeAll bytes.length bytes) with
          | .error reason => pure (.error (.storage reason))
          | .ok () => writeChunks language rounds (hashed ++ bytes)

/-- The body of the response, written and flushed. -/
def writeBody (r : InstallRequest) : Prog InstallOp (Except Error (List UInt8)) := do
  match ← writeChunks r.language r.rounds [] with
  | .error e => pure (.error e)
  | .ok hashed =>
      match ← Prog.op (.inl .flush) with
      | .error reason => pure (.error (.storage reason))
      | .ok () => pure (.ok hashed)

/-- The headers of the request. -/
def requestHeaders (distribution : Distribution) : List (String × String) :=
  ("user-agent", "tinyruntime/0.2.14") :: distribution.headers

/-- Write the response body to a file, returning the hex SHA-256 of it. -/
def streamToFile (S : Site) (r : InstallRequest) (distribution : Distribution)
    (target : PathBuf) : Prog InstallOp (Except Error String) := do
  match ← Prog.op (.inl (.send distribution.url (requestHeaders distribution))) with
  | .error e => pure (.error (downloadError r.language e))
  | .ok () =>
      match ← onThread .createArchive (Prog.op (.inl (.createFile target))) with
      | .error reason => pure (.error (.storage reason))
      | .ok () => do
          let body ← writeBody r
          Prog.op (.inl .close)
          pure (body.map S.sha256)

/-- `eq_ignore_ascii_case`. -/
def eqIgnoreAsciiCase (a b : String) : Bool :=
  toAsciiLowercase a = toAsciiLowercase b

/-- Whether a digest is the published one, if there is one. -/
def verified (expected : Option String) (digest : String) : Bool :=
  match expected with
  | some expected => eqIgnoreAsciiCase expected digest
  | none => true

/-- Stream a distribution to a file, hashing as it goes, and verify the digest. -/
def fetch (S : Site) (r : InstallRequest) (distribution : Distribution) (target : PathBuf) :
    ExceptT Error (Prog InstallOp) Unit := do
  createParent target
  ExceptT.mk do
    match ← streamToFile S r distribution target with
    | .error e => do
        removePartial target
        pure (.error e)
    | .ok digest =>
        if verified distribution.expectedSha256 digest then pure (.ok ())
        else do
          removePartial target
          pure (.error (.digestMismatch r.language))

/-- The archive, read to its end. -/
def readAll : Nat → List UInt8 → Prog InstallOp (Except String (List UInt8))
  | 0, _ => pure (.error "interrupted")
  | rounds + 1, before => do
      match ← Prog.op (.inl .readArchive) with
      | .error reason => pure (.error reason)
      | .ok none => pure (.ok before)
      | .ok (some bytes) => readAll rounds (before ++ bytes)

/-- Its entries, except those that lead out. -/
def unpackAll (staging : PathBuf) : List ArchiveEntry → Prog InstallOp (Except String Unit)
  | [] => pure (.ok ())
  | entry :: rest =>
      match entry.enclosedName with
      | none => unpackAll staging rest
      | some name => do
          match ← Prog.op (.inl (.unpackEntry staging name entry.contents)) with
          | .error reason => pure (.error reason)
          | .ok () => unpackAll staging rest

/-- Unpack an archive of any format. -/
def unpack (S : Site) (rounds : Nat) (archive staging : PathBuf) (format : ArchiveFormat) :
    Prog InstallOp (Except String Unit) := do
  match ← Prog.op (.inl (.openArchive archive)) with
  | .error reason => pure (.error reason)
  | .ok () =>
      match ← readAll rounds [] with
      | .error reason => pure (.error reason)
      | .ok bytes =>
          match S.unpack format bytes with
          | .error reason => pure (.error reason)
          | .ok entries => unpackAll staging entries

/-- The single top-level directory inside a staging directory. -/
def singleRoot (staging : PathBuf) : Prog InstallOp (Except String PathBuf) := do
  match ← Prog.op (.inr (.readDir staging)) with
  | .error reason =>
      pure (.error ("the unpacked directory could not be listed: " ++ reason))
  | .ok entries =>
      match (entries.filter fun e => e.2).map fun e => staging ++ [e.1] with
      | [directory] => pure (.ok directory)
      | [] => pure (.error "the archive expanded into no directory at all")
      | directories =>
          pure (.error ("the archive expanded into " ++ toString directories.length ++
            " directories, not one"))

/-- An IO failure as an install failure. -/
def installError (language : Language) (reason : String) : Error :=
  .install language reason

/-- Extract an archive and return the single directory it produced. -/
def extract (S : Site) (r : InstallRequest) (archive staging : PathBuf) (format : ArchiveFormat) :
    Prog InstallOp (Except Error PathBuf) :=
  blocking r.language .extract do
    match ← Prog.op (.inr (.createDirAll staging)) with
    | .error reason => pure (.error (installError r.language reason))
    | .ok () =>
        match ← unpack S r.rounds archive staging format with
        | .error reason => pure (.error (installError r.language reason))
        | .ok () =>
            match ← singleRoot staging with
            | .error reason => pure (.error (.install r.language reason))
            | .ok directory => pure (.ok directory)

/-- `store::promote`. -/
def promote (r : InstallRequest) (staged destination : PathBuf) :
    Prog InstallOp (Except Error Unit) :=
  let m : Promotion := { staged := staged, language := r.language, process := r.process }
  blocking r.language .promote
    ((m.promoteBlocking r.rounds destination).run.embed fun _ => .inr)

/-- Unpack a verified archive and put it in place. -/
def unpackAndPromote (S : Site) (r : InstallRequest) (distribution : Distribution)
    (archivePath installDir : PathBuf) : ExceptT Error (Prog InstallOp) Unit :=
  ExceptT.mk do
    let staging ← Prog.op (.inl (.stagingDir (S.cacheRoot r)))
    discard r.rounds staging
    match ← extract S r archivePath staging distribution.format with
    | .error e => do
        discard r.rounds staging
        removeArchive archivePath
        pure (.error e)
    | .ok unpacked => do
        let promoted ← promote r unpacked installDir
        discard r.rounds staging
        removeArchive archivePath
        pure promoted

/-- Provision a managed toolchain and return it. -/
def run (S : Site) (r : InstallRequest) : ExceptT Error (Prog InstallOp) ResolvedRuntime := do
  let distribution ← attempt (.inl .selectDistribution)
  let root := S.cacheRoot r
  ensureRoot root
  let installDir := root.join distribution.installDirName
  acquire r.language installDir
  match ← attempt (.inr (.layout installDir)) with
  | some layout => pure (managed r.language installDir layout)
  | none => do
      let archivePath := root.join distribution.archiveName
      fetch S r distribution archivePath
      unpackAndPromote S r distribution archivePath installDir
      match ← attempt (.inr (.layout installDir)) with
      | some layout => pure (managed r.language installDir layout)
      | none => throw (.emptyInstall r.language)

end Install

/-! ## All calls -/

/-- The effect a closure ends with. -/
def InstallOp.stops : ∀ β, InstallOp β → Bool
  | _, .inl .finish => true
  | _, _ => false

/-- The closure a call waits for at an effect. -/
def InstallOp.job {β : Type} (op : InstallOp β) (l : Installation) : Option BlockingJob :=
  match op with
  | .inl (.begin job) => some job
  | _ => l.working

/-- What a dropped call had handed to a thread. A lock it has just taken is still in
    the closure. -/
def Installation.orphan (l : Installation) (job : BlockingJob) : Installation :=
  { l with task := some job, lock := if job = .takeLock then l.lock else none }

def Installation.orphans (p : Prog InstallOp (Except Error ResolvedRuntime)) (l : Installation) :
    List (Prog InstallOp (Except Error ResolvedRuntime) × Installation) :=
  match p with
  | .done _ => []
  | .perform e k =>
      match InstallOp.job e l with
      | none => []
      | some job =>
          [((Prog.perform e k).upTo InstallOp.stops (.error (.storage "dropped")), l.orphan job)]

/-- A call that has ended still has its lock, unless a closure has it. -/
def Installation.close (l : Installation) (result : Option (Except Error ResolvedRuntime)) :
    Installation :=
  { l with
    working := none
    lock := if l.working = some .takeLock then none else l.lock
    result := result
    ended := true }

/-- The lock is released when it is dropped. -/
def Installation.release (w : Installing × Installation) : Option (Installing × Installation) :=
  match w.2.ended, w.2.lock with
  | true, some p =>
      some ({ w.1 with locked := w.1.locked.filter (· ≠ p) }, { w.2 with lock := none })
  | _, _ => none

/-- The install calls of this process and others. -/
def installs (S : Site) :
    Concurrent.Calls InstallOp Installing Installation InstallRequest InstallChoice
      (Except Error ResolvedRuntime) where
  handler := { respond := fun op => op.respond S }
  suspends := InstallOp.suspends
  main r := (Install.run S r).run
  fresh := Installation.new
  orphans := Installation.orphans
  ended result l := l.close result
  release := Installation.release
  env _ _ := none

/-- Installs in progress. -/
abbrev Installs :=
  Concurrent.Config InstallOp Installing Installation (Except Error ResolvedRuntime)

/-- Nothing going on. What is on the disk is whatever was left. -/
def Installing.idle (s : Installing) : Prop :=
  s.locked = [] ∧ s.busy = 0 ∧ s.stages = [] ∧ s.downloads = 0

end TinyRuntime
