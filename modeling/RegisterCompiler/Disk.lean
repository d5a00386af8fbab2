import RegisterCompiler.Disk.Path

/-!
# Disks

`Disk m` is what programs of `m` can do with files. A path that is not absolute starts at the working
directory. The actions below it have refusals, which name the action and the path, in place of faults.
-/

namespace RegisterCompiler

namespace Disk

inductive Fault where
  | notFound
  | notDirectory
  | isDirectory
  | alreadyThere
  | nameTooLong
  | denied
  | noSpace
  | invalidPath
deriving DecidableEq

def Fault.message : Fault → Bytes
  | .notFound => bytes "no such file or directory"
  | .notDirectory => bytes "not a directory"
  | .isDirectory => bytes "is a directory"
  | .alreadyThere => bytes "file exists"
  | .nameTooLong => bytes "file name too long"
  | .denied => bytes "permission denied"
  | .noSpace => bytes "no space left on device"
  | .invalidPath => bytes "invalid argument"

inductive Action where
  | access
  | read
  | write
  | makeDir
  | inspect
deriving DecidableEq

def Action.text : Action → Bytes
  | .access => bytes "open"
  | .read => bytes "read"
  | .write => bytes "write"
  | .makeDir => bytes "mkdir"
  | .inspect => bytes "lstat"

/-- What has failed when a file cannot be written: opening it, if there would be space. -/
def Fault.onWrite : Fault → Action
  | .noSpace => .write
  | _ => .access

structure Refusal where
  action : Action
  path : Bytes
  fault : Fault
deriving DecidableEq

def Refusal.message (r : Refusal) : Bytes :=
  r.action.text ++ bytes " " ++ r.path ++ bytes ": " ++ r.fault.message

inductive Kind where
  | file
  | dir
deriving DecidableEq

end Disk

class Disk (m : Type → Type) where
  workingDir : m Bytes
  kind : Bytes → m (Except Disk.Fault Disk.Kind)
  read : Bytes → m (Except Disk.Fault Bytes)
  write : (path data : Bytes) → m (Except Disk.Fault Unit)
  makeDir : Bytes → m (Except Disk.Fault Unit)
  files : Bytes → m (Except Disk.Fault (List Bytes))

namespace Disk

variable {m : Type → Type} [Monad m] [Disk m]

/-- The content of a file. A directory can be opened, and is refused when it is read. -/
def readFile (path : Bytes) : m (Except Refusal Bytes) := do
  match ← read path with
  | .ok data => return .ok data
  | .error .isDirectory => return .error ⟨.read, path, .isDirectory⟩
  | .error fault => return .error ⟨.access, path, fault⟩

def writeFile (path data : Bytes) : m (Except Refusal Unit) := do
  match ← write path data with
  | .ok _ => return .ok ()
  | .error fault => return .error ⟨fault.onWrite, path, fault⟩

def filesBelow (path : Bytes) : m (Except Refusal (List Bytes)) := do
  match ← files path with
  | .ok paths => return .ok paths
  | .error fault => return .error ⟨.inspect, path, fault⟩

def exists? (path : Bytes) : m Bool :=
  return (← kind path) matches .ok _

/-- The path up to the slash before its last element; that slash stays, so that what it leads to
must be a directory. -/
def parentOf (path : Bytes) : Bytes :=
  ((path.reverse.dropWhile (· == Path.slash)).dropWhile (· != Path.slash)).reverse

/-- Creates a directory and those above it that are missing; `levels` bounds their number. -/
def makeDirsWithin : (levels : Nat) → Bytes → m (Except Refusal Unit)
  | 0, path => return .error ⟨.makeDir, path, .notFound⟩
  | n + 1, path => do
    match ← kind path with
    | .ok .dir => return .ok ()
    | .ok .file => return .error ⟨.makeDir, path, .notDirectory⟩
    | .error _ =>
      let parent := parentOf path
      let above : Except Refusal Unit ←
        if parent.isEmpty then pure (.ok ()) else makeDirsWithin n parent
      match above with
      | .error refusal => return .error refusal
      | .ok _ =>
        match ← makeDir path with
        | .ok _ => return .ok ()
        | .error fault =>
          match ← kind path with
          | .ok .dir => return .ok ()
          | _ => return .error ⟨.makeDir, path, fault⟩

/-- Creates a directory and those above it that are missing. Each level takes a byte of the path at
least. -/
def makeDirs (path : Bytes) : m (Except Refusal Unit) :=
  makeDirsWithin (path.length + 1) path

def absolute (path : Bytes) : m Bytes := do
  if Path.isAbsolute path then return Path.clean path
  else return Path.join [← workingDir, path]

end Disk

end RegisterCompiler
