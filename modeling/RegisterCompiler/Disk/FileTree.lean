import RegisterCompiler.Disk

/-!
# File trees

A disk held in memory: programs with files become functions on trees. Writing at a place can be refused or
break off, as the tree says of each place; a program does not change that. Otherwise the disk is an ideal
one: what is there can be read and listed, a write that is not refused replaces the content at once, and
there are no links.
-/

namespace RegisterCompiler

abbrev Place := List Bytes

namespace FileTree

inductive Node where
  | file (data : Bytes)
  | dir
deriving DecidableEq

/-- What becomes of writes at a place. One that breaks off leaves a file with some first bytes. -/
inductive Limit where
  | free
  | refused
  | breaksOff (kept : Nat)
deriving DecidableEq

def Limit.outcome : Limit → Except Disk.Fault Unit
  | .free => .ok ()
  | .refused => .error .denied
  | .breaksOff _ => .error .noSpace

def Limit.stored (data : Bytes) : Limit → Bytes
  | .breaksOff kept => data.take kept
  | _ => data

end FileTree

/-- Files and directories by place. The root is always there. -/
structure FileTree where
  nodes : List (Place × FileTree.Node)
  limit : Place → FileTree.Limit := fun _ => .free

namespace FileTree

def empty : FileTree := { nodes := [] }

def get? (t : FileTree) (p : Place) : Option Node :=
  if p.isEmpty then some .dir else t.nodes.lookup p

def put (t : FileTree) (p : Place) (node : Node) : FileTree :=
  { t with nodes := (p, node) :: t.nodes.filter (·.1 != p) }

def remove (t : FileTree) (p : Place) : FileTree :=
  { t with nodes := t.nodes.filter fun (q, _) => !p.isPrefixOf q }

def filesFrom (t : FileTree) (p : Place) : List Place :=
  t.nodes.filterMap fun (q, node) =>
    match node with
    | .file _ => if p.isPrefixOf q then some q else none
    | .dir => none

/-! ## Paths -/

def maxName : Nat := 255

def maxPath : Nat := 4095

def needDir (t : FileTree) (p : Place) : Except Disk.Fault Unit :=
  match t.get? p with
  | some .dir => .ok ()
  | some (.file _) => .error .notDirectory
  | none => .error .notFound

def step (t : FileTree) (p : Place) (name : Bytes) : Except Disk.Fault Place := do
  t.needDir p
  if name.length > maxName then throw .nameTooLong
  if name.isEmpty || name == Path.here then return p
  if name == Path.up then return p.dropLast
  return p ++ [name]

/-- The place that a path leads to. All on the way to it are directories; whether it is there itself
is not asked. -/
def resolve (t : FileTree) (start : Place) (path : Bytes) : Except Disk.Fault Place := do
  if path.contains 0 then throw .invalidPath
  if path.isEmpty then throw .notFound
  if path.length > maxPath then throw .nameTooLong
  (Bytes.splitOn Path.slash path).foldlM t.step (if Path.isAbsolute path then [] else start)

def trimSlashes (path : Bytes) : Bytes :=
  match path.reverse.dropWhile (· == Path.slash) with
  | [] => path
  | p => p.reverse

/-! ## Trees as disks -/

structure State where
  tree : FileTree
  dir : Place

namespace State

def workingDir (s : State) : Bytes :=
  Path.ofParts true s.dir

def get? (s : State) (path : Bytes) : Except Disk.Fault Node := do
  let p ← s.tree.resolve s.dir path
  match s.tree.get? p with
  | some node => return node
  | none => throw .notFound

def kind (s : State) (path : Bytes) : Except Disk.Fault Disk.Kind := do
  match ← s.get? path with
  | .file _ => return .file
  | .dir => return .dir

def read (s : State) (path : Bytes) : Except Disk.Fault Bytes := do
  match ← s.get? path with
  | .file data => return data
  | .dir => throw .isDirectory

/-- The place of the file that a path names, if it can be opened to be written. A path that ends in a
slash names no file. -/
def target (s : State) (path : Bytes) : Except Disk.Fault Place := do
  let p ← s.tree.resolve s.dir (trimSlashes path)
  if path.endsWith [Path.slash] then throw .isDirectory
  if s.tree.get? p = some .dir then throw .isDirectory
  if s.tree.limit p = .refused then throw .denied
  return p

def write (s : State) (path data : Bytes) : Except Disk.Fault Unit × State :=
  match s.target path with
  | .error fault => (.error fault, s)
  | .ok p => ((s.tree.limit p).outcome, { s with tree := s.tree.put p (.file ((s.tree.limit p).stored data)) })

def makeDir (s : State) (path : Bytes) : Except Disk.Fault Unit × State :=
  match s.tree.resolve s.dir (trimSlashes path) with
  | .error fault => (.error fault, s)
  | .ok p =>
    if (s.tree.get? p).isSome then (.error .alreadyThere, s)
    else if s.tree.limit p = .free then (.ok (), { s with tree := s.tree.put p .dir })
    else (.error .denied, s)

/-- The files at or below a path: the path itself, or it with the names that lead on. -/
def files (s : State) (path : Bytes) : Except Disk.Fault (List Bytes) := do
  let p ← s.tree.resolve s.dir path
  match s.tree.get? p with
  | none => throw .notFound
  | some _ =>
    return (s.tree.filesFrom p).map fun q =>
      if q == p then path else Path.join (path :: q.drop p.length)

end State

instance : Disk (StateM State) where
  workingDir := fun s => (s.workingDir, s)
  kind path := fun s => (s.kind path, s)
  read path := fun s => (s.read path, s)
  write path data := fun s => s.write path data
  makeDir path := fun s => s.makeDir path
  files path := fun s => (s.files path, s)

end FileTree

end RegisterCompiler
