import RegisterCompiler.Project.Error
import RegisterCompiler.Toml.Decode
import RegisterCompiler.Toml.Read

/-!
# Manifests

A manifest is a file that says where the sources of a project are and where their images go.
-/

namespace RegisterCompiler

structure Manifest where
  name : Bytes := []
  version : Bytes := []
  dirs : List Bytes := []
  output : Bytes := []
  stripDebug : Bool := false
  listing : Bool := false
  dir : Bytes := []

namespace Manifest

def fileName : Bytes := bytes "luma.toml"

/-! ## Reading -/

def sections : List Bytes :=
  [bytes "project", bytes "source", bytes "build"]

def fieldsOf (table : Bytes) : List Bytes :=
  if table == bytes "project" then [bytes "name", bytes "version"]
  else if table == bytes "source" then [bytes "dirs"]
  else [bytes "output", bytes "strip-debug", bytes "listing"]

def knows (root : Toml.Table) : Toml.Key → Bool
  | [table] => (root.get? table).isSome && (Toml.fieldNamed? sections table).isSome
  | [table, name] =>
    match root.get? table with
    | some (.table t) =>
      (t.lookup name).isSome && (Toml.fieldNamed? sections table).any fun known =>
        (Toml.fieldNamed? (fieldsOf known) name).isSome
    | _ => false
  | _ => false

def withTable (m : Manifest) (table : Bytes) (t : Toml.Table) : Option Manifest := do
  let fields := fieldsOf table
  return { m with
    name := ← t.decode? fields (bytes "name") Toml.asString? m.name
    version := ← t.decode? fields (bytes "version") Toml.asString? m.version
    dirs := ← t.decode? fields (bytes "dirs") Toml.asStrings? m.dirs
    output := ← t.decode? fields (bytes "output") Toml.asString? m.output
    stripDebug := ← t.decode? fields (bytes "strip-debug") Toml.asBoolean? m.stripDebug
    listing := ← t.decode? fields (bytes "listing") Toml.asBoolean? m.listing }

/-- The manifest that a document describes; keys without a place are passed over. -/
def ofTable? (root : Toml.Table) : Option Manifest :=
  sections.foldlM (fun m table =>
    root.decode? sections table (fun m v => (Toml.asTable? v).bind (m.withTable table)) m) {}

/-- The manifest with what it leaves open: sources are in `src` and images in `build`. -/
def withDefaults (m : Manifest) : Manifest :=
  { m with
    dirs := if m.dirs.isEmpty then [bytes "src"] else m.dirs
    output := if m.output.isEmpty then bytes "build" else m.output }

/-- The manifest that a text is. The path is that of the file and is shown in errors. -/
def ofText (path text : Bytes) : Except ProjectError Manifest :=
  match Toml.Document.read? text with
  | none => .error (.malformed path)
  | some doc =>
    match ofTable? doc.root with
    | none => .error (.malformed path)
    | some m =>
      let unknown := doc.defined.filter (!knows doc.root ·)
      if unknown.isEmpty then .ok m.withDefaults
      else .error (.unknownKeys path (unknown.map Toml.Key.text))

section

variable {m : Type → Type} [Monad m] [Disk m]

def load (dir : Bytes) : m (Except ProjectError Manifest) := do
  let path := Path.join [dir, fileName]
  match ← Disk.readFile path with
  | .error refusal => return .error (.cannotRead path refusal)
  | .ok text =>
    match ofText path text with
    | .error e => return .error e
    | .ok manifest => return .ok { manifest with dir := ← Disk.absolute dir }

/-- The manifest of an absolute directory or of the nearest one above it that has one; `levels`
bounds the number of directories. -/
def findWithin : (levels : Nat) → (dir : Bytes) → m (Except ProjectError (Option Manifest))
  | 0, _ => return .ok none
  | n + 1, dir => do
    if ← Disk.exists? (Path.join [dir, fileName]) then
      match ← load dir with
      | .ok manifest => return .ok (some manifest)
      | .error e => return .error e
    else
      let parent := Path.dir dir
      if parent == dir then return .ok none else findWithin n parent

/-- The manifest of a directory or of the nearest one above it that has one. -/
def find (dir : Bytes) : m (Except ProjectError (Option Manifest)) := do
  let dir ← Disk.absolute dir
  findWithin (dir.length + 1) dir

end

/-! ## Places -/

def sourceDirs (p : Manifest) : List Bytes :=
  p.dirs.map fun d => Path.join [p.dir, d]

def imageDir (p : Manifest) : Bytes :=
  if Path.isAbsolute p.output then p.output else Path.join [p.dir, p.output]

def imageExt : Bytes := bytes ".luac"

/-- Where the image of a source goes: its place in the first source directory that holds it, below
the directory of the images. A source outside all of them goes by its last name. -/
def imageFor (p : Manifest) (source : Bytes) : Bytes :=
  let place := (p.sourceDirs.findSome? (Path.below? · source)).getD (Path.base source)
  Path.join [p.imageDir, Path.stem place ++ imageExt]

def shownPath (p : Manifest) (path : Bytes) : Bytes :=
  (Path.below? p.dir path).getD path

/-- The files below directories that have the extension of sources, in the order of the
directories. -/
def sourcesBelow {m : Type → Type} [Monad m] [Disk m] :
    List Bytes → m (Except ProjectError (List Bytes))
  | [] => return .ok []
  | dir :: dirs => do
    match ← Disk.filesBelow dir with
    | .error refusal => return .error (.cannotScan dir refusal)
    | .ok files =>
      match ← sourcesBelow dirs with
      | .error e => return .error e
      | .ok rest => return .ok (files.filter (Path.ext · == ProjectError.sourceExt) ++ rest)

/-- The sources of a project, sorted. A file below two source directories is there twice. -/
def allSources {m : Type → Type} [Monad m] [Disk m] (p : Manifest) :
    m (Except ProjectError (List Bytes)) := do
  match ← sourcesBelow p.sourceDirs with
  | .error e => return .error e
  | .ok files => return .ok (files.mergeSort Bytes.le)

end Manifest

end RegisterCompiler
