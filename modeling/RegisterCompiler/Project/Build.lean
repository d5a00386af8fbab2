import RegisterCompiler.Code.Listing
import RegisterCompiler.Compile
import RegisterCompiler.Image
import RegisterCompiler.Project.Log

/-!
# Builds

A project's sources are compiled if they have changed since its last build. One source that fails does
not stop the others.
-/

namespace RegisterCompiler

structure BuildMode where
  strip : Bool := false
  listing : Bool := false
  parseOnly : Bool := false
  verbose : Bool := false

structure Report where
  text : Bytes := []
  errors : List ProjectError := []

namespace Report

def append (a b : Report) : Report :=
  ⟨a.text ++ b.text, a.errors ++ b.errors⟩

instance : Append Report := ⟨append⟩

def ofError (e : ProjectError) : Report := { errors := [e] }

def message (r : Report) : Bytes :=
  Bytes.intercalate (bytes "\n") (r.errors.map ProjectError.message)

end Report

def compileSource (path chunk source : Bytes) (strip : Bool) : Except ProjectError Proto :=
  match compile source chunk strip with
  | .ok p => .ok p
  | .error (.error e) => .error (.compile e)
  | .error (.broken i) => .error (.internal path i)

def chunkOfFile (path : Bytes) : Bytes :=
  bytes "@" ++ path

def besidePath (source : Bytes) : Bytes :=
  Path.stem source ++ Manifest.imageExt

section

variable {m : Type → Type} [Monad m] [Disk m]

def emit (p : Proto) (path : Bytes) (o : BuildMode) : m Report := do
  let listed : Report := { text := if o.listing then p.listing else [] }
  if o.parseOnly then return listed
  match ← writeWithDirs path (Image.encode p) with
  | .error e => return listed ++ .ofError e
  | .ok _ =>
    if o.verbose then
      return listed ++ { text := shownChunk p.source ++ bytes " -> " ++ path ++ bytes "\n" }
    return listed

/-! ## Single sources -/

/-- Compiles one source; without an `output`, the image goes beside it. -/
def compileOne (output : Bytes) (o : BuildMode) (path : Bytes) : m Report := do
  match ← Disk.readFile path with
  | .error refusal => return .ofError (.noSource refusal)
  | .ok source =>
    match compileSource path (chunkOfFile path) source o.strip with
    | .error e => return .ofError e
    | .ok p => emit p (if output.isEmpty then besidePath path else output) o

def compileSources (paths : List Bytes) (output : Bytes) (o : BuildMode) : m Report := do
  if !output.isEmpty && paths.length > 1 then return .ofError .severalInputs
  paths.foldlM (fun r path => return r ++ (← compileOne output o path)) {}

/-! ## Projects -/

structure Progress where
  report : Report := {}
  images : List LoggedImage := []
  compiled : Nat := 0

def Progress.tell (b : Progress) (r : Report) : Progress :=
  { b with report := b.report ++ r }

/-- The entry of the last log that tells that the image of a source is still good: source and
place of the image are as they were. Nothing is good enough if all is to be listed, or if nothing is
to be written. -/
def upToDate? (last : Option BuildLog) (o : BuildMode) (source hash image : Bytes) :
    Option LoggedImage :=
  if o.listing || o.parseOnly then none
  else
    (last.bind (·.find? source)).filter fun r => r.sourceHash == hash && r.image == image

def Manifest.buildOne (project : Manifest) (last : Option BuildLog) (o : BuildMode)
    (b : Progress) (path : Bytes) : m Progress := do
  match ← Disk.readFile path with
  | .error refusal => return b.tell (.ofError (.cannotRead path refusal))
  | .ok source =>
    let hash := Bytes.hex (sha256 source)
    let image := project.imageFor path
    if let some r := upToDate? last o path hash image then
      if ← Disk.exists? image then
        return { b with images := b.images ++ [r] }
    match compileSource path (chunkOfFile (project.shownPath path)) source o.strip with
    | .error e => return b.tell (.ofError e)
    | .ok p =>
      let r ← emit p image o
      if !r.errors.isEmpty then return b.tell r
      return {
        report := b.report ++ r
        images := b.images ++ [⟨path, image, hash, Bytes.hex p.digest⟩]
        compiled := b.compiled + 1 }

/-- The log of the last build, if it can be read and debug information was kept or left out as it
is now. -/
def Manifest.lastLog (project : Manifest) (o : BuildMode) : m (Option BuildLog) := do
  match ← BuildLog.read project.logPath with
  | .ok (some r) => return if r.stripDebug == o.strip then some r else none
  | _ => return none

def Manifest.summary (project : Manifest) (b : Progress) : Bytes :=
  (if project.name.isEmpty then Path.base project.dir else project.name) ++ bytes ": " ++
    Bytes.ofNat b.compiled ++ bytes " compiled, " ++
    Bytes.ofInt ((b.images.length : Int) - b.compiled) ++ bytes " up to date, " ++
    Bytes.ofNat b.report.errors.length ++ bytes " failed\n"

/-- Builds a project. What the manifest asks for is done besides what the options ask for. -/
def Manifest.build (project : Manifest) (o : BuildMode) : m Report := do
  let o := { o with
    strip := o.strip || project.stripDebug
    listing := o.listing || project.listing }
  match ← project.allSources with
  | .error e => return .ofError e
  | .ok [] => return .ofError (.noSources project.dirs)
  | .ok files =>
    let last ← project.lastLog o
    let b ← files.foldlM (project.buildOne last o) {}
    let report := if o.verbose then b.report ++ { text := project.summary b } else b.report
    if o.parseOnly then return report
    match ← (⟨o.strip, b.images⟩ : BuildLog).write project.logPath with
    | .error e => return report ++ .ofError e
    | .ok _ => return report

end

end RegisterCompiler
