import RegisterCompiler.Project.Manifest
import RegisterCompiler.Project.Write

/-!
# Build logs

A log tells which images the last build of a project made, so that sources that have not changed
need no compiling.
-/

namespace RegisterCompiler

structure LoggedImage where
  source : Bytes := []
  image : Bytes := []
  sourceHash : Bytes := []
  imageHash : Bytes := []
deriving DecidableEq

structure BuildLog where
  stripDebug : Bool := false
  images : List LoggedImage := []
deriving DecidableEq

/-! ## Documents -/

namespace LoggedImage

def fields : List Bytes :=
  [bytes "source", bytes "image", bytes "source-hash", bytes "image-hash"]

def line (field value : Bytes) : Bytes :=
  bytes "  " ++ field ++ bytes " = " ++ Toml.quoted value ++ bytes "\n"

def text (r : LoggedImage) : Bytes :=
  bytes "\n[[image]]\n" ++ line (bytes "source") r.source ++ line (bytes "image") r.image ++
    line (bytes "source-hash") r.sourceHash ++ line (bytes "image-hash") r.imageHash

def ofTable? (t : Toml.Table) : Option LoggedImage := do
  return {
    source := ← t.decode? fields (bytes "source") Toml.asString? []
    image := ← t.decode? fields (bytes "image") Toml.asString? []
    sourceHash := ← t.decode? fields (bytes "source-hash") Toml.asString? []
    imageHash := ← t.decode? fields (bytes "image-hash") Toml.asString? [] }

end LoggedImage

namespace BuildLog

def fileName : Bytes := bytes "luma.lock"

def fields : List Bytes :=
  [bytes "strip-debug", bytes "image"]

def text (r : BuildLog) : Bytes :=
  bytes "strip-debug = " ++ (if r.stripDebug then bytes "true" else bytes "false") ++ bytes "\n" ++
    r.images.flatMap LoggedImage.text

/-- The log that a document describes; keys without a place are passed over. -/
def ofTable? (root : Toml.Table) : Option BuildLog := do
  return {
    stripDebug := ← root.decode? fields (bytes "strip-debug") Toml.asBoolean? false
    images := ← root.decode? fields (bytes "image")
      (fun _ v => (Toml.asTables? v).bind (·.mapM LoggedImage.ofTable?)) [] }

def ofText? (text : Bytes) : Option BuildLog :=
  (Toml.Document.read? text).bind fun doc => ofTable? doc.root

/-! ## Files -/

def find? (r : BuildLog) (source : Bytes) : Option LoggedImage :=
  r.images.find? (·.source == source)

section

variable {m : Type → Type} [Monad m] [Disk m]

def read (path : Bytes) : m (Except ProjectError (Option BuildLog)) := do
  match ← Disk.readFile path with
  | .error refusal =>
    if refusal.fault == .notFound then return .ok none else return .error (.malformed path)
  | .ok text =>
    match ofText? text with
    | none => return .error (.malformed path)
    | some r => return .ok (some r)

/-- A log is encoded while it is written. -/
def inEncoding : ProjectError → ProjectError
  | .cannotWrite path ⟨.write, p, fault⟩ => .cannotEncode path ⟨.write, p, fault⟩
  | e => e

def write (r : BuildLog) (path : Bytes) : m (Except ProjectError Unit) :=
  return (← writeWithDirs path r.text).mapError inEncoding

end

end BuildLog

def Manifest.logPath (p : Manifest) : Bytes :=
  Path.join [p.imageDir, BuildLog.fileName]

end RegisterCompiler
