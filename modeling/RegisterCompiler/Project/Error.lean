import RegisterCompiler.Disk
import RegisterCompiler.Generator.State

/-!
# What can go wrong in a project
-/

namespace RegisterCompiler

/-- What is wrong with a project, its files or a source. -/
inductive ProjectError where
  | cannotRead (path : Bytes) (refusal : Disk.Refusal)
  | cannotWrite (path : Bytes) (refusal : Disk.Refusal)
  | cannotEncode (path : Bytes) (refusal : Disk.Refusal)
  | cannotCreate (dir : Bytes) (refusal : Disk.Refusal)
  | cannotScan (dir : Bytes) (refusal : Disk.Refusal)
  | noSource (refusal : Disk.Refusal)
  /-- A manifest or a log is no document, or a value in it has the wrong type. -/
  | malformed (path : Bytes)
  | unknownKeys (path : Bytes) (keys : List Bytes)
  | noSources (dirs : List Bytes)
  | severalInputs
  | compile (error : CompileError)
  | internal (path : Bytes) (broken : Invariant)

namespace ProjectError

def sourceExt : Bytes := bytes ".luma"

def message : ProjectError → Bytes
  | .cannotRead path r => bytes "cannot read " ++ path ++ bytes ": " ++ r.message
  | .cannotWrite path r => bytes "cannot write " ++ path ++ bytes ": " ++ r.message
  | .cannotEncode path r => bytes "encoding " ++ path ++ bytes ": " ++ r.message
  | .cannotCreate dir r => bytes "creating " ++ dir ++ bytes ": " ++ r.message
  | .cannotScan dir r => bytes "scanning " ++ dir ++ bytes ": " ++ r.message
  | .noSource r => bytes "compiler: " ++ r.message
  | .malformed path => bytes "parse error in " ++ path ++ bytes ": not a valid document"
  | .unknownKeys path keys =>
    bytes "unknown keys in " ++ path ++ bytes ": " ++ Bytes.intercalate (bytes ", ") keys
  | .noSources dirs =>
    bytes "no " ++ sourceExt ++ bytes " files in " ++ Bytes.intercalate (bytes ", ") dirs
  | .severalInputs => bytes "-o requires a single input file"
  | .compile e => e.message
  | .internal path i => path ++ bytes ": compiler: internal error: " ++ i.message

def isMissing : ProjectError → Bool
  | .cannotRead _ r | .cannotWrite _ r | .cannotCreate _ r | .cannotScan _ r | .noSource r =>
    r.fault == .notFound
  | _ => false

end ProjectError

end RegisterCompiler
