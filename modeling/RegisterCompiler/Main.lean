import RegisterCompiler.CommandLine

/-!
# The program

The disk of the machine, and `main`, which runs the command on it.
-/

namespace RegisterCompiler

def Bytes.toByteArray (s : Bytes) : ByteArray := ⟨s.toArray⟩

/-- The machine's name of a path. Paths that are not UTF-8 have none. -/
def machineName? (path : Bytes) : Option String :=
  if path.contains 0 then none else String.fromUTF8? path.toByteArray

def Disk.Fault.ofError : IO.Error → Disk.Fault
  | .noFileOrDirectory .. => .notFound
  | .alreadyExists .. => .alreadyThere
  | .permissionDenied .. => .denied
  | .inappropriateType _ code _ => if code == 21 then .isDirectory else .notDirectory
  | _ => .invalidPath

def onMachine {α : Type} (path : Bytes) (action : String → IO α) : IO (Except Disk.Fault α) := do
  match machineName? path with
  | none => return .error .invalidPath
  | some "" => return .error .notFound
  | some name =>
    try
      return .ok (← action name)
    catch e => return .error (.ofError e)

def machineKind (name : String) : IO Disk.Kind := do
  let info ← ((← IO.currentDir) / name).metadata
  return if info.type == .dir then .dir else .file

def machineFiles (name : String) : IO (List Bytes) := do
  match ← machineKind name with
  | .file => return [bytes name]
  | .dir =>
    let all ← ((← IO.currentDir) / name).walkDir
    let files ← all.toList.filterM fun p => return !(← p.isDir)
    return files.map fun p => bytes p.toString

instance : Disk IO where
  workingDir := return bytes (← IO.currentDir).toString
  kind path := onMachine path machineKind
  read path := onMachine path fun name => return (← IO.FS.readBinFile name).toList
  write path data := onMachine path fun name => IO.FS.writeBinFile name data.toByteArray
  makeDir path := onMachine path fun name => IO.FS.createDir name
  files path := onMachine path machineFiles

def runOnMachine (args : List String) : IO UInt32 := do
  let r ← runCommand (m := IO) (args.map bytes)
  (← IO.getStdout).write r.out.toByteArray
  (← IO.getStderr).write r.err.toByteArray
  return UInt32.ofNat r.status

end RegisterCompiler

def main (args : List String) : IO UInt32 :=
  RegisterCompiler.runOnMachine args
