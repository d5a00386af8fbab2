import RegisterCompiler.Project.Error

/-!
# Writing results

`writeWithDirs` writes a file, and makes the directories that it is in if need be.
-/

namespace RegisterCompiler

def writeWithDirs {m : Type → Type} [Monad m] [Disk m] (path data : Bytes) :
    m (Except ProjectError Unit) := do
  match ← Disk.makeDirs (Path.dir path) with
  | .error refusal => return .error (.cannotCreate (Path.dir path) refusal)
  | .ok _ =>
    match ← Disk.writeFile path data with
    | .error refusal => return .error (.cannotWrite path refusal)
    | .ok _ => return .ok ()

end RegisterCompiler
