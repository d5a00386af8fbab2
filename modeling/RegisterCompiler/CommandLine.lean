import RegisterCompiler.CommandLine.Flags
import RegisterCompiler.Project.Build

/-!
# The command

It compiles the sources that are named or, if there are none, builds the nearest project.
-/

namespace RegisterCompiler

structure CommandResult where
  status : Nat
  out : Bytes := []
  err : Bytes := []

def usage : Bytes :=
  bytes "Usage: luma [options] [files...]\n\n" ++
  bytes "Compiles .luma files into .luac images. Without files, builds the\n" ++
  bytes "project described by the nearest luma.toml.\n\n" ++
  bytes "Options:\n" ++
  bytes "  -l\tPrint a bytecode listing\n" ++
  bytes "  -lsp\n    \tStart the language server on stdio\n" ++
  bytes "  -o string\n    \tOutput image path (single input only)\n" ++
  bytes "  -p\tParse only, do not write images\n" ++
  bytes "  -s\tStrip debug information\n" ++
  bytes "  -v\tVerbose output\n" ++
  bytes "\nExamples:\n" ++
  bytes "  luma hello.luma            # Write hello.luac\n" ++
  bytes "  luma -l -p hello.luma      # Print the listing only\n" ++
  bytes "  luma -s -o out.luac a.luma # Stripped image at out.luac\n" ++
  bytes "  luma                       # Build the project in luma.toml\n" ++
  bytes "  luma -lsp                  # Language server for editors\n"

def CommandResult.ofReport (r : Report) : CommandResult :=
  if r.errors.isEmpty then ⟨0, r.text, []⟩ else ⟨1, r.text, r.message ++ bytes "\n"⟩

def CommandResult.ofStop (stop : FlagStop) : CommandResult :=
  match stop.message? with
  | none => ⟨0, [], usage⟩
  | some text => ⟨2, [], text ++ bytes "\n" ++ usage⟩

section

variable {m : Type → Type} [Monad m] [Disk m]

/-- What the settings ask for. To serve an editor that sends nothing is to end at once. -/
def Settings.run (s : Settings) : m CommandResult := do
  if s.serve then return { status := 0 }
  let o : BuildMode :=
    { strip := s.strip, listing := s.listing, parseOnly := s.parseOnly, verbose := s.verbose }
  if !s.inputs.isEmpty then
    return .ofReport (← compileSources s.inputs s.output o)
  if !s.output.isEmpty then
    return ⟨2, [], bytes "Error: -o requires an input file\n"⟩
  match ← Manifest.find (bytes ".") with
  | .error e => return .ofReport (.ofError e)
  | .ok none => return ⟨2, [], bytes "Error: no input files and no luma.toml found\n" ++ usage⟩
  | .ok (some project) => return .ofReport (← project.build o)

def runCommand (args : List Bytes) : m CommandResult :=
  match parseFlags args with
  | .error stop => return .ofStop stop
  | .ok s => s.run

end

end RegisterCompiler
