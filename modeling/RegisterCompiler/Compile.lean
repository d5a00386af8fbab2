import RegisterCompiler.Generator.Tree

/-!
# Compiling
-/

namespace RegisterCompiler

/-- The main function of a source. The chunk is called `name` in messages and in the result; without
a name it is called by its source. -/
def compile (source name : Bytes) (strip : Bool) : Except Failure Proto := do
  let name := if name.isEmpty then source else name
  let proto ← (Gen.chunk Gen.namedVariable (readChunk source)).run' (.initial name)
  return if strip then proto.strip else proto

def firstLine (s : Bytes) : Bytes :=
  s.takeWhile (· ≠ Bytes.lf)

def compileLine (source : Bytes) : Except Failure Proto :=
  compile source (bytes "=" ++ firstLine source) false

end RegisterCompiler
