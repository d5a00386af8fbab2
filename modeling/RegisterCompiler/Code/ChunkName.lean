import RegisterCompiler.Bytes

/-!
# Chunk names in messages

A chunk is named `@path` for a file, `=text` for a name to be shown as it is, and otherwise by its
source text, of which messages show the first line.
-/

namespace RegisterCompiler

def chunkNameWidth : Nat := 60

def chunkLineWidth : Nat := 45

/-- A chunk name as messages show it: a file by the end of a long path, source text by its first
line between `[string "` and `"]`, with dots where something was left out. -/
def shownChunk (name : Bytes) : Bytes :=
  match name with
  | 61 :: text => text.take chunkNameWidth
  | 64 :: path =>
    if path.length > chunkNameWidth then bytes "..." ++ path.drop (path.length - chunkNameWidth + 3)
    else path
  | source =>
    let line := source.takeWhile (· != Bytes.lf)
    let dots := if line.length < source.length ∨ line.length > chunkLineWidth then "..." else ""
    bytes "[string \"" ++ line.take chunkLineWidth ++ bytes dots ++ bytes "\"]"

end RegisterCompiler
