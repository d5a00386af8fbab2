import RegisterCompiler.Source.Scan

/-!
# Positions in a text

An editor names a place by its line and character, both counted from 0; lines end at line feeds, and
characters are bytes.
-/

namespace RegisterCompiler.Editor

structure Position where
  line : Nat
  character : Nat
deriving DecidableEq

def lines (text : Bytes) : List Bytes :=
  Bytes.splitOn Bytes.lf text

/-- The line of a place, before and after the cursor. A character past the end of the line is taken
for the end. -/
def lineAround (text : Bytes) (pos : Position) : Option (Bytes × Bytes) :=
  ((lines text)[pos.line]?).map fun line => (line.take pos.character, line.drop pos.character)

def wordEnding (s : Bytes) : Bytes :=
  (s.reverse.takeWhile isNameByte).reverse

def wordBefore (text : Bytes) (pos : Position) : Bytes :=
  match lineAround text pos with
  | some (before, _) => wordEnding before
  | none => []

def wordAround (text : Bytes) (pos : Position) : Bytes :=
  match lineAround text pos with
  | some (before, after) => wordEnding before ++ after.takeWhile isNameByte
  | none => []

end RegisterCompiler.Editor
