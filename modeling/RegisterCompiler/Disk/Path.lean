import RegisterCompiler.Bytes

/-!
# Paths

Paths are byte strings whose parts are separated by slashes. The functions here look at the text
alone.
-/

namespace RegisterCompiler.Path

def slash : UInt8 := 47

def here : Bytes := bytes "."

def up : Bytes := bytes ".."

def isAbsolute (path : Bytes) : Bool :=
  path.head? == some slash

/-- The parts that remain, deepest first, when `parts` are followed one after the other. Going up
undoes a step down; above the root there is nothing. -/
def follow (rooted : Bool) (parts : List Bytes) : List Bytes :=
  parts.foldl (fun done part =>
    if part.isEmpty || part == here then done
    else if part == up then
      match done with
      | [] => if rooted then [] else [up]
      | last :: rest => if last == up then up :: done else rest
    else part :: done) []

def parts (path : Bytes) : List Bytes :=
  (follow (isAbsolute path) (Bytes.splitOn slash path)).reverse

/-- The path with these parts; the relative path without parts is written as a dot. -/
def ofParts (rooted : Bool) (ps : List Bytes) : Bytes :=
  let text := Bytes.intercalate [slash] ps
  if rooted then slash :: text
  else if text.isEmpty then here
  else text

def clean (path : Bytes) : Bytes :=
  ofParts (isAbsolute path) (parts path)

def join (elements : List Bytes) : Bytes :=
  match elements.filter (!·.isEmpty) with
  | [] => []
  | es => clean (Bytes.intercalate [slash] es)

def lastPart (path : Bytes) : Bytes :=
  (path.reverse.takeWhile (· != slash)).reverse

def base (path : Bytes) : Bytes :=
  if path.isEmpty then here
  else
    match (path.reverse.dropWhile (· == slash)).reverse with
    | [] => [slash]
    | p => lastPart p

def dir (path : Bytes) : Bytes :=
  clean (path.reverse.dropWhile (· != slash)).reverse

def ext (path : Bytes) : Bytes :=
  let part := (lastPart path).reverse
  if part.contains 46 then 46 :: (part.takeWhile (· != 46)).reverse else []

def stem (path : Bytes) : Bytes :=
  path.take (path.length - (ext path).length)

def dropCommon : (ps qs : List Bytes) → List Bytes × List Bytes
  | p :: ps, q :: qs => if p == q then dropCommon ps qs else (p :: ps, q :: qs)
  | ps, qs => (ps, qs)

/-- How `path` is reached from `start`. There is no answer if one of them is absolute and the other
is not, or if `start` starts above the place that both have in common. -/
def relative? (start path : Bytes) : Option Bytes :=
  if isAbsolute start != isAbsolute path then none
  else
    let (ups, downs) := dropCommon (parts start) (parts path)
    if ups.head? == some up then none
    else some (ofParts false (ups.map (fun _ => up) ++ downs))

def below? (dir path : Bytes) : Option Bytes :=
  (relative? dir path).filter (!·.startsWith up)

end RegisterCompiler.Path
