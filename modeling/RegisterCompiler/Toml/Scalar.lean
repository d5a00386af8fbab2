import RegisterCompiler.Source.Numeral
import RegisterCompiler.Text.Utf8
import RegisterCompiler.Toml
import RegisterCompiler.Toml.DateTime

/-!
# Strings, numbers, dates

What a value that holds no other values is, at the front of a text. All functions give the value and
what follows it, or nothing if there is no such value.
-/

namespace RegisterCompiler.Toml

def isBlank (c : UInt8) : Bool :=
  c == 32 || c == 9

def isBreak (c : UInt8) : Bool :=
  c == Bytes.lf || c == Bytes.cr

/-! ## Strings -/

/-- The code point that the first `n` bytes write with hexadecimal digits, and what follows. -/
def codePoint? (n : Nat) (s : Bytes) : Option (Bytes × Bytes) := do
  let ds ← (s.take n).mapM Bytes.hexValue?
  let c := ds.foldl (fun x d => x * 16 + d) 0
  guard (ds.length = n ∧ c ≤ 0x10ffff ∧ ¬ (0xd800 ≤ c ∧ c ≤ 0xdfff))
  return (Utf8.encode c, s.drop n)

def escape? (s : Bytes) : Option (Bytes × Bytes) :=
  match s with
  | [] => none
  | c :: s =>
    match Char.ofNat c.toNat with
    | 'b' => some ([8], s)
    | 't' => some ([9], s)
    | 'n' => some ([10], s)
    | 'f' => some ([12], s)
    | 'r' => some ([13], s)
    | 'e' => some ([27], s)
    | '"' => some ([34], s)
    | '\\' => some ([92], s)
    | 'x' => codePoint? 2 s
    | 'u' => codePoint? 4 s
    | 'U' => codePoint? 8 s
    | _ => none

def lineString (quote : UInt8) (escapes : Bool) :
    (fuel : Nat) → (s done : Bytes) → Option (Bytes × Bytes)
  | 0, _, _ => none
  | _, [], _ => none
  | k + 1, c :: s, done =>
    if c == quote then some (done.reverse, s)
    else if isBreak c then none
    else if escapes && c == 92 then
      (escape? s).bind fun (t, s) => lineString quote escapes k s (t.reverse ++ done)
    else lineString quote escapes k s (c :: done)

/-- The rest of a string over several lines, up to three quotes. One or two more quotes right before
these belong to the string, and even three right after an escaped backslash: `most` is the greatest
number of quotes that may come next. A backslash at the end of a line takes the space up to the next
text with it. -/
def longString (quote : UInt8) (escapes : Bool) :
    (fuel most : Nat) → (s done : Bytes) → Option (Bytes × Bytes)
  | 0, _, _, _ => none
  | _, _, [], _ => none
  | k + 1, most, c :: s, done =>
    if c == quote then
      let n := ((c :: s).takeWhile (· == quote)).length
      let rest := (c :: s).drop n
      if n < 3 then longString quote escapes k 5 rest (List.replicate n quote ++ done)
      else if n ≤ most then some ((List.replicate (n - 3) quote ++ done).reverse, rest)
      else none
    else if escapes && c == 92 then
      let space := s.takeWhile fun c => isBlank c || isBreak c
      if space.contains Bytes.lf then longString quote escapes k 5 (s.drop space.length) done
      else
        (escape? s).bind fun (t, rest) =>
          longString quote escapes k (if s.head? == some 92 then 6 else 5) rest (t.reverse ++ done)
    else longString quote escapes k 5 s (c :: done)

def dropBreak : Bytes → Bytes
  | 10 :: s => s
  | 13 :: 10 :: s => s
  | s => s

def shortString? (s : Bytes) : Option (Bytes × Bytes) :=
  match s with
  | 34 :: s => lineString 34 true (s.length + 1) s []
  | 39 :: s => lineString 39 false (s.length + 1) s []
  | _ => none

def string? (s : Bytes) : Option (Bytes × Bytes) :=
  match s with
  | 34 :: 34 :: 34 :: s => longString 34 true (s.length + 1) 5 (dropBreak s) []
  | 39 :: 39 :: 39 :: s => longString 39 false (s.length + 1) 5 (dropBreak s) []
  | s => shortString? s

/-! ## Numbers -/

/-- Every underscore stands after a digit, and the last byte is a digit; `afterDigit` tells whether
one stands before `s`. -/
def underscoresFit : (afterDigit : Bool) → Bytes → Bool
  | afterDigit, [] => afterDigit
  | afterDigit, c :: s =>
    if c == 95 && !afterDigit then false else underscoresFit (Bytes.hexValue? c).isSome s

def hasLeadingZero (s : Bytes) : Bool :=
  match s with
  | 48 :: c :: _ => c != 98 && c != 111 && c != 120
  | c :: 48 :: _ :: _ => c == 43 || c == 45
  | _ => false

def inBase (base : Nat) (s : Bytes) : Nat :=
  (s.filterMap Bytes.hexValue?).foldl (fun x d => x * base + d) 0

/-- The integer that a text writes, if it fits 64 bits. -/
def integer? (s : Bytes) : Option Toml := do
  guard (underscoresFit false s && !hasLeadingZero s)
  let n : Int :=
    match s with
    | 48 :: 120 :: ds => inBase 16 ds
    | 48 :: 111 :: ds => inBase 8 ds
    | 48 :: 98 :: ds => inBase 2 ds
    | 45 :: ds => -inBase 10 ds
    | ds => inBase 10 ds
  guard (-0x8000000000000000 ≤ n ∧ n ≤ 0x7fffffffffffffff)
  return .integer n

def isExponentMark (c : UInt8) : Bool :=
  c == 101 || c == 69

/-- A digit follows every point; `afterPoint` tells whether one stands before `s`. -/
def pointsFit : (afterPoint : Bool) → Bytes → Bool
  | afterPoint, [] => !afterPoint
  | afterPoint, c :: s => (!afterPoint || Bytes.isDigit c) && pointsFit (c == 46) s

/-- The float that a text writes, if it is finite. Underscores stand between digits of its parts. -/
def float? (s : Bytes) : Option Toml := do
  let parts := (Bytes.splitOn 46 (s.map fun c => if isExponentMark c then 46 else c)).filter
    (!·.isEmpty)
  guard (parts.all (underscoresFit false))
  guard (!hasLeadingZero (parts.headD []) && pointsFit false s)
  let (sign, body) := splitSign (s.filter (· != 95))
  let x ← decimalNumeral? body
  guard (x.bits ≠ Number.infinity.bits)
  return .float (if sign then ⟨x.bits ||| 0x8000000000000000⟩ else x)

def isFloatByte (c : UInt8) : Bool :=
  Bytes.isDigit c || [95, 46, 45, 43, 101, 69].contains c

def isDateByte (c : UInt8) : Bool :=
  Bytes.isDigit c || [45, 58, 84, 116, 32, 46, 90, 122, 43].contains c

def isDigitOf (base : Nat) (c : UInt8) : Bool :=
  (Bytes.hexValue? c).any (· < base)

def extend (s : Bytes) (n : Nat) (p : UInt8 → Bool) (value : Bytes → Option Toml) :
    Option (Toml × Bytes) :=
  let len := n + ((s.drop n).takeWhile p).length
  (value (s.take len)).map (·, s.drop len)

def ofDate? (s : Bytes) : Option Toml :=
  let s := (s.reverse.dropWhile (· == 32)).reverse
  if isDateTime s then some (.dateTime s) else none

def decimal? (s : Bytes) (n : Nat) : Option (Toml × Bytes) :=
  let len := n + ((s.drop n).takeWhile fun c => Bytes.isDigit c || c == 95).length
  match s[len]? with
  | some c =>
    if c == 46 || isExponentMark c then extend s (len + 1) isFloatByte float?
    else extend s len (fun _ => false) integer?
  | none => extend s len (fun _ => false) integer?

def based? (base : Nat) (s : Bytes) : Option (Toml × Bytes) :=
  match s[2]? with
  | some c =>
    if isDigitOf base c then extend s 2 (fun c => isDigitOf base c || c == 95) integer? else none
  | none => none

def fromDigit? (s : Bytes) : Option (Toml × Bytes) :=
  match s with
  | 48 :: 120 :: _ => based? 16 s
  | 48 :: 111 :: _ => based? 8 s
  | 48 :: 98 :: _ => based? 2 s
  | s =>
    let n := (s.takeWhile Bytes.isDigit).length
    match s[n]? with
    | some c =>
      if c == 45 || c == 58 then extend s n isDateByte ofDate? else decimal? s n
    | none => decimal? s n

def infinity (sign : Bool) : Toml :=
  .float (if sign then ⟨Number.infinity.bits ||| 0x8000000000000000⟩ else Number.infinity)

def notNumber : Toml := .float ⟨0x7ff8000000000001⟩

def fromSign? (s : Bytes) : Option (Toml × Bytes) :=
  let (sign, body) := splitSign s
  if body.startsWith (bytes "inf") then some (infinity sign, body.drop 3)
  else if body.startsWith (bytes "nan") then some (notNumber, body.drop 3)
  else
    match body with
    | 48 :: 98 :: _ | 48 :: 111 :: _ | 48 :: 120 :: _ => none
    | c :: _ => if Bytes.isDigit c then decimal? s 1 else none
    | [] => none

def number? (s : Bytes) : Option (Toml × Bytes) :=
  match s with
  | 43 :: _ | 45 :: _ => fromSign? s
  | s => fromDigit? s

def word? (s : Bytes) : Option (Toml × Bytes) :=
  if s.startsWith (bytes "inf") then some (infinity false, s.drop 3)
  else if s.startsWith (bytes "nan") then some (notNumber, s.drop 3)
  else if s.startsWith (bytes "true") then some (.boolean true, s.drop 4)
  else if s.startsWith (bytes "false") then some (.boolean false, s.drop 5)
  else none

def scalar? (s : Bytes) : Option (Toml × Bytes) :=
  match s with
  | [] => none
  | c :: _ =>
    if c == 34 || c == 39 then (string? s).map fun (t, s) => (.string t, s)
    else if Bytes.isDigit c || c == 43 || c == 45 then number? s
    else word? s

end RegisterCompiler.Toml
