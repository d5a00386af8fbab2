import RegisterCompiler.Source.Numeral
import RegisterCompiler.Source.Token

/-!
# Reading tokens

A line break is a line feed or a carriage return, together with the other one of the two if that
follows. Loops that do not recurse on the text itself are bounded by the length of the source.
-/

namespace RegisterCompiler

structure Cursor where
  rest : Bytes
  offset : Nat
  line : Nat
  lineStart : Nat

def isBreak (b : UInt8) : Bool :=
  b == Bytes.lf || b == Bytes.cr

/-- The byte is a blank that is no line break: space, tab, vertical tab or form feed. -/
def isBlank (b : UInt8) : Bool :=
  b == 32 || b == 9 || b == 11 || b == 12

def isNameByte (b : UInt8) : Bool :=
  Bytes.isLetter b || Bytes.isDigit b || b == '_'.toUInt8

namespace Cursor

def skip (n : Nat) (c : Cursor) : Cursor :=
  { c with rest := c.rest.drop n, offset := c.offset + n }

/-- Past all bytes up to the first that fails `p`. None of them is a line break. -/
def skipWhile (p : UInt8 → Bool) (c : Cursor) : Cursor :=
  c.skip (c.rest.takeWhile p).length

def skipBreak (n : Nat) (c : Cursor) : Cursor :=
  { rest := c.rest.drop n, offset := c.offset + n, line := c.line + 1, lineStart := c.offset + n }

def at? (b : Char) (c : Cursor) : Bool :=
  c.rest.head? == some b.toUInt8

/-- The column of the next byte. At the end of the text it is the column of the last byte, or 1
after a line break. -/
def column (c : Cursor) : Nat :=
  if c.rest.isEmpty then
    if c.lineStart < c.offset then c.offset - c.lineStart else if c.line = 1 then 0 else 1
  else c.offset - c.lineStart + 1

def position (c : Cursor) : Position :=
  ⟨c.offset, c.line, c.column⟩

def upTo (c stop : Cursor) : Bytes :=
  c.rest.take (stop.offset - c.offset)

def plain (c stop : Cursor) (kind : Token.Kind) : Token × Cursor :=
  (⟨kind, kind.text, c.upTo stop, .zero, c.position⟩, stop)

def faulty (c stop : Cursor) (cause : ScanFault) : Token × Cursor :=
  (⟨.fault cause, cause.message, c.upTo stop, .zero, c.position⟩, stop)

end Cursor

/-- The length of the line break that comes next, 0 if none does. -/
def breakLength : Bytes → Nat
  | a :: b :: _ => if isBreak a then (if isBreak b && a != b then 2 else 1) else 0
  | [a] => if isBreak a then 1 else 0
  | [] => 0

/-! ## Long brackets -/

inductive Opening where
  | long (level : Nat)
  | lone
  | broken (level : Nat)

def opening (c : Cursor) : Opening :=
  let level := ((c.rest.drop 1).takeWhile (· == '='.toUInt8)).length
  if (c.rest.drop (1 + level)).head? == some '['.toUInt8 then .long level
  else if level == 0 then .lone
  else .broken level

/-- A string as it was read: its contents, where reading stopped, and whether it was closed. -/
structure LongText where
  text : Bytes
  stop : Cursor
  closed : Bool

/-- Reads up to the first closing bracket, whose part after the first byte is `closer`. Contents are
gathered in reverse; a line break counts as a line feed. -/
def longBody (closer : Bytes) : (rest : Bytes) → (offset line lineStart : Nat) → (acc : Bytes) → LongText
  | [], offset, line, lineStart, acc => ⟨acc.reverse, ⟨[], offset, line, lineStart⟩, false⟩
  | b :: r, offset, line, lineStart, acc =>
    if b == ']'.toUInt8 && closer.isPrefixOf r then
      let n := closer.length
      ⟨acc.reverse, ⟨r.drop n, offset + 1 + n, line, lineStart⟩, true⟩
    else if isBreak b then
      match r with
      | d :: r' =>
        if isBreak d && d != b then
          longBody closer r' (offset + 2) (line + 1) (offset + 2) (Bytes.lf :: acc)
        else longBody closer (d :: r') (offset + 1) (line + 1) (offset + 1) (Bytes.lf :: acc)
      | [] => ⟨(Bytes.lf :: acc).reverse, ⟨[], offset + 1, line + 1, offset + 1⟩, false⟩
    else longBody closer r (offset + 1) line lineStart (b :: acc)

/-- Reads the contents of a long bracket; `c` stands after the opening one. A line break right there
is left out. -/
def longText (level : Nat) (c : Cursor) : LongText :=
  let n := breakLength c.rest
  let c := if n = 0 then c else c.skipBreak n
  longBody (List.replicate level '='.toUInt8 ++ [']'.toUInt8]) c.rest c.offset c.line c.lineStart []

/-! ## Blanks and comments -/

/-- The cursor past a comment that starts at `c`, or where an unfinished one ends. -/
def skipComment (c : Cursor) : Except Cursor Cursor :=
  let inner := c.skip 2
  let lineEnd := inner.skipWhile fun b => !isBreak b
  if inner.at? '[' then
    match opening inner with
    | .long level =>
      let body := longText level (inner.skip (level + 2))
      if body.closed then .ok body.stop else .error body.stop
    | _ => .ok lineEnd
  else .ok lineEnd

/-- Past blanks, line breaks and comments. The error is an unfinished comment: where it starts and
where it ends. -/
def skipBlank : (fuel : Nat) → Cursor → Except (Cursor × Cursor) Cursor
  | 0, c => .ok c
  | k + 1, c =>
    match c.rest with
    | [] => .ok c
    | b :: r =>
      if isBreak b then skipBlank k (c.skipBreak (breakLength (b :: r)))
      else if isBlank b then skipBlank k (c.skip 1)
      else if b == '-'.toUInt8 && r.head? == some '-'.toUInt8 then
        match skipComment c with
        | .ok c' => skipBlank k c'
        | .error stop => .error (c, stop)
      else .ok c

/-! ## Quoted strings -/

def escapedByte? (b : UInt8) : Option UInt8 :=
  match Char.ofUInt8 b with
  | 'a' => some 7
  | 'b' => some 8
  | 'f' => some 12
  | 'n' => some 10
  | 'r' => some 13
  | 't' => some 9
  | 'v' => some 11
  | '\\' => some b
  | '"' => some b
  | '\'' => some b
  | _ => none

def skipSpace : (rest : Bytes) → (offset line lineStart : Nat) → Cursor
  | [], offset, line, lineStart => ⟨[], offset, line, lineStart⟩
  | b :: r, offset, line, lineStart =>
    if isBreak b then
      match r with
      | d :: r' =>
        if isBreak d && d != b then skipSpace r' (offset + 2) (line + 1) (offset + 2)
        else skipSpace (d :: r') (offset + 1) (line + 1) (offset + 1)
      | [] => ⟨[], offset + 1, line + 1, offset + 1⟩
    else if isBlank b then skipSpace r (offset + 1) line lineStart
    else ⟨b :: r, offset, line, lineStart⟩

/-- The bytes that an escape stands for; `c` stands after the backslash. The error says where
reading stopped. -/
def scanEscape (c : Cursor) : Except (ScanFault × Cursor) (Bytes × Cursor) :=
  match c.rest with
  | [] => .error (.unfinishedString, c)
  | b :: r =>
    match escapedByte? b with
    | some e => .ok ([e], c.skip 1)
    | none =>
      if isBreak b then .ok ([Bytes.lf], c.skipBreak (breakLength (b :: r)))
      else if b == 'x'.toUInt8 then
        match r.head?.bind Bytes.hexValue? with
        | none => .error (.hexDigitExpected, c.skip 1)
        | some d₁ =>
          match (r.drop 1).head?.bind Bytes.hexValue? with
          | none => .error (.hexDigitExpected, c.skip 2)
          | some d₂ => .ok ([UInt8.ofNat (d₁ * 16 + d₂)], c.skip 3)
      else if b == 'z'.toUInt8 then
        .ok ([], skipSpace r (c.offset + 1) c.line c.lineStart)
      else if Bytes.isDigit b then
        let ds := ((b :: r).take 3).takeWhile Bytes.isDigit
        let v := digitsValue ds
        if v > 255 then .error (.escapeTooLarge, c.skip ds.length)
        else .ok ([UInt8.ofNat v], c.skip ds.length)
      else .error (.invalidEscape, c)

/-- Reads the contents of a string up to the quote `delim`, gathered in reverse. The error says where
reading stopped. -/
def quotedText (delim : UInt8) : (fuel : Nat) → Cursor → (acc : Bytes) →
    Except (ScanFault × Cursor) (Bytes × Cursor)
  | 0, c, _ => .error (.unfinishedString, c)
  | k + 1, c, acc =>
    match c.rest with
    | [] => .error (.unfinishedString, c)
    | b :: _ =>
      if b == delim then .ok (acc.reverse, c.skip 1)
      else if isBreak b then .error (.unfinishedString, c)
      else if b == '\\'.toUInt8 then
        match scanEscape (c.skip 1) with
        | .error e => .error e
        | .ok (s, c') => quotedText delim k c' (s.reverse ++ acc)
      else quotedText delim k (c.skip 1) (b :: acc)

/-! ## Tokens -/

/-- The numeral that starts at `c`. One that runs into a letter is malformed up to the end of the
name-like text. -/
def readNumeral (c : Cursor) : Token × Cursor :=
  let isHex :=
    match c.rest with
    | 48 :: x :: _ => x == 'x'.toUInt8 || x == 'X'.toUInt8
    | _ => false
  let n := if isHex then 2 + numeralLength 'p' 'P' (c.rest.drop 2) else numeralLength 'e' 'E' c.rest
  let stop := c.skip n
  let runsOn :=
    match stop.rest with
    | b :: _ => Bytes.isLetter b || b == '_'.toUInt8
    | [] => false
  if runsOn then c.faulty (stop.skipWhile isNameByte) .malformedNumber
  else
    match numeral? (c.upTo stop) with
    | none => c.faulty stop .malformedNumber
    | some x => (⟨.number, Token.Kind.number.text, c.upTo stop, x, c.position⟩, stop)

def scanName (c : Cursor) : Token × Cursor :=
  let stop := c.skipWhile isNameByte
  let name := c.upTo stop
  match Word.ofBytes? name with
  | some w => c.plain stop (.word w)
  | none => (⟨.name, name, name, .zero, c.position⟩, stop)

def readBracket (c : Cursor) : Token × Cursor :=
  match opening c with
  | .long level =>
    let body := longText level (c.skip (level + 2))
    if body.closed then
      (⟨.string, body.text, c.upTo body.stop, .zero, c.position⟩, body.stop)
    else c.faulty body.stop .unfinishedLongString
  | .lone => c.plain (c.skip 1) (.symbol .leftBracket)
  | .broken level => c.faulty (c.skip (level + 1)) .invalidDelimiter

/-- The token that starts at `c`, where byte `b` comes next and neither a blank nor a comment
starts. -/
def readToken (fuel : Nat) (b : UInt8) (c : Cursor) : Token × Cursor :=
  let one (s : Symbol) := c.plain (c.skip 1) (.symbol s)
  let oneOrTwo (second : Char) (s₁ s₂ : Symbol) :=
    if (c.skip 1).at? second then c.plain (c.skip 2) (.symbol s₂) else one s₁
  match Char.ofUInt8 b with
  | '+' => one .plus
  | '-' => one .minus
  | '*' => one .star
  | '/' => one .slash
  | '%' => one .percent
  | '^' => one .caret
  | '#' => one .hash
  | '(' => one .leftParen
  | ')' => one .rightParen
  | '{' => one .leftBrace
  | '}' => one .rightBrace
  | ']' => one .rightBracket
  | ';' => one .semicolon
  | ',' => one .comma
  | '=' => oneOrTwo '=' .assign .equal
  | '<' => oneOrTwo '=' .less .lessEqual
  | '>' => oneOrTwo '=' .greater .greaterEqual
  | ':' => oneOrTwo ':' .colon .doubleColon
  | '~' =>
    if (c.skip 1).at? '=' then c.plain (c.skip 2) (.symbol .notEqual)
    else c.faulty (c.skip 1) .unexpectedSymbol
  | '[' => readBracket c
  | '.' =>
    if (c.skip 1).at? '.' then
      if (c.skip 2).at? '.' then c.plain (c.skip 3) (.symbol .dots)
      else c.plain (c.skip 2) (.symbol .concat)
    else if ((c.skip 1).rest.head?.map Bytes.isDigit).getD false then readNumeral c
    else one .dot
  | ch =>
    if ch = '"' ∨ ch = '\'' then
      match quotedText b fuel (c.skip 1) [] with
      | .ok (s, stop) => (⟨.string, s, c.upTo stop, .zero, c.position⟩, stop)
      | .error (cause, stop) => c.faulty stop cause
    else if Bytes.isDigit b then readNumeral c
    else if Bytes.isLetter b || b == '_'.toUInt8 then scanName c
    else c.faulty (c.skip 1) .unexpectedSymbol

/-- The next token and the text after it. At the end of the text this is the end token again and
again. -/
def Cursor.next (fuel : Nat) (c : Cursor) : Token × Cursor :=
  match skipBlank fuel c with
  | .error (start, stop) => start.faulty stop .unfinishedLongComment
  | .ok c =>
    match c.rest with
    | [] => (⟨.eof, Token.Kind.eof.text, [], .zero, c.position⟩, c)
    | b :: _ => readToken fuel b c

/-- The start of a source. A first line that begins with `#` is not part of the program. -/
def Cursor.start (source : Bytes) : Cursor :=
  let c : Cursor := ⟨source, 0, 1, 0⟩
  if c.at? '#' then c.skipWhile (· != Bytes.lf) else c

/-- At most `count` tokens from `c` on, the last of which is the end token, or the first fault if
`stopAtFault`; with the cursor after them. Tokens are gathered in reverse. -/
def scanFrom (fuel : Nat) (stopAtFault : Bool) : (count : Nat) → Cursor → List Token →
    List Token × Cursor
  | 0, c, acc => (acc.reverse, c)
  | k + 1, c, acc =>
    let (t, c') := c.next fuel
    match t.kind with
    | .eof => ((t :: acc).reverse, c')
    | .fault _ =>
      if stopAtFault then ((t :: acc).reverse, c') else scanFrom fuel stopAtFault k c' (t :: acc)
    | _ => scanFrom fuel stopAtFault k c' (t :: acc)

/-- The tokens of a source up to its end, or up to the first fault if `stopAtFault`, and the cursor
after them. No source has more tokens than bytes, so the bound is never reached. -/
def scanAll (stopAtFault : Bool) (source : Bytes) : List Token × Cursor :=
  let n := source.length
  scanFrom (n + 1) stopAtFault (n + 10) (Cursor.start source) []

def scan (source : Bytes) : List Token :=
  (scanAll true source).1

end RegisterCompiler
