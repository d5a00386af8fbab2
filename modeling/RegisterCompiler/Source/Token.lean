import RegisterCompiler.Number
import RegisterCompiler.Text.Quoted

/-!
# Tokens
-/

namespace RegisterCompiler

inductive Word where
  | kAnd | kBreak | kDo | kElse | kElseif | kEnd | kFalse | kFor | kFunction | kGoto | kIf | kIn
  | kLocal | kNil | kNot | kOr | kRepeat | kReturn | kThen | kTrue | kUntil | kWhile
deriving DecidableEq

namespace Word

def all : List (Word × Bytes) := [
  (.kAnd, bytes "and"), (.kBreak, bytes "break"), (.kDo, bytes "do"), (.kElse, bytes "else"),
  (.kElseif, bytes "elseif"), (.kEnd, bytes "end"), (.kFalse, bytes "false"), (.kFor, bytes "for"),
  (.kFunction, bytes "function"), (.kGoto, bytes "goto"), (.kIf, bytes "if"), (.kIn, bytes "in"),
  (.kLocal, bytes "local"), (.kNil, bytes "nil"), (.kNot, bytes "not"), (.kOr, bytes "or"),
  (.kRepeat, bytes "repeat"), (.kReturn, bytes "return"), (.kThen, bytes "then"),
  (.kTrue, bytes "true"), (.kUntil, bytes "until"), (.kWhile, bytes "while")]

def text (w : Word) : Bytes :=
  ((all.find? fun e => e.1 == w).map (·.2)).getD []

def ofBytes? (s : Bytes) : Option Word :=
  (all.find? fun e => e.2 == s).map (·.1)

end Word

def isKeyword (s : Bytes) : Bool :=
  (Word.ofBytes? s).isSome

def keywords : List Bytes :=
  Word.all.map (·.2)

inductive Symbol where
  | plus | minus | star | slash | percent | caret | hash | equal | notEqual | lessEqual
  | greaterEqual | less | greater | assign | concat | dots | doubleColon | leftParen | rightParen
  | leftBrace | rightBrace | leftBracket | rightBracket | semicolon | colon | comma | dot
deriving DecidableEq

namespace Symbol

def all : List (Symbol × Bytes) := [
  (.plus, bytes "+"), (.minus, bytes "-"), (.star, bytes "*"), (.slash, bytes "/"),
  (.percent, bytes "%"), (.caret, bytes "^"), (.hash, bytes "#"), (.equal, bytes "=="),
  (.notEqual, bytes "~="), (.lessEqual, bytes "<="), (.greaterEqual, bytes ">="),
  (.less, bytes "<"), (.greater, bytes ">"), (.assign, bytes "="), (.concat, bytes ".."),
  (.dots, bytes "..."), (.doubleColon, bytes "::"), (.leftParen, bytes "("),
  (.rightParen, bytes ")"), (.leftBrace, bytes "\x7b"), (.rightBrace, bytes "\x7d"),
  (.leftBracket, bytes "["), (.rightBracket, bytes "]"), (.semicolon, bytes ";"),
  (.colon, bytes ":"), (.comma, bytes ","), (.dot, bytes ".")]

def text (s : Symbol) : Bytes :=
  ((all.find? fun e => e.1 == s).map (·.2)).getD []

end Symbol

inductive ScanFault where
  | unexpectedSymbol
  | unfinishedLongString
  | invalidDelimiter
  | unfinishedString
  | hexDigitExpected
  | escapeTooLarge
  | invalidEscape
  | malformedNumber
  | unfinishedLongComment
deriving DecidableEq

def ScanFault.message : ScanFault → Bytes
  | .unexpectedSymbol => bytes "unexpected symbol"
  | .unfinishedLongString => bytes "unfinished long string"
  | .invalidDelimiter => bytes "invalid long string delimiter"
  | .unfinishedString => bytes "unfinished string"
  | .hexDigitExpected => bytes "hexadecimal digit expected"
  | .escapeTooLarge => bytes "decimal escape too large"
  | .invalidEscape => bytes "invalid escape sequence"
  | .malformedNumber => bytes "malformed number"
  | .unfinishedLongComment => bytes "unfinished long comment"

/-- A place in the source: byte offset from 0, line and column from 1. -/
structure Position where
  offset : Nat
  line : Nat
  column : Nat
deriving DecidableEq

inductive Token.Kind where
  | eof
  | fault (cause : ScanFault)
  | number
  | string
  | name
  | word (w : Word)
  | symbol (s : Symbol)
deriving DecidableEq

structure Token where
  kind : Token.Kind
  /-- A name, the contents of a string, the wording of a fault, or else the text of the kind. -/
  literal : Bytes
  raw : Bytes
  value : Number
  pos : Position

namespace Token

namespace Kind

/-- The number of a kind: special kinds, then literals, reserved words and symbols. -/
def code : Kind → Nat
  | .eof => 0
  | .fault _ => 1
  | .number => 2
  | .string => 3
  | .name => 4
  | .word w => 5 + w.ctorIdx
  | .symbol s => 27 + s.ctorIdx

def text : Kind → Bytes
  | .eof => bytes "<eof>"
  | .fault _ => bytes "<error>"
  | .number => bytes "<number>"
  | .string => bytes "<string>"
  | .name => bytes "<name>"
  | .word w => w.text
  | .symbol s => s.text

def names : List Bytes :=
  [bytes "<eof>", bytes "<error>", bytes "<number>", bytes "<string>", bytes "<name>"] ++
    Word.all.map (·.2) ++ Symbol.all.map (·.2)

def nameOfCode (n : Int) : Bytes :=
  match (if n < 0 then none else names[n.toNat]?) with
  | some s => s
  | none => bytes "Token(" ++ Bytes.ofInt n ++ bytes ")"

/-- A kind in messages: reserved words and symbols between quotes, classes of tokens without. -/
def quoted : Kind → Bytes
  | .word w => bytes "'" ++ w.text ++ bytes "'"
  | .symbol s => bytes "'" ++ s.text ++ bytes "'"
  | k => k.text

end Kind

def near (t : Token) : Bytes :=
  match t.kind with
  | .name | .string | .number | .fault _ => bytes "'" ++ t.raw ++ bytes "'"
  | k => k.quoted

def shownWidth : Nat := 20

/-- A token for inspection: the kind, and the quoted text of names and literals. -/
def text (t : Token) : Bytes :=
  match t.kind with
  | .fault cause => bytes "ERROR(" ++ cause.message ++ bytes ")"
  | .name | .string | .number =>
    t.kind.text ++ bytes "(" ++ Text.quoted (t.raw.take shownWidth) ++
      bytes (if t.raw.length > shownWidth then "...)" else ")")
  | k => k.text

end Token

end RegisterCompiler
