import RegisterCompiler.Text.Printable
import RegisterCompiler.Text.Utf8

/-!
# Quoted text

`quoted s` shows a byte string between double quotes on one line. Printable characters stand for
themselves; the others are written as an escape that names the byte or the code point, so that a
reader can tell every two strings apart.
-/

namespace RegisterCompiler.Text

def shortEscape? (code : Nat) : Option Char :=
  match code with
  | 7 => some 'a'
  | 8 => some 'b'
  | 9 => some 't'
  | 10 => some 'n'
  | 11 => some 'v'
  | 12 => some 'f'
  | 13 => some 'r'
  | 34 => some '"'
  | 92 => some '\\'
  | _ => none

/-- A backslash, a letter, and the `width` low hexadecimal digits of `n`. -/
def numericEscape (letter : Char) (width n : Nat) : Bytes :=
  ['\\'.toUInt8, letter.toUInt8] ++ Bytes.hexDigits width n

def quotedCode (code : Nat) (raw : Bytes) : Bytes :=
  match shortEscape? code with
  | some c => ['\\'.toUInt8, c.toUInt8]
  | none =>
    if isPrintable code then raw
    else if code < 0x80 then numericEscape 'x' 2 code
    else if code < 0x10000 then numericEscape 'u' 4 code
    else numericEscape 'U' 8 code

/-- The shown pieces of `s`, latest first, put before `done`. A byte that starts no code point is
shown by itself. -/
def quotedPieces : (fuel : Nat) → (s : Bytes) → (done : List Bytes) → List Bytes
  | 0, _, done => done
  | _, [], done => done
  | k + 1, b :: s, done =>
    match Utf8.decode? (b :: s) with
    | some (code, w) =>
      quotedPieces k ((b :: s).drop w) (quotedCode code ((b :: s).take w) :: done)
    | none => quotedPieces k s (numericEscape 'x' 2 b.toNat :: done)

def quoted (s : Bytes) : Bytes :=
  bytes "\"" ++ (quotedPieces s.length s []).reverse.flatten ++ bytes "\""

end RegisterCompiler.Text
