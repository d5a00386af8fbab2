/-!
# Byte strings

Source text, names, messages and file contents are byte strings: nothing in the library
assumes that they are valid UTF-8. They are lists, so that scanners recurse on them directly.
-/

namespace RegisterCompiler

abbrev Bytes := List UInt8

/-- The UTF-8 bytes of `s`. -/
def bytes (s : String) : Bytes :=
  s.toList.flatMap String.utf8EncodeChar

namespace Bytes

def ofNat (n : Nat) : Bytes :=
  (Nat.toDigits 10 n).map (·.toUInt8)

def ofInt (n : Int) : Bytes :=
  if n < 0 then bytes "-" ++ ofNat n.natAbs else ofNat n.natAbs

def zeroPad (width : Nat) (s : Bytes) : Bytes :=
  List.replicate (width - s.length) '0'.toUInt8 ++ s

def padRight (width : Nat) (s : Bytes) : Bytes :=
  s ++ List.replicate (width - s.length) ' '.toUInt8

/-- The lower-case hexadecimal digit of `n < 16`. -/
def hexDigit (n : Nat) : UInt8 :=
  if n < 10 then UInt8.ofNat (48 + n) else UInt8.ofNat (87 + n)

def hexDigits : (width : Nat) → (n : Nat) → Bytes
  | 0, _ => []
  | w + 1, n => hexDigits w (n / 16) ++ [hexDigit (n % 16)]

def hex (s : Bytes) : Bytes :=
  s.flatMap fun b => hexDigits 2 b.toNat

def bigEndian : (n : Nat) → (x : Nat) → Bytes
  | 0, _ => []
  | n + 1, x => bigEndian n (x / 256) ++ [UInt8.ofNat x]

def ofBigEndian (s : Bytes) : Nat :=
  s.foldl (fun n b => n * 256 + b.toNat) 0

def hexValue? (c : UInt8) : Option Nat :=
  let n := c.toNat
  if 48 ≤ n ∧ n ≤ 57 then some (n - 48)
  else if 97 ≤ n ∧ n ≤ 102 then some (n - 87)
  else if 65 ≤ n ∧ n ≤ 70 then some (n - 55)
  else none

def isLetter (c : UInt8) : Bool :=
  let n := c.toNat
  (97 ≤ n && n ≤ 122) || (65 ≤ n && n ≤ 90)

def isDigit (c : UInt8) : Bool :=
  let n := c.toNat
  48 ≤ n && n ≤ 57

abbrev lf : UInt8 := 10

abbrev cr : UInt8 := 13

/-- The pieces of `s` between the separators `sep`: one more than there are separators. -/
def splitOn (sep : UInt8) : Bytes → List Bytes
  | [] => [[]]
  | c :: cs =>
    if c == sep then [] :: splitOn sep cs
    else
      match splitOn sep cs with
      | [] => [[c]]
      | p :: ps => (c :: p) :: ps

def intercalate (sep : Bytes) : List Bytes → Bytes
  | [] => []
  | [p] => p
  | p :: ps => p ++ sep ++ intercalate sep ps

def startsWith (s lead : Bytes) : Bool :=
  lead.isPrefixOf s

def endsWith (s tail : Bytes) : Bool :=
  tail.isSuffixOf s

def le : Bytes → Bytes → Bool
  | [], _ => true
  | _ :: _, [] => false
  | a :: as, b :: bs => if a < b then true else if b < a then false else le as bs

end Bytes

end RegisterCompiler
