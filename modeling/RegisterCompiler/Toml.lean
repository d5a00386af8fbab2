import RegisterCompiler.Number

/-!
# TOML documents
-/

namespace RegisterCompiler

inductive Toml where
  | string (s : Bytes)
  | integer (n : Int)
  | float (x : Number)
  | boolean (b : Bool)
  | dateTime (text : Bytes)
  | array (items : List Toml)
  | table (entries : List (Bytes × Toml))
  | tables (items : List (List (Bytes × Toml)))

namespace Toml

abbrev Table := List (Bytes × Toml)

abbrev Key := List Bytes

namespace Table

def get? (t : Table) (name : Bytes) : Option Toml :=
  t.lookup name

def set (t : Table) (name : Bytes) (value : Toml) : Table :=
  match t with
  | [] => [(name, value)]
  | (n, v) :: rest => if n == name then (n, value) :: rest else (n, v) :: Table.set rest name value

end Table

/-! ## Text -/

def isBare (c : UInt8) : Bool :=
  Bytes.isLetter c || Bytes.isDigit c || c == 95 || c == 45

/-- A byte of a string between quotes: quotes, backslashes and control characters are escaped. -/
def escaped (c : UInt8) : Bytes :=
  match c.toNat with
  | 8 => bytes "\\b"
  | 9 => bytes "\\t"
  | 10 => bytes "\\n"
  | 12 => bytes "\\f"
  | 13 => bytes "\\r"
  | 34 => bytes "\\\""
  | 92 => bytes "\\\\"
  | n => if n < 32 || n == 127 then bytes "\\u" ++ Bytes.hexDigits 4 n else [c]

def quoted (s : Bytes) : Bytes :=
  bytes "\"" ++ s.flatMap escaped ++ bytes "\""

def nameText (name : Bytes) : Bytes :=
  if !name.isEmpty && name.all isBare then name else quoted name

def Key.text (k : Key) : Bytes :=
  Bytes.intercalate (bytes ".") (k.map nameText)

/-! ## Case -/

/-- The name in lower case. Two characters outside ASCII have a lower case in it: the long s and the
Kelvin sign. -/
def lowered : Bytes → Bytes
  | 0xc5 :: 0xbf :: s => 115 :: lowered s
  | 0xe2 :: 0x84 :: 0xaa :: s => 107 :: lowered s
  | c :: s => (if 65 ≤ c.toNat && c.toNat ≤ 90 then c + 32 else c) :: lowered s
  | [] => []

def sameName (a b : Bytes) : Bool :=
  lowered a == lowered b

end Toml

end RegisterCompiler
