import RegisterCompiler.Number.Binary

/-!
# CBOR

The data items of the concise binary object representation, and their canonical encoding: lengths and
integers take as few bytes as possible, numbers the shortest format that holds them exactly.
-/

namespace RegisterCompiler

inductive Cbor where
  | uint (n : Nat)
  /-- `-1 - n`. -/
  | negative (n : Nat)
  | blob (s : Bytes)
  | text (s : Bytes)
  /-- A text that is not UTF-8, which may stand only where nobody reads it. -/
  | badText
  | array (items : List Cbor)
  | map (pairs : List (Cbor × Cbor))
  | tag (n : Nat) (content : Cbor)
  /-- 20 is false, 21 true, 22 null, and 23 undefined. -/
  | simple (n : Nat)
  | float (x : Number)

namespace Cbor

def ofInt (n : Int) : Cbor :=
  if n < 0 then .negative (-1 - n).toNat else .uint n.toNat

def ofBool (b : Bool) : Cbor :=
  .simple (if b then 21 else 20)

def null : Cbor := .simple 22

def put (s : Bytes) (out : Array UInt8) : Array UInt8 :=
  s.foldl Array.push out

/-- Adds a head: the major type in three bits, and its argument in five bits or in the fewest bytes
after them. -/
def putHead (major n : Nat) (out : Array UInt8) : Array UInt8 :=
  let first (k : Nat) : UInt8 := UInt8.ofNat (major * 32 + k)
  if n < 24 then out.push (first n)
  else if n < 0x100 then put (Bytes.bigEndian 1 n) (out.push (first 24))
  else if n < 0x10000 then put (Bytes.bigEndian 2 n) (out.push (first 25))
  else if n < 0x100000000 then put (Bytes.bigEndian 4 n) (out.push (first 26))
  else put (Bytes.bigEndian 8 n) (out.push (first 27))

def putNumber (x : Number) (out : Array UInt8) : Array UInt8 :=
  match x.narrowest with
  | .half n => put (Bytes.bigEndian 2 n) (out.push 0xf9)
  | .single n => put (Bytes.bigEndian 4 n) (out.push 0xfa)
  | .double n => put (Bytes.bigEndian 8 n) (out.push 0xfb)

mutual

def putItem : Cbor → Array UInt8 → Array UInt8
  | .uint n, out => putHead 0 n out
  | .negative n, out => putHead 1 n out
  | .blob s, out => put s (putHead 2 s.length out)
  | .text s, out => put s (putHead 3 s.length out)
  | .badText, out => putHead 3 0 out
  | .array items, out => putItems items (putHead 4 items.length out)
  | .map pairs, out => putPairs pairs (putHead 5 pairs.length out)
  | .tag n content, out => putItem content (putHead 6 n out)
  | .simple n, out => putHead 7 n out
  | .float x, out => putNumber x out

def putItems : List Cbor → Array UInt8 → Array UInt8
  | [], out => out
  | x :: rest, out => putItems rest (putItem x out)

def putPairs : List (Cbor × Cbor) → Array UInt8 → Array UInt8
  | [], out => out
  | p :: rest, out => putPairs rest (putPair p out)

def putPair : Cbor × Cbor → Array UInt8 → Array UInt8
  | (key, value), out => putItem value (putItem key out)

end

def encode (x : Cbor) : Bytes :=
  (putItem x #[]).toList

end Cbor

end RegisterCompiler
