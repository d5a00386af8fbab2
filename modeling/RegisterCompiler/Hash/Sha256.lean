import RegisterCompiler.Bytes

/-!
# SHA-256

The message, padded to whole blocks of 64 bytes, changes a state of eight words block by block.
-/

namespace RegisterCompiler

namespace Sha256

/-- The round constants: the first 32 bits of the fractional parts of the cube roots of the first 64
primes. -/
def roundConstants : Array UInt32 := #[
  0x428a2f98, 0x71374491, 0xb5c0fbcf, 0xe9b5dba5, 0x3956c25b, 0x59f111f1, 0x923f82a4, 0xab1c5ed5,
  0xd807aa98, 0x12835b01, 0x243185be, 0x550c7dc3, 0x72be5d74, 0x80deb1fe, 0x9bdc06a7, 0xc19bf174,
  0xe49b69c1, 0xefbe4786, 0x0fc19dc6, 0x240ca1cc, 0x2de92c6f, 0x4a7484aa, 0x5cb0a9dc, 0x76f988da,
  0x983e5152, 0xa831c66d, 0xb00327c8, 0xbf597fc7, 0xc6e00bf3, 0xd5a79147, 0x06ca6351, 0x14292967,
  0x27b70a85, 0x2e1b2138, 0x4d2c6dfc, 0x53380d13, 0x650a7354, 0x766a0abb, 0x81c2c92e, 0x92722c85,
  0xa2bfe8a1, 0xa81a664b, 0xc24b8b70, 0xc76c51a3, 0xd192e819, 0xd6990624, 0xf40e3585, 0x106aa070,
  0x19a4c116, 0x1e376c08, 0x2748774c, 0x34b0bcb5, 0x391c0cb3, 0x4ed8aa4a, 0x5b9cca4f, 0x682e6ff3,
  0x748f82ee, 0x78a5636f, 0x84c87814, 0x8cc70208, 0x90befffa, 0xa4506ceb, 0xbef9a3f7, 0xc67178f2]

structure State where
  a : UInt32
  b : UInt32
  c : UInt32
  d : UInt32
  e : UInt32
  f : UInt32
  g : UInt32
  h : UInt32

/-- The state at the start: the first 32 bits of the fractional parts of the square roots of the
first eight primes. -/
def State.initial : State :=
  ⟨0x6a09e667, 0xbb67ae85, 0x3c6ef372, 0xa54ff53a, 0x510e527f, 0x9b05688c, 0x1f83d9ab, 0x5be0cd19⟩

def State.add (s t : State) : State :=
  ⟨s.a + t.a, s.b + t.b, s.c + t.c, s.d + t.d, s.e + t.e, s.f + t.f, s.g + t.g, s.h + t.h⟩

/-- Rotates a word to the right by `n` bits, `n` between 1 and 31. -/
def rotate (x n : UInt32) : UInt32 :=
  (x >>> n) ||| (x <<< (32 - n))

/-- The message, a bit 1, zeros up to eight bytes before the end of a block, and the message's length
in bits. -/
def pad (s : Bytes) : Bytes :=
  let zeros := (119 - s.length % 64) % 64
  s ++ 0x80 :: List.replicate zeros 0 ++ Bytes.bigEndian 8 (s.length * 8)

def words : Bytes → (acc : Array UInt32) → Array UInt32
  | a :: b :: c :: d :: rest, acc =>
    words rest (acc.push ((a.toUInt32 <<< 24) ||| (b.toUInt32 <<< 16) ||| (c.toUInt32 <<< 8) ||| d.toUInt32))
  | _, acc => acc

def extend : (n : Nat) → (w : Array UInt32) → Array UInt32
  | 0, w => w
  | n + 1, w =>
    let back (k : Nat) : UInt32 := w[w.size - k]?.getD 0
    let x := back 15
    let y := back 2
    let s₀ := rotate x 7 ^^^ rotate x 18 ^^^ (x >>> 3)
    let s₁ := rotate y 17 ^^^ rotate y 19 ^^^ (y >>> 10)
    extend n (w.push (back 16 + s₀ + back 7 + s₁))

/-- The 64 words of a block, which has 64 bytes. -/
def schedule (block : Bytes) : Array UInt32 :=
  extend 48 (words block #[])

def round (s : State) (k w : UInt32) : State :=
  let s₁ := rotate s.e 6 ^^^ rotate s.e 11 ^^^ rotate s.e 25
  let choice := (s.e &&& s.f) ^^^ ((~~~s.e) &&& s.g)
  let t₁ := s.h + s₁ + choice + k + w
  let s₀ := rotate s.a 2 ^^^ rotate s.a 13 ^^^ rotate s.a 22
  let majority := (s.a &&& s.b) ^^^ (s.a &&& s.c) ^^^ (s.b &&& s.c)
  ⟨t₁ + (s₀ + majority), s.a, s.b, s.c, s.d + t₁, s.e, s.f, s.g⟩

/-- Rounds `i` to `i + n - 1`. -/
def rounds (w : Array UInt32) : (n : Nat) → (i : Nat) → State → State
  | 0, _, s => s
  | n + 1, i, s => rounds w n (i + 1) (round s (roundConstants[i]?.getD 0) (w[i]?.getD 0))

def compress (s : State) (block : Bytes) : State :=
  s.add (rounds (schedule block) 64 0 s)

def compressAll : (n : Nat) → State → Bytes → State
  | 0, s, _ => s
  | n + 1, s, rest => compressAll n (compress s (rest.take 64)) (rest.drop 64)

def State.toBytes (s : State) : Bytes :=
  [s.a, s.b, s.c, s.d, s.e, s.f, s.g, s.h].flatMap fun w => Bytes.bigEndian 4 w.toNat

end Sha256

/-- The SHA-256 digest of a text: 32 bytes. -/
def sha256 (s : Bytes) : Bytes :=
  let padded := Sha256.pad s
  (Sha256.compressAll (padded.length / 64) .initial padded).toBytes

end RegisterCompiler
