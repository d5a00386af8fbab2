import RegisterCompiler.Bytes

/-!
# Numbers

The language has one type of number, the IEEE double. A `Number` is its 64 bits, so that
equality is equality of bits: zero and minus zero differ, and a NaN equals itself.
-/

namespace RegisterCompiler

structure Number where
  bits : UInt64
deriving DecidableEq, Hashable

namespace Number

def ofFloat (x : Float) : Number :=
  ⟨x.toBits⟩

def toFloat (x : Number) : Float :=
  Float.ofBits x.bits

def zero : Number := ⟨0⟩

def ofInt (n : Int) : Number :=
  ofFloat (Float.ofInt n)

def infinity : Number := ⟨0x7ff0000000000000⟩

def negative (x : Number) : Bool :=
  x.bits.toNat / 0x8000000000000000 % 2 == 1

def exponentBits (x : Number) : Nat :=
  x.bits.toNat / 0x10000000000000 % 2048

def fractionBits (x : Number) : Nat :=
  x.bits.toNat % 0x10000000000000

inductive Shape where
  | nan
  | infinite
  | finite (mantissa : Nat) (exponent : Int)

/-- A finite number is `mantissa * 2 ^ exponent`; below the normal range the leading bit of the
mantissa is not implied. -/
def shape (x : Number) : Shape :=
  let e := x.exponentBits
  let f := x.fractionBits
  if e == 2047 then (if f == 0 then .infinite else .nan)
  else if e == 0 then .finite f (-1074)
  else .finite (f + 0x10000000000000) ((e : Int) - 1075)

def isNaN (x : Number) : Bool :=
  x.exponentBits == 2047 && x.fractionBits != 0

/-- The double nearest to `m * 10 ^ e`, ties to even. Past the range of doubles it is infinity
or zero; the two tests keep the powers of ten small. -/
def ofDecimal (m : Nat) (e : Int) : Number :=
  let top := e + (Nat.toDigits 10 m).length
  if m == 0 then zero
  else if top > 400 then infinity
  else if top < -400 then zero
  else ofFloat (Float.ofScientific m (e < 0) e.natAbs)

end Number

end RegisterCompiler
