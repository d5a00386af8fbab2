import RegisterCompiler.Number

/-!
# Binary formats

The IEEE formats of 16, 32 and 64 bits differ in the widths of their exponent and fraction.
-/

namespace RegisterCompiler

/-- A binary format, by the widths of its exponent and fraction. -/
structure Binary where
  exponentBits : Nat
  fractionBits : Nat

namespace Binary

def half : Binary := ⟨5, 10⟩
def single : Binary := ⟨8, 23⟩
def double : Binary := ⟨11, 52⟩

def bias (f : Binary) : Int :=
  Nat.pow 2 (f.exponentBits - 1) - 1

def least (f : Binary) : Int :=
  1 - f.bias

def signWeight (f : Binary) : Nat :=
  Nat.pow 2 (f.exponentBits + f.fractionBits)

/-- The weight of the exponent's lowest bit, which is also that of a normal number's leading bit. -/
def unit (f : Binary) : Nat :=
  Nat.pow 2 f.fractionBits

def oddPart : (fuel : Nat) → (m : Nat) → (q : Int) → Nat × Int
  | 0, m, q => (m, q)
  | k + 1, m, q => if m % 2 = 0 then oddPart k (m / 2) (q + 1) else (m, q)

/-- The bits of `m * 2 ^ q`, or of its negative, if the format holds that number exactly. -/
def pack? (f : Binary) (negative : Bool) (m : Nat) (q : Int) : Option Nat :=
  let sign := if negative then f.signWeight else 0
  if m = 0 then some sign
  else
    let (m, q) := oddPart m.log2 m q
    let top := q + m.log2
    let lowest := max top f.least - f.fractionBits
    if top > f.bias ∨ q < lowest then none
    else
      let scaled := m * Nat.pow 2 (q - lowest).toNat
      let exponent := if top ≥ f.least then (top + f.bias - 1).toNat else 0
      some (sign + exponent * f.unit + scaled)

def unpack (f : Binary) (bits : Nat) : Bool × Number.Shape :=
  let e := bits / f.unit % Nat.pow 2 f.exponentBits
  let m := bits % f.unit
  let shape : Number.Shape :=
    if e = Nat.pow 2 f.exponentBits - 1 then (if m = 0 then .infinite else .nan)
    else if e = 0 then .finite m (f.least - f.fractionBits)
    else .finite (m + f.unit) (e - f.bias - f.fractionBits)
  (bits / f.signWeight % 2 == 1, shape)

end Binary

namespace Number

def notANumber : Number := ⟨0x7ff8000000000000⟩

def ofShape? (negative : Bool) : Shape → Option Number
  | .nan => some notANumber
  | .infinite => some (if negative then ⟨0xfff0000000000000⟩ else infinity)
  | .finite m q => (Binary.double.pack? negative m q).map fun n => ⟨UInt64.ofNat n⟩

/-- A number in the shortest format that holds it exactly. -/
inductive Narrow where
  | half (bits : Nat)
  | single (bits : Nat)
  | double (bits : Nat)

/-- The shortest format that holds a number exactly. What is not a number has one form only. -/
def narrowest (x : Number) : Narrow :=
  match x.shape with
  | .nan => .half 0x7e00
  | .infinite => .half (if x.negative then 0xfc00 else 0x7c00)
  | .finite m q =>
    match Binary.half.pack? x.negative m q with
    | some n => .half n
    | none =>
      match Binary.single.pack? x.negative m q with
      | some n => .single n
      | none => .double x.bits.toNat

end Number

end RegisterCompiler
