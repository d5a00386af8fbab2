import RegisterCompiler.Number

/-!
# Decimal digits of a double

All digit work is exact arithmetic on the ratio `num / den` that the double stands for.
-/

namespace RegisterCompiler

/-- The number `0.d₁d₂… * 10 ^ point`; no digit list ends in a zero. -/
structure Decimal where
  digits : Bytes
  point : Int

namespace Decimal

def tenTo (k : Nat) : Nat :=
  Nat.pow 10 k

/-- The numerator and denominator of `m * 2 ^ q`. -/
def ratio (m : Nat) (q : Int) : Nat × Nat :=
  if q < 0 then (m, Nat.shiftLeft 1 q.natAbs) else (Nat.shiftLeft m q.natAbs, 1)

/-- For `num < den`: the number of zeros between the point and the first digit of `num / den`. -/
def leadingZeros (num den : Nat) : (fuel : Nat) → Nat
  | 0 => 0
  | k + 1 => if num * 10 ≥ den then 0 else leadingZeros (num * 10) den k + 1

/-- The `p` with `10 ^ (p - 1) ≤ num / den < 10 ^ p`. No double has 400 leading zeros. -/
def pointOf (num den : Nat) : Int :=
  if num ≥ den then ((Nat.toDigits 10 (num / den)).length : Int)
  else -(leadingZeros num den 400 : Int)

/-- `num / den` in units of `10 ^ (point - n)`. -/
def inUnits (num den n : Nat) (point : Int) : Nat × Nat :=
  let shift := (n : Int) - point
  if shift < 0 then (num, den * tenTo shift.natAbs) else (num * tenTo shift.natAbs, den)

/-- The digits of `c`, the last of which stands for `10 ^ (point - n)` when `c` has `n` digits. -/
def ofCount (c n : Nat) (point : Int) : Decimal :=
  let ds := Nat.toDigits 10 c
  let kept := (ds.reverse.dropWhile (· == '0')).reverse
  ⟨kept.map (·.toUInt8), point + ((ds.length : Int) - n)⟩

/-- The quotient rounded to the nearest integer, a half going to the even one. -/
def roundDiv (num den : Nat) : Nat :=
  let c := num / den
  let twice := 2 * (num % den)
  if twice > den ∨ (twice = den ∧ c % 2 = 1) then c + 1 else c

/-- The nearest decimal of `n` significant digits to `m * 2 ^ q`. -/
def rounded (n m : Nat) (q : Int) : Decimal :=
  if m == 0 then ⟨[], 0⟩
  else
    let r := ratio m q
    let p := pointOf r.1 r.2
    let u := inUnits r.1 r.2 n p
    ofCount (roundDiv u.1 u.2) n p

/-- Of the two decimals of `n` digits around `m * 2 ^ q`, the nearer one that lies in the interval
of reals that round to it. In quarters of a unit in the last place the value is `4 * m`, the
interval reaches up by 2 and down by `below`, and its ends belong to it when `closed`. -/
def candidate (n m : Nat) (q : Int) (p : Int) (below : Nat) (closed : Bool) : Option Decimal :=
  let scale (quarters : Nat) : Nat × Nat :=
    let r := ratio quarters (q - 2)
    inUnits r.1 r.2 n p
  let v := scale (4 * m)
  let lo := (scale (4 * m - below)).1
  let hi := (scale (4 * m + 2)).1
  let inside (c : Nat) : Bool :=
    let x := c * v.2
    if closed then lo ≤ x && x ≤ hi else lo < x && x < hi
  let c := v.1 / v.2
  let gap := v.1 % v.2
  match inside c, inside (c + 1) with
  | true, true =>
    if 2 * gap < v.2 ∨ (2 * gap = v.2 ∧ c % 2 = 0) then some (ofCount c n p)
    else some (ofCount (c + 1) n p)
  | true, false => some (ofCount c n p)
  | false, true => some (ofCount (c + 1) n p)
  | false, false => none

def search (m : Nat) (q p : Int) (below : Nat) (closed : Bool) : (fuel n : Nat) → Decimal
  | 0, n => rounded n m q
  | k + 1, n =>
    match candidate n m q p below closed with
    | some d => d
    | none => search m q p below closed k (n + 1)

/-- The shortest decimal that reads back as `m * 2 ^ q`, and of those the nearest. Seventeen
digits always suffice. Below a power of two the neighbouring double is half as far away. -/
def shortest (m : Nat) (q : Int) : Decimal :=
  if m == 0 then ⟨[], 0⟩
  else
    let r := ratio m q
    let below := if m == 0x10000000000000 && q > -1074 then 1 else 2
    search m q (pointOf r.1 r.2) below (m % 2 == 0) 16 1

def positional (d : Decimal) : Bytes :=
  let zero := '0'.toUInt8
  let whole :=
    if d.point ≤ 0 then [zero]
    else
      let n := d.point.natAbs
      d.digits.take n ++ List.replicate (n - d.digits.length) zero
  let fraction :=
    if d.point < 0 then List.replicate d.point.natAbs zero ++ d.digits
    else d.digits.drop d.point.natAbs
  if fraction.isEmpty then whole else whole ++ bytes "." ++ fraction

def scientific (d : Decimal) : Bytes :=
  let e := d.point - 1
  let mantissa := d.digits.take 1 ++
    (if d.digits.length > 1 then bytes "." ++ d.digits.drop 1 else [])
  mantissa ++ bytes (if e < 0 then "e-" else "e+") ++ Bytes.zeroPad 2 (Bytes.ofNat e.natAbs)

end Decimal

/-- How numbers are written: `digits` significant digits, or as few as read back; an exponent from
`10 ^ wide` on and below `10 ^ (-4)`; the words for the values that have no digits. -/
structure Style where
  digits : Option Nat
  wide : Int
  plusInfinity : String
  minusInfinity : String
  nan : String

def Number.render (style : Style) (x : Number) : Bytes :=
  match x.shape with
  | .nan => bytes style.nan
  | .infinite => bytes (if x.negative then style.minusInfinity else style.plusInfinity)
  | .finite m q =>
    let d :=
      match style.digits with
      | some n => Decimal.rounded n m q
      | none => Decimal.shortest m q
    let e := d.point - 1
    let text := if e < -4 ∨ e ≥ style.wide then d.scientific else d.positional
    if x.negative then bytes "-" ++ text else text

end RegisterCompiler
